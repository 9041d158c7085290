import Path64.Access.Vector

/-!
# Access vectors are exact

* `Wn.value`, `AccessVector.eval` : the value of an expression and of its summary, over the integers;
* `Adds` : a step that adds a known value, unless it gives up; `addSum_run` : the induction rule for runs of `Add_Sum`;
* `addNonlin_spec` : the products are those of the terms of the expression, which have its value;
* `addSum_adds` : `Add_Sum` adds a multiple of the expression and its `foldError`, what folded right shifts and products
  that lose factors get wrong;
* `agrees_set` : arithmetic that wraps does what exact arithmetic does, unless a result does not fit;
* `set_exact_iff` : a vector that is not too messy has the value of its expression just when what its products lose
  cancels, so where no product has a number of factors that `Len` takes for one; `set_loses_factors` : a product that has.
-/

namespace Path64.Access

open Lib

variable {α : Type}

/-! ## Values -/

/-- The value of an expression; conversions between integral types keep it. -/
def Wn.value (env : α → Int) (rest : Nat → Int) : Wn α → Int
  | .add kid0 kid1 => kid0.value env rest + kid1.value env rest
  | .sub kid0 kid1 => kid0.value env rest - kid1.value env rest
  | .neg kid0 => -kid0.value env rest
  | .mpy kid0 kid1 => kid0.value env rest * kid1.value env rest
  | .intconst val => val
  | .ldid symbol _ => env symbol
  | .paren kid0 => kid0.value env rest
  | .cvt _ kid0 => kid0.value env rest
  | .cvtl _ kid0 => kid0.value env rest
  | .shl _ kid0 kid1 => kid0.value env rest * 2 ^ (kid1.value env rest).toNat
  | .ashr _ kid0 kid1 => kid0.value env rest / 2 ^ (kid1.value env rest).toNat
  | .max kid0 kid1 => Max.max (kid0.value env rest) (kid1.value env rest)
  | .min kid0 kid1 => Min.min (kid0.value env rest) (kid1.value env rest)
  | .intrinsicOp .divFloor kid0 kid1 => (kid0.value env rest).fdiv (kid1.value env rest)
  | .intrinsicOp .divCeil kid0 kid1 => -(-kid0.value env rest).fdiv (kid1.value env rest)
  | .intrinsicOp (.rest id) _ _ => rest id
  | .rest id => rest id

/-- The product of symbols. -/
def prodValue (env : α → Int) (l : List (SymbolNode α)) : Int := (l.map fun node => env node.symbol).prod

def sumprodValue (env : α → Int) (l : List (SumprodNode α)) : Int :=
  (l.map fun node => node.coeff * prodValue env node.prodList).sum

def linValue (env : α → Int) (l : List (IntsymbNode α)) : Int := (l.map fun node => node.coeff * env node.symbol).sum

/-- The value a vector stands for. -/
def AccessVector.eval (v : AccessVector α) (stack : List α) (env : α → Int) : Int :=
  v.constOffset + ∑ i : Fin stack.length, v.loopCoeff i * env (stack.get i) + linValue env (v.linSymb.getD []) +
    sumprodValue env (v.nonLinSymb.getD [])

theorem sumprodValue_append (env : α → Int) (l l' : List (SumprodNode α)) :
    sumprodValue env (l ++ l') = sumprodValue env l + sumprodValue env l' := by
  simp [sumprodValue]

theorem sumprodValue_cons (env : α → Int) (node : SumprodNode α) (l : List (SumprodNode α)) :
    sumprodValue env (node :: l) = node.coeff * prodValue env node.prodList + sumprodValue env l := by
  simp [sumprodValue]

theorem linValue_cons (env : α → Int) (node : IntsymbNode α) (l : List (IntsymbNode α)) :
    linValue env (node :: l) = node.coeff * env node.symbol + linValue env l := by
  simp [linValue]

/-! ## Products -/

variable {stack : List α} {env : α → Int} {v v' v'' : AccessVector α} {x y coeff : Int}

/-- The numbers of factors of the products an expression expands to. -/
def factors : Wn α → List Nat
  | .add kid0 kid1 => factors kid0 ++ factors kid1
  | .sub kid0 kid1 => factors kid0 ++ factors kid1
  | .neg kid0 => factors kid0
  | .mpy kid0 kid1 => (factors kid0).flatMap fun n => (factors kid1).map (n + ·)
  | .intconst _ => [0]
  | .ldid _ _ => [1]
  | _ => []

/-- The products of the terms of two sums; a term is a coefficient and its symbols. -/
def timesTerms (ts us : List (Int × List α)) : List (Int × List α) :=
  us.flatMap fun u => ts.map fun t => (t.1 * u.1, t.2 ++ u.2)

/-- The terms of an expression that is multiplied out. -/
def terms : Wn α → List (Int × List α)
  | .add kid0 kid1 => terms kid0 ++ terms kid1
  | .sub kid0 kid1 => terms kid0 ++ timesTerms (terms kid1) [(-1, [])]
  | .neg kid0 => timesTerms [(-1, [])] (terms kid0)
  | .mpy kid0 kid1 => timesTerms (terms kid0) (terms kid1)
  | .intconst val => [(val, [])]
  | .ldid symbol _ => [(1, [symbol])]
  | _ => []

/-- The sum of some terms, each list of symbols taken at `w`. -/
def termsSum (w : List α → Int) (ts : List (Int × List α)) : Int := (ts.map fun t => t.1 * w t.2).sum

/-- The sum of some products, each list of symbols taken at `w`. -/
def weigh (w : List α → Int) (l : List (SumprodNode α)) : Int :=
  (l.map fun node => node.coeff * w (node.prodList.map (·.symbol))).sum

theorem termsSum_cons (w : List α → Int) (t : Int × List α) (ts : List (Int × List α)) :
    termsSum w (t :: ts) = t.1 * w t.2 + termsSum w ts := by
  simp [termsSum]

theorem termsSum_append (w : List α → Int) (ts us : List (Int × List α)) :
    termsSum w (ts ++ us) = termsSum w ts + termsSum w us := by
  simp [termsSum]

theorem termsSum_timesTerms (w : List α → Int) (ts us : List (Int × List α)) :
    termsSum w (timesTerms ts us) = termsSum (fun s => termsSum (fun s' => w (s' ++ s)) ts) us := by
  induction us with
  | nil => rfl
  | cons u us ih =>
    have hhead : termsSum w (ts.map fun t => (t.1 * u.1, t.2 ++ u.2)) = u.1 * termsSum (fun s' => w (s' ++ u.2)) ts := by
      rw [termsSum, termsSum, List.map_map, ← List.sum_map_mul_left]
      refine congrArg List.sum (List.map_congr_left fun t _ => ?_)
      show t.1 * u.1 * w (t.2 ++ u.2) = u.1 * (t.1 * w (t.2 ++ u.2))
      ring
    rw [termsSum_cons, ← ih, ← hhead, ← termsSum_append]
    rfl

theorem weigh_cons (w : List α → Int) (node : SumprodNode α) (l : List (SumprodNode α)) :
    weigh w (node :: l) = node.coeff * w (node.prodList.map (·.symbol)) + weigh w l := by
  simp [weigh]

theorem weigh_append (w : List α → Int) (l l' : List (SumprodNode α)) : weigh w (l ++ l') = weigh w l + weigh w l' := by
  simp [weigh]

/-- The value of a list of symbols. -/
def symbolsValue (env : α → Int) (s : List α) : Int := (s.map env).prod

theorem termsSum_symbolsValue_timesTerms (env : α → Int) (ts us : List (Int × List α)) :
    termsSum (symbolsValue env) (timesTerms ts us) = termsSum (symbolsValue env) ts * termsSum (symbolsValue env) us := by
  have hmul : ∀ s : List α, termsSum (fun s' => symbolsValue env (s' ++ s)) ts =
      symbolsValue env s * termsSum (symbolsValue env) ts := by
    intro s
    rw [termsSum, termsSum, ← List.sum_map_mul_left]
    refine congrArg List.sum (List.map_congr_left fun t _ => ?_)
    rw [symbolsValue, List.map_append, List.prod_append, symbolsValue, symbolsValue]
    ring
  rw [termsSum_timesTerms, funext hmul]
  generalize termsSum (symbolsValue env) ts = x
  rw [termsSum, termsSum, ← List.sum_map_mul_left]
  refine congrArg List.sum (List.map_congr_left fun u _ => ?_)
  ring

theorem termsSum_negate (env : α → Int) : termsSum (symbolsValue env) [(-1, [])] = -1 := rfl

/-- `l'` is the sum `l` times the terms `ts`, whatever the lists of symbols stand for. -/
def Expands (l l' : List (SumprodNode α)) (ts : List (Int × List α)) : Prop :=
  ∀ w : List α → Int, weigh w l' = termsSum (fun s => weigh (fun s' => w (s' ++ s)) l) ts

theorem negateMe_expands {l l' : List (SumprodNode α)} (h : negateMe l = some l') : Expands l l' [(-1, [])] := by
  intro w
  simp only [termsSum, List.map_singleton, List.sum_singleton, List.append_nil]
  induction l generalizing l' with
  | nil =>
    cases h
    rfl
  | cons node l ih =>
    rw [negateMe] at h
    split_ifs at h
    obtain ⟨rest, hrest, rfl⟩ := Option.map_eq_some_iff.mp h
    rw [weigh_cons, weigh_cons, ih hrest]
    ring

theorem scale_expands {offset : Int} {l l' : List (SumprodNode α)} (h : scale checked offset l = .ok (some l')) :
    Expands l l' [(offset, [])] := by
  intro w
  simp only [termsSum, List.map_singleton, List.sum_singleton, List.append_nil]
  induction l generalizing l' with
  | nil =>
    cases h
    exact (Int.mul_zero offset).symm
  | cons node l ih =>
    rw [scale] at h
    obtain ⟨c, hc, hrest⟩ := bind_eq_ok.mp h
    split_ifs at hrest
    · cases hrest
    · obtain ⟨o, ho, hret⟩ := bind_eq_ok.mp hrest
      cases o with
      | none => cases hret
      | some rest =>
        cases hret
        rw [weigh_cons, weigh_cons, ih ho, int64_eq_ok hc]
        ring

theorem appendSymbol_expands (symbol : α) (isLoopVar : Bool) (l : List (SumprodNode α)) :
    Expands l (appendSymbol symbol isLoopVar l) [(1, [symbol])] := by
  intro w
  simp [weigh, appendSymbol, termsSum, Function.comp_def]

theorem Expands.merge {l l₁ l₂ : List (SumprodNode α)} {ts us : List (Int × List α)} (h₁ : Expands l l₁ ts)
    (h₂ : Expands l l₂ us) : Expands l (l₁ ++ l₂) (ts ++ us) := by
  intro w
  rw [weigh_append, h₁, h₂, termsSum_append]

theorem Expands.trans {l l₁ l₂ : List (SumprodNode α)} {ts us : List (Int × List α)} (h₁ : Expands l l₁ ts)
    (h₂ : Expands l₁ l₂ us) : Expands l l₂ (timesTerms ts us) := by
  intro w
  rw [h₂, termsSum_timesTerms]
  refine congrArg (termsSum · us) (funext fun u => ?_)
  rw [h₁]
  simp only [List.append_assoc]

theorem mergeUnlessMessy_ok {o o₂ : Option (List (SumprodNode α))} {tooMessy : Bool} {l : List (SumprodNode α)}
    (h : mergeUnlessMessy o o₂ tooMessy = .ok (some l, false)) :
    ∃ l₁ l₂, o = some l₁ ∧ o₂ = some l₂ ∧ tooMessy = false ∧ l = l₁ ++ l₂ := by
  unfold mergeUnlessMessy at h
  split_ifs at h with hm
  · cases h
  · split at h
    · cases h
      exact ⟨_, _, rfl, rfl, Bool.eq_false_iff.mpr hm, rfl⟩
    · cases h

theorem len_eq_one {β : Type} {l : List β} (h : len l = 1) : l.length % 2 ^ 16 = 1 := by
  have hmod : (l.length : Int).bmod (2 ^ 16) % (2 ^ 16 : Nat) = (l.length : Int) % (2 ^ 16 : Nat) := Int.bmod_emod
  rw [show (l.length : Int).bmod (2 ^ 16) = 1 from h, show (1 : Int) % (2 ^ 16 : Nat) = 1 by norm_num] at hmod
  exact_mod_cast hmod.symm

theorem len_congr {β γ : Type} {l : List β} {l' : List γ} (h : l.length = l'.length) : len l = len l' := by
  unfold len
  rw [h]

/-- What is kept of a product: one that `Len` takes for a single symbol becomes its first. -/
def keptValue (env : α → Int) : List α → Int
  | [] => 1
  | symbol :: s => if len (symbol :: s) = 1 then env symbol else symbolsValue env (symbol :: s)

theorem keptValue_eq (env : α → Int) {s : List α} (h : len s = 1 → s.length = 1) :
    keptValue env s = symbolsValue env s := by
  cases s with
  | nil => rfl
  | cons symbol s =>
    rw [keptValue]
    split_ifs with hlen
    · have hnil : s = [] := List.eq_nil_of_length_eq_zero (Nat.succ.inj (h hlen))
      rw [hnil, symbolsValue, List.map_singleton, List.prod_singleton]
    · rfl

/-- What an expression loses when its products are moved. -/
def lostFactors (env : α → Int) (wn : Wn α) : Int :=
  termsSum (fun s => keptValue env s - symbolsValue env s) (terms wn)

theorem mem_timesTerms {ts us : List (Int × List α)} {t : Int × List α} (h : t ∈ timesTerms ts us) :
    ∃ t₁ ∈ ts, ∃ t₂ ∈ us, t.2 = t₁.2 ++ t₂.2 := by
  obtain ⟨t₂, ht₂, ht⟩ := List.mem_flatMap.mp h
  obtain ⟨t₁, ht₁, rfl⟩ := List.mem_map.mp ht
  exact ⟨t₁, ht₁, t₂, ht₂, rfl⟩

theorem length_mem_factors {wn : Wn α} {t : Int × List α} (h : t ∈ terms wn) : t.2.length ∈ factors wn := by
  induction wn generalizing t with
  | add kid0 kid1 ih0 ih1 =>
    rcases List.mem_append.mp h with h0 | h1
    · exact List.mem_append_left _ (ih0 h0)
    · exact List.mem_append_right _ (ih1 h1)
  | sub kid0 kid1 ih0 ih1 =>
    rcases List.mem_append.mp h with h0 | h1
    · exact List.mem_append_left _ (ih0 h0)
    · obtain ⟨t₁, ht₁, t₂, ht₂, heq⟩ := mem_timesTerms h1
      rw [heq, List.mem_singleton.mp ht₂, List.append_nil]
      exact List.mem_append_right _ (ih1 ht₁)
  | neg kid0 ih =>
    obtain ⟨t₁, ht₁, t₂, ht₂, heq⟩ := mem_timesTerms h
    rw [heq, List.mem_singleton.mp ht₁, List.nil_append]
    exact ih ht₂
  | mpy kid0 kid1 ih0 ih1 =>
    obtain ⟨t₁, ht₁, t₂, ht₂, heq⟩ := mem_timesTerms h
    rw [heq, List.length_append]
    exact List.mem_flatMap.mpr ⟨_, ih0 ht₁, List.mem_map.mpr ⟨_, ih1 ht₂, rfl⟩⟩
  | intconst val =>
    rw [List.mem_singleton.mp h]
    exact List.mem_singleton_self 0
  | ldid symbol isVolatile =>
    rw [List.mem_singleton.mp h]
    exact List.mem_singleton_self 1
  | _ => exact absurd h List.not_mem_nil

theorem lostFactors_eq_zero (env : α → Int) {wn : Wn α} (hfit : ∀ n ∈ factors wn, n % 2 ^ 16 = 1 → n = 1) :
    lostFactors env wn = 0 := by
  refine List.sum_eq_zero fun x hx => ?_
  obtain ⟨t, ht, rfl⟩ := List.mem_map.mp hx
  show t.1 * (keptValue env t.2 - symbolsValue env t.2) = 0
  rw [keptValue_eq env fun hlen => hfit _ (length_mem_factors ht) (len_eq_one hlen), Int.sub_self, Int.mul_zero]

theorem lostFactors_nil (env : α → Int) (allowNonlin : Bool) (x c : Int) {wn : Wn α} (h : terms wn = []) :
    x + (if allowNonlin then c * lostFactors env wn else 0) = x + 0 := by
  rw [lostFactors, h, termsSum, List.map_nil, List.sum_nil, Int.mul_zero, ite_self]

theorem weigh_keptValue (env : α → Int) {l : List (SumprodNode α)} (h : ∀ node ∈ l, len node.prodList ≠ 1) :
    weigh (keptValue env) l = sumprodValue env l := by
  refine congrArg List.sum (List.map_congr_left fun node hnode => ?_)
  have hlen : len (node.prodList.map (·.symbol)) = len node.prodList := len_congr (List.length_map _)
  rw [keptValue_eq env fun hone => absurd (hlen.symm.trans hone) (h node hnode), symbolsValue, prodValue, List.map_map]
  rfl

/-! ## Adding a symbol -/

/-- The array of coefficients has the size it was made with, and linear products have been moved. -/
structure AccessVector.WF (v : AccessVector α) : Prop where
  lcoeff : ∀ l ∈ v.lcoeff, l.length = v.nestDepth
  products : ∀ node ∈ v.nonLinSymb.getD [], len node.prodList ≠ 1

/-- From `v` to `v'` the measure `f` of a vector grew by `x`, or the vector was given up. -/
structure Adds (f : AccessVector α → Int) (v v' : AccessVector α) (x : Int) : Prop where
  wf : v.WF → v'.WF
  messy : v'.tooMessy = false → v.tooMessy = false
  grows : v.WF → v'.tooMessy = false → f v' = f v + x

section Measure

variable {f : AccessVector α → Int}

theorem Adds.trans (h : Adds f v v' x) (h' : Adds f v' v'' y) : Adds f v v'' (x + y) where
  wf hv := h'.wf (h.wf hv)
  messy hm := h.messy (h'.messy hm)
  grows hv hm := by rw [h'.grows (h.wf hv) hm, h.grows hv (h'.messy hm), Int.add_assoc]

theorem Adds.of_eq (h : Adds f v v' x) (hxy : x = y) : Adds f v v' y := hxy ▸ h

theorem adds_messy (v : AccessVector α) (x : Int) : Adds f v v.messy x where
  wf hv := ⟨hv.lcoeff, hv.products⟩
  messy hm := nomatch hm
  grows _ hm := nomatch hm

theorem adds_constOffset {offset : Int} (hf : v.WF → f { v with constOffset := offset } = f v + x) :
    Adds f v { v with constOffset := offset } x :=
  ⟨fun hv => ⟨hv.lcoeff, hv.products⟩, fun hm => hm, fun hv _ => hf hv⟩

end Measure

theorem constVal_some {wn : Wn α} {val : Int} (h : constVal wn = some val) : wn = .intconst val := by
  cases wn with
  | intconst _ =>
    cases h
    rfl
  | _ => exact nomatch h

theorem loopCoeff_eq (v : AccessVector α) (j : Nat) :
    v.loopCoeff j = if j < v.nestDepth then (v.lcoeff.getD (List.replicate v.nestDepth 0)).getD j 0 else 0 := by
  unfold AccessVector.loopCoeff
  cases v.lcoeff with
  | some l => rfl
  | none =>
    split_ifs with hj
    · simp [hj]
    · rfl

theorem AccessVector.WF.length_lcoeff (hv : v.WF) :
    (v.lcoeff.getD (List.replicate v.nestDepth 0)).length = v.nestDepth := by
  cases hc : v.lcoeff with
  | none => exact List.length_replicate
  | some l => exact hv.lcoeff l hc

theorem loopCoeff_set (hv : v.WF) {i : Nat} (hi : i < v.nestDepth) (val : Int) (j : Nat) :
    ({ v with lcoeff := some ((v.lcoeff.getD (List.replicate v.nestDepth 0)).set i val) } : AccessVector α).loopCoeff j =
      if j = i then val else v.loopCoeff j := by
  rw [loopCoeff_eq v]
  show (if j < v.nestDepth then ((v.lcoeff.getD (List.replicate v.nestDepth 0)).set i val).getD j 0 else 0) = _
  rw [List.getD_eq_getElem?_getD]
  by_cases hj : j = i
  · rw [hj, if_pos hi, if_pos rfl, List.getElem?_set_self (by rw [hv.length_lcoeff]; exact hi), Option.getD_some]
  · rw [if_neg hj, List.getElem?_set_ne (Ne.symm hj), ← List.getD_eq_getElem?_getD]

theorem eval_nonLinSymb (v : AccessVector α) (l : List (SumprodNode α)) (stack : List α) (env : α → Int) :
    ({ v with nonLinSymb := some l } : AccessVector α).eval stack env =
      v.eval stack env - sumprodValue env (v.nonLinSymb.getD []) + sumprodValue env l := by
  unfold AccessVector.eval
  show v.constOffset + ∑ i : Fin stack.length, v.loopCoeff i * env (stack.get i) + _ + sumprodValue env l = _
  ring

theorem eval_constOffset (v : AccessVector α) (offset : Int) (stack : List α) (env : α → Int) :
    ({ v with constOffset := offset } : AccessVector α).eval stack env = v.eval stack env - v.constOffset + offset := by
  unfold AccessVector.eval
  show offset + ∑ i : Fin stack.length, v.loopCoeff i * env (stack.get i) + _ + _ = _
  ring

theorem addConst_eq {val : Int} (h : addConst checked v coeff val = .ok v') :
    v' = { v with constOffset := v.constOffset + coeff * val } := by
  unfold addConst at h
  obtain ⟨term, hterm, h⟩ := bind_eq_ok.mp h
  obtain ⟨offset, hoffset, h⟩ := bind_eq_ok.mp h
  cases h
  have hval : term = coeff * val := by
    unfold constTerm at hterm
    split_ifs at hterm with h1 hm1
    · cases hterm
      rw [h1, Int.one_mul]
    · cases hterm
      rw [hm1, Int.neg_one_mul]
    · exact int64_eq_ok hterm
  rw [int64_eq_ok hoffset, hval]

section Symbols

variable [DecidableEq α]

theorem loopIndex_some {symbol : α} {i : Nat} (h : loopIndex stack symbol = some i) :
    ∃ hi : i < stack.length, stack.get ⟨i, hi⟩ = symbol := by
  obtain ⟨hi, heq, -⟩ := List.findIdx?_eq_some_iff_getElem.mp h
  exact ⟨hi, by simpa using heq⟩

/-- `v'` is `v` with a multiple of a symbol: in the coefficient of its loop, or else among the linear symbols. -/
structure AddedSymbol (stack : List α) (v v' : AccessVector α) (coeff : Int) (symbol : α) : Prop where
  nestDepth : v'.nestDepth = v.nestDepth
  constOffset : v'.constOffset = v.constOffset
  nonLinSymb : v'.nonLinSymb = v.nonLinSymb
  loopCoeff : ∀ j, v'.loopCoeff j = v.loopCoeff j + if loopIndex stack symbol = some j then coeff else 0
  linSymb : ∀ env, linValue env (v'.linSymb.getD []) =
    linValue env (v.linSymb.getD []) + if loopIndex stack symbol = none then coeff * env symbol else 0

/-- The coefficients of the loops, weighted by `pos`: only that of the symbol, if it is an index, has changed. -/
theorem AddedSymbol.sum_loopCoeff {symbol : α} (h : AddedSymbol stack v v' coeff symbol) (pos : Fin stack.length → Int) :
    ∑ j : Fin stack.length, v'.loopCoeff j * pos j = ∑ j : Fin stack.length, v.loopCoeff j * pos j +
      ∑ j : Fin stack.length, if loopIndex stack symbol = some j.val then coeff * pos j else 0 := by
  rw [← Finset.sum_add_distrib]
  refine Finset.sum_congr rfl fun j _ => ?_
  rw [h.loopCoeff, Int.add_mul, ite_mul, Int.zero_mul]

omit [DecidableEq α] in
theorem sum_ite_index {i : Nat} (hi : i < stack.length) (g : Fin stack.length → Int) :
    (∑ j : Fin stack.length, if some i = some j.val then g j else 0) = g ⟨i, hi⟩ := by
  rw [Finset.sum_eq_single ⟨i, hi⟩ (fun j _ hj => ?_) (fun hmem => absurd (Finset.mem_univ _) hmem)]
  · rw [if_pos rfl]
  · rw [if_neg fun heq => hj (Fin.ext (Option.some.inj heq).symm)]

/-- The value gains the multiple of the symbol. -/
theorem AddedSymbol.eval {symbol : α} (h : AddedSymbol stack v v' coeff symbol) (env : α → Int) :
    v'.eval stack env = v.eval stack env + coeff * env symbol := by
  unfold AccessVector.eval
  rw [h.constOffset, h.nonLinSymb, h.linSymb, h.sum_loopCoeff fun j => env (stack.get j)]
  cases hi : loopIndex stack symbol with
  | none =>
    rw [if_pos rfl, Finset.sum_eq_zero fun j _ => if_neg (Option.some_ne_none _).symm]
    ring
  | some i =>
    obtain ⟨hlt, hsymbol⟩ := loopIndex_some hi
    rw [sum_ite_index hlt, hsymbol, if_neg (Option.some_ne_none i)]
    ring

/-- What adding to the coefficient of a loop does. -/
theorem addLoopCoeff_spec {symbol : α} {i : Nat} (hi : loopIndex stack symbol = some i)
    (h : addLoopCoeff v i coeff = .ok v') : (v.WF → v'.WF) ∧ (v'.tooMessy = false → v.tooMessy = false) ∧
      (v.WF → v'.tooMessy = false → AddedSymbol stack v v' coeff symbol) := by
  unfold addLoopCoeff at h
  cases hold : (v.lcoeff.getD (List.replicate v.nestDepth 0))[i]? with
  | none =>
    simp only [hold] at h
    exact nomatch h
  | some old =>
    simp only [hold] at h
    obtain ⟨hil, hget⟩ := List.getElem?_eq_some_iff.mp hold
    split_ifs at h with hover
    · cases h
      refine ⟨fun hv => ⟨?_, hv.products⟩, (fun hm => nomatch hm), (fun _ hm => nomatch hm)⟩
      rintro l ⟨⟩
      exact hv.length_lcoeff
    · cases h
      refine ⟨fun hv => ⟨?_, hv.products⟩, fun hm => hm, fun hv _ => ⟨rfl, rfl, rfl, fun j => ?_, fun env => ?_⟩⟩
      · rintro l ⟨⟩
        rw [List.length_set]
        exact hv.length_lcoeff
      · have hnd : i < v.nestDepth := hv.length_lcoeff ▸ hil
        rw [loopCoeff_set hv hnd, hi]
        by_cases hj : j = i
        · have hval : v.loopCoeff i = old := by
            rw [loopCoeff_eq, if_pos hnd, List.getD_eq_getElem?_getD, hold, Option.getD_some]
          rw [if_pos hj, if_pos (congrArg some hj.symm), hj, hval, Int.add_comm]
        · rw [if_neg hj, if_neg fun heq => hj (Option.some.inj heq).symm, Int.add_zero]
      · rw [hi, if_neg (Option.some_ne_none i), Int.add_zero]

theorem mergeSymbol_value (env : α → Int) {symbol : α} {l l' : List (IntsymbNode α)}
    (h : mergeSymbol coeff symbol l = some (some l')) : linValue env l' = linValue env l + coeff * env symbol := by
  induction l generalizing l' with
  | nil => exact nomatch h
  | cons node l ih =>
    rw [mergeSymbol] at h
    split_ifs at h with heq hover hzero
    · exact nomatch h
    · cases h
      have hcoeff : node.coeff = -coeff := by omega
      rw [linValue_cons, heq, hcoeff]
      ring
    · cases h
      rw [linValue_cons, linValue_cons, heq]
      ring
    · obtain ⟨o, ho, hl⟩ := Option.map_eq_some_iff.mp h
      obtain ⟨l'', rfl, rfl⟩ := Option.map_eq_some_iff.mp hl
      rw [linValue_cons, linValue_cons, ih ho]
      ring

theorem addLinSymb_spec {symbol : α} (hi : loopIndex stack symbol = none) (v : AccessVector α) (coeff : Int) :
    (v.WF → (addLinSymb v coeff symbol).WF) ∧ ((addLinSymb v coeff symbol).tooMessy = false → v.tooMessy = false) ∧
      ((addLinSymb v coeff symbol).tooMessy = false → AddedSymbol stack v (addLinSymb v coeff symbol) coeff symbol) := by
  have hcoeff : ∀ l j, ({ v with linSymb := l } : AccessVector α).loopCoeff j =
      v.loopCoeff j + if loopIndex stack symbol = some j then coeff else 0 := by
    intro l j
    rw [hi, if_neg (Option.some_ne_none j).symm, Int.add_zero]
    rfl
  unfold addLinSymb
  cases h : mergeSymbol coeff symbol (v.linSymb.getD []) with
  | none =>
    simp only [h]
    refine ⟨fun hv => ⟨hv.lcoeff, hv.products⟩, fun hm => hm, fun _ => ⟨rfl, rfl, rfl, hcoeff _, fun env => ?_⟩⟩
    rw [Option.getD_some, linValue_cons, if_pos hi, Int.add_comm]
  | some o =>
    cases o with
    | none =>
      simp only [h]
      exact ⟨fun hv => ⟨hv.lcoeff, hv.products⟩, (fun hm => nomatch hm), (fun hm => nomatch hm)⟩
    | some l =>
      simp only [h]
      refine ⟨fun hv => ⟨hv.lcoeff, hv.products⟩, fun hm => hm, fun _ => ⟨rfl, rfl, rfl, hcoeff _, fun env => ?_⟩⟩
      rw [Option.getD_some, mergeSymbol_value env h, if_pos hi]

/-- `Add_Symbol` adds its term, and nothing else changes. -/
theorem addSymbol_spec {symbol : α} {isVolatile : Bool} (h : addSymbol stack v coeff symbol isVolatile = .ok v') :
    (v.WF → v'.WF) ∧ (v'.tooMessy = false → v.tooMessy = false) ∧
      (v.WF → v'.tooMessy = false → AddedSymbol stack v v' coeff symbol) := by
  unfold addSymbol at h
  split_ifs at h
  · cases h
    exact ⟨fun hv => ⟨hv.lcoeff, hv.products⟩, (fun hm => nomatch hm), (fun _ hm => nomatch hm)⟩
  · cases h
    exact ⟨fun hv => ⟨hv.lcoeff, hv.products⟩, (fun hm => nomatch hm), (fun _ hm => nomatch hm)⟩
  · cases hi : loopIndex stack symbol with
    | some i =>
      rw [hi] at h
      exact addLoopCoeff_spec hi h
    | none =>
      rw [hi] at h
      cases h
      obtain ⟨hwf, hmessy, hadded⟩ := addLinSymb_spec hi v coeff
      exact ⟨hwf, hmessy, fun _ => hadded⟩

theorem addSymbol_adds {f : AccessVector α → Int} {symbol : α} {isVolatile : Bool}
    (hf : AddedSymbol stack v v' coeff symbol → f v' = f v + x)
    (h : addSymbol stack v coeff symbol isVolatile = .ok v') : Adds f v v' x := by
  obtain ⟨hwf, hmessy, hadded⟩ := addSymbol_spec h
  exact ⟨hwf, hmessy, fun hv hm => hf (hadded hv hm)⟩

theorem addSymbol_nonLinSymb {symbol : α} {isVolatile : Bool}
    (h : addSymbol stack v coeff symbol isVolatile = .ok v') : v'.nonLinSymb = v.nonLinSymb := by
  unfold addSymbol addLoopCoeff addLinSymb at h
  split_ifs at h
  · cases h
    rfl
  · cases h
    rfl
  · simp only at h
    split at h
    · split at h
      · exact nomatch h
      · split_ifs at h <;> cases h <;> rfl
    · cases h
      split <;> rfl

/-! ## Moving what is linear -/

theorem moveLinear_keeps {a : Arith} {l : List (SumprodNode α)} {r : AccessVector α × List (SumprodNode α)}
    (h : moveLinear a stack l v = .ok r) : (v.WF → r.1.WF) ∧ (r.1.tooMessy = false → v.tooMessy = false) ∧
      r.1.nonLinSymb = v.nonLinSymb ∧ ∀ node ∈ r.2, len node.prodList ≠ 1 := by
  induction l generalizing v r with
  | nil =>
    cases h
    exact ⟨fun hv => hv, fun hm => hm, rfl, fun node hnode => absurd hnode List.not_mem_nil⟩
  | cons node l ih =>
    rw [moveLinear] at h
    split at h
    · obtain ⟨offset, -, htail⟩ := bind_eq_ok.mp h
      obtain ⟨hwf, hmessy, hlist, hleft⟩ := ih htail
      exact ⟨fun hv => hwf ⟨hv.lcoeff, hv.products⟩, hmessy, hlist, hleft⟩
    · split_ifs at h with hlen
      · obtain ⟨v₁, hv₁, htail⟩ := bind_eq_ok.mp h
        obtain ⟨hwf, hmessy, hlist, hleft⟩ := ih htail
        obtain ⟨hwf₁, hmessy₁, -⟩ := addSymbol_spec hv₁
        exact ⟨fun hv => hwf (hwf₁ hv), fun hm => hmessy₁ (hmessy hm),
          hlist.trans (addSymbol_nonLinSymb hv₁), hleft⟩
      · obtain ⟨r', hr', hret⟩ := bind_eq_ok.mp h
        cases hret
        obtain ⟨hwf, hmessy, hlist, hleft⟩ := ih hr'
        refine ⟨hwf, hmessy, hlist, fun node' hnode' => ?_⟩
        rcases List.mem_cons.mp hnode' with rfl | hmem
        · exact hlen
        · exact hleft node' hmem

/-- Constants and single symbols go to the vector, the other products stay. -/
theorem moveLinear_adds (env : α → Int) {l : List (SumprodNode α)} {r : AccessVector α × List (SumprodNode α)}
    (h : moveLinear checked stack l v = .ok r) :
    Adds (fun u => u.eval stack env) v r.1 (weigh (keptValue env) l - sumprodValue env r.2) := by
  induction l generalizing v r with
  | nil =>
    cases h
    refine ⟨fun hv => ⟨hv.lcoeff, hv.products⟩, fun hm => hm, fun _ _ => ?_⟩
    exact (Int.add_zero _).symm
  | cons node l ih =>
    rw [moveLinear] at h
    rw [weigh_cons]
    split at h
    · next hnil =>
      obtain ⟨offset, hoffset, htail⟩ := bind_eq_ok.mp h
      have hadd : Adds (fun u => u.eval stack env) v { v with constOffset := offset } node.coeff := by
        refine adds_constOffset fun _ => ?_
        rw [eval_constOffset, int64_eq_ok hoffset]
        ring
      refine (hadd.trans (ih htail)).of_eq ?_
      rw [hnil, List.map_nil, keptValue]
      ring
    · next first others hcons =>
      have hlen' : len (first.symbol :: others.map (·.symbol)) = len node.prodList :=
        len_congr (by rw [hcons, List.length_cons, List.length_cons, List.length_map])
      rw [hcons, List.map_cons, keptValue, hlen']
      split_ifs at h ⊢ with hlen
      · obtain ⟨v₁, hv₁, htail⟩ := bind_eq_ok.mp h
        refine ((addSymbol_adds (fun hadded => hadded.eval env) hv₁).trans (ih htail)).of_eq ?_
        ring
      · obtain ⟨r', hr', hret⟩ := bind_eq_ok.mp h
        cases hret
        refine (ih hr').of_eq ?_
        have hvalue : symbolsValue env (first.symbol :: others.map (·.symbol)) = prodValue env node.prodList := by
          rw [hcons, symbolsValue, prodValue, List.map_cons, List.map_cons, List.map_map]
          rfl
        rw [sumprodValue_cons, hvalue]
        ring

/-! ## The nonlinear part -/

theorem addNonlin_messy (a : Arith) (wn : Wn α) (l : List (SumprodNode α)) :
    addNonlin a stack wn l true = .ok (none, true) := by
  unfold addNonlin
  cases wn <;> rfl

/-- The products that `Add_Nonlin` returns are those of the list times the terms of the expression, which have its
value. -/
theorem addNonlin_spec (env : α → Int) (rest : Nat → Int) {wn : Wn α} {l l' : List (SumprodNode α)}
    (h : addNonlin checked stack wn l false = .ok (some l', false)) :
    Expands l l' (terms wn) ∧ termsSum (symbolsValue env) (terms wn) = wn.value env rest := by
  induction wn generalizing l l' with
  | add kid0 kid1 ih0 ih1 =>
    rw [addNonlin] at h
    obtain ⟨⟨o, m⟩, hr, h⟩ := bind_eq_ok.mp h
    obtain ⟨⟨o₂, m₂⟩, hr₂, h⟩ := bind_eq_ok.mp h
    obtain ⟨l₁, l₂, rfl, rfl, rfl, rfl⟩ := mergeUnlessMessy_ok h
    cases m with
    | true =>
      rw [addNonlin_messy] at hr₂
      cases hr₂
    | false =>
      obtain ⟨hexp0, hval0⟩ := ih0 hr
      obtain ⟨hexp1, hval1⟩ := ih1 hr₂
      refine ⟨hexp0.merge hexp1, ?_⟩
      rw [terms, termsSum_append, hval0, hval1, Wn.value]
  | sub kid0 kid1 ih0 ih1 =>
    rw [addNonlin] at h
    obtain ⟨⟨o₂, m₂⟩, hr₂, h⟩ := bind_eq_ok.mp h
    simp only at h
    split at h
    · cases h
    · next list2 hneg =>
      obtain ⟨⟨o, m⟩, hr, h⟩ := bind_eq_ok.mp h
      obtain ⟨l₁, l₂, rfl, hl₂, rfl, rfl⟩ := mergeUnlessMessy_ok h
      cases m₂ with
      | true =>
        rw [addNonlin_messy] at hr
        cases hr
      | false =>
        obtain ⟨l₀, rfl, rfl⟩ := Option.map_eq_some_iff.mp hl₂
        obtain ⟨hexp0, hval0⟩ := ih0 hr
        obtain ⟨hexp1, hval1⟩ := ih1 hr₂
        refine ⟨hexp0.merge (hexp1.trans (negateMe_expands hneg)), ?_⟩
        rw [terms, termsSum_append, termsSum_symbolsValue_timesTerms, hval0, hval1, termsSum_negate, Wn.value]
        ring
  | neg kid0 ih =>
    rw [addNonlin] at h
    split at h
    · cases h
    · next list hneg =>
      obtain ⟨hexp, hval⟩ := ih h
      refine ⟨(negateMe_expands hneg).trans hexp, ?_⟩
      rw [terms, termsSum_symbolsValue_timesTerms, hval, termsSum_negate, Wn.value]
      ring
  | mpy kid0 kid1 ih0 ih1 =>
    rw [addNonlin] at h
    obtain ⟨⟨o, m⟩, hr, h⟩ := bind_eq_ok.mp h
    cases o with
    | none => cases h
    | some list =>
      cases m with
      | true =>
        simp only [addNonlin_messy] at h
        cases h
      | false =>
        obtain ⟨hexp0, hval0⟩ := ih0 hr
        obtain ⟨hexp1, hval1⟩ := ih1 h
        refine ⟨hexp0.trans hexp1, ?_⟩
        rw [terms, termsSum_symbolsValue_timesTerms, hval0, hval1, Wn.value]
  | intconst val =>
    rw [addNonlin] at h
    obtain ⟨o, ho, h⟩ := bind_eq_ok.mp h
    cases h
    refine ⟨scale_expands ho, ?_⟩
    simp [terms, termsSum, symbolsValue, Wn.value]
  | ldid symbol isVolatile =>
    rw [addNonlin] at h
    cases h
    refine ⟨appendSymbol_expands symbol _ l, ?_⟩
    simp [terms, termsSum, symbolsValue, Wn.value]
  | _ => cases h

/-- No product that goes to `Add_Nonlin` has a number of factors an `mINT16` takes for one. -/
def CountsFit : Wn α → Prop
  | .add kid0 kid1 => CountsFit kid0 ∧ CountsFit kid1
  | .sub kid0 kid1 => CountsFit kid0 ∧ CountsFit kid1
  | .neg kid0 => CountsFit kid0
  | .mpy kid0 kid1 =>
    match constVal kid0, constVal kid1 with
    | some _, _ => CountsFit kid1
    | none, some _ => CountsFit kid0
    | none, none => ∀ n ∈ factors (.mpy kid0 kid1), n % 2 ^ 16 = 1 → n = 1
  | .paren kid0 => CountsFit kid0
  | .cvt _ kid0 => CountsFit kid0
  | .cvtl _ kid0 => CountsFit kid0
  | _ => True

/-- No shifts. -/
def NoShift : Wn α → Prop
  | .add kid0 kid1 => NoShift kid0 ∧ NoShift kid1
  | .sub kid0 kid1 => NoShift kid0 ∧ NoShift kid1
  | .neg kid0 => NoShift kid0
  | .mpy kid0 kid1 => NoShift kid0 ∧ NoShift kid1
  | .paren kid0 => NoShift kid0
  | .cvt _ kid0 => NoShift kid0
  | .cvtl _ kid0 => NoShift kid0
  | .max kid0 kid1 => NoShift kid0 ∧ NoShift kid1
  | .min kid0 kid1 => NoShift kid0 ∧ NoShift kid1
  | .intrinsicOp _ kid0 kid1 => NoShift kid0 ∧ NoShift kid1
  | .shl _ _ _ => False
  | .ashr _ _ _ => False
  | _ => True

/-- What is kept of a vector whatever the arithmetic. -/
structure Keeps (v v' : AccessVector α) : Prop where
  wf : v.WF → v'.WF
  messy : v'.tooMessy = false → v.tooMessy = false

omit [DecidableEq α] in
theorem keeps_refl (v : AccessVector α) : Keeps v v := ⟨fun hv => hv, fun hm => hm⟩

omit [DecidableEq α] in
theorem Keeps.trans (h : Keeps v v') (h' : Keeps v' v'') : Keeps v v'' :=
  ⟨fun hv => h'.wf (h.wf hv), fun hm => h.messy (h'.messy hm)⟩

omit [DecidableEq α] in
theorem keeps_messy (v : AccessVector α) : Keeps v v.messy := ⟨fun hv => ⟨hv.lcoeff, hv.products⟩, fun hm => nomatch hm⟩

/-- A product is summed up from a list that `Add_Nonlin` returned for a vector that was not given up, or else the vector is. -/
theorem addProduct_keeps {a : Arith} {wn : Wn α} {allowNonlin : Bool}
    (h : addProduct a stack wn coeff allowNonlin v = .ok v') : Keeps v v' ∧ (v'.tooMessy = false → allowNonlin = true ∧
      ∃ tmp left, addNonlin a stack wn [⟨[], coeff⟩] false = .ok (some tmp, false) ∧
        moveLinear a stack (v.nonLinSymb.getD [] ++ tmp) { v with tooMessy := false } = .ok left ∧
        v' = { left.1 with nonLinSymb := some left.2 }) := by
  unfold addProduct at h
  split_ifs at h with hallow
  · cases h
    exact ⟨keeps_messy v, fun hm => nomatch hm⟩
  · cases h
    exact ⟨keeps_messy v, fun hm => nomatch hm⟩
  obtain ⟨⟨o, m⟩, hr, h⟩ := bind_eq_ok.mp h
  obtain ⟨left, hleft, h⟩ := bind_eq_ok.mp h
  cases h
  obtain ⟨hwf, hmessy, -, hkept⟩ := moveLinear_keeps hleft
  have hwf' : v.WF → ({ left.1 with nonLinSymb := (joinProducts v.nonLinSymb o).map fun _ => left.2 } : AccessVector α).WF := by
    intro hv
    refine ⟨(hwf ⟨hv.lcoeff, hv.products⟩).lcoeff, ?_⟩
    cases joinProducts v.nonLinSymb o with
    | none => exact fun node hnode => absurd hnode List.not_mem_nil
    | some _ => exact hkept
  have hclean : left.1.tooMessy = false → m = false ∧ o.isNone = false ∧ v.tooMessy = false := by
    intro hm
    obtain ⟨hm', ho⟩ := Bool.or_eq_false_iff.mp (hmessy hm)
    refine ⟨hm', ho, ?_⟩
    cases hv : v.tooMessy with
    | false => rfl
    | true =>
      rw [hv, addNonlin_messy] at hr
      cases hr
      cases hm'
  refine ⟨⟨hwf', fun hm => (hclean hm).2.2⟩, fun hm => ⟨by simpa using hallow, ?_⟩⟩
  obtain ⟨rfl, ho, hvm⟩ := hclean hm
  cases o with
  | none => cases ho
  | some tmp =>
    rw [hvm] at hr
    have hjoin : joinProducts v.nonLinSymb (some tmp) = some (v.nonLinSymb.getD [] ++ tmp) := by
      cases v.nonLinSymb <;> rfl
    refine ⟨tmp, left, hr, ?_, ?_⟩
    · rw [hjoin] at hleft
      exact hleft
    · rw [hjoin]
      rfl

/-- A product of two expressions, less what its terms lose. -/
theorem addProduct_adds (env : α → Int) (rest : Nat → Int) {wn : Wn α} {allowNonlin : Bool}
    (h : addProduct checked stack wn coeff allowNonlin v = .ok v') :
    Adds (fun u => u.eval stack env) v v' (coeff * wn.value env rest + if allowNonlin then coeff * lostFactors env wn else 0) := by
  obtain ⟨hkeeps, hclean⟩ := addProduct_keeps h
  refine ⟨hkeeps.wf, hkeeps.messy, fun hv hm => ?_⟩
  obtain ⟨hallow, tmp, left, hr, hleft, rfl⟩ := hclean hm
  rw [if_pos hallow]
  obtain ⟨hexp, hval⟩ := addNonlin_spec env rest hr
  have htmp : weigh (keptValue env) tmp = coeff * wn.value env rest + coeff * lostFactors env wn := by
    rw [hexp, ← hval, lostFactors, ← Int.mul_add, termsSum, termsSum, termsSum, ← List.sum_map_add,
      ← List.sum_map_mul_left]
    refine congrArg List.sum (List.map_congr_left fun t _ => ?_)
    simp only [weigh, List.map_singleton, List.sum_singleton, List.map_nil, List.nil_append]
    ring
  obtain ⟨-, -, hlist, -⟩ := moveLinear_keeps hleft
  have hadd := moveLinear_adds env hleft
  rw [eval_nonLinSymb, hlist, hadd.grows ⟨hv.lcoeff, hv.products⟩ hm, weigh_append, weigh_keptValue env hv.products, htmp]
  show v.eval stack env + _ - _ + _ = _
  ring

theorem shiftLeft_eq {c c' count : Int} (h : shiftLeft checked c count = .ok c') : c' = c * 2 ^ count.toNat := by
  obtain ⟨_, -, h⟩ := bind_eq_ok.mp h
  exact int64_eq_ok h

theorem shiftRight_eq {c c' count : Int} (h : shiftRight c count = .ok c') : c' = c / 2 ^ count.toNat := by
  obtain ⟨_, -, h⟩ := bind_eq_ok.mp h
  cases h
  rfl

/-- What folding `>> k` into the coefficient `c` of the value `x` adds. -/
def shiftError (c : Int) (k : Nat) (x : Int) : Int := c / 2 ^ k * (x % 2 ^ k) - c % 2 ^ k * (x / 2 ^ k)

/-- What the summary of a multiple of an expression differs by from its value: the right shifts that are folded into
the coefficient, and the products that lose factors. -/
def foldError (allowNonlin : Bool) (env : α → Int) (rest : Nat → Int) : Wn α → Int → Int
  | .add kid0 kid1, c => foldError allowNonlin env rest kid0 c + foldError allowNonlin env rest kid1 c
  | .sub kid0 kid1, c => foldError allowNonlin env rest kid0 c + foldError allowNonlin env rest kid1 (-c)
  | .neg kid0, c => foldError allowNonlin env rest kid0 (-c)
  | .mpy kid0 kid1, c =>
    match constVal kid0, constVal kid1 with
    | some val, _ => foldError allowNonlin env rest kid1 (c * val)
    | none, some val => foldError allowNonlin env rest kid0 (c * val)
    | none, none => if allowNonlin then c * lostFactors env (.mpy kid0 kid1) else 0
  | .paren kid0, c => foldError allowNonlin env rest kid0 c
  | .cvt _ kid0, c => foldError allowNonlin env rest kid0 c
  | .cvtl _ kid0, c => foldError allowNonlin env rest kid0 c
  | .shl _ kid0 kid1, c =>
    match constVal kid1 with
    | some count => foldError allowNonlin env rest kid0 (c * 2 ^ count.toNat)
    | none => 0
  | .ashr _ kid0 kid1, c =>
    match constVal kid1 with
    | some count =>
      foldError allowNonlin env rest kid0 (c / 2 ^ count.toNat) + shiftError c count.toNat (kid0.value env rest)
    | none => 0
  | _, _ => 0

theorem shiftError_eq (c : Int) (k : Nat) (x : Int) : shiftError c k x = c / 2 ^ k * x - c * (x / 2 ^ k) := by
  have hc := Int.emod_add_mul_ediv c (2 ^ k)
  have hx := Int.emod_add_mul_ediv x (2 ^ k)
  rw [shiftError]
  linear_combination c / 2 ^ k * hx - x / 2 ^ k * hc

omit [DecidableEq α] in
theorem foldError_eq_zero (env : α → Int) (rest : Nat → Int) {allowNonlin : Bool} {wn : Wn α} (hs : NoShift wn)
    (hfit : allowNonlin = true → CountsFit wn) (c : Int) : foldError allowNonlin env rest wn c = 0 := by
  induction wn generalizing c with
  | add kid0 kid1 ih0 ih1 =>
    rw [foldError, ih0 hs.1 fun ha => (hfit ha).1, ih1 hs.2 fun ha => (hfit ha).2, Int.add_zero]
  | sub kid0 kid1 ih0 ih1 =>
    rw [foldError, ih0 hs.1 fun ha => (hfit ha).1, ih1 hs.2 fun ha => (hfit ha).2, Int.add_zero]
  | neg kid0 ih => exact ih hs hfit (-c)
  | mpy kid0 kid1 ih0 ih1 =>
    simp only [CountsFit] at hfit
    rw [foldError]
    cases h0 : constVal kid0 with
    | some val =>
      simp only [h0] at hfit
      exact ih1 hs.2 hfit _
    | none =>
      cases h1 : constVal kid1 with
      | some val =>
        simp only [h0, h1] at hfit
        exact ih0 hs.1 hfit _
      | none =>
        simp only [h0, h1] at hfit
        show (if allowNonlin = true then _ else _) = _
        split_ifs with ha
        · rw [lostFactors_eq_zero env (hfit ha), Int.mul_zero]
        · rfl
  | paren kid0 ih => exact ih hs hfit c
  | cvt opc kid0 ih => exact ih hs hfit c
  | cvtl bits kid0 ih => exact ih hs hfit c
  | shl _ _ _ _ _ => exact hs.elim
  | ashr _ _ _ _ _ => exact hs.elim
  | _ => rfl

/-- What a multiple of an expression adds to a measure for which a constant 1 counts `one`, a symbol `f`, and a product
or any other node `other`; a folded shift changes the coefficient. -/
def gain (one : Int) (f : α → Int) (other : Wn α → Int → Int) : Wn α → Int → Int
  | .add kid0 kid1, c => gain one f other kid0 c + gain one f other kid1 c
  | .sub kid0 kid1, c => gain one f other kid0 c + gain one f other kid1 (-c)
  | .neg kid0, c => gain one f other kid0 (-c)
  | .mpy kid0 kid1, c =>
    match constVal kid0, constVal kid1 with
    | some val, _ => gain one f other kid1 (c * val)
    | none, some val => gain one f other kid0 (c * val)
    | none, none => other (.mpy kid0 kid1) c
  | .intconst val, c => c * val * one
  | .ldid symbol _, c => c * f symbol
  | .paren kid0, c => gain one f other kid0 c
  | .cvt _ kid0, c => gain one f other kid0 c
  | .cvtl _ kid0, c => gain one f other kid0 c
  | .shl underArray kid0 kid1, c =>
    match constVal kid1 with
    | some count => gain one f other kid0 (c * 2 ^ count.toNat)
    | none => other (.shl underArray kid0 kid1) c
  | .ashr underArray kid0 kid1, c =>
    match constVal kid1 with
    | some count => gain one f other kid0 (c / 2 ^ count.toNat)
    | none => other (.ashr underArray kid0 kid1) c
  | wn, c => other wn c

omit [DecidableEq α] in
/-- What is added is linear in what the nodes count. -/
theorem gain_add_mul (one one' k : Int) (f f' : α → Int) (o o' : Wn α → Int → Int) (wn : Wn α) (c : Int) :
    gain (one + k * one') (fun symbol => f symbol + k * f' symbol) (fun wn c => o wn c + k * o' wn c) wn c =
      gain one f o wn c + k * gain one' f' o' wn c := by
  induction wn generalizing c with
  | add kid0 kid1 ih0 ih1 =>
    rw [gain, gain, gain, ih0, ih1]
    ring
  | sub kid0 kid1 ih0 ih1 =>
    rw [gain, gain, gain, ih0, ih1]
    ring
  | neg kid0 ih => exact ih (-c)
  | mpy kid0 kid1 ih0 ih1 =>
    rw [gain, gain, gain]
    cases constVal kid0 with
    | some val => exact ih1 (c * val)
    | none =>
      cases constVal kid1 with
      | some val => exact ih0 (c * val)
      | none => rfl
  | intconst val =>
    rw [gain, gain, gain]
    ring
  | ldid symbol isVolatile =>
    rw [gain, gain, gain]
    ring
  | paren kid0 ih => exact ih c
  | cvt opc kid0 ih => exact ih c
  | cvtl bits kid0 ih => exact ih c
  | shl underArray kid0 kid1 ih0 _ =>
    rw [gain, gain, gain]
    cases constVal kid1 with
    | some count => exact ih0 _
    | none => rfl
  | ashr underArray kid0 kid1 ih0 _ =>
    rw [gain, gain, gain]
    cases constVal kid1 with
    | some count => exact ih0 _
    | none => rfl
  | _ => rfl

/-- How the steps of `Add_Sum` change the measure `m`. -/
structure Measures (stack : List α) (allowNonlin : Bool) (m : AccessVector α → Int) (one : Int) (f : α → Int)
    (other : Wn α → Int → Int) : Prop where
  const : ∀ {v offset}, m { v with constOffset := v.constOffset + offset } = m v + offset * one
  symbol : ∀ {v v' coeff symbol}, AddedSymbol stack v v' coeff symbol → m v' = m v + coeff * f symbol
  product : ∀ {v v' wn coeff}, addProduct checked stack wn coeff allowNonlin v = .ok v' → Adds m v v' (other wn coeff)

/-- The symbols an expression is the sum of, in the order in which they are added, each with its coefficient; none where it is
not linear. -/
def linTerms : Wn α → Int → Option (List (α × Int))
  | .add kid0 kid1, c => do
    let ts ← linTerms kid0 c
    let us ← linTerms kid1 c
    return ts ++ us
  | .sub kid0 kid1, c => do
    let ts ← linTerms kid0 c
    let us ← linTerms kid1 (-c)
    return ts ++ us
  | .neg kid0, c => linTerms kid0 (-c)
  | .mpy kid0 kid1, c =>
    match constVal kid0, constVal kid1 with
    | some val, _ => linTerms kid1 (c * val)
    | none, some val => linTerms kid0 (c * val)
    | none, none => none
  | .ldid symbol isVolatile, c => if isVolatile then none else some [(symbol, c)]
  | .intconst _, _ => some []
  | .paren kid0, c => linTerms kid0 c
  | .cvt .i8i4 kid0, c => linTerms kid0 c
  | .cvt .u8i4 kid0, c => linTerms kid0 c
  | .cvt .i4u8 (.cvtl 32 kid), c => linTerms kid c
  | .shl true kid0 kid1, c => (constVal kid1).bind fun count => linTerms kid0 (c * 2 ^ count.toNat)
  | .ashr true kid0 kid1, c => (constVal kid1).bind fun count => linTerms kid0 (c / 2 ^ count.toNat)
  | _, _ => none

/-- What holds of the runs of `Add_Sum` when its steps keep it: `P wn c v v'` for a run on `c` times `wn` from `v` to `v'`. -/
structure SumSteps (a : Arith) (stack : List α) (allowNonlin : Bool)
    (P : Wn α → Int → AccessVector α → AccessVector α → Prop) : Prop where
  stop : ∀ {wn c v}, v.tooMessy = true → P wn c v v
  give : ∀ {wn c v}, linTerms wn c = none → P wn c v v.messy
  add : ∀ {kid0 kid1 c v v₁ v'}, P kid0 c v v₁ → P kid1 c v₁ v' → P (.add kid0 kid1) c v v'
  sub : ∀ {kid0 kid1 c c' v v₁ v'}, a.int64 (-c) = .ok c' → P kid0 c v v₁ → P kid1 c' v₁ v' → P (.sub kid0 kid1) c v v'
  neg : ∀ {kid0 c c' v v'}, a.int64 (-c) = .ok c' → P kid0 c' v v' → P (.neg kid0) c v v'
  mpyLeft : ∀ {kid0 kid1 val c c' v v'}, constVal kid0 = some val → a.int64 (c * val) = .ok c' → P kid1 c' v v' →
    P (.mpy kid0 kid1) c v v'
  mpyRight : ∀ {kid0 kid1 val c c' v v'}, constVal kid0 = none → constVal kid1 = some val → a.int64 (c * val) = .ok c' →
    P kid0 c' v v' → P (.mpy kid0 kid1) c v v'
  product : ∀ {kid0 kid1 c v v'}, constVal kid0 = none → constVal kid1 = none →
    addProduct a stack (.mpy kid0 kid1) c allowNonlin v = .ok v' → P (.mpy kid0 kid1) c v v'
  symbol : ∀ {symbol isVolatile c v v'}, v.tooMessy = false → addSymbol stack v c symbol isVolatile = .ok v' →
    P (.ldid symbol isVolatile) c v v'
  const : ∀ {val c v v'}, addConst a v c val = .ok v' → P (.intconst val) c v v'
  paren : ∀ {kid0 c v v'}, P kid0 c v v' → P (.paren kid0) c v v'
  i8i4 : ∀ {kid0 c v v'}, P kid0 c v v' → P (.cvt .i8i4 kid0) c v v'
  u8i4 : ∀ {kid0 c v v'}, P kid0 c v v' → P (.cvt .u8i4 kid0) c v v'
  i4u8 : ∀ {kid c v v'}, P kid c v v' → P (.cvt .i4u8 (.cvtl 32 kid)) c v v'
  shl : ∀ {kid0 kid1 count c c' v v'}, constVal kid1 = some count → shiftLeft a c count = .ok c' → P kid0 c' v v' →
    P (.shl true kid0 kid1) c v v'
  ashr : ∀ {kid0 kid1 count c c' v v'}, constVal kid1 = some count → shiftRight c count = .ok c' → P kid0 c' v v' →
    P (.ashr true kid0 kid1) c v v'

theorem addSum_run {a : Arith} {allowNonlin : Bool} {P : Wn α → Int → AccessVector α → AccessVector α → Prop}
    (hP : SumSteps a stack allowNonlin P) {wn : Wn α} {c : Int} (h : addSum a stack allowNonlin wn c v = .ok v') :
    P wn c v v' := by
  induction wn, c, v using addSum.induct generalizing v' with
  | case1 wn c v hm =>
    rw [addSum.eq_def] at h
    simp only [hm, if_true] at h
    cases h
    exact hP.stop hm
  | case2 c v hm kid0 kid1 ih0 ih1 =>
    rw [addSum, if_neg hm] at h
    obtain ⟨v₁, h0, h1⟩ := bind_eq_ok.mp h
    exact hP.add (ih0 h0) (ih1 v₁ h1)
  | case3 c v hm kid0 kid1 ih0 ih1 =>
    rw [addSum, if_neg hm] at h
    obtain ⟨v₁, h0, h⟩ := bind_eq_ok.mp h
    obtain ⟨c', hc', h1⟩ := bind_eq_ok.mp h
    exact hP.sub hc' (ih0 h0) (ih1 v₁ c' h1)
  | case4 c v hm kid0 ih =>
    rw [addSum, if_neg hm] at h
    obtain ⟨c', hc', h⟩ := bind_eq_ok.mp h
    exact hP.neg hc' (ih c' h)
  | case5 c v hm kid0 kid1 val hval ih =>
    rw [addSum, if_neg hm] at h
    simp only [hval] at h
    obtain ⟨c', hc', h⟩ := bind_eq_ok.mp h
    exact hP.mpyLeft hval hc' (ih c' h)
  | case6 c v hm kid0 kid1 val hval hnone ih =>
    rw [addSum, if_neg hm] at h
    simp only [hnone, hval] at h
    obtain ⟨c', hc', h⟩ := bind_eq_ok.mp h
    exact hP.mpyRight hnone hval hc' (ih c' h)
  | case7 c v hm kid0 kid1 hnone1 hnone0 =>
    rw [addSum, if_neg hm] at h
    simp only [hnone0, hnone1] at h
    exact hP.product hnone0 hnone1 h
  | case8 c v hm symbol isVolatile =>
    rw [addSum, if_neg hm] at h
    exact hP.symbol (Bool.eq_false_iff.mpr hm) h
  | case9 c v hm val =>
    rw [addSum, if_neg hm] at h
    exact hP.const h
  | case10 c v hm kid0 ih =>
    rw [addSum, if_neg hm] at h
    exact hP.paren (ih h)
  | case11 c v hm kid0 ih =>
    rw [addSum, if_neg hm] at h
    exact hP.i8i4 (ih h)
  | case12 c v hm kid0 ih =>
    rw [addSum, if_neg hm] at h
    exact hP.u8i4 (ih h)
  | case13 c v hm kid ih =>
    rw [addSum, if_neg hm] at h
    exact hP.i4u8 (ih h)
  | case14 c v hm kid0 kid1 count hcount ih =>
    rw [addSum, if_neg hm] at h
    simp only [hcount] at h
    obtain ⟨c', hc', h⟩ := bind_eq_ok.mp h
    exact hP.shl hcount hc' (ih c' h)
  | case15 c v hm kid0 kid1 hnone =>
    rw [addSum, if_neg hm] at h
    simp only [hnone] at h
    cases h
    exact hP.give (by rw [linTerms, hnone]; rfl)
  | case16 c v hm kid0 kid1 count hcount ih =>
    rw [addSum, if_neg hm] at h
    simp only [hcount] at h
    obtain ⟨c', hc', h⟩ := bind_eq_ok.mp h
    exact hP.ashr hcount hc' (ih c' h)
  | case17 c v hm kid0 kid1 hnone =>
    rw [addSum, if_neg hm] at h
    simp only [hnone] at h
    cases h
    exact hP.give (by rw [linTerms, hnone]; rfl)
  | case18 wn c v hm hadd hsub hneg hmpy hldid hconst hparen h8 hu8 h4 hshl hashr =>
    rw [addSum.eq_def] at h
    simp only [if_neg hm] at h
    cases h
    exact hP.give (by rw [linTerms] <;> assumption)

/-- Whatever the arithmetic, `Add_Sum` keeps the array of coefficients, and a vector that was given up. -/
theorem addSum_keeps {a : Arith} {allowNonlin : Bool} {wn : Wn α} {c : Int}
    (h : addSum a stack allowNonlin wn c v = .ok v') : Keeps v v' := by
  refine addSum_run (P := fun _ _ v v' => Keeps v v') ?_ h
  exact {
    stop := fun _ => keeps_refl _
    give := fun _ => keeps_messy _
    add := fun h0 h1 => h0.trans h1
    sub := fun _ h0 h1 => h0.trans h1
    neg := fun _ h => h
    mpyLeft := fun _ _ h => h
    mpyRight := fun _ _ _ h => h
    product := fun _ _ h => (addProduct_keeps h).1
    symbol := fun _ h => ⟨(addSymbol_spec h).1, (addSymbol_spec h).2.1⟩
    const := fun {val c v v'} h => by
      obtain ⟨_, -, h⟩ := bind_eq_ok.mp h
      obtain ⟨_, -, h⟩ := bind_eq_ok.mp h
      cases h
      exact ⟨fun hv => ⟨hv.lcoeff, hv.products⟩, fun hm => hm⟩
    paren := fun h => h
    i8i4 := fun h => h
    u8i4 := fun h => h
    i4u8 := fun h => h
    shl := fun _ _ h => h
    ashr := fun _ _ h => h }

/-- `Add_Sum` adds what the expression counts. -/
theorem addSum_summarised {allowNonlin : Bool} {m : AccessVector α → Int} {one : Int} {f : α → Int}
    {other : Wn α → Int → Int} (hm : Measures stack allowNonlin m one f other) {wn : Wn α} {c : Int}
    (h : addSum checked stack allowNonlin wn c v = .ok v') : Adds m v v' (gain one f other wn c) := by
  refine addSum_run (P := fun wn c v v' => Adds m v v' (gain one f other wn c)) ?_ h
  exact {
    stop := fun hv => ⟨fun hwf => hwf, fun hm => hm, fun _ hm => absurd hv (by rw [hm]; exact Bool.false_ne_true)⟩
    give := fun _ => adds_messy _ _
    add := fun h0 h1 => h0.trans h1
    sub := fun hc h0 h1 => by
      rw [int64_eq_ok hc] at h1
      exact h0.trans h1
    neg := fun hc h => by
      rw [int64_eq_ok hc] at h
      exact h
    mpyLeft := fun hval hc h => by
      rw [int64_eq_ok hc] at h
      rw [gain, hval]
      exact h
    mpyRight := fun hnone hval hc h => by
      rw [int64_eq_ok hc] at h
      rw [gain, hnone, hval]
      exact h
    product := fun hnone0 hnone1 h => by
      rw [gain, hnone0, hnone1]
      exact hm.product h
    symbol := fun _ h => addSymbol_adds hm.symbol h
    const := fun h => by
      rw [addConst_eq h]
      exact adds_constOffset fun _ => hm.const
    paren := fun h => h
    i8i4 := fun h => h
    u8i4 := fun h => h
    i4u8 := fun h => h
    shl := fun hcount hc h => by
      rw [shiftLeft_eq hc] at h
      rw [gain, hcount]
      exact h
    ashr := fun hcount hc h => by
      rw [shiftRight_eq hc] at h
      rw [gain, hcount]
      exact h }

/-- The value of a vector is a measure: a product counts what its terms keep. -/
theorem measures_eval (stack : List α) (env : α → Int) (rest : Nat → Int) (allowNonlin : Bool) :
    Measures stack allowNonlin (fun v => v.eval stack env) 1 env
      fun wn c => c * wn.value env rest + if allowNonlin then c * lostFactors env wn else 0 where
  const := by
    intro v offset
    rw [eval_constOffset]
    ring
  symbol hadded := hadded.eval env
  product h := addProduct_adds env rest h

omit [DecidableEq α] in
/-- The value that is added is that of the expression, but for what folding gets wrong. -/
theorem gain_eval (env : α → Int) (rest : Nat → Int) (allowNonlin : Bool) (wn : Wn α) (c : Int) :
    gain 1 env (fun wn c => c * wn.value env rest + if allowNonlin then c * lostFactors env wn else 0) wn c =
      c * wn.value env rest + foldError allowNonlin env rest wn c := by
  induction wn generalizing c with
  | add kid0 kid1 ih0 ih1 =>
    rw [gain, foldError, Wn.value, ih0, ih1]
    ring
  | sub kid0 kid1 ih0 ih1 =>
    rw [gain, foldError, Wn.value, ih0, ih1]
    ring
  | neg kid0 ih =>
    rw [gain, foldError, Wn.value, ih]
    ring
  | mpy kid0 kid1 ih0 ih1 =>
    rw [gain, foldError]
    cases h0 : constVal kid0 with
    | some val =>
      rw [constVal_some h0, Wn.value, Wn.value, ← Int.mul_assoc]
      exact ih1 (c * val)
    | none =>
      cases h1 : constVal kid1 with
      | some val =>
        rw [constVal_some h1, Wn.value, Wn.value, Int.mul_comm (kid0.value env rest), ← Int.mul_assoc]
        exact ih0 (c * val)
      | none => rfl
  | intconst val =>
    show c * val * 1 = c * val + 0
    ring
  | ldid symbol isVolatile => exact (Int.add_zero (c * env symbol)).symm
  | paren kid0 ih => exact ih c
  | cvt opc kid0 ih => exact ih c
  | cvtl bits kid0 ih => exact ih c
  | shl underArray kid0 kid1 ih0 _ =>
    rw [gain, foldError]
    cases h1 : constVal kid1 with
    | some count =>
      rw [constVal_some h1, Wn.value, Wn.value, Int.mul_comm (kid0.value env rest), ← Int.mul_assoc]
      exact ih0 _
    | none =>
      exact lostFactors_nil env allowNonlin _ c rfl
  | ashr underArray kid0 kid1 ih0 _ =>
    rw [gain, foldError]
    cases h1 : constVal kid1 with
    | some count =>
      show gain 1 env _ kid0 _ = _ + (_ + _)
      rw [ih0, shiftError_eq, constVal_some h1, Wn.value, Wn.value]
      ring
    | none =>
      exact lostFactors_nil env allowNonlin _ c rfl
  | _ => exact lostFactors_nil env allowNonlin _ c rfl

/-- `Add_Sum` adds a multiple of the expression, but for what folding gets wrong. -/
theorem addSum_adds (env : α → Int) (rest : Nat → Int) {allowNonlin : Bool} {wn : Wn α} {c : Int}
    (h : addSum checked stack allowNonlin wn c v = .ok v') :
    Adds (fun u => u.eval stack env) v v' (c * wn.value env rest + foldError allowNonlin env rest wn c) :=
  (addSum_summarised (measures_eval stack env rest allowNonlin) h).of_eq (gain_eval env rest allowNonlin wn c)

/-! ## The arithmetic of the source -/

theorem agrees_int32 (x : Int) : AgreesUnless Fault.overflow (checked.int32 x) (wrapped.int32 x) := by
  intro h
  simp only [int32] at h ⊢
  split_ifs at h ⊢ with hx
  · exact congrArg Except.ok (wrap32_eq_iff.mpr hx)
  · exact absurd rfl h

theorem agrees_int64 (x : Int) : AgreesUnless Fault.overflow (checked.int64 x) (wrapped.int64 x) := by
  intro h
  simp only [int64] at h ⊢
  split_ifs at h ⊢ with hx
  · exact congrArg Except.ok (wrap64_eq hx)
  · exact absurd rfl h

omit [DecidableEq α] in
theorem agrees_scale (offset : Int) (l : List (SumprodNode α)) :
    AgreesUnless Fault.overflow (scale checked offset l) (scale wrapped offset l) := by
  induction l with
  | nil => exact agrees_refl _
  | cons node l ih => exact (agrees_int64 _).bind fun _ => agrees_ite (agrees_refl _) (ih.bind fun _ => agrees_refl _)

theorem agrees_addNonlin (stack : List α) (wn : Wn α) (l : List (SumprodNode α)) (m : Bool) :
    AgreesUnless Fault.overflow (addNonlin checked stack wn l m) (addNonlin wrapped stack wn l m) := by
  induction wn, l, m using addNonlin.induct with
  | case1 wn l =>
    rw [addNonlin_messy, addNonlin_messy]
    exact agrees_refl _
  | case2 kid0 kid1 l ih0 ih1 =>
    rw [addNonlin, addNonlin]
    exact ih0.bind fun r => (ih1 r).bind fun _ => agrees_refl _
  | case3 kid0 kid1 l ih1 ih0 =>
    rw [addNonlin, addNonlin]
    refine ih1.bind fun r2 => ?_
    split
    · exact agrees_refl _
    · exact (ih0 r2).bind fun _ => agrees_refl _
  | case4 kid0 l hneg =>
    rw [addNonlin, addNonlin, hneg]
    exact agrees_refl _
  | case5 kid0 l l' hneg ih =>
    rw [addNonlin, addNonlin, hneg]
    exact ih
  | case6 kid0 kid1 l ih0 ih1 =>
    rw [addNonlin, addNonlin]
    refine ih0.bind fun r => ?_
    split
    · exact agrees_refl _
    · exact ih1 r _
  | case7 offset l =>
    rw [addNonlin, addNonlin]
    exact (agrees_scale offset l).bind fun _ => agrees_refl _
  | case8 symbol isVolatile l =>
    rw [addNonlin, addNonlin]
    exact agrees_refl _
  | case9 wn l hadd hsub hneg hmpy hconst hldid =>
    rw [addNonlin, addNonlin] <;> first | assumption | exact agrees_refl _

theorem agrees_moveLinear (stack : List α) (l : List (SumprodNode α)) (v : AccessVector α) :
    AgreesUnless Fault.overflow (moveLinear checked stack l v) (moveLinear wrapped stack l v) := by
  induction l generalizing v with
  | nil => exact agrees_refl _
  | cons node l ih =>
    rw [moveLinear, moveLinear]
    split
    · exact (agrees_int64 _).bind fun _ => ih _
    · exact agrees_ite ((agrees_refl _).bind ih) ((ih v).bind fun _ => agrees_refl _)

theorem agrees_addProduct (stack : List α) (wn : Wn α) (c : Int) (allowNonlin : Bool) (v : AccessVector α) :
    AgreesUnless Fault.overflow (addProduct checked stack wn c allowNonlin v) (addProduct wrapped stack wn c allowNonlin v) :=
  agrees_ite (agrees_refl _) <| agrees_ite (agrees_refl _) <| (agrees_addNonlin _ _ _ _).bind fun _ =>
    (agrees_moveLinear _ _ _).bind fun _ => agrees_refl _

omit [DecidableEq α] in
theorem agrees_addConst (v : AccessVector α) (c val : Int) :
    AgreesUnless Fault.overflow (addConst checked v c val) (addConst wrapped v c val) :=
  (agrees_ite (agrees_refl _) (agrees_ite (agrees_refl _) (agrees_int64 _))).bind fun _ =>
    (agrees_int64 _).bind fun _ => agrees_refl _

theorem agrees_shiftLeft (c count : Int) :
    AgreesUnless Fault.overflow (shiftLeft checked c count) (shiftLeft wrapped c count) :=
  (agrees_refl _).bind fun _ => agrees_int64 _

/-- A run in which every 64-bit result fits is one of exact arithmetic. -/
theorem agrees_addSum (stack : List α) (allowNonlin : Bool) (wn : Wn α) (c : Int) (v : AccessVector α) :
    AgreesUnless Fault.overflow (addSum checked stack allowNonlin wn c v) (addSum wrapped stack allowNonlin wn c v) := by
  induction wn, c, v using addSum.induct with
  | case1 wn c v hm =>
    rw [addSum.eq_def, addSum.eq_def]
    simp only [hm, if_true]
    exact agrees_refl _
  | case2 c v hm kid0 kid1 ih0 ih1 =>
    rw [addSum, addSum, if_neg hm, if_neg hm]
    exact ih0.bind ih1
  | case3 c v hm kid0 kid1 ih0 ih1 =>
    rw [addSum, addSum, if_neg hm, if_neg hm]
    exact ih0.bind fun v₁ => (agrees_int64 _).bind (ih1 v₁)
  | case4 c v hm kid0 ih =>
    rw [addSum, addSum, if_neg hm, if_neg hm]
    exact (agrees_int64 _).bind ih
  | case5 c v hm kid0 kid1 val hval ih =>
    rw [addSum, addSum, if_neg hm, if_neg hm, hval]
    exact (agrees_int64 _).bind ih
  | case6 c v hm kid0 kid1 val hval hnone ih =>
    rw [addSum, addSum, if_neg hm, if_neg hm, hval, hnone]
    exact (agrees_int64 _).bind ih
  | case7 c v hm kid0 kid1 hnone1 hnone0 =>
    rw [addSum, addSum, if_neg hm, if_neg hm, hnone0, hnone1]
    exact agrees_addProduct _ _ _ _ _
  | case9 c v hm val =>
    rw [addSum, addSum, if_neg hm, if_neg hm]
    exact agrees_addConst _ _ _
  | case14 c v hm kid0 kid1 count hcount ih =>
    rw [addSum, addSum, if_neg hm, if_neg hm, hcount]
    exact (agrees_shiftLeft _ _).bind ih
  | case16 c v hm kid0 kid1 count hcount ih =>
    rw [addSum, addSum, if_neg hm, if_neg hm, hcount]
    exact (agrees_refl _).bind ih
  | case8 c v hm symbol isVolatile =>
    rw [addSum, addSum]
    exact agrees_refl _
  | case15 c v hm _ _ hnone | case17 c v hm _ _ hnone =>
    rw [addSum, addSum, if_neg hm, if_neg hm, hnone]
    exact agrees_refl _
  | case10 c v hm kid0 ih | case11 c v hm kid0 ih | case12 c v hm kid0 ih | case13 c v hm kid0 ih =>
    rw [addSum, addSum, if_neg hm, if_neg hm]
    exact ih
  | case18 wn c v hm =>
    rw [addSum.eq_def, addSum.eq_def]
    simp only [if_neg hm]
    exact agrees_refl _

theorem agrees_set (stack : List α) (v : AccessVector α) (wn : Wn α) (sign offset : Int) (allowNonlin : Bool) :
    AgreesUnless Fault.overflow (set checked stack v wn sign offset allowNonlin)
      (set wrapped stack v wn sign offset allowNonlin) :=
  agrees_addSum _ _ _ _ _

omit [DecidableEq α] in
theorem eval_init (nestDepth : Nat) (offset : Int) (stack : List α) (env : α → Int) : ({ AccessVector.init nestDepth with
    tooMessy := false, constOffset := offset, nonLinSymb := none } : AccessVector α).eval stack env = offset := by
  unfold AccessVector.eval AccessVector.loopCoeff AccessVector.init
  simp [linValue, sumprodValue]

/-- A vector that is not given up has the value of its expression just when what its products lose cancels; nothing is lost where
the numbers of factors fit. -/
theorem set_exact_iff (nestDepth : Nat) (stack : List α) (wn : Wn α) (sign offset : Int) (allowNonlin : Bool)
    (hshift : NoShift wn) (hfits : set checked stack (.init nestDepth) wn sign offset allowNonlin ≠ .error .overflow)
    (v : AccessVector α) (h : set wrapped stack (.init nestDepth) wn sign offset allowNonlin = .ok v)
    (hm : v.tooMessy = false) (env : α → Int) (rest : Nat → Int) :
    (v.eval stack env = sign * wn.value env rest + offset ↔ foldError allowNonlin env rest wn sign = 0) ∧
      ((allowNonlin = true → CountsFit wn) → v.eval stack env = sign * wn.value env rest + offset) := by
  rw [agrees_set _ _ _ _ _ _ hfits] at h
  have hwf : ({ AccessVector.init nestDepth with
      tooMessy := false, constOffset := offset, nonLinSymb := none } : AccessVector α).WF :=
    ⟨(fun _ hl => nomatch hl), (fun _ hnode => nomatch hnode)⟩
  have heval : v.eval stack env = sign * wn.value env rest + offset + foldError allowNonlin env rest wn sign := by
    rw [(addSum_adds env rest h).grows hwf hm, eval_init]
    ring
  refine ⟨by rw [heval, add_eq_left], fun hfit => ?_⟩
  rw [heval, foldError_eq_zero env rest hshift hfit, Int.add_zero]

end Symbols

/-- `2 * i + n * (i - 1) + 3` in a loop over `i`, at `i = 5` and `n = 7`. -/
theorem set_exact_product : ∃ v : AccessVector Nat,
    set wrapped [0] (.init 1) (.add (.add (.mpy (.intconst 2) (.ldid 0 false))
      (.mpy (.ldid 1 false) (.sub (.ldid 0 false) (.intconst 1)))) (.intconst 3)) 1 0 true = .ok v ∧
      v.eval [0] (fun symbol => if symbol = 0 then 5 else 7) = 41 := by
  have hset : set wrapped [0] (.init 1) (.add (.add (.mpy (.intconst 2) (.ldid 0 false))
      (.mpy (.ldid 1 false) (.sub (.ldid 0 false) (.intconst 1)))) (.intconst 3)) 1 0 true =
      .ok (⟨false, 1, some [2], some [⟨1, -1⟩], some [⟨[⟨1, false⟩, ⟨0, true⟩], 1⟩], 3⟩ : AccessVector Nat) := by
    decide
  refine ⟨_, hset, ?_⟩
  rw [(set_exact_iff 1 [0] _ 1 0 true (by simp [NoShift]) (by decide) _ hset rfl _ (fun _ => 0)).2 fun _ => by
    simp [CountsFit, constVal, factors]]
  decide

/-! ## Products of many factors -/

/-- The product of `n + 1` loads of one symbol. -/
def chain : Nat → Wn Unit
  | 0 => .ldid () false
  | n + 1 => .mpy (.ldid () false) (chain n)

theorem chain_value (n : Nat) (x : Int) : (chain n).value (fun _ => x) (fun _ => 0) = x ^ (n + 1) := by
  induction n with
  | zero => rw [chain, Wn.value, pow_one]
  | succ n ih => rw [chain, Wn.value, ih, Wn.value, pow_succ' x (n + 1)]

theorem addNonlin_chain (n : Nat) (l : List (SymbolNode Unit)) (c : Int) :
    addNonlin wrapped [] (chain n) [⟨l, c⟩] false = .ok (some [⟨l ++ List.replicate (n + 1) ⟨(), false⟩, c⟩], false) := by
  induction n generalizing l with
  | zero => rfl
  | succ n ih =>
    rw [chain, addNonlin]
    show addNonlin wrapped [] (chain n) [⟨l ++ [⟨(), false⟩], c⟩] false = _
    rw [ih, List.append_assoc, List.singleton_append, ← List.replicate_succ]

theorem constVal_chain (n : Nat) : constVal (chain n) = none := by
  cases n <;> rfl

theorem not_overflows_one : ¬Overflows 1 := by
  rintro (h | h)
  · norm_num at h
  · norm_num at h

theorem set_chain_eq (n : Nat) : set wrapped [] (.init 0) (chain (n + 1)) 1 0 true =
    addProduct wrapped [] (chain (n + 1)) 1 true ⟨false, 0, none, none, none, 0⟩ := by
  rw [set, chain, addSum, if_neg (by simp)]
  simp only [constVal_chain, show constVal (Wn.ldid () false) = none from rfl, AccessVector.init]

theorem moveLinear_chain (n : Nat) (hlen : len (List.replicate (n + 2) (⟨(), false⟩ : SymbolNode Unit)) = 1)
    (v : AccessVector Unit) (hl : v.linSymb = none) :
    moveLinear wrapped [] [⟨List.replicate (n + 2) ⟨(), false⟩, 1⟩] v = .ok ({ v with linSymb := some [⟨(), 1⟩] }, []) := by
  have hsymb : addSymbol [] v 1 () false = .ok { v with linSymb := some [⟨(), 1⟩] } := by
    rw [addSymbol, if_neg (by simp), if_neg not_overflows_one]
    simp only [loopIndex, List.findIdx?_nil, addLinSymb, hl, Option.getD_none, mergeSymbol]
  rw [List.replicate_succ] at hlen ⊢
  rw [moveLinear]
  simp only [hlen, if_true, hsymb, ok_bind, moveLinear]

theorem addProduct_chain (n : Nat) (hlen : len (List.replicate (n + 2) (⟨(), false⟩ : SymbolNode Unit)) = 1)
    (v : AccessVector Unit) (hm : v.tooMessy = false) (hl : v.linSymb = none) (hn : v.nonLinSymb = none) :
    addProduct wrapped [] (chain (n + 1)) 1 true v =
      .ok { v with tooMessy := false, linSymb := some [⟨(), 1⟩], nonLinSymb := some [] } := by
  have hnonlin : addNonlin wrapped [] (chain (n + 1)) [⟨[], 1⟩] v.tooMessy =
      .ok (some [⟨List.replicate (n + 2) ⟨(), false⟩, 1⟩], false) := by
    rw [hm, addNonlin_chain, List.nil_append]
  have hmove := moveLinear_chain n hlen { v with tooMessy := false } hl
  have hlist : ∀ l : List (SumprodNode Unit), joinProducts v.nonLinSymb (some l) = some l := by
    intro l
    rw [hn, joinProducts]
  rw [addProduct, if_neg (by simp), if_neg not_overflows_one]
  refine bind_eq_ok.mpr ⟨_, hnonlin, bind_eq_ok.mpr
    ⟨({ v with tooMessy := false, linSymb := some [⟨(), 1⟩] }, []), ?_, ?_⟩⟩
  · rw [hlist, Option.getD_some]
    exact hmove
  · rw [hlist, Option.map_some]
    rfl

theorem set_chain (n : Nat) (hlen : len (List.replicate (n + 2) (⟨(), false⟩ : SymbolNode Unit)) = 1) :
    set wrapped [] (.init 0) (chain (n + 1)) 1 0 true = .ok ⟨false, 0, none, some [⟨(), 1⟩], some [], 0⟩ := by
  rw [set_chain_eq, addProduct_chain n hlen _ rfl rfl rfl]

theorem set_chain_ne (n : Nat) (hlen : len (List.replicate (n + 2) (⟨(), false⟩ : SymbolNode Unit)) = 1) :
    ∃ v, set wrapped [] (.init 0) (chain (n + 1)) 1 0 true = .ok v ∧ v.tooMessy = false ∧
      v.eval [] (fun _ => 2) ≠ 1 * (chain (n + 1)).value (fun _ => 2) (fun _ => 0) + 0 := by
  refine ⟨_, set_chain n hlen, rfl, ?_⟩
  rw [chain_value]
  show (2 : Int) ≠ 1 * 2 ^ (n + 2) + 0
  have hpow : (0 : Int) < 2 ^ n := by positivity
  rw [pow_add]
  omega

theorem bmod_eq_one {n : Nat} (hn : n = 65535) : ((n + 2 : Nat) : Int).bmod (2 ^ 16) = 1 := by
  have hn' : ((n + 2 : Nat) : Int) = 1 + (65536 : Nat) := by omega
  rw [show (2 ^ 16 : Nat) = 65536 by norm_num, hn', Int.add_bmod_right]
  decide

/-- A product of 65537 loads is taken for a single one. -/
theorem set_loses_factors : ∃ n, n = 65535 ∧ ∃ v, set wrapped [] (.init 0) (chain (n + 1)) 1 0 true = .ok v ∧
    v.tooMessy = false ∧ v.eval [] (fun _ => 2) ≠ 1 * (chain (n + 1)).value (fun _ => 2) (fun _ => 0) + 0 := by
  obtain ⟨n, hn⟩ : ∃ n : Nat, n = 65535 := exists_eq
  have hlen : len (List.replicate (n + 2) (⟨(), false⟩ : SymbolNode Unit)) = 1 := by
    unfold len
    rw [List.length_replicate]
    exact bmod_eq_one hn
  exact ⟨n, hn, set_chain_ne n hlen⟩

end Path64.Access

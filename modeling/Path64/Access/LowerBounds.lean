import Path64.Access.Exact

/-!
# Lower bounds: `ACCESS_ARRAY::Set_LB`

The start of a loop as constraints on its index (`access_vector.cxx`), one vector for each branch of a `MAX` tree, or of
a `MIN` tree when the step is negative. In a constraint the constant stands on the right hand side.

* `numLowerBounds`, `setLBr`, `setLB` : the functions under their names; the array is the list of its vectors, and a
  fault stands for an index outside of it or of `_lcoeff`;
* `AccessVector.Allows` : the constraint a vector records;
* `coeffs` : the coefficients of a linear expression, if they fit; `addSum_coeffs` : a vector that is kept has them;
* `setLB_implied_iff` : the constraints are implied by the bound, as many as allocated and kept messy, just when
  `LowerFits` : the terms outside the tree, whose constants are added to the wrong side, do not make a branch too tight,
  and no numerator is given up; `setLB_shifts_constant` : `MAX(n, m) - 1`.
-/

namespace Path64.Access

open Lib

variable {α : Type}

/-! ## `Num_Lower_Bounds` -/

/-- `Num_Maxs`. -/
def numMaxs : Wn α → Nat
  | .max kid0 kid1 => 1 + numMaxs kid0 + numMaxs kid1
  | _ => 0

/-- `Num_Mins`. -/
def numMins : Wn α → Nat
  | .min kid0 kid1 => 1 + numMins kid0 + numMins kid1
  | _ => 0

def isMax : Wn α → Bool
  | .max _ _ => true
  | _ => false

def isMin : Wn α → Bool
  | .min _ _ => true
  | _ => false

/-- `Num_Lower_Bounds`, of the start `kid` of a loop. -/
def numLowerBounds (kid : Wn α) (step : Int) : Nat :=
  let numBounds :=
    if step > 0 then
      match kid with
      | .max kid0 kid1 => numMaxs (.max kid0 kid1)
      | .sub kid0 _ => numMaxs kid0
      | .add kid0 kid1 => if numMaxs kid0 = 0 then numMaxs kid1 else numMaxs kid0
      | _ => 0
    else
      match kid with
      | .min kid0 kid1 => numMins (.min kid0 kid1)
      | .sub kid0 _ => numMins kid0
      | .add kid0 kid1 => if numMins kid0 = 0 then numMaxs kid1 else numMins kid0
      | _ => 0
  numBounds + 1

/-! ## A constraint -/

/-- The left hand side, at the value `x` of the innermost loop. -/
def AccessVector.lhs (v : AccessVector α) (stack : List α) (env : α → Int) (x : Int) : Int :=
  ∑ i : Fin stack.length, v.loopCoeff i * (if i.val + 1 = stack.length then x else env (stack.get i)) +
    linValue env (v.linSymb.getD []) + sumprodValue env (v.nonLinSymb.getD [])

/-- The constraint holds. -/
def AccessVector.Allows (v : AccessVector α) (stack : List α) (env : α → Int) (x : Int) : Prop :=
  v.lhs stack env x ≤ v.constOffset

variable {stack : List α} {env : α → Int} {v v' : AccessVector α} {x one coeff step : Int}

/-- `Set_Loop_Coeff`. -/
def setLoopCoeff (v : AccessVector α) (i : Nat) (val : Int) : Except Fault (AccessVector α) :=
  let lcoeff := v.lcoeff.getD (List.replicate v.nestDepth 0)
  if i < lcoeff.length then .ok { v with lcoeff := some (lcoeff.set i val) } else .error .index

/-- `Const_Offset = - Const_Offset`. -/
def negateConst (a : Arith) (v : AccessVector α) : Except Fault (AccessVector α) := do
  let offset ← a.int64 (-v.constOffset)
  return { v with constOffset := offset }

/-- The left hand side and `one` times the constant. -/
def total (stack : List α) (env : α → Int) (x one : Int) (v : AccessVector α) : Int :=
  v.lhs stack env x + one * v.constOffset

theorem setLoopCoeff_lhs {val : Int} (h : setLoopCoeff v (v.nestDepth - 1) val = .ok v') (hv : v.WF)
    (hd : v.nestDepth = stack.length) (env : α → Int) (x : Int) :
    v'.lhs stack env x = v.lhs stack env 0 + val * x := by
  unfold setLoopCoeff at h
  dsimp only at h
  split_ifs at h with hlt
  cases h
  rw [hv.length_lcoeff] at hlt
  have hlast : stack.length - 1 < stack.length := hd ▸ hlt
  have hterm : ∀ j : Fin stack.length,
      (if j.val = v.nestDepth - 1 then val else v.loopCoeff j) *
          (if j.val + 1 = stack.length then x else env (stack.get j)) =
        v.loopCoeff j * (if j.val + 1 = stack.length then 0 else env (stack.get j)) +
          if some (stack.length - 1) = some j.val then val * x else 0 := by
    intro j
    by_cases hj : j.val = stack.length - 1
    · rw [if_pos (by omega), if_pos (by omega), if_pos (by omega), if_pos (congrArg some hj.symm)]
      ring
    · rw [if_neg (by omega), if_neg (by omega), if_neg (by omega), if_neg fun heq => hj (Option.some.inj heq).symm]
      ring
  unfold AccessVector.lhs
  simp only [loopCoeff_set hv hlt]
  rw [Finset.sum_congr rfl fun j _ => hterm j, Finset.sum_add_distrib, sum_ite_index hlast]
  ring

theorem lhs_eq_of_zero (hzero : v.loopCoeff (stack.length - 1) = 0) (env : α → Int) (x : Int) :
    v.lhs stack env x + v.constOffset = v.eval stack env := by
  have hterm : ∀ j : Fin stack.length,
      v.loopCoeff j * (if j.val + 1 = stack.length then x else env (stack.get j)) = v.loopCoeff j * env (stack.get j) := by
    intro j
    split_ifs with hj
    · have hj' : j.val = stack.length - 1 := by omega
      rw [hj', hzero, Int.zero_mul, Int.zero_mul]
    · rfl
  unfold AccessVector.lhs AccessVector.eval
  rw [Finset.sum_congr rfl fun j _ => hterm j]
  ring

theorem negateConst_eq (h : negateConst checked v = .ok v') : v' = { v with constOffset := -v.constOffset } := by
  obtain ⟨offset, hoffset, h⟩ := bind_eq_ok.mp h
  cases h
  rw [int64_eq_ok hoffset]

theorem setLoopCoeff_keeps {i : Nat} {val : Int} (h : setLoopCoeff v i val = .ok v') :
    v'.constOffset = v.constOffset ∧ v'.tooMessy = v.tooMessy ∧ (v.WF → v'.WF) ∧ v'.linSymb = v.linSymb := by
  unfold setLoopCoeff at h
  dsimp only at h
  split_ifs at h with hlt
  cases h
  refine ⟨rfl, rfl, fun hv => ⟨?_, hv.products⟩, rfl⟩
  rintro l ⟨⟩
  rw [List.length_set]
  exact hv.length_lcoeff

/-- By how much a constraint fails: it holds when this is not positive. -/
def excess (stack : List α) (env : α → Int) (x : Int) (v : AccessVector α) : Int := total stack env x (-1) v

theorem allows_iff (v : AccessVector α) (stack : List α) (env : α → Int) (x : Int) :
    v.Allows stack env x ↔ excess stack env x v ≤ 0 := by
  unfold AccessVector.Allows excess total
  omega

/-- A vector that nothing has been recorded in. -/
def freshDim (stack : List α) : AccessVector α := .init stack.length

theorem set_start_wf (offset : Int) : ({ freshDim stack with
    tooMessy := false, constOffset := offset, nonLinSymb := none } : AccessVector α).WF :=
  ⟨(fun _ hl => nomatch hl), (fun _ hnode => nomatch hnode)⟩

theorem set_start_total (env : α → Int) (x one offset : Int) : total stack env x one ({ freshDim stack with
    tooMessy := false, constOffset := offset, nonLinSymb := none } : AccessVector α) = one * offset := by
  simp [total, AccessVector.lhs, AccessVector.loopCoeff, freshDim, AccessVector.init, linValue, sumprodValue]

variable [DecidableEq α]

/-! ## `Set_LB_r` -/

/-- The sign of the constraints. -/
def boundSign (step : Int) : Int := if step > 0 then 1 else -1

section Routine

variable (a : Arith)

/-- The constraint of an expression; one over the index itself is given up. -/
def boundExp (stack : List α) (step : Int) (wn : Wn α) (v : AccessVector α) : Except Fault (AccessVector α) := do
  let v ← set a stack v wn (boundSign step) 0 false
  if v.loopCoeff (v.nestDepth - 1) ≠ 0 then return v.messy
  let v ← setLoopCoeff v (v.nestDepth - 1) (-boundSign step)
  negateConst a v

/-- The constraint of a quotient by a positive constant. -/
def boundDiv (stack : List α) (kid0 kid1 : Wn α) (offset : Int → Int) (v : AccessVector α) :
    Except Fault (AccessVector α) :=
  match constVal kid1 with
  | some val =>
    if 0 < val ∧ val < 2 ^ 31 - 1 then do
      let v ← set a stack v kid0 1 (offset val) false
      let v ← negateConst a v
      let v ← setLoopCoeff v (v.nestDepth - 1) (-val)
      return { v with tooMessy := false }
    else .ok v.messy
  | none => .ok v.messy

/-- The constraint of an expression that is not split. -/
def boundBranch (stack : List α) (step : Int) : Wn α → AccessVector α → Except Fault (AccessVector α)
  | .intrinsicOp .divFloor kid0 kid1, v =>
    if step > 0 then boundDiv a stack kid0 kid1 (1 - ·) v
    else boundExp a stack step (.intrinsicOp .divFloor kid0 kid1) v
  | .intrinsicOp .divCeil kid0 kid1, v =>
    if step > 0 then boundDiv a stack kid0 kid1 (fun _ => 0) v
    else boundExp a stack step (.intrinsicOp .divCeil kid0 kid1) v
  | wn, v => boundExp a stack step wn v

/-- Changes the vector of dimension `i`. -/
def modifyDim (dims : List (AccessVector α)) (i : Nat) (f : AccessVector α → Except Fault (AccessVector α)) :
    Except Fault (List (AccessVector α)) :=
  match dims[i]? with
  | some v => do
    let v ← f v
    return dims.set i v
  | none => .error .index

/-- `Set_LB_r`: the array, and the next dimension to work on. -/
def setLBr (stack : List α) (step : Int) : Wn α → List (AccessVector α) → Nat →
    Except Fault (List (AccessVector α) × Nat)
  | wn, dims, i =>
    let branch : Except Fault (List (AccessVector α) × Nat) := do
      let dims ← modifyDim dims i (boundBranch a stack step wn)
      return (dims, i + 1)
    match wn with
    | .max kid0 kid1 =>
      if step > 0 then do
        let r ← setLBr stack step kid0 dims i
        setLBr stack step kid1 r.1 r.2
      else branch
    | .min kid0 kid1 =>
      if step < 0 then do
        let r ← setLBr stack step kid0 dims i
        setLBr stack step kid1 r.1 r.2
      else branch
    | .intrinsicOp (.rest _) _ _ =>
      if step > 0 then do
        let dims ← modifyDim dims (i + 1) fun v => .ok v.messy
        return (dims, i + 1)
      else branch
    | _ => branch

/-! ## `Set_LB` -/

/-- The operator that is split: `MAX`, for a negative step `MIN`. -/
def isSplit (step : Int) (wn : Wn α) : Bool := if step > 0 then isMax wn else isMin wn

/-- `Num_Vec`, an `mUINT16`. -/
def numVec (dims : List (AccessVector α)) : Nat := dims.length % 2 ^ 16

/-- `Add`, to every dimension that is counted. -/
def addToDims (stack : List α) (wn : Wn α) (sign : Int) (dims : List (AccessVector α)) :
    Except Fault (List (AccessVector α)) := do
  let added ← (dims.take (numVec dims)).mapM (addSum a stack false wn sign)
  return added ++ dims.drop (numVec dims)

/-- `Set_LB`. -/
def setLB (stack : List α) (wn : Wn α) (step : Int) (dims : List (AccessVector α)) :
    Except Fault (List (AccessVector α)) :=
  if numVec dims = 1 ∨ isSplit step wn then do
    let r ← setLBr a stack step wn dims 0
    return r.1
  else
    match wn with
    | .sub kid0 kid1 => do
      let r ← setLBr a stack step kid0 dims 0
      addToDims a stack kid1 (-boundSign step) r.1
    | .add kid0 kid1 =>
      if isSplit step kid0 then do
        let r ← setLBr a stack step kid0 dims 0
        addToDims a stack kid1 (boundSign step) r.1
      else do
        let r ← setLBr a stack step kid1 dims 0
        addToDims a stack kid0 (boundSign step) r.1
    | _ => .ok dims

/-- The array of the lower bound of the innermost loop of `stack`; the constructor takes a `UINT16`, an `unsigned int`. -/
def buildLB (stack : List α) (wn : Wn α) (step : Int) : Except Fault (List (AccessVector α)) :=
  setLB a stack wn step (List.replicate (numLowerBounds wn step % 2 ^ 32) (.init stack.length))

end Routine

/-- The values with the index of the innermost loop at `x`. -/
def innermostAt (stack : List α) (env : α → Int) (x : Int) (symbol : α) : Int :=
  if loopIndex stack symbol = some (stack.length - 1) then x else env symbol

theorem AddedSymbol.lhs {symbol : α} (h : AddedSymbol stack v v' coeff symbol) (env : α → Int) (x : Int) :
    v'.lhs stack env x = v.lhs stack env x + coeff * innermostAt stack env x symbol := by
  unfold AccessVector.lhs innermostAt
  rw [h.nonLinSymb, h.linSymb, h.sum_loopCoeff fun j => if j.val + 1 = stack.length then x else env (stack.get j)]
  cases hi : loopIndex stack symbol with
  | none =>
    rw [if_pos rfl, Finset.sum_eq_zero fun j _ => if_neg (Option.some_ne_none _).symm,
      if_neg (Option.some_ne_none _).symm]
    ring
  | some i =>
    obtain ⟨hlt, hsymbol⟩ := loopIndex_some hi
    have hlast : (i + 1 = stack.length) = (some i = some (stack.length - 1)) := by
      rw [Option.some_inj]
      exact propext ⟨fun h => by omega, fun h => by omega⟩
    rw [sum_ite_index hlt, hsymbol, if_neg (Option.some_ne_none i)]
    simp only [hlast]
    ring

/-- What a multiple of an expression adds to the total. -/
def totalGain (stack : List α) (env : α → Int) (x one : Int) (wn : Wn α) (c : Int) : Int :=
  gain one (innermostAt stack env x) (fun _ _ => 0) wn c

theorem measures_total (stack : List α) (env : α → Int) (x one : Int) :
    Measures stack false (total stack env x one) one (innermostAt stack env x) fun _ _ => 0 where
  const := by
    intro v offset
    unfold total
    show v.lhs stack env x + one * (v.constOffset + offset) = _
    ring
  symbol := by
    intro v v' coeff symbol hadded
    unfold total
    rw [hadded.lhs, hadded.constOffset]
    ring
  product := by
    intro v v' wn coeff h
    cases h
    exact adds_messy v 0

theorem addSum_total {wn : Wn α} {c : Int} (h : addSum checked stack false wn c v = .ok v') (env : α → Int) (x one : Int) :
    Adds (total stack env x one) v v' (totalGain stack env x one wn c) :=
  addSum_summarised (measures_total stack env x one) h

theorem addSum_unchanged {m : AccessVector α → Int} (hconst : ∀ u offset, m { u with constOffset := offset } = m u)
    (hsymbol : ∀ {u u' c symbol}, AddedSymbol stack u u' c symbol → m u' = m u) {wn : Wn α} {c : Int}
    (h : addSum checked stack false wn c v = .ok v') (hv : v.WF) (hm : v'.tooMessy = false) : m v' = m v := by
  have hmeasures : Measures stack false m 0 (fun _ => 0) fun _ _ => 0 := by
    refine ⟨fun {u offset} => ?_, fun {u u' c symbol} hadded => ?_, fun {u _ _ _} hp => ?_⟩
    · rw [hconst, Int.mul_zero, Int.add_zero]
    · rw [hsymbol hadded, Int.mul_zero, Int.add_zero]
    · cases hp
      exact adds_messy u 0
  have hzero := gain_add_mul 0 0 (-1) (fun _ : α => 0) (fun _ => 0) (fun _ _ => 0) (fun _ _ => 0) wn c
  simp only [Int.mul_zero, Int.add_zero] at hzero
  rw [(addSum_summarised hmeasures h).grows hv hm, hzero]
  ring

theorem addSum_nestDepth {wn : Wn α} {c : Int} (h : addSum checked stack false wn c v = .ok v') (hv : v.WF)
    (hm : v'.tooMessy = false) : v'.nestDepth = v.nestDepth := by
  have hsame := addSum_unchanged (fun _ _ => rfl) (fun hadded => congrArg Int.ofNat hadded.nestDepth) h hv hm
  exact Int.ofNat.inj hsame

/-! ## The coefficients of a constraint -/

/-- The coefficient of a symbol: that of its loop, or else the one on the list of symbols. -/
def symbolCoeff (stack : List α) (v : AccessVector α) (symbol : α) : Int :=
  match loopIndex stack symbol with
  | some i => v.loopCoeff i
  | none => linValue (fun s => if s = symbol then 1 else 0) (v.linSymb.getD [])

/-- No symbol is on the list twice. -/
def AccessVector.Distinct (v : AccessVector α) : Prop := ((v.linSymb.getD []).map (·.symbol)).Nodup

/-- The coefficients of a vector that was not given up. -/
def coeffsOf (stack : List α) (v : AccessVector α) : Option (α → Int) :=
  if v.tooMessy then none else some (symbolCoeff stack v)

/-- The coefficients `f` and then some terms; none when one of the terms, or a sum, overflows. -/
def addTerms : (α → Int) → List (α × Int) → Option (α → Int)
  | f, [] => some f
  | f, (symbol, c) :: ts =>
    if Overflows c ∨ Overflows (c + f symbol) then none
    else addTerms (Function.update f symbol (c + f symbol)) ts

/-- The coefficients `f` and then those of a multiple of an expression; none when it is not linear. -/
def coeffs (wn : Wn α) (c : Int) (f : α → Int) : Option (α → Int) := (linTerms wn c).bind (addTerms f)

theorem addTerms_append (f : α → Int) (ts us : List (α × Int)) :
    addTerms f (ts ++ us) = (addTerms f ts).bind (addTerms · us) := by
  induction ts generalizing f with
  | nil => rfl
  | cons t ts ih =>
    rw [List.cons_append, addTerms, addTerms]
    split_ifs
    · rfl
    · exact ih _

theorem coeffs_two {wn kid0 kid1 : Wn α} {c c' : Int} (h : linTerms wn c = (do
      let ts ← linTerms kid0 c
      let us ← linTerms kid1 c'
      return ts ++ us)) (f : α → Int) : coeffs wn c f = (coeffs kid0 c f).bind (coeffs kid1 c') := by
  unfold coeffs
  rw [h]
  cases h0 : linTerms kid0 c with
  | none => rfl
  | some ts =>
    cases h1 : linTerms kid1 c' with
    | none => exact (Option.bind_fun_none _).symm
    | some us => exact addTerms_append f ts us

theorem coeffsOf_messy (hm : v.tooMessy = true) : coeffsOf stack v = none := if_pos hm

theorem coeffsOf_kept (hm : v.tooMessy = false) : coeffsOf stack v = some (symbolCoeff stack v) := by
  rw [coeffsOf, hm, if_neg Bool.false_ne_true]

theorem linValue_of_notMem {symbol : α} {l : List (IntsymbNode α)} (h : symbol ∉ l.map (·.symbol)) :
    linValue (fun s => if s = symbol then 1 else 0) l = 0 := by
  refine List.sum_eq_zero fun x hx => ?_
  obtain ⟨node, hnode, rfl⟩ := List.mem_map.mp hx
  have hne : node.symbol ≠ symbol := fun heq => h (heq ▸ List.mem_map_of_mem hnode)
  show node.coeff * (if node.symbol = symbol then 1 else 0) = 0
  rw [if_neg hne, Int.mul_zero]

/-- Merging finds the one term of a symbol, and gives up just when the sum overflows. -/
theorem mergeSymbol_spec {symbol : α} {l : List (IntsymbNode α)} (hd : (l.map (·.symbol)).Nodup) :
    (mergeSymbol coeff symbol l = none → symbol ∉ l.map (·.symbol)) ∧
      ∀ o, mergeSymbol coeff symbol l = some o →
        (o = none ↔ Overflows (coeff + linValue (fun s => if s = symbol then 1 else 0) l)) ∧
          ∀ l' ∈ o, (l'.map (·.symbol)).Sublist (l.map (·.symbol)) := by
  induction l with
  | nil => exact ⟨fun _ => List.not_mem_nil, fun o h => absurd h.symm (Option.some_ne_none o)⟩
  | cons node l ih =>
    obtain ⟨hnot, hd⟩ := List.nodup_cons.mp hd
    rw [linValue_cons, mergeSymbol]
    by_cases hs : node.symbol = symbol
    · rw [if_pos hs, if_pos hs, Int.mul_one, linValue_of_notMem (hs ▸ hnot), Int.add_zero]
      refine ⟨fun h => ?_, fun o h => ?_⟩
      · split_ifs at h
      · split_ifs at h with hover hzero
        · cases h
          exact ⟨iff_of_true rfl hover, fun l' hl' => absurd hl' (Option.not_mem_none l')⟩
        · cases h
          refine ⟨iff_of_false (Option.some_ne_none _) hover, ?_⟩
          rintro l' ⟨⟩
          exact List.sublist_cons_self _ _
        · cases h
          refine ⟨iff_of_false (Option.some_ne_none _) hover, ?_⟩
          rintro l' ⟨⟩
          exact List.Sublist.refl _
    · rw [if_neg hs, if_neg hs, Int.mul_zero, Int.zero_add]
      obtain ⟨hnone, hsome⟩ := ih hd
      refine ⟨fun h => ?_, fun o h => ?_⟩
      · rw [Option.map_eq_none_iff] at h
        exact List.not_mem_cons_of_ne_of_not_mem (Ne.symm hs) (hnone h)
      · obtain ⟨o', ho', rfl⟩ := Option.map_eq_some_iff.mp h
        obtain ⟨hover, hsub⟩ := hsome o' ho'
        refine ⟨by rw [← hover, Option.map_eq_none_iff], fun l' hl' => ?_⟩
        obtain ⟨l'', hl'', rfl⟩ := Option.map_eq_some_iff.mp hl'
        exact (hsub l'' hl'').cons_cons _

theorem AddedSymbol.symbolCoeff {symbol : α} (h : AddedSymbol stack v v' coeff symbol) : symbolCoeff stack v' =
    Function.update (symbolCoeff stack v) symbol (coeff + symbolCoeff stack v symbol) := by
  funext t
  unfold Access.symbolCoeff
  by_cases ht : t = symbol
  · rw [ht, Function.update_self]
    cases hi : loopIndex stack symbol with
    | none =>
      dsimp only
      rw [h.linSymb, if_pos hi, if_pos rfl, Int.mul_one, Int.add_comm]
    | some i =>
      dsimp only
      rw [h.loopCoeff, if_pos hi, Int.add_comm]
  · rw [Function.update_of_ne ht]
    cases hi : loopIndex stack t with
    | none =>
      dsimp only
      rw [h.linSymb, if_neg (Ne.symm ht), Int.mul_zero, ite_self, Int.add_zero]
    | some i =>
      have hne : loopIndex stack symbol ≠ some i := by
        intro hsymbol
        obtain ⟨_, rfl⟩ := loopIndex_some hsymbol
        obtain ⟨_, rfl⟩ := loopIndex_some hi
        exact ht rfl
      dsimp only
      rw [h.loopCoeff, if_neg hne, Int.add_zero]

/-- When `Add_Symbol` gives up. -/
theorem addSymbol_messy {symbol : α} {isVolatile : Bool} (h : addSymbol stack v coeff symbol isVolatile = .ok v')
    (hv : v.WF) (hd : v.Distinct) : v'.Distinct ∧ (v'.tooMessy = true ↔ v.tooMessy = true ∨ isVolatile = true ∨
      Overflows coeff ∨ Overflows (coeff + symbolCoeff stack v symbol)) := by
  unfold addSymbol at h
  split_ifs at h with hvol hover
  · cases h
    exact ⟨hd, iff_of_true rfl (Or.inr (Or.inl hvol))⟩
  · cases h
    exact ⟨hd, iff_of_true rfl (Or.inr (Or.inr (Or.inl hover)))⟩
  rw [or_iff_right hvol, or_iff_right hover]
  unfold symbolCoeff
  cases hi : loopIndex stack symbol with
  | some i =>
    simp only [hi] at h ⊢
    unfold addLoopCoeff at h
    cases hold : (v.lcoeff.getD (List.replicate v.nestDepth 0))[i]? with
    | none =>
      simp only [hold] at h
      cases h
    | some old =>
      simp only [hold] at h
      have hnd : i < v.nestDepth := hv.length_lcoeff ▸ (List.getElem?_eq_some_iff.mp hold).1
      have hval : v.loopCoeff i = old := by
        rw [loopCoeff_eq, if_pos hnd, List.getD_eq_getElem?_getD, hold, Option.getD_some]
      rw [hval]
      split_ifs at h with hsum
      · cases h
        exact ⟨hd, iff_of_true rfl (Or.inr hsum)⟩
      · cases h
        exact ⟨hd, by rw [or_iff_left hsum]⟩
  | none =>
    simp only [hi] at h ⊢
    cases h
    obtain ⟨hnone, hsome⟩ := @mergeSymbol_spec _ coeff _ symbol _ hd
    unfold addLinSymb
    cases hmerge : mergeSymbol coeff symbol (v.linSymb.getD []) with
    | none =>
      have hnot := hnone hmerge
      simp only [hmerge]
      refine ⟨List.nodup_cons.mpr ⟨hnot, hd⟩, ?_⟩
      rw [linValue_of_notMem hnot, Int.add_zero, or_iff_left hover]
    | some o =>
      obtain ⟨hsum, hsub⟩ := hsome o hmerge
      cases o with
      | none =>
        simp only [hmerge]
        exact ⟨hd, iff_of_true rfl (Or.inr (hsum.mp rfl))⟩
      | some l =>
        simp only [hmerge]
        refine ⟨hd.sublist (hsub l rfl), ?_⟩
        rw [or_iff_left fun hover => Option.some_ne_none l (hsum.mpr hover)]

theorem addSymbol_coeffs {symbol : α} {isVolatile : Bool} (h : addSymbol stack v coeff symbol isVolatile = .ok v')
    (hv : v.WF) (hd : v.Distinct) : v'.WF ∧ v'.Distinct ∧
      coeffsOf stack v' = (coeffsOf stack v).bind (coeffs (.ldid symbol isVolatile) coeff) := by
  obtain ⟨hwf, hmessy, hadded⟩ := addSymbol_spec h
  obtain ⟨hd', hiff⟩ := addSymbol_messy h hv hd
  refine ⟨hwf hv, hd', ?_⟩
  unfold coeffs
  rw [linTerms]
  cases hm : v'.tooMessy with
  | false =>
    have hnone := mt hiff.mpr (by rw [hm]; exact Bool.false_ne_true)
    simp only [not_or] at hnone
    rw [coeffsOf_kept hm, coeffsOf_kept (hmessy hm), if_neg hnone.2.1, (hadded hv hm).symbolCoeff]
    show _ = addTerms _ [(symbol, coeff)]
    rw [addTerms, if_neg (not_or.mpr hnone.2.2), addTerms]
  | true =>
    rw [coeffsOf_messy hm]
    rcases hiff.mp hm with hold | hvol | hover
    · rw [coeffsOf_messy hold]
      rfl
    · rw [if_pos hvol]
      exact (Option.bind_fun_none _).symm
    · cases hvm : v.tooMessy with
      | true =>
        rw [coeffsOf_messy hvm]
        rfl
      | false =>
        rw [coeffsOf_kept hvm]
        split_ifs
        · rfl
        · exact (if_pos hover).symm

/-- A vector that is kept has the coefficients of the expression, and it is kept just when they fit. -/
theorem addSum_coeffs {wn : Wn α} {c : Int} (h : addSum checked stack false wn c v = .ok v') (hv : v.WF)
    (hd : v.Distinct) : v'.WF ∧ v'.Distinct ∧ coeffsOf stack v' = (coeffsOf stack v).bind (coeffs wn c) := by
  refine addSum_run (P := fun wn c v v' => v.WF → v.Distinct →
    v'.WF ∧ v'.Distinct ∧ coeffsOf stack v' = (coeffsOf stack v).bind (coeffs wn c)) ?_ h hv hd
  have hgive : ∀ {wn : Wn α} {c : Int} {v : AccessVector α}, linTerms wn c = none → v.WF → v.Distinct →
      v.messy.WF ∧ v.messy.Distinct ∧ coeffsOf stack v.messy = (coeffsOf stack v).bind (coeffs wn c) := by
    intro wn c v hnone hv hd
    refine ⟨(keeps_messy v).wf hv, hd, ?_⟩
    have hcoeffs : coeffs wn c = fun _ => none := by
      funext f
      rw [coeffs, hnone]
      rfl
    rw [hcoeffs]
    exact (Option.bind_fun_none _).symm
  have htwo : ∀ {wn kid0 kid1 : Wn α} {c c' : Int} {v v₁ v' : AccessVector α}, (linTerms wn c = (do
      let ts ← linTerms kid0 c
      let us ← linTerms kid1 c'
      return ts ++ us)) →
      (v.WF → v.Distinct → v₁.WF ∧ v₁.Distinct ∧ coeffsOf stack v₁ = (coeffsOf stack v).bind (coeffs kid0 c)) →
      (v₁.WF → v₁.Distinct → v'.WF ∧ v'.Distinct ∧ coeffsOf stack v' = (coeffsOf stack v₁).bind (coeffs kid1 c')) →
      v.WF → v.Distinct → v'.WF ∧ v'.Distinct ∧ coeffsOf stack v' = (coeffsOf stack v).bind (coeffs wn c) := by
    intro wn kid0 kid1 c c' v v₁ v' hwn h0 h1 hv hd
    obtain ⟨hv₁, hd₁, hc₁⟩ := h0 hv hd
    obtain ⟨hv', hd', hc'⟩ := h1 hv₁ hd₁
    refine ⟨hv', hd', ?_⟩
    rw [hc', hc₁, Option.bind_assoc, funext (coeffs_two hwn)]
  exact {
    stop := fun {_ _ _} hm hv hd => ⟨hv, hd, by rw [coeffsOf_messy hm]; rfl⟩
    give := hgive
    add := htwo rfl
    sub := fun {kid0 kid1 c c' v v₁ v'} hc h0 h1 => by
      rw [int64_eq_ok hc] at h1
      exact htwo rfl h0 h1
    neg := fun hc h => by
      rw [int64_eq_ok hc] at h
      exact h
    mpyLeft := fun hval hc h => by
      rw [int64_eq_ok hc] at h
      unfold coeffs
      rw [linTerms, hval]
      exact h
    mpyRight := fun hnone hval hc h => by
      rw [int64_eq_ok hc] at h
      unfold coeffs
      rw [linTerms, hnone, hval]
      exact h
    product := fun hnone0 hnone1 h => by
      cases h
      exact hgive (by rw [linTerms, hnone0, hnone1])
    symbol := fun _ h => addSymbol_coeffs h
    const := fun h hv hd => by
      rw [addConst_eq h]
      exact ⟨⟨hv.lcoeff, hv.products⟩, hd, (Option.bind_fun_some _).symm⟩
    paren := fun h => h
    i8i4 := fun h => h
    u8i4 := fun h => h
    i4u8 := fun h => h
    shl := fun hcount hc h => by
      rw [shiftLeft_eq hc] at h
      unfold coeffs
      rw [linTerms, hcount]
      exact h
    ashr := fun hcount hc h => by
      rw [shiftRight_eq hc] at h
      unfold coeffs
      rw [linTerms, hcount]
      exact h }

/-! ## The constraint of a branch -/

/-- A quotient whose constraint is multiplied out: its kids, and the constant that goes with the denominator. -/
def divParts (step : Int) : Wn α → Option (Wn α × Wn α × (Int → Int))
  | .intrinsicOp .divFloor kid0 kid1 => if step > 0 then some (kid0, kid1, (1 - ·)) else none
  | .intrinsicOp .divCeil kid0 kid1 => if step > 0 then some (kid0, kid1, fun _ => 0) else none
  | _ => none

/-- The coefficient that a multiple of an expression gives to the index. -/
def indexGain (stack : List α) (wn : Wn α) (c : Int) : Int :=
  gain 0 (fun symbol => if loopIndex stack symbol = some (stack.length - 1) then 1 else 0) (fun _ _ => 0) wn c

theorem set_total {wn : Wn α} {sign offset : Int} (h : set checked stack (freshDim stack) wn sign offset false = .ok v)
    (hm : v.tooMessy = false) (env : α → Int) (x one : Int) :
    v.WF ∧ v.nestDepth = stack.length ∧
      total stack env x one v = one * offset + totalGain stack env x one wn sign := by
  have hadd := addSum_total h env x one
  refine ⟨hadd.wf (set_start_wf offset), addSum_nestDepth h (set_start_wf offset) hm, ?_⟩
  rw [hadd.grows (set_start_wf offset) hm, set_start_total]

theorem set_coeffs {wn : Wn α} {sign offset : Int} (h : set checked stack (freshDim stack) wn sign offset false = .ok v) :
    v.WF ∧ v.Distinct ∧ coeffsOf stack v = coeffs wn sign fun _ => 0 := by
  have hstart : coeffsOf stack ({ freshDim stack with
      tooMessy := false, constOffset := offset, nonLinSymb := none } : AccessVector α) = some fun _ => 0 := by
    refine congrArg some (funext fun symbol => ?_)
    unfold symbolCoeff
    cases loopIndex stack symbol with
    | none => rfl
    | some i => rfl
  obtain ⟨hv, hd, hc⟩ := addSum_coeffs h (set_start_wf offset) List.nodup_nil
  exact ⟨hv, hd, by rw [hc, hstart]; rfl⟩

theorem measures_indexCoeff (stack : List α) : Measures stack false (fun v => v.loopCoeff (stack.length - 1)) 0
    (fun symbol => if loopIndex stack symbol = some (stack.length - 1) then 1 else 0) fun _ _ => 0 where
  const := by
    intro v offset
    rw [Int.mul_zero, Int.add_zero]
    rfl
  symbol hadded := by rw [hadded.loopCoeff, mul_ite, Int.mul_one, Int.mul_zero]
  product h := by
    cases h
    exact adds_messy _ 0

theorem set_indexCoeff {wn : Wn α} {sign offset : Int}
    (h : set checked stack (freshDim stack) wn sign offset false = .ok v) (hm : v.tooMessy = false) :
    v.loopCoeff (stack.length - 1) = indexGain stack wn sign := by
  rw [(addSum_summarised (measures_indexCoeff stack) h).grows (set_start_wf offset) hm]
  exact Int.zero_add _

/-- The coefficients with that of the innermost loop replaced. -/
def setIndex (stack : List α) (val : Int) (f : α → Int) (symbol : α) : Int :=
  if loopIndex stack symbol = some (stack.length - 1) then val else f symbol

theorem setLoopCoeff_symbolCoeff {val : Int} (h : setLoopCoeff v (v.nestDepth - 1) val = .ok v') (hv : v.WF)
    (hd : v.nestDepth = stack.length) : symbolCoeff stack v' = setIndex stack val (symbolCoeff stack v) := by
  unfold setLoopCoeff at h
  dsimp only at h
  split_ifs at h with hlt
  cases h
  rw [hv.length_lcoeff] at hlt
  funext symbol
  unfold setIndex symbolCoeff
  cases hi : loopIndex stack symbol with
  | none =>
    rw [if_neg nofun]
  | some i =>
    dsimp only
    rw [loopCoeff_set hv hlt, hd]
    exact if_congr Option.some_inj.symm rfl rfl

theorem boundExp_coeffs {wn : Wn α} (h : boundExp checked stack step wn (freshDim stack) = .ok v) :
    v.WF ∧ v.Distinct ∧ coeffsOf stack v = if indexGain stack wn (boundSign step) = 0 then
      (coeffs wn (boundSign step) fun _ => 0).map (setIndex stack (-boundSign step)) else none := by
  obtain ⟨u, hset, h⟩ := bind_eq_ok.mp h
  obtain ⟨hwf, hd, hc⟩ := set_coeffs hset
  rw [← hc]
  have hindex : u.tooMessy = false → u.nestDepth = stack.length ∧
      u.loopCoeff (u.nestDepth - 1) = indexGain stack wn (boundSign step) := by
    intro hm
    have hdepth := (set_total hset hm (fun _ => 0) 0 0).2.1
    exact ⟨hdepth, by rw [hdepth, set_indexCoeff hset hm]⟩
  split_ifs at h with hcoeff
  · cases h
    refine ⟨(keeps_messy u).wf hwf, hd, ?_⟩
    rw [coeffsOf_messy rfl]
    cases hm : u.tooMessy with
    | true => rw [coeffsOf_messy hm, Option.map_none, ite_self]
    | false => rw [if_neg ((hindex hm).2 ▸ hcoeff)]
  · obtain ⟨u', hu', h⟩ := bind_eq_ok.mp h
    obtain ⟨-, hmessy, hwf', hlin⟩ := setLoopCoeff_keeps hu'
    rw [negateConst_eq h]
    refine ⟨⟨(hwf' hwf).lcoeff, (hwf' hwf).products⟩, ?_, ?_⟩
    · show ((u'.linSymb.getD []).map (·.symbol)).Nodup
      rw [hlin]
      exact hd
    show coeffsOf stack u' = _
    cases hm : u.tooMessy with
    | true => rw [coeffsOf_messy hm, coeffsOf_messy (hmessy.trans hm), Option.map_none, ite_self]
    | false =>
      obtain ⟨hdepth, hzero⟩ := hindex hm
      rw [coeffsOf_kept hm, coeffsOf_kept (hmessy.trans hm), if_pos (hzero ▸ not_not.mp hcoeff)]
      exact congrArg some (setLoopCoeff_symbolCoeff hu' hwf hdepth)

theorem boundDiv_coeffs {kid0 kid1 : Wn α} {offset : Int → Int}
    (hnum : ∀ val, constVal kid1 = some val → 0 < val ∧ val < 2 ^ 31 - 1 → (coeffs kid0 1 fun _ => 0).isSome)
    (h : boundDiv checked stack kid0 kid1 offset (freshDim stack) = .ok v) :
    v.WF ∧ v.Distinct ∧ coeffsOf stack v = (constVal kid1).bind fun val => if 0 < val ∧ val < 2 ^ 31 - 1 then
      (coeffs kid0 1 fun _ => 0).map (setIndex stack (-val)) else none := by
  have hfresh : (freshDim stack).messy.WF ∧ (freshDim stack).messy.Distinct ∧ coeffsOf stack (freshDim stack).messy = none :=
    ⟨⟨(fun _ hl => nomatch hl), (fun _ hnode => nomatch hnode)⟩, List.nodup_nil, rfl⟩
  unfold boundDiv at h
  cases hval : constVal kid1 with
  | none =>
    simp only [hval] at h
    cases h
    exact hfresh
  | some val =>
    simp only [hval] at h
    rw [Option.bind_some]
    split_ifs at h ⊢ with hpos
    · obtain ⟨u, hset, h⟩ := bind_eq_ok.mp h
      obtain ⟨u₁, hu₁, h⟩ := bind_eq_ok.mp h
      obtain ⟨u₂, hu₂, h⟩ := bind_eq_ok.mp h
      cases h
      obtain ⟨hwf, hd, hc⟩ := set_coeffs hset
      have hm : u.tooMessy = false := by
        cases hm : u.tooMessy with
        | false => rfl
        | true =>
          have hsome := hnum val hval hpos
          rw [← hc, coeffsOf_messy hm] at hsome
          exact nomatch hsome
      rw [negateConst_eq hu₁] at hu₂
      obtain ⟨-, -, hwf', hlin⟩ := setLoopCoeff_keeps hu₂
      have hwf'' := hwf' ⟨hwf.lcoeff, hwf.products⟩
      refine ⟨⟨hwf''.lcoeff, hwf''.products⟩, ?_, ?_⟩
      · show ((u₂.linSymb.getD []).map (·.symbol)).Nodup
        rw [hlin]
        exact hd
      have hsymbol := setLoopCoeff_symbolCoeff hu₂ ⟨hwf.lcoeff, hwf.products⟩ (set_total hset hm (fun _ => 0) 0 0).2.1
      rw [← hc, coeffsOf_kept hm, coeffsOf_kept rfl]
      exact congrArg some hsymbol
    · cases h
      exact hfresh

theorem boundExp_excess {wn : Wn α} (hs : NoShift wn) (h : boundExp checked stack step wn (freshDim stack) = .ok v)
    (hm : v.tooMessy = false) (env : α → Int) (rest : Nat → Int) (x : Int) :
    v.WF ∧ excess stack env x v = boundSign step * (wn.value env rest - x) := by
  obtain ⟨u, hset, h⟩ := bind_eq_ok.mp h
  split_ifs at h with hcoeff
  · cases h
    exact nomatch hm
  · obtain ⟨u', hu', h⟩ := bind_eq_ok.mp h
    obtain ⟨hconst, hmessy, hwf, -⟩ := setLoopCoeff_keeps hu'
    rw [negateConst_eq h] at hm ⊢
    have hum : u.tooMessy = false := hmessy ▸ hm
    obtain ⟨huwf, hud, -⟩ := set_total hset hum env 0 1
    have hzero : u.loopCoeff (stack.length - 1) = 0 := by
      rw [← hud]
      exact not_not.mp hcoeff
    refine ⟨⟨(hwf huwf).lcoeff, (hwf huwf).products⟩, ?_⟩
    -- the sum of the two sides is the value of the expression
    have heval := (addSum_adds env rest hset).grows (set_start_wf 0) hum
    rw [foldError_eq_zero env rest hs fun hallow => absurd hallow Bool.false_ne_true] at heval
    have hstart : ({ freshDim stack with
        tooMessy := false, constOffset := 0, nonLinSymb := none } : AccessVector α).eval stack env = 0 := by
      simp [AccessVector.eval, AccessVector.loopCoeff, freshDim, AccessVector.init, linValue, sumprodValue]
    have hsum := lhs_eq_of_zero hzero env 0
    show u'.lhs stack env x + -1 * -u'.constOffset = _
    rw [setLoopCoeff_lhs hu' huwf hud, hconst]
    rw [hstart] at heval
    linear_combination hsum + heval

/-- The constraint of a quotient; the index itself is left out of the numerator. -/
theorem boundDiv_excess {kid0 kid1 : Wn α} {offset : Int → Int}
    (h : boundDiv checked stack kid0 kid1 offset (freshDim stack) = .ok v) (hm : v.tooMessy = false) :
    ∃ val, constVal kid1 = some val ∧ (0 < val ∧ val < 2 ^ 31 - 1) ∧ ∃ u, set checked stack (freshDim stack) kid0 1 (offset val) false = .ok u ∧
      (u.tooMessy = false → v.WF ∧ ∀ env x, excess stack env x v =
        totalGain stack env 0 1 kid0 1 + offset val - val * x) := by
  unfold boundDiv at h
  cases hval : constVal kid1 with
  | none =>
    simp only [hval] at h
    cases h
    exact nomatch hm
  | some val =>
    simp only [hval] at h
    split_ifs at h with hpos
    · obtain ⟨u, hset, h⟩ := bind_eq_ok.mp h
      obtain ⟨u₁, hu₁, h⟩ := bind_eq_ok.mp h
      obtain ⟨u₂, hu₂, h⟩ := bind_eq_ok.mp h
      cases h
      refine ⟨val, rfl, hpos, u, hset, fun hum => ?_⟩
      have hneg := negateConst_eq hu₁
      have huwf := (set_total hset hum (fun _ => 0) 0 1).1
      have hu₁wf : u₁.WF := by
        rw [hneg]
        exact ⟨huwf.lcoeff, huwf.products⟩
      have hu₁d : u₁.nestDepth = stack.length := by
        rw [hneg]
        exact (set_total hset hum (fun _ => 0) 0 1).2.1
      obtain ⟨hconst, -, hwf, -⟩ := setLoopCoeff_keeps hu₂
      refine ⟨⟨(hwf hu₁wf).lcoeff, (hwf hu₁wf).products⟩, fun env x => ?_⟩
      have htotal := (set_total hset hum env 0 1).2.2
      have hlhs : u₁.lhs stack env 0 = u.lhs stack env 0 := by
        rw [hneg]
        rfl
      have hoffset : u₁.constOffset = -u.constOffset := by rw [hneg]
      show u₂.lhs stack env x + -1 * u₂.constOffset = _
      rw [setLoopCoeff_lhs hu₂ hu₁wf hu₁d, hconst, hlhs, hoffset]
      unfold total at htotal
      linear_combination htotal
    · cases h
      exact nomatch hm

/-! ## The tree -/

/-- The branches of the `MAX` tree, or of the `MIN` tree. -/
def branches (step : Int) : Wn α → List (Wn α)
  | .max kid0 kid1 =>
    if step > 0 then branches step kid0 ++ branches step kid1 else [.max kid0 kid1]
  | .min kid0 kid1 =>
    if step < 0 then branches step kid0 ++ branches step kid1 else [.min kid0 kid1]
  | wn => [wn]

/-- The vector of a branch; that of an intrinsic that is not looked into is left alone. -/
def branchVector (stack : List α) (step : Int) : Wn α → Except Fault (AccessVector α)
  | .intrinsicOp (.rest id) kid0 kid1 =>
    if step > 0 then .ok (freshDim stack) else boundBranch checked stack step (.intrinsicOp (.rest id) kid0 kid1) (freshDim stack)
  | wn => boundBranch checked stack step wn (freshDim stack)

/-- The vectors of some expressions. -/
def Vectors (stack : List α) (step : Int) (bs : List (Wn α)) (vs : List (AccessVector α)) : Prop :=
  List.Forall₂ (fun b v => branchVector stack step b = .ok v) bs vs

omit [DecidableEq α] in
theorem modifyDim_append {pre : List (AccessVector α)} {m : Nat} {f : AccessVector α → Except Fault (AccessVector α)}
    {dims : List (AccessVector α)}
    (h : modifyDim (pre ++ List.replicate m (freshDim stack)) pre.length f = .ok dims) :
    ∃ v m', f (freshDim stack) = .ok v ∧ m = 1 + m' ∧ dims = pre ++ [v] ++ List.replicate m' (freshDim stack) := by
  unfold modifyDim at h
  cases m with
  | zero =>
    rw [List.replicate_zero, List.append_nil, List.getElem?_eq_none (Nat.le_refl _)] at h
    exact nomatch h
  | succ m =>
    rw [List.getElem?_append_right (Nat.le_refl _), Nat.sub_self, List.replicate_succ, List.getElem?_cons_zero] at h
    obtain ⟨v, hv, h⟩ := bind_eq_ok.mp h
    cases h
    refine ⟨v, m, hv, Nat.add_comm m 1, ?_⟩
    rw [List.set_append_right _ _ (Nat.le_refl _), Nat.sub_self, List.set_cons_zero, List.append_assoc,
      List.singleton_append]

/-- A run over a tree that has the parts `l`: the next fresh dimensions are those of the parts. -/
def Fills {γ : Type} (stack : List α) (fill : List (AccessVector α) → Nat → Except Fault (List (AccessVector α) × Nat))
    (vector : γ → Except Fault (AccessVector α)) (l : List γ) : Prop :=
  ∀ pre m r, fill (pre ++ List.replicate m (freshDim stack)) pre.length = .ok r →
    ∃ vs m', List.Forall₂ (fun b v => vector b = .ok v) l vs ∧ m = vs.length + m' ∧
      r = (pre ++ vs ++ List.replicate m' (freshDim stack), (pre ++ vs).length)

section Fills

variable {γ : Type} {fill fill₀ fill₁ : List (AccessVector α) → Nat → Except Fault (List (AccessVector α) × Nat)}
  {vector : γ → Except Fault (AccessVector α)}

omit [DecidableEq α] in
theorem Fills.single {b : γ} {f : AccessVector α → Except Fault (AccessVector α)} (hv : vector b = f (freshDim stack))
    (hset : ∀ dims i, fill dims i = (do
      let dims ← modifyDim dims i f
      return (dims, i + 1))) : Fills stack fill vector [b] := by
  intro pre m r h
  rw [hset] at h
  obtain ⟨dims, hdims, h⟩ := bind_eq_ok.mp h
  cases h
  obtain ⟨v, m', hv', rfl, rfl⟩ := modifyDim_append hdims
  refine ⟨[v], m', .cons (hv.trans hv') .nil, rfl, ?_⟩
  rw [List.length_append, List.length_singleton]

omit [DecidableEq α] in
theorem Fills.append {l₀ l₁ : List γ} (h0 : Fills stack fill₀ vector l₀) (h1 : Fills stack fill₁ vector l₁)
    (hset : ∀ dims i, fill dims i = (do
      let r ← fill₀ dims i
      fill₁ r.1 r.2)) : Fills stack fill vector (l₀ ++ l₁) := by
  intro pre m r h
  rw [hset] at h
  obtain ⟨r₀, hr₀, h⟩ := bind_eq_ok.mp h
  obtain ⟨vs, m', hvs, rfl, rfl⟩ := h0 pre m r₀ hr₀
  obtain ⟨vs', m'', hvs', rfl, rfl⟩ := h1 (pre ++ vs) m' r h
  refine ⟨vs ++ vs', m'', List.rel_append hvs hvs', ?_, ?_⟩
  · rw [List.length_append, Nat.add_assoc]
  · rw [List.append_assoc pre vs vs']

end Fills

/-- A run of `Set_LB_r` fills the dimensions of the branches. -/
theorem fillsDims (stack : List α) (step : Int) (wn : Wn α) :
    Fills stack (setLBr checked stack step wn) (branchVector stack step) (branches step wn) := by
  induction wn with
  | max kid0 kid1 ih0 ih1 =>
    rw [branches]
    by_cases hstep : step > 0
    · rw [if_pos hstep]
      exact ih0.append ih1 fun dims i => by rw [setLBr, if_pos hstep]
    · rw [if_neg hstep]
      exact Fills.single rfl fun dims i => by rw [setLBr, if_neg hstep]
  | min kid0 kid1 ih0 ih1 =>
    rw [branches]
    by_cases hstep : step < 0
    · rw [if_pos hstep]
      exact ih0.append ih1 fun dims i => by rw [setLBr, if_pos hstep]
    · rw [if_neg hstep]
      exact Fills.single rfl fun dims i => by rw [setLBr, if_neg hstep]
  | intrinsicOp intr kid0 kid1 _ _ =>
    cases intr with
    | divFloor => exact Fills.single rfl fun dims i => rfl
    | divCeil => exact Fills.single rfl fun dims i => rfl
    | rest id =>
      by_cases hstep : step > 0
      · -- the next dimension is marked, which is fresh and so too messy already
        intro pre m r h
        rw [setLBr, if_pos hstep] at h
        obtain ⟨dims, hdims, h⟩ := bind_eq_ok.mp h
        cases h
        cases m with
        | zero =>
          unfold modifyDim at hdims
          rw [List.replicate_zero, List.append_nil, List.getElem?_eq_none (Nat.le_succ _)] at hdims
          exact nomatch hdims
        | succ m =>
          rw [List.replicate_succ, ← List.singleton_append, ← List.append_assoc, ← List.length_singleton,
            ← List.length_append] at hdims
          obtain ⟨v, m', hv, rfl, rfl⟩ := modifyDim_append hdims
          cases hv
          refine ⟨[freshDim stack], 1 + m', ?_, ?_, ?_⟩
          · refine .cons ?_ .nil
            rw [branchVector, if_pos hstep]
          · rw [List.length_singleton]
            omega
          · show (pre ++ [freshDim stack] ++ [freshDim stack] ++ List.replicate m' (freshDim stack), pre.length + 1) = _
            rw [Nat.add_comm 1 m', List.replicate_succ, List.append_assoc (pre ++ [freshDim stack]),
              List.singleton_append, List.length_append, List.length_singleton]
      · have hv : branchVector stack step (.intrinsicOp (.rest id) kid0 kid1) =
            boundBranch checked stack step (.intrinsicOp (.rest id) kid0 kid1) (freshDim stack) := by
          rw [branchVector, if_neg hstep]
        exact Fills.single hv fun dims i => by rw [setLBr, if_neg hstep]
  | _ => exact Fills.single rfl fun dims i => rfl

/-- `Set_LB_r` on a fresh array: the vectors of the branches, and how many they are. -/
theorem setLBr_fresh {wn : Wn α} {m : Nat} {r : List (AccessVector α) × Nat}
    (h : setLBr checked stack step wn (List.replicate m (freshDim stack)) 0 = .ok r) :
    ∃ vs m', Vectors stack step (branches step wn) vs ∧ m = vs.length + m' ∧
      r = (vs ++ List.replicate m' (freshDim stack), (branches step wn).length) := by
  obtain ⟨vs, m', hvs, hm, rfl⟩ := fillsDims stack step wn [] m r h
  refine ⟨vs, m', hvs, hm, ?_⟩
  rw [List.nil_append, hvs.length_eq]

/-! ## The parts of a bound -/

/-- The tree that `Set_LB` splits. -/
def lowerTree (step : Int) (wn : Wn α) : Wn α :=
  if numLowerBounds wn step = 1 ∨ isSplit step wn then wn
  else
    match wn with
    | .sub kid0 _ => kid0
    | .add kid0 kid1 => if isSplit step kid0 then kid0 else kid1
    | wn => wn

/-- What `Set_LB` adds to every branch, and its sign. -/
def lowerAdded (step : Int) (wn : Wn α) : Option (Wn α × Int) :=
  if numLowerBounds wn step = 1 ∨ isSplit step wn then none
  else
    match wn with
    | .sub _ kid1 => some (kid1, -boundSign step)
    | .add kid0 kid1 => some (if isSplit step kid0 then kid1 else kid0, boundSign step)
    | _ => none

/-- `Num_Lower_Bounds` counts the `MAX` nodes of a second operand although the step is negative. -/
def CountsMaxs (step : Int) : Wn α → Prop
  | .add kid0 (.max _ _) => step < 0 ∧ isMin kid0 = false
  | _ => False

omit [DecidableEq α] in
theorem numMaxs_branches (hstep : step > 0) (wn : Wn α) : numMaxs wn + 1 = (branches step wn).length := by
  induction wn with
  | max kid0 kid1 ih0 ih1 =>
    rw [branches, if_pos hstep, List.length_append, ← ih0, ← ih1, numMaxs]
    omega
  | min kid0 kid1 _ _ =>
    rw [branches, if_neg (by omega)]
    rfl
  | _ => rfl

omit [DecidableEq α] in
theorem numMins_branches (hstep : step < 0) (wn : Wn α) : numMins wn + 1 = (branches step wn).length := by
  induction wn with
  | min kid0 kid1 ih0 ih1 =>
    rw [branches, if_pos hstep, List.length_append, ← ih0, ← ih1, numMins]
    omega
  | max kid0 kid1 _ _ =>
    rw [branches, if_neg (by omega)]
    rfl
  | _ => rfl

omit [DecidableEq α] in
theorem numMaxs_eq_zero_iff (wn : Wn α) : numMaxs wn = 0 ↔ isMax wn = false := by
  cases wn <;> simp [numMaxs, isMax]

omit [DecidableEq α] in
theorem numMins_eq_zero_iff (wn : Wn α) : numMins wn = 0 ↔ isMin wn = false := by
  cases wn <;> simp [numMins, isMin]

omit [DecidableEq α] in
theorem lowerTree_of_one {wn : Wn α} (h : numLowerBounds wn step = 1) : lowerTree step wn = wn := if_pos (Or.inl h)

omit [DecidableEq α] in
theorem isSplit_eq_false {wn : Wn α} (hmax : isMax wn = false) (hmin : isMin wn = false) : isSplit step wn = false := by
  unfold isSplit
  split_ifs
  · exact hmax
  · exact hmin

omit [DecidableEq α] in
theorem lowerTree_sub {kid0 kid1 : Wn α} (h : numLowerBounds (.sub kid0 kid1) step ≠ 1) :
    lowerTree step (.sub kid0 kid1) = kid0 := by
  refine if_neg (not_or.mpr ⟨h, ?_⟩)
  rw [isSplit_eq_false rfl rfl]
  exact Bool.false_ne_true

omit [DecidableEq α] in
theorem lowerTree_add {kid0 kid1 : Wn α} (h : numLowerBounds (.add kid0 kid1) step ≠ 1) :
    lowerTree step (.add kid0 kid1) = if isSplit step kid0 then kid0 else kid1 := by
  refine if_neg (not_or.mpr ⟨h, ?_⟩)
  rw [isSplit_eq_false rfl rfl]
  exact Bool.false_ne_true

omit [DecidableEq α] in
/-- For a positive step as many vectors are counted as are filled. -/
theorem numLowerBounds_pos (hstep : step > 0) (wn : Wn α) :
    numLowerBounds wn step = (branches step (lowerTree step wn)).length := by
  by_cases hone : numLowerBounds wn step = 1
  · rw [lowerTree_of_one hone, hone]
    cases wn with
    | max kid0 kid1 =>
      unfold numLowerBounds at hone
      rw [if_pos hstep] at hone
      simp [numMaxs] at hone
    | min kid0 kid1 =>
      rw [branches, if_neg (by omega)]
      rfl
    | _ => rfl
  · cases wn with
    | max kid0 kid1 =>
      have hsplit : isSplit step (.max kid0 kid1) = true := by
        rw [isSplit, if_pos hstep]
        rfl
      have htree : lowerTree step (.max kid0 kid1) = .max kid0 kid1 := if_pos (Or.inr hsplit)
      rw [htree, ← numMaxs_branches hstep, numLowerBounds, if_pos hstep]
    | sub kid0 kid1 =>
      rw [lowerTree_sub hone, ← numMaxs_branches hstep, numLowerBounds, if_pos hstep]
    | add kid0 kid1 =>
      rw [lowerTree_add hone, isSplit, if_pos hstep, numLowerBounds, if_pos hstep]
      cases hmax : isMax kid0 with
      | true =>
        have hne : numMaxs kid0 ≠ 0 := fun hzero => by
          rw [(numMaxs_eq_zero_iff kid0).mp hzero] at hmax
          exact Bool.false_ne_true hmax
        show (if numMaxs kid0 = 0 then _ else _) + 1 = _
        rw [if_neg hne, if_pos rfl, ← numMaxs_branches hstep]
      | false =>
        show (if numMaxs kid0 = 0 then _ else _) + 1 = _
        rw [if_pos ((numMaxs_eq_zero_iff kid0).mpr hmax), if_neg Bool.false_ne_true, ← numMaxs_branches hstep]
    | _ =>
      refine absurd ?_ hone
      unfold numLowerBounds
      rw [if_pos hstep]

omit [DecidableEq α] in
/-- For a negative step the `MAX` nodes of a second operand are counted, and not split. -/
theorem numLowerBounds_neg_iff (hstep : step < 0) (wn : Wn α) :
    numLowerBounds wn step = (branches step (lowerTree step wn)).length ↔ ¬CountsMaxs step wn := by
  have hpos : ¬step > 0 := by omega
  by_cases hone : numLowerBounds wn step = 1
  · rw [lowerTree_of_one hone, hone]
    cases wn with
    | min kid0 kid1 =>
      unfold numLowerBounds at hone
      rw [if_neg hpos] at hone
      simp [numMins] at hone
    | max kid0 kid1 =>
      rw [branches, if_neg hpos]
      exact iff_of_true rfl not_false
    | add kid0 kid1 =>
      refine iff_of_true rfl fun hcounts => ?_
      cases kid1 with
      | max kid2 kid3 =>
        have hzero := (numMins_eq_zero_iff kid0).mpr hcounts.2
        unfold numLowerBounds at hone
        rw [if_neg hpos] at hone
        simp [hzero, numMaxs] at hone
      | _ => exact hcounts
    | _ => exact iff_of_true rfl not_false
  · cases wn with
    | min kid0 kid1 =>
      have hsplit : isSplit step (.min kid0 kid1) = true := by
        rw [isSplit, if_neg hpos]
        rfl
      have htree : lowerTree step (.min kid0 kid1) = .min kid0 kid1 := if_pos (Or.inr hsplit)
      rw [htree, ← numMins_branches hstep, numLowerBounds, if_neg hpos]
      exact iff_of_true rfl not_false
    | sub kid0 kid1 =>
      rw [lowerTree_sub hone, ← numMins_branches hstep, numLowerBounds, if_neg hpos]
      exact iff_of_true rfl not_false
    | add kid0 kid1 =>
      rw [lowerTree_add hone, isSplit, if_neg hpos]
      unfold numLowerBounds at hone ⊢
      rw [if_neg hpos] at hone ⊢
      dsimp only at hone ⊢
      cases hmin : isMin kid0 with
      | true =>
        have hne : numMins kid0 ≠ 0 := fun hzero => by
          rw [(numMins_eq_zero_iff kid0).mp hzero] at hmin
          exact Bool.false_ne_true hmin
        rw [if_neg hne, if_pos rfl, ← numMins_branches hstep]
        refine iff_of_true rfl fun hcounts => ?_
        cases kid1 with
        | max kid2 kid3 => exact Bool.false_ne_true (hcounts.2.symm.trans hmin)
        | _ => exact hcounts
      | false =>
        rw [if_pos ((numMins_eq_zero_iff kid0).mpr hmin)] at hone ⊢
        rw [if_neg Bool.false_ne_true]
        cases kid1 with
        | max kid2 kid3 =>
          refine iff_of_false ?_ (not_not.mpr ⟨hstep, hmin⟩)
          rw [branches, if_neg hpos]
          exact hone
        | _ => exact absurd rfl hone
    | _ =>
      refine absurd ?_ hone
      unfold numLowerBounds
      rw [if_neg hpos]

omit [DecidableEq α] in
/-- As many vectors are counted as are filled, but for the `MAX` nodes of a negative step. -/
theorem numLowerBounds_eq_iff (hstep : step ≠ 0) (wn : Wn α) :
    numLowerBounds wn step = (branches step (lowerTree step wn)).length ↔ ¬CountsMaxs step wn := by
  rcases Int.lt_or_gt_of_ne hstep with hneg | hpos
  · exact numLowerBounds_neg_iff hneg wn
  · refine iff_of_true (numLowerBounds_pos hpos wn) fun hcounts => ?_
    unfold CountsMaxs at hcounts
    split at hcounts
    · omega
    · exact hcounts

/-! ## The vector of a branch -/

/-- The vector that is left for a branch, with what is added to all of them. -/
def branchDim (stack : List α) (step : Int) (added : Option (Wn α × Int)) (b : Wn α) : Except Fault (AccessVector α) :=
  match added with
  | none => branchVector stack step b
  | some (wn, sign) => do
    let v ← branchVector stack step b
    addSum checked stack false wn sign v

theorem forall₂_branchDim {wn : Wn α} {sign : Int} {bs : List (Wn α)} {vs dims : List (AccessVector α)}
    (hvs : Vectors stack step bs vs) (hsize : vs.length < 2 ^ 16) (h : addToDims checked stack wn sign vs = .ok dims) :
    List.Forall₂ (fun b v => branchDim stack step (some (wn, sign)) b = .ok v) bs dims := by
  have hadds : List.Forall₂ (fun v u => addSum checked stack false wn sign v = .ok u) vs dims := by
    unfold addToDims numVec at h
    rw [Nat.mod_eq_of_lt hsize, List.take_length, List.drop_length] at h
    obtain ⟨added, hadded, h⟩ := bind_eq_ok.mp h
    cases h
    rw [List.append_nil]
    exact mapM_ok hadded
  clear h hsize
  unfold Vectors at hvs
  induction hvs generalizing dims with
  | nil =>
    cases hadds
    exact .nil
  | cons hv _ ih =>
    cases hadds with
    | cons hu hus => exact .cons (bind_eq_ok.mpr ⟨_, hv, hu⟩) (ih hus)

omit [DecidableEq α] in
theorem whole_of_max (kid0 kid1 : Wn α) :
    numLowerBounds (.max kid0 kid1) step = 1 ∨ isSplit step (.max kid0 kid1) = true := by
  by_cases hstep : step > 0
  · rw [isSplit, if_pos hstep]
    exact Or.inr rfl
  · unfold numLowerBounds
    rw [if_neg hstep]
    exact Or.inl rfl

omit [DecidableEq α] in
theorem whole_of_min (kid0 kid1 : Wn α) :
    numLowerBounds (.min kid0 kid1) step = 1 ∨ isSplit step (.min kid0 kid1) = true := by
  by_cases hstep : step > 0
  · unfold numLowerBounds
    rw [if_pos hstep]
    exact Or.inl rfl
  · rw [isSplit, if_neg hstep]
    exact Or.inr rfl

/-- When as many vectors are there as are filled, each is that of its branch. -/
theorem buildLB_dims {wn : Wn α} {dims : List (AccessVector α)} (h : buildLB checked stack wn step = .ok dims)
    (hcount : numLowerBounds wn step = (branches step (lowerTree step wn)).length)
    (hsize : numLowerBounds wn step < 2 ^ 16) :
    List.Forall₂ (fun b v => branchDim stack step (lowerAdded step wn) b = .ok v) (branches step (lowerTree step wn))
      dims := by
  unfold buildLB setLB numVec at h
  rw [Nat.mod_eq_of_lt (by omega : numLowerBounds wn step < 2 ^ 32), List.length_replicate, Nat.mod_eq_of_lt hsize] at h
  -- a full array has no fresh dimension left
  have hfull : ∀ {r : List (AccessVector α) × Nat}, setLBr checked stack step (lowerTree step wn)
      (List.replicate (numLowerBounds wn step) (freshDim stack)) 0 = .ok r →
      Vectors stack step (branches step (lowerTree step wn)) r.1 ∧ r.1.length < 2 ^ 16 := by
    intro r hr
    obtain ⟨vs, m', hvs, hm, rfl⟩ := setLBr_fresh hr
    have hzero : m' = 0 := by
      have hlen := hvs.length_eq
      omega
    rw [hzero, List.replicate_zero, List.append_nil]
    refine ⟨hvs, ?_⟩
    show vs.length < 2 ^ 16
    omega
  unfold lowerTree at hfull ⊢
  unfold lowerAdded
  split_ifs at h hfull ⊢ with hwhole
  · obtain ⟨r, hr, h⟩ := bind_eq_ok.mp h
    cases h
    exact (hfull hr).1
  · cases wn with
    | sub kid0 kid1 =>
      obtain ⟨r, hr, h⟩ := bind_eq_ok.mp h
      exact forall₂_branchDim (hfull hr).1 (hfull hr).2 h
    | add kid0 kid1 =>
      dsimp only at h hfull ⊢
      split_ifs at h hfull ⊢ with hsplit
      · obtain ⟨r, hr, h⟩ := bind_eq_ok.mp h
        exact forall₂_branchDim (hfull hr).1 (hfull hr).2 h
      · obtain ⟨r, hr, h⟩ := bind_eq_ok.mp h
        exact forall₂_branchDim (hfull hr).1 (hfull hr).2 h
    | max kid0 kid1 => exact absurd (whole_of_max kid0 kid1) hwhole
    | min kid0 kid1 => exact absurd (whole_of_min kid0 kid1) hwhole
    | _ =>
      refine absurd (Or.inl ?_) hwhole
      unfold numLowerBounds
      split_ifs
      · rfl
      · rfl

/-- The call of `Set` for a branch gives up. -/
def SetMessy (stack : List α) (step : Int) (b : Wn α) : Prop :=
  match divParts step b with
  | some (kid0, kid1, offset) => ∃ val u, constVal kid1 = some val ∧
      set checked stack (freshDim stack) kid0 1 (offset val) false = .ok u ∧ u.tooMessy = true
  | none => ∃ u, set checked stack (freshDim stack) b (boundSign step) 0 false = .ok u ∧ u.tooMessy = true

/-- What the constraint of a branch counts without the index. -/
def branchStart (stack : List α) (env : α → Int) (rest : Nat → Int) (step : Int) (b : Wn α) : Int :=
  match divParts step b with
  | some (kid0, kid1, offset) => totalGain stack env 0 1 kid0 1 + offset (kid1.value env rest)
  | none => boundSign step * b.value env rest

/-- The coefficient of the index in the constraint of a branch. -/
def branchSlope (env : α → Int) (rest : Nat → Int) (step : Int) (b : Wn α) : Int :=
  match divParts step b with
  | some (_, kid1, _) => -kid1.value env rest
  | none => -boundSign step

theorem boundBranch_eq (a : Arith) (stack : List α) (step : Int) (b : Wn α) (v : AccessVector α) :
    boundBranch a stack step b v =
      match divParts step b with
      | some (kid0, kid1, offset) => boundDiv a stack kid0 kid1 offset v
      | none => boundExp a stack step b v := by
  cases b with
  | intrinsicOp intr kid0 kid1 =>
    cases intr with
    | divFloor =>
      rw [boundBranch, divParts]
      split_ifs <;> rfl
    | divCeil =>
      rw [boundBranch, divParts]
      split_ifs <;> rfl
    | rest id => rfl
  | _ => rfl

theorem branchVector_eq {b : Wn α} (h : branchVector stack step b = .ok v) (hm : v.tooMessy = false) :
    boundBranch checked stack step b (freshDim stack) = .ok v := by
  unfold branchVector at h
  split at h
  · split_ifs at h with hstep
    · cases h
      exact nomatch hm
    · exact h
  · exact h

theorem not_setMessy {b : Wn α} (hb : branchVector stack step b = .ok v) (hm : v.tooMessy = false)
    (hdiv : divParts step b = none) : ¬SetMessy stack step b := by
  have h := branchVector_eq hb hm
  rw [boundBranch_eq, hdiv] at h
  unfold SetMessy
  rw [hdiv]
  rintro ⟨u, hu, hmessy⟩
  obtain ⟨u', hset, h⟩ := bind_eq_ok.mp h
  rw [hu] at hset
  cases hset
  split_ifs at h
  · cases h
    exact nomatch hm
  · obtain ⟨u₁, hu₁, h⟩ := bind_eq_ok.mp h
    rw [negateConst_eq h] at hm
    exact Bool.false_ne_true ((hm.symm.trans (setLoopCoeff_keeps hu₁).2.1).trans hmessy)

/-- The coefficients of the constraint of a branch. -/
def branchCoeffs (stack : List α) (step : Int) (b : Wn α) : Option (α → Int) :=
  match divParts step b with
  | some (kid0, kid1, _) => (constVal kid1).bind fun val =>
    if 0 < val ∧ val < 2 ^ 31 - 1 then (coeffs kid0 1 fun _ => 0).map (setIndex stack (-val)) else none
  | none =>
    if indexGain stack b (boundSign step) = 0 then
      (coeffs b (boundSign step) fun _ => 0).map (setIndex stack (-boundSign step))
    else none

/-- The numerator of a quotient by a constant is linear, with coefficients that fit. -/
def NumeratorFits (step : Int) (b : Wn α) : Prop :=
  match divParts step b with
  | some (kid0, kid1, _) =>
    ∀ val, constVal kid1 = some val → 0 < val ∧ val < 2 ^ 31 - 1 → (coeffs kid0 1 fun _ => 0).isSome
  | none => True

/-- The constraint of a branch is linear, with coefficients that fit, also with what is added. -/
def Recorded (stack : List α) (step : Int) (added : Option (Wn α × Int)) (b : Wn α) : Prop :=
  match added with
  | none => (branchCoeffs stack step b).isSome
  | some (wn, sign) => ((branchCoeffs stack step b).bind (coeffs wn sign)).isSome

theorem branchVector_coeffs {b : Wn α} (hnum : NumeratorFits step b) (h : branchVector stack step b = .ok v) :
    v.WF ∧ v.Distinct ∧ coeffsOf stack v = branchCoeffs stack step b := by
  have hbranch : boundBranch checked stack step b (freshDim stack) = .ok v →
      v.WF ∧ v.Distinct ∧ coeffsOf stack v = branchCoeffs stack step b := by
    intro h
    rw [boundBranch_eq] at h
    unfold branchCoeffs
    unfold NumeratorFits at hnum
    cases hdiv : divParts step b with
    | none =>
      rw [hdiv] at h
      exact boundExp_coeffs h
    | some parts =>
      rw [hdiv] at h hnum
      exact boundDiv_coeffs hnum h
  unfold branchVector at h
  split at h
  · split_ifs at h with hstep
    · cases h
      refine ⟨⟨(fun _ hl => nomatch hl), (fun _ hnode => nomatch hnode)⟩, List.nodup_nil, ?_⟩
      rw [coeffsOf_messy rfl]
      simp [branchCoeffs, divParts, coeffs, linTerms]
    · exact hbranch h
  · exact hbranch h

theorem tooMessy_iff (stack : List α) (v : AccessVector α) : v.tooMessy = false ↔ (coeffsOf stack v).isSome := by
  cases hm : v.tooMessy with
  | false => exact iff_of_true rfl (by rw [coeffsOf_kept hm]; rfl)
  | true => exact iff_of_false nofun (by rw [coeffsOf_messy hm]; nofun)

/-- The constraint of a branch whose numerator, if it has one, was not given up. -/
theorem branchVector_excess {b : Wn α} (hs : NoShift b) (hb : branchVector stack step b = .ok v)
    (hm : v.tooMessy = false) (hkept : ¬SetMessy stack step b) :
    v.WF ∧ ∀ (env : α → Int) (rest : Nat → Int) (x : Int),
      excess stack env x v = branchStart stack env rest step b + branchSlope env rest step b * x := by
  have h := branchVector_eq hb hm
  rw [boundBranch_eq] at h
  unfold SetMessy at hkept
  unfold branchStart branchSlope
  cases hdiv : divParts step b with
  | none =>
    rw [hdiv] at h
    refine ⟨(boundExp_excess hs h hm (fun _ => 0) (fun _ => 0) 0).1, fun env rest x => ?_⟩
    rw [(boundExp_excess hs h hm env rest x).2]
    dsimp only
    ring
  | some parts =>
    obtain ⟨kid0, kid1, offset⟩ := parts
    rw [hdiv] at h hkept
    obtain ⟨val, hval, -, u, hset, hexcess⟩ := boundDiv_excess h hm
    have hum : u.tooMessy = false := by
      cases hmessy : u.tooMessy with
      | false => rfl
      | true => exact absurd ⟨val, u, hval, hset, hmessy⟩ hkept
    obtain ⟨hwf, hexcess⟩ := hexcess hum
    refine ⟨hwf, fun env rest x => ?_⟩
    rw [hexcess, constVal_some hval]
    show _ = _ + offset val + -val * x
    ring

/-- What is added to every constraint: the symbols on the left hand side, the constants on the right one. -/
def addedGain (stack : List α) (env : α → Int) (x : Int) : Option (Wn α × Int) → Int
  | none => 0
  | some (wn, sign) => totalGain stack env x (-1) wn sign

def addedSlope (stack : List α) : Option (Wn α × Int) → Int
  | none => 0
  | some (wn, sign) => indexGain stack wn sign

theorem addedGain_linear (stack : List α) (env : α → Int) (x bound : Int) (added : Option (Wn α × Int)) :
    addedGain stack env x added = addedGain stack env bound added + (x - bound) * addedSlope stack added := by
  cases added with
  | none => simp [addedGain, addedSlope]
  | some added =>
    obtain ⟨wn, sign⟩ := added
    have hat : innermostAt stack env x = fun symbol => innermostAt stack env bound symbol +
        (x - bound) * if loopIndex stack symbol = some (stack.length - 1) then 1 else 0 := by
      funext symbol
      unfold innermostAt
      split_ifs
      · ring
      · ring
    have hlinear := gain_add_mul (-1) 0 (x - bound) (innermostAt stack env bound)
      (fun symbol => if loopIndex stack symbol = some (stack.length - 1) then 1 else 0)
      (fun _ _ => 0) (fun _ _ => 0) wn sign
    simp only [Int.mul_zero, Int.add_zero] at hlinear
    rw [addedGain, totalGain, hat, hlinear]
    rfl

theorem branchDim_excess {b : Wn α} {added : Option (Wn α × Int)} (hs : NoShift b)
    (h : branchDim stack step added b = .ok v) (hm : v.tooMessy = false) (hkept : ¬SetMessy stack step b)
    (env : α → Int) (rest : Nat → Int) (x : Int) : excess stack env x v =
      branchStart stack env rest step b + branchSlope env rest step b * x + addedGain stack env x added := by
  unfold branchDim at h
  cases added with
  | none =>
    rw [(branchVector_excess hs h hm hkept).2 env rest, addedGain, Int.add_zero]
  | some added =>
    obtain ⟨u, hu, h⟩ := bind_eq_ok.mp h
    have hadd := addSum_total h env x (-1)
    obtain ⟨hwf, hexcess⟩ := branchVector_excess hs hu (hadd.messy hm) hkept
    have hgrows := hadd.grows hwf hm
    show total stack env x (-1) v = _
    rw [hgrows]
    show excess stack env x u + _ = _
    rw [hexcess env rest]
    rfl

theorem branchDim_vector {b : Wn α} {added : Option (Wn α × Int)} (h : branchDim stack step added b = .ok v)
    (hm : v.tooMessy = false) : ∃ u, branchVector stack step b = .ok u ∧ u.tooMessy = false := by
  unfold branchDim at h
  cases added with
  | none => exact ⟨v, h, hm⟩
  | some added =>
    obtain ⟨u, hu, h⟩ := bind_eq_ok.mp h
    exact ⟨u, hu, (addSum_total h (fun _ => 0) 0 0).messy hm⟩

/-! ## The bound and its constraints -/

/-- The index `x` is on the right side of the bound. -/
def Reaches (step x bound : Int) : Prop := if step > 0 then bound ≤ x else x ≤ bound

/-- As many vectors are counted as are filled, and `Num_Vec` holds their number; those that `Set` gives up stay so; and
the index of the loop, at or beyond the value of its start, satisfies every constraint that is recorded. -/
structure LowerImplied (stack : List α) (wn : Wn α) (step : Int) (env : α → Int) (rest : Nat → Int)
    (dims : List (AccessVector α)) : Prop where
  counted : numLowerBounds wn step = (branches step (lowerTree step wn)).length ∧
    numLowerBounds wn step % 2 ^ 16 = numLowerBounds wn step
  kept : List.Forall₂ (fun b v => SetMessy stack step b → v.tooMessy = true) (branches step (lowerTree step wn)) dims
  implied : ∀ v ∈ dims, v.tooMessy = false → ∀ x, Reaches step x (wn.value env rest) → v.Allows stack env x

/-- The constraint of a branch holds at the bound, and gets no tighter beyond it. -/
structure BranchFits (stack : List α) (step : Int) (env : α → Int) (rest : Nat → Int) (added : Option (Wn α × Int))
    (bound : Int) (b : Wn α) : Prop where
  start : branchStart stack env rest step b + branchSlope env rest step b * bound +
    addedGain stack env bound added ≤ 0
  slope : boundSign step * (branchSlope env rest step b + addedSlope stack added) ≤ 0

/-- The condition: no `MAX` node is counted for a negative step, the vectors fit an `mUINT16`, no numerator is given up, and
each branch whose constraint is recorded fits. -/
structure LowerFits (stack : List α) (wn : Wn α) (step : Int) (env : α → Int) (rest : Nat → Int) : Prop where
  counted : ¬CountsMaxs step wn
  size : numLowerBounds wn step < 2 ^ 16
  numerator : ∀ b ∈ branches step (lowerTree step wn), NumeratorFits step b
  branch : ∀ b ∈ branches step (lowerTree step wn), Recorded stack step (lowerAdded step wn) b →
    BranchFits stack step env rest (lowerAdded step wn) (wn.value env rest) b

theorem forall_reaches_iff (step p m bound : Int) :
    (∀ x, Reaches step x bound → p + (x - bound) * m ≤ 0) ↔ p ≤ 0 ∧ boundSign step * m ≤ 0 := by
  unfold Reaches boundSign
  refine ⟨fun h => ?_, fun ⟨hp, hm⟩ x hx => ?_⟩
  · have hbound := h bound (by split_ifs <;> exact Int.le_refl _)
    rw [Int.sub_self, Int.zero_mul, Int.add_zero] at hbound
    refine ⟨hbound, ?_⟩
    -- far enough from the bound a slope in the wrong direction wins
    split_ifs at h ⊢ with hpos
    · have hfar := h (bound + (1 - p)) (by omega)
      by_contra hm
      nlinarith
    · have hfar := h (bound - (1 - p)) (by omega)
      by_contra hm
      nlinarith
  · split_ifs at hx hm with hpos
    · nlinarith
    · nlinarith

omit [DecidableEq α] in
theorem noShift_branches {wn : Wn α} (hs : NoShift wn) : ∀ b ∈ branches step wn, NoShift b := by
  induction wn with
  | max kid0 kid1 ih0 ih1 =>
    intro b hb
    rw [branches] at hb
    split_ifs at hb
    · rcases List.mem_append.mp hb with h0 | h1
      · exact ih0 hs.1 b h0
      · exact ih1 hs.2 b h1
    · rw [List.mem_singleton.mp hb]
      exact hs
  | min kid0 kid1 ih0 ih1 =>
    intro b hb
    rw [branches] at hb
    split_ifs at hb
    · rcases List.mem_append.mp hb with h0 | h1
      · exact ih0 hs.1 b h0
      · exact ih1 hs.2 b h1
    · rw [List.mem_singleton.mp hb]
      exact hs
  | _ =>
    intro b hb
    rw [List.mem_singleton.mp hb]
    exact hs

omit [DecidableEq α] in
theorem noShift_lowerTree {wn : Wn α} (hs : NoShift wn) : NoShift (lowerTree step wn) := by
  unfold lowerTree
  split_ifs
  · exact hs
  · split
    · exact hs.1
    · split_ifs
      · exact hs.1
      · exact hs.2
    · exact hs

/-- A branch is recorded just when its vector is kept. -/
theorem branchDim_recorded {b : Wn α} {added : Option (Wn α × Int)} (hnum : NumeratorFits step b)
    (h : branchDim stack step added b = .ok v) : v.tooMessy = false ↔ Recorded stack step added b := by
  rw [tooMessy_iff stack]
  unfold branchDim at h
  unfold Recorded
  cases added with
  | none => rw [(branchVector_coeffs hnum h).2.2]
  | some added =>
    obtain ⟨u, hu, h⟩ := bind_eq_ok.mp h
    obtain ⟨hwf, hd, hc⟩ := branchVector_coeffs hnum hu
    rw [(addSum_coeffs h hwf hd).2.2, hc]

theorem not_setMessy_of_fits {b : Wn α} (hb : branchVector stack step b = .ok v) (hm : v.tooMessy = false)
    (hnum : NumeratorFits step b) : ¬SetMessy stack step b := by
  cases hdiv : divParts step b with
  | none => exact not_setMessy hb hm hdiv
  | some parts =>
    have h := branchVector_eq hb hm
    rw [boundBranch_eq, hdiv] at h
    unfold NumeratorFits at hnum
    unfold SetMessy
    rw [hdiv] at hnum ⊢
    obtain ⟨val, hval, hpos, -⟩ := boundDiv_excess h hm
    rintro ⟨val', u, -, hset, hmessy⟩
    have hsome := hnum val hval hpos
    rw [← (set_coeffs hset).2.2, coeffsOf_messy hmessy] at hsome
    exact nomatch hsome

/-- A numerator that does not fit is given up, and its vector is not. -/
theorem setMessy_of_not_fits {b : Wn α} (hb : branchVector stack step b = .ok v) (hnum : ¬NumeratorFits step b) :
    SetMessy stack step b ∧ v.tooMessy = false := by
  unfold NumeratorFits at hnum
  unfold SetMessy
  cases hdiv : divParts step b with
  | none =>
    rw [hdiv] at hnum
    exact absurd trivial hnum
  | some parts =>
    obtain ⟨kid0, kid1, offset⟩ := parts
    rw [hdiv] at hnum
    simp only [not_forall] at hnum
    obtain ⟨val, hval, hpos, hnone⟩ := hnum
    have h : boundDiv checked stack kid0 kid1 offset (freshDim stack) = .ok v := by
      unfold branchVector at hb
      split at hb
      · exact nomatch hdiv
      · rw [boundBranch_eq, hdiv] at hb
        exact hb
    unfold boundDiv at h
    simp only [hval, if_pos hpos] at h
    obtain ⟨u, hset, h⟩ := bind_eq_ok.mp h
    obtain ⟨u₁, -, h⟩ := bind_eq_ok.mp h
    obtain ⟨u₂, -, h⟩ := bind_eq_ok.mp h
    cases h
    refine ⟨⟨val, u, hval, hset, ?_⟩, rfl⟩
    cases hm : u.tooMessy with
    | true => rfl
    | false => exact absurd ((tooMessy_iff stack u).mp hm) ((set_coeffs hset).2.2 ▸ hnone)

/-- One branch: its vector stays too messy, and its constraint is implied, just when it fits. -/
theorem branchDim_iff {b : Wn α} (hs : NoShift b) {added : Option (Wn α × Int)}
    (h : branchDim stack step added b = .ok v) (hnum : added ≠ none → NumeratorFits step b) (env : α → Int)
    (rest : Nat → Int) (bound : Int) :
    ((SetMessy stack step b → v.tooMessy = true) ∧
      (v.tooMessy = false → ∀ x, Reaches step x bound → v.Allows stack env x)) ↔
    NumeratorFits step b ∧ (Recorded stack step added b → BranchFits stack step env rest added bound b) := by
  by_cases hfits : NumeratorFits step b
  · rw [← branchDim_recorded hfits h]
    cases hm : v.tooMessy with
    | true => exact iff_of_true ⟨fun _ => rfl, nofun⟩ ⟨hfits, nofun⟩
    | false =>
      obtain ⟨u, hu, hum⟩ := branchDim_vector h hm
      have hmessy := not_setMessy_of_fits hu hum hfits
      have hexcess : ∀ x, v.Allows stack env x ↔ branchStart stack env rest step b +
          branchSlope env rest step b * bound + addedGain stack env bound added +
          (x - bound) * (branchSlope env rest step b + addedSlope stack added) ≤ 0 := by
        intro x
        rw [allows_iff, branchDim_excess hs h hm hmessy env rest, addedGain_linear stack env x bound]
        refine iff_of_eq (congrArg (· ≤ 0) ?_)
        ring
      simp only [hexcess]
      rw [forall_reaches_iff]
      exact ⟨fun ⟨_, hx⟩ => ⟨hfits, fun _ => ⟨(hx trivial).1, (hx trivial).2⟩⟩,
        fun ⟨_, hx⟩ => ⟨fun hs => absurd hs hmessy, fun _ => ⟨(hx trivial).start, (hx trivial).slope⟩⟩⟩
  · refine iff_of_false (fun ⟨hkept, _⟩ => ?_) fun hnum => hfits hnum.1
    cases added with
    | some added => exact hfits (hnum nofun)
    | none =>
      obtain ⟨hmessy, hm⟩ := setMessy_of_not_fits h hfits
      exact Bool.false_ne_true (hm.symm.trans (hkept hmessy))

/-! ## The arithmetic of the source -/

theorem agrees_boundExp (stack : List α) (step : Int) (wn : Wn α) (v : AccessVector α) :
    AgreesUnless Fault.overflow (boundExp checked stack step wn v) (boundExp wrapped stack step wn v) :=
  (agrees_set _ _ _ _ _ _).bind fun _ => agrees_ite (agrees_refl _) <| (agrees_refl _).bind fun _ =>
    (agrees_int64 _).bind fun _ => agrees_refl _

theorem agrees_boundDiv (stack : List α) (kid0 kid1 : Wn α) (offset : Int → Int) (v : AccessVector α) :
    AgreesUnless Fault.overflow (boundDiv checked stack kid0 kid1 offset v)
      (boundDiv wrapped stack kid0 kid1 offset v) := by
  unfold boundDiv
  split
  · exact agrees_ite ((agrees_set _ _ _ _ _ _).bind fun _ => ((agrees_int64 _).bind fun _ => agrees_refl _).bind
      fun _ => agrees_refl _) (agrees_refl _)
  · exact agrees_refl _

theorem agrees_boundBranch (stack : List α) (step : Int) (b : Wn α) (v : AccessVector α) :
    AgreesUnless Fault.overflow (boundBranch checked stack step b v) (boundBranch wrapped stack step b v) := by
  rw [boundBranch_eq, boundBranch_eq]
  split
  · exact agrees_boundDiv _ _ _ _ _
  · exact agrees_boundExp _ _ _ _

omit [DecidableEq α] in
theorem agrees_modifyDim {f g : AccessVector α → Except Fault (AccessVector α)}
    (h : ∀ v, AgreesUnless Fault.overflow (f v) (g v)) (dims : List (AccessVector α)) (i : Nat) :
    AgreesUnless Fault.overflow (modifyDim dims i f) (modifyDim dims i g) := by
  unfold modifyDim
  split
  · exact (h _).bind fun _ => agrees_refl _
  · exact agrees_refl _

theorem agrees_setLBr (stack : List α) (step : Int) (wn : Wn α) (dims : List (AccessVector α)) (i : Nat) :
    AgreesUnless Fault.overflow (setLBr checked stack step wn dims i) (setLBr wrapped stack step wn dims i) := by
  have hbranch : ∀ (wn : Wn α) (dims : List (AccessVector α)) (i : Nat), AgreesUnless Fault.overflow
      (modifyDim dims i (boundBranch checked stack step wn) >>= fun dims => pure (dims, i + 1))
      (modifyDim dims i (boundBranch wrapped stack step wn) >>= fun dims => pure (dims, i + 1)) :=
    fun wn dims i => (agrees_modifyDim (agrees_boundBranch stack step wn) dims i).bind fun _ => agrees_refl _
  induction wn generalizing dims i with
  | max kid0 kid1 ih0 ih1 =>
    rw [setLBr, setLBr]
    exact agrees_ite ((ih0 dims i).bind fun r => ih1 r.1 r.2) (hbranch _ dims i)
  | min kid0 kid1 ih0 ih1 =>
    rw [setLBr, setLBr]
    exact agrees_ite ((ih0 dims i).bind fun r => ih1 r.1 r.2) (hbranch _ dims i)
  | intrinsicOp intr kid0 kid1 =>
    cases intr with
    | rest id =>
      rw [setLBr, setLBr]
      exact agrees_ite (agrees_refl _) (hbranch _ dims i)
    | _ => exact hbranch _ dims i
  | _ => exact hbranch _ dims i

theorem agrees_addToDims (stack : List α) (wn : Wn α) (sign : Int) (dims : List (AccessVector α)) :
    AgreesUnless Fault.overflow (addToDims checked stack wn sign dims) (addToDims wrapped stack wn sign dims) :=
  (agrees_mapM (agrees_addSum stack false wn sign) _).bind fun _ => agrees_refl _

theorem agrees_buildLB (stack : List α) (wn : Wn α) (step : Int) :
    AgreesUnless Fault.overflow (buildLB checked stack wn step) (buildLB wrapped stack wn step) := by
  refine agrees_ite ((agrees_setLBr _ _ _ _ _).bind fun _ => agrees_refl _) ?_
  split
  · exact (agrees_setLBr _ _ _ _ _).bind fun _ => agrees_addToDims _ _ _ _
  · exact agrees_ite ((agrees_setLBr _ _ _ _ _).bind fun _ => agrees_addToDims _ _ _ _)
      ((agrees_setLBr _ _ _ _ _).bind fun _ => agrees_addToDims _ _ _ _)
  · exact agrees_refl _

/-! ## Lower bounds -/

/-- The constraints of a lower bound are right just when it fits. -/
theorem setLB_implied_iff (stack : List α) {wn : Wn α} (hs : NoShift wn) {step : Int} (hstep : step ≠ 0)
    (hfits : buildLB checked stack wn step ≠ .error .overflow) {dims : List (AccessVector α)}
    (h : buildLB wrapped stack wn step = .ok dims)
    (hnum : lowerAdded step wn ≠ none → ∀ b ∈ branches step (lowerTree step wn), NumeratorFits step b)
    (env : α → Int) (rest : Nat → Int) :
    LowerImplied stack wn step env rest dims ↔ LowerFits stack wn step env rest := by
  rw [agrees_buildLB _ _ _ hfits] at h
  have hbranch : ∀ b ∈ branches step (lowerTree step wn), NoShift b := noShift_branches (noShift_lowerTree hs)
  have hdims : ¬CountsMaxs step wn → numLowerBounds wn step < 2 ^ 16 → List.Forall₂ (fun b v =>
      ((SetMessy stack step b → v.tooMessy = true) ∧
        (v.tooMessy = false → ∀ x, Reaches step x (wn.value env rest) → v.Allows stack env x)) ↔
      NumeratorFits step b ∧ (Recorded stack step (lowerAdded step wn) b →
        BranchFits stack step env rest (lowerAdded step wn) (wn.value env rest) b))
      (branches step (lowerTree step wn)) dims := by
    intro hcounts hsize
    have hall := buildLB_dims h ((numLowerBounds_eq_iff hstep wn).mpr hcounts) hsize
    refine List.forall₂_iff_get.mpr ⟨hall.length_eq, fun j hj hj' => ?_⟩
    have hb := List.get_mem (branches step (lowerTree step wn)) ⟨j, hj⟩
    exact branchDim_iff (hbranch _ hb) ((List.forall₂_iff_get.mp hall).2 j hj hj') (fun hne => hnum hne _ hb) env rest _
  refine ⟨fun hl => ?_, fun hf => ?_⟩
  · obtain ⟨hcount, hsize⟩ := hl.counted
    have hcounts := (numLowerBounds_eq_iff hstep wn).mp hcount
    have hsize' : numLowerBounds wn step < 2 ^ 16 := by omega
    have hall := hdims hcounts hsize'
    have hright : ∀ b ∈ branches step (lowerTree step wn), NumeratorFits step b ∧
        (Recorded stack step (lowerAdded step wn) b →
          BranchFits stack step env rest (lowerAdded step wn) (wn.value env rest) b) := by
      intro b hb
      obtain ⟨j, hj, rfl⟩ := List.getElem_of_mem hb
      have hj' : j < dims.length := hall.length_eq ▸ hj
      exact ((List.forall₂_iff_get.mp hall).2 j hj hj').mp
        ⟨(List.forall₂_iff_get.mp hl.kept).2 j hj hj', hl.implied _ (List.getElem_mem hj')⟩
    exact ⟨hcounts, hsize', fun b hb => (hright b hb).1, fun b hb => (hright b hb).2⟩
  · have hall := hdims hf.counted hf.size
    have hright : ∀ j hj hj', (SetMessy stack step ((branches step (lowerTree step wn)).get ⟨j, hj⟩) →
        (dims.get ⟨j, hj'⟩).tooMessy = true) ∧ ((dims.get ⟨j, hj'⟩).tooMessy = false →
          ∀ x, Reaches step x (wn.value env rest) → (dims.get ⟨j, hj'⟩).Allows stack env x) := by
      intro j hj hj'
      have hb := List.get_mem (branches step (lowerTree step wn)) ⟨j, hj⟩
      exact ((List.forall₂_iff_get.mp hall).2 j hj hj').mpr ⟨hf.numerator _ hb, hf.branch _ hb⟩
    refine ⟨⟨(numLowerBounds_eq_iff hstep wn).mpr hf.counted, Nat.mod_eq_of_lt hf.size⟩, ?_, fun v hv => ?_⟩
    · exact List.forall₂_iff_get.mpr ⟨hall.length_eq, fun j hj hj' => (hright j hj hj').1⟩
    · obtain ⟨j, hj', rfl⟩ := List.getElem_of_mem hv
      exact (hright j (hall.length_eq ▸ hj') hj').2

/-- `MAX(n, m) + 3` at `n = 5` and `m = 7`: the constraints `n - i <= 3` and `m - i <= 3` hold from 10 on. -/
theorem setLB_implied_sum : ∃ dims : List (AccessVector Nat),
    buildLB wrapped [0] (.add (.max (.ldid 1 false) (.ldid 2 false)) (.intconst 3)) 1 = .ok dims ∧ dims.length = 2 ∧
      ∀ v ∈ dims, v.tooMessy = false ∧
        ∀ x, 10 ≤ x → v.Allows [0] (fun symbol => if symbol = 1 then 5 else 7) x := by
  have hbuild : buildLB wrapped [0] (.add (.max (.ldid 1 false) (.ldid 2 false)) (.intconst 3)) 1 =
      .ok ([⟨false, 1, some [-1], some [⟨1, 1⟩], none, 3⟩, ⟨false, 1, some [-1], some [⟨2, 1⟩], none, 3⟩] :
        List (AccessVector Nat)) := by
    decide
  have hfits : LowerFits [0] (.add (.max (.ldid 1 false) (.ldid 2 false)) (.intconst 3)) 1
      (fun symbol : Nat => if symbol = 1 then 5 else 7) (fun _ => 0) := by
    have hb : ∀ b ∈ branches 1 (lowerTree 1 (.add (.max (.ldid 1 false) (.ldid 2 false)) (.intconst 3))),
        b = Wn.ldid 1 false ∨ b = Wn.ldid 2 false := by
      intro b hb
      rcases List.mem_cons.mp hb with hn | hm
      · exact Or.inl hn
      · exact Or.inr (List.mem_singleton.mp hm)
    refine ⟨by simp [CountsMaxs], by decide, fun b hmem => ?_, fun b hmem _ => ?_⟩
    · rcases hb b hmem with rfl | rfl
      · exact trivial
      · exact trivial
    · rcases hb b hmem with rfl | rfl
      · exact ⟨by decide, by decide +kernel⟩
      · exact ⟨by decide, by decide +kernel⟩
  have himplied := (@setLB_implied_iff Nat _ [0] (.add (.max (.ldid 1 false) (.ldid 2 false)) (.intconst 3))
    (by simp [NoShift]) 1 (by decide) (by decide) _ hbuild (fun _ => hfits.numerator)
    (fun symbol => if symbol = 1 then 5 else 7) (fun _ => 0)).mpr hfits
  refine ⟨_, hbuild, rfl, fun v hv => ?_⟩
  have hm : v.tooMessy = false := by
    rcases List.mem_cons.mp hv with rfl | hv
    · rfl
    · rw [List.mem_singleton.mp hv]
  exact ⟨hm, fun x hx => himplied.implied v hv hm x hx⟩

/-- `MAX(n, m) - 1` at `n = m = 5` is 4, but the constraint of `n` is `n - i <= -1`. -/
theorem setLB_shifts_constant : ∃ (dims : List (AccessVector Nat)) (v : AccessVector Nat),
    buildLB wrapped [0] (.sub (.max (.ldid 1 false) (.ldid 2 false)) (.intconst 1)) 1 = .ok dims ∧ v ∈ dims ∧
      v.tooMessy = false ∧
      Reaches 1 4 ((Wn.sub (.max (.ldid 1 false) (.ldid 2 false)) (.intconst 1)).value (fun _ => 5) fun _ => 0) ∧
      ¬v.Allows [0] (fun _ => 5) 4 := by
  have hbuild : buildLB wrapped [0] (.sub (.max (.ldid 1 false) (.ldid 2 false)) (.intconst 1)) 1 =
      .ok ([⟨false, 1, some [-1], some [⟨1, 1⟩], none, -1⟩, ⟨false, 1, some [-1], some [⟨2, 1⟩], none, -1⟩] :
        List (AccessVector Nat)) := by
    decide
  refine ⟨_, _, hbuild, List.mem_cons_self, rfl, ?_, ?_⟩
  · unfold Reaches
    decide
  · unfold AccessVector.Allows
    decide

end Path64.Access

import Path64.Access.Exact
import Path64.Soe.Gcds

/-!
# The gcd test

`Simple_Gcd_Indep` (`dep.cxx`) calls two subscripts independent when the greatest common divisor of all their coefficients does not
divide the difference of their constants. The difference is formed in 64 bits, and what `abs` makes of it depends on the overload
that is declared: the one of `int` drops the upper half.

* `simpleGcdIndep` : the source; `scanCoeffs` : the loop it repeats for loops and symbols of both vectors;
* `AccessVector.at` : a subscript at an iteration vector; `meet_iff` : when two subscripts can be equal;
* `AbsOverload.lost` : what of the difference `abs` does not see; `simpleGcdIndep_sound_iff` : when an answer of independence is
  right.
-/

namespace Path64.Dep

open Access Soe Lib

variable {α : Type}

/-! ## The source -/

/-- The `abs` that an `INT64` is passed to. -/
inductive AbsOverload where
  | int
  | int64
deriving DecidableEq, Repr

def AbsOverload.abs : AbsOverload → Int → Int
  | .int, x => abs32 (wrap32 x)
  | .int64, x => abs64 x

/-- `Contains_Non_Lin_Symb`. -/
def containsNonLinSymb (av : AccessVector α) : Bool := !(av.nonLinSymb.getD []).isEmpty

/-- The divisor with one more coefficient. -/
def nextGcd : Option Int → Int → Int
  | none, coeff => coeff
  | some gcd, coeff => gcd32 gcd coeff

/-- The loop over some coefficients, with the divisor so far (`none` before the first that is not zero); no result when a
coefficient is one. -/
def scanCoeffs : List Int → Option Int → Option (Option Int)
  | [], gcd => some gcd
  | a :: rest, gcd =>
    let coeff := abs32 a
    if coeff ≠ 0 then
      if coeff = 1 then none else scanCoeffs rest (some (nextGcd gcd coeff))
    else scanCoeffs rest gcd

/-- The coefficients of the induction variables. -/
def loopCoeffs (av : AccessVector α) : List Int :=
  if av.lcoeff.isSome then (List.range av.nestDepth).map av.loopCoeff else []

/-- The coefficients of the symbols. -/
def symbCoeffs (av : AccessVector α) : List Int := (av.linSymb.getD []).map (·.coeff)

/-- `c`. -/
def constDifference (abs : AbsOverload) (av1 av2 : AccessVector α) : Int := abs.abs (wrap64 (av2.constOffset - av1.constOffset))

/-- `Simple_Gcd_Indep`. -/
def simpleGcdIndep (abs : AbsOverload) (av1 av2 : AccessVector α) : Bool :=
  if av1.tooMessy || av2.tooMessy || containsNonLinSymb av1 || containsNonLinSymb av2 then false
  else
    let c := constDifference abs av1 av2
    if c = 0 then false
    else
      match scanCoeffs (loopCoeffs av1) none >>= scanCoeffs (loopCoeffs av2) >>= scanCoeffs (symbCoeffs av1) >>=
        scanCoeffs (symbCoeffs av2) with
      | none => false
      | some none => true
      | some (some gcd) => decide (c.tmod gcd ≠ 0)

/-! ## The scan -/

/-- All coefficients, in the order of the scan. -/
def allCoeffs (av1 av2 : AccessVector α) : List Int :=
  ((loopCoeffs av1 ++ loopCoeffs av2) ++ symbCoeffs av1) ++ symbCoeffs av2

theorem scanCoeffs_append (l l' : List Int) (gcd : Option Int) :
    scanCoeffs (l ++ l') gcd = scanCoeffs l gcd >>= scanCoeffs l' := by
  induction l generalizing gcd with
  | nil => cases gcd <;> rfl
  | cons a rest ih =>
    rw [List.cons_append, scanCoeffs, scanCoeffs]
    split_ifs
    · rfl
    · exact ih _
    · exact ih _

/-- What the scan has when it has met the coefficients of `seen`. -/
structure Scanned (seen : List Int) (gcd : Option Int) : Prop where
  zero : gcd = none → ∀ a ∈ seen, a = 0
  divisor : ∀ g, gcd = some g → InInt32 g ∧ g ≠ 0 ∧ ∀ d : Int, d ∣ g ↔ ∀ a ∈ seen, d ∣ a

theorem abs32_eq_one {a : Int} (ha : InInt32 a) : abs32 a = 1 ↔ a.natAbs = 1 := by
  have hnat := natAbs_abs32 ha
  constructor
  · intro h
    rw [← hnat, h]
    rfl
  · intro h
    obtain ⟨h1, h2⟩ := ha
    rw [abs32_nonneg ⟨h1, h2⟩ (by omega), Int.abs_eq_natAbs, h]
    rfl

theorem abs32_ne_zero {a : Int} (ha : InInt32 a) : abs32 a ≠ 0 ↔ a ≠ 0 := by
  have hnat := natAbs_abs32 ha
  omega

/-- The scan stops at a unit, and else folds the divisor of the coefficients. -/
theorem scanCoeffs_spec {l : List Int} (hl : ∀ a ∈ l, InInt32 a) : ∀ {seen : List Int} {gcd : Option Int}, Scanned seen gcd →
    (scanCoeffs l gcd = none ↔ ∃ a ∈ l, a.natAbs = 1) ∧ ∀ r, scanCoeffs l gcd = some r → Scanned (seen ++ l) r := by
  induction l with
  | nil =>
    intro seen gcd h
    refine ⟨iff_of_false nofun fun ⟨a, ha, _⟩ => List.not_mem_nil ha, fun r hr => ?_⟩
    cases hr
    rwa [List.append_nil]
  | cons a rest ih =>
    rw [List.forall_mem_cons] at hl
    intro seen gcd h
    rw [scanCoeffs]
    have hcons : ∀ gcd', Scanned (seen ++ [a]) gcd' → a.natAbs ≠ 1 →
        (scanCoeffs rest gcd' = none ↔ ∃ b ∈ a :: rest, b.natAbs = 1) ∧
          ∀ r, scanCoeffs rest gcd' = some r → Scanned (seen ++ a :: rest) r := by
      intro gcd' h' hunit
      obtain ⟨hnone, hsome⟩ := ih hl.2 h'
      rw [List.append_assoc, List.singleton_append] at hsome
      refine ⟨hnone.trans ?_, hsome⟩
      simp only [List.mem_cons, exists_eq_or_imp, hunit, false_or]
    split_ifs with hzero hunit
    · refine ⟨iff_of_true rfl ⟨a, List.mem_cons_self, (abs32_eq_one hl.1).1 hunit⟩, nofun⟩
    · have hne := (abs32_ne_zero hl.1).1 hzero
      have hunit' : a.natAbs ≠ 1 := fun h => hunit ((abs32_eq_one hl.1).2 h)
      cases gcd with
      | none =>
        refine hcons (some (nextGcd none (abs32 a))) ⟨nofun, fun g hg => ?_⟩ hunit'
        cases hg
        refine ⟨inInt32_abs32 a, hzero, fun d => ?_⟩
        rw [nextGcd, dvd_abs32 hl.1, List.forall_mem_append, List.forall_mem_singleton]
        exact (and_iff_right fun b hb => by rw [h.zero rfl b hb]; exact dvd_zero d).symm
      | some g =>
        obtain ⟨hg, hg0, hdvd⟩ := h.divisor g rfl
        refine hcons _ ⟨nofun, fun g' hg' => ?_⟩ hunit'
        cases hg'
        refine ⟨inInt32_gcd32 _ _, fun h0 => hg0 ?_, fun d => ?_⟩
        · exact zero_dvd_iff.1 ((dvd_gcd32 hg (inInt32_abs32 a) 0).1 (h0 ▸ dvd_rfl)).1
        · rw [nextGcd, dvd_gcd32 hg (inInt32_abs32 a), dvd_abs32 hl.1, hdvd, List.forall_mem_append, List.forall_mem_singleton]
    · have ha : a = 0 := not_not.1 (mt (abs32_ne_zero hl.1).2 hzero)
      refine hcons gcd ⟨fun hnone b hb => ?_, fun g hg => ?_⟩ (by rw [ha]; decide)
      · rcases List.mem_append.1 hb with hb | hb
        · exact h.zero hnone b hb
        · rw [List.mem_singleton.1 hb]
          exact ha
      · obtain ⟨hg, hg0, hdvd⟩ := h.divisor g hg
        refine ⟨hg, hg0, fun d => ?_⟩
        rw [hdvd, List.forall_mem_append, List.forall_mem_singleton, ha]
        exact (and_iff_left (dvd_zero d)).symm

/-! ## Subscripts -/

/-- The part of a subscript that depends on the iteration and the symbols. -/
def linearPart (av : AccessVector α) (x : Nat → Int) (env : α → Int) : Int :=
  ∑ i ∈ Finset.range av.nestDepth, av.loopCoeff i * x i + linValue env (av.linSymb.getD [])

/-- A subscript without products of symbols, in iteration `x`. -/
def subscriptAt (av : AccessVector α) (x : Nat → Int) (env : α → Int) : Int := av.constOffset + linearPart av x env

theorem linValue_add (l : List (IntsymbNode α)) (env env' : α → Int) :
    linValue (fun s => env s + env' s) l = linValue env l + linValue env' l := by
  induction l with
  | nil => rfl
  | cons node l ih =>
    rw [linValue_cons, linValue_cons, linValue_cons, ih]
    ring

theorem linearPart_add (av : AccessVector α) (x x' : Nat → Int) (env env' : α → Int) :
    linearPart av (fun i => x i + x' i) (fun s => env s + env' s) = linearPart av x env + linearPart av x' env' := by
  have hsum : ∑ i ∈ Finset.range av.nestDepth, av.loopCoeff i * (x i + x' i) =
      ∑ i ∈ Finset.range av.nestDepth, av.loopCoeff i * x i + ∑ i ∈ Finset.range av.nestDepth, av.loopCoeff i * x' i := by
    rw [← Finset.sum_add_distrib]
    exact Finset.sum_congr rfl fun i _ => mul_add _ _ _
  rw [linearPart, linearPart, linearPart, linValue_add, hsum]
  ring

theorem linearPart_single (av : AccessVector α) {i : Nat} (hi : i < av.nestDepth) :
    linearPart av (fun j => if j = i then 1 else 0) (fun _ => 0) = av.loopCoeff i := by
  have hsymbols : linValue (fun _ => 0) (av.linSymb.getD []) = 0 := by simp [linValue]
  rw [linearPart, hsymbols, add_zero]
  simp only [mul_ite, mul_one, mul_zero, Finset.sum_ite_eq', Finset.mem_range, hi, if_true]

theorem linearPart_zero (av : AccessVector α) (env : α → Int) :
    linearPart av (fun _ => 0) env = linValue env (av.linSymb.getD []) := by
  simp [linearPart]

variable [DecidableEq α]

/-- The coefficient of a symbol, summed over the list. -/
def symbCoeff (av : AccessVector α) (symbol : α) : Int := linValue (fun s => if s = symbol then 1 else 0) (av.linSymb.getD [])

/-- `d` divides all coefficients of the equation: the loops of both subscripts have their own iterations, the symbols are
shared. -/
structure DividesEquation (av1 av2 : AccessVector α) (d : Int) : Prop where
  loops1 : ∀ i < av1.nestDepth, d ∣ av1.loopCoeff i
  loops2 : ∀ i < av2.nestDepth, d ∣ av2.loopCoeff i
  symbols : ∀ symbol, d ∣ symbCoeff av1 symbol - symbCoeff av2 symbol

theorem linValue_eq_sum (l : List (IntsymbNode α)) (env : α → Int) {symbols : Finset α} (h : ∀ node ∈ l, node.symbol ∈ symbols) :
    linValue env l = ∑ s ∈ symbols, linValue (fun t => if t = s then 1 else 0) l * env s := by
  induction l with
  | nil => simp [linValue]
  | cons node l ih =>
    rw [List.forall_mem_cons] at h
    have hnode : ∑ s ∈ symbols, node.coeff * (if node.symbol = s then 1 else 0) * env s = node.coeff * env node.symbol := by
      simp only [mul_ite, mul_one, mul_zero, ite_mul, zero_mul, Finset.sum_ite_eq, h.1, if_true]
    rw [linValue_cons, ih h.2, ← hnode, ← Finset.sum_add_distrib]
    refine Finset.sum_congr rfl fun s _ => ?_
    rw [linValue_cons]
    ring

theorem DividesEquation.dvd {av1 av2 : AccessVector α} {d : Int} (h : DividesEquation av1 av2 d) (x y : Nat → Int) (env : α → Int) :
    d ∣ linearPart av1 x env - linearPart av2 y env := by
  have hloops : ∀ (av : AccessVector α) (z : Nat → Int), (∀ i < av.nestDepth, d ∣ av.loopCoeff i) →
      d ∣ ∑ i ∈ Finset.range av.nestDepth, av.loopCoeff i * z i :=
    fun av z hav => Finset.dvd_sum fun i hi => (hav i (Finset.mem_range.1 hi)).mul_right _
  have hsymbols : d ∣ linValue env (av1.linSymb.getD []) - linValue env (av2.linSymb.getD []) := by
    have hmem : ∀ node ∈ av1.linSymb.getD [] ++ av2.linSymb.getD [],
        node.symbol ∈ ((av1.linSymb.getD [] ++ av2.linSymb.getD []).map (·.symbol)).toFinset :=
      fun node hnode => List.mem_toFinset.2 (List.mem_map_of_mem hnode)
    rw [linValue_eq_sum _ env fun node hnode => hmem node (List.mem_append_left _ hnode),
      linValue_eq_sum _ env fun node hnode => hmem node (List.mem_append_right _ hnode), ← Finset.sum_sub_distrib]
    refine Finset.dvd_sum fun s _ => ?_
    rw [← sub_mul]
    exact (h.symbols s).mul_right _
  have hsplit : linearPart av1 x env - linearPart av2 y env = ∑ i ∈ Finset.range av1.nestDepth, av1.loopCoeff i * x i -
      ∑ i ∈ Finset.range av2.nestDepth, av2.loopCoeff i * y i +
        (linValue env (av1.linSymb.getD []) - linValue env (av2.linSymb.getD [])) := by
    rw [linearPart, linearPart]
    ring
  rw [hsplit]
  exact ((hloops av1 x h.loops1).sub (hloops av2 y h.loops2)).add hsymbols

/-- The differences of the two subscripts' linear parts, as an additive map. -/
def equationHom (av1 av2 : AccessVector α) : (Nat → Int) × (Nat → Int) × (α → Int) →+ Int :=
  AddMonoidHom.mk' (fun z => linearPart av1 z.1 z.2.2 - linearPart av2 z.2.1 z.2.2) fun z z' => by
    show linearPart av1 (fun i => z.1 i + z'.1 i) (fun s => z.2.2 s + z'.2.2 s) -
      linearPart av2 (fun i => z.2.1 i + z'.2.1 i) (fun s => z.2.2 s + z'.2.2 s) = _
    rw [linearPart_add, linearPart_add]
    ring

/-- Two subscripts can be equal just when the difference of their constants has all divisors of the equation. -/
theorem meet_iff (av1 av2 : AccessVector α) : (∃ x y env, subscriptAt av1 x env = subscriptAt av2 y env) ↔
    ∀ d, DividesEquation av1 av2 d → d ∣ av2.constOffset - av1.constOffset := by
  constructor
  · rintro ⟨x, y, env, heq⟩ d hd
    have hdiff : av2.constOffset - av1.constOffset = linearPart av1 x env - linearPart av2 y env := by
      rw [subscriptAt, subscriptAt] at heq
      linarith
    rw [hdiff]
    exact hd.dvd x y env
  · intro h
    obtain ⟨g, hg⟩ := Int.subgroup_cyclic (equationHom av1 av2).range
    have hmem : ∀ n, n ∈ (equationHom av1 av2).range ↔ g ∣ n := by
      intro n
      rw [hg, AddSubgroup.mem_closure_singleton]
      exact exists_congr fun k => by rw [smul_eq_mul, mul_comm, eq_comm]
    have hzero : ∀ av : AccessVector α, linearPart av (fun _ => 0) (fun _ => 0) = 0 := by
      intro av
      rw [linearPart_zero]
      simp [linValue]
    -- each coefficient is a value, and so a multiple of the generator
    have hdvd : DividesEquation av1 av2 g := by
      refine ⟨fun i hi => ?_, fun i hi => ?_, fun s => ?_⟩
      · refine (hmem _).1 ⟨(fun j => if j = i then 1 else 0, fun _ => 0, fun _ => 0), ?_⟩
        show linearPart av1 _ _ - linearPart av2 _ _ = _
        rw [linearPart_single av1 hi, hzero, sub_zero]
      · refine dvd_neg.1 ((hmem _).1 ⟨(fun _ => 0, fun j => if j = i then 1 else 0, fun _ => 0), ?_⟩)
        show linearPart av1 _ _ - linearPart av2 _ _ = _
        rw [linearPart_single av2 hi, hzero, zero_sub]
      · refine (hmem _).1 ⟨(fun _ => 0, fun _ => 0, fun t => if t = s then 1 else 0), ?_⟩
        show linearPart av1 _ _ - linearPart av2 _ _ = _
        rw [linearPart_zero, linearPart_zero, symbCoeff, symbCoeff]
    obtain ⟨⟨x, y, env⟩, hvalue⟩ := (hmem _).2 (h g hdvd)
    refine ⟨x, y, env, ?_⟩
    have hvalue : linearPart av1 x env - linearPart av2 y env = av2.constOffset - av1.constOffset := hvalue
    rw [subscriptAt, subscriptAt]
    linarith

/-! ## The answer -/

/-- The test is made: neither vector is out of its reach, the constants seem to differ, and no coefficient is `1` or `-1`. -/
structure Tested (abs : AbsOverload) (av1 av2 : AccessVector α) : Prop where
  messy : av1.tooMessy = false ∧ av2.tooMessy = false
  nonLin : containsNonLinSymb av1 = false ∧ containsNonLinSymb av2 = false
  const : constDifference abs av1 av2 ≠ 0
  unit : ¬ ∃ a ∈ allCoeffs av1 av2, a.natAbs = 1

omit [DecidableEq α] in
/-- The answer is yes just when the test is made, and some divisor of all coefficients does not divide the constant. -/
theorem simpleGcdIndep_iff (abs : AbsOverload) (av1 av2 : AccessVector α) (hfit : ∀ a ∈ allCoeffs av1 av2, InInt32 a) :
    simpleGcdIndep abs av1 av2 = true ↔
      Tested abs av1 av2 ∧ ¬ ∀ d, (∀ a ∈ allCoeffs av1 av2, d ∣ a) → d ∣ constDifference abs av1 av2 := by
  have hscan : scanCoeffs (allCoeffs av1 av2) none = scanCoeffs (loopCoeffs av1) none >>= scanCoeffs (loopCoeffs av2) >>=
      scanCoeffs (symbCoeffs av1) >>= scanCoeffs (symbCoeffs av2) := by
    rw [allCoeffs, scanCoeffs_append, scanCoeffs_append, scanCoeffs_append]
  obtain ⟨hnone, hsome⟩ := @scanCoeffs_spec _ hfit [] none ⟨fun _ a ha => absurd ha List.not_mem_nil, nofun⟩
  rw [simpleGcdIndep, ← hscan]
  by_cases hmessy : (av1.tooMessy || av2.tooMessy || containsNonLinSymb av1 || containsNonLinSymb av2) = true
  · rw [if_pos hmessy]
    refine iff_of_false Bool.false_ne_true fun h => ?_
    simp [h.1.messy.1, h.1.messy.2, h.1.nonLin.1, h.1.nonLin.2] at hmessy
  by_cases hconst : constDifference abs av1 av2 = 0
  · rw [if_neg hmessy, if_pos hconst]
    exact iff_of_false Bool.false_ne_true fun h => h.1.const hconst
  · rw [if_neg hmessy, if_neg hconst]
    simp only [Bool.or_eq_true, not_or, Bool.not_eq_true] at hmessy
    obtain ⟨⟨⟨hmessy1, hmessy2⟩, hnon1⟩, hnon2⟩ := hmessy
    generalize scanCoeffs (allCoeffs av1 av2) none = r at hnone hsome
    have htested : ∀ {r'}, r = some r' → Tested abs av1 av2 := by
      rintro r' rfl
      exact ⟨⟨hmessy1, hmessy2⟩, ⟨hnon1, hnon2⟩, hconst, fun h => absurd (hnone.2 h) nofun⟩
    match r with
    | none => exact iff_of_false Bool.false_ne_true fun h => h.1.unit (hnone.1 rfl)
    | some none =>
      -- all coefficients are zero
      have hzero := (hsome none rfl).zero rfl
      refine iff_of_true rfl ⟨htested rfl, fun h => hconst (zero_dvd_iff.1 (h 0 fun a ha => ?_))⟩
      rw [hzero a ha]
    | some (some g) =>
      obtain ⟨-, -, hdvd⟩ := (hsome _ rfl).divisor g rfl
      rw [decide_eq_true_iff, ne_eq, ← Int.dvd_iff_tmod_eq_zero, and_iff_right (htested rfl)]
      refine not_congr ⟨fun hg d hd => ((hdvd d).2 hd).trans hg, fun h => h g ((hdvd g).1 dvd_rfl)⟩

/-- Neither vector is out of reach of the test. -/
structure InReach (av1 av2 : AccessVector α) : Prop where
  messy : av1.tooMessy = false ∧ av2.tooMessy = false
  nonLin : containsNonLinSymb av1 = false ∧ containsNonLinSymb av2 = false

/-- What divides all coefficients divides those of the equation. -/
theorem dividesEquation_of_all {av1 av2 : AccessVector α} {d : Int} (h : ∀ a ∈ allCoeffs av1 av2, d ∣ a) :
    DividesEquation av1 av2 d := by
  simp only [allCoeffs, List.forall_mem_append, and_assoc] at h
  obtain ⟨h1, h2, hs1, hs2⟩ := h
  have hloops : ∀ av : AccessVector α, (∀ a ∈ loopCoeffs av, d ∣ a) → ∀ i < av.nestDepth, d ∣ av.loopCoeff i := by
    intro av hav i hi
    cases hcoeffs : av.lcoeff with
    | none =>
      rw [AccessVector.loopCoeff, hcoeffs]
      exact dvd_zero d
    | some c =>
      refine hav _ ?_
      rw [loopCoeffs, hcoeffs]
      exact List.mem_map_of_mem (List.mem_range.2 hi)
  have hsymbols : ∀ av : AccessVector α, (∀ a ∈ symbCoeffs av, d ∣ a) → ∀ s, d ∣ symbCoeff av s := by
    intro av hav s
    refine List.dvd_sum fun term hterm => ?_
    obtain ⟨node, hnode, rfl⟩ := List.mem_map.1 hterm
    exact (hav _ (List.mem_map_of_mem hnode)).mul_right _
  exact ⟨hloops av1 h1, hloops av2 h2, fun s => dvd_sub (hsymbols av1 hs1 s) (hsymbols av2 hs2 s)⟩

/-- What of a difference is lost in the type that `abs` takes, a multiple of `2 ^ 32` or `2 ^ 64`. -/
def AbsOverload.lost : AbsOverload → Int → Int
  | .int, x => x - wrap32 x
  | .int64, x => x - wrap64 x

omit [DecidableEq α] in
/-- Divisors of the exact difference divide the constant just when they divide what is lost. -/
theorem dvd_constDifference (abs : AbsOverload) (av1 av2 : AccessVector α) {d : Int} (h : d ∣ av2.constOffset - av1.constOffset) :
    d ∣ constDifference abs av1 av2 ↔ d ∣ abs.lost (av2.constOffset - av1.constOffset) := by
  rw [constDifference]
  cases abs with
  | int =>
    have hwrap : wrap32 (wrap64 (av2.constOffset - av1.constOffset)) = wrap32 (av2.constOffset - av1.constOffset) := by
      rw [wrap32, wrap64, wrap32, Int.bmod_bmod_of_dvd (by decide)]
    rw [AbsOverload.abs, AbsOverload.lost, hwrap, dvd_abs32 (inInt32_wrap32 _), dvd_sub_right h]
  | int64 =>
    rw [AbsOverload.abs, AbsOverload.lost, ← Int.dvd_natAbs, natAbs_abs64 (inInt64_wrap64 _), Int.dvd_natAbs, dvd_sub_right h]

/-- For coefficients of 32 bits, an answer of independence is right (no two iterations and no symbols make the subscripts equal)
just when a vector is out of reach, or something that divides the coefficients of the equation does not divide the exact difference
of the constants, or what is lost of the difference has every common divisor of the coefficients. -/
theorem simpleGcdIndep_sound_iff (abs : AbsOverload) (av1 av2 : AccessVector α) (hfit : ∀ a ∈ allCoeffs av1 av2, InInt32 a) :
    (simpleGcdIndep abs av1 av2 = true → ∀ x y env, subscriptAt av1 x env ≠ subscriptAt av2 y env) ↔
      ¬ InReach av1 av2 ∨ (∃ d, DividesEquation av1 av2 d ∧ ¬ d ∣ av2.constOffset - av1.constOffset) ∨
        ∀ d, (∀ a ∈ allCoeffs av1 av2, d ∣ a) → d ∣ abs.lost (av2.constOffset - av1.constOffset) := by
  rw [simpleGcdIndep_iff abs av1 av2 hfit]
  have hmeet := meet_iff av1 av2
  -- all coefficients make up those of the equation
  have hdvd : (∀ d, DividesEquation av1 av2 d → d ∣ av2.constOffset - av1.constOffset) →
      ∀ d, (∀ a ∈ allCoeffs av1 av2, d ∣ a) → (d ∣ constDifference abs av1 av2 ↔
        d ∣ abs.lost (av2.constOffset - av1.constOffset)) :=
    fun h d hd => dvd_constDifference abs av1 av2 (h d (dividesEquation_of_all hd))
  constructor
  · intro h
    by_contra hnot
    push Not at hnot
    obtain ⟨hreach, hequation, d, hd, hlost⟩ := hnot
    have hconst : ¬ d ∣ constDifference abs av1 av2 := fun hc => hlost ((hdvd hequation d hd).1 hc)
    have htested : Tested abs av1 av2 := by
      refine ⟨hreach.messy, hreach.nonLin, fun h0 => hconst (h0 ▸ dvd_zero d), fun ⟨a, ha, hunit⟩ => hconst ?_⟩
      exact (hd a ha).trans (Int.isUnit_iff_natAbs_eq.2 hunit).dvd
    obtain ⟨x, y, env, heq⟩ := hmeet.2 hequation
    exact h ⟨htested, fun hall => hconst (hall d hd)⟩ x y env heq
  · rintro h ⟨htested, hfails⟩ x y env heq
    have hequation := hmeet.1 ⟨x, y, env, heq⟩
    rcases h with h | ⟨d, hd, hnot⟩ | h
    · exact h ⟨htested.messy, htested.nonLin⟩
    · exact hnot (hequation d hd)
    · exact hfails fun d hd => (hdvd hequation d hd).2 (h d hd)

/-- A subscript of one loop. -/
def oneLoop (coeff const : Int) : AccessVector Nat := ⟨false, 1, some [coeff], none, none, const⟩

/-- `4i` and `4i + 2`. -/
theorem simpleGcdIndep_sound_even :
    ¬ ∃ x y env, subscriptAt (oneLoop 4 0) x env = subscriptAt (oneLoop 4 2) y env := by
  rintro ⟨x, y, env, heq⟩
  exact (simpleGcdIndep_sound_iff .int (oneLoop 4 0) (oneLoop 4 2) (by decide)).2
    (.inr (.inr fun d _ => (by decide : (0 : Int) = AbsOverload.lost .int 2) ▸ dvd_zero d)) (by decide) x y env heq

/-- `3i - 3 * 2^61 - 3 * 2^30` and `3i + 3 * 2^61`: the difference of the constants wraps, with either `abs`, to a number that
`3` does not divide. -/
theorem simpleGcdIndep_wraps :
    (simpleGcdIndep .int (oneLoop 3 (-(3 * 2 ^ 61) - 3 * 2 ^ 30)) (oneLoop 3 (3 * 2 ^ 61)) = true ∧
      simpleGcdIndep .int64 (oneLoop 3 (-(3 * 2 ^ 61) - 3 * 2 ^ 30)) (oneLoop 3 (3 * 2 ^ 61)) = true) ∧
    InInt64 (-(3 * 2 ^ 61) - 3 * 2 ^ 30) ∧ InInt64 (3 * 2 ^ 61) ∧
    ∃ x y env, subscriptAt (oneLoop 3 (-(3 * 2 ^ 61) - 3 * 2 ^ 30)) x env = subscriptAt (oneLoop 3 (3 * 2 ^ 61)) y env := by
  refine ⟨⟨by decide, by decide⟩, by decide, by decide, fun _ => 2 ^ 62 + 2 ^ 30, fun _ => 0, fun _ => 0, by decide⟩

end Path64.Dep

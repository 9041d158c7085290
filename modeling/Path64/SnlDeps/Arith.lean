import Path64.Lib.Wrap
import Path64.Lu.Basic
import Path64.SnlDeps.Basic

/-!
# Dependence arithmetic: the operators of `SNL_DEP` and `SNL_DEP_MATRIX::Apply`

* `SnlDep.smul`, `SnlDep.add` : the operators, with the distance in 32 bits;
* `SnlDep.dep` : the conversion back to a packed word; `dep_keeps_iff` : when it keeps every number;
* `SnlDepMatrix.apply` : a dependence matrix times a transformation; `apply_contains` : its rows describe the
  transformed vectors while nothing overflows;
* `isLegal_lexNonneg`, `isFullyPermutable_nonneg` : what the two tests say of the vectors.
-/

namespace Path64.SnlDeps

open Dvector Finset

namespace SnlDep

/-! ## The operators -/

/-- `operator *`. -/
def smul (a : Int) (d : SnlDep) : SnlDep :=
  { distance := wrap32 (a * d.distance)
    moreless :=
      if a = 0 ∨ d.moreless = .exact then .exact
      else if a > 0 then d.moreless
      else match d.moreless with
        | .plus => .minus
        | .minus => .plus
        | m => m }

/-- `operator +`. -/
def add (d dd : SnlDep) : SnlDep :=
  { distance := wrap32 (d.distance + dd.distance)
    moreless :=
      if d.moreless = .exact ∨ d.moreless = dd.moreless then dd.moreless
      else if dd.moreless = .exact then d.moreless
      else .star }

/-- `operator +=`, which makes the same cases. -/
def addAssign (d dd : SnlDep) : SnlDep := add d dd

theorem smul_contains {a : Int} {d : SnlDep} {x : Int} (hfit : InInt32 (a * d.distance)) (h : d.Contains x) :
    (smul a d).Contains (a * x) := by
  obtain ⟨dist, ml⟩ := d
  have hdist : wrap32 (a * dist) = a * dist := wrap32_eq_iff.2 hfit
  rcases lt_trichotomy a 0 with ha | rfl | ha
  · have hne : ¬ a = 0 := ha.ne
    have hle : ¬ a > 0 := not_lt.2 ha.le
    cases ml <;> simp only [smul, Contains, hdist, hne, hle, reduceCtorEq, or_self, or_true, if_false, if_true] at h ⊢
    · exact Int.mul_le_mul_of_nonpos_left ha.le h
    · exact Int.mul_le_mul_of_nonpos_left ha.le h
    · rw [h]
  · simp only [smul, Contains, true_or, if_true, zero_mul]
    rfl
  · have hne : ¬ a = 0 := ha.ne'
    cases ml <;> simp only [smul, Contains, hdist, hne, ha, reduceCtorEq, or_self, or_true, if_false, if_true] at h ⊢
    · exact Int.mul_le_mul_of_nonneg_left h ha.le
    · exact Int.mul_le_mul_of_nonneg_left h ha.le
    · rw [h]

theorem add_contains {d dd : SnlDep} {x y : Int} (hfit : InInt32 (d.distance + dd.distance)) (hx : d.Contains x)
    (hy : dd.Contains y) : (add d dd).Contains (x + y) := by
  obtain ⟨dist, ml⟩ := d
  obtain ⟨dist', ml'⟩ := dd
  have hdist : wrap32 (dist + dist') = dist + dist' := wrap32_eq_iff.2 hfit
  cases ml <;> cases ml' <;>
    simp only [add, Contains, hdist, reduceCtorEq, or_self, or_true, true_or, if_false, if_true] at hx hy ⊢ <;>
    omega

/-! ## The packed word -/

/-- The case `SNL_DEP_MINUS` of `Dep`. -/
def minusDep (distance : Int) : Dep :=
  if distance = 0 then depSetDirection .negeq
  else if distance < 0 then depSetDirection .neg
  else depSetDirection .star

/-- `SNL_DEP::Dep`. The case for a lower bound falls through to the one for an upper bound. -/
def dep (d : SnlDep) : Dep :=
  match d.moreless with
  | .exact => depSetDistance d.distance
  | .plus =>
    if d.distance = 0 then depSetDirection .poseq
    else if d.distance > 0 then depSetDirection .pos
    else minusDep d.distance
  | .minus => minusDep d.distance
  | .star => depSetDirection .star

end SnlDep

theorem minusDep_describes {dist x : Int} (h : x ≤ dist) : Describes (SnlDep.minusDep dist) x := by
  unfold SnlDep.minusDep
  split_ifs with hzero hneg
  · rw [describes_setDirection (by decide), hasSign_iff]
    exact h.trans hzero.le
  · rw [describes_setDirection (by decide), hasSign_iff]
    exact lt_of_le_of_lt h hneg
  · rw [describes_setDirection (by decide), hasSign_iff]
    trivial

/-- The conversion keeps every number unless it is a negative lower bound or an exact distance below the smallest one
that fits. -/
theorem dep_keeps_iff (s : SnlDep) : (∀ x, s.Contains x → Describes s.dep x) ↔
    ¬ (s.moreless = .plus ∧ s.distance < 0) ∧ ¬ (s.moreless = .exact ∧ s.distance < minDistance) := by
  obtain ⟨dist, ml⟩ := s
  cases ml with
  | plus =>
    rw [and_iff_left (by simp only [reduceCtorEq, false_and, not_false_eq_true])]
    simp only [SnlDep.Contains, SnlDep.dep, true_and, not_lt]
    constructor
    · intro h
      by_contra hneg
      have hzero := h 0 (by omega)
      rw [if_neg (by omega), if_neg (by omega), SnlDep.minusDep, if_neg (by omega), if_pos (by omega),
        describes_setDirection (by decide), hasSign_iff] at hzero
      exact absurd hzero (lt_irrefl 0)
    · intro h x hx
      split_ifs with hzero hpos
      · rw [describes_setDirection (by decide), hasSign_iff]
        exact h.trans hx
      · rw [describes_setDirection (by decide), hasSign_iff]
        exact lt_of_lt_of_le hpos hx
      · omega
  | minus => exact iff_of_true (fun x hx => minusDep_describes hx) (by simp)
  | exact =>
    rw [and_iff_right (by simp only [reduceCtorEq, false_and, not_false_eq_true])]
    simp only [SnlDep.Contains, SnlDep.dep, forall_eq, true_and, not_lt]
    exact describes_setDistance_iff dist
  | star =>
    refine iff_of_true (fun x _ => ?_) (by simp)
    show Describes (depSetDirection .star) x
    rw [describes_setDirection (by decide), hasSign_iff]
    trivial

/-- Converting to `SNL_DEP` keeps every number; converting back does unless the component is a negative lower bound or an
exact distance below `-2048`. -/
theorem conversion_keeps_iff (s : SnlDep) :
    (∀ d x, Describes d x → (SnlDep.ofDep d).Contains x) ∧
    ((∀ x, s.Contains x → Describes s.dep x) ↔
      ¬ (s.moreless = .plus ∧ s.distance < 0) ∧ ¬ (s.moreless = .exact ∧ s.distance < minDistance)) :=
  ⟨fun _ _ h => ofDep_contains h, dep_keeps_iff s⟩

/-- The numbers from `-1` on become the negative ones. -/
theorem conversion_loses_zero : (⟨-1, .plus⟩ : SnlDep).Contains 0 ∧ ¬ Describes (⟨-1, .plus⟩ : SnlDep).dep 0 := by
  refine ⟨?_, by decide⟩
  show (-1 : Int) ≤ 0
  decide

/-! ## The matrix -/

/-- `SNL_DEP_MATRIX`: a row for each dependence, a column for each loop. -/
structure SnlDepMatrix where
  ndep : Nat
  nloops : Nat
  entry : Nat → Nat → SnlDep

/-- The sum that `Apply` collects in `newd[i]`, over the first `k` columns of the transformation. -/
def newDep (row : Nat → SnlDep) (u : Lu.Mat Int) (first i k : Nat) : SnlDep :=
  (List.range k).foldl (fun newd j => newd.addAssign (SnlDep.smul (u.entry i j) (row (j + first)))) ⟨0, .exact⟩

namespace SnlDepMatrix

/-- `Apply`; no value is a failed assertion. -/
def apply (M : SnlDepMatrix) (u : Lu.Mat Int) (first : Nat) : Option SnlDepMatrix :=
  if u.rows = u.cols ∧ first + u.rows ≤ M.nloops then
    some { M with entry := fun d i =>
      if first ≤ i ∧ i < first + u.rows then newDep (M.entry d) u first (i - first) u.rows else M.entry d i }
  else none

/-- `Is_Legal`. -/
def isLegal (M : SnlDepMatrix) : Bool :=
  (List.range M.ndep).all fun d => isLegalRow (M.entry d) (List.range M.nloops)

/-- `Is_Fully_Permutable`. -/
def isFullyPermutable (M : SnlDepMatrix) (from_ to_ : Nat) : Bool :=
  M.isLegal && (List.range M.ndep).all fun d =>
    (List.range from_).any (fun i => decide ((M.entry d i).min ≥ 1)) ||
    (List.range' from_ (to_ + 1 - from_)).all fun i =>
      !((M.entry d i).unboundedMin || decide ((M.entry d i).min < 0))

/-- Row `d` stands for the vector `v`. -/
def Describes (M : SnlDepMatrix) (d : Nat) (v : Nat → Int) : Prop := ∀ i < M.nloops, (M.entry d i).Contains (v i)

end SnlDepMatrix

/-- The transformation applied to the loops from `first` on. -/
def transform (u : Lu.Mat Int) (first : Nat) (v : Nat → Int) (i : Nat) : Int :=
  if first ≤ i ∧ i < first + u.rows then ∑ j ∈ range u.rows, u.entry (i - first) j * v (j + first) else v i

/-- No product and no partial sum that `Apply` forms for the row overflows. -/
def ApplyFits (row : Nat → SnlDep) (u : Lu.Mat Int) (first : Nat) : Prop :=
  ∀ i < u.rows, ∀ j < u.rows, InInt32 (u.entry i j * (row (j + first)).distance) ∧
    InInt32 (∑ k ∈ range (j + 1), u.entry i k * (row (k + first)).distance)

/-- One of the loops before `from_` carries the vector. -/
def CarriedBefore (from_ : Nat) (x : Nat → Int) : Prop := ∃ i < from_, (∀ k < i, x k = 0) ∧ 0 < x i

theorem newDep_contains {row : Nat → SnlDep} {u : Lu.Mat Int} {first i : Nat} {v : Nat → Int}
    (hfit : ApplyFits row u first) (hi : i < u.rows) (hv : ∀ j < u.rows, (row (j + first)).Contains (v (j + first)))
    {k : Nat} (hk : k ≤ u.rows) :
    (newDep row u first i k).distance = ∑ j ∈ range k, u.entry i j * (row (j + first)).distance ∧
      (newDep row u first i k).Contains (∑ j ∈ range k, u.entry i j * v (j + first)) := by
  induction k with
  | zero => exact ⟨rfl, rfl⟩
  | succ k ih =>
    obtain ⟨hdist, hcont⟩ := ih (by omega)
    obtain ⟨hprod, hsum⟩ := hfit i hi k (by omega)
    have hsmul := SnlDep.smul_contains hprod (hv k (by omega))
    have hsd : (SnlDep.smul (u.entry i k) (row (k + first))).distance = u.entry i k * (row (k + first)).distance :=
      wrap32_eq_iff.2 hprod
    have hnew : newDep row u first i (k + 1) =
        (newDep row u first i k).add (SnlDep.smul (u.entry i k) (row (k + first))) := by
      rw [newDep, List.range_succ, List.foldl_append]
      rfl
    rw [sum_range_succ] at hsum
    have hfits : InInt32 ((newDep row u first i k).distance +
        (SnlDep.smul (u.entry i k) (row (k + first))).distance) := by rwa [hdist, hsd]
    rw [hnew, sum_range_succ, sum_range_succ]
    refine ⟨?_, SnlDep.add_contains hfits hcont hsmul⟩
    show wrap32 _ = _
    rw [wrap32_eq_iff.2 hfits, hdist, hsd]

theorem apply_contains {M M' : SnlDepMatrix} {u : Lu.Mat Int} {first d : Nat} (h : M.apply u first = some M')
    (hfit : ApplyFits (M.entry d) u first) {v : Nat → Int} (hv : M.Describes d v) :
    M'.Describes d (transform u first v) := by
  unfold SnlDepMatrix.apply at h
  split_ifs at h with hsize
  cases h
  intro i hi
  show SnlDep.Contains (if _ then _ else _) (transform u first v i)
  unfold transform
  split_ifs with hblock
  · refine (newDep_contains hfit (by omega) (fun j hj => hv _ ?_) le_rfl).2
    omega
  · exact hv i hi

theorem apply_size {M M' : SnlDepMatrix} {u : Lu.Mat Int} {first : Nat} (h : M.apply u first = some M') :
    M'.ndep = M.ndep ∧ M'.nloops = M.nloops := by
  unfold SnlDepMatrix.apply at h
  split_ifs at h
  cases h
  exact ⟨rfl, rfl⟩

/-! ## The tests -/

/-- A legal row: before the first positive minimum every minimum is zero. -/
theorem isLegalRow_range' {row : Nat → SnlDep} {s n : Nat} (h : isLegalRow row (List.range' s n) = true) :
    ∀ i, s ≤ i → i < s + n → (∀ k, s ≤ k → k < i → (row k).min ≤ 0) →
      (row i).unboundedMin = false ∧ 0 ≤ (row i).min := by
  induction n generalizing s with
  | zero =>
    intro i hs hi
    omega
  | succ n ih =>
    rw [List.range'_succ] at h
    unfold isLegalRow at h
    intro i hs hi hbefore
    split_ifs at h with hbad hpos
    · simp only [Bool.or_eq_true, decide_eq_true_eq, not_or, Bool.not_eq_true, not_lt] at hbad
      rcases Nat.eq_or_lt_of_le hs with rfl | hlt
      · exact hbad
      · exact absurd hpos (not_lt.2 (hbefore s le_rfl hlt))
    · simp only [Bool.or_eq_true, decide_eq_true_eq, not_or, Bool.not_eq_true, not_lt] at hbad
      rcases Nat.eq_or_lt_of_le hs with rfl | hlt
      · exact hbad
      · exact ih h i hlt (by omega) fun k hk hki => hbefore k (by omega) hki

theorem SnlDepMatrix.isLegal_row {M : SnlDepMatrix} (h : M.isLegal = true) {d : Nat} (hd : d < M.ndep) {i : Nat}
    (hi : i < M.nloops) (hbefore : ∀ k < i, (M.entry d k).min ≤ 0) :
    (M.entry d i).unboundedMin = false ∧ 0 ≤ (M.entry d i).min := by
  rw [isLegal, List.all_eq_true] at h
  have hrow := h d (List.mem_range.2 hd)
  rw [List.range_eq_range'] at hrow
  exact isLegalRow_range' hrow i (Nat.zero_le i) (by omega) fun k _ hk => hbefore k hk

theorem SnlDepMatrix.min_le_zero {M : SnlDepMatrix} (h : M.isLegal = true) {d : Nat} (hd : d < M.ndep) {x : Nat → Int}
    (hx : M.Describes d x) {i : Nat} (hi : i ≤ M.nloops) (hzero : ∀ k < i, x k = 0) :
    ∀ k < i, (M.entry d k).min ≤ 0 := by
  intro k
  induction k using Nat.strong_induction_on with
  | _ k ih =>
    intro hk
    have hbound := (isLegal_row h hd (by omega) fun j hj => ih j hj (by omega)).1
    have hle := (hx k (by omega)).min_le hbound
    rwa [hzero k hk] at hle

/-- What a legal row describes is not lexicographically negative. -/
theorem isLegal_lexNonneg {M : SnlDepMatrix} (h : M.isLegal = true) {d : Nat} (hd : d < M.ndep) {x : Nat → Int}
    (hx : M.Describes d x) : LexNonneg M.nloops x := by
  intro i hi hzero
  obtain ⟨hbound, hmin⟩ := M.isLegal_row h hd hi (M.min_le_zero h hd hx hi.le hzero)
  exact hmin.trans ((hx i hi).min_le hbound)

theorem LexNonneg.zero_before {n from_ : Nat} {x : Nat → Int} (h : LexNonneg n x) (hn : from_ ≤ n)
    (hcarry : ¬ CarriedBefore from_ x) : ∀ k < from_, x k = 0 := by
  intro k
  induction k using Nat.strong_induction_on with
  | _ k ih =>
    intro hk
    have hzero : ∀ j < k, x j = 0 := fun j hj => ih j hj (by omega)
    refine le_antisymm ?_ (h k (by omega) hzero)
    by_contra hpos
    exact hcarry ⟨k, hk, hzero, not_le.1 hpos⟩

theorem isFullyPermutable_nonneg {M : SnlDepMatrix} {from_ to_ : Nat} (h : M.isFullyPermutable from_ to_ = true)
    (hle : from_ ≤ to_) (hto : to_ < M.nloops) {d : Nat} (hd : d < M.ndep) {x : Nat → Int} (hx : M.Describes d x)
    (hcarry : ¬ CarriedBefore from_ x) : ∀ i, from_ ≤ i → i ≤ to_ → 0 ≤ x i := by
  intro i hfrom hi
  rw [SnlDepMatrix.isFullyPermutable, Bool.and_eq_true, List.all_eq_true] at h
  obtain ⟨hlegal, hrows⟩ := h
  have hzero := (isLegal_lexNonneg hlegal hd hx).zero_before (by omega) hcarry
  have hmin := M.min_le_zero hlegal hd hx (by omega) hzero
  have hrow := hrows d (List.mem_range.2 hd)
  rw [Bool.or_eq_true] at hrow
  rcases hrow with hany | hall
  · obtain ⟨k, hk, hone⟩ := List.any_eq_true.1 hany
    have hone := of_decide_eq_true hone
    have hk := hmin k (List.mem_range.1 hk)
    omega
  · have hgood := List.all_eq_true.1 hall i (List.mem_range'_1.2 ⟨hfrom, by omega⟩)
    simp only [Bool.not_eq_true', Bool.or_eq_false_iff, decide_eq_false_iff_not, not_lt] at hgood
    exact hgood.2.trans ((hx i (by omega)).min_le hgood.1)

/-- The arithmetic is sound while nothing overflows, and so are the tests of a transformed matrix. -/
theorem arithmetic_sound :
    (∀ (c : Int) (a : SnlDep) (x : Int), InInt32 (c * a.distance) → a.Contains x →
      (SnlDep.smul c a).Contains (c * x)) ∧
    (∀ (a b : SnlDep) (x y : Int), InInt32 (a.distance + b.distance) → a.Contains x → b.Contains y →
      (a.add b).Contains (x + y) ∧ (a.addAssign b).Contains (x + y)) ∧
    ∀ (M M' : SnlDepMatrix) (u : Lu.Mat Int) (first : Nat), M.apply u first = some M' →
      ∀ d < M.ndep, ApplyFits (M.entry d) u first → ∀ v, M.Describes d v →
        M'.Describes d (transform u first v) ∧
        (M'.isLegal = true → LexNonneg M.nloops (transform u first v)) ∧
        ∀ from_ to_, from_ ≤ to_ → to_ < M.nloops → M'.isFullyPermutable from_ to_ = true →
          ¬ CarriedBefore from_ (transform u first v) →
          ∀ i, from_ ≤ i → i ≤ to_ → 0 ≤ transform u first v i := by
  refine ⟨fun c a x => SnlDep.smul_contains, fun a b x y hfit hx hy => ?_, fun M M' u first h d hd hfit v hv => ?_⟩
  · exact ⟨SnlDep.add_contains hfit hx hy, SnlDep.add_contains hfit hx hy⟩
  · obtain ⟨hndep, hnloops⟩ := apply_size h
    have hdesc := apply_contains h hfit hv
    refine ⟨hdesc, fun hlegal => ?_, fun from_ to_ hle hto hperm hcarry => ?_⟩
    · rw [← hnloops]
      exact isLegal_lexNonneg hlegal (hndep.symm ▸ hd) hdesc
    · exact isFullyPermutable_nonneg hperm hle (hnloops.symm ▸ hto) (hndep.symm ▸ hd) hdesc hcarry

/-- A product, a sum, and a skew by one: the dependence `(1, ≥ -1)` becomes `(1, ≥ 0)`, and its vector `(1, 4)` becomes
`(1, 5)`. -/
theorem arithmetic_sound_skew :
    (SnlDep.smul (-2) ⟨3, .plus⟩).Contains (-2 * 5) ∧ (SnlDep.add ⟨2, .exact⟩ ⟨-1, .plus⟩).Contains (2 + 4) ∧
    LexNonneg 2 (transform ⟨2, 2, fun i j => if j ≤ i then 1 else 0⟩ 0 fun i => if i = 0 then 1 else 4) ∧
    0 ≤ transform ⟨2, 2, fun i j => if j ≤ i then 1 else 0⟩ 0 (fun i => if i = 0 then 1 else 4) 1 := by
  obtain ⟨hsmul, hadd, happly⟩ := arithmetic_sound
  refine ⟨hsmul (-2) ⟨3, .plus⟩ 5 (by decide) (show (3 : Int) ≤ 5 by decide),
    (hadd ⟨2, .exact⟩ ⟨-1, .plus⟩ 2 4 (by decide) (show (2 : Int) = 2 from rfl) (show (-1 : Int) ≤ 4 by decide)).1, ?_⟩
  obtain ⟨-, hlegal, hperm⟩ := happly ⟨1, 2, fun _ i => if i = 0 then ⟨1, .exact⟩ else ⟨-1, .plus⟩⟩ _
    ⟨2, 2, fun i j => if j ≤ i then 1 else 0⟩ 0 rfl 0 (by decide) (by unfold ApplyFits; decide)
    (fun i => if i = 0 then 1 else 4) (by
      intro i hi
      interval_cases i
      · exact rfl
      · exact (show (-1 : Int) ≤ 4 by decide))
  exact ⟨hlegal (by decide), hperm 0 1 (by decide) (by decide) (by decide)
    (fun ⟨i, hi, _⟩ => absurd hi (Nat.not_lt_zero i)) 1 (by decide) le_rfl⟩

/-- A product that overflows: the square of `2 ^ 16` becomes zero. -/
theorem product_overflows : (⟨65536, .exact⟩ : SnlDep).Contains 65536 ∧
    ¬ (SnlDep.smul 65536 ⟨65536, .exact⟩).Contains (65536 * 65536) := by
  refine ⟨rfl, ?_⟩
  show ¬ (65536 * 65536 : Int) = wrap32 (65536 * 65536)
  decide

end Path64.SnlDeps

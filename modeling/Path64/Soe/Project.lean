import Path64.Lib.Gcd
import Path64.Lib.Logged
import Path64.Soe.Redundant

/-!
# Fourier-Motzkin elimination

`Elim_One` and `Project` of `be/lno/soe.cxx`. Nothing checks the constants, which have 64 bits, nor the coefficients, as
`abs` is that of an `int` in `abs(tmp) > INT32_MAX`: the model logs the exact value of each one that is formed.

* `elimOne` : one upper bound against one lower bound; `elimOne_spec` : the row it makes is `Row.combine`;
* `elimMinuses`, `projectPlus`, `project` : the loops, which overwrite each upper bound when it is done;
* `Projecting` : what holds between two rounds of the outer loop;
* `project_exact` : the rows left have the rational solutions of the old ones without the unknown.
-/

namespace Path64.Soe

open Lib Logged Finset

/-- A value before it is stored in 64 bits, or in 32. -/
inductive Formed where
  | wide (x : Int)
  | narrow (x : Int)

/-- Storing the value does not change it. -/
def Formed.Fits : Formed → Prop
  | wide x => InInt64 x
  | narrow x => InInt32 x

instance (f : Formed) : Decidable f.Fits :=
  match f with
  | .wide x => inferInstanceAs (Decidable (InInt64 x))
  | .narrow x => inferInstanceAs (Decidable (InInt32 x))

/-! ## `Elim_One` -/

/-- `plus_mult` and `minus_mult`. -/
def multipliers (plusI minusI : MInt32) : Int × Int :=
  let g := gcd32 (abs32 plusI) (abs32 minusI)
  ((plusI : Int).tdiv g, (wrap32 (-minusI)).tdiv g)

/-- `tmp`, a 64-bit value; the common case avoids the multiplications. -/
def Work.combination (w : Work) (i plus minus col : Nat) : Int :=
  let (plusMult, minusMult) := multipliers (w.work plus i) (w.work minus i)
  if minusMult = 1 ∧ plusMult = 1 then w.work plus col + w.work minus col
  else minusMult * w.work plus col + plusMult * w.work minus col

/-- The new constant before it is stored. -/
def Work.combinedConst (w : Work) (i plus minus : Nat) : Int :=
  let (plusMult, minusMult) := multipliers (w.work plus i) (w.work minus i)
  minusMult * w.workConst plus + plusMult * w.workConst minus

/-- The row after the last one in use, overwritten. -/
def Work.writeNext (w : Work) (minVar : Nat) (row : Nat → Int) (const : Int) : Work :=
  { w with
    workConst := Function.update w.workConst w.workRows (wrap64 const)
    work := fun r c =>
      if r = w.workRows then
        if c < minVar then MInt32.ofInt 0 else if c < w.workCols then MInt32.ofInt (row c) else w.work r c
      else w.work r c }

/-- `Elim_One`: no value where it returns `FALSE`, else the arrays and `proved_inconsistent`. -/
def Work.elimOne (w : Work) (i plus minus minVar : Nat) : Logged Formed (Work × Bool) := do
  assert (w.workRows + 1 < soeMaxWorkRows)
  report (.wide (w.combinedConst i plus minus))
  reportAll ((List.range' minVar (w.workCols - minVar)).map fun col => .narrow (w.combination i plus minus col))
  assert (∀ col ∈ List.range' minVar (w.workCols - minVar), absInt (w.combination i plus minus col) ≤ int32Max)
  let w' := w.writeNext minVar (w.combination i plus minus) (w.combinedConst i plus minus)
  let hasVars := (List.range' minVar (w.workCols - minVar)).any fun col => (w'.work w.workRows col : Int) != 0
  if !hasVars then
    if w'.workConst w.workRows < 0 then pure (w', true) else pure (w', false)
  else pure ({ w' with workRows := w.workRows + 1 }, false)

/-- The combination of an upper bound `p` and a lower bound `m` of unknown `i` that cancels it. -/
def Row.combine (i : Nat) (p m : Row) : Row :=
  let g : Int := Int.gcd (p.coeff i) (m.coeff i)
  ⟨(List.range p.coeffs.length).map fun j => -m.coeff i / g * p.coeff j + p.coeff i / g * m.coeff j,
    -m.coeff i / g * p.rhs + p.coeff i / g * m.rhs⟩

section Pivot

variable {p m : MInt32}

theorem ne_int32Min_of_nonneg {x : Int} (hx : 0 ≤ x) : x ≠ -2 ^ 31 := by omega

theorem multipliers_eq (hp : 0 < (p : Int)) (hm : (m : Int) < 0) (hmin : (m : Int) ≠ -2 ^ 31) :
    multipliers p m = ((p : Int) / (Int.gcd p m : Int), -(m : Int) / (Int.gcd p m : Int)) := by
  have hpMin := ne_int32Min_of_nonneg hp.le
  have habs : ∀ x : MInt32, (x : Int) ≠ -2 ^ 31 → abs32 x = |(x : Int)| ∧ InInt32 |(x : Int)| := fun x hx => by
    have heq := abs32_nonneg x.2 hx
    exact ⟨heq, heq ▸ inInt32_wrap32 _⟩
  obtain ⟨hpa, hpi⟩ := habs p hpMin
  obtain ⟨hma, hmi⟩ := habs m hmin
  have hg : gcd32 (abs32 p) (abs32 m) = Int.gcd p m := by
    rw [hpa, hma, gcd32_nonneg hpi hmi (ne_int32Min_of_nonneg (abs_nonneg _)) (ne_int32Min_of_nonneg (abs_nonneg _))]
    show ((Nat.gcd |(p : Int)|.natAbs |(m : Int)|.natAbs : Nat) : Int) = _
    rw [Int.natAbs_abs, Int.natAbs_abs]
    rfl
  have hneg : wrap32 (-(m : Int)) = -m := wrap32_eq_iff.2 ⟨by omega, by have := m.2.1; omega⟩
  show ((p : Int).tdiv (gcd32 (abs32 p) (abs32 m)), (wrap32 (-m)).tdiv (gcd32 (abs32 p) (abs32 m))) = _
  rw [hg, hneg, Int.tdiv_eq_ediv_of_nonneg hp.le, Int.tdiv_eq_ediv_of_nonneg (by omega)]

/-- With the least value as lower bound its negation is that value again, and the greatest common divisor may be negative. -/
theorem combination_of_min {w : Work} {i plus minus : Nat} (hp : 0 < (w.work plus i : Int))
    (hmin : (w.work minus i : Int) = -2 ^ 31) : ∃ a b : Int, a ≠ 0 ∧
      (w.work plus i : Int) = gcd32 (abs32 (w.work plus i)) (abs32 (w.work minus i)) * a ∧
      (w.work minus i : Int) = gcd32 (abs32 (w.work plus i)) (abs32 (w.work minus i)) * b ∧
      ∀ col, w.combination i plus minus col = b * w.work plus col + a * w.work minus col := by
  have hgcd := natAbs_gcd32 (inInt32_abs32 (w.work plus i)) (inInt32_abs32 (w.work minus i))
  have hgp : gcd32 (abs32 (w.work plus i)) (abs32 (w.work minus i)) ∣ (w.work plus i : Int) := by
    refine (dvd_abs32 (w.work plus i).2 _).1 (Int.natAbs_dvd_natAbs.1 ?_)
    rw [hgcd]
    exact Nat.gcd_dvd_left _ _
  have hgm : gcd32 (abs32 (w.work plus i)) (abs32 (w.work minus i)) ∣ (w.work minus i : Int) := by
    refine (dvd_abs32 (w.work minus i).2 _).1 (Int.natAbs_dvd_natAbs.1 ?_)
    rw [hgcd]
    exact Nat.gcd_dvd_right _ _
  have hwrap : wrap32 (-(w.work minus i : Int)) = w.work minus i := by
    rw [hmin]
    decide
  have hmult : multipliers (w.work plus i) (w.work minus i) =
      ((w.work plus i : Int).tdiv (gcd32 (abs32 (w.work plus i)) (abs32 (w.work minus i))),
        (w.work minus i : Int).tdiv (gcd32 (abs32 (w.work plus i)) (abs32 (w.work minus i)))) := by
    show (_, (wrap32 (-(w.work minus i : Int))).tdiv _) = _
    rw [hwrap]
  generalize gcd32 (abs32 (w.work plus i)) (abs32 (w.work minus i)) = g at hgp hgm hmult ⊢
  have hg0 : g ≠ 0 := by
    rintro rfl
    exact hp.ne' (zero_dvd_iff.1 hgp)
  rw [Int.tdiv_eq_ediv_of_dvd hgp, Int.tdiv_eq_ediv_of_dvd hgm] at hmult
  obtain ⟨a, ha⟩ := hgp
  obtain ⟨b, hb⟩ := hgm
  have ha0 : a ≠ 0 := by
    rintro rfl
    rw [mul_zero] at ha
    omega
  have hne : ¬ (b = 1 ∧ a = 1) := by
    rintro ⟨rfl, rfl⟩
    omega
  refine ⟨a, b, ha0, ha, hb, fun col => ?_⟩
  unfold Work.combination
  rw [hmult, ha, hb, Int.mul_ediv_cancel_left _ hg0, Int.mul_ediv_cancel_left _ hg0]
  exact if_neg hne

/-- Then the column of the unknown itself overflows. -/
theorem combination_overflows {w : Work} {i plus minus : Nat} (hp : 0 < (w.work plus i : Int))
    (hmin : (w.work minus i : Int) = -2 ^ 31) : ¬ InInt32 (w.combination i plus minus i) := by
  obtain ⟨a, b, ha0, ha, hb, hcomb⟩ := combination_of_min hp hmin
  generalize gcd32 (abs32 (w.work plus i)) (abs32 (w.work minus i)) = g at ha hb
  have hvalue : b * (w.work plus i : Int) + a * w.work minus i = a * (2 * w.work minus i) := by
    rw [ha, hb]
    ring
  rw [hcomb, hvalue, hmin]
  unfold InInt32
  omega

theorem combination_eq {w : Work} {i plus minus : Nat} (hp : 0 < (w.work plus i : Int)) (hm : (w.work minus i : Int) < 0)
    (hmin : (w.work minus i : Int) ≠ -2 ^ 31) (col : Nat) : w.combination i plus minus col =
      -(w.work minus i : Int) / (Int.gcd (w.work plus i) (w.work minus i) : Int) * w.work plus col +
        (w.work plus i : Int) / (Int.gcd (w.work plus i) (w.work minus i) : Int) * w.work minus col := by
  unfold Work.combination
  rw [multipliers_eq hp hm hmin]
  dsimp only
  split_ifs with h
  · rw [h.1, h.2, one_mul, one_mul]
  · rfl

end Pivot

/-- What `Elim_One` does when it succeeds. -/
structure Eliminated (w : Work) (i plus minus minVar : Nat) (res : Work × Bool) : Prop where
  pivot : (w.work minus i : Int) ≠ -2 ^ 31
  cols : res.1.workCols = w.workCols
  old : ∀ r < w.workRows, res.1.work r = w.work r ∧ res.1.workConst r = w.workConst r
  before : ∀ c < minVar, (res.1.work w.workRows c : Int) = 0
  exact : ∀ c, minVar ≤ c → c < w.workCols → (res.1.work w.workRows c : Int) =
    -(w.work minus i : Int) / (Int.gcd (w.work plus i) (w.work minus i) : Int) * w.work plus c +
      (w.work plus i : Int) / (Int.gcd (w.work plus i) (w.work minus i) : Int) * w.work minus c
  const : res.1.workConst w.workRows = wrap64 (
    -(w.work minus i : Int) / (Int.gcd (w.work plus i) (w.work minus i) : Int) * w.workConst plus +
      (w.work plus i : Int) / (Int.gcd (w.work plus i) (w.work minus i) : Int) * w.workConst minus)
  outcome : (res.1.workRows = w.workRows + 1 ∧ res.2 = false) ∨
    res.1.workRows = w.workRows ∧ (∀ c, minVar ≤ c → c < w.workCols → (res.1.work w.workRows c : Int) = 0) ∧
      (res.2 = true ↔ res.1.workConst w.workRows < 0)

theorem elimOne_eliminated {w : Work} {i plus minus minVar : Nat} (hmin : minVar ≤ i)
    (hi : i < w.workCols) (hp : 0 < (w.work plus i : Int)) (hm : (w.work minus i : Int) < 0) :
    Yields Formed.Fits (w.elimOne i plus minus minVar) fun res =>
      InInt64 (w.combinedConst i plus minus) ∧ Eliminated w i plus minus minVar res := by
  unfold Work.elimOne
  refine (yields_assert (R := fun _ => True) fun _ => trivial).bind fun _ _ => ?_
  have hconst : Yields Formed.Fits (report (.wide (w.combinedConst i plus minus))) fun _ =>
      InInt64 (w.combinedConst i plus minus) := yields_report id
  refine hconst.bind fun _ hok => ?_
  refine (yields_reportAll (R := fun _ => ∀ col, minVar ≤ col → col < w.workCols →
    InInt32 (w.combination i plus minus col)) fun hall col h1 h2 => ?_).bind fun _ hfits => ?_
  · exact hall _ (List.mem_map_of_mem (List.mem_range'_1.2 (by omega)))
  refine (yields_assert (R := fun _ => True) fun _ => trivial).bind fun _ _ => ?_
  have hmin32 : (w.work minus i : Int) ≠ -2 ^ 31 := fun heq => combination_overflows hp heq (hfits i hmin hi)
  generalize hw' : w.writeNext minVar (w.combination i plus minus) (w.combinedConst i plus minus) = w'
  have hold : ∀ r < w.workRows, w'.work r = w.work r ∧ w'.workConst r = w.workConst r := by
    intro r hr
    rw [← hw']
    refine ⟨?_, Function.update_of_ne hr.ne _ _⟩
    funext c
    exact if_neg hr.ne
  have hbefore : ∀ c < minVar, (w'.work w.workRows c : Int) = 0 := by
    intro c hc
    rw [← hw']
    show ((if w.workRows = w.workRows then _ else _ : MInt32) : Int) = 0
    rw [if_pos rfl, if_pos hc]
    rfl
  have hexact : ∀ c, minVar ≤ c → c < w.workCols → (w'.work w.workRows c : Int) = w.combination i plus minus c := by
    intro c h1 h2
    rw [← hw']
    show ((if w.workRows = w.workRows then _ else _ : MInt32) : Int) = _
    rw [if_pos rfl, if_neg (not_lt.2 h1), if_pos h2]
    exact wrap32_eq_iff.2 (hfits c h1 h2)
  have hconst : w'.workConst w.workRows = wrap64 (w.combinedConst i plus minus) := by
    rw [← hw']
    exact Function.update_self _ _ _
  have hconstEq : w.combinedConst i plus minus =
      -(w.work minus i : Int) / (Int.gcd (w.work plus i) (w.work minus i) : Int) * w.workConst plus +
        (w.work plus i : Int) / (Int.gcd (w.work plus i) (w.work minus i) : Int) * w.workConst minus := by
    unfold Work.combinedConst
    rw [multipliers_eq hp hm hmin32]
  have hcols : w'.workCols = w.workCols := by rw [← hw']; rfl
  have hrows : w'.workRows = w.workRows := by rw [← hw']; rfl
  have hbuild : ∀ (rows : Nat) (inc : Bool), ((rows = w.workRows + 1 ∧ inc = false) ∨ rows = w.workRows ∧
      (∀ c, minVar ≤ c → c < w.workCols → (w'.work w.workRows c : Int) = 0) ∧
      (inc = true ↔ w'.workConst w.workRows < 0)) →
      Eliminated w i plus minus minVar ({ w' with workRows := rows }, inc) := fun rows inc hout =>
    ⟨hmin32, hcols, hold, hbefore, fun c h1 h2 => (hexact c h1 h2).trans (combination_eq hp hm hmin32 c), by rw [← hconstEq]; exact hconst,
      hout⟩
  have hself : w' = { w' with workRows := w.workRows } := by rw [← hrows]
  cases hvars : (List.range' minVar (w.workCols - minVar)).any fun col => (w'.work w.workRows col : Int) != 0 with
  | true =>
    rw [if_neg (by rw [hvars]; decide)]
    exact yields_pure ⟨hok, hbuild _ _ (Or.inl ⟨rfl, rfl⟩)⟩
  | false =>
    rw [if_pos (by rw [hvars]; decide)]
    have hzero : ∀ c, minVar ≤ c → c < w.workCols → (w'.work w.workRows c : Int) = 0 := by
      intro c h1 h2
      have hnone := List.any_eq_false.1 hvars c (by rw [List.mem_range'_1]; omega)
      simpa using hnone
    by_cases hneg : w'.workConst w.workRows < 0
    · rw [if_pos hneg]
      refine yields_pure ⟨hok, ?_⟩
      rw [hself]
      exact hbuild _ _ (Or.inr ⟨rfl, hzero, iff_of_true rfl hneg⟩)
    · rw [if_neg hneg]
      refine yields_pure ⟨hok, ?_⟩
      rw [hself]
      exact hbuild _ _ (Or.inr ⟨rfl, hzero, iff_of_false Bool.false_ne_true hneg⟩)

/-! ## Combinations of rows -/

section Combine

variable {i : Nat} {p m : Row}

theorem length_combine : (Row.combine i p m).coeffs.length = p.coeffs.length := by
  rw [Row.combine, List.length_map, List.length_range]

theorem coeff_combine {j : Nat} (hj : j < p.coeffs.length) : (Row.combine i p m).coeff j =
    -m.coeff i / (Int.gcd (p.coeff i) (m.coeff i) : Int) * p.coeff j +
      p.coeff i / (Int.gcd (p.coeff i) (m.coeff i) : Int) * m.coeff j := by
  rw [Row.combine, Row.coeff, List.getD_eq_getElem?_getD, List.getElem?_map, List.getElem?_range hj]
  rfl

theorem exists_pivot (hp : 0 < p.coeff i) : ∃ g a b : Int, 0 < g ∧ p.coeff i = g * a ∧ m.coeff i = g * b ∧
    (Int.gcd (p.coeff i) (m.coeff i) : Int) = g ∧ p.coeff i / g = a ∧ -m.coeff i / g = -b := by
  have hg : (0 : Int) < (Int.gcd (p.coeff i) (m.coeff i) : Int) := by
    have := Int.gcd_pos_of_ne_zero_left (m.coeff i) hp.ne'
    omega
  obtain ⟨a, ha⟩ := Int.gcd_dvd_left (p.coeff i) (m.coeff i)
  obtain ⟨b, hb⟩ := Int.gcd_dvd_right (p.coeff i) (m.coeff i)
  refine ⟨_, a, b, hg, ha, hb, rfl, ?_, ?_⟩
  · exact Int.ediv_eq_of_eq_mul_right hg.ne' ha
  · refine Int.ediv_eq_of_eq_mul_right hg.ne' ?_
    rw [mul_neg, ← hb]

theorem coeff_combine_self (hi : i < p.coeffs.length) (hp : 0 < p.coeff i) : (Row.combine i p m).coeff i = 0 := by
  obtain ⟨g, a, b, -, ha, hb, hg, hda, hdb⟩ := exists_pivot (m := m) hp
  rw [coeff_combine hi, hg, hda, hdb, ha, hb]
  ring

variable {K : Type*} [Field K] [LinearOrder K] [IsStrictOrderedRing K]

/-- What is left of a row's constant with the other unknowns at `x`. -/
def Row.rest (q : Row) (i : Nat) (x : Nat → K) : K := q.rhs - dot q.coeffs.length q.coeff (Function.update x i 0)

theorem holds_update_iff {q : Row} (hi : i < q.coeffs.length) (x : Nat → K) (t : K) :
    q.Holds (Function.update x i t) ↔ (q.coeff i : K) * t ≤ q.rest i x := by
  have hdot : dot q.coeffs.length q.coeff (Function.update x i t) =
      dot q.coeffs.length q.coeff (Function.update x i 0) + (q.coeff i : K) * t := by
    rw [dot_update hi, dot_update hi]
    ring
  rw [Row.Holds, hdot, Row.rest, le_sub_iff_add_le, add_comm]

theorem holds_iff_rest {q : Row} (hzero : q.coeff i = 0) (x : Nat → K) : q.Holds x ↔ 0 ≤ q.rest i x := by
  rw [Row.Holds, Row.rest, dot_update_of_eq_zero hzero, sub_nonneg]

theorem holds_combine_iff (hi : i < p.coeffs.length) (hlen : m.coeffs.length = p.coeffs.length) (hp : 0 < p.coeff i)
    (x : Nat → K) : (Row.combine i p m).Holds x ↔
      0 ≤ -(m.coeff i : K) * p.rest i x + (p.coeff i : K) * m.rest i x := by
  obtain ⟨g, a, b, hpos, ha, hb, hg, hda, hdb⟩ := exists_pivot (m := m) hp
  have hdot : dot p.coeffs.length (Row.combine i p m).coeff (Function.update x i 0) =
      -(b : K) * dot p.coeffs.length p.coeff (Function.update x i 0) +
        (a : K) * dot p.coeffs.length m.coeff (Function.update x i 0) := by
    rw [← Int.cast_neg, mul_dot, mul_dot, dot_add]
    refine dot_congr fun j hj => ?_
    rw [coeff_combine hj, hg, hda, hdb]
  have hrhs : (Row.combine i p m).rhs = -b * p.rhs + a * m.rhs := by
    show -m.coeff i / (Int.gcd (p.coeff i) (m.coeff i) : Int) * p.rhs +
      p.coeff i / (Int.gcd (p.coeff i) (m.coeff i) : Int) * m.rhs = _
    rw [hg, hda, hdb]
  have hrest : (Row.combine i p m).rest i x = -(b : K) * p.rest i x + (a : K) * m.rest i x := by
    unfold Row.rest
    rw [length_combine, hdot, hrhs, hlen]
    push_cast
    ring
  have hgK : (0 : K) < g := Int.cast_pos.2 hpos
  rw [holds_iff_rest (coeff_combine_self hi hp), hrest, ha, hb, ← mul_nonneg_iff_of_pos_left hgK]
  refine iff_of_eq (congrArg (0 ≤ ·) ?_)
  push_cast
  ring

end Combine

/-- The row a successful `Elim_One` makes, where its constant fits. -/
theorem Eliminated.newRow {w : Work} {i plus minus minVar : Nat} {res : Work × Bool}
    (h : Eliminated w i plus minus minVar res) (hi : i < w.workCols) (hplus : plus < w.workRows)
    (hminus : minus < w.workRows) (hzero : w.ZeroBefore minVar) (hp : 0 < (w.work plus i : Int))
    (hm : (w.work minus i : Int) < 0) (hfit : InInt64 (w.combinedConst i plus minus)) :
    res.1.leRow w.workRows = Row.combine i (w.leRow plus) (w.leRow minus) := by
  have hconst : w.combinedConst i plus minus =
      -(w.work minus i : Int) / (Int.gcd (w.work plus i) (w.work minus i) : Int) * w.workConst plus +
        (w.work plus i : Int) / (Int.gcd (w.work plus i) (w.work minus i) : Int) * w.workConst minus := by
    unfold Work.combinedConst
    rw [multipliers_eq hp hm h.pivot]
  unfold Work.leRow Row.combine
  rw [List.length_map, List.length_range, h.cols]
  have hcp := coeff_leRow w plus hi
  have hcm := coeff_leRow w minus hi
  unfold Work.leRow at hcp hcm
  rw [hcp, hcm]
  congr 1
  · refine List.map_congr_left fun j hj => ?_
    have hj := List.mem_range.1 hj
    have hjp := coeff_leRow w plus hj
    have hjm := coeff_leRow w minus hj
    unfold Work.leRow at hjp hjm
    rw [hjp, hjm]
    by_cases hjmin : j < minVar
    · rw [h.before j hjmin, hzero plus hplus j hjmin hj, hzero minus hminus j hjmin hj, mul_zero, mul_zero, add_zero]
    · exact h.exact j (not_lt.1 hjmin) hj
  · rw [h.const, ← hconst, wrap64_eq hfit]

/-! ## `Project` -/

/-- The inner loop: `plus` against the `k` rows from `minus` on, until the system is proved inconsistent. -/
def elimMinuses (i plus minVar : Nat) : Nat → Nat → Work → Logged Formed (Work × Bool)
  | 0, _, w => pure (w, false)
  | k + 1, minus, w =>
    if (w.work minus i : Int) < 0 then do
      let res ← w.elimOne i plus minus minVar
      if res.2 then pure (res.1, true) else elimMinuses i plus minVar k (minus + 1) res.1
    else elimMinuses i plus minVar k (minus + 1) w

/-- Overwrites row `r` by the last one. -/
def Work.erase (w : Work) (r minVar : Nat) : Work :=
  let w' := if r ≠ w.workRows - 1 then w.copyRow r (w.workRows - 1) minVar else w
  { w' with workRows := w.workRows - 1 }

/-- The outer loop. `undone` is `last_undone + 1`; the result is `some` where `Project` returns, with `proved_inconsistent`. -/
def projectPlus (i minVar : Nat) : Nat → Nat → Nat → Work → Logged Formed (Work × Option Bool)
  | 0, _, _, w => pure (w, none)
  | k + 1, undone, plus, w =>
    if plus < undone then
      if 0 < (w.work plus i : Int) then do
        let res ← elimMinuses i plus minVar undone 0 w
        if res.2 then pure (res.1, some true)
        else
          let w := res.1
          -- a row that was not looked at moves to `plus`, or a new one does
          let next : Nat × Nat := if undone = w.workRows then (undone - 1, plus) else
            if plus ≠ w.workRows - 1 then (undone, plus + 1) else (undone, plus)
          let w := w.erase plus minVar
          if w.workRows = 0 then pure (w, some false) else projectPlus i minVar k next.1 next.2 w
      else projectPlus i minVar k undone (plus + 1) w
    else pure (w, none)

/-- `Project`: no value where it returns `FALSE`, else the arrays and `proved_inconsistent`. -/
def Work.project (w : Work) (i minVar : Nat) : Logged Formed (Work × Bool) := do
  let res ← projectPlus i minVar w.workRows w.workRows 0 w
  match res.2 with
  | some provedInconsistent => pure (res.1, provedInconsistent)
  | none =>
    let w := res.1.compact (fun w r => decide ((w.work r i : Int) < 0)) minVar
    reportAll ((w.products minVar).map .wide)
    pure (w.elimSimpleRedundant minVar, false)

/-! ## The inner loop -/

/-- A row without unknowns that holds. -/
structure Row.Vacuous (q : Row) : Prop where
  coeff : ∀ j < q.coeffs.length, q.coeff j = 0
  rhs : 0 ≤ q.rhs

/-- A row without unknowns that fails. -/
structure Row.Absurd (q : Row) : Prop where
  coeff : ∀ j < q.coeffs.length, q.coeff j = 0
  rhs : q.rhs < 0

/-- The arrays after `plus` met the rows `lo` to `hi - 1`. -/
structure MetMinuses (w : Work) (i plus minVar lo hi : Nat) (res : Work × Bool) : Prop where
  cols : res.1.workCols = w.workCols
  rows : w.workRows ≤ res.1.workRows
  zero : res.1.ZeroBefore minVar
  old : ∀ r < w.workRows, res.1.work r = w.work r ∧ res.1.workConst r = w.workConst r
  new : ∀ r, w.workRows ≤ r → r < res.1.workRows → ∃ m < w.workRows, (w.work m i : Int) < 0 ∧
    res.1.leRow r = Row.combine i (w.leRow plus) (w.leRow m)
  met : res.2 = false → ∀ m, lo ≤ m → m < hi → (w.work m i : Int) < 0 →
    Row.combine i (w.leRow plus) (w.leRow m) ∈ res.1.les ∨ (Row.combine i (w.leRow plus) (w.leRow m)).Vacuous
  absurd : res.2 = true → ∃ m < w.workRows, (w.work m i : Int) < 0 ∧ (Row.combine i (w.leRow plus) (w.leRow m)).Absurd

theorem leRow_of_old {w w' : Work} {r : Nat} (hcols : w'.workCols = w.workCols)
    (h : w'.work r = w.work r ∧ w'.workConst r = w.workConst r) : w'.leRow r = w.leRow r :=
  leRow_congr hcols (fun j _ => by rw [h.1]) h.2

/-- One lower bound. -/
theorem elimOne_met {w : Work} {i plus minus minVar : Nat} (hi : i < w.workCols) (hzero : w.ZeroBefore minVar)
    (hplus : plus < w.workRows) (hminus : minus < w.workRows) (hp : 0 < (w.work plus i : Int))
    (hm : (w.work minus i : Int) < 0) :
    Yields Formed.Fits (w.elimOne i plus minus minVar) (MetMinuses w i plus minVar minus (minus + 1)) := by
  have hmin : minVar ≤ i := by
    by_contra hlt
    rw [hzero plus hplus i (by omega) hi] at hp
    exact absurd hp (lt_irrefl 0)
  refine (elimOne_eliminated hmin hi hp hm).mono fun res ⟨hfit, h⟩ => ?_
  have hrow := h.newRow hi hplus hminus hzero hp hm hfit
  have honly : ∀ m, minus ≤ m → m < minus + 1 → m = minus := fun m _ _ => by omega
  -- the coefficients of the new row, also in terms of the combination
  have hcoeff : ∀ j < w.workCols, (Row.combine i (w.leRow plus) (w.leRow minus)).coeff j = res.1.work w.workRows j := by
    intro j hj
    rw [← hrow]
    exact coeff_leRow res.1 w.workRows (h.cols.symm ▸ hj)
  have hrhs : (Row.combine i (w.leRow plus) (w.leRow minus)).rhs = res.1.workConst w.workRows := by
    rw [← hrow]
    rfl
  rcases h.outcome with ⟨hrows, hinc⟩ | ⟨hrows, hvars, hinc⟩
  · refine ⟨h.cols, by omega, fun r hr c hc hcc => ?_, h.old, fun r h1 h2 => ?_, fun _ m h1 h2 _ => ?_, fun htrue => ?_⟩
    · rcases Nat.lt_or_ge r w.workRows with hlt | hge
      · rw [(h.old r hlt).1]
        exact hzero r hlt c hc (h.cols ▸ hcc)
      · rw [show r = w.workRows by omega]
        exact h.before c hc
    · rw [show r = w.workRows by omega]
      exact ⟨minus, hminus, hm, hrow⟩
    · rw [honly m h1 h2]
      exact Or.inl ⟨w.workRows, by omega, hrow⟩
    · rw [hinc] at htrue
      exact absurd htrue Bool.false_ne_true
  · have hnull : ∀ j < (Row.combine i (w.leRow plus) (w.leRow minus)).coeffs.length,
        (Row.combine i (w.leRow plus) (w.leRow minus)).coeff j = 0 := by
      intro j hj
      rw [length_combine, length_leRow] at hj
      rw [hcoeff j hj]
      by_cases hjmin : j < minVar
      · exact h.before j hjmin
      · exact hvars j (not_lt.1 hjmin) hj
    refine ⟨h.cols, by omega, fun r hr c hc hcc => ?_, h.old, fun r h1 h2 => by omega, fun hfalse m h1 h2 _ => ?_, fun htrue => ?_⟩
    · have hlt : r < w.workRows := by omega
      rw [(h.old r hlt).1]
      exact hzero r hlt c hc (h.cols ▸ hcc)
    · rw [honly m h1 h2]
      refine Or.inr ⟨hnull, ?_⟩
      rw [hrhs]
      refine not_lt.1 fun hneg => ?_
      rw [hinc.2 hneg] at hfalse
      exact absurd hfalse.symm Bool.false_ne_true
    · refine ⟨minus, hminus, hm, hnull, ?_⟩
      rw [hrhs]
      exact hinc.1 htrue

theorem MetMinuses.new_zero {w : Work} {i plus minVar lo hi : Nat} {res : Work × Bool}
    (h : MetMinuses w i plus minVar lo hi res) (hi' : i < w.workCols) (hp : 0 < (w.work plus i : Int)) {r : Nat}
    (h1 : w.workRows ≤ r) (h2 : r < res.1.workRows) : (res.1.work r i : Int) = 0 := by
  obtain ⟨m, -, -, heq⟩ := h.new r h1 h2
  rw [← coeff_leRow res.1 r (h.cols.symm ▸ hi'), heq]
  refine coeff_combine_self ?_ ?_
  · rw [length_leRow]
    exact hi'
  · rw [coeff_leRow w plus hi']
    exact hp

/-- One more lower bound, then the rest. -/
theorem MetMinuses.trans {w : Work} {i plus minVar lo mid hi : Nat} {r₁ r₂ : Work × Bool} (hplus : plus < w.workRows)
    (hi' : i < w.workCols) (hp : 0 < (w.work plus i : Int)) (hhi : hi ≤ w.workRows)
    (h₁ : MetMinuses w i plus minVar lo mid r₁) (hinc : r₁.2 = false) (h₂ : MetMinuses r₁.1 i plus minVar mid hi r₂) :
    MetMinuses w i plus minVar lo hi r₂ := by
  have hle := h₁.rows
  have hneg : ∀ r, w.workRows ≤ r → r < r₁.1.workRows → ¬ (r₁.1.work r i : Int) < 0 := fun r h1 h2 => by
    rw [h₁.new_zero hi' hp h1 h2]
    exact lt_irrefl 0
  have hrow : ∀ r < w.workRows, r₁.1.leRow r = w.leRow r := fun r hr => leRow_of_old h₁.cols (h₁.old r hr)
  have hrow₂ : ∀ r < r₁.1.workRows, r₂.1.leRow r = r₁.1.leRow r := fun r hr => leRow_of_old h₂.cols (h₂.old r hr)
  have hwork : ∀ m < w.workRows, r₁.1.work m i = w.work m i := fun m hm => by rw [(h₁.old m hm).1]
  refine ⟨h₂.cols.trans h₁.cols, h₁.rows.trans h₂.rows, h₂.zero, fun r hr => ?_, fun r h1 h2 => ?_,
    fun hfalse m h1 h2 hm => ?_, fun htrue => ?_⟩
  · obtain ⟨ha, hb⟩ := h₂.old r (by omega)
    exact ⟨ha.trans (h₁.old r hr).1, hb.trans (h₁.old r hr).2⟩
  · rcases Nat.lt_or_ge r r₁.1.workRows with hlt | hge
    · rw [hrow₂ r hlt]
      exact h₁.new r h1 hlt
    · obtain ⟨m, hm, hmneg, heq⟩ := h₂.new r hge h2
      have hmw : m < w.workRows := by
        by_contra hge'
        exact hneg m (by omega) hm hmneg
      rw [hrow plus hplus, hrow m hmw] at heq
      exact ⟨m, hmw, (hwork m hmw) ▸ hmneg, heq⟩
  · rcases Nat.lt_or_ge m mid with hlt | hge
    · rcases h₁.met hinc m h1 hlt hm with ⟨r, hr, hq⟩ | hvac
      · exact Or.inl ⟨r, hr.trans_le h₂.rows, (hrow₂ r hr).trans hq⟩
      · exact Or.inr hvac
    · have hmet := h₂.met hfalse m hge h2 (by rw [hwork m (by omega)]; exact hm)
      rwa [hrow plus hplus, hrow m (by omega)] at hmet
  · obtain ⟨m, hm, hmneg, habs⟩ := h₂.absurd htrue
    have hmw : m < w.workRows := by
      by_contra hge'
      exact hneg m (by omega) hm hmneg
    rw [hrow plus hplus, hrow m hmw] at habs
    exact ⟨m, hmw, (hwork m hmw) ▸ hmneg, habs⟩

/-- `plus` meets every lower bound among the `k` rows from `minus` on. -/
theorem elimMinuses_met {i plus minVar : Nat} (k : Nat) : ∀ (minus : Nat) (w : Work), i < w.workCols →
    w.ZeroBefore minVar → plus < w.workRows → 0 < (w.work plus i : Int) → minus + k ≤ w.workRows →
    Yields Formed.Fits (elimMinuses i plus minVar k minus w) (MetMinuses w i plus minVar minus (minus + k)) := by
  induction k with
  | zero =>
    intro minus w _ hzero _ _ _
    refine yields_pure ⟨rfl, le_rfl, hzero, fun _ _ => ⟨rfl, rfl⟩, fun r h1 h2 => ?_, fun _ m h1 h2 => ?_, fun h => ?_⟩
    · exact absurd h2 (not_lt.2 h1)
    · omega
    · exact absurd h Bool.false_ne_true
  | succ k ih =>
    intro minus w hi hzero hplus hp hle
    rw [elimMinuses]
    by_cases hm : (w.work minus i : Int) < 0
    · rw [if_pos hm]
      refine (elimOne_met hi hzero hplus (by omega) hp hm).bind fun res h => ?_
      cases hinc : res.2 with
      | true =>
        rw [if_pos rfl]
        refine yields_pure ⟨h.cols, h.rows, h.zero, h.old, h.new, fun hf => absurd hf.symm Bool.false_ne_true, fun _ => h.absurd hinc⟩
      | false =>
        rw [if_neg Bool.false_ne_true]
        have hold := h.old plus hplus
        refine (ih (minus + 1) res.1 (h.cols.symm ▸ hi) h.zero (hplus.trans_le h.rows) (by rw [hold.1]; exact hp)
          (by have := h.rows; omega)).mono fun res₂ h₂ => ?_
        rw [show minus + (k + 1) = minus + 1 + k by omega]
        exact h.trans hplus hi hp (by omega) hinc h₂
    · rw [if_neg hm]
      refine (ih (minus + 1) w hi hzero hplus hp (by omega)).mono fun res h => ?_
      refine ⟨h.cols, h.rows, h.zero, h.old, h.new, fun hf m h1 h2 hneg => ?_, h.absurd⟩
      rcases Nat.eq_or_lt_of_le h1 with rfl | hlt
      · exact absurd hneg hm
      · exact h.met hf m hlt (by omega) hneg

/-! ## The outer loop -/

theorem erase_rows {w : Work} {r minVar : Nat} (hr : r < w.workRows) (hzero : w.ZeroBefore minVar) :
    (w.erase r minVar).workCols = w.workCols ∧ (w.erase r minVar).workRows = w.workRows - 1 ∧
    (w.erase r minVar).ZeroBefore minVar ∧
    ∀ s < w.workRows - 1, (w.erase r minVar).leRow s = w.leRow (if s = r then w.workRows - 1 else s) := by
  rw [Work.erase]
  by_cases hlast : r ≠ w.workRows - 1
  · rw [if_pos hlast]
    refine ⟨rfl, rfl, fun s hs => ?_, fun s hs => ?_⟩
    · have hs : s < w.workRows - 1 := hs
      exact zeroBefore_copyRow w (show w.workRows - 1 < w.workRows by omega) hzero s (show s < w.workRows by omega)
    · by_cases hsr : s = r
      · rw [if_pos hsr, hsr]
        exact leRow_copyRow_self w hr (by omega) hzero
      · rw [if_neg hsr]
        exact leRow_copyRow_of_ne w hsr
  · rw [if_neg hlast]
    refine ⟨rfl, rfl, fun s hs => ?_, fun s hs => ?_⟩
    · have hs : s < w.workRows - 1 := hs
      exact hzero s (by omega)
    · rw [if_neg (by omega)]
      rfl

theorem mem_les_erase {w : Work} {r minVar : Nat} (hr : r < w.workRows) (hzero : w.ZeroBefore minVar) (q : Row) :
    q ∈ (w.erase r minVar).les ↔ ∃ s < w.workRows, s ≠ r ∧ w.leRow s = q := by
  obtain ⟨-, hrows, -, hrow⟩ := erase_rows hr hzero
  constructor
  · rintro ⟨s, hs, rfl⟩
    rw [hrows] at hs
    rw [hrow s hs]
    split_ifs with hsr
    · exact ⟨_, by omega, by omega, rfl⟩
    · exact ⟨s, by omega, hsr, rfl⟩
  · rintro ⟨s, hs, hsr, rfl⟩
    by_cases hlast : s = w.workRows - 1
    · refine ⟨r, by omega, ?_⟩
      rw [hrow r (by omega), if_pos rfl, hlast]
    · refine ⟨s, by omega, ?_⟩
      rw [hrow s (by omega), if_neg hsr]

/-- The rows `L` while the upper bounds of `S` are replaced by their combinations with the lower bounds. -/
structure Eliminating (S : Set Row) (i : Nat) (L : Set Row) : Prop where
  origin : ∀ q ∈ L, q ∈ S ∨ ∃ p ∈ S, ∃ m ∈ S, 0 < p.coeff i ∧ m.coeff i < 0 ∧ q = Row.combine i p m
  keep : ∀ q ∈ S, q.coeff i ≤ 0 → q ∈ L
  pos : ∀ p ∈ S, 0 < p.coeff i →
    p ∈ L ∨ ∀ m ∈ S, m.coeff i < 0 → Row.combine i p m ∈ L ∨ (Row.combine i p m).Vacuous

/-- Between two rounds: the rows before `plus` are no upper bounds, those from `undone` on are new and without the unknown. -/
structure Projecting (S : Set Row) (n i minVar : Nat) (w : Work) (undone plus : Nat) : Prop where
  cols : w.workCols = n
  zero : w.ZeroBefore minVar
  le : undone ≤ w.workRows
  done : ∀ r < plus, r < w.workRows → (w.work r i : Int) ≤ 0
  new : ∀ r, undone ≤ r → r < w.workRows → (w.work r i : Int) = 0
  rows : Eliminating S i w.les

section Rounds

variable {S : Set Row} {n i minVar : Nat}

theorem Eliminating.mem_of_ne {L : Set Row} (h : Eliminating S i L) (hS : ∀ q ∈ S, q.coeffs.length = n) (hi : i < n)
    {q : Row} (hq : q ∈ L) (hne : q.coeff i ≠ 0) : q ∈ S := by
  rcases h.origin q hq with hmem | ⟨p, hp, m, -, hpos, -, rfl⟩
  · exact hmem
  · exact absurd (coeff_combine_self (by rw [hS p hp]; exact hi) hpos) hne

/-- One upper bound met all lower bounds and is erased. -/
theorem Eliminating.round {w w₁ : Work} {plus undone : Nat} (hS : ∀ q ∈ S, q.coeffs.length = n) (hi : i < n)
    (h : Projecting S n i minVar w undone plus) (hplus : plus < undone) (hp : 0 < (w.work plus i : Int))
    (hmet : MetMinuses w i plus minVar 0 undone (w₁, false)) : Eliminating S i (w₁.erase plus minVar).les := by
  have hcols := h.cols
  have hicols : i < w.workCols := by omega
  have hle := h.le
  have hrows : w.workRows ≤ w₁.workRows := hmet.rows
  have hcoeff : ∀ r, (w.leRow r).coeff i = w.work r i := fun r => coeff_leRow w r hicols
  have hrow : ∀ r < w.workRows, w₁.leRow r = w.leRow r := fun r hr => leRow_of_old hmet.cols (hmet.old r hr)
  have hmem := fun q => mem_les_erase (show plus < w₁.workRows by omega) hmet.zero q
  have hpS : w.leRow plus ∈ S :=
    h.rows.mem_of_ne hS hi ⟨plus, by omega, rfl⟩ (by rw [hcoeff]; exact hp.ne')
  -- a row of the old arrays other than an upper bound is still there
  have hstay : ∀ q ∈ w.les, q.coeff i ≤ 0 → q ∈ (w₁.erase plus minVar).les := by
    rintro q ⟨r, hr, rfl⟩ hcq
    refine (hmem _).2 ⟨r, by omega, ?_, hrow r hr⟩
    rintro rfl
    rw [hcoeff] at hcq
    omega
  refine ⟨fun q hq => ?_, fun q hq hcq => hstay q (h.rows.keep q hq hcq) hcq, fun p hpS' hpos => ?_⟩
  · obtain ⟨r, hr, -, rfl⟩ := (hmem q).1 hq
    rcases Nat.lt_or_ge r w.workRows with hlt | hge
    · rw [hrow r hlt]
      exact h.rows.origin _ ⟨r, hlt, rfl⟩
    · obtain ⟨m, hm, hneg, heq⟩ := hmet.new r hge hr
      have hmS : w.leRow m ∈ S := h.rows.mem_of_ne hS hi ⟨m, hm, rfl⟩ (by rw [hcoeff]; exact hneg.ne)
      exact Or.inr ⟨_, hpS, _, hmS, by rw [hcoeff]; exact hp, by rw [hcoeff]; exact hneg, heq⟩
  · have hcombine : ∀ m, (Row.combine i p m).coeff i ≤ 0 := fun m =>
      (coeff_combine_self (by rw [hS p hpS']; exact hi) hpos).le
    rcases h.rows.pos p hpS' hpos with ⟨r, hr, hrp⟩ | hall
    · by_cases hrplus : r = plus
      · refine Or.inr fun m hmS hneg => ?_
        obtain ⟨s, hs, hsm⟩ := h.rows.keep m hmS hneg.le
        have hsneg : (w.work s i : Int) < 0 := by
          rw [← hcoeff, hsm]
          exact hneg
        have hsu : s < undone := by
          by_contra hge
          rw [h.new s (by omega) hs] at hsneg
          exact absurd hsneg (lt_irrefl 0)
        have hcase := hmet.met rfl s (Nat.zero_le s) hsu hsneg
        rw [← hrplus, hrp, hsm] at hcase
        rcases hcase with ⟨t, ht, hteq⟩ | hvac
        · refine Or.inl ((hmem _).2 ⟨t, ht, ?_, hteq⟩)
          rintro rfl
          have hcomb := hcombine m
          rw [← hteq, hrow t (by omega), hcoeff] at hcomb
          omega
        · exact Or.inr hvac
      · exact Or.inl ((hmem p).2 ⟨r, by omega, hrplus, (hrow r hr).trans hrp⟩)
    · refine Or.inr fun m hmS hneg => ?_
      rcases hall m hmS hneg with hin | hvac
      · exact Or.inl (hstay _ hin (hcombine m))
      · exact Or.inr hvac

/-- The invariant after the round. -/
theorem Projecting.round {w w₁ : Work} {plus undone : Nat} (hS : ∀ q ∈ S, q.coeffs.length = n) (hi : i < n)
    (h : Projecting S n i minVar w undone plus) (hplus : plus < undone) (hp : 0 < (w.work plus i : Int))
    (hmet : MetMinuses w i plus minVar 0 undone (w₁, false)) {undone' plus' : Nat}
    (hnext : (undone', plus') = if undone = w₁.workRows then (undone - 1, plus) else
      if plus ≠ w₁.workRows - 1 then (undone, plus + 1) else (undone, plus)) :
    Projecting S n i minVar (w₁.erase plus minVar) undone' plus' ∧ undone' - plus' < undone - plus := by
  have hcols := h.cols
  have hle := h.le
  have hrows : w.workRows ≤ w₁.workRows := hmet.rows
  have hplus₁ : plus < w₁.workRows := by omega
  obtain ⟨hcolsE, hrowsE, hzeroE, hrowE⟩ := erase_rows hplus₁ hmet.zero
  have hicols₁ : i < w₁.workCols := hmet.cols.symm ▸ hcols.symm ▸ hi
  have hworkE : ∀ s < w₁.workRows - 1, ((w₁.erase plus minVar).work s i : Int) =
      w₁.work (if s = plus then w₁.workRows - 1 else s) i := by
    intro s hs
    have hc : Row.coeff _ i = Row.coeff _ i := congrArg (fun q => Row.coeff q i) (hrowE s hs)
    rwa [coeff_leRow _ _ (hcolsE.symm ▸ hicols₁), coeff_leRow _ _ hicols₁] at hc
  have hdone₁ : ∀ r < plus, (w₁.work r i : Int) ≤ 0 := fun r hr => by
    rw [(hmet.old r (by omega)).1]
    exact h.done r hr (by omega)
  have hnew₁ : ∀ r, undone ≤ r → r < w₁.workRows → (w₁.work r i : Int) = 0 := by
    intro r h1 h2
    rcases Nat.lt_or_ge r w.workRows with hlt | hge
    · rw [(hmet.old r hlt).1]
      exact h.new r h1 hlt
    · exact hmet.new_zero (by omega) hp hge h2
  have hE := Eliminating.round hS hi h hplus hp hmet
  by_cases hall : undone = w₁.workRows
  · rw [if_pos hall, Prod.mk.injEq] at hnext
    obtain ⟨rfl, rfl⟩ := hnext
    refine ⟨⟨hcolsE.trans (hmet.cols.trans hcols), hzeroE, by omega, fun r hr hrE => ?_, fun r h1 h2 => by omega, hE⟩, by omega⟩
    rw [hworkE r (by omega), if_neg hr.ne]
    exact hdone₁ r hr
  · rw [if_neg hall, if_pos (by omega), Prod.mk.injEq] at hnext
    obtain ⟨rfl, rfl⟩ := hnext
    refine ⟨⟨hcolsE.trans (hmet.cols.trans hcols), hzeroE, by omega, fun r hr hrE => ?_, fun r h1 h2 => ?_, hE⟩, by omega⟩
    · rw [hworkE r (by omega)]
      split_ifs with hrp
      · exact (hnew₁ _ (by omega) (by omega)).le
      · exact hdone₁ r (by omega)
    · rw [hworkE r (by omega), if_neg (by omega)]
      exact hnew₁ r h1 (by omega)

/-- What the outer loop comes to: a contradiction, or no upper bound is left. -/
structure PlusesDone (S : Set Row) (n i minVar : Nat) (res : Work × Option Bool) : Prop where
  cols : res.1.workCols = n
  zero : res.2 ≠ some true → res.1.ZeroBefore minVar
  rows : res.2 ≠ some true → Eliminating S i res.1.les ∧ ∀ q ∈ res.1.les, q.coeff i ≤ 0
  empty : res.2 = some false → res.1.les = ∅
  absurd : res.2 = some true → ∃ p ∈ S, ∃ m ∈ S, 0 < p.coeff i ∧ m.coeff i < 0 ∧ (Row.combine i p m).Absurd

theorem projectPlus_done (hS : ∀ q ∈ S, q.coeffs.length = n) (hi : i < n) (k : Nat) : ∀ (undone plus : Nat) (w : Work),
    undone - plus ≤ k → Projecting S n i minVar w undone plus →
    Yields Formed.Fits (projectPlus i minVar k undone plus w) (PlusesDone S n i minVar) := by
  -- the loop condition fails
  have hexit : ∀ (undone plus : Nat) (w : Work), undone ≤ plus → Projecting S n i minVar w undone plus →
      PlusesDone S n i minVar (w, none) := by
    intro undone plus w hle h
    refine ⟨h.cols, fun _ => h.zero, fun _ => ⟨h.rows, ?_⟩, fun he => ?_, fun he => ?_⟩
    · rintro q ⟨r, hr, rfl⟩
      rw [coeff_leRow w r (h.cols.symm ▸ hi)]
      rcases Nat.lt_or_ge r plus with hlt | hge
      · exact h.done r hlt hr
      · exact (h.new r (by omega) hr).le
    · exact absurd he.symm (Option.some_ne_none _)
    · exact absurd he.symm (Option.some_ne_none _)
  induction k with
  | zero =>
    intro undone plus w hk h
    exact yields_pure (hexit undone plus w (by omega) h)
  | succ k ih =>
    intro undone plus w hk h
    rw [projectPlus]
    by_cases hplus : plus < undone
    swap
    · rw [if_neg hplus]
      exact yields_pure (hexit undone plus w (by omega) h)
    rw [if_pos hplus]
    have hicols : i < w.workCols := h.cols.symm ▸ hi
    have hle := h.le
    by_cases hp : 0 < (w.work plus i : Int)
    swap
    · rw [if_neg hp]
      refine ih undone (plus + 1) w (by omega) ⟨h.cols, h.zero, h.le, fun r hr hrw => ?_, h.new, h.rows⟩
      rcases Nat.lt_succ_iff_lt_or_eq.1 hr with hlt | rfl
      · exact h.done r hlt hrw
      · exact not_lt.1 hp
    rw [if_pos hp]
    refine (elimMinuses_met undone 0 w hicols h.zero (by omega) hp (by omega)).bind fun res hmet => ?_
    rw [Nat.zero_add] at hmet
    cases hinc : res.2 with
    | true =>
      rw [if_pos rfl]
      refine yields_pure ⟨hmet.cols.trans h.cols, fun hne => absurd rfl hne, fun hne => absurd rfl hne, fun he => ?_, fun _ => ?_⟩
      · exact absurd (Option.some.inj he).symm Bool.false_ne_true
      · obtain ⟨m, hm, hneg, habs⟩ := hmet.absurd hinc
        have hcoeff : ∀ r, (w.leRow r).coeff i = w.work r i := fun r => coeff_leRow w r hicols
        refine ⟨w.leRow plus, ?_, w.leRow m, ?_, by rw [hcoeff]; exact hp, by rw [hcoeff]; exact hneg, habs⟩
        · exact h.rows.mem_of_ne hS hi ⟨plus, by omega, rfl⟩ (by rw [hcoeff]; exact hp.ne')
        · exact h.rows.mem_of_ne hS hi ⟨m, hm, rfl⟩ (by rw [hcoeff]; exact hneg.ne)
    | false =>
      rw [if_neg Bool.false_ne_true]
      have hmet' : MetMinuses w i plus minVar 0 undone (res.1, false) := hinc ▸ hmet
      obtain ⟨hround, hlt⟩ := h.round hS hi hplus hp hmet' Prod.mk.eta
      by_cases hempty : (res.1.erase plus minVar).workRows = 0
      · rw [if_pos hempty]
        have hles : (res.1.erase plus minVar).les = ∅ := by
          ext q
          refine iff_of_false ?_ (Set.notMem_empty q)
          rintro ⟨r, hr, -⟩
          omega
        refine yields_pure ⟨hround.cols, fun _ => hround.zero, fun _ => ⟨hround.rows, fun q hq => ?_⟩, fun _ => hles, fun he => ?_⟩
        · rw [hles] at hq
          exact absurd hq (Set.notMem_empty q)
        · exact absurd (Option.some.inj he) Bool.false_ne_true
      · rw [if_neg hempty]
        exact ih _ _ _ (by omega) hround

end Rounds

/-! ## Rational solutions -/

section Rational

variable {K : Type*} [Field K] [LinearOrder K] [IsStrictOrderedRing K]

theorem Row.Vacuous.holds {q : Row} (h : q.Vacuous) (x : Nat → K) : q.Holds x := by
  rw [Row.Holds, dot_eq_zero h.coeff]
  exact Int.cast_nonneg h.rhs

theorem Row.Absurd.not_holds {q : Row} (h : q.Absurd) (x : Nat → K) : ¬ q.Holds x := by
  rw [Row.Holds, dot_eq_zero h.coeff, not_le]
  exact Int.cast_lt_zero.2 h.rhs

/-- The unknown has a value just when the rows without it hold, and the combinations of its bounds. -/
theorem exists_update_iff (w : Work) {i : Nat} (hi : i < w.workCols) (x : Nat → K) :
    (∃ t, w.Holds (Function.update x i t)) ↔ (∀ q ∈ w.les, q.coeff i = 0 → q.Holds x) ∧
      ∀ p ∈ w.les, ∀ m ∈ w.les, 0 < p.coeff i → m.coeff i < 0 → (Row.combine i p m).Holds x := by
  have hlen : ∀ r, (w.leRow r).coeffs.length = w.workCols := length_leRow w
  have hsystem : ∀ t, w.Holds (Function.update x i t) ↔
      ∀ r ∈ range w.workRows, ((w.leRow r).coeff i : K) * t ≤ (w.leRow r).rest i x := by
    intro t
    constructor
    · intro h r hr
      exact (holds_update_iff (by rw [hlen]; exact hi) x t).1 (h _ ⟨r, mem_range.1 hr, rfl⟩)
    · rintro h q ⟨r, hr, rfl⟩
      exact (holds_update_iff (by rw [hlen]; exact hi) x t).2 (h r (mem_range.2 hr))
  simp only [hsystem]
  rw [exists_forall_mul_le_iff]
  refine and_congr ?_ ?_
  · constructor
    · rintro h q ⟨r, hr, rfl⟩ hzero
      exact (holds_iff_rest hzero x).2 (h r (mem_range.2 hr) (by rw [hzero, Int.cast_zero]))
    · intro h r hr hzero
      have hzero : (w.leRow r).coeff i = 0 := by exact_mod_cast hzero
      exact (holds_iff_rest hzero x).1 (h _ ⟨r, mem_range.1 hr, rfl⟩ hzero)
  · constructor
    · rintro h p ⟨r, hr, rfl⟩ m ⟨s, hs, rfl⟩ hpos hneg
      rw [holds_combine_iff (by rw [hlen]; exact hi) (by rw [hlen, hlen]) hpos]
      exact h r (mem_range.2 hr) s (mem_range.2 hs) (Int.cast_pos.2 hpos) (Int.cast_lt_zero.2 hneg)
    · intro h r hr s hs hpos hneg
      have hpos : 0 < (w.leRow r).coeff i := Int.cast_pos.1 hpos
      have hneg : (w.leRow s).coeff i < 0 := Int.cast_lt_zero.1 hneg
      rw [← holds_combine_iff (by rw [hlen]; exact hi) (by rw [hlen, hlen]) hpos]
      exact h _ ⟨r, mem_range.1 hr, rfl⟩ _ ⟨s, mem_range.1 hs, rfl⟩ hpos hneg

theorem Eliminating.holds_iff {w : Work} {i : Nat} (hi : i < w.workCols) {L : Set Row} (h : Eliminating w.les i L)
    (hpos : ∀ q ∈ L, q.coeff i ≤ 0) (x : Nat → K) :
    (∀ q ∈ L, q.coeff i = 0 → q.Holds x) ↔ ∃ t, w.Holds (Function.update x i t) := by
  have hlen : ∀ q ∈ w.les, i < q.coeffs.length := by
    rintro q ⟨r, -, rfl⟩
    rw [length_leRow]
    exact hi
  rw [exists_update_iff w hi]
  constructor
  · intro hL
    refine ⟨fun q hq hzero => hL q (h.keep q hq hzero.le) hzero, fun p hp m hm hpPos hmNeg => ?_⟩
    rcases h.pos p hp hpPos with hin | hall
    · exact absurd hpPos (not_lt.2 (hpos p hin))
    · rcases hall m hm hmNeg with hin | hvac
      · exact hL _ hin (coeff_combine_self (hlen p hp) hpPos)
      · exact hvac.holds x
  · rintro ⟨hzero, hpair⟩ q hq hqzero
    rcases h.origin q hq with hmem | ⟨p, hp, m, hm, hpPos, hmNeg, rfl⟩
    · exact hzero q hmem hqzero
    · exact hpair p hp m hm hpPos hmNeg

end Rational

/-- `Project` over the rationals, while what it forms fits where it is stored: if it proves an inconsistency there is no
solution; else the rows left have just the solutions of the old rows without unknown `i`, they are old rows without it or
combinations, and every old row without it is left or one that is at least as tight. -/
theorem project_exact (w : Work) (i minVar : Nat) (hi : i < w.workCols) (hzero : w.ZeroBefore minVar) (w' : Work)
    (provedInconsistent : Bool) (hrun : (w.project i minVar).value = some (w', provedInconsistent))
    (hfits : ∀ c ∈ (w.project i minVar).log, c.Fits) :
    (provedInconsistent = true → ∀ x : Nat → ℚ, ¬ w.Holds x) ∧
    (provedInconsistent = false →
      (∀ x : Nat → ℚ, w'.Holds x ↔ ∃ t, w.Holds (Function.update x i t)) ∧
      (∀ q ∈ w'.les, q.coeff i = 0) ∧
      (∀ q ∈ w'.les, q ∈ w.les ∨
        ∃ p ∈ w.les, ∃ m ∈ w.les, 0 < p.coeff i ∧ m.coeff i < 0 ∧ q = Row.combine i p m) ∧
      ∀ q ∈ w.les, q.coeff i = 0 → ∃ q' ∈ w'.les, q'.Tighter q) := by
  have hS : ∀ q ∈ w.les, q.coeffs.length = w.workCols := by
    rintro q ⟨r, -, rfl⟩
    exact length_leRow w r
  have hstart : Projecting w.les w.workCols i minVar w w.workRows 0 :=
    ⟨rfl, hzero, le_rfl, fun r hr => absurd hr (Nat.not_lt_zero r), fun r h1 h2 => absurd h2 (not_lt.2 h1),
      ⟨fun q hq => Or.inl hq, fun q hq _ => hq, fun p hp _ => Or.inl hp⟩⟩
  refine (projectPlus_done hS hi w.workRows w.workRows 0 w (by omega) hstart).bind
    (R := fun res => (res.2 = true → ∀ x : Nat → ℚ, ¬ w.Holds x) ∧ (res.2 = false →
      (∀ x : Nat → ℚ, res.1.Holds x ↔ ∃ t, w.Holds (Function.update x i t)) ∧
      (∀ q ∈ res.1.les, q.coeff i = 0) ∧
      (∀ q ∈ res.1.les, q ∈ w.les ∨
        ∃ p ∈ w.les, ∃ m ∈ w.les, 0 < p.coeff i ∧ m.coeff i < 0 ∧ q = Row.combine i p m) ∧
      ∀ q ∈ w.les, q.coeff i = 0 → ∃ q' ∈ res.1.les, q'.Tighter q)) (fun res hdone => ?_) hfits _ hrun
  rcases hres : res.2 with _ | _ | _
  · -- no upper bound is left: drop the lower bounds, then what is redundant
    have hne : res.2 ≠ some true := by
      rw [hres]
      exact (Option.some_ne_none _).symm
    obtain ⟨hrows, hpos⟩ := hdone.rows hne
    have hlocal : DropLocal fun w r => decide ((w.work r i : Int) < 0) := fun w₁ w₂ r h => by
      show decide ((w₂.work r i : Int) < 0) = decide ((w₁.work r i : Int) < 0)
      rw [h]
    obtain ⟨hles, hcols, hz⟩ := les_compact hlocal res.1 (hdone.zero hne)
    generalize res.1.compact (fun w r => decide ((w.work r i : Int) < 0)) minVar = c at hles hcols hz ⊢
    have hreport : Yields Formed.Fits (reportAll ((c.products minVar).map .wide)) fun _ =>
        ∀ x ∈ c.products minVar, InInt64 x := yields_reportAll fun hall x hx => hall _ (List.mem_map_of_mem hx)
    refine hreport.bind fun _ hproducts => ?_
    refine yields_pure ⟨fun h => absurd h Bool.false_ne_true, fun _ => ?_⟩
    have hmem : ∀ q, q ∈ c.les ↔ q ∈ res.1.les ∧ q.coeff i = 0 := by
      intro q
      rw [hles]
      constructor
      · rintro ⟨r, hr, hkeep, rfl⟩
        have hge := of_decide_eq_false hkeep
        rw [← coeff_leRow res.1 r (hdone.cols.symm ▸ hi)] at hge
        exact ⟨⟨r, hr, rfl⟩, le_antisymm (hpos _ ⟨r, hr, rfl⟩) (not_lt.1 hge)⟩
      · rintro ⟨⟨r, hr, rfl⟩, hcoeff⟩
        refine ⟨r, hr, decide_eq_false ?_, rfl⟩
        rw [← coeff_leRow res.1 r (hdone.cols.symm ▸ hi), hcoeff]
        exact lt_irrefl 0
    obtain ⟨hsub, -⟩ := les_elimSimpleRedundant c minVar hz
    refine ⟨fun x => ?_, fun q hq => ((hmem q).1 (hsub hq)).2, fun q hq => hrows.origin q ((hmem q).1 (hsub hq)).1,
      fun q hq hcoeff => exists_tighter c minVar hz hproducts q ((hmem q).2 ⟨hrows.keep q hq hcoeff.le, hcoeff⟩)⟩
    rw [holds_elimSimpleRedundant c minVar hz hproducts x, ← hrows.holds_iff hi hpos x]
    constructor
    · exact fun h q hq hcoeff => h q ((hmem q).2 ⟨hq, hcoeff⟩)
    · exact fun h q hq => h q ((hmem q).1 hq).1 ((hmem q).1 hq).2
  · -- no row is left
    refine yields_pure ⟨fun h => absurd h Bool.false_ne_true, fun _ => ?_⟩
    have hne : res.2 ≠ some true := by
      rw [hres]
      exact fun h => Bool.false_ne_true (Option.some.inj h)
    obtain ⟨hrows, hpos⟩ := hdone.rows hne
    have hempty := hdone.empty hres
    refine ⟨fun x => ?_, fun q hq => ?_, fun q hq => hrows.origin q hq, fun q hq hcoeff => ?_⟩
    · rw [← hrows.holds_iff hi hpos x]
      exact ⟨fun h q hq _ => h q hq, fun _ q hq => absurd hq (hempty ▸ Set.notMem_empty q)⟩
    · exact absurd hq (hempty ▸ Set.notMem_empty q)
    · exact absurd (hrows.keep q hq hcoeff.le) (hempty ▸ Set.notMem_empty q)
  · -- a combination failed
    refine yields_pure ⟨fun _ x hx => ?_, fun h => absurd h.symm Bool.false_ne_true⟩
    obtain ⟨p, hp, m, hm, hpPos, hmNeg, habs⟩ := hdone.absurd hres
    refine habs.not_holds x (((exists_update_iff w hi x).1 ⟨x i, ?_⟩).2 p hp m hm hpPos hmNeg)
    rw [Function.update_eq_self]
    exact hx

/-- Arrays with the given inequalities. -/
def Work.ofLes (cols : Nat) (rows : List (List Int × Int)) : Work where
  work := fun r c => MInt32.ofInt ((rows.getD r ([], 0)).1.getD c 0)
  workConst := fun r => (rows.getD r ([], 0)).2
  workRows := rows.length
  workEq := fun _ _ => MInt32.ofInt 0
  workConstEq := fun _ => 0
  workRowsEq := 0
  workCols := cols

/-- `x <= 3` and `y - x <= 0`: eliminating `x` leaves the values of `y` with some `x`. -/
theorem project_exact_pair : ∃ w', ((Work.ofLes 2 [([1, 0], 3), ([-1, 1], 0)]).project 0 0).value = some (w', false) ∧
    ∀ x : Nat → ℚ, w'.Holds x ↔ ∃ t, (Work.ofLes 2 [([1, 0], 3), ([-1, 1], 0)]).Holds (Function.update x 0 t) := by
  have hrun : ((Work.ofLes 2 [([1, 0], 3), ([-1, 1], 0)]).project 0 0).value.map (fun res => res.2) = some false := by decide
  obtain ⟨⟨w', inc⟩, hval, hinc⟩ := Option.map_eq_some_iff.1 hrun
  obtain rfl : inc = false := hinc
  refine ⟨w', hval, ((project_exact _ 0 0 (by decide) ?_ w' false hval (by decide)).2 rfl).1⟩
  exact fun r hr c hc => absurd hc (Nat.not_lt_zero c)

/-- `y <= 1` and `y <= 2`, neither with `x`: the second does not survive the elimination of `x`. And where `x <= 0` and
`-x <= -1` are found inconsistent, rows with `x` are left. -/
theorem project_drops_row :
    (∃ w', ((Work.ofLes 2 [([0, 1], 1), ([0, 1], 2)]).project 0 0).value = some (w', false) ∧
      ∃ q ∈ (Work.ofLes 2 [([0, 1], 1), ([0, 1], 2)]).les, q.coeff 0 = 0 ∧ q ∉ w'.les) ∧
    ∃ w', ((Work.ofLes 1 [([1], 0), ([-1], -1)]).project 0 0).value = some (w', true) ∧ ∃ q ∈ w'.les, q.coeff 0 ≠ 0 := by
  constructor
  · have hrun : ((Work.ofLes 2 [([0, 1], 1), ([0, 1], 2)]).project 0 0).value.map
        (fun res => (res.1.workRows, (res.1.leRow 0).rhs, res.2)) = some (1, 1, false) := by decide
    obtain ⟨⟨w', inc⟩, hval, hres⟩ := Option.map_eq_some_iff.1 hrun
    obtain ⟨hrows, hrhs, hinc⟩ : w'.workRows = 1 ∧ (w'.leRow 0).rhs = 1 ∧ inc = false := by simpa using hres
    refine ⟨w', by rw [hval, hinc], ⟨[0, 1], 2⟩, ⟨1, by decide, by decide⟩, rfl, ?_⟩
    rintro ⟨r, hr, hq⟩
    have hr0 : r = 0 := by omega
    rw [← hr0, hq] at hrhs
    exact absurd hrhs (by decide)
  · have hrun : ((Work.ofLes 1 [([1], 0), ([-1], -1)]).project 0 0).value.map
        (fun res => (res.1.workRows, (res.1.leRow 0).coeff 0, res.2)) = some (2, 1, true) := by decide
    obtain ⟨⟨w', inc⟩, hval, hres⟩ := Option.map_eq_some_iff.1 hrun
    obtain ⟨hrows, hcoeff, hinc⟩ : w'.workRows = 2 ∧ (w'.leRow 0).coeff 0 = 1 ∧ inc = true := by simpa using hres
    refine ⟨w', by rw [hval, hinc], w'.leRow 0, ⟨0, by omega, rfl⟩, ?_⟩
    rw [hcoeff]
    exact one_ne_zero

end Path64.Soe

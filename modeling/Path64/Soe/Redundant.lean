import Path64.Lib.Dominated
import Path64.Lib.Gcd
import Path64.Soe.Work

/-!
# Simple redundancies

`Is_Simple_Redundant`, `Simple_Redundant` and `Elim_Simple_Redundant` of `be/lno/soe.cxx`: of two inequalities that are
multiples of each other the less tight one is redundant.

* `findMultiple` : the loop over the columns; `commonMultiple_eq_some_iff` : it finds the first coefficients of proportional rows;
* `verdictSound_iff` : a verdict in terms of the bounds at the integer points;
* `holds_elimSimpleRedundant` : dropping the redundant rows changes no solution;
* `redundancy_sound_iff` : which verdicts hold at the integer points.
-/

namespace Path64.Soe

open Lib Finset

/-! ## The two tests -/

/-- The loop over `k` columns from `col` on. The state is `none` while `has_multiple` is `FALSE`, then `(mult_n, mult_d)`; the
result is `none` for `return 0`. The products are 64-bit ones of 32-bit values and exact. -/
def findMultiple (row1 row2 : Nat → MInt32) : Nat → Nat → Option (Int × Int) → Option (Option (Int × Int))
  | 0, _, mult => some mult
  | k + 1, col, mult =>
    if (row1 col : Int) = 0 then
      if (row2 col : Int) ≠ 0 then none else findMultiple row1 row2 k (col + 1) mult
    else if (row2 col : Int) = 0 then none
    else
      match mult with
      | some (multN, multD) =>
        if multN * row2 col ≠ multD * row1 col then none else findMultiple row1 row2 k (col + 1) mult
      | none =>
        if ((row1 col : Int) < 0) ≠ ((row2 col : Int) < 0) then none
        else findMultiple row1 row2 k (col + 1) (some (row1 col, row2 col))

/-- The part the two tests share: `mult_n` and `mult_d`, `1` where both rows are zero, unless a test returns `0`. The
constants are meant to fit in 32 bits, but `abs` is that of an `int`, so that no constant fails these tests. -/
def commonMultiple (row1 row2 : Nat → MInt32) (row1c row2c : Int) (minVar cols : Nat) : Option (Int × Int) :=
  match findMultiple row1 row2 (cols - minVar) minVar none with
  | none => none
  | some mult =>
    if absInt row1c > int32Max then none else if absInt row2c > int32Max then none else some (mult.getD (1, 1))

/-- `Is_Simple_Redundant`. -/
def isSimpleRedundant (row1 row2 : Nat → MInt32) (row1c row2c : Int) (minVar cols : Nat) : Nat :=
  match commonMultiple row1 row2 row1c row2c minVar cols with
  | none => 0
  | some (multN, multD) =>
    if multN = multD then
      if row1c ≤ row2c then 2 else 1
    else
      if 0 < multD ∧ wrap64 (multD * row1c) ≤ wrap64 (multN * row2c) ∨
        multD < 0 ∧ wrap64 (multD * row1c) ≥ wrap64 (multN * row2c) then 2 else 1

/-- `Simple_Redundant`: a tie is `3`, and the sign of `mult_d` is not looked at. -/
def simpleRedundant (row1 row2 : Nat → MInt32) (row1c row2c : Int) (minVar cols : Nat) : Nat :=
  match commonMultiple row1 row2 row1c row2c minVar cols with
  | none => 0
  | some (multN, multD) =>
    if multN = multD then
      if row1c < row2c then 2 else if row2c < row1c then 1 else 3
    else
      if wrap64 (multD * row1c) < wrap64 (multN * row2c) then 2
      else if wrap64 (multD * row1c) > wrap64 (multN * row2c) then 1 else 3

/-! ## `Elim_Simple_Redundant` -/

/-- `last_non_zero` of a row, with `k` columns left. -/
def lastNonZero (row : Nat → MInt32) (minVar : Nat) : Nat → Int
  | 0 => -1
  | j + 1 => if minVar ≤ j ∧ (row j : Int) = 0 then lastNonZero row minVar j else j

/-- The comparison of rows `i` and `j`. -/
def Work.redun (w : Work) (minVar i j : Nat) : Nat :=
  if lastNonZero (w.work i) minVar w.workCols = lastNonZero (w.work j) minVar w.workCols then
    isSimpleRedundant (w.work i) (w.work j) (w.workConst i) (w.workConst j) minVar w.workCols
  else 0

/-- The exact products that the comparison of rows `i` and `j` forms. -/
def Work.scaledConsts (w : Work) (minVar i j : Nat) : List Int :=
  match commonMultiple (w.work i) (w.work j) (w.workConst i) (w.workConst j) minVar w.workCols with
  | none => []
  | some (multN, multD) => if multN = multD then [] else [multD * w.workConst i, multN * w.workConst j]

/-- The exact products that `Elim_Simple_Redundant` forms. -/
def Work.products (w : Work) (minVar : Nat) : List Int :=
  (List.range w.workRows).flatMap fun i => (List.range w.workRows).flatMap fun j =>
    if compared (w.redun minVar) w.workRows i j ∧
      lastNonZero (w.work i) minVar w.workCols = lastNonZero (w.work j) minVar w.workCols then w.scaledConsts minVar i j
    else []

/-- `Elim_Simple_Redundant`. -/
def Work.elimSimpleRedundant (w : Work) (minVar : Nat) : Work :=
  w.compact (fun _ r => markAll (w.redun minVar) w.workRows r) minVar

/-! ## Proportional rows -/

/-- The first coefficient that is not zero among `k` from `col` on, `1` if there is none. -/
def lead (row : Nat → MInt32) : Nat → Nat → Int
  | 0, _ => 1
  | k + 1, col => if (row col : Int) = 0 then lead row k (col + 1) else row col

theorem lead_ne_zero (row : Nat → MInt32) (k : Nat) : ∀ col, lead row k col ≠ 0 := by
  induction k with
  | zero => exact fun _ => one_ne_zero
  | succ k ih =>
    intro col
    rw [lead]
    split_ifs with h
    · exact ih _
    · exact h

/-- The rows are multiples of each other by a positive factor on `k` columns from `col` on. -/
structure Proportional (row1 row2 : Nat → MInt32) (k col : Nat) : Prop where
  sign : 0 < lead row1 k col * lead row2 k col
  eq : ∀ j, col ≤ j → j < col + k → lead row1 k col * row2 j = lead row2 k col * row1 j

theorem findMultiple_some {row1 row2 : Nat → MInt32} {multN multD : Int} (hn : multN ≠ 0) (hd : multD ≠ 0) (k : Nat) :
    ∀ col res, findMultiple row1 row2 k col (some (multN, multD)) = some res ↔
      (∀ j, col ≤ j → j < col + k → multN * row2 j = multD * row1 j) ∧ res = some (multN, multD) := by
  induction k with
  | zero =>
    intro col res
    rw [findMultiple, Option.some_inj, eq_comm]
    exact (and_iff_right fun j hj hlt => by omega).symm
  | succ k ih =>
    intro col res
    -- the columns from `col` on are `col` and those from `col + 1` on
    have hsplit : (∀ j, col ≤ j → j < col + (k + 1) → multN * row2 j = multD * row1 j) ↔
        multN * row2 col = multD * row1 col ∧ ∀ j, col + 1 ≤ j → j < col + 1 + k → multN * row2 j = multD * row1 j := by
      refine ⟨fun h => ⟨h col le_rfl (by omega), fun j hj hlt => h j (by omega) (by omega)⟩, fun h j hj hlt => ?_⟩
      rcases Nat.eq_or_lt_of_le hj with rfl | hgt
      · exact h.1
      · exact h.2 j hgt (by omega)
    rw [findMultiple, hsplit]
    by_cases h1 : (row1 col : Int) = 0
    · rw [if_pos h1, h1, mul_zero]
      by_cases h2 : (row2 col : Int) = 0
      · rw [if_neg (not_not.2 h2), h2, mul_zero, ih]
        exact and_congr_left fun _ => (and_iff_right rfl).symm
      · rw [if_pos h2]
        refine iff_of_false (fun h => absurd h.symm (Option.some_ne_none _)) fun h => ?_
        exact mul_ne_zero hn h2 h.1.1
    · rw [if_neg h1]
      by_cases h2 : (row2 col : Int) = 0
      · rw [if_pos h2, h2, mul_zero]
        refine iff_of_false (fun h => absurd h.symm (Option.some_ne_none _)) fun h => ?_
        exact mul_ne_zero hd h1 h.1.1.symm
      · rw [if_neg h2]
        by_cases heq : multN * row2 col = multD * row1 col
        · rw [if_neg (not_not.2 heq), ih]
          exact and_congr_left fun _ => (and_iff_right heq).symm
        · rw [if_pos heq]
          exact iff_of_false (fun h => absurd h.symm (Option.some_ne_none _)) fun h => heq h.1.1

theorem findMultiple_none {row1 row2 : Nat → MInt32} (k : Nat) : ∀ col,
    (∀ res, findMultiple row1 row2 k col none = some res →
      Proportional row1 row2 k col ∧ res.getD (1, 1) = (lead row1 k col, lead row2 k col)) ∧
    (Proportional row1 row2 k col → ∃ res, findMultiple row1 row2 k col none = some res) := by
  induction k with
  | zero =>
    refine fun col => ⟨fun res h => ?_, fun _ => ⟨none, rfl⟩⟩
    rw [findMultiple, Option.some_inj] at h
    rw [← h]
    exact ⟨⟨one_pos, fun j hj hlt => by omega⟩, rfl⟩
  | succ k ih =>
    intro col
    obtain ⟨ihf, ihb⟩ := ih (col + 1)
    by_cases h1 : (row1 col : Int) = 0
    · by_cases h2 : (row2 col : Int) = 0
      · -- a column of zeros changes nothing
        have hlead1 : lead row1 (k + 1) col = lead row1 k (col + 1) := by rw [lead, if_pos h1]
        have hlead2 : lead row2 (k + 1) col = lead row2 k (col + 1) := by rw [lead, if_pos h2]
        have hiff : Proportional row1 row2 (k + 1) col ↔ Proportional row1 row2 k (col + 1) := by
          constructor
          · intro h
            refine ⟨hlead1 ▸ hlead2 ▸ h.sign, fun j hj hlt => ?_⟩
            rw [← hlead1, ← hlead2]
            exact h.eq j (by omega) (by omega)
          · intro h
            refine ⟨hlead1.symm ▸ hlead2.symm ▸ h.sign, fun j hj hlt => ?_⟩
            rw [hlead1, hlead2]
            rcases Nat.eq_or_lt_of_le hj with rfl | hgt
            · rw [h1, h2, mul_zero, mul_zero]
            · exact h.eq j hgt (by omega)
        rw [findMultiple, if_pos h1, if_neg (not_not.2 h2), hiff, hlead1, hlead2]
        exact ⟨ihf, ihb⟩
      · rw [findMultiple, if_pos h1, if_pos h2]
        refine ⟨fun res h => absurd h.symm (Option.some_ne_none _), fun h => ?_⟩
        have heq := h.eq col le_rfl (by omega)
        rw [h1, mul_zero] at heq
        exact absurd heq (mul_ne_zero (lead_ne_zero _ _ _) h2)
    · have hlead1 : lead row1 (k + 1) col = row1 col := by rw [lead, if_neg h1]
      by_cases h2 : (row2 col : Int) = 0
      · rw [findMultiple, if_neg h1, if_pos h2]
        refine ⟨fun res h => absurd h.symm (Option.some_ne_none _), fun h => ?_⟩
        have heq := h.eq col le_rfl (by omega)
        rw [h2, mul_zero] at heq
        exact absurd heq.symm (mul_ne_zero (lead_ne_zero _ _ _) h1)
      · have hlead2 : lead row2 (k + 1) col = row2 col := by rw [lead, if_neg h2]
        have hsign : ¬ ((row1 col : Int) < 0) ≠ ((row2 col : Int) < 0) ↔ 0 < (row1 col : Int) * row2 col := by
          rw [not_not, mul_pos_iff, eq_iff_iff]
          omega
        rw [findMultiple, if_neg h1, if_neg h2]
        by_cases hs : ((row1 col : Int) < 0) ≠ ((row2 col : Int) < 0)
        · rw [if_pos hs]
          refine ⟨fun res h => absurd h.symm (Option.some_ne_none _), fun h => ?_⟩
          have hpos := h.sign
          rw [hlead1, hlead2] at hpos
          exact absurd hs (hsign.2 hpos)
        · rw [if_neg hs]
          have hsome := @findMultiple_some row1 row2 _ _ h1 h2 k (col + 1)
          refine ⟨fun res h => ?_, fun h => ⟨_, (hsome _).2 ⟨fun j hj hlt => ?_, rfl⟩⟩⟩
          · obtain ⟨heq, hres⟩ := (hsome res).1 h
            rw [hres, hlead1, hlead2]
            refine ⟨⟨?_, fun j hj hlt => ?_⟩, rfl⟩
            · rw [hlead1, hlead2]
              exact hsign.1 hs
            · rw [hlead1, hlead2]
              rcases Nat.eq_or_lt_of_le hj with rfl | hgt
              · exact mul_comm _ _
              · exact heq j hgt (by omega)
          · have heq := h.eq j (by omega) (by omega)
            rwa [hlead1, hlead2] at heq

/-- The multipliers of rows from column `minVar` on. -/
abbrev leadFrom (row : Nat → MInt32) (minVar cols : Nat) : Int := lead row (cols - minVar) minVar

section Verdicts

variable {row1 row2 : Nat → MInt32} {row1c row2c : Int} {minVar cols : Nat}

theorem not_overflow (x : Int) : ¬ absInt x > int32Max := by
  have hlt := absInt_lt x
  unfold int32Max
  omega

theorem commonMultiple_eq_some_iff {mult : Int × Int} : commonMultiple row1 row2 row1c row2c minVar cols = some mult ↔
    Proportional row1 row2 (cols - minVar) minVar ∧ mult = (leadFrom row1 minVar cols, leadFrom row2 minVar cols) := by
  obtain ⟨hfound, hfind⟩ := @findMultiple_none row1 row2 (cols - minVar) minVar
  unfold commonMultiple
  rcases hres : findMultiple row1 row2 (cols - minVar) minVar none with _ | res
  · refine iff_of_false (fun h => absurd h.symm (Option.some_ne_none _)) fun h => ?_
    obtain ⟨res, hsome⟩ := hfind h.1
    rw [hres] at hsome
    exact absurd hsome.symm (Option.some_ne_none _)
  · obtain ⟨hprop, hlead⟩ := hfound res hres
    dsimp only
    rw [if_neg (not_overflow row1c), if_neg (not_overflow row2c), hlead, Option.some_inj, eq_comm]
    exact (and_iff_right hprop).symm

theorem commonMultiple_eq_none (h : ¬ Proportional row1 row2 (cols - minVar) minVar) :
    commonMultiple row1 row2 row1c row2c minVar cols = none :=
  Option.eq_none_iff_forall_ne_some.2 fun _ hmult => h (commonMultiple_eq_some_iff.1 hmult).1

theorem isSimpleRedundant_of_not (h : ¬ Proportional row1 row2 (cols - minVar) minVar) :
    isSimpleRedundant row1 row2 row1c row2c minVar cols = 0 := by
  rw [isSimpleRedundant, commonMultiple_eq_none h]

theorem simpleRedundant_of_not (h : ¬ Proportional row1 row2 (cols - minVar) minVar) :
    simpleRedundant row1 row2 row1c row2c minVar cols = 0 := by
  rw [simpleRedundant, commonMultiple_eq_none h]

/-- Where the products fit the verdict compares the constants, each scaled by the other row's multiplier. -/
theorem isSimpleRedundant_eq (h : Proportional row1 row2 (cols - minVar) minVar)
    (hfits : leadFrom row1 minVar cols ≠ leadFrom row2 minVar cols →
      InInt64 (leadFrom row2 minVar cols * row1c) ∧ InInt64 (leadFrom row1 minVar cols * row2c)) :
    isSimpleRedundant row1 row2 row1c row2c minVar cols =
      if |leadFrom row2 minVar cols| * row1c ≤ |leadFrom row1 minVar cols| * row2c then 2 else 1 := by
  rw [isSimpleRedundant, commonMultiple_eq_some_iff.2 ⟨h, rfl⟩]
  have hsign : 0 < leadFrom row1 minVar cols * leadFrom row2 minVar cols := h.sign
  have hne : leadFrom row2 minVar cols ≠ 0 := lead_ne_zero row2 (cols - minVar) minVar
  show (if leadFrom row1 minVar cols = leadFrom row2 minVar cols then _ else _) = _
  generalize leadFrom row1 minVar cols = n at hsign hfits ⊢
  generalize leadFrom row2 minVar cols = d at hsign hne hfits ⊢
  by_cases hnd : n = d
  · rw [if_pos hnd, hnd]
    simp only [mul_le_mul_iff_right₀ (abs_pos.2 hne)]
  · rw [if_neg hnd, wrap64_eq (hfits hnd).1, wrap64_eq (hfits hnd).2]
    rcases mul_pos_iff.1 hsign with ⟨hn, hd⟩ | ⟨hn, hd⟩
    · rw [abs_of_pos hn, abs_of_pos hd]
      simp only [hd, true_and, not_lt.2 hd.le, false_and, or_false]
    · rw [abs_of_neg hn, abs_of_neg hd]
      simp only [not_lt.2 hd.le, false_and, hd, true_and, false_or, neg_mul, neg_le_neg_iff, ge_iff_le]

end Verdicts

/-! ## What a verdict says of points -/

section Points

variable {K : Type*} [CommRing K] [LinearOrder K] [IsStrictOrderedRing K]
variable {row1 row2 : Nat → MInt32} {row1c row2c : Int} {minVar cols : Nat}

/-- The columns before `minVar` are zero in the row. -/
def RowZeroBefore (row : Nat → MInt32) (minVar cols : Nat) : Prop := ∀ c < minVar, c < cols → (row c : Int) = 0

theorem Proportional.abs_eq (h : Proportional row1 row2 (cols - minVar) minVar) (hz1 : RowZeroBefore row1 minVar cols)
    (hz2 : RowZeroBefore row2 minVar cols) :
    ∀ j < cols, |leadFrom row1 minVar cols| * row2 j = |leadFrom row2 minVar cols| * row1 j := by
  intro j hj
  by_cases hmin : minVar ≤ j
  · have heq := h.eq j hmin (by omega)
    rcases mul_pos_iff.1 h.sign with ⟨hn, hd⟩ | ⟨hn, hd⟩
    · rw [abs_of_pos hn, abs_of_pos hd, heq]
    · rw [abs_of_neg hn, abs_of_neg hd, neg_mul, neg_mul, heq]
  · rw [hz1 j (by omega) hj, hz2 j (by omega) hj, mul_zero, mul_zero]

theorem Proportional.imp (h : Proportional row1 row2 (cols - minVar) minVar) (hz1 : RowZeroBefore row1 minVar cols)
    (hz2 : RowZeroBefore row2 minVar cols)
    (hconst : |leadFrom row2 minVar cols| * row1c ≤ |leadFrom row1 minVar cols| * row2c) (x : Nat → K)
    (hx : dot cols (fun j => row1 j) x ≤ (row1c : K)) : dot cols (fun j => row2 j) x ≤ (row2c : K) :=
  dot_le_of_multiple (abs_pos.2 (lead_ne_zero _ _ _)) (abs_nonneg _) (h.abs_eq hz1 hz2) hconst hx

theorem Proportional.imp_rev (h : Proportional row1 row2 (cols - minVar) minVar) (hz1 : RowZeroBefore row1 minVar cols)
    (hz2 : RowZeroBefore row2 minVar cols)
    (hconst : |leadFrom row1 minVar cols| * row2c ≤ |leadFrom row2 minVar cols| * row1c) (x : Nat → K)
    (hx : dot cols (fun j => row2 j) x ≤ (row2c : K)) : dot cols (fun j => row1 j) x ≤ (row1c : K) :=
  dot_le_of_multiple (abs_pos.2 (lead_ne_zero _ _ _)) (abs_nonneg _) (fun j hj => (h.abs_eq hz1 hz2 j hj).symm) hconst hx

/-- Every point of the row that is kept is one of the row reported redundant; on a tie both ways. -/
structure VerdictSound (verdict : Nat) (row1 row2 : Nat → MInt32) (row1c row2c : Int) (cols : Nat) : Prop where
  first : verdict = 1 → ∀ x : Nat → Int, dot cols (fun j => row2 j) x ≤ row2c → dot cols (fun j => row1 j) x ≤ row1c
  second : verdict = 2 → ∀ x : Nat → Int, dot cols (fun j => row1 j) x ≤ row1c → dot cols (fun j => row2 j) x ≤ row2c
  tie : verdict = 3 → ∀ x : Nat → Int, dot cols (fun j => row1 j) x ≤ row1c ↔ dot cols (fun j => row2 j) x ≤ row2c

theorem verdictSound_zero : VerdictSound 0 row1 row2 row1c row2c cols :=
  ⟨fun h => absurd h (by decide), fun h => absurd h (by decide), fun h => absurd h (by decide)⟩

/-- Whether the rows imply each other at the integer points is seen from the constants, divided by the rows' common factors
and rounded down. -/
theorem Proportional.imp_iff (h : Proportional row1 row2 (cols - minVar) minVar) (hz1 : RowZeroBefore row1 minVar cols)
    (hz2 : RowZeroBefore row2 minVar cols) {i : Nat} (hi : i < cols) (hne : (row1 i : Int) ≠ 0) :
    ((∀ x : Nat → Int, dot cols (fun j => row1 j) x ≤ row1c → dot cols (fun j => row2 j) x ≤ row2c) ↔
      row1c / (range cols).gcd (fun j => (row1 j : Int)) ≤ row2c / (range cols).gcd fun j => (row2 j : Int)) ∧
    ((∀ x : Nat → Int, dot cols (fun j => row2 j) x ≤ row2c → dot cols (fun j => row1 j) x ≤ row1c) ↔
      row2c / (range cols).gcd (fun j => (row2 j : Int)) ≤ row1c / (range cols).gcd fun j => (row1 j : Int)) := by
  obtain ⟨hg1, hg2, p, hp, h1, h2⟩ := exists_primitive (abs_pos.2 (lead_ne_zero row1 (cols - minVar) minVar))
    (abs_pos.2 (lead_ne_zero row2 (cols - minVar) minVar)) (h.abs_eq hz1 hz2) hi hne
  exact ⟨forall_imp_iff hg1 hg2 h1 h2 hp row1c row2c, forall_imp_iff hg2 hg1 h2 h1 hp row2c row1c⟩

theorem exists_lead (row : Nat → MInt32) (k : Nat) : ∀ col, lead row k col ≠ 1 →
    ∃ j, col ≤ j ∧ j < col + k ∧ (row j : Int) ≠ 0 := by
  induction k with
  | zero => exact fun col h => absurd rfl h
  | succ k ih =>
    intro col h
    rw [lead] at h
    split_ifs at h with hzero
    · obtain ⟨j, hj, hlt, hne⟩ := ih (col + 1) h
      exact ⟨j, by omega, by omega, hne⟩
    · exact ⟨col, le_rfl, by omega, hzero⟩

/-- A constant divided by the common factor of its row and rounded down: the bound at the integer points. -/
def integerBound (row : Nat → MInt32) (rowc : Int) (cols : Nat) : Int := rowc / (range cols).gcd fun j => (row j : Int)

/-- A verdict on proportional rows that are not zero is right just when it agrees with their bounds. -/
theorem verdictSound_iff (h : Proportional row1 row2 (cols - minVar) minVar) (hz1 : RowZeroBefore row1 minVar cols)
    (hz2 : RowZeroBefore row2 minVar cols) (hne : leadFrom row1 minVar cols ≠ leadFrom row2 minVar cols) (v : Nat) :
    VerdictSound v row1 row2 row1c row2c cols ↔
      (v = 1 → integerBound row2 row2c cols ≤ integerBound row1 row1c cols) ∧
      (v = 2 → integerBound row1 row1c cols ≤ integerBound row2 row2c cols) ∧
      (v = 3 → integerBound row1 row1c cols = integerBound row2 row2c cols) := by
  obtain ⟨i, hi, hi'⟩ : ∃ i < cols, (row1 i : Int) ≠ 0 := by
    by_cases h1 : leadFrom row1 minVar cols = 1
    · obtain ⟨j, hj, hlt, hj0⟩ := exists_lead row2 (cols - minVar) minVar (fun h2 => hne (h1.trans h2.symm))
      refine ⟨j, by omega, fun hzero => ?_⟩
      have heq := h.eq j hj hlt
      rw [hzero, mul_zero] at heq
      exact mul_ne_zero (lead_ne_zero _ _ _) hj0 heq
    · obtain ⟨j, hj, hlt, hj0⟩ := exists_lead row1 (cols - minVar) minVar h1
      exact ⟨j, by omega, hj0⟩
  obtain ⟨himp, hrev⟩ := @Proportional.imp_iff row1 row2 row1c row2c minVar cols h hz1 hz2 i hi hi'
  unfold integerBound
  rw [← himp, ← hrev]
  constructor
  · refine fun hv => ⟨hv.first, hv.second, fun h3 => ?_⟩
    exact le_antisymm (himp.1 fun x => (hv.tie h3 x).1) (hrev.1 fun x => (hv.tie h3 x).2)
  · rintro ⟨h1, h2, h3⟩
    exact ⟨h1, h2, fun hv x => ⟨himp.2 (h3 hv).le x, hrev.2 (h3 hv).ge x⟩⟩

/-- With equal multipliers the constants are the bounds. -/
theorem verdictSound_of_eq (h : Proportional row1 row2 (cols - minVar) minVar) (hz1 : RowZeroBefore row1 minVar cols)
    (hz2 : RowZeroBefore row2 minVar cols) (heq : leadFrom row1 minVar cols = leadFrom row2 minVar cols) {v : Nat}
    (h1 : v = 1 → row2c ≤ row1c) (h2 : v = 2 → row1c ≤ row2c) (h3 : v = 3 → row1c = row2c) :
    VerdictSound v row1 row2 row1c row2c cols := by
  have hscale : ∀ {a b : Int}, a ≤ b → |leadFrom row1 minVar cols| * a ≤ |leadFrom row1 minVar cols| * b :=
    fun hle => mul_le_mul_of_nonneg_left hle (abs_nonneg _)
  have himp : row1c ≤ row2c → ∀ x : Nat → Int, dot cols (fun j => row1 j) x ≤ row1c → dot cols (fun j => row2 j) x ≤ row2c :=
    fun hle x hx => by
      have hconst : |leadFrom row2 minVar cols| * row1c ≤ |leadFrom row1 minVar cols| * row2c := by
        rw [← heq]
        exact hscale hle
      exact_mod_cast h.imp hz1 hz2 hconst x (by exact_mod_cast hx)
  have hrev : row2c ≤ row1c → ∀ x : Nat → Int, dot cols (fun j => row2 j) x ≤ row2c → dot cols (fun j => row1 j) x ≤ row1c :=
    fun hle x hx => by
      have hconst : |leadFrom row1 minVar cols| * row2c ≤ |leadFrom row2 minVar cols| * row1c := by
        rw [← heq]
        exact hscale hle
      exact_mod_cast h.imp_rev hz1 hz2 hconst x (by exact_mod_cast hx)
  exact ⟨fun hv => hrev (h1 hv), fun hv => himp (h2 hv), fun hv x => ⟨himp (h3 hv).le x, hrev (h3 hv).ge x⟩⟩

/-- The rows on which a test goes wrong: proportional, with different multipliers, and with different bounds at the integer
points, where the multipliers are negative, as one of the tests does not look at their sign, or the products, in 64 bits, do not
compare as the bounds do. -/
structure Slips (row1 row2 : Nat → MInt32) (row1c row2c : Int) (minVar cols : Nat) : Prop where
  proportional : Proportional row1 row2 (cols - minVar) minVar
  ne : leadFrom row1 minVar cols ≠ leadFrom row2 minVar cols
  misjudged : integerBound row1 row1c cols ≠ integerBound row2 row2c cols ∧ leadFrom row1 minVar cols < 0 ∨
    integerBound row1 row1c cols < integerBound row2 row2c cols ∧
      wrap64 (leadFrom row1 minVar cols * row2c) ≤ wrap64 (leadFrom row2 minVar cols * row1c) ∨
    integerBound row2 row2c cols < integerBound row1 row1c cols ∧
      wrap64 (leadFrom row2 minVar cols * row1c) ≤ wrap64 (leadFrom row1 minVar cols * row2c)

theorem simpleRedundant_sound_iff (hz1 : RowZeroBefore row1 minVar cols) (hz2 : RowZeroBefore row2 minVar cols) :
    VerdictSound (isSimpleRedundant row1 row2 row1c row2c minVar cols) row1 row2 row1c row2c cols ∧
      VerdictSound (simpleRedundant row1 row2 row1c row2c minVar cols) row1 row2 row1c row2c cols ↔
    ¬ Slips row1 row2 row1c row2c minVar cols := by
  by_cases hc : Proportional row1 row2 (cols - minVar) minVar
  swap
  · rw [isSimpleRedundant_of_not hc, simpleRedundant_of_not hc]
    exact iff_of_true ⟨verdictSound_zero, verdictSound_zero⟩ fun h => hc h.proportional
  have hmult := (@commonMultiple_eq_some_iff row1 row2 row1c row2c minVar cols _).2 ⟨hc, rfl⟩
  rw [isSimpleRedundant, simpleRedundant, hmult]
  dsimp only
  by_cases heq : leadFrom row1 minVar cols = leadFrom row2 minVar cols
  · rw [if_pos heq, if_pos heq]
    refine iff_of_true ⟨verdictSound_of_eq hc hz1 hz2 heq ?_ ?_ ?_, verdictSound_of_eq hc hz1 hz2 heq ?_ ?_ ?_⟩
      fun h => h.ne heq
    all_goals split_ifs <;> omega
  · have hsign : 0 < leadFrom row1 minVar cols * leadFrom row2 minVar cols := hc.sign
    have hslips : Slips row1 row2 row1c row2c minVar cols ↔ _ := ⟨Slips.misjudged, fun h => ⟨hc, heq, h⟩⟩
    rw [if_neg heq, if_neg heq, verdictSound_iff hc hz1 hz2 heq, verdictSound_iff hc hz1 hz2 heq, hslips]
    generalize leadFrom row1 minVar cols = n at hsign ⊢
    generalize leadFrom row2 minVar cols = d at hsign ⊢
    generalize wrap64 (d * row1c) = p1
    generalize wrap64 (n * row2c) = p2
    rcases mul_pos_iff.1 hsign with ⟨hn, hd⟩ | ⟨hn, hd⟩ <;> constructor <;> split_ifs <;> omega

end Points

/-! ## Eliminating redundant rows -/

section Elim

variable {K : Type*} [CommRing K] [LinearOrder K] [IsStrictOrderedRing K]

/-- The direction of a row from column `minVar` on, scaled to a first coefficient of size `1`. -/
def Work.direction (w : Work) (minVar r : Nat) : Nat → ℚ :=
  fun j => if minVar ≤ j ∧ j < w.workCols then (w.work r j : Int) / (|leadFrom (w.work r) minVar w.workCols| : Int) else 0

/-- The constant of a row, scaled in the same way. -/
def Work.bound (w : Work) (minVar r : Nat) : ℚ := w.workConst r / (|leadFrom (w.work r) minVar w.workCols| : Int)

/-- A verdict other than `0` on a pair that is compared is that of the exact products, while these fit. -/
theorem redun_spec {w : Work} {minVar i j : Nat} (hfits : ∀ x ∈ w.products minVar, InInt64 x)
    (h : verdictCompared (w.redun minVar) w.workRows i j ≠ 0) :
    Proportional (w.work i) (w.work j) (w.workCols - minVar) minVar ∧
    verdictCompared (w.redun minVar) w.workRows i j = if |leadFrom (w.work j) minVar w.workCols| * w.workConst i ≤
      |leadFrom (w.work i) minVar w.workCols| * w.workConst j then 2 else 1 := by
  rw [verdictCompared] at h ⊢
  by_cases hcompared : compared (w.redun minVar) w.workRows i j = true
  swap
  · rw [if_neg hcompared] at h
    exact absurd rfl h
  rw [if_pos hcompared, Work.redun] at h ⊢
  by_cases hlast : lastNonZero (w.work i) minVar w.workCols = lastNonZero (w.work j) minVar w.workCols
  swap
  · rw [if_neg hlast] at h
    exact absurd rfl h
  rw [if_pos hlast] at h ⊢
  by_cases hc : Proportional (w.work i) (w.work j) (w.workCols - minVar) minVar
  swap
  · exact absurd (isSimpleRedundant_of_not hc) h
  refine ⟨hc, isSimpleRedundant_eq hc fun hne => ?_⟩
  have hmem : ∀ x ∈ [leadFrom (w.work j) minVar w.workCols * w.workConst i,
      leadFrom (w.work i) minVar w.workCols * w.workConst j], InInt64 x := by
    intro x hx
    refine hfits x ?_
    obtain ⟨hij, hj⟩ : i < j ∧ j < w.workRows := by
      unfold compared at hcompared
      rw [Bool.and_eq_true, Bool.and_eq_true] at hcompared
      exact of_decide_eq_true hcompared.1.1
    refine List.mem_flatMap.2 ⟨i, List.mem_range.2 (by omega), List.mem_flatMap.2 ⟨j, List.mem_range.2 hj, ?_⟩⟩
    rw [if_pos ⟨hcompared, hlast⟩, Work.scaledConsts, commonMultiple_eq_some_iff.2 ⟨hc, rfl⟩]
    dsimp only
    rw [if_neg hne]
    exact hx
  exact ⟨hmem _ List.mem_cons_self, hmem _ (List.mem_cons_of_mem _ List.mem_cons_self)⟩

theorem redun_ranked {w : Work} {minVar : Nat} (hfits : ∀ x ∈ w.products minVar, InInt64 x) :
    Ranked (verdictCompared (w.redun minVar) w.workRows) (w.direction minVar) (w.bound minVar) := by
  have hpos : ∀ r, (0 : ℚ) < (|leadFrom (w.work r) minVar w.workCols| : Int) := fun r =>
    Int.cast_pos.2 (abs_pos.2 (lead_ne_zero _ _ _))
  have hdirection : ∀ {i j}, Proportional (w.work i) (w.work j) (w.workCols - minVar) minVar →
      w.direction minVar i = w.direction minVar j := by
    intro i j h
    funext c
    unfold Work.direction
    by_cases hc : minVar ≤ c ∧ c < w.workCols
    · rw [if_pos hc, if_pos hc, div_eq_div_iff (hpos i).ne' (hpos j).ne', ← Int.cast_mul, ← Int.cast_mul]
      have heq := h.eq c hc.1 (by omega)
      have habs : (w.work i c : Int) * |leadFrom (w.work j) minVar w.workCols| =
          w.work j c * |leadFrom (w.work i) minVar w.workCols| := by
        rcases mul_pos_iff.1 h.sign with ⟨hn, hd⟩ | ⟨hn, hd⟩
        · rw [abs_of_pos hn, abs_of_pos hd]
          linarith
        · rw [abs_of_neg hn, abs_of_neg hd]
          linarith
      rw [habs]
    · rw [if_neg hc, if_neg hc]
  have hbound : ∀ {i j}, w.bound minVar i ≤ w.bound minVar j ↔
      |leadFrom (w.work j) minVar w.workCols| * w.workConst i ≤ |leadFrom (w.work i) minVar w.workCols| * w.workConst j := by
    intro i j
    unfold Work.bound
    rw [div_le_div_iff₀ (hpos i) (hpos j), ← Int.cast_mul, ← Int.cast_mul, Int.cast_le, mul_comm, mul_comm (w.workConst j)]
  refine ⟨fun {i j} h => ?_, fun {i j} h => ?_⟩
  · obtain ⟨hprop, heq⟩ := redun_spec (i := i) (j := j) hfits (by rw [h]; decide)
    refine ⟨hdirection hprop, lt_of_not_ge fun hle => ?_⟩
    rw [h, if_pos (hbound.1 hle)] at heq
    exact absurd heq (by decide)
  · obtain ⟨hprop, heq⟩ := redun_spec (i := i) (j := j) hfits (by rw [h]; decide)
    refine ⟨hdirection hprop, ?_⟩
    by_contra hle
    rw [h, if_neg fun hc => hle (hbound.2 hc)] at heq
    exact absurd heq (by decide)

/-- `q'` is a positive multiple of `q` with a constant that is at least as tight. -/
def Row.Tighter (q' q : Row) : Prop :=
  ∃ a b : Int, 0 < a ∧ 0 < b ∧ (∀ j < q.coeffs.length, a * q.coeff j = b * q'.coeff j) ∧ b * q'.rhs ≤ a * q.rhs

theorem Row.Tighter.holds {q' q : Row} (h : q'.Tighter q) (hlen : q'.coeffs.length = q.coeffs.length) (x : Nat → K)
    (hx : q'.Holds x) : q.Holds x := by
  obtain ⟨a, b, ha, hb, hcoeff, hrhs⟩ := h
  refine dot_le_of_multiple ha hb.le hcoeff hrhs ?_
  rw [← hlen]
  exact hx

theorem tighter_of_direction {w : Work} {minVar : Nat} (hzero : w.ZeroBefore minVar) {k r : Nat} (hk : k < w.workRows)
    (hr : r < w.workRows) (hdirection : w.direction minVar k = w.direction minVar r)
    (hbound : w.bound minVar k ≤ w.bound minVar r) : (w.leRow k).Tighter (w.leRow r) := by
  have hpos : ∀ r, 0 < |leadFrom (w.work r) minVar w.workCols| := fun r => abs_pos.2 (lead_ne_zero _ _ _)
  have hposQ : ∀ r, (0 : ℚ) < (|leadFrom (w.work r) minVar w.workCols| : Int) := fun r => Int.cast_pos.2 (hpos r)
  refine ⟨_, _, hpos k, hpos r, fun j hj => ?_, ?_⟩
  · rw [length_leRow] at hj
    rw [coeff_leRow w r hj, coeff_leRow w k hj]
    by_cases hmin : minVar ≤ j
    · have heq := congrFun hdirection j
      unfold Work.direction at heq
      rw [if_pos ⟨hmin, hj⟩, if_pos ⟨hmin, hj⟩, div_eq_div_iff (hposQ k).ne' (hposQ r).ne', ← Int.cast_mul, ← Int.cast_mul,
        Int.cast_inj] at heq
      linarith
    · rw [hzero r hr j (by omega) hj, hzero k hk j (by omega) hj, mul_zero, mul_zero]
  · unfold Work.bound at hbound
    rw [div_le_div_iff₀ (hposQ k) (hposQ r), ← Int.cast_mul, ← Int.cast_mul, Int.cast_le] at hbound
    show |leadFrom (w.work r) minVar w.workCols| * w.workConst k ≤ |leadFrom (w.work k) minVar w.workCols| * w.workConst r
    linarith

theorem dropLocal_flags (flags : Nat → Bool) : DropLocal fun _ r => flags r := fun _ _ _ _ => rfl

theorem les_elimSimpleRedundant (w : Work) (minVar : Nat) (hzero : w.ZeroBefore minVar) :
    (w.elimSimpleRedundant minVar).les ⊆ w.les ∧ (w.elimSimpleRedundant minVar).workCols = w.workCols ∧
    (w.elimSimpleRedundant minVar).ZeroBefore minVar := by
  obtain ⟨hles, hcols, hz⟩ := les_compact (dropLocal_flags _) w hzero
  refine ⟨?_, hcols, hz⟩
  rw [Work.elimSimpleRedundant, hles]
  rintro q ⟨r, hr, -, rfl⟩
  exact ⟨r, hr, rfl⟩

theorem exists_tighter (w : Work) (minVar : Nat) (hzero : w.ZeroBefore minVar)
    (hfits : ∀ x ∈ w.products minVar, InInt64 x) :
    ∀ q ∈ w.les, ∃ q' ∈ (w.elimSimpleRedundant minVar).les, q'.Tighter q := by
  rintro q ⟨r, hr, rfl⟩
  obtain ⟨k, hk, hunmarked, hkey, hbound⟩ := markAll_covers w.workRows (redun_ranked hfits) r hr
  refine ⟨w.leRow k, ?_, tighter_of_direction hzero hk hr hkey hbound⟩
  obtain ⟨hles, -⟩ := les_compact (dropLocal_flags _) w hzero
  rw [Work.elimSimpleRedundant, hles]
  exact ⟨k, hk, hunmarked, rfl⟩

/-- Dropping the redundant rows changes no solution. -/
theorem holds_elimSimpleRedundant (w : Work) (minVar : Nat) (hzero : w.ZeroBefore minVar)
    (hfits : ∀ x ∈ w.products minVar, InInt64 x) (x : Nat → K) :
    (w.elimSimpleRedundant minVar).Holds x ↔ w.Holds x := by
  obtain ⟨hsub, -⟩ := les_elimSimpleRedundant w minVar hzero
  refine ⟨fun h q hq => ?_, fun h q hq => h q (hsub hq)⟩
  obtain ⟨q', hq', htighter⟩ := exists_tighter w minVar hzero hfits q hq
  refine htighter.holds ?_ x (h q' hq')
  obtain ⟨k, -, rfl⟩ := hsub hq'
  obtain ⟨r, -, rfl⟩ := hq
  rw [length_leRow, length_leRow]

end Elim

/-- Both tests report only what holds at every integer point just when the rows do not slip; `Elim_Simple_Redundant` keeps the
integer solutions while the products of the pairs that it compares fit in 64 bits. -/
theorem redundancy_sound_iff (minVar : Nat) :
    (∀ (row1 row2 : Nat → MInt32) (row1c row2c : Int) (cols : Nat),
      RowZeroBefore row1 minVar cols → RowZeroBefore row2 minVar cols →
      (VerdictSound (isSimpleRedundant row1 row2 row1c row2c minVar cols) row1 row2 row1c row2c cols ∧
        VerdictSound (simpleRedundant row1 row2 row1c row2c minVar cols) row1 row2 row1c row2c cols ↔
      ¬ Slips row1 row2 row1c row2c minVar cols)) ∧
    ∀ w : Work, w.ZeroBefore minVar → (∀ x ∈ w.products minVar, InInt64 x) → ∀ x : Nat → Int,
      (w.elimSimpleRedundant minVar).Holds x ↔ w.Holds x :=
  ⟨fun _ _ _ _ _ hz1 hz2 => simpleRedundant_sound_iff hz1 hz2,
    fun w hzero hfits x => holds_elimSimpleRedundant w minVar hzero hfits x⟩

/-- `-x <= -1` and `-2x <= -4`: the second is reported redundant, and `1` satisfies the first only. -/
theorem simpleRedundant_wrong :
    simpleRedundant (fun _ => MInt32.ofInt (-1)) (fun _ => MInt32.ofInt (-2)) (-1) (-4) 0 1 = 2 ∧
    dot 1 (fun _ => (MInt32.ofInt (-1) : Int)) (fun _ => (1 : Int)) ≤ -1 ∧
    ¬ dot 1 (fun _ => (MInt32.ofInt (-2) : Int)) (fun _ => (1 : Int)) ≤ -4 := by
  decide

end Path64.Soe

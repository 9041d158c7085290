import Path64.Lib.Checked
import Path64.Soe.Project

/-!
# Substituting an equality

`Sub_Last_Equal_Unary` of `be/lno/soe.cxx`: the last equality has coefficient `1` or `-1` at an unknown, and is subtracted
from every other row.

* `subRow` : one row; the loops over equalities and inequalities differ in the width of the product, and their checks let every
  coefficient through;
* `subLastEqualUnary` : the two loops; `subLastEqualUnary_eq` : what they come to;
* `substituted_value` : the coefficients stored are the low 32 bits of the exact ones;
* `substitution_exact_iff` : when the coefficients stored are exact.
-/

namespace Path64.Soe

open Lib Logged

/-! ## One row -/

/-- `tmp`: the coefficient minus the multiple of the equality's, without a multiplication for `1` and `-1`. -/
def subTmp (prod : Int → Int → Int) (row eqRow : Nat → MInt32) (mult : Int) (j : Nat) : Int :=
  if mult = 1 then row j - eqRow j
  else if mult = -1 then row j + eqRow j
  else row j - prod mult (eqRow j)

/-- No check of `abs(tmp) > INT32_MAX` fails. This `abs` is that of an `int`. -/
def SubFits (prod : Int → Int → Int) (row eqRow : Nat → MInt32) (i minvar cols : Nat) : Prop :=
  (row i : Int) = 0 ∨ ∀ j ∈ List.range' minvar (cols - minvar), absInt (subTmp prod row eqRow (row i) j) ≤ int32Max

instance (prod : Int → Int → Int) (row eqRow : Nat → MInt32) (i minvar cols : Nat) :
    Decidable (SubFits prod row eqRow i minvar cols) := inferInstanceAs (Decidable (_ ∨ _))

/-- The row after the loop over its columns, with the coefficient of unknown `i` set to zero. -/
def subRow (prod : Int → Int → Int) (row eqRow : Nat → MInt32) (i minvar cols : Nat) : Nat → MInt32 :=
  Function.update
    (if (row i : Int) = 0 then row
      else fun j => if minvar ≤ j ∧ j < cols then MInt32.ofInt (subTmp prod row eqRow (row i) j) else row j)
    i (MInt32.ofInt 0)

/-- The row's constant. -/
def subConst (const eqConst mult : Int) : Int := if mult = 0 then const else wrap64 (const - mult * eqConst)

/-- `mult*_work_eq[eqnum][j]` with an `INT64` multiplier: a product of 32-bit values in 64 bits. -/
def prod64 (mult a : Int) : Int := mult * a

/-- The same with an `INT32` multiplier, where the product is a 32-bit one. -/
def prod32 (mult a : Int) : Int := wrap32 (mult * a)

/-! ## The loops -/

/-- Multiplies both sides of the last equality by `-1` if its coefficient at `i` is `-1`. -/
def Work.negateLast (w : Work) (i minvar : Nat) : Work :=
  let eqnum := w.workRowsEq - 1
  if (w.workEq eqnum i : Int) = -1 then
    { w with
      workEq := Function.update w.workEq eqnum
        fun j => if minvar ≤ j ∧ j < w.workCols then MInt32.ofInt (-w.workEq eqnum j) else w.workEq eqnum j
      workConstEq := Function.update w.workConstEq eqnum (wrap64 (-w.workConstEq eqnum)) }
  else w

/-- Substitutes into equality `eq`. -/
def Work.subEq (i minvar : Nat) (w : Work) (eq : Nat) : Option Work :=
  let eqnum := w.workRowsEq - 1
  if SubFits prod64 (w.workEq eq) (w.workEq eqnum) i minvar w.workCols then
    some { w with
      workEq := Function.update w.workEq eq (subRow prod64 (w.workEq eq) (w.workEq eqnum) i minvar w.workCols)
      workConstEq := Function.update w.workConstEq eq (subConst (w.workConstEq eq) (w.workConstEq eqnum) (w.workEq eq i)) }
  else none

/-- Substitutes into inequality `le`. -/
def Work.subLe (i minvar : Nat) (w : Work) (le : Nat) : Option Work :=
  let eqnum := w.workRowsEq - 1
  if SubFits prod32 (w.work le) (w.workEq eqnum) i minvar w.workCols then
    some { w with
      work := Function.update w.work le (subRow prod32 (w.work le) (w.workEq eqnum) i minvar w.workCols)
      workConst := Function.update w.workConst le (subConst (w.workConst le) (w.workConstEq eqnum) (w.work le i)) }
  else none

/-- `Sub_Last_Equal_Unary`: no value where it returns `FALSE`. -/
def Work.subLastEqualUnary (w : Work) (i minvar : Nat) : Option Work := do
  let w := w.negateLast i minvar
  let w ← (List.range (w.workRowsEq - 1)).foldlM (Work.subEq i minvar) w
  (List.range w.workRows).foldlM (Work.subLe i minvar) w

/-! ## What the loops come to -/

/-- The last equality substituted into the other equalities. -/
def Work.subEqs (w : Work) (i minvar : Nat) : Work :=
  let eqnum := w.workRowsEq - 1
  { w with
    workEq := fun r => if r < eqnum then subRow prod64 (w.workEq r) (w.workEq eqnum) i minvar w.workCols else w.workEq r
    workConstEq := fun r =>
      if r < eqnum then subConst (w.workConstEq r) (w.workConstEq eqnum) (w.workEq r i) else w.workConstEq r }

/-- The last equality substituted into the inequalities. -/
def Work.subLes (w : Work) (i minvar : Nat) : Work :=
  let eqnum := w.workRowsEq - 1
  { w with
    work := fun r => if r < w.workRows then subRow prod32 (w.work r) (w.workEq eqnum) i minvar w.workCols else w.work r
    workConst := fun r =>
      if r < w.workRows then subConst (w.workConst r) (w.workConstEq eqnum) (w.work r i) else w.workConst r }

/-- The arrays with the last equality substituted everywhere. -/
def Work.substituted (w : Work) (i minvar : Nat) : Work := (w.subEqs i minvar).subLes i minvar

theorem subFits (prod : Int → Int → Int) (row eqRow : Nat → MInt32) (i minvar cols : Nat) :
    SubFits prod row eqRow i minvar cols :=
  Or.inr fun _ _ => not_lt.1 (not_overflow _)

section Loops

variable {i minvar : Nat}

/-- One row more is written. -/
theorem update_ite_lt {β : Type} (f g : Nat → β) (n : Nat) :
    Function.update (fun r => if r < n then f r else g r) n (f n) = fun r => if r < n + 1 then f r else g r := by
  funext r
  by_cases hr : r = n
  · rw [hr, Function.update_self, if_pos (Nat.lt_succ_self n)]
  · rw [Function.update_of_ne hr]
    exact if_congr (by omega) rfl rfl

/-- The loop over the equalities. -/
theorem foldlM_subEq (w : Work) :
    (List.range (w.workRowsEq - 1)).foldlM (Work.subEq i minvar) w = some (w.subEqs i minvar) := by
  -- before turn `n` the rows from `n` on are the old ones
  let state (n : Nat) : Work :=
    { w with
      workEq := fun r => if r < n then (w.subEqs i minvar).workEq r else w.workEq r
      workConstEq := fun r => if r < n then (w.subEqs i minvar).workConstEq r else w.workConstEq r }
  have hstart : state 0 = w := by
    simp only [state, Nat.not_lt_zero, if_false]
  have hend : state (w.workRowsEq - 1) = w.subEqs i minvar := by
    simp only [state, Work.subEqs, Work.mk.injEq, true_and, and_true]
    refine ⟨funext fun r => ?_, funext fun r => ?_⟩ <;> split_ifs <;> rfl
  have hstep : ∀ n < w.workRowsEq - 1, Work.subEq i minvar (state n) n = some (state (n + 1)) := by
    intro n hn
    have hrow : (state n).workEq n = w.workEq n := if_neg (lt_irrefl n)
    have hconst : (state n).workConstEq n = w.workConstEq n := if_neg (lt_irrefl n)
    have hlast : (state n).workEq (w.workRowsEq - 1) = w.workEq (w.workRowsEq - 1) := if_neg (by omega)
    have hlastConst : (state n).workConstEq (w.workRowsEq - 1) = w.workConstEq (w.workRowsEq - 1) := if_neg (by omega)
    rw [Work.subEq]
    show (if SubFits prod64 ((state n).workEq n) ((state n).workEq (w.workRowsEq - 1)) i minvar w.workCols then
      some { state n with
        workEq := Function.update (state n).workEq n
          (subRow prod64 ((state n).workEq n) ((state n).workEq (w.workRowsEq - 1)) i minvar w.workCols)
        workConstEq := Function.update (state n).workConstEq n (subConst ((state n).workConstEq n)
          ((state n).workConstEq (w.workRowsEq - 1)) ((state n).workEq n i)) } else none) = _
    have hnew : subRow prod64 (w.workEq n) (w.workEq (w.workRowsEq - 1)) i minvar w.workCols =
      (w.subEqs i minvar).workEq n := (if_pos hn).symm
    have hnewConst : subConst (w.workConstEq n) (w.workConstEq (w.workRowsEq - 1)) (w.workEq n i) =
      (w.subEqs i minvar).workConstEq n := (if_pos hn).symm
    rw [hrow, hconst, hlast, hlastConst, if_pos (subFits ..), hnew, hnewConst, update_ite_lt, update_ite_lt]
  have hloop := foldlM_range_eq_some (Work.subEq i minvar) state hstep
  rwa [hstart, hend] at hloop

/-- The loop over the inequalities. -/
theorem foldlM_subLe (w : Work) : (List.range w.workRows).foldlM (Work.subLe i minvar) w = some (w.subLes i minvar) := by
  let state (n : Nat) : Work :=
    { w with
      work := fun r => if r < n then (w.subLes i minvar).work r else w.work r
      workConst := fun r => if r < n then (w.subLes i minvar).workConst r else w.workConst r }
  have hstart : state 0 = w := by
    simp only [state, Nat.not_lt_zero, if_false]
  have hend : state w.workRows = w.subLes i minvar := by
    simp only [state, Work.subLes, Work.mk.injEq, and_true]
    refine ⟨funext fun r => ?_, funext fun r => ?_⟩ <;> split_ifs <;> rfl
  have hstep : ∀ n < w.workRows, Work.subLe i minvar (state n) n = some (state (n + 1)) := by
    intro n hn
    have hrow : (state n).work n = w.work n := if_neg (lt_irrefl n)
    have hconst : (state n).workConst n = w.workConst n := if_neg (lt_irrefl n)
    rw [Work.subLe]
    show (if SubFits prod32 ((state n).work n) (w.workEq (w.workRowsEq - 1)) i minvar w.workCols then
      some { state n with
        work := Function.update (state n).work n
          (subRow prod32 ((state n).work n) (w.workEq (w.workRowsEq - 1)) i minvar w.workCols)
        workConst := Function.update (state n).workConst n (subConst ((state n).workConst n)
          (w.workConstEq (w.workRowsEq - 1)) ((state n).work n i)) } else none) = _
    have hnew : subRow prod32 (w.work n) (w.workEq (w.workRowsEq - 1)) i minvar w.workCols =
      (w.subLes i minvar).work n := (if_pos hn).symm
    have hnewConst : subConst (w.workConst n) (w.workConstEq (w.workRowsEq - 1)) (w.work n i) =
      (w.subLes i minvar).workConst n := (if_pos hn).symm
    rw [hrow, hconst, if_pos (subFits ..), hnew, hnewConst, update_ite_lt, update_ite_lt]
  have hloop := foldlM_range_eq_some (Work.subLe i minvar) state hstep
  rwa [hstart, hend] at hloop

theorem subEqs_last (w : Work) : (w.subEqs i minvar).workEq (w.workRowsEq - 1) = w.workEq (w.workRowsEq - 1) ∧
    (w.subEqs i minvar).workConstEq (w.workRowsEq - 1) = w.workConstEq (w.workRowsEq - 1) :=
  ⟨if_neg (lt_irrefl _), if_neg (lt_irrefl _)⟩

/-- The function always succeeds. -/
theorem subLastEqualUnary_eq (w : Work) (i minvar : Nat) :
    w.subLastEqualUnary i minvar = some ((w.negateLast i minvar).substituted i minvar) := by
  rw [Work.subLastEqualUnary]
  generalize w.negateLast i minvar = v
  show ((List.range (v.workRowsEq - 1)).foldlM (Work.subEq i minvar) v >>= _) = _
  rw [foldlM_subEq]
  exact foldlM_subLe (v.subEqs i minvar)

theorem workEq_substituted (w : Work) (r : Nat) : (w.substituted i minvar).workEq r =
    if r < w.workRowsEq - 1 then subRow prod64 (w.workEq r) (w.workEq (w.workRowsEq - 1)) i minvar w.workCols
    else w.workEq r := rfl

theorem work_substituted (w : Work) (r : Nat) : (w.substituted i minvar).work r =
    if r < w.workRows then subRow prod32 (w.work r) (w.workEq (w.workRowsEq - 1)) i minvar w.workCols else w.work r := by
  show (if r < w.workRows then subRow prod32 (w.work r) ((w.subEqs i minvar).workEq (w.workRowsEq - 1)) i minvar w.workCols
    else w.work r) = _
  rw [(subEqs_last w).1]

end Loops

/-! ## What is stored -/

theorem wrap32_sub_wrap32 (x y : Int) : wrap32 (x - wrap32 y) = wrap32 (x - y) := Int.sub_bmod_bmod

theorem wrap32_mul_wrap32 (x y : Int) : wrap32 (x * wrap32 y) = wrap32 (x * y) := Int.mul_bmod_bmod

/-- A row is stored with the low 32 bits of the old row minus the multiple of the equality that cancels unknown `i`. -/
theorem subRow_value {prod : Int → Int → Int} {row eqRow : Nat → MInt32} {i minvar cols : Nat}
    (hone : (eqRow i : Int) = 1) (hprod : ∀ a, wrap32 (prod (row i) a) = wrap32 (row i * a))
    (hzero : ∀ j < minvar, (eqRow j : Int) = 0) :
    ∀ j < cols, (subRow prod row eqRow i minvar cols j : Int) = wrap32 (row j - row i * eqRow j) := by
  have hself : ∀ x : MInt32, wrap32 x = x := fun x => wrap32_eq_iff.2 x.2
  intro j hj
  by_cases hji : j = i
  · rw [hji, subRow, Function.update_self, hone, mul_one, sub_self]
    rfl
  rw [subRow, Function.update_of_ne hji]
  by_cases h0 : (row i : Int) = 0
  · rw [if_pos h0, h0, zero_mul, sub_zero, hself]
  rw [if_neg h0]
  by_cases hmj : minvar ≤ j ∧ j < cols
  · rw [if_pos hmj]
    show wrap32 (subTmp prod row eqRow (row i) j) = _
    unfold subTmp
    split_ifs with h1 hn1
    · rw [h1, one_mul]
    · rw [hn1]
      exact congrArg wrap32 (by ring)
    · rw [← wrap32_sub_wrap32, hprod, wrap32_sub_wrap32]
  · rw [if_neg hmj, hzero j (by omega), mul_zero, sub_zero, hself]

/-! ## The whole substitution -/

/-- Every coefficient stored is the exact combination: the last equality with its coefficient at `i` made `1`, and each other
row minus the multiple of it that cancels `i`. -/
structure UnaryExact (w w' : Work) (i : Nat) : Prop where
  last : ∀ j < w.workCols, (w'.workEq (w.workRowsEq - 1) j : Int) =
    w.workEq (w.workRowsEq - 1) i * w.workEq (w.workRowsEq - 1) j
  eq : ∀ r < w.workRowsEq - 1, ∀ j < w.workCols, (w'.workEq r j : Int) =
    w.workEq r j - w.workEq r i * (w.workEq (w.workRowsEq - 1) i * w.workEq (w.workRowsEq - 1) j)
  le : ∀ r < w.workRows, ∀ j < w.workCols, (w'.work r j : Int) =
    w.work r j - w.work r i * (w.workEq (w.workRowsEq - 1) i * w.workEq (w.workRowsEq - 1) j)

/-- What a caller promises: the last equality has coefficient `1` or `-1` at `i` and none before `minvar`. -/
structure UnaryCall (w : Work) (i minvar : Nat) : Prop where
  lt : i < w.workCols
  min : minvar ≤ i
  unit : (w.workEq (w.workRowsEq - 1) i : Int) = 1 ∨ (w.workEq (w.workRowsEq - 1) i : Int) = -1
  zero : ∀ j < minvar, (w.workEq (w.workRowsEq - 1) j : Int) = 0

/-- Every coefficient of the exact result fits where it is stored. -/
structure UnaryFits (w : Work) (i : Nat) : Prop where
  last : ∀ j < w.workCols, InInt32 (w.workEq (w.workRowsEq - 1) i * w.workEq (w.workRowsEq - 1) j)
  eq : ∀ r < w.workRowsEq - 1, ∀ j < w.workCols, InInt32 (w.workEq r j -
    w.workEq r i * (w.workEq (w.workRowsEq - 1) i * w.workEq (w.workRowsEq - 1) j))
  le : ∀ r < w.workRows, ∀ j < w.workCols, InInt32 (w.work r j -
    w.work r i * (w.workEq (w.workRowsEq - 1) i * w.workEq (w.workRowsEq - 1) j))

section Unary

variable {w : Work} {i minvar : Nat}

theorem negateLast_rows (w : Work) (i minvar : Nat) : (w.negateLast i minvar).workRowsEq = w.workRowsEq ∧
    (w.negateLast i minvar).workRows = w.workRows ∧ (w.negateLast i minvar).workCols = w.workCols ∧
    (w.negateLast i minvar).work = w.work ∧ (w.negateLast i minvar).workConst = w.workConst ∧
    ∀ r, r ≠ w.workRowsEq - 1 → (w.negateLast i minvar).workEq r = w.workEq r ∧
      (w.negateLast i minvar).workConstEq r = w.workConstEq r := by
  rw [Work.negateLast]
  split_ifs
  · exact ⟨rfl, rfl, rfl, rfl, rfl, fun r hr => ⟨Function.update_of_ne hr _ _, Function.update_of_ne hr _ _⟩⟩
  · exact ⟨rfl, rfl, rfl, rfl, rfl, fun r hr => ⟨rfl, rfl⟩⟩

theorem negateLast_last (w : Work) (i minvar j : Nat) :
    ((w.negateLast i minvar).workEq (w.workRowsEq - 1) j : Int) =
      if (w.workEq (w.workRowsEq - 1) i : Int) = -1 ∧ minvar ≤ j ∧ j < w.workCols
      then wrap32 (-w.workEq (w.workRowsEq - 1) j) else w.workEq (w.workRowsEq - 1) j := by
  rw [Work.negateLast]
  by_cases hneg : (w.workEq (w.workRowsEq - 1) i : Int) = -1
  · rw [if_pos hneg]
    dsimp only
    rw [Function.update_self]
    by_cases hj : minvar ≤ j ∧ j < w.workCols
    · rw [if_pos hj, if_pos ⟨hneg, hj⟩]
      rfl
    · rw [if_neg hj, if_neg fun h => hj h.2]
  · rw [if_neg hneg, if_neg fun h => hneg h.1]

theorem negateLast_unit (hcall : UnaryCall w i minvar) : ((w.negateLast i minvar).workEq (w.workRowsEq - 1) i : Int) = 1 := by
  rw [negateLast_last]
  rcases hcall.unit with h1 | hn1
  · rw [if_neg fun h => by omega, h1]
  · rw [if_pos ⟨hn1, hcall.min, hcall.lt⟩, hn1]
    decide

theorem negateLast_zero (hcall : UnaryCall w i minvar) :
    ∀ j < minvar, ((w.negateLast i minvar).workEq (w.workRowsEq - 1) j : Int) = 0 := by
  intro j hj
  rw [negateLast_last, if_neg fun h => by omega]
  exact hcall.zero j hj

theorem negateLast_value (hcall : UnaryCall w i minvar) : ∀ j < w.workCols,
    ((w.negateLast i minvar).workEq (w.workRowsEq - 1) j : Int) =
      wrap32 (w.workEq (w.workRowsEq - 1) i * w.workEq (w.workRowsEq - 1) j) := by
  intro j hj
  have hself : ∀ x : MInt32, wrap32 x = x := fun x => wrap32_eq_iff.2 x.2
  rw [negateLast_last]
  rcases hcall.unit with h1 | hn1
  · rw [if_neg fun h => by omega, h1, one_mul, hself]
  · by_cases hmj : minvar ≤ j
    · rw [if_pos ⟨hn1, hmj, hj⟩, hn1, neg_one_mul]
    · rw [if_neg fun h => hmj h.2.1, hcall.zero j (by omega), mul_zero]
      rfl

/-- Every coefficient is stored as the low 32 bits of the exact one. -/
theorem substituted_value (hcall : UnaryCall w i minvar) :
    (∀ j < w.workCols, (((w.negateLast i minvar).substituted i minvar).workEq (w.workRowsEq - 1) j : Int) =
      wrap32 (w.workEq (w.workRowsEq - 1) i * w.workEq (w.workRowsEq - 1) j)) ∧
    (∀ r < w.workRowsEq - 1, ∀ j < w.workCols, (((w.negateLast i minvar).substituted i minvar).workEq r j : Int) =
      wrap32 (w.workEq r j - w.workEq r i * (w.workEq (w.workRowsEq - 1) i * w.workEq (w.workRowsEq - 1) j))) ∧
    ∀ r < w.workRows, ∀ j < w.workCols, (((w.negateLast i minvar).substituted i minvar).work r j : Int) =
      wrap32 (w.work r j - w.work r i * (w.workEq (w.workRowsEq - 1) i * w.workEq (w.workRowsEq - 1) j)) := by
  obtain ⟨hrowsEq, hrows, hcols, hwork, -, hother⟩ := negateLast_rows w i minvar
  have hone := negateLast_unit hcall
  have hzero := negateLast_zero hcall
  have hvalue := negateLast_value hcall
  have hprod64 : ∀ mult a, wrap32 (prod64 mult a) = wrap32 (mult * a) := fun _ _ => rfl
  have hprod32 : ∀ mult a, wrap32 (prod32 mult a) = wrap32 (mult * a) := fun _ _ => Int.bmod_bmod
  refine ⟨fun j hj => ?_, fun r hr j hj => ?_, fun r hr j hj => ?_⟩
  · rw [workEq_substituted, hrowsEq, if_neg (lt_irrefl _)]
    exact hvalue j hj
  · rw [workEq_substituted, hrowsEq, if_pos hr, hcols, (hother r (by omega)).1,
      subRow_value hone (hprod64 _) hzero j hj, hvalue j hj, ← wrap32_sub_wrap32, wrap32_mul_wrap32,
      wrap32_sub_wrap32]
  · rw [work_substituted, hrows, if_pos hr, hwork, hrowsEq, hcols,
      subRow_value hone (hprod32 _) hzero j hj, hvalue j hj, ← wrap32_sub_wrap32, wrap32_mul_wrap32,
      wrap32_sub_wrap32]

/-- The result is exact just when it fits. -/
theorem unaryExact_iff (hcall : UnaryCall w i minvar) :
    UnaryExact w ((w.negateLast i minvar).substituted i minvar) i ↔ UnaryFits w i := by
  obtain ⟨hlast, heq, hle⟩ := substituted_value hcall
  constructor
  · intro h
    refine ⟨fun j hj => ?_, fun r hr j hj => ?_, fun r hr j hj => ?_⟩
    · exact wrap32_eq_iff.1 ((hlast j hj).symm.trans (h.last j hj))
    · exact wrap32_eq_iff.1 ((heq r hr j hj).symm.trans (h.eq r hr j hj))
    · exact wrap32_eq_iff.1 ((hle r hr j hj).symm.trans (h.le r hr j hj))
  · intro h
    refine ⟨fun j hj => ?_, fun r hr j hj => ?_, fun r hr j hj => ?_⟩
    · exact (hlast j hj).trans (wrap32_eq_iff.2 (h.last j hj))
    · exact (heq r hr j hj).trans (wrap32_eq_iff.2 (h.eq r hr j hj))
    · exact (hle r hr j hj).trans (wrap32_eq_iff.2 (h.le r hr j hj))

end Unary

/-! ## `Elim_One` -/

section ElimOne

variable {w : Work} {i plus minus minVar : Nat}

end ElimOne

end Path64.Soe

import Mathlib.Data.Int.Order.Basic
import Mathlib.Tactic.SplitIfs

/-!
# Three-way comparisons

The sign of a number tells how two things compare, one part of them after the other.

* `compareInt`, `compareInts` : the comparison of numbers, and of lists of numbers, by the first that differ;
* `firstOf` : a comparison that is decided by the next one where it finds no difference;
* `Ordered` : how the comparisons of `a` with `b`, of `b` with `c` and of `a` with `c` fit together in a preorder;
  `Ordered.firstOf`, `ordered_compareInts` : the comparisons above do.
-/

namespace Path64.Lib

/-- `if (x < y) return -1; if (x > y) return 1; return 0;` -/
def compareInt (x y : Int) : Int := if x < y then -1 else if x > y then 1 else 0

/-- `if (r != 0) return r; return s;` -/
def firstOf (r s : Int) : Int := if r ≠ 0 then r else s

/-- The first difference of two lists of one length. -/
def compareInts : List Int → List Int → Int
  | x :: xs, y :: ys => firstOf (compareInt x y) (compareInts xs ys)
  | _, _ => 0

/-- The comparisons of three things two by two are those of a preorder. -/
structure Ordered (ab bc ac : Int) : Prop where
  left : ab = 0 → ac = bc
  right : bc = 0 → ac = ab
  neg : ab < 0 → bc < 0 → ac < 0
  pos : 0 < ab → 0 < bc → 0 < ac

variable {x y z ab bc ac ab' bc' ac' : Int} {xs ys zs : List Int}

theorem Ordered.le (h : Ordered ab bc ac) (hab : ab ≤ 0) (hbc : bc ≤ 0) : ac ≤ 0 := by
  by_cases h0 : ab = 0
  · rw [h.left h0]
    exact hbc
  by_cases h1 : bc = 0
  · rw [h.right h1]
    exact hab
  · exact Int.le_of_lt (h.neg (by omega) (by omega))

/-! ## Numbers -/

theorem compareInt_swap (x y : Int) : compareInt y x = -compareInt x y := by
  unfold compareInt
  split_ifs <;> omega

theorem compareInt_eq_zero : compareInt x y = 0 ↔ x = y := by
  unfold compareInt
  split_ifs
  · exact iff_of_false (by decide) (by omega)
  · exact iff_of_false (by decide) (by omega)
  · exact iff_of_true rfl (by omega)

theorem ordered_compareInt (x y z : Int) : Ordered (compareInt x y) (compareInt y z) (compareInt x z) := by
  unfold compareInt
  constructor <;> intros <;> split_ifs at * <;> omega

theorem ordered_sub (x y z : Int) : Ordered (x - y) (y - z) (x - z) := by
  constructor <;> omega

/-! ## One comparison after the other -/

theorem firstOf_swap (hr : ab' = -ab) (hs : ab = 0 → bc' = -bc) : firstOf ab' bc' = -firstOf ab bc := by
  unfold firstOf
  by_cases h : ab = 0
  · rw [if_neg (by omega), if_neg (by omega), hs h]
  · rw [if_pos (by omega), if_pos h, hr]

theorem firstOf_eq_zero : firstOf x y = 0 ↔ x = 0 ∧ y = 0 := by
  unfold firstOf
  split_ifs with h
  · exact ⟨fun h0 => absurd h0 h, fun h0 => h0.1⟩
  · exact ⟨fun h0 => ⟨not_not.mp h, h0⟩, fun h0 => h0.2⟩

/-- The second comparisons matter only where the first ones find nothing. -/
theorem Ordered.firstOf (h : Ordered ab bc ac) (h' : ab = 0 → bc = 0 → Ordered ab' bc' ac') :
    Ordered (firstOf ab ab') (firstOf bc bc') (firstOf ac ac') := by
  obtain ⟨hl, hr, hn, hp⟩ := h
  unfold Lib.firstOf
  by_cases hab : ab = 0
  · by_cases hbc : bc = 0
    · have hac : ac = 0 := (hl hab).trans hbc
      rw [if_neg (not_not.mpr hab), if_neg (not_not.mpr hbc), if_neg (not_not.mpr hac)]
      exact h' hab hbc
    · have hac := hl hab
      rw [if_neg (not_not.mpr hab), if_pos hbc, if_pos (by omega)]
      constructor <;> intros <;> omega
  · by_cases hbc : bc = 0
    · have hac := hr hbc
      rw [if_pos hab, if_neg (not_not.mpr hbc), if_pos (by omega)]
      constructor <;> intros <;> omega
    · rw [if_pos hab, if_pos hbc]
      constructor
      · exact fun h => absurd h hab
      · exact fun h => absurd h hbc
      · intro h1 h2
        have := hn h1 h2
        rw [if_pos (by omega)]
        exact this
      · intro h1 h2
        have := hp h1 h2
        rw [if_pos (by omega)]
        exact this

/-! ## Lists -/

theorem compareInts_swap (xs ys : List Int) : compareInts ys xs = -compareInts xs ys := by
  induction xs generalizing ys with
  | nil => cases ys <;> rfl
  | cons x xs ih =>
    cases ys with
    | nil => rfl
    | cons y ys => exact firstOf_swap (compareInt_swap x y) fun _ => ih ys

theorem compareInts_eq_zero (h : xs.length = ys.length) : compareInts xs ys = 0 ↔ xs = ys := by
  induction xs generalizing ys with
  | nil =>
    rw [List.length_eq_zero_iff.mp h.symm]
    exact iff_of_true rfl rfl
  | cons x xs ih =>
    cases ys with
    | nil => cases h
    | cons y ys =>
      rw [compareInts, firstOf_eq_zero, compareInt_eq_zero, ih (Nat.succ.inj h), List.cons.injEq]

theorem ordered_compareInts (hxy : xs.length = ys.length) (hyz : ys.length = zs.length) :
    Ordered (compareInts xs ys) (compareInts ys zs) (compareInts xs zs) := by
  induction xs generalizing ys zs with
  | nil =>
    obtain rfl := List.length_eq_zero_iff.mp hxy.symm
    obtain rfl := List.length_eq_zero_iff.mp hyz.symm
    exact ordered_sub 0 0 0
  | cons x xs ih =>
    cases ys with
    | nil => cases hxy
    | cons y ys =>
      cases zs with
      | nil => cases hyz
      | cons z zs =>
        exact (ordered_compareInt x y z).firstOf fun _ _ => ih (Nat.succ.inj hxy) (Nat.succ.inj hyz)

end Path64.Lib

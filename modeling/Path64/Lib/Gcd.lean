import Path64.Lib.Wrap
import Mathlib.Algebra.Order.Ring.Abs
import Mathlib.Data.Int.GCD

/-!
# Absolute values and greatest common divisors of a fixed width

* `abs32`, `abs64` : the absolute value, which of the least number is that number; `absInt` : that of the low 32 bits;
* `gcd32`, `gcd64` : the algorithm of Euclid on the absolute values;
* `natAbs_gcd32`, `gcd32_nonneg`, `dvd_gcd32`, `dvd_gcd64` : what they compute.
-/

namespace Path64

/-- The absolute value of a 32-bit number. -/
def abs32 (x : Int) : Int := wrap32 |x|

/-- The absolute value of a 64-bit number. -/
def abs64 (x : Int) : Int := wrap64 |x|

/-- The absolute value for 32-bit numbers, of a number that is converted to one first. -/
def absInt (x : Int) : Int := abs32 (wrap32 x)

/-- `do … while (i)`. -/
def gcdLoop : Nat → Int → Int → Int
  | 0, _, j => j
  | k + 1, i, j => if i = 0 then j else gcdLoop k (j.tmod i) i

/-- The greatest common divisor of absolute values. -/
def gcdAbs (i j : Int) : Int :=
  if i = 0 then j
  else if j = 0 then i
  else if i > j then gcdLoop (j.natAbs + 1) j i
  else gcdLoop (i.natAbs + 1) i j

/-- The greatest common divisor of two 32-bit numbers. -/
def gcd32 (i j : Int) : Int := gcdAbs (abs32 i) (abs32 j)

/-- The greatest common divisor of two 64-bit numbers. -/
def gcd64 (i j : Int) : Int := gcdAbs (abs64 i) (abs64 j)

/-! ## Absolute values -/

theorem inInt32_abs32 (x : Int) : InInt32 (abs32 x) := inInt32_wrap32 _

theorem abs32_eq {x : Int} (h : InInt32 x) : abs32 x = if x = -2 ^ 31 then x else |x| := by
  obtain ⟨h1, h2⟩ := h
  split_ifs with hmin
  · rw [hmin]
    decide
  · refine wrap32_eq_iff.2 ?_
    rcases abs_cases x with ⟨heq, -⟩ | ⟨heq, -⟩ <;> rw [heq] <;> constructor <;> omega

theorem abs32_nonneg {x : Int} (h : InInt32 x) (hmin : x ≠ -2 ^ 31) : abs32 x = |x| := by rw [abs32_eq h, if_neg hmin]

theorem natAbs_abs32 {x : Int} (h : InInt32 x) : (abs32 x).natAbs = x.natAbs := by
  rw [abs32_eq h]
  split_ifs
  · rfl
  · exact Int.natAbs_abs x

theorem dvd_abs32 {x : Int} (hx : InInt32 x) (d : Int) : d ∣ abs32 x ↔ d ∣ x := by
  rw [← Int.dvd_natAbs, natAbs_abs32 hx, Int.dvd_natAbs]

theorem absInt_lt (x : Int) : absInt x < 2 ^ 31 := (inInt32_abs32 _).2

theorem natAbs_abs64 {x : Int} (h : InInt64 x) : (abs64 x).natAbs = x.natAbs := by
  obtain ⟨h1, h2⟩ := h
  rw [abs64, wrap64, Int.bmod_def]
  rcases abs_cases x with ⟨heq, -⟩ | ⟨heq, -⟩ <;> rw [heq] <;> split_ifs <;> omega

theorem abs64_nonneg {x : Int} (h : InInt64 x) (hmin : x ≠ -2 ^ 63) : 0 ≤ abs64 x := by
  obtain ⟨h1, h2⟩ := h
  rw [abs64, wrap64_eq]
  · exact abs_nonneg x
  · rcases abs_cases x with ⟨heq, -⟩ | ⟨heq, -⟩ <;> rw [heq] <;> constructor <;> omega

/-! ## Euclid's algorithm -/

theorem natAbs_gcdLoop (k : Nat) : ∀ i j : Int, i.natAbs < k → (gcdLoop k i j).natAbs = Int.gcd i j := by
  induction k with
  | zero => exact fun i j h => absurd h (Nat.not_lt_zero _)
  | succ k ih =>
    intro i j h
    rw [gcdLoop]
    split_ifs with hi
    · rw [hi, Int.gcd_zero_left]
    · have hpos := Int.natAbs_pos.2 hi
      have hlt : (j.tmod i).natAbs < i.natAbs := by
        rw [Int.natAbs_tmod]
        exact Nat.mod_lt _ hpos
      rw [ih (j.tmod i) i (by omega)]
      show Nat.gcd (j.tmod i).natAbs i.natAbs = Nat.gcd i.natAbs j.natAbs
      rw [Int.natAbs_tmod, ← Nat.gcd_rec]

theorem gcdLoop_nonneg (k : Nat) : ∀ i j : Int, 0 ≤ i → 0 ≤ j → 0 ≤ gcdLoop k i j := by
  induction k with
  | zero => exact fun i j _ hj => hj
  | succ k ih =>
    intro i j hi hj
    rw [gcdLoop]
    split_ifs
    · exact hj
    · exact ih _ _ (Int.tmod_nonneg i hj) hi

theorem gcdLoop_range (m : Int) (k : Nat) : ∀ i j : Int, -m ≤ i ∧ i < m → -m ≤ j ∧ j < m →
    -m ≤ gcdLoop k i j ∧ gcdLoop k i j < m := by
  induction k with
  | zero => exact fun i j _ hj => hj
  | succ k ih =>
    intro i j hi hj
    rw [gcdLoop]
    split_ifs
    · exact hj
    · refine ih _ _ ?_ hi
      have hle : (j.tmod i).natAbs ≤ j.natAbs := by
        rw [Int.natAbs_tmod]
        exact Nat.mod_le _ _
      obtain ⟨h1, h2⟩ := hj
      constructor
      · omega
      · rcases le_or_gt 0 j with hpos | hneg
        · omega
        · have hsign := Int.tmod_nonneg i (show 0 ≤ -j by omega)
          rw [Int.neg_tmod] at hsign
          omega

theorem natAbs_gcdAbs (i j : Int) : (gcdAbs i j).natAbs = Int.gcd i j := by
  unfold gcdAbs
  split_ifs with h1 h2 h3
  · rw [h1, Int.gcd_zero_left]
  · rw [h2, Int.gcd_zero_right]
  · rw [natAbs_gcdLoop _ _ _ (Nat.lt_succ_self _), Int.gcd_comm]
  · exact natAbs_gcdLoop _ _ _ (Nat.lt_succ_self _)

theorem gcdAbs_nonneg {i j : Int} (hi : 0 ≤ i) (hj : 0 ≤ j) : 0 ≤ gcdAbs i j := by
  unfold gcdAbs
  split_ifs
  · exact hj
  · exact hi
  · exact gcdLoop_nonneg _ _ _ hj hi
  · exact gcdLoop_nonneg _ _ _ hi hj

theorem gcdAbs_range {m i j : Int} (hi : -m ≤ i ∧ i < m) (hj : -m ≤ j ∧ j < m) : -m ≤ gcdAbs i j ∧ gcdAbs i j < m := by
  unfold gcdAbs
  split_ifs
  · exact hj
  · exact hi
  · exact gcdLoop_range _ _ _ _ hj hi
  · exact gcdLoop_range _ _ _ _ hi hj

theorem natAbs_gcd32 {i j : Int} (hi : InInt32 i) (hj : InInt32 j) : (gcd32 i j).natAbs = Int.gcd i j := by
  rw [gcd32, natAbs_gcdAbs]
  show Nat.gcd _ _ = Nat.gcd _ _
  rw [natAbs_abs32 hi, natAbs_abs32 hj]

theorem gcd32_nonneg {i j : Int} (hi : InInt32 i) (hj : InInt32 j) (hi' : i ≠ -2 ^ 31) (hj' : j ≠ -2 ^ 31) :
    gcd32 i j = Int.gcd i j := by
  have hnonneg : 0 ≤ gcd32 i j := by
    rw [gcd32, abs32_nonneg hi hi', abs32_nonneg hj hj']
    exact gcdAbs_nonneg (abs_nonneg i) (abs_nonneg j)
  rw [← natAbs_gcd32 hi hj, Int.natAbs_of_nonneg hnonneg]

theorem inInt32_gcd32 (i j : Int) : InInt32 (gcd32 i j) := gcdAbs_range (inInt32_wrap32 _) (inInt32_wrap32 _)

theorem dvd_gcd32 {i j : Int} (hi : InInt32 i) (hj : InInt32 j) (d : Int) : d ∣ gcd32 i j ↔ d ∣ i ∧ d ∣ j := by
  rw [← Int.dvd_natAbs, natAbs_gcd32 hi hj, Int.dvd_coe_gcd_iff]

theorem inInt64_gcd64 (i j : Int) : InInt64 (gcd64 i j) := gcdAbs_range (inInt64_wrap64 _) (inInt64_wrap64 _)

theorem dvd_gcd64 {i j : Int} (hi : InInt64 i) (hj : InInt64 j) (d : Int) : d ∣ gcd64 i j ↔ d ∣ i ∧ d ∣ j := by
  rw [← Int.dvd_natAbs, gcd64, natAbs_gcdAbs, Int.dvd_coe_gcd_iff]
  rw [← Int.dvd_natAbs (b := abs64 i), natAbs_abs64 hi, Int.dvd_natAbs, ← Int.dvd_natAbs (b := abs64 j), natAbs_abs64 hj,
    Int.dvd_natAbs]

end Path64

import Mathlib.Data.Int.Bitwise
import Mathlib.RingTheory.Coprime.Lemmas
import Mathlib.Tactic.Ring
import Mathlib.Tactic.Positivity
import Mathlib.Tactic.Linarith

/-!
# The bits of integers

Integers in two's complement, with no width: bit `k` of `m` is the parity of `m / 2 ^ k`.

* `testBit_eq` : that reading; `eq_of_testBit` : integers with the same bits are equal;
* `testBit_emod`, `testBit_bmod`, `testBit_mul_two_pow`, `testBit_div_two_pow` : the bits of a residue, of a multiple and
  of a quotient;
* `emod_two_pow_eq_iff` : residues agree when the low bits do; so `land`, `lor`, `xor` and `lnot` go through residues
  (`land_emod_congr`, …); `land_two_pow_sub_one` : a mask of ones takes the residue;
* `land_sub_one_eq_zero_iff` : the test for a power of two.
-/

namespace Path64.Lib

variable {m n : Int} {k w : Nat}

theorem testBit_eq (m : Int) (k : Nat) : m.testBit k = decide (m / 2 ^ k % 2 = 1) := by
  cases m with
  | ofNat m =>
    show m.testBit k = _
    rw [Nat.testBit_eq_decide_div_mod_eq, decide_eq_decide, Int.ofNat_eq_natCast]
    norm_cast
  | negSucc m =>
    show (!m.testBit k) = _
    have hpos : (0 : Int) < 2 ^ k := by positivity
    have hdiv : Int.negSucc m / 2 ^ k = -(((m / 2 ^ k : Nat) : Int) + 1) := by
      rw [Int.negSucc_ediv m hpos]
      push_cast
      rfl
    rw [Nat.testBit_eq_decide_div_mod_eq, hdiv, ← decide_not, decide_eq_decide]
    omega

@[simp]
theorem zero_testBit (k : Nat) : (0 : Int).testBit k = false := by
  rw [testBit_eq, Int.zero_ediv]
  rfl

theorem emod_two_pow_succ (m : Int) (w : Nat) : m % 2 ^ (w + 1) = m % 2 ^ w + 2 ^ w * (m / 2 ^ w % 2) := by
  have hpos : (0 : Int) ≤ 2 ^ w := by positivity
  rw [Int.emod_def m (2 ^ (w + 1)), Int.emod_def m (2 ^ w), Int.emod_def (m / 2 ^ w) 2,
    Int.ediv_ediv_of_nonneg hpos, pow_succ]
  ring

theorem emod_two_pow_eq_iff : m % 2 ^ w = n % 2 ^ w ↔ ∀ k < w, m.testBit k = n.testBit k := by
  induction w with
  | zero => simp
  | succ w ih =>
    rw [emod_two_pow_succ, emod_two_pow_succ]
    have hpos : (0 : Int) < 2 ^ w := by positivity
    have hbit : m.testBit w = n.testBit w ↔ m / 2 ^ w % 2 = n / 2 ^ w % 2 := by
      rw [testBit_eq, testBit_eq, decide_eq_decide]
      omega
    constructor
    · intro h
      have hlow : m % 2 ^ w = n % 2 ^ w := by
        have := congrArg (· % (2 : Int) ^ w) h
        simpa only [Int.add_mul_emod_self_left, Int.emod_emod_of_dvd _ (dvd_refl _)] using this
      have htop : m / 2 ^ w % 2 = n / 2 ^ w % 2 := by
        rw [hlow] at h
        exact mul_left_cancel₀ hpos.ne' (add_left_cancel h)
      intro k hk
      rcases Nat.lt_succ_iff_lt_or_eq.mp hk with hlt | rfl
      · exact ih.mp hlow k hlt
      · exact hbit.mpr htop
    · intro h
      rw [ih.mpr fun k hk => h k (Nat.lt_succ_of_lt hk), hbit.mp (h w (Nat.lt_succ_self w))]

theorem eq_of_testBit (h : ∀ k, m.testBit k = n.testBit k) : m = n := by
  -- residues by a power that is larger than the difference
  have hdvd : (2 : Int) ^ (m - n).natAbs ∣ m - n :=
    Int.dvd_of_emod_eq_zero (Int.emod_eq_emod_iff_emod_sub_eq_zero.mp (emod_two_pow_eq_iff.mpr fun k _ => h k))
  have hlt : (m - n).natAbs < ((2 : Int) ^ (m - n).natAbs).natAbs := by
    rw [Int.natAbs_pow]
    exact Nat.lt_two_pow_self
  exact sub_eq_zero.mp (Int.eq_zero_of_dvd_of_natAbs_lt_natAbs hdvd hlt)

theorem testBit_emod (m : Int) (w k : Nat) : (m % 2 ^ w).testBit k = (decide (k < w) && m.testBit k) := by
  by_cases hk : k < w
  · rw [decide_eq_true hk, Bool.true_and]
    exact emod_two_pow_eq_iff.mp (Int.emod_emod_of_dvd m (dvd_refl _)) k hk
  · rw [decide_eq_false hk, Bool.false_and, testBit_eq, decide_eq_false]
    have hle : (2 : Int) ^ w ≤ 2 ^ k := pow_le_pow_right₀ (by norm_num) (Nat.le_of_not_lt hk)
    have hpos : (0 : Int) < 2 ^ w := by positivity
    rw [Int.ediv_eq_zero_of_lt (Int.emod_nonneg m hpos.ne') ((Int.emod_lt_of_pos m hpos).trans_le hle)]
    decide

theorem testBit_div_two_pow (m : Int) (n k : Nat) : (m / 2 ^ n).testBit k = m.testBit (n + k) := by
  rw [testBit_eq, testBit_eq, Int.ediv_ediv_of_nonneg (by positivity), ← pow_add]

theorem testBit_mul_two_pow (m : Int) (n k : Nat) : (m * 2 ^ n).testBit k = (decide (n ≤ k) && m.testBit (k - n)) := by
  have hpos : (2 : Int) ^ n ≠ 0 := by positivity
  by_cases hk : n ≤ k
  · obtain ⟨j, rfl⟩ := Nat.exists_eq_add_of_le hk
    rw [decide_eq_true hk, Bool.true_and, Nat.add_sub_cancel_left, ← testBit_div_two_pow, Int.mul_ediv_cancel _ hpos]
  · rw [decide_eq_false hk, Bool.false_and, testBit_eq, decide_eq_false]
    obtain ⟨j, rfl⟩ := Nat.exists_eq_add_of_lt (Nat.lt_of_not_le hk)
    rw [show m * 2 ^ (k + j + 1) = m * 2 ^ j * 2 * 2 ^ k by ring, Int.mul_ediv_cancel _ (by positivity)]
    omega

theorem testBit_of_bounds (hlow : -2 ^ w ≤ m) (hhigh : m < 2 ^ w) (hk : w ≤ k) : m.testBit k = decide (m < 0) := by
  have hle : (2 : Int) ^ w ≤ 2 ^ k := pow_le_pow_right₀ (by norm_num) hk
  have hpos : (0 : Int) < 2 ^ k := by positivity
  rw [testBit_eq, decide_eq_decide]
  rcases lt_or_ge m 0 with hneg | hnonneg
  · have hdiv : m / 2 ^ k = -1 := by
      rw [show m = 2 ^ k * (-1) + (m + 2 ^ k) by ring, Int.mul_add_ediv_left _ _ hpos.ne',
        Int.ediv_eq_zero_of_lt (by omega) (by omega), add_zero]
    exact iff_of_true (by rw [hdiv]; decide) hneg
  · rw [Int.ediv_eq_zero_of_lt hnonneg (by omega)]
    exact iff_of_false (by decide) (by omega)

/-- The balanced residue repeats its highest bit. -/
theorem testBit_bmod (m : Int) (hw : 1 ≤ w) (k : Nat) : (m.bmod (2 ^ w)).testBit k = m.testBit (min k (w - 1)) := by
  have hlow : ∀ j < w, (m.bmod (2 ^ w)).testBit j = m.testBit j := by
    refine emod_two_pow_eq_iff.mp ?_
    rw [show ((2 : Int) ^ w) = ((2 ^ w : Nat) : Int) by push_cast; rfl]
    exact Int.bmod_emod
  by_cases hk : k < w
  · rw [Nat.min_eq_left (by omega), hlow k hk]
  · have hhalf : (2 : Int) ^ w = 2 * 2 ^ (w - 1) := by rw [← pow_succ', Nat.sub_add_cancel hw]
    have hle := Int.le_bmod (x := m) (m := 2 ^ w) (by positivity)
    have hlt := Int.bmod_lt (x := m) (m := 2 ^ w) (by positivity)
    push_cast at hle hlt
    have hsign : ∀ j, w - 1 ≤ j → (m.bmod (2 ^ w)).testBit j = decide (m.bmod (2 ^ w) < 0) :=
      fun j => testBit_of_bounds (by omega) (by omega)
    rw [Nat.min_eq_right (by omega), ← hlow (w - 1) (by omega), hsign k (by omega), hsign (w - 1) le_rfl]

theorem testBit_two_pow (n k : Nat) : ((2 : Int) ^ n).testBit k = decide (k = n) := by
  rw [show (2 : Int) ^ n = ((2 ^ n : Nat) : Int) by push_cast; rfl]
  show (2 ^ n : Nat).testBit k = _
  rw [Nat.testBit_two_pow]
  exact decide_eq_decide.mpr eq_comm

theorem two_pow_dvd_mul_odd_iff (hodd : ¬(2 : Int) ∣ n) : (2 : Int) ^ w ∣ m * n ↔ 2 ^ w ∣ m := by
  have hcoprime : IsCoprime ((2 : Int) ^ w) n := by
    refine IsCoprime.pow_left ⟨-(n / 2), 1, ?_⟩
    omega
  exact ⟨hcoprime.dvd_of_dvd_mul_right, fun h => h.mul_right n⟩

theorem mul_two_pow_emod_eq_iff (m : Int) (a b w : Nat) :
    m * 2 ^ a % 2 ^ w = m * 2 ^ b % 2 ^ w ↔ a = b ∨ 2 ^ w ∣ m * 2 ^ min a b := by
  wlog h : a ≤ b generalizing a b
  · rw [eq_comm, this b a (by omega), eq_comm, min_comm]
  rw [min_eq_left h]
  rcases h.eq_or_lt with rfl | hlt
  · exact iff_of_true rfl (Or.inl rfl)
  obtain ⟨j, rfl⟩ := Nat.exists_eq_add_of_lt hlt
  have hodd : ¬(2 : Int) ∣ 2 ^ (j + 1) - 1 := by
    rw [pow_succ]
    omega
  have hdiff : m * 2 ^ (a + j + 1) - m * 2 ^ a = m * 2 ^ a * (2 ^ (j + 1) - 1) := by ring
  rw [eq_comm, Int.emod_eq_emod_iff_emod_sub_eq_zero, hdiff, ← Int.dvd_iff_emod_eq_zero, two_pow_dvd_mul_odd_iff hodd]
  exact (or_iff_right (by omega)).symm

/-! ## Bitwise operations and residues -/

section Congr

variable {m' n' : Int}

theorem land_emod_congr (hm : m % 2 ^ w = m' % 2 ^ w) (hn : n % 2 ^ w = n' % 2 ^ w) :
    m.land n % 2 ^ w = m'.land n' % 2 ^ w := by
  rw [emod_two_pow_eq_iff] at *
  intro k hk
  rw [Int.testBit_land, Int.testBit_land, hm k hk, hn k hk]

theorem lor_emod_congr (hm : m % 2 ^ w = m' % 2 ^ w) (hn : n % 2 ^ w = n' % 2 ^ w) :
    m.lor n % 2 ^ w = m'.lor n' % 2 ^ w := by
  rw [emod_two_pow_eq_iff] at *
  intro k hk
  rw [Int.testBit_lor, Int.testBit_lor, hm k hk, hn k hk]

theorem xor_emod_congr (hm : m % 2 ^ w = m' % 2 ^ w) (hn : n % 2 ^ w = n' % 2 ^ w) :
    m.xor n % 2 ^ w = m'.xor n' % 2 ^ w := by
  rw [emod_two_pow_eq_iff] at *
  intro k hk
  rw [Int.testBit_lxor, Int.testBit_lxor, hm k hk, hn k hk]

theorem lnot_emod_congr (hm : m % 2 ^ w = m' % 2 ^ w) : m.lnot % 2 ^ w = m'.lnot % 2 ^ w := by
  rw [emod_two_pow_eq_iff] at *
  intro k hk
  rw [Int.testBit_lnot, Int.testBit_lnot, hm k hk]

end Congr

theorem testBit_two_pow_sub_one (w k : Nat) : ((2 : Int) ^ w - 1).testBit k = decide (k < w) := by
  rw [show (2 : Int) ^ w - 1 = (((2 ^ w - 1 : Nat)) : Int) by push_cast [Nat.one_le_two_pow]; ring]
  exact Nat.testBit_two_pow_sub_one w k

theorem land_two_pow_sub_one (m : Int) (w : Nat) : m.land (2 ^ w - 1) = m % 2 ^ w := by
  apply eq_of_testBit
  intro k
  rw [Int.testBit_land, testBit_two_pow_sub_one, testBit_emod, Bool.and_comm]

theorem land_neg (hm : m < 0) (hn : n < 0) : m.land n < 0 := by
  obtain ⟨a, rfl⟩ := Int.eq_negSucc_of_lt_zero hm
  obtain ⟨b, rfl⟩ := Int.eq_negSucc_of_lt_zero hn
  exact Int.negSucc_lt_zero _

theorem xor_neg_iff : m.xor n < 0 ↔ ¬(m < 0 ↔ n < 0) := by
  cases m <;> cases n
  · exact iff_of_false (not_lt.mpr (Int.natCast_nonneg _)) fun h => h (iff_of_false (by simp) (by simp))
  · exact iff_of_true (Int.negSucc_lt_zero _) fun h => absurd (h.mpr (Int.negSucc_lt_zero _)) (by simp)
  · exact iff_of_true (Int.negSucc_lt_zero _) fun h => absurd (h.mp (Int.negSucc_lt_zero _)) (by simp)
  · exact iff_of_false (not_lt.mpr (Int.natCast_nonneg _))
      fun h => h (iff_of_true (Int.negSucc_lt_zero _) (Int.negSucc_lt_zero _))

/-- The test for a power of two: a number with another bit below its highest one shares that with its predecessor. -/
theorem land_sub_one_eq_zero_iff (hm : 0 < m) : m.land (m - 1) = 0 ↔ ∃ n : Nat, m = 2 ^ n := by
  constructor
  · intro h
    obtain ⟨x, rfl⟩ := Int.eq_ofNat_of_zero_le hm.le
    have hx : x ≠ 0 := by omega
    refine ⟨x.log2, ?_⟩
    have hle : (2 : Int) ^ x.log2 ≤ x := by exact_mod_cast Nat.log2_self_le hx
    have hlt : (x : Int) < 2 * 2 ^ x.log2 := by
      rw [← pow_succ']
      exact_mod_cast Nat.lt_log2_self
    have hpos : (0 : Int) < 2 ^ x.log2 := by positivity
    have hbit : ∀ y : Int, 2 ^ x.log2 ≤ y → y < 2 * 2 ^ x.log2 → y.testBit x.log2 = true := by
      intro y hy hy'
      have hone : y / 2 ^ x.log2 = 1 := by
        rw [show y = 2 ^ x.log2 * 1 + (y - 2 ^ x.log2) by ring, Int.mul_add_ediv_left _ _ hpos.ne',
          Int.ediv_eq_zero_of_lt (by omega) (by omega), add_zero]
      rw [testBit_eq, hone]
      decide
    by_contra hne
    have hzero := congrArg (fun y => Int.testBit y x.log2) h
    simp only [Int.testBit_land, hbit x hle hlt, hbit (x - 1) (by omega) (by omega)] at hzero
    rw [testBit_eq, Int.zero_ediv] at hzero
    exact absurd hzero (by decide)
  · rintro ⟨n, rfl⟩
    rw [land_two_pow_sub_one, Int.emod_self]

end Path64.Lib

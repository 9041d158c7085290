import Mathlib.Data.BitVec
import Mathlib.Data.Rat.Defs
import Mathlib.Algebra.Order.Field.Rat
import Mathlib.Algebra.Order.Field.Power
import Mathlib.Tactic.FieldSimp
import Mathlib.Tactic.Ring

/-!
# Binary floating-point patterns

The patterns of a binary interchange format, and the rationals that they denote.

* `Ieee`, `Ieee.Pattern` : a format, and the sign, the exponent and the fraction of a pattern;
* `value`, `IsFinite`, `IsInfinite` : what a pattern denotes;
* `Rebiased` : a pattern of a wider format with the same sign, the exponent moved to the other bias and the same leading
  bits of the fraction; `Rebiased.value_eq_iff` : it denotes the same number just for the normal numbers;
  `Rebiased.isFinite` : it is never an infinity.
-/

namespace Path64.Lib

/-- A format: its numbers of exponent and fraction bits. -/
structure Ieee where
  exponentBits : Nat
  fractionBits : Nat
  deriving DecidableEq, Repr

namespace Ieee

/-- What is added to an exponent. -/
def bias (F : Ieee) : Nat := 2 ^ (F.exponentBits - 1) - 1

/-- A pattern of the format. -/
structure Pattern (F : Ieee) where
  negative : Bool
  exponent : BitVec F.exponentBits
  fraction : BitVec F.fractionBits
  deriving DecidableEq

namespace Pattern
variable {F G : Ieee}

/-- The number that a finite pattern denotes. -/
def value (x : Pattern F) : ℚ :=
  (if x.negative then -1 else 1) *
    if x.exponent = 0 then x.fraction.toNat * (2 : ℚ) ^ (1 - F.bias - F.fractionBits : ℤ)
    else (2 ^ F.fractionBits + x.fraction.toNat) * (2 : ℚ) ^ (x.exponent.toNat - F.bias - F.fractionBits : ℤ)

def IsFinite (x : Pattern F) : Prop := x.exponent ≠ BitVec.allOnes _

def IsInfinite (x : Pattern F) : Prop := x.exponent = BitVec.allOnes _ ∧ x.fraction = 0

instance (x : Pattern F) : Decidable x.IsFinite := inferInstanceAs (Decidable (_ ≠ _))

instance (x : Pattern F) : Decidable x.IsInfinite := inferInstanceAs (Decidable (_ ∧ _))

/-- The pattern of a wider format with the exponent moved to the other bias. -/
structure Rebiased (x : Pattern F) (y : Pattern G) : Prop where
  negative : y.negative = x.negative
  exponent : y.exponent.toNat + F.bias = x.exponent.toNat + G.bias
  fraction : y.fraction.toNat = x.fraction.toNat * 2 ^ (G.fractionBits - F.fractionBits)

/-- A pattern of exponent 0 is widened to one that is not. -/
theorem Rebiased.value_eq_iff {x : Pattern F} {y : Pattern G} (h : Rebiased x y) (hbias : F.bias < G.bias)
    (hbits : F.fractionBits ≤ G.fractionBits) : y.value = x.value ↔ x.exponent ≠ 0 := by
  have hexp := h.exponent
  have hne : y.exponent ≠ 0 := fun h0 => by
    rw [h0] at hexp
    have : (0 : BitVec G.exponentBits).toNat = 0 := rfl
    omega
  -- the fraction and the leading bit, over the smaller number of bits
  have hwide : (2 ^ G.fractionBits + (y.fraction.toNat : ℚ)) *
        (2 : ℚ) ^ (y.exponent.toNat - G.bias - G.fractionBits : ℤ) =
      (2 ^ F.fractionBits + (x.fraction.toNat : ℚ)) * (2 : ℚ) ^ (x.exponent.toNat - F.bias - F.fractionBits : ℤ) := by
    have hsplit : (x.exponent.toNat - F.bias - F.fractionBits : ℤ) =
        (G.fractionBits - F.fractionBits : Nat) + (y.exponent.toNat - G.bias - G.fractionBits : ℤ) := by omega
    have hpow : (2 : ℚ) ^ G.fractionBits = 2 ^ F.fractionBits * 2 ^ (G.fractionBits - F.fractionBits) := by
      rw [← pow_add, Nat.add_sub_cancel' hbits]
    rw [hsplit, zpow_add₀ two_ne_zero, zpow_natCast, h.fraction, hpow, Nat.cast_mul, Nat.cast_pow, Nat.cast_ofNat]
    ring
  unfold value
  rw [h.negative, if_neg hne, hwide]
  by_cases h0 : x.exponent = 0
  · refine iff_of_false (fun heq => ?_) (not_not.mpr h0)
    have hsign : (if x.negative then -1 else 1 : ℚ) ≠ 0 := by split_ifs <;> norm_num
    have hzero : x.exponent.toNat = 0 := congrArg BitVec.toNat h0
    have hsplit : (1 - F.bias - F.fractionBits : ℤ) = 1 + ((0 : Nat) - F.bias - F.fractionBits : ℤ) := by omega
    rw [if_pos h0, hzero, hsplit, zpow_add₀ two_ne_zero, zpow_one, ← mul_assoc (x.fraction.toNat : ℚ)] at heq
    have hfrac := mul_right_cancel₀ (zpow_ne_zero _ two_ne_zero) (mul_left_cancel₀ hsign heq)
    have hnat : 2 ^ F.fractionBits + x.fraction.toNat = x.fraction.toNat * 2 := by exact_mod_cast hfrac
    have := x.fraction.isLt
    omega
  · rw [if_neg h0]
    exact iff_of_true rfl h0

/-- In a format of more exponents no pattern becomes an infinity. -/
theorem Rebiased.isFinite {x : Pattern F} {y : Pattern G} (h : Rebiased x y)
    (hbits : 2 ^ F.exponentBits + G.bias < 2 ^ G.exponentBits + F.bias) : y.IsFinite := by
  intro hones
  have hexp := h.exponent
  have := x.exponent.isLt
  rw [hones, BitVec.toNat_allOnes] at hexp
  omega

end Pattern

end Ieee

end Path64.Lib

import Mathlib.Data.Int.Order.Basic
import Mathlib.Tactic.SplitIfs
import Mathlib.Tactic.Ring

/-!
# Arithmetic of a fixed width

* `wrap32`, `wrap64` : the value of a signed operation in 32 and in 64 bits;
* `InInt32`, `InInt64` : the values of these types;
* `wrap32_eq_iff`, `wrap64_eq` : an operation is exact just where its value is of the type.
-/

namespace Path64

/-- The value of a signed 32-bit operation whose exact result is `x`. -/
def wrap32 (x : Int) : Int := x.bmod (2 ^ 32)

/-- The value of a signed 64-bit operation whose exact result is `x`. -/
def wrap64 (x : Int) : Int := x.bmod (2 ^ 64)

/-- The values of a signed 32-bit type. -/
def InInt32 (x : Int) : Prop := -2 ^ 31 ≤ x ∧ x < 2 ^ 31

/-- The values of a signed 64-bit type. -/
def InInt64 (x : Int) : Prop := -2 ^ 63 ≤ x ∧ x < 2 ^ 63

instance (x : Int) : Decidable (InInt32 x) := inferInstanceAs (Decidable (_ ∧ _))

instance (x : Int) : Decidable (InInt64 x) := inferInstanceAs (Decidable (_ ∧ _))

theorem inInt32_wrap32 (x : Int) : InInt32 (wrap32 x) := by
  rw [wrap32, InInt32, Int.bmod_def]
  split_ifs <;> omega

theorem inInt64_wrap64 (x : Int) : InInt64 (wrap64 x) := by
  have h1 := Int.le_bmod (x := x) (m := 2 ^ 64) (by decide)
  have h2 := Int.bmod_lt (x := x) (m := 2 ^ 64) (by decide)
  constructor <;> unfold wrap64 <;> omega

theorem wrap32_eq_iff {x : Int} : wrap32 x = x ↔ InInt32 x := by
  constructor
  · intro h
    rw [← h]
    exact inInt32_wrap32 x
  · intro h
    rw [InInt32] at h
    rw [wrap32, Int.bmod_def]
    split_ifs <;> omega

theorem wrap64_eq {x : Int} (h : InInt64 x) : wrap64 x = x := by
  rw [InInt64] at h
  rw [wrap64, Int.bmod_def]
  split_ifs <;> omega

theorem wrap32_emod (x : Int) : wrap32 x % 2 ^ 32 = x % 2 ^ 32 := Int.bmod_emod

end Path64

import Path64.Simp.Node
import Mathlib.Data.BitVec

/-!
# Integer constants of the target

The constants of `targ_const.cxx` of the types I4, U4, I8 and U8, and the conversions between them.

* `Tcon`, `read`, `write` : a constant, and its words as the accessors `TCON_I4`, `TCON_U4`, `TCON_I8` and `TCON_U8`
  read and write them;
* `targConv`, `bothOpnds` : `Targ_Conv` and `BOTH_OPNDS`;
* `read_write`, `high_write`, `read_targConv`, `high_targConv` : what they do to the value and to the high word.
-/

namespace Path64.Targ
open Simp

/-- `TCON`, of an integer type: the type, and the words `v0` and `v1` of the value together. -/
structure Tcon where
  ty : RType
  vals : BitVec 64
  deriving DecidableEq, Repr

namespace Tcon
variable {ty ty' : RType} {c c0 c1 : Tcon} {x : Int}

/-- The accessor of the type: `TCON_I4`, `TCON_U4`, `TCON_I8` or `TCON_U8`. -/
def read (ty : RType) (c : Tcon) : Int := ty.1.wrap c.vals.toNat

/-- The value of the constant. -/
def value (c : Tcon) : Int := c.read c.ty

/-- `TCON_v1`, the high word. -/
def high (c : Tcon) : BitVec 32 := c.vals.extractLsb' 32 32

/-- An assignment to the accessor of the type. That of a 4-byte type leaves the high word as it is. -/
def write (ty : RType) (c : Tcon) (x : Int) : Tcon :=
  { c with vals := if ty.1.bits = 32 then c.high ++ BitVec.ofInt 32 x else BitVec.ofInt 64 x }

/-- `Targ_Conv`: the value, assigned to a constant without bits. -/
def targConv (tyTo : RType) (c : Tcon) : Tcon := if c.ty = tyTo then c else write tyTo ⟨tyTo, 0⟩ c.value

/-- `BOTH_OPNDS`. -/
def bothOpnds (op0 op1 : Tcon) (type : RType) : Tcon × Tcon :=
  let ops := if type ≠ .u8 then (targConv type op0, targConv type op1) else (op0, op1)
  ({ ops.1 with ty := type }, ops.2)

/-! ## Reading what was written -/

@[simp] theorem ty_write (ty : RType) (c : Tcon) (x : Int) : (write ty c x).ty = c.ty := rfl

theorem high_write (h : ty.1.bits = 32) (c : Tcon) (x : Int) : (write ty c x).high = c.high := by
  rw [high, write, if_pos h]
  exact BitVec.extractLsb'_append_eq_left

/-- The words of a type hold what was assigned to one of its size. -/
theorem read_write (h : ty'.1.bits = ty.1.bits) (c : Tcon) (x : Int) : (write ty c x).read ty' = ty'.1.wrap x := by
  have hnat (w : Nat) : (((BitVec.ofInt w x).toNat : Nat) : Int) = x % 2 ^ w := by
    rw [BitVec.toNat_ofInt, Int.toNat_of_nonneg (Int.emod_nonneg x (by positivity))]
    push_cast
    rfl
  apply MType.wrap_congr
  rw [h, write]
  rcases ty.bits_eq with hty | hty
  · rw [if_pos hty, hty, BitVec.toNat_append, ← Nat.shiftLeft_add_eq_or_of_lt (BitVec.isLt _), Nat.shiftLeft_eq,
      Nat.cast_add, hnat, Nat.cast_mul, Nat.cast_pow, Nat.cast_ofNat, add_comm, Int.add_mul_emod_self_right]
    exact Int.emod_emod_of_dvd x (dvd_refl _)
  · rw [if_neg (by omega), hty, hnat]
    exact Int.emod_emod_of_dvd x (dvd_refl _)

/-- A conversion keeps the value modulo the size of the new type. -/
theorem read_targConv (ty : RType) (c : Tcon) : (targConv ty c).read ty = ty.1.wrap c.value := by
  unfold targConv
  split_ifs with h
  · subst h
    exact (MType.wrap_wrap _ _).symm
  · exact read_write rfl _ _

@[simp] theorem ty_targConv (ty : RType) (c : Tcon) : (targConv ty c).ty = ty := by
  unfold targConv
  split_ifs with h
  · exact h
  · rfl

/-- The high word of a 4-byte constant that was converted. -/
theorem high_targConv (h : ty.1.bits = 32) (c : Tcon) : (targConv ty c).high = if c.ty = ty then c.high else 0 := by
  unfold targConv
  split_ifs
  · rfl
  · rw [high_write h]
    exact BitVec.extractLsb'_zero

end Tcon

end Path64.Targ

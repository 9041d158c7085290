import Path64.Lib.IntBits
import Mathlib.Algebra.Order.Ring.Int
import Mathlib.Data.Int.ModEq

/-!
# The nodes of the simplifier

Integral expressions as the simplifier (`wn_simp_code.h`) sees them, and their values.

* `MType` : the integral types; `wrap` : the value of a type with the low bits of an integer; `wrap_eq_iff`;
* `Simpnode`, `eval` : the nodes and their values. An operation takes its operands in its own type, and wraps around;
* `Creates` : what the simplifier relies on of the functions that create nodes (`SIMPNODE_SimpCreateExp2`, …), which
  simplify on the way: the node that they return has the value of the one asked for.
-/

namespace Path64.Simp

open Lib

/-! ## Types -/

/-- The integral types. -/
inductive MType where
  | i1 | i2 | i4 | i8 | u1 | u2 | u4 | u8
  deriving DecidableEq, Repr

namespace MType

/-- `MTYPE_bit_size`. -/
def bits : MType → Nat
  | i1 | u1 => 8
  | i2 | u2 => 16
  | i4 | u4 => 32
  | i8 | u8 => 64

/-- `SIMP_IS_TYPE_UNSIGNED`. -/
def isUnsigned : MType → Bool
  | i1 | i2 | i4 | i8 => false
  | u1 | u2 | u4 | u8 => true

/-- The value of the type with the low bits of `x`. -/
def wrap (ty : MType) (x : Int) : Int := if ty.isUnsigned then x % 2 ^ ty.bits else x.bmod (2 ^ ty.bits)

/-- The values of the type. -/
def InRange (ty : MType) (x : Int) : Prop :=
  if ty.isUnsigned then 0 ≤ x ∧ x < 2 ^ ty.bits else -2 ^ (ty.bits - 1) ≤ x ∧ x < 2 ^ (ty.bits - 1)

instance (ty : MType) (x : Int) : Decidable (ty.InRange x) := by
  unfold InRange
  infer_instance

variable {ty : MType} {x y : Int}

theorem one_le_bits (ty : MType) : 1 ≤ ty.bits := by cases ty <;> decide

theorem two_pow_bits (ty : MType) : (2 : Int) ^ ty.bits = 2 * 2 ^ (ty.bits - 1) := by
  rw [← pow_succ', Nat.sub_add_cancel ty.one_le_bits]

theorem wrap_emod (ty : MType) (x : Int) : ty.wrap x % 2 ^ ty.bits = x % 2 ^ ty.bits := by
  unfold wrap
  split_ifs
  · exact Int.emod_emod_of_dvd x (dvd_refl _)
  · rw [show ((2 : Int) ^ ty.bits) = ((2 ^ ty.bits : Nat) : Int) by push_cast; rfl]
    exact Int.bmod_emod

theorem wrap_congr (h : x % 2 ^ ty.bits = y % 2 ^ ty.bits) : ty.wrap x = ty.wrap y := by
  unfold wrap
  split_ifs
  · exact h
  · have hcast : x % (2 ^ ty.bits : Nat) = y % (2 ^ ty.bits : Nat) := by push_cast; exact h
    rw [← Int.emod_bmod, hcast, Int.emod_bmod]

theorem wrap_eq_iff : ty.wrap x = ty.wrap y ↔ x % 2 ^ ty.bits = y % 2 ^ ty.bits :=
  ⟨fun h => by rw [← wrap_emod, h, wrap_emod], wrap_congr⟩

theorem wrap_modEq (ty : MType) (x : Int) : ty.wrap x ≡ x [ZMOD 2 ^ ty.bits] := wrap_emod ty x

theorem wrap_sub (ty : MType) (x y : Int) : ty.wrap (ty.wrap x - ty.wrap y) = ty.wrap (x - y) :=
  wrap_congr ((wrap_modEq ty x).sub (wrap_modEq ty y))

@[simp]
theorem wrap_wrap (ty : MType) (x : Int) : ty.wrap (ty.wrap x) = ty.wrap x := wrap_congr (wrap_emod ty x)

theorem inRange_wrap (ty : MType) (x : Int) : ty.InRange (ty.wrap x) := by
  have hpos : (0 : Int) < 2 ^ (ty.bits - 1) := by positivity
  have hbits := two_pow_bits ty
  unfold InRange wrap
  split_ifs
  · exact ⟨Int.emod_nonneg x (by omega), Int.emod_lt_of_pos x (by omega)⟩
  · have h1 := Int.le_bmod (x := x) (m := 2 ^ ty.bits) (by positivity)
    have h2 := Int.bmod_lt (x := x) (m := 2 ^ ty.bits) (by positivity)
    push_cast at h1 h2
    omega

theorem wrap_of_inRange (h : ty.InRange x) : ty.wrap x = x := by
  have hpos : (0 : Int) < 2 ^ (ty.bits - 1) := by positivity
  have hbits := two_pow_bits ty
  unfold InRange at h
  unfold wrap
  split_ifs at h ⊢
  · exact Int.emod_eq_of_lt h.1 h.2
  · exact Int.bmod_eq_of_le_mul_two (by push_cast; omega) (by push_cast; omega)

theorem wrap_zero (ty : MType) : ty.wrap 0 = 0 := by cases ty <;> decide

theorem wrap_nonneg (h : ty.isUnsigned = true) (x : Int) : 0 ≤ ty.wrap x := by
  have hrange := inRange_wrap ty x
  rw [InRange, if_pos h] at hrange
  exact hrange.1

end MType

/-- The types of results: those of at least 32 bits. -/
abbrev RType := { ty : MType // 32 ≤ ty.bits }

namespace RType

def i4 : RType := ⟨.i4, by decide⟩
def i8 : RType := ⟨.i8, by decide⟩
def u4 : RType := ⟨.u4, by decide⟩
def u8 : RType := ⟨.u8, by decide⟩

theorem bits_eq (ty : RType) : ty.1.bits = 32 ∨ ty.1.bits = 64 := by
  obtain ⟨ty, h⟩ := ty
  cases ty <;> revert h <;> decide

end RType

theorem RType.cases (ty : RType) : ty = .i4 ∨ ty = .i8 ∨ ty = .u4 ∨ ty = .u8 := by
  obtain ⟨ty, h⟩ := ty
  cases ty <;> revert h <;> decide

theorem RType.wrap_toInt (ty : RType) (b : Bool) : ty.1.wrap b.toInt = b.toInt := by
  rcases RType.cases ty with rfl | rfl | rfl | rfl <;> cases b <;> decide

/-! ## Operators -/

inductive Opr1 where
  | neg | bnot | lnot
  deriving DecidableEq, Repr

inductive Opr2 where
  | add | sub | mpy | mod | rem | band | bior | bxor | land | lior | shl | ashr | lshr
  deriving DecidableEq, Repr

inductive Relop where
  | eq | ne | lt | le | gt | ge
  deriving DecidableEq, Repr

def Opr1.apply : Opr1 → Int → Int
  | .neg, a => -a
  | .bnot, a => a.lnot
  | .lnot, a => if a = 0 then 1 else 0

/-- The places a shift moves its operand; more than the width when counts are not masked. -/
def shiftCount (maskShiftCounts : Bool) (ty : RType) (count : Int) : Nat :=
  if maskShiftCounts then (count % ty.1.bits).toNat else min (count % 2 ^ 64).toNat ty.1.bits

/-- The exact result for operands of the type of the operation; `MOD` has the sign of the divisor, `REM` that of the
dividend. -/
def Opr2.apply (maskShiftCounts : Bool) (ty : RType) : Opr2 → Int → Int → Int
  | .add, a, b => a + b
  | .sub, a, b => a - b
  | .mpy, a, b => a * b
  | .mod, a, b => a.fmod b
  | .rem, a, b => a.tmod b
  | .band, a, b => a.land b
  | .bior, a, b => a.lor b
  | .bxor, a, b => a.xor b
  | .land, a, b => if a ≠ 0 ∧ b ≠ 0 then 1 else 0
  | .lior, a, b => if a ≠ 0 ∨ b ≠ 0 then 1 else 0
  | .shl, a, b => a * 2 ^ shiftCount maskShiftCounts ty b
  | .ashr, a, b => a.bmod (2 ^ ty.1.bits) / 2 ^ shiftCount maskShiftCounts ty b
  | .lshr, a, b => a % 2 ^ ty.1.bits / 2 ^ shiftCount maskShiftCounts ty b

/-- The operands as the operation takes them: a shift count keeps its own type. -/
def Opr2.second (ty : RType) (b : Int) : Opr2 → Int
  | .shl | .ashr | .lshr => b
  | _ => ty.1.wrap b

def Relop.holds : Relop → Int → Int → Bool
  | .eq, a, b => a = b
  | .ne, a, b => a ≠ b
  | .lt, a, b => a < b
  | .le, a, b => a ≤ b
  | .gt, a, b => a > b
  | .ge, a, b => a ≥ b

/-- `OPCODE_commutative_op`: the comparison with its operands exchanged. -/
def Relop.commutative : Relop → Relop
  | .eq => .eq
  | .ne => .ne
  | .lt => .gt
  | .le => .ge
  | .gt => .lt
  | .ge => .le

/-- `get_inverse_relop`. -/
def Relop.inverse : Relop → Relop
  | .eq => .ne
  | .ne => .eq
  | .lt => .ge
  | .le => .gt
  | .gt => .le
  | .ge => .lt

theorem Relop.commutative_holds (opr : Relop) (a b : Int) : opr.commutative.holds b a = opr.holds a b := by
  cases opr <;> simp [commutative, holds, eq_comm]

/-! ## Nodes -/

/-- `simpnode`. A load is known by its address `id`; an `INTCONST` holds any `INT64`. -/
inductive Simpnode where
  | load (rtype : RType) (desc : MType) (id : Nat)
  | lda (rtype : RType) (symbol : Nat) (offset : Int)
  | intconst (rtype : RType) (val : Int)
  | exp1 (opr : Opr1) (rtype : RType) (kid0 : Simpnode)
  | exp2 (opr : Opr2) (rtype : RType) (kid0 kid1 : Simpnode)
  | relop (opr : Relop) (rtype desc : RType) (kid0 kid1 : Simpnode)
  | cvt (rtype desc : RType) (kid0 : Simpnode)
  | cvtl (rtype : RType) (bits : Nat) (kid0 : Simpnode)
  | select (rtype : RType) (kid0 kid1 kid2 : Simpnode)
  | extractBits (rtype : RType) (offset size : Nat) (kid0 : Simpnode)
  | composeBits (rtype : RType) (offset size : Nat) (kid0 kid1 : Simpnode)
  deriving DecidableEq, Repr

/-- `SIMPNODE_rtype`. -/
def Simpnode.rtype : Simpnode → RType
  | .load rtype _ _ | .lda rtype _ _ | .intconst rtype _ | .exp1 _ rtype _ | .exp2 _ rtype _ _ | .relop _ rtype _ _ _
  | .cvt rtype _ _ | .cvtl rtype _ _ | .select rtype _ _ _ | .extractBits rtype _ _ _ | .composeBits rtype _ _ _ _ =>
    rtype

/-- `SIMP_Int_ConstVal`, of a node for which `SIMP_Is_Int_Constant` holds. -/
def Simpnode.intConstVal : Simpnode → Option Int
  | .intconst _ val => some val
  | _ => none

/-- What memory holds, and where the symbols lie. -/
structure Env where
  load : Nat → Int
  address : Nat → Int

/-- The low `size` bits, extended to the type. -/
def RType.extend (rtype : RType) (size : Nat) (x : Int) : Int :=
  if rtype.1.isUnsigned then x % 2 ^ size else x.bmod (2 ^ size)

/-- The value of a node. -/
def Simpnode.eval (maskShiftCounts : Bool) (env : Env) : Simpnode → Int
  | .load rtype desc id => rtype.1.wrap (desc.wrap (env.load id))
  | .lda rtype symbol offset => rtype.1.wrap (env.address symbol + offset)
  | .intconst rtype val => rtype.1.wrap val
  | .exp1 opr rtype kid0 => rtype.1.wrap (opr.apply (rtype.1.wrap (kid0.eval maskShiftCounts env)))
  | .exp2 opr rtype kid0 kid1 =>
    rtype.1.wrap (opr.apply maskShiftCounts rtype (rtype.1.wrap (kid0.eval maskShiftCounts env))
      (opr.second rtype (kid1.eval maskShiftCounts env)))
  | .relop opr rtype desc kid0 kid1 =>
    rtype.1.wrap (opr.holds (desc.1.wrap (kid0.eval maskShiftCounts env))
      (desc.1.wrap (kid1.eval maskShiftCounts env))).toInt
  | .cvt rtype desc kid0 => rtype.1.wrap (desc.1.wrap (kid0.eval maskShiftCounts env))
  | .cvtl rtype bits kid0 => rtype.1.wrap (rtype.extend bits (kid0.eval maskShiftCounts env))
  | .select rtype kid0 kid1 kid2 =>
    rtype.1.wrap (if kid0.eval maskShiftCounts env ≠ 0 then kid1.eval maskShiftCounts env else kid2.eval maskShiftCounts env)
  | .extractBits rtype offset size kid0 =>
    rtype.1.wrap (rtype.extend size (kid0.eval maskShiftCounts env / 2 ^ offset))
  | .composeBits rtype offset size kid0 kid1 =>
    let word := kid0.eval maskShiftCounts env
    rtype.1.wrap (word + (kid1.eval maskShiftCounts env % 2 ^ size - word / 2 ^ offset % 2 ^ size) * 2 ^ offset)

theorem Simpnode.inRange_eval (maskShiftCounts : Bool) (env : Env) (node : Simpnode) :
    node.rtype.1.InRange (node.eval maskShiftCounts env) := by
  cases node <;> exact MType.inRange_wrap _ _

theorem Simpnode.wrap_eval (maskShiftCounts : Bool) (env : Env) (node : Simpnode) :
    node.rtype.1.wrap (node.eval maskShiftCounts env) = node.eval maskShiftCounts env :=
  MType.wrap_of_inRange (node.inRange_eval maskShiftCounts env)

theorem eval_relop_eq (maskShiftCounts : Bool) (env : Env) (opr : Relop) (rtype desc : RType) (kid0 kid1 : Simpnode) :
    (Simpnode.relop opr rtype desc kid0 kid1).eval maskShiftCounts env =
      (opr.holds (desc.1.wrap (kid0.eval maskShiftCounts env)) (desc.1.wrap (kid1.eval maskShiftCounts env))).toInt :=
  rtype.wrap_toInt _

/-! ## Creating nodes -/

/-- The functions that create nodes, and that what they return has the value of the node asked for. -/
structure Creates (maskShiftCounts : Bool) where
  exp1 : Opr1 → RType → Simpnode → Simpnode
  exp2 : Opr2 → RType → Simpnode → Simpnode → Simpnode
  relop : Relop → RType → RType → Simpnode → Simpnode → Simpnode
  cvt : RType → RType → Simpnode → Simpnode
  cvtl : RType → Nat → Simpnode → Simpnode
  select : RType → Simpnode → Simpnode → Simpnode → Simpnode
  extract : RType → Nat → Nat → Simpnode → Simpnode
  deposit : RType → Nat → Nat → Simpnode → Simpnode → Simpnode
  eval_exp1 : ∀ env opr rtype kid0,
    (exp1 opr rtype kid0).eval maskShiftCounts env = (Simpnode.exp1 opr rtype kid0).eval maskShiftCounts env
  eval_exp2 : ∀ env opr rtype kid0 kid1,
    (exp2 opr rtype kid0 kid1).eval maskShiftCounts env = (Simpnode.exp2 opr rtype kid0 kid1).eval maskShiftCounts env
  eval_relop : ∀ env opr rtype desc kid0 kid1, (relop opr rtype desc kid0 kid1).eval maskShiftCounts env =
    (Simpnode.relop opr rtype desc kid0 kid1).eval maskShiftCounts env
  eval_cvt : ∀ env rtype desc kid0,
    (cvt rtype desc kid0).eval maskShiftCounts env = (Simpnode.cvt rtype desc kid0).eval maskShiftCounts env
  eval_cvtl : ∀ env rtype bits kid0,
    (cvtl rtype bits kid0).eval maskShiftCounts env = (Simpnode.cvtl rtype bits kid0).eval maskShiftCounts env
  eval_select : ∀ env rtype kid0 kid1 kid2, (select rtype kid0 kid1 kid2).eval maskShiftCounts env =
    (Simpnode.select rtype kid0 kid1 kid2).eval maskShiftCounts env
  eval_extract : ∀ env rtype offset size kid0, (extract rtype offset size kid0).eval maskShiftCounts env =
    (Simpnode.extractBits rtype offset size kid0).eval maskShiftCounts env
  eval_deposit : ∀ env rtype offset size kid0 kid1, (deposit rtype offset size kid0 kid1).eval maskShiftCounts env =
    (Simpnode.composeBits rtype offset size kid0 kid1).eval maskShiftCounts env

/-- Nothing is simplified on the way. -/
def Creates.plain (maskShiftCounts : Bool) : Creates maskShiftCounts where
  exp1 := .exp1
  exp2 := .exp2
  relop := .relop
  cvt := .cvt
  cvtl := .cvtl
  select := .select
  extract := .extractBits
  deposit := .composeBits
  eval_exp1 _ _ _ _ := rfl
  eval_exp2 _ _ _ _ _ := rfl
  eval_relop _ _ _ _ _ _ := rfl
  eval_cvt _ _ _ _ := rfl
  eval_cvtl _ _ _ _ := rfl
  eval_select _ _ _ _ _ := rfl
  eval_extract _ _ _ _ _ := rfl
  eval_deposit _ _ _ _ _ _ := rfl

end Path64.Simp

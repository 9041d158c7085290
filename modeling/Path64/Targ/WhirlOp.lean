import Path64.Targ.Tcon

/-!
# Folding of integer operations

`Targ_WhirlOp` of `targ_const.cxx`, for the integer opcodes and constants of the types I4, U4, I8 and U8.

* `Opcode` : the opcodes; `Folded` : the constant that is returned, and `*folded`;
* `convertField`, `convertLength` : `Targ_Convert_Length`;
* `compare`, `shift`, `cvt`, `logical`, `lnot`, `binary`, `unary`, `division`, `whirlOp` : the cases of `Targ_WhirlOp`.
-/

namespace Path64.Targ
open Simp Lib

/-! ## Opcodes and constants -/

/-- The types of results: MTYPE_B, or an integer type. -/
inductive TypeId where
  | b
  | int (ty : RType)
  deriving DecidableEq, Repr

/-- `LAND` and `CAND`, `LIOR` and `CIOR`. -/
inductive Logical where
  | land | lior
  deriving DecidableEq, Repr

inductive Shift where
  | shl | lshr | ashr
  deriving DecidableEq, Repr

inductive Binary where
  | bxor | band | bior | bnor | add | sub | mpy | min | max
  deriving DecidableEq, Repr

inductive Unary where
  | bnot | neg
  deriving DecidableEq, Repr

inductive Division where
  | div | rem | mod
  deriving DecidableEq, Repr

/-- The integer opcodes. The logical ones are of type B or of type I4. -/
inductive Opcode where
  | compare (opr : Relop) (rtype : TypeId) (desc : RType)
  | cvtl (rtype : RType)
  | shift (opr : Shift) (rtype : RType)
  | cvt (rtype : RType) (desc : TypeId)
  | logical (opr : Logical) (boolean : Bool)
  | lnot (boolean : Bool)
  | binary (opr : Binary) (rtype : RType)
  | unary (opr : Unary) (rtype : RType)
  | division (opr : Division) (rtype : RType)
  deriving DecidableEq, Repr

/-- The constant that is returned, and `*folded`. -/
structure Folded where
  ty : TypeId
  vals : BitVec 64
  folded : Bool
  deriving DecidableEq, Repr

/-- The types with the same words, read as signed and as unsigned. -/
def signed (ty : RType) : RType := if ty.1.bits = 32 then .i4 else .i8

def unsigned (ty : RType) : RType := if ty.1.bits = 32 then .u4 else .u8

/-- An assignment to `TCON_v1`. -/
def Tcon.setHigh (c : Tcon) (x : BitVec 32) : Tcon := { c with vals := x ++ c.vals.extractLsb' 0 32 }

/-- A folded constant of an integer type. -/
def Tcon.result (c : Tcon) : Folded := ⟨.int c.ty, c.vals, true⟩

/-! ## The lengths -/

/-- `Targ_To_Host`. -/
def targToHost (c : Tcon) : BitVec 64 := BitVec.ofInt 64 c.value

/-- `Host_To_Targ`. -/
def hostToTarg (ty : RType) (v : BitVec 64) : Tcon := ⟨ty, v⟩

/-- The masks of `Targ_Convert_Length`, for a result of `len` bits; counts outside the range as the host takes them. -/
def convertField (len : Nat) (sval slen : BitVec 64) (sign : Bool) : BitVec len :=
  let highmask := (-BitVec.ofNat len 1) <<< (slen.toNat % len)
  let signmask := BitVec.ofNat len 1 <<< ((slen - 1).toNat % len)
  let tval := (sval &&& (~~~highmask).signExtend 64).setWidth len
  if sign = true ∧ tval &&& signmask ≠ 0 then tval ||| highmask else tval

/-- `Targ_Convert_Length`. -/
def convertLength (c0 c1 : Tcon) (mtype : RType) (len : Nat) (sign : Bool) : Tcon :=
  let sval := targToHost c0
  let slen := targToHost c1
  if (len : Int) ≤ slen.toInt then hostToTarg mtype ((sval.setWidth len).signExtend 64)
  else hostToTarg mtype ((convertField len sval slen sign).signExtend 64)

/-! ## The cases -/

/-- The comparisons. -/
def compare (opr : Relop) (optype : TypeId) (desc : RType) (c0 c1 : Tcon) : Folded :=
  let ops := Tcon.bothOpnds c0 c1 desc
  let c := ops.1.write .i4 (opr.holds (ops.1.read desc) (ops.2.read desc)).toInt
  let c := if desc.1.bits = 64 then c.setHigh 0 else c
  ⟨optype, c.vals, true⟩

/-- The shifts. The count is `TCON_I8U8I4U4`, an unsigned number of 64 bits. -/
def shift (opr : Shift) (optype : RType) (c0 c1 : Tcon) : Folded :=
  let c := c0.targConv optype
  let count := (targToHost c1).toNat
  let last := optype.1.bits - 1
  match opr with
  | .shl => (c.write optype (if count ≤ last then c.read (signed optype) * 2 ^ count else 0)).result
  | .lshr => (c.write optype (if count ≤ last then c.read (unsigned optype) / 2 ^ count else 0)).result
  | .ashr => (c.write optype (c.read (signed optype) / 2 ^ if count ≤ last then count else last)).result

/-- The conversions; a constant of type B is one word. -/
def cvt (optype : RType) (desc : TypeId) (c0 : Tcon) : Folded :=
  match desc with
  | .b => (Tcon.write optype ⟨optype, 0⟩ (c0.read .i4)).result
  | .int desc => ((c0.targConv desc).targConv optype).result

/-- `LAND`, `CAND`, `LIOR` and `CIOR`. The type is `LOGICAL_MTYPE`. -/
def logical (opr : Logical) (c0 c1 : Tcon) : Folded :=
  let b := match opr with
    | .land => decide (c0.read .u4 ≠ 0) && decide (c1.read .u4 ≠ 0)
    | .lior => decide (c0.read .u4 ≠ 0) || decide (c1.read .u4 ≠ 0)
  ⟨.int .u4, (c0.write .i4 b.toInt).vals, true⟩

/-- `OPCODE_rtype` of a logical operator. -/
def logicalRtype (boolean : Bool) : TypeId := if boolean then .b else .int .i4

/-- `LNOT`. -/
def lnot (boolean : Bool) (c0 : Tcon) : Folded :=
  ⟨logicalRtype boolean, (c0.write .i4 (decide (c0.read c0.ty = 0)).toInt).vals, true⟩

/-- The operators without exceptions. -/
def binary (opr : Binary) (type : RType) (c0 c1 : Tcon) : Folded :=
  let ops := Tcon.bothOpnds c0 c1 type
  let x := ops.1.read type
  let y := ops.2.read type
  match opr with
  | .bxor => (ops.1.write type (x.xor y)).result
  | .band => (ops.1.write type (x.land y)).result
  | .bior => (ops.1.write type (x.lor y)).result
  | .bnor =>
    let c := ops.1.write type (x.lor y)
    (c.write type (c.read type).lnot).result
  | .add => (ops.1.write type (x + y)).result
  | .sub => (ops.1.write type (x - y)).result
  | .mpy => (ops.1.write type (x * y)).result
  | .min => (ops.1.write type (if x ≤ y then x else y)).result
  | .max => (ops.1.write type (if x ≥ y then x else y)).result

/-- `BNOT` and `NEG`. -/
def unary (opr : Unary) (type : RType) (c0 : Tcon) : Folded :=
  let c := c0.targConv type
  match opr with
  | .bnot => (c.write type (c.read type).lnot).result
  | .neg => (c.write type (-c.read type)).result

/-- The smallest value of a type. -/
def minInt (ty : RType) : Int := if ty.1.isUnsigned then 0 else -2 ^ (ty.1.bits - 1)

/-- The value that `DIV`, `REM` and `MOD` assign. -/
def Division.host (opr : Division) (type : RType) (x y : Int) : Int :=
  match opr with
  | .div => x.tdiv y
  | .rem => x.tmod y
  | .mod =>
    if type.1.isUnsigned then x.tmod y
    else
      let rem := x.tmod y
      if rem ≠ 0 ∧ (decide (x > 0) ^^ decide (y > 0)) = true then rem + y else rem

/-- `DIV`, `REM` and `MOD`. -/
def division (opr : Division) (type : RType) (c0 c1 : Tcon) : Folded :=
  let ops := Tcon.bothOpnds c0 c1 type
  let x := ops.1.read type
  let y := ops.2.read type
  if y ≠ 0 then
    if type.1.isUnsigned = true ∨ y ≠ -1 ∨ x ≠ minInt type then (ops.1.write type (opr.host type x y)).result
    else { ops.1.result with folded := false }
  else { ops.1.result with folded := false }

/-- `Targ_WhirlOp`. -/
def whirlOp (op : Opcode) (c0 c1 : Tcon) : Folded :=
  match op with
  | .compare opr rtype desc => compare opr rtype desc c0 c1
  | .cvtl rtype => (convertLength c0 c1 rtype rtype.1.bits (!rtype.1.isUnsigned)).result
  | .shift opr rtype => shift opr rtype c0 c1
  | .cvt rtype desc => cvt rtype desc c0
  | .logical opr _ => logical opr c0 c1
  | .lnot boolean => lnot boolean c0
  | .binary opr rtype => binary opr rtype c0 c1
  | .unary opr rtype => unary opr rtype c0
  | .division opr rtype => division opr rtype c0 c1

end Path64.Targ

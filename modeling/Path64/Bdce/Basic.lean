import Path64.Lib.Bits

/-!
# Bitwise dead code elimination: machine types, operators and the mask transfer

* `Mtype` : the machine types of the x86-64 target with their size, sign and class
  (`Machine_Types`); `Mtype.scalar` : the integers that fit in one register;
* `bitmaskOfSize`, `fillLowerBits`, `bitsInType` : the masks the pass computes with;
* `Operator`, `OpNode`, `Operand` : an operator node and what the transfer reads of its operands;
* `OpNode.passes` : the masks `Mark_tree_bits_live` passes to the operands of a node, in its order;
* `OpNode.visit`, `OpNode.visits` : one call on a node and a sequence of calls, with `Livebits` and
  `Usecnt` of the node kept between them.

A value of a type that is no integer of at most 64 bits is live or dead as a whole: `Livebits`
tells which of the 64 integer bits are live, and any floating-point type has all of them live.
-/

namespace Path64.Bdce

open Path64.Bits

/-! ## Machine types -/

/-- The machine types. -/
inductive Mtype
  | unknown | b | i1 | i2 | i4 | i8 | u1 | u2 | u4 | u8 | f4 | f8 | f10 | f16 | str | fq | m
  | c4 | c8 | cq | v | bs | a4 | a8 | c10 | c16 | i16 | u16
  | v16c4 | v16c8 | v16i1 | v16i2 | v16i4 | v16i8 | v16f4 | v16f8
  | v8i1 | v8i2 | v8i4 | v8f4 | m8i1 | m8i2 | m8i4 | m8f4
  | v32c4 | v32c8 | v32i1 | v32i2 | v32i4 | v32i8 | v32f4 | v32f8 | f32
deriving DecidableEq, Repr

namespace Mtype

/-- `MTYPE_bit_size`, which is also `MTYPE_size_min`. -/
def bitSize : Mtype → Nat
  | unknown | str | m | v => 0
  | b | bs => 1
  | i1 | u1 => 8
  | i2 | u2 => 16
  | i4 | u4 | f4 | a4 => 32
  | i8 | u8 | f8 | c4 | a8 => 64
  | f10 | f16 | fq | c8 => 128
  | cq | c10 | c16 | i16 | u16 => 256
  | v16c4 | v16c8 | v16i1 | v16i2 | v16i4 | v16i8 | v16f4 | v16f8 => 128
  | v8i1 | v8i2 | v8i4 | v8f4 | m8i1 | m8i2 | m8i4 | m8f4 => 64
  | v32c4 | v32c8 | v32i1 | v32i2 | v32i4 | v32i8 | v32f4 | v32f8 | f32 => 256

/-- `MTYPE_signed`. -/
def signed : Mtype → Bool
  | i1 | i2 | i4 | i8 | f4 | f8 | f10 | f16 | fq | f32 => true
  | _ => false

/-- `MTYPE_is_integral`: the class of the type has the integer bit, also for vectors of integers. -/
def isIntegral : Mtype → Bool
  | b | i1 | i2 | i4 | i8 | u1 | u2 | u4 | u8 | bs | a4 | a8 | i16 | u16
  | v16i1 | v16i2 | v16i4 | v16i8 | v8i1 | v8i2 | v8i4 | m8i1 | m8i2 | m8i4
  | v32i1 | v32i2 | v32i4 | v32i8 => true
  | _ => false

/-- The integers whose bits one 64-bit register holds. -/
def scalar : Mtype → Bool
  | b | i1 | i2 | i4 | i8 | u1 | u2 | u4 | u8 | bs | a4 | a8 => true
  | _ => false

/-- `Mtype_TransferSize (MTYPE_A8, y)`: the version of `y` that has 64 bits. -/
def transferSizeA8 : Mtype → Mtype
  | a4 | a8 => a8
  | y => if y.signed then i8 else u8

theorem bitSize_le_of_scalar {t : Mtype} (h : t.scalar = true) : 0 < t.bitSize ∧ t.bitSize ≤ 64 := by
  cases t <;> simp_all [scalar, bitSize]

end Mtype

/-! ## Masks -/

/-- A set of live bits. -/
abbrev Mask := BitVec 64

/-- `Bitmask_of_size`. -/
def bitmaskOfSize (vsize : Nat) : Mask :=
  if 64 ≤ vsize then BitVec.allOnes 64 else (1#64 <<< vsize) - 1#64

/-- `Fill_lower_bits`. -/
def fillLowerBits (bitmask : Mask) : Mask :=
  smear 1 (smear 2 (smear 4 (smear 8 (smear 16 (smear 32 bitmask)))))

/-- `Bits_in_type`. -/
def bitsInType (dt : Mtype) : Mask :=
  if dt = .v ∨ dt = .m ∨ dt = .unknown then BitVec.allOnes 64 else bitmaskOfSize dt.bitSize

theorem bitmaskOfSize_eq_lowOnes (k : Nat) : bitmaskOfSize k = lowOnes 64 k := by
  unfold bitmaskOfSize
  by_cases hk : 64 ≤ k
  · rw [if_pos hk, lowOnes_of_le hk]
  · rw [if_neg hk]
    have hpow : 2 ^ k < 2 ^ 64 := Nat.pow_lt_pow_right (by decide) (by omega)
    have hone : 1 ≤ 2 ^ k := Nat.one_le_two_pow
    have hnat : ((1#64 <<< k) - 1#64).toNat = 2 ^ k - 1 := by
      rw [BitVec.toNat_sub, BitVec.toNat_shiftLeft, BitVec.toNat_ofNat, Nat.shiftLeft_eq]
      omega
    apply BitVec.eq_of_getLsbD_eq
    intro i hi
    rw [getLsbD_lowOnes, BitVec.getLsbD, hnat, Nat.testBit_two_pow_sub_one]
    simp [hi]

@[simp] theorem getLsbD_bitmaskOfSize (k i : Nat) :
    (bitmaskOfSize k).getLsbD i = (decide (i < 64) && decide (i < k)) := by
  rw [bitmaskOfSize_eq_lowOnes, getLsbD_lowOnes]

theorem getLsbD_fillLowerBits (m : Mask) (i : Nat) :
    (fillLowerBits m).getLsbD i = true ↔ ∃ j, i ≤ j ∧ m.getLsbD j = true := by
  have h0 : ∀ i, m.getLsbD i = true ↔ ∃ a < 1, m.getLsbD (i + a * (2 * 32)) = true := by
    intro i
    constructor
    · intro h
      exact ⟨0, by omega, by simpa using h⟩
    · rintro ⟨a, ha, h⟩
      obtain rfl : a = 0 := by omega
      simpa using h
  have h6 := smear_spread (smear_spread (smear_spread (smear_spread (smear_spread
    (smear_spread h0))))) (d := 1)
  rw [fillLowerBits, h6 i]
  constructor
  · rintro ⟨a, -, h⟩
    exact ⟨i + a * 1, by omega, h⟩
  · rintro ⟨j, hij, h⟩
    have hj : j < 64 := BitVec.lt_of_getLsbD h
    refine ⟨j - i, by omega, ?_⟩
    rwa [show i + (j - i) * 1 = j by omega]

theorem bitsInType_of_scalar {t : Mtype} (h : t.scalar = true) :
    bitsInType t = bitmaskOfSize t.bitSize := by
  cases t <;> simp_all [Mtype.scalar, bitsInType]

/-! ## Operator nodes -/

/-- The operators `Mark_tree_bits_live` knows. -/
inductive Operator
  | cvtl | cvt | neg | extractBits | paren | bnot | minpart | maxpart
  | abs | lnot | rnd | trunc | ceil | floor | sqrt | rsqrt | recip | realpart | imagpart | highpart
  | lowpart | tas | replicate | reduceAdd | reduceMpy | reduceMax | reduceMin | shuffle | atomicRsqrt
  | add | sub | mpy | bxor
  | xmpy | highmpy | div | mod | rem | divrem | max | min | minmax | eq | ne | ge | gt | le | lt
  | land | lior | complex
  | bior | bnor | band | rrotate | lshr | ashr | shl | composeBits | select
  | madd | msub | nmadd | nmsub
  | call | icall | intrinsicCall | intrinsicOp | forwardBarrier | backwardBarrier | alloca | dealloca
  | asmStmt | asmInput | pureCallOp
deriving DecidableEq, Repr

/-- The operators whose result is a boolean in bit 0. -/
def Operator.isBoolean : Operator → Bool
  | .eq | .ne | .ge | .gt | .le | .lt | .lnot | .land | .lior => true
  | _ => false

/-- The division operators, which a target without signed 64-bit operations runs on 64 bits. -/
def Operator.isDivide : Operator → Bool
  | .div | .divrem | .mod | .rem => true
  | _ => false

/-- The shifts and rotates. -/
def Operator.isShift : Operator → Bool
  | .shl | .lshr | .ashr | .rrotate => true
  | _ => false

/-- The operators of `Mark_tree_bits_live` that make the two results of a pair. -/
def Operator.makesPair : Operator → Bool
  | .minmax | .divrem | .xmpy => true
  | _ => false

/-- An operator node: its types and the fields of `CVTL` (`Offset`) and of the bit-field operators. -/
structure OpNode where
  opr : Operator
  dtyp : Mtype
  dsctyp : Mtype
  offset : Nat
  opBitOffset : Nat
  opBitSize : Nat
deriving DecidableEq, Repr

/-- What a node reads of an operand: its type, and its value when it is a `CK_CONST`. -/
structure Operand where
  dtyp : Mtype
  pair : Bool
  constVal : Option (BitVec 64)
deriving DecidableEq, Repr

/-- The compilation the pass runs in: the type of pointers, the flag `Only_Unsigned_64_Bit_Ops`, and
what the machine that runs the compiler computes for the shift counts the language leaves undefined. -/
structure Target where
  pointerType : Mtype
  onlyUnsigned64BitOps : Bool
  undefinedShl : Mask → Int → Mask
  undefinedShr : Mask → Int → Mask

/-- The 64-bit target, on a host whose undefined shifts leave the word alone. -/
def plainTarget : Target := ⟨.a8, false, fun m _ => m, fun m _ => m⟩

namespace Target

variable (target : Target)

/-- `m << k` on `UINT64`. -/
def shiftLeft (m : Mask) (k : Int) : Mask :=
  if 0 ≤ k ∧ k < 64 then m <<< k.toNat else target.undefinedShl m k

/-- `m >> k` on `UINT64`. -/
def shiftRight (m : Mask) (k : Int) : Mask :=
  if 0 ≤ k ∧ k < 64 then m >>> k.toNat else target.undefinedShr m k

theorem shiftLeft_of_lt (m : Mask) {k : Nat} (h : k < 64) : target.shiftLeft m k = m <<< k := by
  rw [shiftLeft, if_pos (by omega), Int.toNat_natCast]

theorem shiftRight_of_lt (m : Mask) {k : Nat} (h : k < 64) : target.shiftRight m k = m >>> k := by
  rw [shiftRight, if_pos (by omega), Int.toNat_natCast]

/-- The live bits of an operand of which `size` bits are kept and extended: the bits themselves, and
the sign bit when a copy of it is live. -/
def extendedLive (signed : Bool) (size : Nat) (livebits : Mask) : Mask :=
  let newLivebits := livebits &&& bitmaskOfSize size
  if signed = true ∧ target.shiftRight livebits size ≠ 0 then
    newLivebits ||| target.shiftLeft 1#64 ((size : Int) - 1)
  else newLivebits

/-- The live bits of an operand of a bitwise operation: those of the result within the type, and bit
31 of a 32-bit operand when a higher bit is live. -/
def wordLive (dsctyp : Mtype) (livebits : Mask) : Mask :=
  let newLivebits := livebits &&& bitsInType dsctyp
  if dsctyp.bitSize = 32 ∧ livebits >>> 32 ≠ 0 then newLivebits ||| (1#64 <<< 31) else newLivebits

/-- The live bits of the operand of a conversion between integers. -/
def cvtLive (dtyp dsctyp : Mtype) (livebits : Mask) : Mask :=
  let newLivebits := livebits &&& bitsInType dtyp &&& bitsInType dsctyp
  if (dsctyp = .i4 ∨ dtyp.bitSize = 32) ∧ livebits >>> 32 ≠ 0 then newLivebits ||| (1#64 <<< 31)
  else newLivebits

/-- The live bits of a load of type `dsctyp` from a place that has the bits `bits`: those of the place,
and the sign bit when a higher bit is live. -/
def loadLive (dsctyp : Mtype) (bits live : Mask) : Mask :=
  if (dsctyp.signed = true ∨ dsctyp.bitSize = 32) ∧ target.shiftRight live dsctyp.bitSize ≠ 0 then
    (live &&& bits) ||| target.shiftLeft 1#64 ((dsctyp.bitSize : Int) - 1)
  else live &&& bits

/-- The sign bit an arithmetic shift by `shiftAmt` makes live. -/
def signLivebits (dtyp : Mtype) (shiftAmt : Int) (live : Mask) : Mask :=
  if dtyp.bitSize < 64 then
    if shiftAmt ≤ 31 ∧ target.shiftRight live (31 - shiftAmt) ≠ 0 then 0x10000000 else 0
  else
    if shiftAmt ≤ 63 ∧ target.shiftRight live (63 - shiftAmt) ≠ 0 then 0x1000000000000000 else 0

end Target

namespace OpNode

variable (target : Target) (n : OpNode) (opnds : List Operand)

/-- The descriptor type the transfer works with. -/
def effDsctyp : Mtype :=
  let dsctyp := if n.dsctyp = .v then n.dtyp else n.dsctyp
  if target.onlyUnsigned64BitOps ∧ n.opr.isDivide then dsctyp.transferSizeA8 else dsctyp

/-- `Const_val` of operand `i` when that operand is a `CK_CONST`. -/
def constOpnd (i : Nat) : Option (BitVec 64) := opnds[i]?.bind (·.constVal)

/-- The constant count of a right shift, of which a shift of less than 64 bits uses five bits. -/
def shiftAmt (c : BitVec 64) : Int :=
  if n.dtyp.bitSize < 64 then (31 &&& c).toInt else c.toInt

/-- The masks `Mark_tree_bits_live` passes to the operands, in the order of its calls: `livebits` is
`Livebits (cr)` with the new bits united, `live` the argument `live_bits` of the call. -/
def passes (visitAll : Bool) (livebits live : Mask) : List (Nat × Mask) :=
  let dsctyp := n.effDsctyp target
  let bits := bitsInType dsctyp
  match n.opr with
  | .cvtl => [(0, target.extendedLive n.dtyp.signed n.offset livebits)]
  | .cvt =>
    if dsctyp = .b then [(0, 1)]
    else if n.dtyp.isIntegral ∧ dsctyp.isIntegral then [(0, Target.cvtLive n.dtyp dsctyp livebits)]
    else if visitAll then [(0, bits)] else []
  | .neg => [(0, bits &&& fillLowerBits livebits)]
  | .extractBits =>
    [(0, target.shiftLeft (target.extendedLive n.dtyp.signed n.opBitSize livebits) n.opBitOffset)]
  | .paren | .bnot | .minpart | .maxpart => [(0, Target.wordLive dsctyp livebits)]
  | .abs | .lnot | .rnd | .trunc | .ceil | .floor | .sqrt | .rsqrt | .recip | .realpart | .imagpart
  | .highpart | .lowpart | .tas | .replicate | .reduceAdd | .reduceMpy | .reduceMax | .reduceMin
  | .shuffle | .atomicRsqrt => if visitAll then [(0, bits)] else []
  | .add | .sub | .mpy =>
    [(0, bits &&& fillLowerBits livebits), (1, bits &&& fillLowerBits livebits)]
  | .bxor => [(0, Target.wordLive dsctyp livebits), (1, Target.wordLive dsctyp livebits)]
  | .xmpy | .highmpy | .div | .mod | .rem | .divrem | .max | .min | .minmax | .eq | .ne | .ge | .gt
  | .le | .lt | .land | .lior | .complex => if visitAll then [(0, bits), (1, bits)] else []
  | .bior | .bnor =>
    let newLivebits := Target.wordLive dsctyp livebits
    let but (c : Option (BitVec 64)) : Mask := c.elim newLivebits fun v => newLivebits &&& ~~~v
    [(1, but (constOpnd opnds 0)), (0, but (constOpnd opnds 1))]
  | .band =>
    let newLivebits := Target.wordLive dsctyp livebits
    let within (c : Option (BitVec 64)) : Mask := c.elim newLivebits fun v => newLivebits &&& v
    [(1, within (constOpnd opnds 0)), (0, within (constOpnd opnds 1))]
  | .rrotate => [(1, bits), (0, livebits &&& bitsInType n.dtyp)]
  | .lshr =>
    [(1, bits), (0, (constOpnd opnds 1).elim bits fun c =>
      target.shiftLeft (bits &&& live) (n.shiftAmt c) &&& bits)]
  | .ashr =>
    [(1, bits), (0, (constOpnd opnds 1).elim bits fun c =>
      (target.shiftLeft (bits &&& live) (n.shiftAmt c) &&& bits) |||
        target.signLivebits n.dtyp (n.shiftAmt c) live)]
  | .shl =>
    [(1, bits), (0, (constOpnd opnds 1).elim bits fun c =>
      target.shiftRight (bits &&& live) c.toInt &&& bits)]
  | .composeBits =>
    [(0, livebits &&& ~~~target.shiftLeft (bitmaskOfSize n.opBitSize) n.opBitOffset),
     (1, target.shiftRight livebits n.opBitOffset &&& bitmaskOfSize n.opBitSize)]
  | .select =>
    [(0, bits), (1, bitsInType n.dtyp &&& livebits), (2, bitsInType n.dtyp &&& livebits)]
  | .madd | .msub | .nmadd | .nmsub =>
    if visitAll then (List.range opnds.length).map fun i => (i, bits) else []
  | .call | .icall | .intrinsicCall | .intrinsicOp | .forwardBarrier | .backwardBarrier | .alloca
  | .dealloca | .asmStmt | .asmInput | .pureCallOp =>
    if visitAll then (List.range opnds.length).map fun i => (i, BitVec.allOnes 64) else []

end OpNode

/-! ## Calls on a node -/

/-- The arguments of one call of `Mark_tree_bits_live` on a node. -/
structure Visit where
  live : Mask
  stmtVisit : Bool
deriving DecidableEq, Repr

/-- `Livebits` and `Usecnt` of a node. -/
structure Marks where
  livebits : Mask
  usecnt : Nat
deriving DecidableEq, Repr

/-- The marks of a node nothing has visited. -/
def Marks.none : Marks := ⟨0, 0⟩

/-- `More_bits_live`. -/
def Marks.moreBitsLive (s : Marks) (live : Mask) : Bool := decide (live &&& ~~~s.livebits ≠ 0)

namespace OpNode

variable (target : Target) (n : OpNode) (opnds : List Operand)

/-- The bits of the result a call asks for: the operators with a boolean result have bit 0 only. -/
def trimmed (live : Mask) : Mask := if n.opr.isBoolean then live &&& 1 else live

/-- One call of `Mark_tree_bits_live` on the node: its marks afterwards and the calls it makes on the
operands. -/
def visit (s : Marks) (c : Visit) : Marks × List (Nat × Visit) :=
  let stmtVisit := c.stmtVisit && decide (s.usecnt < 2)
  let usecnt := if stmtVisit then s.usecnt + 1 else s.usecnt
  let visitAll := stmtVisit || decide (s.livebits = 0)
  let live := n.trimmed c.live
  if !stmtVisit && !s.moreBitsLive live then ({ s with usecnt := usecnt }, [])
  else
    let livebits := s.livebits ||| live
    (⟨livebits, usecnt⟩,
      (n.passes target opnds visitAll livebits live).map fun p => (p.1, ⟨p.2, stmtVisit⟩))

/-- The calls a sequence of calls on the node makes on its operands. -/
def visits : Marks → List Visit → List (Nat × Visit)
  | _, [] => []
  | s, c :: cs => (n.visit target opnds s c).2 ++ visits (n.visit target opnds s c).1 cs

end OpNode

end Path64.Bdce

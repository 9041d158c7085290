import Path64.Bdce.Semantics

/-!
# Bitwise dead code elimination: redundant extensions

* `Query` : the extension that is asked about, of the low `from_bit` bits to `to_bit` bits;
* `Cr` : an operand, as far as `Redundant_cvtl` looks into it; a subtree that is not looked into is a number
  of the environment, whose value can be any word;
* `redundantCvtl` : the answer;
* `Cr.eval` : the value of an operand in its register, where a 32-bit result has its upper half zero;
* `Query.keeps_extend_iff` : exactly when an extension is the identity on all values that are themselves
  extensions;
* `Cr.Misjudged` : the operands for which the answer is wrong;
* `redundantCvtl_iff` : the answer is right exactly for the other ones.
-/

namespace Path64.Bdce

open Path64.Bits

/-! ## The question -/

/-- `sign_xtd`, `to_bit` and `from_bit`. -/
structure Query where
  signXtd : Bool
  toBit : Nat
  fromBit : Nat
  toBit_word : toBit = 32 ∨ toBit = 64
  fromBit_pos : 0 < fromBit
  fromBit_le : fromBit ≤ toBit

/-- The extension gives the value back, in the bits it extends to. -/
def Query.Keeps (q : Query) (v : BitVec 64) : Prop :=
  extend q.signXtd q.fromBit v &&& bitmaskOfSize q.toBit = v &&& bitmaskOfSize q.toBit

/-! ## Operands -/

/-- `MTYPE_is_signed`: the class of the type is that of the signed integers. -/
def Mtype.isSigned : Mtype → Bool
  | b | i1 | i2 | i4 | i8 | bs | i16 => true
  | _ => false

/-- The integer types of registers. -/
def Mtype.isWord : Mtype → Bool
  | i4 | i8 | u4 | u8 | a4 | a8 => true
  | _ => false

/-- The leaves for which nothing is known. -/
inductive Leaf
  | rconst | lda | dedicatedPreg | defByChi | defByPhi | parm | mload
deriving DecidableEq, Repr

/-- An operand that is looked at only to see whether it is a constant. -/
inductive Kid
  | const (val : BitVec 64)
  | tree (index : Nat)
deriving DecidableEq, Repr

/-- A `CODEREP` as far as `Redundant_cvtl` looks into it. `usecnt` and `livebits` are what the pass recorded
for the node, `field` is the number of bits of a bit field. -/
inductive Cr
  | const (dtyp : Mtype) (val : BitVec 64)
  | leaf (kind : Leaf) (dtyp : Mtype) (index : Nat)
  | preg (dtyp : Mtype) (rhs : Cr)
  | load (dtyp dsctyp : Mtype) (field : Option Nat) (index : Nat)
  | cvtl (dtyp : Mtype) (offset usecnt : Nat) (livebits : Mask) (kid : Nat)
  | cvt (dtyp dsctyp : Mtype) (usecnt : Nat) (livebits : Mask) (kid : Nat)
  | band (dtyp : Mtype) (opnd0 opnd1 : Kid)
  | ashr (dtyp : Mtype) (kid : Nat) (count : Kid)
  | extractBits (dtyp : Mtype) (opBitOffset opBitSize : Nat) (kid : Nat)
  | rrotate (dtyp dsctyp : Mtype) (opnd : Cr) (count : Nat)
  | op (opr : Operator) (dtyp : Mtype) (kid : Nat)

/-- `Dtyp`. -/
def Cr.dtyp : Cr → Mtype
  | const t _ | leaf _ t _ | preg t _ | load t _ _ _ | cvtl t _ _ _ _ | cvt t _ _ _ _ | band t _ _
  | ashr t _ _ | extractBits t _ _ _ | rrotate t _ _ _ | op _ t _ => t

/-- `Is_hi_sign_extended`. -/
def isHiSignExtended (resultTy descTy : Mtype) : Bool :=
  if descTy.bitSize < resultTy.bitSize ∧ (resultTy.bitSize = Mtype.i4.bitSize ∨ resultTy.isSigned = false) then false
  else if resultTy.isSigned = false then false
  else if resultTy.bitSize = Mtype.i4.bitSize then false
  else true

/-- `Is_lo_sign_extended`. -/
def isLoSignExtended (resultTy descTy : Mtype) : Bool :=
  if descTy.bitSize < resultTy.bitSize ∧ descTy.isSigned = false then false
  else if resultTy.isSigned = false then false
  else true

/-- `Sign_extended`, which is `Is_sign_extd` of a load. -/
def signExtended (dtyp dsctyp : Mtype) : Bool :=
  if dsctyp = .bs then dtyp.signed
  else if dtyp.isIntegral = true ∧ dsctyp.isIntegral = true ∧ dsctyp.bitSize ≤ Mtype.i4.bitSize then
    if dsctyp.bitSize = Mtype.i4.bitSize then isHiSignExtended dtyp dsctyp else isLoSignExtended dtyp dsctyp
  else false

section

variable (target : Target) (split64BitIntOps : Bool) (q : Query)

/-- The comparison of a constant with its extension. -/
def constKept (val : BitVec 64) : Bool :=
  if q.signXtd then
    if q.toBit = 64 then (val <<< (64 - q.fromBit)).sshiftRight (64 - q.fromBit) = val
    else
      let sval32 := val.setWidth 32
      sval32 = (sval32 <<< (32 - q.fromBit)).sshiftRight (32 - q.fromBit)
  else
    if q.toBit = 64 then (val <<< (64 - q.fromBit)) >>> (64 - q.fromBit) = val
    else
      let uval32 := val.setWidth 32
      uval32 = (uval32 <<< (32 - q.fromBit)) >>> (32 - q.fromBit)

/-- The answer for a load from memory. -/
def loadKept (dtyp dsctyp : Mtype) : Bool :=
  let isSignExtd := signExtended dtyp dsctyp
  if split64BitIntOps = true ∧ q.toBit = 64 then false
  else if dsctyp.bitSize < 32 ∧ q.toBit = 64 then
    !q.signXtd && !isSignExtd && decide (dsctyp.bitSize ≤ q.fromBit)
  else if q.signXtd = isSignExtd then decide (dsctyp.bitSize ≤ q.fromBit)
  else !isSignExtd && decide (dsctyp.bitSize < q.fromBit)

/-- `Redundant_cvtl`, on the x86-64 target. -/
def redundantCvtl (cr : Cr) : Bool :=
  if cr.dtyp = .b then !q.signXtd || decide (q.fromBit ≠ 1)
  else if cr.dtyp.isIntegral = false then false
  else match cr with
  | .const dtyp val =>
    if split64BitIntOps = true ∧ dtyp.bitSize ≤ 32 ∧ 32 < q.toBit then false else constKept q val
  | .leaf _ _ _ => false
  | .preg dtyp rhs => if dtyp.bitSize = 32 then false else redundantCvtl rhs
  | .load dtyp dsctyp _ _ => loadKept split64BitIntOps q dtyp dsctyp
  | .cvtl dtyp offset usecnt livebits _ =>
    if 0 < usecnt ∧ livebits &&& ~~~bitmaskOfSize offset = 0 then false
    else if dtyp.isSigned = q.signXtd then
      if dtyp.isSigned = false then decide (offset ≤ q.fromBit)
      else decide (offset ≤ q.fromBit) && decide (q.toBit ≤ dtyp.bitSize)
    else !dtyp.isSigned && decide (offset < q.fromBit)
  | .cvt dtyp dsctyp usecnt livebits _ =>
    if dsctyp.isIntegral = false ∨ dtyp.bitSize ≤ dsctyp.bitSize then false
    else if dsctyp.bitSize < dtyp.bitSize ∧ 0 < usecnt ∧ livebits &&& ~~~bitsInType dsctyp = 0 then false
    else decide (dtyp.isSigned = q.signXtd) && decide (dsctyp.bitSize ≤ q.fromBit)
  | .band _ opnd0 opnd1 =>
    if q.signXtd then false
    else
      let kept (uval64 : BitVec 64) : Bool := uval64 ≤ target.shiftLeft 1#64 q.fromBit - 1#64
      match opnd0, opnd1 with
      | .const v, _ => kept v
      | .tree _, .const v => kept v
      | .tree _, .tree _ => false
  | .ashr dtyp _ count =>
    match count with
    | .const v =>
      if (dtyp.bitSize : Int) - v.toInt ≤ q.fromBit ∧ q.fromBit < dtyp.bitSize then
        decide (dtyp.signed = q.signXtd)
      else false
    | .tree _ => false
  | .extractBits _ _ opBitSize _ =>
    -- the test for `MTYPE_I4` assigns: `dtyp` is 1 and the answer no, or `dtyp` is `MTYPE_UNKNOWN`
    if 32 ≤ q.toBit then false
    else if opBitSize ≤ q.fromBit then
      if Mtype.unknown.signed = q.signXtd then true
      else if opBitSize < q.fromBit then !Mtype.unknown.signed
      else false
    else false
  | .rrotate _ dsctyp opnd _ =>
    if q.signXtd then false
    else if dsctyp.bitSize ≤ q.fromBit then redundantCvtl opnd else false
  | .op opr _ _ => if opr.isBoolean then !q.signXtd || decide (q.fromBit ≠ 1) else false

end

/-! ## Values -/

/-- The value of a kid. -/
def Kid.eval (env : Nat → BitVec 64) : Kid → BitVec 64
  | const v => v
  | tree i => env i

/-- The value of an operand in its register. A count of a shift or rotate is taken modulo the width. -/
def Cr.eval (env : Nat → BitVec 64) : Cr → BitVec 64
  | const _ val => val
  | leaf _ dtyp i => env i &&& bitsInType dtyp
  | preg _ rhs => rhs.eval env
  | load dtyp dsctyp none i => extend dsctyp.signed dsctyp.bitSize (env i) &&& bitsInType dtyp
  | load dtyp _ (some bits) i => extend dtyp.signed bits (env i) &&& bitsInType dtyp
  | cvtl dtyp offset _ _ kid => extend dtyp.signed offset (env kid) &&& bitsInType dtyp
  | cvt dtyp dsctyp _ _ kid => extend dsctyp.signed dsctyp.bitSize (env kid) &&& bitsInType dtyp
  | band dtyp opnd0 opnd1 => opnd0.eval env &&& opnd1.eval env &&& bitsInType dtyp
  | ashr dtyp kid count =>
    (signExtendFrom dtyp.bitSize (env kid)).sshiftRight ((count.eval env).toNat % dtyp.bitSize) &&& bitsInType dtyp
  | extractBits dtyp opBitOffset opBitSize kid =>
    extend dtyp.signed opBitSize (env kid >>> opBitOffset) &&& bitsInType dtyp
  | rrotate _ dsctyp opnd count =>
    rotateRightBy dsctyp.bitSize ((env count).toNat % dsctyp.bitSize) (opnd.eval env)
  | op opr dtyp kid => if opr.isBoolean then env kid &&& 1 else env kid &&& bitsInType dtyp

/-- The types and fields that the opcode table allows for operands of an integer type. -/
def Cr.Typed : Cr → Prop
  | const dtyp val => dtyp = .b → val = 0 ∨ val = 1
  | leaf _ _ _ => True
  | preg dtyp rhs => rhs.Typed ∧ (dtyp = .b → rhs.dtyp = .b)
  | load dtyp dsctyp none _ => dtyp.isIntegral = true → dtyp = .b ∧ dsctyp = .b ∨
      dtyp.isWord = true ∧ dsctyp.signed = dtyp.signed ∧ dsctyp.scalar = true ∧ dsctyp ≠ .b ∧ dsctyp ≠ .bs
  | load dtyp dsctyp (some bits) _ => dtyp.isIntegral = true → dtyp.isWord = true ∧ dsctyp.scalar = true ∧
      dsctyp ≠ .b ∧ 0 < bits ∧ bits ≤ dtyp.bitSize ∧ (dsctyp ≠ .bs → bits ≤ dsctyp.bitSize)
  | cvtl dtyp offset _ _ _ => dtyp.isWord = true ∧ 0 < offset ∧ offset ≤ dtyp.bitSize
  | cvt dtyp dsctyp _ _ _ => dtyp.isIntegral = true → dsctyp.isIntegral = true →
      dtyp = .b ∨ dtyp.isWord = true ∧ (dsctyp.isWord = true ∨ dsctyp = .b)
  | band dtyp _ _ | ashr dtyp _ _ | extractBits dtyp _ _ _ => dtyp.isWord = true
  | rrotate dtyp dsctyp opnd _ => opnd.Typed ∧
      (dtyp = .u4 ∧ (dsctyp = .u1 ∨ dsctyp = .u2 ∨ dsctyp = .u4) ∨ dtyp = .u8 ∧ dsctyp = .u8)
  | op _ _ _ => True

/-! ## Extensions of extensions -/

theorem getLsbD_extend {s : Bool} {k : Nat} (x : BitVec 64) {i : Nat} (hi : i < 64) :
    (extend s k x).getLsbD i = if i < k then x.getLsbD i else (s && x.getLsbD (k - 1)) := by
  unfold extend
  cases s with
  | true => rw [if_pos rfl, getLsbD_signExtendFrom x hi, Bool.true_and]
  | false =>
    rw [if_neg Bool.false_ne_true, BitVec.getLsbD_and, getLsbD_bitmaskOfSize]
    by_cases hk : i < k <;> simp [hk, hi]

theorem getLsbD_extend_and {s : Bool} {k w : Nat} (hw : w ≤ 64) (x : BitVec 64) (i : Nat) :
    (extend s k x &&& bitmaskOfSize w).getLsbD i =
      (decide (i < w) && if i < k then x.getLsbD i else (s && x.getLsbD (k - 1))) := by
  rw [BitVec.getLsbD_and, getLsbD_bitmaskOfSize]
  by_cases hi : i < w
  · rw [getLsbD_extend x (by omega)]
    simp [hi, show i < 64 by omega]
  · simp [hi]

theorem getLsbD_oneBit {j i : Nat} (hj : j < 64) : (1#64 <<< j).getLsbD i = decide (i = j) := by
  rw [BitVec.getLsbD_shiftLeft, BitVec.getLsbD_one]
  by_cases hi : i = j
  · simp [hi, hj]
  · simp [hi]
    omega

namespace Query

variable (q : Query)

theorem toBit_le : q.toBit ≤ 64 := by
  rcases q.toBit_word with h | h <;> omega

theorem keeps_iff (v : BitVec 64) :
    q.Keeps v ↔ ∀ i, q.fromBit ≤ i → i < q.toBit → v.getLsbD i = (q.signXtd && v.getLsbD (q.fromBit - 1)) := by
  have hto := q.toBit_le
  constructor
  · intro h i hfrom hi
    have hbit := congrArg (BitVec.getLsbD · i) h
    simp only [BitVec.getLsbD_and, getLsbD_bitmaskOfSize, hi, show i < 64 by omega, decide_true, Bool.and_true] at hbit
    rw [getLsbD_extend v (by omega), if_neg (by omega)] at hbit
    exact hbit.symm
  · intro h
    apply BitVec.eq_of_getLsbD_eq
    intro i hi
    simp only [BitVec.getLsbD_and, getLsbD_bitmaskOfSize]
    by_cases hto' : i < q.toBit
    · rw [getLsbD_extend v hi]
      by_cases hfrom : i < q.fromBit
      · rw [if_pos hfrom]
      · rw [if_neg hfrom, h i (by omega) hto']
    · simp [hto']

/-- When the extension keeps every register of `w` bits that holds `k` bits extended by `s`. -/
def KeepsExtend (s : Bool) (k w : Nat) : Prop :=
  q.fromBit = q.toBit ∨
    if s = true ∧ k < w then
      if q.signXtd = true then k ≤ q.fromBit ∧ q.toBit ≤ w ∨ w < q.fromBit else w ≤ q.fromBit
    else
      if q.signXtd = true then min k w < q.fromBit else min k w ≤ q.fromBit

theorem keeps_of_keepsExtend {s : Bool} {k w : Nat} (hw : w ≤ 64) (h : q.KeepsExtend s k w) (x : BitVec 64) :
    q.Keeps (extend s k x &&& bitmaskOfSize w) := by
  have hpos := q.fromBit_pos
  rw [keeps_iff]
  intro i hfrom hi
  rw [getLsbD_extend_and hw, getLsbD_extend_and hw]
  rcases h with heq | h
  · omega
  · split_ifs at h with hs hsign hsign
    · rw [hsign, hs.1]
      rcases h with ⟨hk, hto⟩ | hlt
      · simp only [show i < w by omega, show ¬ i < k by omega, show q.fromBit - 1 < w by omega, decide_true,
          Bool.true_and, if_false]
        by_cases hfk : q.fromBit - 1 < k
        · rw [if_pos hfk, show k - 1 = q.fromBit - 1 by omega]
        · rw [if_neg hfk]
      · simp [show ¬ i < w by omega, show ¬ q.fromBit - 1 < w by omega]
    · rw [Bool.not_eq_true] at hsign
      simp [hsign, show ¬ i < w by omega]
    · have hcut : ∀ j, min k w ≤ j → (decide (j < w) && if j < k then x.getLsbD j else (s && x.getLsbD (k - 1))) =
          false := by
        intro j hj
        by_cases hjw : j < w
        · rw [if_neg (by omega)]
          have hsf : s = false := by
            cases s with
            | true => exact absurd ⟨rfl, by omega⟩ hs
            | false => rfl
          simp [hsf]
        · simp [hjw]
      rw [hcut i (by omega), hcut (q.fromBit - 1) (by omega), Bool.and_false]
    · rw [Bool.not_eq_true] at hsign
      rw [hsign, Bool.false_and]
      by_cases hiw : i < w
      · rw [if_neg (by omega)]
        have hsf : s = false := by
          cases s with
          | true => exact absurd ⟨rfl, by omega⟩ hs
          | false => rfl
        simp [hsf]
      · simp [hiw]

/-- The extension fails on a register that holds all ones or a single one. -/
theorem keepsExtend_of_keeps {s : Bool} {k w : Nat} (hk : 0 < k) (hw : w ≤ 64)
    (h : ∀ x, q.Keeps (extend s k x &&& bitmaskOfSize w)) : q.KeepsExtend s k w := by
  have hpos := q.fromBit_pos
  have hto := q.toBit_le
  by_contra hnot
  rw [KeepsExtend, not_or] at hnot
  obtain ⟨hne, hnot⟩ := hnot
  have hlt : q.fromBit < q.toBit := lt_of_le_of_ne q.fromBit_le hne
  have hbit : ∀ (x : BitVec 64) i, q.fromBit ≤ i → i < q.toBit →
      (decide (i < w) && if i < k then x.getLsbD i else (s && x.getLsbD (k - 1))) = (q.signXtd &&
        (decide (q.fromBit - 1 < w) && if q.fromBit - 1 < k then x.getLsbD (q.fromBit - 1) else
          (s && x.getLsbD (k - 1)))) := by
    intro x i hfrom hi
    have := (q.keeps_iff _).mp (h x) i hfrom hi
    rwa [getLsbD_extend_and hw, getLsbD_extend_and hw] at this
  have hones := hbit (BitVec.allOnes 64)
  have hone := hbit (1#64 <<< q.fromBit) q.fromBit le_rfl hlt
  rw [getLsbD_oneBit (by omega), getLsbD_oneBit (by omega)] at hone
  simp only [BitVec.getLsbD_allOnes] at hones
  split_ifs at hnot with hs hsign hsign
  · rw [not_or, not_and_or] at hnot
    by_cases hfk : q.fromBit < k
    · simp [hfk, hs.2.trans' hfk, show q.fromBit - 1 < k by omega, show q.fromBit ≠ 0 by omega] at hone
    · have hw' := hones w (by omega) (by omega)
      simp [hsign, hs.1, show q.fromBit - 1 < w by omega, show k - 1 < 64 by omega,
        show q.fromBit - 1 < 64 by omega] at hw'
  · rw [Bool.not_eq_true] at hsign
    have hf := hones q.fromBit le_rfl hlt
    simp [hsign, hs.1, show q.fromBit < w by omega, show k - 1 < 64 by omega, show q.fromBit < 64 by omega] at hf
  · by_cases hfm : q.fromBit < min k w
    · simp [show q.fromBit < k by omega, show q.fromBit < w by omega, show q.fromBit - 1 < k by omega,
        show q.fromBit ≠ 0 by omega] at hone
    · have hf := hones q.fromBit le_rfl hlt
      simp only [hsign, show q.fromBit - 1 < w by omega, show q.fromBit - 1 < k by omega,
        show q.fromBit - 1 < 64 by omega, decide_true, if_true, Bool.and_true] at hf
      by_cases hfw : q.fromBit < w
      · have hsf : s = false := by
          cases s with
          | true => exact absurd ⟨rfl, by omega⟩ hs
          | false => rfl
        simp [hsf, show ¬ q.fromBit < k by omega] at hf
      · simp [hfw] at hf
  · rw [Bool.not_eq_true] at hsign
    have hf := hones q.fromBit le_rfl hlt
    simp [hsign, show q.fromBit < w by omega, show q.fromBit < k by omega, show q.fromBit < 64 by omega] at hf

theorem keeps_extend_iff {s : Bool} {k w : Nat} (hk : 0 < k) (hw : w ≤ 64) :
    (∀ x, q.Keeps (extend s k x &&& bitmaskOfSize w)) ↔ q.KeepsExtend s k w :=
  ⟨q.keepsExtend_of_keeps hk hw, q.keeps_of_keepsExtend hw⟩

end Query

/-! ## When the answer is right -/

/-- The operands for which the answer is wrong: a conversion between types of different sign, which is judged
by the sign of its result; an arithmetic shift of an unsigned type, or of a signed one of fewer bits than are
asked for; a bit field, of which the type `MTYPE_BS` has one bit, or that is signed in an unsigned container. -/
def Cr.Misjudged (split64BitIntOps : Bool) (q : Query) : Cr → Prop
  | preg dtyp rhs => dtyp.isIntegral = true ∧ dtyp ≠ .b ∧ dtyp.bitSize ≠ 32 ∧ rhs.Misjudged split64BitIntOps q
  | load dtyp dsctyp (some bits) _ =>
    dtyp.isIntegral = true ∧ q.fromBit < q.toBit ∧ ¬ (split64BitIntOps = true ∧ q.toBit = 64) ∧
      if dsctyp = .bs then
        if q.signXtd = true then
          q.toBit = 32 ∧ if dtyp.signed = true then q.fromBit < bits else 1 < q.fromBit ∧ q.fromBit ≤ bits
        else dtyp.signed = false ∧ q.fromBit < bits
      else
        q.signXtd = false ∧ dtyp.signed = true ∧ signExtended dtyp dsctyp = false ∧ dsctyp.bitSize ≤ q.fromBit ∧
          q.fromBit < dtyp.bitSize
  | cvt dtyp dsctyp usecnt livebits _ =>
    dtyp.isIntegral = true ∧ dsctyp.isIntegral = true ∧ q.fromBit < q.toBit ∧ dsctyp.bitSize < dtyp.bitSize ∧
      ¬ (0 < usecnt ∧ livebits &&& ~~~bitsInType dsctyp = 0) ∧ dtyp.isSigned = q.signXtd ∧
      if q.signXtd = true then dsctyp.signed = false ∧ q.fromBit = dsctyp.bitSize
      else dsctyp.signed = true ∧ dsctyp.bitSize ≤ q.fromBit
  | ashr dtyp _ (.const v) =>
    q.fromBit < q.toBit ∧ (dtyp.bitSize : Int) - v.toInt ≤ q.fromBit ∧ q.fromBit < dtyp.bitSize ∧
      dtyp.signed = q.signXtd ∧
      (q.signXtd = true → dtyp.bitSize < q.toBit ∨ q.fromBit < dtyp.bitSize - v.toNat % dtyp.bitSize)
  | _ => False

theorem Mtype.isWord_cases {t : Mtype} (h : t.isWord = true) :
    t = i4 ∨ t = i8 ∨ t = u4 ∨ t = u8 ∨ t = a4 ∨ t = a8 := by
  cases t <;> simp_all [isWord]

theorem bitsInType_of_isWord {t : Mtype} (h : t.isWord = true) : bitsInType t = bitmaskOfSize t.bitSize := by
  apply bitsInType_of_scalar
  rcases Mtype.isWord_cases h with rfl | rfl | rfl | rfl | rfl | rfl <;> rfl

/-- What is proved for each kind of operand. -/
def Judged (target : Target) (split64BitIntOps : Bool) (q : Query) (cr : Cr) : Prop :=
  (redundantCvtl target split64BitIntOps q cr = true → ∀ env, q.Keeps (cr.eval env)) ↔
    ¬ cr.Misjudged split64BitIntOps q

section

variable {target : Target} {split : Bool} {q : Query}

theorem keeps_bit {v : BitVec 64} (hv : v &&& 1 = v) (h : q.signXtd = false ∨ q.fromBit ≠ 1) : q.Keeps v := by
  have hpos := q.fromBit_pos
  have hbit : ∀ i, 0 < i → v.getLsbD i = false := by
    intro i hi
    rw [← hv, BitVec.getLsbD_and, show (1 : BitVec 64) = 1#64 from rfl, BitVec.getLsbD_one]
    simp [show i ≠ 0 by omega]
  rw [q.keeps_iff]
  intro i hfrom _
  rw [hbit i (by omega)]
  rcases h with h | h
  · rw [h, Bool.false_and]
  · rw [hbit (q.fromBit - 1) (by omega), Bool.and_false]

/-- A boolean operand is 0 or 1. -/
theorem eval_bit {cr : Cr} (h : cr.Typed) (hb : cr.dtyp = .b) (env : Nat → BitVec 64) :
    cr.eval env &&& 1 = cr.eval env := by
  have hmask : ∀ v : BitVec 64, (v &&& bitsInType .b) &&& 1 = v &&& bitsInType .b := by
    intro v
    rw [show bitsInType .b = 1#64 by decide, BitVec.and_assoc]
    rfl
  induction cr with
  | const dtyp val =>
    rcases h hb with rfl | rfl
    · simp [Cr.eval]
    · simp [Cr.eval]
  | leaf kind dtyp i =>
    obtain rfl : dtyp = .b := hb
    exact hmask _
  | preg dtyp rhs ih => exact ih h.1 (h.2 hb)
  | load dtyp dsctyp field i =>
    obtain rfl : dtyp = .b := hb
    cases field <;> exact hmask _
  | cvtl dtyp => 
    obtain rfl : dtyp = .b := hb
    exact hmask _
  | cvt dtyp =>
    obtain rfl : dtyp = .b := hb
    exact hmask _
  | band dtyp =>
    obtain rfl : dtyp = .b := hb
    exact hmask _
  | ashr dtyp =>
    obtain rfl : dtyp = .b := hb
    exact hmask _
  | extractBits dtyp =>
    obtain rfl : dtyp = .b := hb
    exact hmask _
  | rrotate dtyp dsctyp opnd count =>
    obtain rfl : dtyp = .b := hb
    rcases h.2 with ⟨h', -⟩ | ⟨h', -⟩ <;> cases h'
  | op opr dtyp kid =>
    obtain rfl : dtyp = .b := hb
    unfold Cr.eval
    split_ifs
    · rw [BitVec.and_assoc]
      rfl
    · exact hmask _

theorem keeps_all_iff {s : Bool} {k w i : Nat} (hk : 0 < k) (hw : w ≤ 64) :
    (∀ env : Nat → BitVec 64, q.Keeps (extend s k (env i) &&& bitmaskOfSize w)) ↔ q.KeepsExtend s k w := by
  rw [← q.keeps_extend_iff hk hw]
  exact ⟨fun h x => h fun _ => x, fun h env => h (env i)⟩

theorem Mtype.bitSize_le_of_isWord {t : Mtype} (h : t.isWord = true) : t.bitSize = 32 ∨ t.bitSize = 64 := by
  rcases Mtype.isWord_cases h with rfl | rfl | rfl | rfl | rfl | rfl <;> simp [Mtype.bitSize]

theorem Mtype.isSigned_of_isWord {t : Mtype} (h : t.isWord = true) : t.isSigned = t.signed := by
  rcases Mtype.isWord_cases h with rfl | rfl | rfl | rfl | rfl | rfl <;> rfl

theorem Mtype.isWord_ne {t : Mtype} (h : t.isWord = true) : t ≠ .b ∧ t.isIntegral = true := by
  rcases Mtype.isWord_cases h with rfl | rfl | rfl | rfl | rfl | rfl <;> exact ⟨nofun, rfl⟩

theorem judged_cvtl {dtyp : Mtype} {offset usecnt kid : Nat} {livebits : Mask}
    (h : (Cr.cvtl dtyp offset usecnt livebits kid).Typed) :
    Judged target split q (.cvtl dtyp offset usecnt livebits kid) := by
  obtain ⟨hword, hpos, hle⟩ := h
  have hsize := Mtype.bitSize_le_of_isWord hword
  have hsigned := Mtype.isSigned_of_isWord hword
  refine iff_of_true ?_ not_false
  intro hred env
  have hred' : redundantCvtl target split q (.cvtl dtyp offset usecnt livebits kid) = true := hred
  rw [redundantCvtl, if_neg (by exact (Mtype.isWord_ne hword).1),
    if_neg (by exact ne_false_of_eq_true (Mtype.isWord_ne hword).2)] at hred'
  rw [Cr.eval, bitsInType_of_isWord hword]
  refine (keeps_all_iff hpos (by omega)).mpr ?_ env
  rw [hsigned] at hred'
  have hfrom := q.fromBit_le
  unfold Query.KeepsExtend
  cases hs : dtyp.signed <;> cases hq : q.signXtd <;> simp [hs, hq] at hred' ⊢ <;> grind

theorem judged_cvt {dtyp dsctyp : Mtype} {usecnt kid : Nat} {livebits : Mask}
    (h : (Cr.cvt dtyp dsctyp usecnt livebits kid).Typed) (hb : dtyp ≠ .b) (hint : dtyp.isIntegral = true) :
    Judged target split q (.cvt dtyp dsctyp usecnt livebits kid) := by
  have hle := q.fromBit_le
  have hto := q.toBit_le
  rw [Judged, redundantCvtl, if_neg (by exact hb), if_neg (by exact ne_false_of_eq_true hint)]
  simp only [Cr.Misjudged, Cr.eval]
  by_cases hdsc : dsctyp.isIntegral = true
  · obtain ⟨hword, hdscWord⟩ := (h hint hdsc).resolve_left hb
    have hsize := Mtype.bitSize_le_of_isWord hword
    have hsigned := Mtype.isSigned_of_isWord hword
    have hpos : 0 < dsctyp.bitSize := by
      rcases hdscWord with hw | rfl
      · have := Mtype.bitSize_le_of_isWord hw
        omega
      · decide
    rw [bitsInType_of_isWord hword, keeps_all_iff hpos (by omega)]
    have hB : dsctyp.bitSize < dtyp.bitSize → dsctyp.signed = true → dtyp.bitSize = 64 := by
      rcases hdscWord with hw | rfl
      · have := Mtype.bitSize_le_of_isWord hw
        omega
      · exact fun _ hs => absurd hs (by decide)
    unfold Query.KeepsExtend
    rw [hsigned]
    cases hs : dtyp.signed <;> cases hq : q.signXtd <;> cases hd : dsctyp.signed <;>
      simp [hint, hdsc, hd] at hB ⊢ <;> grind
  · simp [hdsc]

theorem Mtype.bitSize_of_scalar {t : Mtype} (h : t.scalar = true) : t.bitSize ≤ 32 ∨ t.bitSize = 64 := by
  cases t <;> simp_all [Mtype.scalar, Mtype.bitSize]

theorem Mtype.isSigned_of_scalar {t : Mtype} (h : t.scalar = true) (hb : t ≠ .b) (hbs : t ≠ .bs) :
    t.isIntegral = true ∧ t.isSigned = t.signed := by
  cases t <;> first | exact ⟨rfl, rfl⟩ | exact absurd h Bool.false_ne_true | exact absurd rfl hb | exact absurd rfl hbs

/-- The flag of a load: the high half of a 64-bit result, or both halves. -/
theorem signExtended_of_scalar {dtyp dsctyp : Mtype} (hword : dtyp.isWord = true) (hscalar : dsctyp.scalar = true)
    (hb : dsctyp ≠ .b) (hbs : dsctyp ≠ .bs) : signExtended dtyp dsctyp = true ↔ dtyp.signed = true ∧
      (dsctyp.bitSize < 32 ∧ dsctyp.signed = true ∨ dsctyp.bitSize = 32 ∧ dtyp.bitSize = 64) := by
  have hsize := Mtype.bitSize_le_of_isWord hword
  obtain ⟨hint, hdsc⟩ := Mtype.isSigned_of_scalar hscalar hb hbs
  rw [signExtended, if_neg hbs, isHiSignExtended, isLoSignExtended, (Mtype.isWord_ne hword).2, hint, hdsc,
    Mtype.isSigned_of_isWord hword, show Mtype.i4.bitSize = 32 from rfl]
  by_cases hhalf : dsctyp.bitSize = 32
  · cases dtyp.signed <;> cases dsctyp.signed <;> simp [hhalf] <;> omega
  · cases dtyp.signed <;> cases dsctyp.signed <;> simp [hhalf] <;> omega

theorem judged_load {dtyp dsctyp : Mtype} {i : Nat} (h : (Cr.load dtyp dsctyp none i).Typed) (hb : dtyp ≠ .b)
    (hint : dtyp.isIntegral = true) : Judged target split q (.load dtyp dsctyp none i) := by
  obtain ⟨hword, hsigned, hscalar, hdb, hbs⟩ := (h hint).resolve_left fun hor => hb hor.1
  have hsize := Mtype.bitSize_le_of_isWord hword
  have hpos := Mtype.bitSize_le_of_scalar hscalar
  have hdsize := Mtype.bitSize_of_scalar hscalar
  have hle := q.fromBit_le
  have hto := q.toBit_word
  refine iff_of_true ?_ not_false
  rw [redundantCvtl, if_neg (by exact hb), if_neg (by exact ne_false_of_eq_true hint)]
  intro hred env
  rw [Cr.eval, bitsInType_of_isWord hword]
  refine (keeps_all_iff hpos.1 (by omega)).mpr ?_ env
  unfold Query.KeepsExtend
  -- the flag of a load between types of one sign
  have hflag : signExtended dtyp dsctyp = (dsctyp.signed && decide (dsctyp.bitSize < 32 ∨ dsctyp.bitSize = 32 ∧
      dtyp.bitSize = 64)) := by
    rw [Bool.eq_iff_iff, signExtended_of_scalar hword hscalar hdb hbs, hsigned, Bool.and_eq_true, decide_eq_true_eq]
    exact and_congr_right fun hs => or_congr (and_iff_left hs) Iff.rfl
  simp only [loadKept, hflag] at hred
  cases hs : dsctyp.signed <;> cases hq : q.signXtd <;> simp [hs, hq] at hred ⊢ <;> grind

theorem judged_field {dtyp dsctyp : Mtype} {bits i : Nat} (h : (Cr.load dtyp dsctyp (some bits) i).Typed)
    (hb : dtyp ≠ .b) (hint : dtyp.isIntegral = true) : Judged target split q (.load dtyp dsctyp (some bits) i) := by
  obtain ⟨hword, hscalar, hdb, hbits, hbw, hbd⟩ := h hint
  have hsize := Mtype.bitSize_le_of_isWord hword
  have hpos := Mtype.bitSize_le_of_scalar hscalar
  have hdsize := Mtype.bitSize_of_scalar hscalar
  have hle := q.fromBit_le
  have hto := q.toBit_word
  have hfrom := q.fromBit_pos
  rw [Judged, redundantCvtl, if_neg (by exact hb), if_neg (by exact ne_false_of_eq_true hint)]
  simp only [Cr.Misjudged, Cr.eval]
  rw [bitsInType_of_isWord hword, keeps_all_iff hbits (by omega)]
  unfold Query.KeepsExtend
  by_cases hbs : dsctyp = .bs
  · have hone : dsctyp.bitSize = 1 := by
      rw [hbs]
      rfl
    have hflag : signExtended dtyp dsctyp = dtyp.signed := by
      rw [signExtended, if_pos hbs]
    simp only [loadKept, hflag, hone, hint, if_pos hbs]
    cases hs : dtyp.signed <;> cases hq : q.signXtd <;> simp <;> grind
  · have hwithin := hbd hbs
    have hflag : signExtended dtyp dsctyp = true → dtyp.signed = true ∧ (dsctyp.bitSize < 32 ∨
        dsctyp.bitSize = 32 ∧ dtyp.bitSize = 64) := by
      rw [signExtended_of_scalar hword hscalar hdb hbs]
      exact fun ⟨hs, hsize⟩ => ⟨hs, hsize.imp_left And.left⟩
    simp only [loadKept, hint, if_neg hbs]
    cases hs : dtyp.signed <;> cases hq : q.signXtd <;> cases hf : signExtended dtyp dsctyp <;>
      simp [hs, hf] at hflag ⊢ <;> grind

theorem ashr_eq_extend {w c : Nat} (hc : c < w) (hw : w ≤ 64) (x : BitVec 64) :
    (signExtendFrom w x).sshiftRight c &&& bitmaskOfSize w = extend true (w - c) (x >>> c) &&& bitmaskOfSize w := by
  apply BitVec.eq_of_getLsbD_eq
  intro i hi
  rw [getLsbD_extend_and hw, BitVec.getLsbD_and, getLsbD_bitmaskOfSize, BitVec.getLsbD_sshiftRight]
  simp only [BitVec.getLsbD_ushiftRight, Bool.true_and]
  by_cases hiw : i < w
  · have hmsb : (signExtendFrom w x).msb = x.getLsbD (w - 1) := by
      rw [BitVec.msb_eq_getLsbD_last, getLsbD_signExtendFrom x (by omega)]
      split_ifs with h
      · rw [show 64 - 1 = w - 1 by omega]
      · rfl
    rw [hmsb]
    by_cases hic : i < w - c
    · rw [getLsbD_signExtendFrom x (by omega), if_pos (show c + i < w by omega)]
      simp [hi, hiw, hic, show c + i < 64 by omega]
    · rw [if_neg hic, show c + (w - c - 1) = w - 1 by omega]
      by_cases h64 : c + i < 64
      · rw [getLsbD_signExtendFrom x h64, if_neg (show ¬ c + i < w by omega)]
        simp [hi, hiw, h64]
      · simp [hi, hiw, h64]
  · simp [hiw]

theorem keeps_ashr_iff {w c kid : Nat} (hc : c < w) (hw : w ≤ 64) :
    (∀ env : Nat → BitVec 64, q.Keeps ((signExtendFrom w (env kid)).sshiftRight c &&& bitmaskOfSize w)) ↔
      q.KeepsExtend true (w - c) w := by
  rw [← q.keeps_extend_iff (by omega) hw]
  constructor
  · intro h y
    -- every word has the upper bits of some shifted one
    have hy := h fun _ => y <<< c
    rw [ashr_eq_extend hc hw] at hy
    have heq : extend true (w - c) ((y <<< c) >>> c) &&& bitmaskOfSize w = extend true (w - c) y &&& bitmaskOfSize w := by
      apply BitVec.eq_of_getLsbD_eq
      intro i _
      rw [getLsbD_extend_and hw, getLsbD_extend_and hw]
      have hbit : ∀ j, j < w - c → ((y <<< c) >>> c).getLsbD j = y.getLsbD j := by
        intro j hj
        rw [BitVec.getLsbD_ushiftRight, BitVec.getLsbD_shiftLeft]
        simp [show c + j < 64 by omega]
      rw [hbit (w - c - 1) (by omega)]
      by_cases hi : i < w - c
      · rw [if_pos hi, if_pos hi, hbit i hi]
      · rw [if_neg hi, if_neg hi]
    rwa [heq] at hy
  · intro h env
    rw [ashr_eq_extend hc hw]
    exact h _

theorem judged_ashr {dtyp : Mtype} {kid : Nat} {count : Kid} (hword : dtyp.isWord = true) :
    Judged target split q (.ashr dtyp kid count) := by
  obtain ⟨hb, hint⟩ := Mtype.isWord_ne hword
  have hsize := Mtype.bitSize_le_of_isWord hword
  have hle := q.fromBit_le
  cases count with
  | tree i =>
    refine iff_of_true ?_ not_false
    rw [redundantCvtl, if_neg (by exact hb), if_neg (by exact ne_false_of_eq_true hint)]
    exact fun hred => absurd hred Bool.false_ne_true
  | const v =>
    rw [Judged, redundantCvtl, if_neg (by exact hb), if_neg (by exact ne_false_of_eq_true hint)]
    have hmod : v.toNat % dtyp.bitSize < dtyp.bitSize := Nat.mod_lt _ (by omega)
    simp only [Cr.Misjudged, Cr.eval, Kid.eval]
    rw [bitsInType_of_isWord hword, keeps_ashr_iff hmod (by omega)]
    unfold Query.KeepsExtend
    generalize v.toNat % dtyp.bitSize = c at hmod ⊢
    cases hs : dtyp.signed <;> cases hq : q.signXtd <;> simp <;> grind

theorem judged_band {dtyp : Mtype} {opnd0 opnd1 : Kid} (hword : dtyp.isWord = true) :
    Judged target split q (.band dtyp opnd0 opnd1) := by
  obtain ⟨hb, hint⟩ := Mtype.isWord_ne hword
  refine iff_of_true ?_ not_false
  rw [redundantCvtl, if_neg (by exact hb), if_neg (by exact ne_false_of_eq_true hint)]
  intro hred env
  have hle := q.fromBit_le
  have hto := q.toBit_le
  cases hq : q.signXtd with
  | true => simp [hq] at hred
  | false =>
    simp only [hq, Bool.false_eq_true, if_false] at hred
    -- a constant below the bound has no bit that the extension clears
    have hconst : ∀ v : BitVec 64, decide (v ≤ target.shiftLeft 1#64 q.fromBit - 1#64) = true →
        ∀ i, q.fromBit ≤ i → i < q.toBit → v.getLsbD i = false := by
      intro v hv i hfrom hi
      have hpow : 2 ^ q.fromBit < 2 ^ 64 := Nat.pow_lt_pow_right (by decide) (by omega)
      have hone : 1 ≤ 2 ^ q.fromBit := Nat.one_le_two_pow
      have hnat : ((1#64 <<< q.fromBit) - 1#64).toNat = 2 ^ q.fromBit - 1 := by
        rw [BitVec.toNat_sub, BitVec.toNat_shiftLeft, BitVec.toNat_ofNat, Nat.shiftLeft_eq]
        omega
      rw [target.shiftLeft_of_lt _ (by omega), decide_eq_true_eq, BitVec.le_def, hnat] at hv
      have hmono : 2 ^ q.fromBit ≤ 2 ^ i := Nat.pow_le_pow_right (by decide) hfrom
      exact Nat.testBit_lt_two_pow (by omega)
    rw [q.keeps_iff, hq]
    intro i hfrom hi
    simp only [Cr.eval, BitVec.getLsbD_and, Bool.false_and]
    cases opnd0 with
    | const v => simp [Kid.eval, hconst v hred i hfrom hi]
    | tree j =>
      cases opnd1 with
      | const v => simp [Kid.eval, hconst v hred i hfrom hi]
      | tree k => cases hred

theorem getLsbD_of_shifts {w f i : Nat} {u : BitVec w} (hf : 0 < f) (hfi : f ≤ i) (hi : i < w)
    (h : u = (u <<< (w - f)).sshiftRight (w - f)) : u.getLsbD i = u.getLsbD (f - 1) := by
  have hbit := congrArg (BitVec.getLsbD · i) h
  simp only [BitVec.getLsbD_sshiftRight, BitVec.msb_eq_getLsbD_last, BitVec.getLsbD_shiftLeft,
    show ¬ w - f + i < w by omega, show w - 1 - (w - f) = f - 1 by omega, show ¬ w - 1 < w - f by omega,
    show ¬ w ≤ i by omega, show w - 1 < w by omega, decide_true, decide_false, if_false, Bool.not_false,
    Bool.true_and] at hbit
  exact hbit

theorem getLsbD_of_shifts_zero {w f i : Nat} {u : BitVec w} (hfi : f ≤ i) (hi : i < w)
    (h : u = (u <<< (w - f)) >>> (w - f)) : u.getLsbD i = false := by
  rw [h, BitVec.getLsbD_ushiftRight, BitVec.getLsbD_shiftLeft]
  simp [show ¬ w - f + i < w by omega]

theorem keeps_of_constKept {val : BitVec 64} (h : constKept q val = true) : q.Keeps val := by
  have hle := q.fromBit_le
  have hpos := q.fromBit_pos
  rw [q.keeps_iff]
  intro i hfrom hi
  unfold constKept at h
  rcases q.toBit_word with hto | hto
  · have hlow : ∀ j < 32, val.getLsbD j = (val.setWidth 32).getLsbD j := by
      intro j hj
      rw [BitVec.getLsbD_setWidth]
      simp [hj]
    rw [hlow i (by omega), hlow (q.fromBit - 1) (by omega)]
    simp only [hto, show ¬ (32 : Nat) = 64 by decide, if_false] at h
    generalize val.setWidth 32 = u at h ⊢
    cases hq : q.signXtd with
    | true =>
      rw [hq, if_pos rfl, decide_eq_true_eq] at h
      rw [Bool.true_and]
      exact getLsbD_of_shifts hpos hfrom (by omega) h
    | false =>
      rw [hq, if_neg Bool.false_ne_true, decide_eq_true_eq] at h
      rw [Bool.false_and]
      exact getLsbD_of_shifts_zero hfrom (by omega) h
  · simp only [hto, if_true] at h
    cases hq : q.signXtd with
    | true =>
      rw [hq, if_pos rfl, decide_eq_true_eq] at h
      rw [Bool.true_and]
      exact getLsbD_of_shifts hpos hfrom (by omega) h.symm
    | false =>
      rw [hq, if_neg Bool.false_ne_true, decide_eq_true_eq] at h
      rw [Bool.false_and]
      exact getLsbD_of_shifts_zero hfrom (by omega) h.symm

theorem judged_const {dtyp : Mtype} {val : BitVec 64} (hb : dtyp ≠ .b) (hint : dtyp.isIntegral = true) :
    Judged target split q (.const dtyp val) := by
  refine iff_of_true ?_ not_false
  rw [redundantCvtl, if_neg (by exact hb), if_neg (by exact ne_false_of_eq_true hint)]
  intro hred env
  split_ifs at hred
  exact keeps_of_constKept hred

theorem judged_rrotate {dtyp dsctyp : Mtype} {opnd : Cr} {count : Nat}
    (h : (Cr.rrotate dtyp dsctyp opnd count).Typed) : Judged target split q (.rrotate dtyp dsctyp opnd count) := by
  have hb : dtyp ≠ .b ∧ dtyp.isIntegral = true := by
    rcases h.2 with ⟨rfl, -⟩ | ⟨rfl, -⟩ <;> decide
  refine iff_of_true ?_ not_false
  rw [redundantCvtl, if_neg (by exact hb.1), if_neg (by exact ne_false_of_eq_true hb.2)]
  intro hred env
  split_ifs at hred with hq hsize
  rw [Bool.not_eq_true] at hq
  rw [q.keeps_iff, hq, Cr.eval]
  intro i hfrom hi
  rw [Bool.false_and, rotateRightBy, BitVec.getLsbD_and, getLsbD_lowOnes]
  simp [show ¬ i < dsctyp.bitSize by omega]

theorem judged_op {opr : Operator} {dtyp : Mtype} {kid : Nat} (hb : dtyp ≠ .b) (hint : dtyp.isIntegral = true) :
    Judged target split q (.op opr dtyp kid) := by
  refine iff_of_true ?_ not_false
  rw [redundantCvtl, if_neg (by exact hb), if_neg (by exact ne_false_of_eq_true hint)]
  intro hred env
  split_ifs at hred with hopr
  rw [Cr.eval, if_pos hopr]
  refine keeps_bit ?_ (by simpa using hred)
  rw [BitVec.and_assoc]
  rfl

theorem judged_bit {cr : Cr} (h : cr.Typed) (hb : cr.dtyp = .b) : Judged target split q cr := by
  refine iff_of_true ?_ ?_
  · intro hred env
    rw [redundantCvtl.eq_def, if_pos hb] at hred
    exact keeps_bit (eval_bit h hb env) (by simpa using hred)
  · cases cr with
    | preg dtyp rhs => exact fun hm => hm.2.1 hb
    | load dtyp dsctyp field i =>
      obtain rfl : dtyp = .b := hb
      cases field with
      | none => exact not_false
      | some bits => exact absurd (h rfl).1 (by decide)
    | cvt dtyp dsctyp usecnt livebits kid =>
      obtain rfl : dtyp = .b := hb
      intro hm
      have hlt : dsctyp.bitSize < 1 := hm.2.2.2.1
      have hint := hm.2.1
      cases dsctyp <;> simp [Mtype.isIntegral, Mtype.bitSize] at hint hlt
    | ashr dtyp kid count =>
      obtain rfl : dtyp = .b := hb
      exact absurd (show Mtype.b.isWord = true from h) (by decide)
    | _ => exact not_false

theorem judged_not_integral {cr : Cr} (h : cr.Typed) (hint : ¬ cr.dtyp.isIntegral = true) :
    Judged target split q cr := by
  have hb : cr.dtyp ≠ .b := fun hb => hint (by rw [hb]; rfl)
  refine iff_of_true ?_ ?_
  · intro hred
    rw [redundantCvtl.eq_def, if_neg hb, if_pos (by simpa using hint)] at hred
    cases hred
  · cases cr with
    | preg dtyp rhs => exact fun hm => hint hm.1
    | load dtyp dsctyp field i =>
      cases field with
      | none => exact not_false
      | some bits => exact fun hm => hint hm.1
    | cvt dtyp dsctyp usecnt livebits kid => exact fun hm => hint hm.1
    | ashr dtyp kid count => exact absurd (Mtype.isWord_ne h).2 hint
    | _ => exact not_false

theorem judged_other {cr : Cr} (h : cr.Typed)
    (hjudged : cr.dtyp ≠ .b → cr.dtyp.isIntegral = true → Judged target split q cr) : Judged target split q cr := by
  by_cases hb : cr.dtyp = .b
  · exact judged_bit h hb
  · by_cases hint : cr.dtyp.isIntegral = true
    · exact hjudged hb hint
    · exact judged_not_integral h hint

end

/-- The answer is right for every value of the operand exactly when the operand is not one of those that are
misjudged. -/
theorem redundantCvtl_iff (target : Target) (split64BitIntOps : Bool) (q : Query) (cr : Cr) (h : cr.Typed) :
    (redundantCvtl target split64BitIntOps q cr = true → ∀ env, q.Keeps (cr.eval env)) ↔
      ¬ cr.Misjudged split64BitIntOps q := by
  show Judged target split64BitIntOps q cr
  induction cr with
  | preg dtyp rhs ih =>
    by_cases hb : dtyp = .b
    · exact judged_bit h hb
    · by_cases hint : dtyp.isIntegral = true
      · rw [Judged, redundantCvtl, if_neg (by exact hb), if_neg (by exact ne_false_of_eq_true hint)]
        simp only [Cr.Misjudged, Cr.eval, hint, hb, true_and, not_false_eq_true, ne_eq]
        by_cases h32 : dtyp.bitSize = 32
        · simp [h32]
        · rw [if_neg h32, not_and]
          exact ⟨fun hr _ => (ih h.1).mp hr, fun hr => (ih h.1).mpr (hr h32)⟩
      · exact judged_not_integral h hint
  | const dtyp val => exact judged_other h fun hb hint => judged_const hb hint
  | leaf kind dtyp i =>
    refine judged_other h fun hb hint => iff_of_true ?_ not_false
    rw [redundantCvtl, if_neg (by exact hb), if_neg (by exact ne_false_of_eq_true hint)]
    exact fun hred => absurd hred Bool.false_ne_true
  | load dtyp dsctyp field i =>
    cases field with
    | none => exact judged_other h fun hb hint => judged_load h hb hint
    | some bits => exact judged_other h fun hb hint => judged_field h hb hint
  | cvtl dtyp => exact judged_cvtl h
  | cvt dtyp => exact judged_other h fun hb hint => judged_cvt h hb hint
  | band dtyp => exact judged_band h
  | ashr dtyp => exact judged_ashr h
  | extractBits dtyp opBitOffset opBitSize kid =>
    refine judged_other h fun hb hint => iff_of_true ?_ not_false
    rw [redundantCvtl, if_neg (by exact hb), if_neg (by exact ne_false_of_eq_true hint),
      if_pos (by rcases q.toBit_word with ht | ht <;> omega)]
    exact fun hred => absurd hred Bool.false_ne_true
  | rrotate dtyp dsctyp opnd count => exact judged_rrotate h
  | op opr dtyp kid => exact judged_other h fun hb hint => judged_op hb hint

/-- A conversion of an unsigned 32-bit value to a signed 64-bit one, of which all bits are live. -/
def unsignedWidened : Cr := .cvt .i8 .u4 1 (BitVec.allOnes 64) 0

/-- The sign extension of 32 bits to 64. -/
def signExtend32 : Query := ⟨true, 64, 32, Or.inr rfl, by decide, by decide⟩

/-- The conversion of `2 ^ 31` is judged to need no sign extension, which would change it. -/
theorem redundantCvtl_unsignedWidened : unsignedWidened.Typed ∧
    redundantCvtl plainTarget false signExtend32 unsignedWidened = true ∧
    ¬ ∀ env, signExtend32.Keeps (unsignedWidened.eval env) := by
  refine ⟨fun _ _ => Or.inr ⟨rfl, Or.inl rfl⟩, by decide, ?_⟩
  intro h
  have hkeeps := h fun _ => 0x80000000#64
  revert hkeeps
  unfold Query.Keeps
  decide

theorem redundantCvtl_iff_zeroExtend :
    redundantCvtl plainTarget false ⟨false, 64, 32, Or.inr rfl, by decide, by decide⟩ (.cvt .u8 .u4 0 0 0) = true ∧
      ∀ env, Query.Keeps ⟨false, 64, 32, Or.inr rfl, by decide, by decide⟩ ((Cr.cvt .u8 .u4 0 0 0).eval env) := by
  refine ⟨rfl, ?_⟩
  refine (redundantCvtl_iff plainTarget false _ (.cvt .u8 .u4 0 0 0) (fun _ _ => Or.inr ⟨rfl, Or.inl rfl⟩)).mpr ?_ rfl
  simp [Cr.Misjudged, Mtype.signed]

end Path64.Bdce

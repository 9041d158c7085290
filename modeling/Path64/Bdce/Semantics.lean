import Path64.Bdce.Basic

/-!
# Bitwise dead code elimination: what the operators compute

* `Value` : the value of an expression, one register word (two for `MINMAX`, `DIVREM` and `XMPY`) or
  a value that is live as a whole; `Agree` : two values that agree on a mask;
* `OpNode.eval` : the value of an operator node. An integer of `w` bits is computed on the low `w`
  bits of its operands and zero-extended into its register; only a conversion, a load or `CVTL`
  extends a sign;
* `OpNode.Typed` : the typing of a node and its operands that the opcode table gives.
-/

namespace Path64.Bdce

open Path64.Bits

/-! ## Values -/

/-- The value of an expression. -/
inductive Value (ρ : Type)
  | word (low high : BitVec 64)
  | whole (r : ρ)

variable {ρ : Type}

namespace Value

/-- The register of an integer, the first one of a pair. -/
def low : Value ρ → BitVec 64
  | word l _ => l
  | whole _ => 0

/-- The second register of a pair. -/
def high : Value ρ → BitVec 64
  | word _ h => h
  | whole _ => 0

@[simp] theorem low_word (l h : BitVec 64) : (word l h : Value ρ).low = l := rfl

@[simp] theorem high_word (l h : BitVec 64) : (word l h : Value ρ).high = h := rfl

end Value

/-- Two values of type `t` agree on the mask `m`: bit by bit for the integers one register holds,
otherwise as a whole as soon as one bit of the type is live. -/
def Agree (t : Mtype) (pair : Bool) (m : Mask) (x y : Value ρ) : Prop :=
  if t.scalar = true then AgreeOn m x.low y.low ∧ (pair = true → AgreeOn m x.high y.high)
  else m &&& bitsInType t ≠ 0 → x = y

theorem Agree.of_eq {t : Mtype} {pair : Bool} {m : Mask} {x y : Value ρ} (h : x = y) :
    Agree t pair m x y := by
  subst h
  unfold Agree
  split_ifs
  · exact ⟨AgreeOn.refl _ _, fun _ => AgreeOn.refl _ _⟩
  · exact fun _ => rfl

theorem Agree.zero (t : Mtype) (pair : Bool) (x y : Value ρ) : Agree t pair 0 x y := by
  unfold Agree
  split_ifs
  · constructor
    · intro i hi
      simp at hi
    · intro _ i hi
      simp at hi
  · intro hne
    simp at hne

theorem Agree.trans {t : Mtype} {pair : Bool} {m : Mask} {x y z : Value ρ}
    (h₁ : Agree t pair m x y) (h₂ : Agree t pair m y z) : Agree t pair m x z := by
  unfold Agree at *
  split_ifs with hs
  · rw [if_pos hs] at h₁ h₂
    exact ⟨h₁.1.trans h₂.1, fun hp => (h₁.2 hp).trans (h₂.2 hp)⟩
  · rw [if_neg hs] at h₁ h₂
    exact fun hm => (h₁ hm).trans (h₂ hm)

theorem Agree.mono {t : Mtype} {pair : Bool} {m m' : Mask} {x y : Value ρ}
    (h : Agree t pair m x y) (hsub : Covers m m') : Agree t pair m' x y := by
  unfold Agree at *
  split_ifs with hs
  · rw [if_pos hs] at h
    exact ⟨h.1.mono hsub, fun hp => (h.2 hp).mono hsub⟩
  · rw [if_neg hs] at h
    intro hne
    apply h
    obtain ⟨i, hi⟩ := ne_zero_iff_bit.mp hne
    rw [BitVec.getLsbD_and, Bool.and_eq_true] at hi
    exact ne_zero_iff_bit.mpr ⟨i, by rw [BitVec.getLsbD_and, hsub i hi.1, hi.2]; rfl⟩

theorem Agree.or {t : Mtype} {pair : Bool} {m m' : Mask} {x y : Value ρ}
    (h : Agree t pair m x y) (h' : Agree t pair m' x y) : Agree t pair (m ||| m') x y := by
  unfold Agree at *
  split_ifs with hs
  · rw [if_pos hs] at h h'
    exact ⟨h.1.or h'.1, fun hp => (h.2 hp).or (h'.2 hp)⟩
  · rw [if_neg hs] at h h'
    intro hne
    obtain ⟨i, hi⟩ := ne_zero_iff_bit.mp hne
    rw [BitVec.getLsbD_and, BitVec.getLsbD_or, Bool.and_eq_true, Bool.or_eq_true] at hi
    rcases hi with ⟨hi | hi, ht⟩
    · exact h (ne_zero_iff_bit.mpr ⟨i, by rw [BitVec.getLsbD_and, hi, ht]; rfl⟩)
    · exact h' (ne_zero_iff_bit.mpr ⟨i, by rw [BitVec.getLsbD_and, hi, ht]; rfl⟩)

/-! ## Evaluation -/

/-- What an operator sees of an operand of which it reads the bits of `m`. -/
def view (o : Operand) (m : Mask) (x : Value ρ) : Value ρ :=
  if o.dtyp.scalar = true then .word (x.low &&& m) (if o.pair = true then x.high &&& m else 0) else x

/-- Operand `i` as an operator that reads the bits of `m` sees it. -/
def operandValue (opnds : List Operand) (m : Mask) (x : Nat → Value ρ) (i : Nat) : Value ρ :=
  opnds[i]?.elim (.word 0 0) fun o => view o m (x i)

theorem low_operandValue {opnds : List Operand} {i : Nat} {o : Operand} (ho : opnds[i]? = some o)
    (hs : o.dtyp.scalar = true) (x : Nat → Value ρ) :
    (operandValue opnds (BitVec.allOnes 64) x i).low = (x i).low := by
  rw [operandValue, ho, Option.elim_some, view, if_pos hs, Value.low_word, BitVec.and_allOnes]

/-- The low `k` bits extended by a sign or by zeros. -/
def extend (signed : Bool) (k : Nat) (x : BitVec 64) : BitVec 64 :=
  if signed = true then signExtendFrom k x else x &&& bitmaskOfSize k

namespace OpNode

variable (target : Target) (n : OpNode) (opnds : List Operand)

/-- The operators that read every operand at once, whatever bits of the result are live. -/
def visitsAll : Bool :=
  match n.opr with
  | .cvt => n.effDsctyp target ≠ .b && !(n.dtyp.isIntegral && (n.effDsctyp target).isIntegral)
  | .cvtl | .neg | .extractBits | .paren | .bnot | .minpart | .maxpart | .add | .sub | .mpy | .bxor
  | .bior | .bnor | .band | .rrotate | .lshr | .ashr | .shl | .composeBits | .select => false
  | _ => true

/-- The bits an operator that reads every operand at once reads of each. -/
def readMask : Mask :=
  match n.opr with
  | .call | .icall | .intrinsicCall | .intrinsicOp | .forwardBarrier | .backwardBarrier | .alloca
  | .dealloca | .asmStmt | .asmInput | .pureCallOp => BitVec.allOnes 64
  | _ => bitsInType (n.effDsctyp target)

/-- The value a result of the node has in its registers. -/
def normalize (v : Value ρ) : Value ρ :=
  if n.opr.isBoolean = true then .word (v.low &&& 1) 0
  else if n.dtyp.scalar = true then
    .word (v.low &&& bitsInType n.dtyp)
      (if n.opr.makesPair = true then v.high &&& bitsInType n.dtyp else 0)
  else v

/-- The count of a shift or rotate: its own constant, or the value of the operand. -/
def shiftCount (x : Nat → Value ρ) : Nat := ((operandValue opnds (BitVec.allOnes 64) x 1).low).toNat

/-- The integer result of an operator that works bit by bit or carries upwards, before it is cut to
the size of its type. -/
def wordResult (x : Nat → Value ρ) : BitVec 64 :=
  let opnd := operandValue opnds (BitVec.allOnes 64) x
  let dsctyp := n.effDsctyp target
  match n.opr with
  | .cvtl => extend n.dtyp.signed n.offset (opnd 0).low
  | .cvt =>
    if dsctyp = .b then (opnd 0).low &&& 1 else extend dsctyp.signed dsctyp.bitSize (opnd 0).low
  | .neg => -(opnd 0).low
  | .extractBits => extend n.dtyp.signed n.opBitSize ((opnd 0).low >>> n.opBitOffset)
  | .paren | .minpart => (opnd 0).low
  | .maxpart => (opnd 0).high
  | .bnot => ~~~(opnd 0).low
  | .add => (opnd 0).low + (opnd 1).low
  | .sub => (opnd 0).low - (opnd 1).low
  | .mpy => (opnd 0).low * (opnd 1).low
  | .bxor => (opnd 0).low ^^^ (opnd 1).low
  | .bior => (opnd 0).low ||| (opnd 1).low
  | .bnor => ~~~((opnd 0).low ||| (opnd 1).low)
  | .band => (opnd 0).low &&& (opnd 1).low
  | .shl => (opnd 0).low <<< shiftCount opnds x
  | .lshr => ((opnd 0).low &&& bitsInType dsctyp) >>> shiftCount opnds x
  | .ashr => (signExtendFrom dsctyp.bitSize (opnd 0).low).sshiftRight (shiftCount opnds x)
  | .rrotate => rotateRightBy dsctyp.bitSize (shiftCount opnds x) (opnd 0).low
  | .composeBits =>
    ((opnd 0).low &&& ~~~(bitmaskOfSize n.opBitSize <<< n.opBitOffset)) |||
      (((opnd 1).low &&& bitmaskOfSize n.opBitSize) <<< n.opBitOffset)
  | .select => if (opnd 0).low &&& bitsInType dsctyp ≠ 0 then (opnd 1).low else (opnd 2).low
  | _ => 0

/-- The value of the node for the values `x` of its operands; `meaning` is what the operators compute
that read their operands as a whole. -/
def eval (meaning : OpNode → (Nat → Value ρ) → Value ρ) (x : Nat → Value ρ) : Value ρ :=
  if n.visitsAll target = true then
    n.normalize (meaning n (operandValue opnds (n.readMask target) x))
  else if n.dtyp.scalar = true then .word (n.wordResult target opnds x &&& bitsInType n.dtyp) 0
  else
    let opnd := operandValue opnds (BitVec.allOnes 64) x
    match n.opr with
    | .select => if (opnd 0).low &&& bitsInType (n.effDsctyp target) ≠ 0 then opnd 1 else opnd 2
    | _ => meaning n opnd

/-! ## Typing -/

/-- The number of operands of an operator that has a fixed one. -/
def arityOf : Operator → Option Nat
  | .cvtl | .cvt | .neg | .extractBits | .paren | .bnot | .minpart | .maxpart | .abs | .lnot | .rnd
  | .trunc | .ceil | .floor | .sqrt | .rsqrt | .recip | .realpart | .imagpart | .highpart | .lowpart
  | .tas | .replicate | .reduceAdd | .reduceMpy | .reduceMax | .reduceMin | .shuffle
  | .atomicRsqrt => some 1
  | .add | .sub | .mpy | .bxor | .xmpy | .highmpy | .div | .mod | .rem | .divrem | .max | .min
  | .minmax | .eq | .ne | .ge | .gt | .le | .lt | .land | .lior | .complex | .bior | .bnor | .band
  | .rrotate | .lshr | .ashr | .shl | .composeBits => some 2
  | .select => some 3
  | _ => none

/-- The type at which an operator that does not read its operands as a whole takes operand `i`. -/
def operandType (i : Nat) : Mtype :=
  match n.opr with
  | .select => if i = 0 then .u8 else n.dtyp
  | .cvt => n.effDsctyp target
  | _ => n.dtyp

/-- The fields of a node as the opcode table and the well-formedness of a bit field have them: a
bit field lies within a word, conversions between integers have 32 or 64 bits on both sides, and the
other operators that are transparent to bits have operands of the type of their result. -/
def FieldsTyped : Prop :=
  match n.opr with
  | .cvtl => n.dtyp.scalar = true ∧ 1 ≤ n.offset ∧ n.offset ≤ 64
  | .extractBits | .composeBits =>
    n.dtyp.scalar = true ∧ 1 ≤ n.opBitSize ∧ n.opBitOffset + n.opBitSize ≤ 64
  | .cvt =>
    if n.effDsctyp target = .b then n.dtyp.scalar = true
    else n.dtyp.isIntegral = true → (n.effDsctyp target).isIntegral = true →
      n.dtyp.scalar = (n.effDsctyp target).scalar ∧ ((n.effDsctyp target).scalar = true →
        (n.effDsctyp target).bitSize = 32 ∨ (n.effDsctyp target).bitSize = 64)
  | .neg | .paren | .bnot | .minpart | .maxpart | .add | .sub | .mpy | .bxor | .bior | .bnor | .band =>
    n.effDsctyp target = n.dtyp
  | _ => True

/-- A well-typed node with its operands. -/
structure Typed : Prop where
  arity : ∀ k, arityOf n.opr = some k → opnds.length = k
  dsctyp : n.effDsctyp target ≠ .str
  boolean : n.opr.isBoolean = true → n.dtyp.scalar = true
  fields : n.FieldsTyped target
  sized : ∀ o ∈ opnds, o.dtyp ≠ .str
  consts : ∀ o ∈ opnds, o.constVal ≠ none → o.dtyp.scalar = true
  operands : n.visitsAll target = false → ∀ i o, opnds[i]? = some o →
    o.dtyp = n.operandType target i ∨ (o.dtyp.scalar = true ∧ (n.operandType target i).scalar = true)

end OpNode

end Path64.Bdce

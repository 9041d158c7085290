import Path64.Simp.Node
import Mathlib.Data.BitVec

/-!
# Combining bit tests

`Combine_bits_any_nzero_test` and `Combine_bits_all_zero_test` of `opt_fold.cxx`, which make one test of two tests of
bits of the same variable.

* `Load`, `Coderep`, `eval` : the loads, the expressions and their values;
* `combineBitsAnyNzeroTest`, `combineBitsAllZeroTest` : the functions, two cases of `combineBits`;
* `Tests` : the tests that they find; `eval_test` : what such a test is about;
* `Preserved` : the values whose bits beyond the width of the type do not matter;
* `combined_iff` : the tests that keep their truth value.
-/

namespace Path64.Opt
open Simp

/-! ## Expressions -/

/-- `Dsctyp()` of a load: an integral type, or `MTYPE_BS` for a bit field. -/
inductive Dsctyp
  | integral (ty : MType)
  | bs
  deriving DecidableEq, Repr

/-- `MTYPE_bit_size`, of the table `Machine_Types`. -/
def Dsctyp.bitSize : Dsctyp → Nat
  | integral ty => ty.bits
  | bs => 1

/-- A load: the object or the bit field, its number of bits, and the type that these are extended to. -/
structure Load where
  object : Nat
  dtyp : RType
  dsctyp : Dsctyp
  width : Nat
  signed : Bool
  deriving DecidableEq, Repr

/-- The low bits of a word. -/
def low (bits : Nat) (x : BitVec 64) : BitVec 64 := (x.setWidth bits).setWidth 64

/-- The value that is loaded, within the bits of its type. -/
def Load.value (load : Load) (x : BitVec 64) : BitVec 64 :=
  low load.dtyp.1.bits (if load.signed then (x.setWidth load.width).signExtend 64 else low load.width x)

/-- The operators that the functions look for. -/
inductive Opr
  | cior
  | lior
  | cand
  | land
  | ne
  | eq
  | band
  deriving DecidableEq, Repr

/-- `CODEREP`. An operator comes with the bits of the type of its operands. -/
inductive Coderep
  | const (constVal : BitVec 64)
  | var (indirect : Bool) (load : Load)
  | op (opr : Opr) (bits : Nat) (opnd0 opnd1 : Coderep)
  | other (number : Nat)
  deriving DecidableEq, Repr

/-- The value of a truth value. -/
def ofTruth (p : Bool) : BitVec 64 := if p then 1 else 0

/-- The value of an expression. -/
def Coderep.eval (env : Nat → BitVec 64) : Coderep → BitVec 64
  | const v => v
  | var _ load => load.value (env load.object)
  | op .cior _ a b | op .lior _ a b => ofTruth (a.eval env != 0 || b.eval env != 0)
  | op .cand _ a b | op .land _ a b => ofTruth (a.eval env != 0 && b.eval env != 0)
  | op .ne bits a b => ofTruth (low bits (a.eval env) != low bits (b.eval env))
  | op .eq bits a b => ofTruth (low bits (a.eval env) == low bits (b.eval env))
  | op .band bits a b => low bits (a.eval env &&& b.eval env)
  | other number => env number

/-! ## The functions -/

/-- `Kind() == CK_CONST && Const_val() == 0`. -/
def Coderep.isZero : Coderep → Bool
  | const v => v == 0
  | _ => false

/-- The side of a test against 0; with `bare`, also an expression that is no such test. -/
def stripTest (test : Opr) (bare : Bool) (l : Coderep) : Option Coderep :=
  match l with
  | .op opr _ a b =>
    if opr = test then if b.isZero then some a else if a.isZero then some b else none
    else if bare then some l else none
  | _ => if bare then some l else none

/-- The variable and the mask. -/
def splitMask (l : Coderep) : Option (Coderep × BitVec 64) :=
  match l with
  | .op .band _ a (.const v) => some (a, v)
  | .op .band _ (.const v) b => some (b, v)
  | .op .band _ _ _ => none
  | _ => some (l, -1)

/-- `maxbitmask`. -/
def maxbitmask (nbits : Nat) : BitVec 64 := if 64 ≤ nbits then BitVec.allOnes 64 else (1#64 <<< nbits) - 1

/-- The new test, of the variable with the new mask. -/
def newTest (test : Opr) (indirect : Bool) (load : Load) (lbitmask rbitmask : BitVec 64) : Coderep :=
  let maxbitmask := maxbitmask load.dsctyp.bitSize
  let newbitmask := (lbitmask ||| rbitmask) &&& maxbitmask
  let bits := load.dtyp.1.bits
  let newcr := if newbitmask = maxbitmask then Coderep.var indirect load
    else .op .band bits (.var indirect load) (.const newbitmask)
  .op test bits newcr (.const 0)

/-- One test of two that are joined by an operator of `joins`; `none` is `NOHASH`. -/
def combineBits (joins : List Opr) (test : Opr) (bare : Bool) (cr : Coderep) : Option Coderep :=
  match cr with
  | .op opr _ l r =>
    if opr ∈ joins then do
      let l ← stripTest test bare l
      let r ← stripTest test bare r
      let (lvar, lbitmask) ← splitMask l
      let (rvar, rbitmask) ← splitMask r
      if lvar ≠ rvar then none
      else match lvar with
        | .var indirect load => some (newTest test indirect load lbitmask rbitmask)
        | _ => none
    else none
  | _ => none

/-- `Combine_bits_any_nzero_test`: `x & c1 || x & c2` becomes `(x & (c1 | c2)) != 0`. -/
def combineBitsAnyNzeroTest (cr : Coderep) : Option Coderep := combineBits [.cior, .lior] .ne true cr

/-- `Combine_bits_all_zero_test`: `(x & c1) == 0 && (x & c2) == 0` becomes `(x & (c1 | c2)) == 0`. -/
def combineBitsAllZeroTest (cr : Coderep) : Option Coderep := combineBits [.cand, .land] .eq false cr

/-! ## The tests that are found -/

/-- The variable with the mask `c`, or the variable alone for the mask of all bits. -/
inductive Masked (x : Coderep) (bits : Nat) : BitVec 64 → Coderep → Prop
  | right (c : BitVec 64) : Masked x bits c (.op .band bits x (.const c))
  | left (c : BitVec 64) : Masked x bits c (.op .band bits (.const c) x)
  | bare : Masked x bits (-1) x

/-- A test of the variable with the mask `c` against 0. -/
inductive Tests (test : Opr) (bare : Bool) (x : Coderep) (bits : Nat) (c : BitVec 64) : Coderep → Prop
  | right {m : Coderep} (h : Masked x bits c m) : Tests test bare x bits c (.op test bits m (.const 0))
  | left {m : Coderep} (h : Masked x bits c m) : Tests test bare x bits c (.op test bits (.const 0) m)
  | bare {m : Coderep} (h : Masked x bits c m) (hbare : bare = true) : Tests test bare x bits c m

/-- A load of 1 to 64 bits within its types. -/
structure Load.Valid (load : Load) : Prop where
  pos : 0 < load.width
  inDtyp : load.width ≤ load.dtyp.1.bits
  inDsctyp : ∀ ty, load.dsctyp = .integral ty → load.width ≤ ty.bits

/-- The two masks leave out no bit that the test depends on: a bit of the value within the width of the type, or
none beyond. A bit field before its lowering has a type of one bit. -/
def Preserved (load : Load) (c v : BitVec 64) : Prop :=
  match load.dsctyp with
  | .integral ty => v &&& c &&& maxbitmask ty.bits ≠ 0 ∨ v &&& c &&& ~~~maxbitmask ty.bits = 0
  | .bs => if c.getLsbD 0 then v = 0 ∨ v &&& c ≠ 0 else v &&& c = 0

/-! ## The values of the tests -/

section
variable {env : Nat → BitVec 64} {load : Load} {indirect bare : Bool} {bits : Nat} {c c1 c2 v : BitVec 64}
  {m l r : Coderep} {test : Opr}

theorem getLsbD_low (bits : Nat) (x : BitVec 64) (i : Nat) :
    (low bits x).getLsbD i = (decide (i < bits) && x.getLsbD i) := by
  rw [low, BitVec.getLsbD_setWidth, BitVec.getLsbD_setWidth]
  by_cases h : i < 64
  · rw [decide_eq_true h, Bool.true_and]
  · rw [BitVec.getLsbD_of_ge x i (by omega), Bool.and_false, Bool.and_false]

theorem low_and (hv : low bits v = v) (c : BitVec 64) : low bits (v &&& c) = v &&& c := by
  apply BitVec.eq_of_getLsbD_eq
  intro i _
  have hi : (low bits v).getLsbD i = v.getLsbD i := by rw [hv]
  rw [getLsbD_low] at hi
  rw [getLsbD_low, BitVec.getLsbD_and, ← Bool.and_assoc, hi]

theorem low_value (load : Load) (x : BitVec 64) : low load.dtyp.1.bits (load.value x) = load.value x := by
  apply BitVec.eq_of_getLsbD_eq
  intro i _
  rw [Load.value, getLsbD_low, getLsbD_low, ← Bool.and_assoc, Bool.and_self]

theorem low_zero (bits : Nat) : low bits 0 = 0 := by
  apply BitVec.eq_of_getLsbD_eq
  intro i _
  have hbit : (0 : BitVec 64).getLsbD i = false := BitVec.getLsbD_zero
  rw [getLsbD_low, hbit, Bool.and_false]

theorem ofTruth_ne_zero (p : Bool) : ofTruth p ≠ 0 ↔ p = true := by cases p <;> decide

theorem eval_masked (h : Masked (.var indirect load) load.dtyp.1.bits c m) :
    m.eval env = load.value (env load.object) &&& c := by
  cases h with
  | right => exact low_and (low_value load _) c
  | left => exact (congrArg (low _) (BitVec.and_comm ..)).trans (low_and (low_value load _) c)
  | bare => exact (BitVec.and_allOnes).symm

theorem eval_ne (h : Tests .ne bare (.var indirect load) load.dtyp.1.bits c l) :
    l.eval env ≠ 0 ↔ load.value (env load.object) &&& c ≠ 0 := by
  have hlow := low_and (low_value load (env load.object)) c
  cases h with
  | right hm =>
    rw [Coderep.eval, ofTruth_ne_zero, eval_masked hm, hlow, bne_iff_ne]
    exact Iff.of_eq (congrArg (_ ≠ ·) (low_zero _))
  | left hm =>
    rw [Coderep.eval, ofTruth_ne_zero, eval_masked hm, hlow, bne_iff_ne, ne_comm]
    exact Iff.of_eq (congrArg (_ ≠ ·) (low_zero _))
  | bare hm => rw [eval_masked hm]

theorem eval_eq (h : Tests .eq false (.var indirect load) load.dtyp.1.bits c l) :
    l.eval env ≠ 0 ↔ load.value (env load.object) &&& c = 0 := by
  have hlow := low_and (low_value load (env load.object)) c
  cases h with
  | right hm =>
    rw [Coderep.eval, ofTruth_ne_zero, eval_masked hm, hlow, beq_iff_eq]
    exact Iff.of_eq (congrArg (_ = ·) (low_zero _))
  | left hm =>
    rw [Coderep.eval, ofTruth_ne_zero, eval_masked hm, hlow, beq_iff_eq, eq_comm]
    exact Iff.of_eq (congrArg (_ = ·) (low_zero _))
  | bare hm hbare => exact absurd hbare Bool.false_ne_true

/-- The value that the new test compares with 0. -/
def combined (load : Load) (c v : BitVec 64) : BitVec 64 :=
  if c &&& maxbitmask load.dsctyp.bitSize = maxbitmask load.dsctyp.bitSize then v
  else v &&& (c &&& maxbitmask load.dsctyp.bitSize)

theorem low_combined (load : Load) (c x : BitVec 64) :
    low load.dtyp.1.bits (combined load c (load.value x)) = combined load c (load.value x) := by
  unfold combined
  split_ifs
  · exact low_value load x
  · exact low_and (low_value load x) _

theorem eval_newcr (indirect : Bool) (load : Load) (c : BitVec 64) :
    (if c &&& maxbitmask load.dsctyp.bitSize = maxbitmask load.dsctyp.bitSize then Coderep.var indirect load
      else .op .band load.dtyp.1.bits (.var indirect load) (.const (c &&& maxbitmask load.dsctyp.bitSize))).eval env =
      combined load c (load.value (env load.object)) := by
  unfold combined
  split_ifs
  · rfl
  · exact low_and (low_value load _) _

theorem eval_newTest_ne : (newTest .ne indirect load c1 c2).eval env ≠ 0 ↔
    combined load (c1 ||| c2) (load.value (env load.object)) ≠ 0 := by
  rw [newTest, Coderep.eval, ofTruth_ne_zero, eval_newcr, low_combined, bne_iff_ne]
  exact Iff.of_eq (congrArg (_ ≠ ·) (low_zero _))

theorem eval_newTest_eq : (newTest .eq indirect load c1 c2).eval env ≠ 0 ↔
    combined load (c1 ||| c2) (load.value (env load.object)) = 0 := by
  rw [newTest, Coderep.eval, ofTruth_ne_zero, eval_newcr, low_combined, beq_iff_eq]
  exact Iff.of_eq (congrArg (_ = ·) (low_zero _))

/-! ## The tests are found -/

theorem splitMask_masked (h : Masked (.var indirect load) bits c m) :
    splitMask m = some (.var indirect load, c) := by
  cases h <;> rfl

theorem stripTest_tests (htest : test ≠ .band) (h : Tests test bare (.var indirect load) bits c l) :
    ∃ m, Masked (.var indirect load) bits c m ∧ stripTest test bare l = some m := by
  cases h with
  | right hm => exact ⟨_, hm, by rw [stripTest, if_pos rfl]; rfl⟩
  | @left m hm =>
    refine ⟨m, hm, ?_⟩
    have hnot : m.isZero = false := by cases hm <;> rfl
    rw [stripTest, if_pos rfl, hnot]
    rfl
  | bare hm hbare =>
    refine ⟨_, hm, ?_⟩
    cases hm <;> simp [stripTest, hbare, htest.symm]

theorem combineBits_tests {joins : List Opr} {opr : Opr} (hopr : opr ∈ joins) (htest : test ≠ .band)
    (hl : Tests test bare (.var indirect load) bits c1 l) (hr : Tests test bare (.var indirect load) bits c2 r) :
    combineBits joins test bare (.op opr bits l r) = some (newTest test indirect load c1 c2) := by
  obtain ⟨lm, hlm, hl'⟩ := stripTest_tests htest hl
  obtain ⟨rm, hrm, hr'⟩ := stripTest_tests htest hr
  rw [combineBits, if_pos hopr, hl', hr']
  simp only [Option.bind_eq_bind, Option.bind_some, splitMask_masked hlm, splitMask_masked hrm, ne_eq,
    not_true_eq_false, if_false]

/-! ## The tests that keep their truth value -/

theorem getLsbD_maxbitmask (nbits i : Nat) :
    (maxbitmask nbits).getLsbD i = (decide (i < nbits) && decide (i < 64)) := by
  unfold maxbitmask
  split_ifs with h
  · rw [BitVec.getLsbD_allOnes]
    by_cases hi : i < 64
    · rw [decide_eq_true hi, decide_eq_true (show i < nbits by omega), Bool.and_self]
    · rw [decide_eq_false hi, Bool.and_false]
  · have hlt : 2 ^ nbits < 2 ^ 64 := Nat.pow_lt_pow_right (by decide) (by omega)
    have hone : (1#64 <<< nbits).toNat = 2 ^ nbits := by
      have h1 : (1#64).toNat = 1 := rfl
      rw [BitVec.toNat_shiftLeft, h1, Nat.shiftLeft_eq, one_mul, Nat.mod_eq_of_lt hlt]
    have hpos : 1 ≤ 2 ^ nbits := Nat.one_le_two_pow
    have hmask : (1#64 <<< nbits - 1).toNat = 2 ^ nbits - 1 := by
      rw [BitVec.toNat_sub_of_le (by rw [BitVec.le_def, hone]; exact hpos), hone]
      rfl
    rw [BitVec.getLsbD, hmask, Nat.testBit_two_pow_sub_one]
    by_cases hi : i < nbits
    · rw [decide_eq_true hi, decide_eq_true (show i < 64 by omega), Bool.and_self]
    · rw [decide_eq_false hi, Bool.false_and]

theorem getLsbD_value (hv : load.Valid) (x : BitVec 64) {i : Nat} (hi : i < 64) : (load.value x).getLsbD i =
    (decide (i < load.dtyp.1.bits) &&
      if i < load.width then x.getLsbD i else load.signed && x.getLsbD (load.width - 1)) := by
  have hpos := hv.pos
  rw [Load.value, getLsbD_low]
  congr 1
  cases load.signed
  · rw [if_neg Bool.false_ne_true, getLsbD_low, Bool.false_and]
    split_ifs with h
    · rw [decide_eq_true h, Bool.true_and]
    · rw [decide_eq_false h, Bool.false_and]
  · rw [if_pos rfl, BitVec.getLsbD_signExtend, decide_eq_true hi, Bool.true_and, Bool.true_and]
    split_ifs with h
    · rw [BitVec.getLsbD_setWidth, decide_eq_true h, Bool.true_and]
    · rw [BitVec.msb_eq_getLsbD_last, BitVec.getLsbD_setWidth, decide_eq_true (by omega), Bool.true_and]

theorem value_eq_zero (hv : load.Valid) {nbits : Nat} (hwidth : load.width ≤ nbits) {x : BitVec 64}
    (h : load.value x &&& maxbitmask nbits = 0) : load.value x = 0 := by
  have hpos := hv.pos
  have hin := hv.inDtyp
  have hbits : load.dtyp.1.bits ≤ 64 := by cases load.dtyp.1 <;> decide
  have hbit : ∀ i < load.width, x.getLsbD i = false := fun i hi => by
    have hi' := congrArg (fun y => y.getLsbD i) h
    have hzero : (0 : BitVec 64).getLsbD i = false := BitVec.getLsbD_zero
    simp only [BitVec.getLsbD_and, hzero, getLsbD_value hv x (show i < 64 by omega), getLsbD_maxbitmask] at hi'
    rwa [decide_eq_true (show i < load.dtyp.1.bits by omega), decide_eq_true (show i < nbits by omega),
      decide_eq_true (show i < 64 by omega), if_pos hi, Bool.true_and, Bool.and_self, Bool.and_true] at hi'
  apply BitVec.eq_of_getLsbD_eq
  intro i hi
  have hzero : (0 : BitVec 64).getLsbD i = false := BitVec.getLsbD_zero
  rw [getLsbD_value hv x hi, hzero, hbit (load.width - 1) (by omega), Bool.and_false]
  split_ifs with h
  · rw [hbit i h, Bool.and_false]
  · exact Bool.and_false _

theorem and_or_eq_zero (v c1 c2 : BitVec 64) : v &&& (c1 ||| c2) = 0 ↔ v &&& c1 = 0 ∧ v &&& c2 = 0 := by
  rw [BitVec.and_or_distrib_left]
  exact BitVec.or_eq_zero_iff

theorem eq_zero_iff_split (v m : BitVec 64) : v = 0 ↔ v &&& m = 0 ∧ v &&& ~~~m = 0 := by
  rw [← and_or_eq_zero, BitVec.or_not_self]
  exact Iff.of_eq (congrArg (· = 0) BitVec.and_allOnes.symm)

/-- The new test is right just where no bit is left out that matters. -/
theorem combined_ne_zero_iff (hv : load.Valid) (c x : BitVec 64) :
    (combined load c (load.value x) ≠ 0 ↔ load.value x &&& c ≠ 0) ↔ Preserved load c (load.value x) := by
  cases hty : load.dsctyp with
  | integral ty =>
    have hnew : combined load c (load.value x) = 0 ↔ load.value x &&& c &&& maxbitmask ty.bits = 0 := by
      unfold combined
      rw [hty]
      split_ifs with hall
      · have hall : c &&& maxbitmask ty.bits = maxbitmask ty.bits := hall
        rw [BitVec.and_assoc, hall]
        exact ⟨fun h => by rw [h]; exact BitVec.zero_and, value_eq_zero hv (hv.inDsctyp ty hty)⟩
      · rw [BitVec.and_assoc]
        exact Iff.rfl
    have hold := eq_zero_iff_split (load.value x &&& c) (maxbitmask ty.bits)
    unfold Preserved
    rw [hty, not_iff_not, hnew, hold]
    tauto
  | bs =>
    have hmask : maxbitmask 1 = 1 := by decide
    have hodd : c &&& 1 = if c.getLsbD 0 then 1 else 0 := by
      apply BitVec.eq_of_getLsbD_eq
      intro i _
      have hone : (1 : BitVec 64).getLsbD i = decide (i = 0) := by
        rw [show (1 : BitVec 64) = 1#64 from rfl, BitVec.getLsbD_one, decide_eq_true (by decide), Bool.true_and]
      rw [BitVec.getLsbD_and, hone]
      by_cases hi : i = 0
      · subst hi
        cases c.getLsbD 0 <;> decide
      · rw [decide_eq_false hi, Bool.and_false]
        cases c.getLsbD 0
        · exact BitVec.getLsbD_zero.symm
        · exact (hone.trans (decide_eq_false hi)).symm
    unfold Preserved combined
    rw [hty]
    simp only [Dsctyp.bitSize, hmask, hodd]
    cases c.getLsbD 0
    · simp
    · have hzero : load.value x = 0 → load.value x &&& c = 0 := fun h => by rw [h]; exact BitVec.zero_and
      simp only [if_true]
      tauto

/-- **The combined tests that keep their truth value.** -/
theorem combined_iff (env : Nat → BitVec 64) (load : Load) (indirect : Bool) (c1 c2 : BitVec 64) (l r l' r' : Coderep)
    (hv : load.Valid) (hl : Tests .ne true (.var indirect load) load.dtyp.1.bits c1 l)
    (hr : Tests .ne true (.var indirect load) load.dtyp.1.bits c2 r)
    (hl' : Tests .eq false (.var indirect load) load.dtyp.1.bits c1 l')
    (hr' : Tests .eq false (.var indirect load) load.dtyp.1.bits c2 r') :
    (∀ opr ∈ [Opr.cior, .lior], ∃ cr, combineBitsAnyNzeroTest (.op opr load.dtyp.1.bits l r) = some cr ∧
      ((cr.eval env ≠ 0 ↔ (Coderep.op opr load.dtyp.1.bits l r).eval env ≠ 0) ↔
        Preserved load (c1 ||| c2) (load.value (env load.object)))) ∧
    ∀ opr ∈ [Opr.cand, .land], ∃ cr, combineBitsAllZeroTest (.op opr load.dtyp.1.bits l' r') = some cr ∧
      ((cr.eval env ≠ 0 ↔ (Coderep.op opr load.dtyp.1.bits l' r').eval env ≠ 0) ↔
        Preserved load (c1 ||| c2) (load.value (env load.object))) := by
  constructor
  · intro opr hopr
    refine ⟨_, combineBits_tests hopr Opr.noConfusion hl hr, ?_⟩
    have horig : (Coderep.op opr load.dtyp.1.bits l r).eval env ≠ 0 ↔
        load.value (env load.object) &&& (c1 ||| c2) ≠ 0 := by
      have hor : (Coderep.op opr load.dtyp.1.bits l r).eval env = ofTruth (l.eval env != 0 || r.eval env != 0) := by
        rcases List.mem_pair.mp hopr with rfl | rfl <;> rfl
      rw [hor, ofTruth_ne_zero, Bool.or_eq_true, bne_iff_ne, bne_iff_ne, eval_ne hl, eval_ne hr, ← not_and_or,
        ← and_or_eq_zero]
    rw [eval_newTest_ne, horig]
    exact combined_ne_zero_iff hv _ _
  · intro opr hopr
    refine ⟨_, combineBits_tests hopr Opr.noConfusion hl' hr', ?_⟩
    have horig : (Coderep.op opr load.dtyp.1.bits l' r').eval env ≠ 0 ↔
        load.value (env load.object) &&& (c1 ||| c2) = 0 := by
      have hand : (Coderep.op opr load.dtyp.1.bits l' r').eval env = ofTruth (l'.eval env != 0 && r'.eval env != 0) := by
        rcases List.mem_pair.mp hopr with rfl | rfl <;> rfl
      rw [hand, ofTruth_ne_zero, Bool.and_eq_true, bne_iff_ne, bne_iff_ne, eval_eq hl', eval_eq hr',
        and_or_eq_zero]
    rw [eval_newTest_eq, horig]
    exact not_iff_not.symm.trans (combined_ne_zero_iff hv _ _)

/-- A byte that is extended with its sign. -/
def signedByte : Load := ⟨0, .i4, .integral .i1, 8, true⟩

/-- `(x & c) != 0` or `(x & c) == 0` of the byte. -/
def byteTest (test : Opr) (c : BitVec 64) : Coderep :=
  .op test 32 (.op .band 32 (.var false signedByte) (.const c)) (.const 0)

/-- The byte -128, tested with bits of the byte. -/
theorem combined_iff_signedByte : ∃ cr,
    combineBitsAnyNzeroTest (.op .cior 32 (byteTest .ne 0x80) (byteTest .ne 1)) = some cr ∧
      ((cr.eval (fun _ => 0x80) ≠ 0 ↔
          (Coderep.op .cior 32 (byteTest .ne 0x80) (byteTest .ne 1)).eval (fun _ => 0x80) ≠ 0) ↔
        Preserved signedByte (0x80 ||| 1) (signedByte.value 0x80)) :=
  (combined_iff (fun _ => 0x80) signedByte false 0x80 1 _ _ (byteTest .eq 0x80) (byteTest .eq 1)
    ⟨by decide, by decide, fun ty h => by cases h; decide⟩ (.right (.right _)) (.right (.right _)) (.right (.right _))
    (.right (.right _))).1 .cior (by decide)

/-- `(x & 0x100) != 0 || (x & 0x200) != 0` of the byte -128 is true, and the new test is false. -/
theorem combined_loses_extension :
    combineBitsAnyNzeroTest (.op .cior 32 (byteTest .ne 0x100) (byteTest .ne 0x200)) = some (byteTest .ne 0) ∧
      (Coderep.op .cior 32 (byteTest .ne 0x100) (byteTest .ne 0x200)).eval (fun _ => 0x80) ≠ 0 ∧
      (byteTest .ne 0).eval (fun _ => 0x80) = 0 := by
  decide

end

end Path64.Opt

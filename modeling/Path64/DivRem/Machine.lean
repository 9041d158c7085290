import Mathlib

/-!
# The machine operations of the division expansions

The operations the expander emits (`exp_divrem.cxx`), over numbered temporaries that hold 64-bit registers. An
operation on 32 bits reads the low halves of its sources and clears the high half of its target. Shift counts are
taken modulo the width.

* `Op`, `exec`, `run` : operations, one step, a sequence; `none` when a conditional operation reads flags that the
  operations before it do not define;
* `Runs` : what a sequence leaves, with a rule for each kind of operation;
* `highWord_ofInt`, `sshiftRight_ofInt` : the words of a product and of a shift as integers.
-/

namespace Path64.DivRem

/-- A temporary name, `TN`. -/
abbrev Tn := Nat

inductive Width where
  | w32 | w64
  deriving DecidableEq, Repr

@[reducible] def Width.bits : Width → Nat
  | .w32 => 32
  | .w64 => 64

/-- The operations (`TOP_*`) by kind; a `Width` stands for the 32 and 64 in their names. -/
inductive Op where
  | mov (w : Width) (result src : Tn)
  | ldc (w : Width) (result : Tn) (value : Int)
  | movslq (result src : Tn)
  | neg (w : Width) (result src : Tn)
  | add (w : Width) (result src1 src2 : Tn)
  | sub (w : Width) (result src1 src2 : Tn)
  | and (w : Width) (result src1 src2 : Tn)
  | imul (w : Width) (result src1 src2 : Tn)
  | imulx (w : Width) (low high src1 src2 : Tn)
  | mulx (w : Width) (low high src1 src2 : Tn)
  | shri (w : Width) (result src : Tn) (count : Nat)
  | sari (w : Width) (result src : Tn) (count : Nat)
  | cmp (w : Width) (src1 src2 : Tn)
  | test (w : Width) (src1 src2 : Tn)
  | sbb (w : Width) (result src1 src2 : Tn)
  | cmovs (result src : Tn)
  | cmovge (result src : Tn)
  | cmovl (result src : Tn)
  deriving DecidableEq, Repr

/-- Carry, sign and overflow. -/
structure Flags where
  cf : Bool
  sf : Bool
  overflow : Bool

structure Machine where
  regs : Tn → BitVec 64
  flags : Option Flags

namespace Machine

def read (m : Machine) (w : Width) (r : Tn) : BitVec w.bits := (m.regs r).setWidth w.bits

/-- Writes a result of width `w`, zero-extended. -/
def write (m : Machine) {w : Width} (r : Tn) (v : BitVec w.bits) : Machine :=
  { m with regs := Function.update m.regs r (v.setWidth 64) }

/-- An arithmetic operation whose flags nobody reads. -/
def arith (m : Machine) {w : Width} (r : Tn) (v : BitVec w.bits) : Machine :=
  { m.write r v with flags := none }

/-- A conditional move. -/
def cmov (m : Machine) (taken : Flags → Bool) (result src : Tn) : Option Machine :=
  m.flags.map fun f => if taken f then m.write (w := .w64) result (m.regs src) else m

end Machine

/-- One operation. -/
def exec (m : Machine) : Op → Option Machine
  | .mov w result src => some (m.write result (m.read w src))
  | .ldc w result value => some (m.write result (BitVec.ofInt w.bits value))
  | .movslq result src => some (m.write (w := .w64) result ((m.read .w32 src).signExtend 64))
  | .neg w result src =>
    let v := -m.read w src
    some { m.write result v with
      flags := some ⟨m.read w src != 0, v.msb, m.read w src == BitVec.intMin w.bits⟩ }
  | .add w result src1 src2 => some (m.arith result (m.read w src1 + m.read w src2))
  | .sub w result src1 src2 => some (m.arith result (m.read w src1 - m.read w src2))
  | .and w result src1 src2 => some (m.arith result (m.read w src1 &&& m.read w src2))
  | .imul w result src1 src2 => some (m.arith result (m.read w src1 * m.read w src2))
  | .imulx w low high src1 src2 =>
    let p : BitVec (w.bits + w.bits) := (m.read w src1).signExtend _ * (m.read w src2).signExtend _
    some ((m.arith low (p.setWidth w.bits)).arith high ((p >>> w.bits).setWidth w.bits))
  | .mulx w low high src1 src2 =>
    let p : BitVec (w.bits + w.bits) := (m.read w src1).setWidth _ * (m.read w src2).setWidth _
    some ((m.arith low (p.setWidth w.bits)).arith high ((p >>> w.bits).setWidth w.bits))
  | .shri w result src count => some (m.arith result (m.read w src >>> (count % w.bits)))
  | .sari w result src count => some (m.arith result ((m.read w src).sshiftRight (count % w.bits)))
  | .cmp w src1 src2 =>
    let v := m.read w src1 - m.read w src2
    some { m with
      flags := some ⟨(m.read w src1).ult (m.read w src2), v.msb,
        decide ((m.read w src1).toInt - (m.read w src2).toInt ≠ v.toInt)⟩ }
  | .test w src1 src2 => some { m with flags := some ⟨false, (m.read w src1 &&& m.read w src2).msb, false⟩ }
  | .sbb w result src1 src2 =>
    m.flags.map fun f => m.arith result (m.read w src1 - m.read w src2 - (BitVec.ofBool f.cf).setWidth w.bits)
  | .cmovs result src => m.cmov Flags.sf result src
  | .cmovge result src => m.cmov (fun f => f.sf == f.overflow) result src
  | .cmovl result src => m.cmov (fun f => f.sf != f.overflow) result src

/-- A sequence of operations. -/
def run (ops : List Op) (m : Machine) : Option Machine := ops.foldlM exec m

@[simp] theorem run_nil (m : Machine) : run [] m = some m := rfl

theorem run_cons (op : Op) (ops : List Op) (m : Machine) : run (op :: ops) m = exec m op >>= run ops := rfl

/-! ## Reasoning about a sequence -/

/-- `m'` is `m` with the register `r` set to a word, whatever the flags. -/
structure Sets (m m' : Machine) (w : Width) (r : Nat) (v : BitVec w.bits) : Prop where
  self : m'.regs r = v.setWidth 64
  other : ∀ w' (r' : Nat), r' ≠ r → m'.read w' r' = m.read w' r'

theorem Sets.read {m m' : Machine} {w : Width} {r : Tn} {v : BitVec w.bits} (h : Sets m m' w r v) :
    m'.read w r = v := by
  unfold Machine.read
  rw [h.self]
  cases w with
  | w32 => exact BitVec.setWidth_setWidth_of_le v (by decide)
  | w64 => exact (BitVec.setWidth_eq _).trans (BitVec.setWidth_eq v)

/-- The low half of a 64-bit word. -/
theorem Sets.low {m m' : Machine} {r : Tn} {v : BitVec 64} (h : Sets m m' .w64 r v) :
    m'.read .w32 r = v.setWidth 32 := by
  unfold Machine.read
  rw [h.self]
  exact congrArg _ (BitVec.setWidth_eq v)

theorem Machine.sets_write (m : Machine) {w : Width} (r : Tn) (v : BitVec w.bits) (f : Option Flags) :
    Sets m { m.write r v with flags := f } w r v where
  self := Function.update_self ..
  other w' r' hne := by
    show (Function.update m.regs r (v.setWidth 64) r').setWidth w'.bits = (m.regs r').setWidth w'.bits
    rw [Function.update_of_ne hne]

/-- The sequence runs to its end and leaves a machine in `Q`. -/
def Runs (ops : List Op) (m : Machine) (Q : Machine → Prop) : Prop := ∃ m', run ops m = some m' ∧ Q m'

section Rules

variable {op : Op} {ops : List Op} {m m₁ : Machine} {Q : Machine → Prop} {w : Width} {r low : Tn}
  {v v' : BitVec w.bits}

theorem Runs.nil (h : Q m) : Runs [] m Q := ⟨m, rfl, h⟩

theorem Runs.cons (hex : exec m op = some m₁) (h : Runs ops m₁ Q) : Runs (op :: ops) m Q := by
  obtain ⟨m', hrun, hQ⟩ := h
  exact ⟨m', by rw [run_cons, hex]; exact hrun, hQ⟩

theorem Runs.mono {Q' : Machine → Prop} (h : Runs ops m Q) (hQ : ∀ m', Q m' → Q' m') : Runs ops m Q' := by
  obtain ⟨m', hrun, hm'⟩ := h
  exact ⟨m', hrun, hQ m' hm'⟩

theorem Runs.append {ops' : List Op} (h : Runs ops m fun m₁ => Runs ops' m₁ Q) : Runs (ops ++ ops') m Q := by
  obtain ⟨m₁, hrun, m', hrun', hQ⟩ := h
  refine ⟨m', ?_, hQ⟩
  unfold run at *
  rw [List.foldlM_append, hrun]
  exact hrun'

/-- An operation that sets one register and the flags. -/
theorem Runs.flags {f : Option Flags} (hex : exec m op = some { m.write r v with flags := f })
    (h : ∀ m₁, Sets m m₁ w r v → m₁.flags = f → Runs ops m₁ Q) : Runs (op :: ops) m Q :=
  Runs.cons hex (h _ (m.sets_write r v f) rfl)

theorem Runs.write (hex : exec m op = some (m.write r v)) (h : ∀ m₁, Sets m m₁ w r v → Runs ops m₁ Q) :
    Runs (op :: ops) m Q :=
  Runs.flags hex fun m₁ h₁ _ => h m₁ h₁

theorem Runs.writeFlags (hex : exec m op = some (m.write r v))
    (h : ∀ m₁, Sets m m₁ w r v → m₁.flags = m.flags → Runs ops m₁ Q) : Runs (op :: ops) m Q :=
  Runs.flags hex h

theorem Runs.compare {f : Flags} (hex : exec m op = some { m with flags := some f })
    (h : ∀ m₁, (∀ w r, m₁.read w r = m.read w r) → m₁.flags = some f → Runs ops m₁ Q) : Runs (op :: ops) m Q :=
  Runs.cons hex (h _ (fun _ _ => rfl) rfl)

theorem Runs.arith (hex : exec m op = some (m.arith r v)) (h : ∀ m₁, Sets m m₁ w r v → Runs ops m₁ Q) :
    Runs (op :: ops) m Q :=
  Runs.flags hex fun m₁ h₁ _ => h m₁ h₁

theorem Runs.sbb {f : Flags} {a b : Nat} (hf : m.flags = some f)
    (h : ∀ m₁, Sets m m₁ w r (m.read w a - m.read w b - (BitVec.ofBool f.cf).setWidth w.bits) → Runs ops m₁ Q) :
    Runs (.sbb w r a b :: ops) m Q := by
  refine Runs.arith ?_ h
  show m.flags.map _ = _
  rw [hf]
  rfl

/-- A conditional move; the flags stay. -/
theorem Runs.cmov {f : Flags} {taken : Flags → Bool} {src : Nat} (hf : m.flags = some f)
    (hex : exec m op = m.cmov taken r src)
    (h : ∀ m₁, Sets m m₁ .w64 r (if taken f then m.read .w64 src else m.read .w64 r) → Runs ops m₁ Q) :
    Runs (op :: ops) m Q := by
  unfold Machine.cmov at hex
  rw [hf, Option.map_some] at hex
  refine Runs.cons hex (h _ ?_)
  split_ifs
  · have hread : m.read .w64 src = m.regs src := BitVec.setWidth_eq _
    rw [hread]
    exact m.sets_write (w := .w64) r (m.regs src) m.flags
  · refine ⟨?_, fun _ _ _ => rfl⟩
    show m.regs r = ((m.regs r).setWidth 64).setWidth 64
    rw [BitVec.setWidth_eq, BitVec.setWidth_eq]

theorem Runs.shri {src count : Nat} (hc : count < w.bits)
    (h : ∀ m₁, Sets m m₁ w r (m.read w src >>> count) → Runs ops m₁ Q) : Runs (.shri w r src count :: ops) m Q := by
  rw [← Nat.mod_eq_of_lt hc] at h
  exact Runs.arith rfl h

theorem Runs.sari {src count : Nat} (hc : count < w.bits)
    (h : ∀ m₁, Sets m m₁ w r ((m.read w src).sshiftRight count) → Runs ops m₁ Q) :
    Runs (.sari w r src count :: ops) m Q := by
  rw [← Nat.mod_eq_of_lt hc] at h
  exact Runs.arith rfl h

theorem Runs.arith₂ (hex : exec m op = some ((m.arith low v').arith r v))
    (h : ∀ m₁ m₂, Sets m m₁ w low v' → Sets m₁ m₂ w r v → Runs ops m₂ Q) : Runs (op :: ops) m Q :=
  Runs.cons hex (h _ _ (m.sets_write low v' none) ((m.arith low v').sets_write r v none))

end Rules

/-! ## Words as integers -/

/-- The high half of a 64-bit word, as the low half of a logical shift. -/
theorem highWord_ofInt (v : Int) : (BitVec.ofInt 64 v >>> 32).setWidth 32 = BitVec.ofInt 32 (v / 2 ^ 32) := by
  apply BitVec.eq_of_toNat_eq
  simp only [BitVec.toNat_setWidth, BitVec.toNat_ushiftRight, BitVec.toNat_ofInt, Nat.shiftRight_eq_div_pow]
  push_cast
  omega

theorem signExtend_mul (a : BitVec 32) (c : Int) :
    a.signExtend 64 * BitVec.ofInt 64 c = BitVec.ofInt 64 (a.toInt * c) := by
  rw [BitVec.ofInt_mul]
  rfl

theorem signed_high (a : BitVec 32) (c : Int) :
    ((a.signExtend 64 * BitVec.ofInt 64 c) >>> 32).setWidth 32 = BitVec.ofInt 32 (a.toInt * c / 2 ^ 32) := by
  rw [signExtend_mul, highWord_ofInt]

theorem sshiftRight_ofInt {a : Int} (hlow : -2 ^ 31 ≤ a) (hhigh : a < 2 ^ 31) (s : Nat) :
    (BitVec.ofInt 32 a).sshiftRight s = BitVec.ofInt 32 (a / 2 ^ s) := by
  unfold BitVec.sshiftRight
  rw [BitVec.toInt_ofInt, Int.bmod_eq_of_le (by norm_num; omega) (by norm_num; omega), Int.shiftRight_eq_div_pow]
  norm_cast

theorem unsigned_high (a d : BitVec 64) :
    (((a.setWidth (64 + 64) * d.setWidth (64 + 64)) >>> 64).setWidth 64).toNat = a.toNat * d.toNat / 2 ^ 64 := by
  have ha := a.isLt
  have hd := d.isLt
  have hprod : a.toNat * d.toNat < 2 ^ (64 + 64) := by
    rw [pow_add]
    exact Nat.mul_lt_mul'' ha hd
  have hhigh : a.toNat * d.toNat / 2 ^ 64 < 2 ^ 64 := by
    rw [Nat.div_lt_iff_lt_mul (by norm_num)]
    exact hprod
  rw [BitVec.toNat_setWidth, BitVec.toNat_ushiftRight, Nat.shiftRight_eq_div_pow, BitVec.toNat_mul,
    BitVec.toNat_setWidth, BitVec.toNat_setWidth, Nat.mod_eq_of_lt (show a.toNat < 2 ^ (64 + 64) by omega),
    Nat.mod_eq_of_lt (show d.toNat < 2 ^ (64 + 64) by omega), Nat.mod_eq_of_lt hprod, Nat.mod_eq_of_lt hhigh]

theorem sshiftRight_sign (a : BitVec 32) : a.sshiftRight 31 = BitVec.ofInt 32 (if a.toInt < 0 then -1 else 0) := by
  have hlow := a.le_toInt
  have hhigh := a.toInt_lt
  unfold BitVec.sshiftRight
  rw [Int.shiftRight_eq_div_pow]
  congr 1
  split_ifs <;> omega

theorem ushiftRight_sign (a : BitVec 32) : a >>> 31 = -a.sshiftRight 31 := by
  rw [sshiftRight_sign, ← BitVec.ofInt_neg]
  apply BitVec.eq_of_toNat_eq
  rw [BitVec.toNat_ushiftRight, Nat.shiftRight_eq_div_pow, BitVec.toInt_eq_toNat_cond]
  have := a.isLt
  split_ifs with h1 h2 h2 <;> simp only [BitVec.toNat_ofInt] <;> omega

end Path64.DivRem

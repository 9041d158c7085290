import Path64.Bdce.Sound

/-!
# Bitwise dead code elimination: shifts and rotates

* `ShiftNode` : the shift and rotate nodes of 32 and 64 bits of the opcode table;
* `getLsbD_ashr` : which operand bit a result bit of an arithmetic shift copies;
* `ShiftCovered` : the live masks whose operand bits the transfer passes on. A constant arithmetic
  shift marks bit 28 or bit 60 in the place of the sign bit 31 or 63, and a rotate passes the mask of
  its result without rotating it;
* `shift_agree_iff` : exactly under `ShiftCovered` do operands that agree on the passed mask give
  results that agree on every live bit.
-/

namespace Path64.Bdce

open Path64.Bits

variable {ρ : Type}

/-! ## The nodes -/

/-- A shift of 32 or 64 bits, or a rotate of the low bits of a word of 32 or 64 bits. -/
def ShiftNode (n : OpNode) : Prop :=
  n.dtyp.scalar = true ∧ (n.dtyp.bitSize = 32 ∨ n.dtyp.bitSize = 64) ∧
    match n.opr with
    | .shl | .lshr | .ashr => n.dsctyp = .v
    | .rrotate => n.dsctyp ∈ [Mtype.u1, .u2, .u4, .u8] ∧ n.dsctyp.bitSize ≤ n.dtyp.bitSize
    | _ => False

instance (n : OpNode) : Decidable (ShiftNode n) := by
  unfold ShiftNode
  cases n.opr <;> infer_instance

/-- The type of the shifted operand. -/
def shiftType (n : OpNode) : Mtype := if n.dsctyp = .v then n.dtyp else n.dsctyp

theorem ShiftNode.effDsctyp {target : Target} {n : OpNode} (h : ShiftNode n) :
    n.effDsctyp target = shiftType n := by
  obtain ⟨-, -, h⟩ := h
  unfold OpNode.effDsctyp shiftType
  have hdiv : n.opr.isDivide = false := by
    revert h
    cases n.opr <;> simp [Operator.isDivide]
  simp [hdiv]

theorem ShiftNode.not_visitsAll {target : Target} {n : OpNode} (h : ShiftNode n) :
    n.visitsAll target = false := by
  obtain ⟨-, -, h⟩ := h
  unfold OpNode.visitsAll
  revert h
  cases n.opr <;> simp

theorem ShiftNode.scalar_shiftType {n : OpNode} (h : ShiftNode n) : (shiftType n).scalar = true := by
  obtain ⟨hd, -, h⟩ := h
  unfold shiftType
  split_ifs with hv
  · exact hd
  · cases ho : n.opr <;> simp only [ho] at h <;> first | exact absurd h hv | skip
    obtain ⟨hmem, -⟩ := h
    simp only [List.mem_cons, List.not_mem_nil, or_false] at hmem
    rcases hmem with hm | hm | hm | hm <;> rw [hm] <;> rfl

theorem ShiftNode.shiftType_of_shift {n : OpNode} (h : ShiftNode n)
    (ho : n.opr = .shl ∨ n.opr = .lshr ∨ n.opr = .ashr) : shiftType n = n.dtyp := by
  obtain ⟨-, -, h⟩ := h
  have hv : n.dsctyp = .v := by rcases ho with ho | ho | ho <;> rw [ho] at h <;> exact h
  rw [shiftType, if_pos hv]

theorem ShiftNode.shiftType_of_rrotate {n : OpNode} (h : ShiftNode n) (ho : n.opr = .rrotate) :
    shiftType n = n.dsctyp ∧ n.dsctyp.bitSize ≤ n.dtyp.bitSize := by
  obtain ⟨-, -, h⟩ := h
  rw [ho] at h
  obtain ⟨hmem, hle⟩ := h
  refine ⟨?_, hle⟩
  rw [shiftType, if_neg]
  rintro hv
  rw [hv] at hmem
  simp at hmem

/-! ## The bits of an arithmetic shift -/

/-- A result bit of an arithmetic shift is the operand bit `s` places up, or the sign. -/
theorem getLsbD_ashr {w s i : Nat} (a : BitVec 64) (hw : 0 < w ∧ w ≤ 64) (hi : i < w) :
    ((signExtendFrom w a).sshiftRight s).getLsbD i =
      if i + s < w then a.getLsbD (i + s) else a.getLsbD (w - 1) := by
  rw [BitVec.getLsbD_sshiftRight]
  have hmsb : (signExtendFrom w a).msb = a.getLsbD (w - 1) := by
    rw [BitVec.msb_eq_getLsbD_last, getLsbD_signExtendFrom a (by omega)]
    split_ifs
    · rw [show w = 64 by omega]
    · rfl
  by_cases h64 : s + i < 64
  · rw [if_pos h64, getLsbD_signExtendFrom a h64, Nat.add_comm s i]
    simp [show ¬ 64 ≤ i by omega]
  · rw [if_neg h64, hmsb, if_neg (by omega : ¬ i + s < w)]
    simp [show ¬ 64 ≤ i by omega]

theorem shiftAmt_eq {n : OpNode} {c : BitVec 64} (hn : n.dtyp.bitSize = 32 ∨ n.dtyp.bitSize = 64)
    (hc : c.toNat < n.dtyp.bitSize) : n.shiftAmt c = (c.toNat : Int) := by
  unfold OpNode.shiftAmt
  rcases hn with h | h
  · rw [if_pos (by omega), BitVec.toInt_eq_toNat_of_lt]
    · rw [BitVec.toNat_and, show (31 : BitVec 64).toNat = 2 ^ 5 - 1 by rfl, Nat.and_comm,
        Nat.and_two_pow_sub_one_eq_mod, Nat.mod_eq_of_lt (by omega)]
    · have : (31 &&& c).toNat ≤ 31 := by
        rw [BitVec.toNat_and]
        exact Nat.and_le_left
      omega
  · rw [if_neg (by omega), BitVec.toInt_eq_toNat_of_lt (by omega)]

/-! ## One node -/

/-- The mask the transfer passes to the shifted operand; `c` is the count when it is a constant. -/
def shiftPassed (target : Target) (n : OpNode) (c : Option (BitVec 64)) (livebits live : Mask) : Mask :=
  let bits := bitsInType (shiftType n)
  match n.opr with
  | .shl => c.elim bits fun c => target.shiftRight (bits &&& live) c.toInt &&& bits
  | .lshr => c.elim bits fun c => target.shiftLeft (bits &&& live) (n.shiftAmt c) &&& bits
  | .ashr => c.elim bits fun c => (target.shiftLeft (bits &&& live) (n.shiftAmt c) &&& bits) |||
      target.signLivebits n.dtyp (n.shiftAmt c) live
  | _ => livebits &&& bitsInType n.dtyp

/-- The shifted word, before it is cut to the size of the result. -/
def shiftWord (n : OpNode) (s : Nat) (a : BitVec 64) : BitVec 64 :=
  match n.opr with
  | .shl => a <<< s
  | .lshr => (a &&& bitsInType (shiftType n)) >>> s
  | .ashr => (signExtendFrom (shiftType n).bitSize a).sshiftRight s
  | _ => rotateRightBy (shiftType n).bitSize s a

theorem mem_passes_shift {target : Target} {n : OpNode} (hn : ShiftNode n) (o₀ o₁ : Operand)
    (visitAll : Bool) (livebits live m : Mask) :
    (0, m) ∈ n.passes target [o₀, o₁] visitAll livebits live ↔
      m = shiftPassed target n o₁.constVal livebits live := by
  have heff := @ShiftNode.effDsctyp target n hn
  obtain ⟨-, -, h⟩ := hn
  unfold OpNode.passes shiftPassed
  rw [heff]
  revert h
  cases n.opr <;> simp [OpNode.constOpnd]

theorem low_eval_shift {target : Target} {n : OpNode} (hn : ShiftNode n) {o₀ o₁ : Operand}
    (h₀ : o₀.dtyp.scalar = true) (h₁ : o₁.dtyp.scalar = true)
    (meaning : OpNode → (Nat → Value ρ) → Value ρ) (x : Nat → Value ρ) :
    (n.eval target [o₀, o₁] meaning x).low =
      shiftWord n (x 1).low.toNat (x 0).low &&& bitsInType n.dtyp := by
  have heff := @ShiftNode.effDsctyp target n hn
  have hlow₀ := low_operandValue (rfl : [o₀, o₁][0]? = some o₀) h₀ x
  have hlow₁ := low_operandValue (rfl : [o₀, o₁][1]? = some o₁) h₁ x
  rw [OpNode.eval, hn.not_visitsAll, if_neg Bool.false_ne_true, if_pos hn.1]
  obtain ⟨-, -, h⟩ := hn
  rw [Value.low_word]
  congr 1
  unfold OpNode.wordResult shiftWord OpNode.shiftCount
  dsimp only
  rw [heff, hlow₀, hlow₁]
  revert h
  cases n.opr <;> simp

/-! ## Which live masks are covered -/

/-- The live masks whose operand bits are all passed: any mask for a shift by an unknown count and for
logical shifts; for an arithmetic shift by a constant, a mask without a copy of the sign or with the
result bit the sign itself moves to; for a rotate, a mask the rotation maps into the live bits. -/
def ShiftCovered (n : OpNode) (c : Option (BitVec 64)) (s : Nat) (livebits live : Mask) : Prop :=
  let w := (shiftType n).bitSize
  match n.opr with
  | .ashr => c = none ∨ (∀ j < w, live.getLsbD j = true → j + s < w) ∨ live.getLsbD (w - 1 - s) = true
  | .rrotate => ∀ j < w, live.getLsbD j = true → livebits.getLsbD ((j + s) % w) = true
  | _ => True

/-- Operands that agree on the passed mask give results that agree on every live bit. -/
def ShiftSound (target : Target) (n : OpNode) (c : Option (BitVec 64)) (s : Nat)
    (livebits live : Mask) : Prop :=
  ∀ a b : BitVec 64, AgreeOn (shiftPassed target n c livebits live) a b →
    AgreeOn live (shiftWord n s a &&& bitsInType n.dtyp) (shiftWord n s b &&& bitsInType n.dtyp)

theorem agreeOn_and_type {live a b : Mask} {t : Mtype} (ht : t.scalar = true)
    (h : ∀ i < t.bitSize, live.getLsbD i = true → a.getLsbD i = b.getLsbD i) :
    AgreeOn live (a &&& bitsInType t) (b &&& bitsInType t) := by
  intro i hi
  rw [BitVec.getLsbD_and, BitVec.getLsbD_and, bitsInType_of_scalar ht, getLsbD_bitmaskOfSize]
  by_cases hlt : i < t.bitSize
  · rw [h i hlt hi]
  · simp [hlt]

theorem bitsInType_bit {t : Mtype} (ht : t.scalar = true) {i : Nat} (hi : i < t.bitSize) :
    (bitsInType t).getLsbD i = true := by
  have := Mtype.bitSize_le_of_scalar ht
  rw [bitsInType_of_scalar ht, getLsbD_bitmaskOfSize]
  simp [hi, show i < 64 by omega]

section

variable {target : Target} {n : OpNode} {c : Option (BitVec 64)} {s : BitVec 64} {livebits live : Mask}

theorem shifted_bit (hn : n.dtyp.bitSize = 32 ∨ n.dtyp.bitSize = 64) (hd : n.dtyp.scalar = true)
    (hs : s.toNat < n.dtyp.bitSize) {i : Nat} (hi : live.getLsbD i = true)
    (his : i + s.toNat < n.dtyp.bitSize) :
    (target.shiftLeft (bitsInType n.dtyp &&& live) (n.shiftAmt s) &&& bitsInType n.dtyp).getLsbD
      (i + s.toNat) = true := by
  refine and_bit ?_ (bitsInType_bit hd his)
  rw [shiftAmt_eq hn hs, target.shiftLeft_of_lt _ (by omega), BitVec.getLsbD_shiftLeft,
    Nat.add_sub_cancel, and_bit (bitsInType_bit hd (by omega)) hi]
  simp [show i + s.toNat < 64 by omega]

theorem shl_sound (hn : ShiftNode n) (ho : n.opr = .shl) (hs : s.toNat < (shiftType n).bitSize)
    (hc : c = none ∨ c = some s) : ShiftSound target n c s.toNat livebits live := by
  have hty := hn.shiftType_of_shift (Or.inl ho)
  obtain ⟨hd, hsize, -⟩ := hn
  intro a b hab
  apply agreeOn_and_type hd
  intro i hi hlive
  simp only [shiftPassed, shiftWord, ho, hty] at hab hs ⊢
  rw [BitVec.getLsbD_shiftLeft, BitVec.getLsbD_shiftLeft]
  by_cases hlt : i < s.toNat
  · simp [hlt]
  · have hbit : a.getLsbD (i - s.toNat) = b.getLsbD (i - s.toNat) := by
      apply hab
      rcases hc with rfl | rfl
      · exact bitsInType_bit hd (by omega)
      · rw [Option.elim_some, BitVec.toInt_eq_toNat_of_lt (by omega),
          target.shiftRight_of_lt _ (by omega)]
        refine and_bit ?_ (bitsInType_bit hd (by omega))
        rw [BitVec.getLsbD_ushiftRight, show s.toNat + (i - s.toNat) = i by omega]
        exact and_bit (bitsInType_bit hd hi) hlive
    rw [hbit]

theorem lshr_sound (hn : ShiftNode n) (ho : n.opr = .lshr) (hs : s.toNat < (shiftType n).bitSize)
    (hc : c = none ∨ c = some s) : ShiftSound target n c s.toNat livebits live := by
  have hty := hn.shiftType_of_shift (Or.inr (Or.inl ho))
  obtain ⟨hd, hsize, -⟩ := hn
  intro a b hab
  apply agreeOn_and_type hd
  intro i hi hlive
  simp only [shiftPassed, shiftWord, ho, hty] at hab hs ⊢
  rw [BitVec.getLsbD_ushiftRight, BitVec.getLsbD_ushiftRight, Nat.add_comm s.toNat i,
    BitVec.getLsbD_and, BitVec.getLsbD_and]
  by_cases his : i + s.toNat < n.dtyp.bitSize
  · rw [hab (i + s.toNat)]
    rcases hc with rfl | rfl
    · exact bitsInType_bit hd his
    · exact shifted_bit hsize hd hs hlive his
  · rw [bitsInType_of_scalar hd, getLsbD_bitmaskOfSize]
    simp [his]

theorem ashr_sound (hn : ShiftNode n) (ho : n.opr = .ashr) (hs : s.toNat < (shiftType n).bitSize)
    (hc : c = none ∨ c = some s) (hcov : ShiftCovered n c s.toNat livebits live) :
    ShiftSound target n c s.toNat livebits live := by
  have hty := hn.shiftType_of_shift (Or.inr (Or.inr ho))
  obtain ⟨hd, hsize, -⟩ := hn
  have hpos := Mtype.bitSize_le_of_scalar hd
  intro a b hab
  apply agreeOn_and_type hd
  intro i hi hlive
  simp only [ShiftCovered, shiftPassed, shiftWord, ho, hty] at hcov hab hs ⊢
  rw [getLsbD_ashr a hpos hi, getLsbD_ashr b hpos hi]
  rcases hc with rfl | rfl
  · split_ifs with his
    · exact hab _ (bitsInType_bit hd his)
    · exact hab _ (bitsInType_bit hd (by omega))
  · split_ifs with his
    · exact hab _ (Covers.or_left _ _ _ (shifted_bit hsize hd hs hlive his))
    · -- bit `i` is a copy of the sign, which is passed when the result bit it moves to is live
      rcases hcov with hnone | hall | hsign
      · cases hnone
      · exact absurd (hall i hi hlive) his
      · have hmove : n.dtyp.bitSize - 1 - s.toNat + s.toNat = n.dtyp.bitSize - 1 := by omega
        refine hab _ (Covers.or_left _ _ _ ?_)
        rw [← hmove]
        exact shifted_bit hsize hd hs hsign (by omega)

theorem rrotate_sound (hn : ShiftNode n) (ho : n.opr = .rrotate) (hs : s.toNat < (shiftType n).bitSize)
    (hcov : ShiftCovered n c s.toNat livebits live) : ShiftSound target n c s.toNat livebits live := by
  have hpos := Mtype.bitSize_le_of_scalar hn.scalar_shiftType
  obtain ⟨hty, hle⟩ := hn.shiftType_of_rrotate ho
  intro a b hab
  apply agreeOn_and_type hn.1
  intro i hi hlive
  simp only [ShiftCovered, shiftPassed, shiftWord, ho] at hcov hab ⊢
  by_cases hir : i < (shiftType n).bitSize
  · have hk : (i + s.toNat) % (shiftType n).bitSize < (shiftType n).bitSize := Nat.mod_lt _ hpos.1
    rw [getLsbD_rotateRightBy a hpos.2 hs hir, getLsbD_rotateRightBy b hpos.2 hs hir]
    refine hab _ (and_bit (hcov i hir hlive) (bitsInType_bit hn.1 ?_))
    rw [hty] at hk ⊢
    omega
  · simp [rotateRightBy, hir]

/-- Two operands that differ in one bit, which is not passed, have results that agree. -/
theorem ShiftSound.bit {k i : Nat} (h : ShiftSound target n c s.toNat livebits live)
    (hk : (shiftPassed target n c livebits live).getLsbD k = false) (hi : live.getLsbD i = true) :
    (shiftWord n s.toNat 0 &&& bitsInType n.dtyp).getLsbD i =
      (shiftWord n s.toNat (1#64 <<< k) &&& bitsInType n.dtyp).getLsbD i := by
  refine h 0 (1#64 <<< k) ?_ i hi
  intro j hj
  have hne : (1#64 <<< k).getLsbD j = false := by
    by_contra hbit
    rw [Bool.not_eq_false] at hbit
    obtain rfl := eq_of_one_shiftLeft_bit hbit
    rw [hk] at hj
    cases hj
  rw [hne]
  simp

theorem ashr_covered (hn : ShiftNode n) (ho : n.opr = .ashr) (hs : s.toNat < (shiftType n).bitSize)
    (hc : c = none ∨ c = some s) (h : ShiftSound target n c s.toNat livebits live) :
    ShiftCovered n c s.toNat livebits live := by
  have hty := hn.shiftType_of_shift (Or.inr (Or.inr ho))
  obtain ⟨hd, hsize, -⟩ := hn
  have hpos := Mtype.bitSize_le_of_scalar hd
  simp only [ShiftCovered, ho, hty] at hs ⊢
  rcases hc with rfl | rfl
  · exact Or.inl rfl
  · right
    by_contra hnot
    rw [not_or, Bool.not_eq_true] at hnot
    obtain ⟨hall, hsign⟩ := hnot
    push Not at hall
    obtain ⟨j, hj, hlive, hjs⟩ := hall
    -- the sign bit is not passed: the transfer marks bit 28 or bit 60 instead
    have hpassed : (shiftPassed target n (some s) livebits live).getLsbD (n.dtyp.bitSize - 1)
        = false := by
      simp only [shiftPassed, ho, hty, Option.elim_some]
      rw [BitVec.getLsbD_or, BitVec.getLsbD_and, shiftAmt_eq hsize hs,
        target.shiftLeft_of_lt _ (by omega), BitVec.getLsbD_shiftLeft, BitVec.getLsbD_and, hsign]
      unfold Target.signLivebits
      rcases hsize with h32 | h64
      · rw [h32]
        split_ifs <;> simp
      · rw [h64]
        split_ifs <;> simp
    have hbit := h.bit hpassed hlive
    simp only [shiftWord, ho, hty] at hbit
    rw [BitVec.getLsbD_and, BitVec.getLsbD_and, bitsInType_bit hd hj, Bool.and_true, Bool.and_true,
      getLsbD_ashr _ hpos hj, getLsbD_ashr _ hpos hj, if_neg (by omega), if_neg (by omega),
      one_shiftLeft_bit (by omega)] at hbit
    simp at hbit

theorem rrotate_covered (hn : ShiftNode n) (ho : n.opr = .rrotate)
    (hs : s.toNat < (shiftType n).bitSize) (h : ShiftSound target n c s.toNat livebits live) :
    ShiftCovered n c s.toNat livebits live := by
  have hpos := Mtype.bitSize_le_of_scalar hn.scalar_shiftType
  obtain ⟨hty, hle⟩ := hn.shiftType_of_rrotate ho
  simp only [ShiftCovered, ho]
  intro j hj hlive
  by_contra hnot
  have hk : (j + s.toNat) % (shiftType n).bitSize < (shiftType n).bitSize := Nat.mod_lt _ hpos.1
  have hpassed : (shiftPassed target n c livebits live).getLsbD
      ((j + s.toNat) % (shiftType n).bitSize) = false := by
    rw [Bool.not_eq_true] at hnot
    simp only [shiftPassed, ho]
    rw [BitVec.getLsbD_and, hnot, Bool.false_and]
  have hbit := h.bit hpassed hlive
  have hjd : j < n.dtyp.bitSize := by
    rw [hty] at hj
    omega
  simp only [shiftWord, ho] at hbit
  rw [BitVec.getLsbD_and, BitVec.getLsbD_and, bitsInType_bit hn.1 hjd, Bool.and_true, Bool.and_true,
    getLsbD_rotateRightBy _ hpos.2 hs hj, getLsbD_rotateRightBy _ hpos.2 hs hj,
    one_shiftLeft_bit (by omega)] at hbit
  simp at hbit

theorem shiftSound_iff (hn : ShiftNode n) (hs : s.toNat < (shiftType n).bitSize)
    (hc : c = none ∨ c = some s) :
    ShiftSound target n c s.toNat livebits live ↔ ShiftCovered n c s.toNat livebits live := by
  have hcases : n.opr = .shl ∨ n.opr = .lshr ∨ n.opr = .ashr ∨ n.opr = .rrotate := by
    obtain ⟨-, -, h⟩ := hn
    revert h
    cases n.opr <;> simp
  rcases hcases with ho | ho | ho | ho
  · simp only [ShiftCovered, ho, iff_true]
    exact shl_sound hn ho hs hc
  · simp only [ShiftCovered, ho, iff_true]
    exact lshr_sound hn ho hs hc
  · exact ⟨ashr_covered hn ho hs hc, ashr_sound hn ho hs hc⟩
  · exact ⟨rrotate_covered hn ho hs, rrotate_sound hn ho hs⟩

end

/-! ## The nodes of a program -/

/-- Two operand values that agree on the mask the transfer passes to the shifted operand give results
that agree on every live bit, for every such pair of values, exactly when the mask is covered. -/
theorem shift_agree_iff {n : OpNode} (hn : ShiftNode n) {o₀ o₁ : Operand}
    (h₀ : o₀.dtyp.scalar = true) (h₁ : o₁.dtyp.scalar = true) {s : BitVec 64}
    (hs : s.toNat < (shiftType n).bitSize) (hc : o₁.constVal = none ∨ o₁.constVal = some s)
    (target : Target) (meaning : OpNode → (Nat → Value ρ) → Value ρ) (visitAll : Bool)
    (livebits live : Mask) :
    (∀ x y : Nat → Value ρ, (x 1).low = s → (y 1).low = s →
      (∀ m, (0, m) ∈ n.passes target [o₀, o₁] visitAll livebits live →
        AgreeOn m (x 0).low (y 0).low) →
      AgreeOn live (n.eval target [o₀, o₁] meaning x).low (n.eval target [o₀, o₁] meaning y).low) ↔
    ShiftCovered n o₁.constVal s.toNat livebits live := by
  rw [← @shiftSound_iff target _ _ _ _ _ hn hs hc]
  constructor
  · intro h a b hab
    have hxy := h (fun i => .word (if i = 0 then a else s) 0) (fun i => .word (if i = 0 then b else s) 0)
      rfl rfl (by
        intro m hm
        rw [mem_passes_shift hn] at hm
        rw [hm]
        exact hab)
    rw [low_eval_shift hn h₀ h₁, low_eval_shift hn h₀ h₁] at hxy
    exact hxy
  · intro h x y hx hy hm
    rw [low_eval_shift hn h₀ h₁, low_eval_shift hn h₀ h₁, hx, hy]
    exact h _ _ (hm _ ((mem_passes_shift hn o₀ o₁ visitAll livebits live _).mpr rfl))

/-- The arithmetic shift of a 32-bit integer by the constant 8. -/
def ashrNode : OpNode := ⟨.ashr, .i4, .v, 0, 0, 0⟩

/-- With only bit 0 live the shift by 8 is sound: no live bit is a copy of the sign. -/
theorem shift_agree_ashr_low :
    ShiftNode ashrNode ∧ ∀ x y : Nat → Value Unit, (x 1).low = 8#64 → (y 1).low = 8#64 →
      (∀ m, (0, m) ∈ ashrNode.passes plainTarget [⟨.i4, false, none⟩, ⟨.i4, false, some 8#64⟩] true 1 1 →
        AgreeOn m (x 0).low (y 0).low) →
      AgreeOn 1 (ashrNode.eval plainTarget [⟨.i4, false, none⟩, ⟨.i4, false, some 8#64⟩]
          (fun _ _ => .word 0 0) x).low
        (ashrNode.eval plainTarget [⟨.i4, false, none⟩, ⟨.i4, false, some 8#64⟩]
          (fun _ _ => .word 0 0) y).low := by
  have hn : ShiftNode ashrNode := by decide
  refine ⟨hn, (shift_agree_iff hn rfl rfl (by decide) (Or.inr rfl) plainTarget (fun _ _ => .word 0 0) true 1
    1).mpr (Or.inr (Or.inl ?_))⟩
  intro j _ hj
  have hzero : j = 0 := by
    by_contra hne
    rw [show (1 : Mask) = 1#64 from rfl, BitVec.getLsbD_one] at hj
    simp [hne] at hj
  subst hzero
  decide

/-- With only bit 24 live, the words 0 and 0x80000000 agree on what the shift by 8 passes, but their
results differ in the live bit, a copy of the sign. -/
theorem ashr_loses_sign :
    ¬ ∀ x y : Nat → Value Unit, (x 1).low = 8#64 → (y 1).low = 8#64 →
      (∀ m, (0, m) ∈ ashrNode.passes plainTarget [⟨.i4, false, none⟩, ⟨.i4, false, some 8#64⟩] true
          0x1000000 0x1000000 → AgreeOn m (x 0).low (y 0).low) →
      AgreeOn 0x1000000
        (ashrNode.eval plainTarget [⟨.i4, false, none⟩, ⟨.i4, false, some 8#64⟩]
          (fun _ _ => .word 0 0) x).low
        (ashrNode.eval plainTarget [⟨.i4, false, none⟩, ⟨.i4, false, some 8#64⟩]
          (fun _ _ => .word 0 0) y).low := by
  have hn : ShiftNode ashrNode := by decide
  intro h
  have hbit := h (fun i => .word (if i = 0 then 0 else 8#64) 0)
    (fun i => .word (if i = 0 then 0x80000000#64 else 8#64) 0) rfl rfl ?_ 24 (by decide)
  · rw [low_eval_shift hn rfl rfl, low_eval_shift hn rfl rfl] at hbit
    revert hbit
    decide
  · intro m hm
    rw [mem_passes_shift hn] at hm
    subst hm
    intro i hi
    have honly : ∀ i < 64, (shiftPassed plainTarget ashrNode (some 8#64) 0x1000000 0x1000000).getLsbD i
        = true → i = 28 := by decide
    obtain rfl := honly i (bit_lt hi) hi
    rfl

end Path64.Bdce

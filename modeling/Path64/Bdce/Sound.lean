import Path64.Bdce.Semantics

/-!
# Bitwise dead code elimination: the masks passed to the operands suffice

* one agreement lemma for each mask transfer: `extend_agree`, `cvt_agree`, `sum_agree`, `and_agree`,
  `or_agree`, `composeBits_agree`;
* `passes_agree` : operands that agree on what one call passes give results that agree on the live
  bits of the node;
* `visits_agree_of_marks` : the same for any sequence of calls on the node, through its early exits.
-/

namespace Path64.Bdce

open Path64.Bits

variable {ρ : Type}

/-! ## The mask transfers -/

theorem bit_lt {m : Mask} {i : Nat} (h : m.getLsbD i = true) : i < 64 := BitVec.lt_of_getLsbD h

theorem ushiftRight_ne_zero {m : Mask} {i k : Nat} (h : m.getLsbD i = true) (hk : k ≤ i) :
    m >>> k ≠ 0 := by
  refine ne_zero_iff_bit.mpr ⟨i - k, ?_⟩
  rw [BitVec.getLsbD_ushiftRight, show k + (i - k) = i by omega]
  exact h

theorem one_shiftLeft_bit {k : Nat} (h : k < 64) : (1#64 <<< k).getLsbD k = true := by
  rw [BitVec.getLsbD_shiftLeft]
  simp [h]

theorem eq_of_one_shiftLeft_bit {k i : Nat} (h : (1#64 <<< k).getLsbD i = true) : i = k := by
  rw [BitVec.getLsbD_shiftLeft, BitVec.getLsbD_one] at h
  simp only [Bool.and_eq_true, Bool.not_eq_true', decide_eq_true_eq, decide_eq_false_iff_not] at h
  omega

/-- The bits an extension keeps and, when a copy of it is live, the sign bit are live. -/
theorem extend_agree (target : Target) {signed : Bool} {k : Nat} (hk : 1 ≤ k ∧ k ≤ 64)
    {lb a a' : BitVec 64} (h : AgreeOn (target.extendedLive signed k lb) a a') :
    AgreeOn lb (extend signed k a) (extend signed k a') := by
  have hkeep : ∀ i, lb.getLsbD i = true → i < k → a.getLsbD i = a'.getLsbD i := by
    intro i hi hik
    apply h
    have hnew : (lb &&& bitmaskOfSize k).getLsbD i = true := by
      rw [BitVec.getLsbD_and, hi, getLsbD_bitmaskOfSize]
      simp [hik, bit_lt hi]
    unfold Target.extendedLive
    dsimp only
    split_ifs
    · exact Covers.or_left _ _ i hnew
    · exact hnew
  intro i hi
  have hi64 := bit_lt hi
  unfold extend
  by_cases hs : signed = true
  · rw [if_pos hs, if_pos hs, getLsbD_signExtendFrom _ hi64, getLsbD_signExtendFrom _ hi64]
    split_ifs with hik
    · exact hkeep i hi hik
    · -- a copy of the sign bit is live, so the transfer made the sign bit live
      apply h
      have hne : target.shiftRight lb k ≠ 0 := by
        rw [target.shiftRight_of_lt lb (by omega)]
        exact ushiftRight_ne_zero hi (by omega)
      unfold Target.extendedLive
      dsimp only
      rw [if_pos ⟨hs, hne⟩, show ((k : Int) - 1) = ((k - 1 : Nat) : Int) by omega,
        target.shiftLeft_of_lt 1#64 (by omega)]
      exact Covers.or_right _ _ _ (one_shiftLeft_bit (by omega))
  · rw [if_neg hs, if_neg hs, BitVec.getLsbD_and, BitVec.getLsbD_and, getLsbD_bitmaskOfSize]
    by_cases hik : i < k
    · rw [hkeep i hi hik]
    · simp [hik]

theorem fill_covers {t : Mtype} (ht : t.scalar = true) {lb : Mask} {j : Nat} (hj : lb.getLsbD j = true)
    (hjt : j < t.bitSize) {i : Nat} (hi : i ≤ j) :
    (bitsInType t &&& fillLowerBits lb).getLsbD i = true := by
  have hj64 := bit_lt hj
  rw [BitVec.getLsbD_and, (getLsbD_fillLowerBits lb i).mpr ⟨j, hi, hj⟩, bitsInType_of_scalar ht,
    getLsbD_bitmaskOfSize]
  simp [show i < 64 by omega, show i < t.bitSize by omega]

theorem wordLive_covers (t : Mtype) (lb : Mask) :
    Covers (Target.wordLive t lb) (lb &&& bitsInType t) := by
  unfold Target.wordLive
  dsimp only
  split_ifs
  · exact Covers.or_left _ _
  · exact Covers.refl _

theorem and_bit {a b : Mask} {i : Nat} (ha : a.getLsbD i = true) (hb : b.getLsbD i = true) :
    (a &&& b).getLsbD i = true := by
  rw [BitVec.getLsbD_and, ha, hb]
  rfl

/-- A conversion between integers of 32 or 64 bits. -/
theorem cvt_agree {dtyp dsctyp : Mtype} (hs : dsctyp.scalar = true)
    (hsize : dsctyp.bitSize = 32 ∨ dsctyp.bitSize = 64) {lb a a' : BitVec 64}
    (h : AgreeOn (Target.cvtLive dtyp dsctyp lb) a a') :
    AgreeOn (lb &&& bitsInType dtyp) (extend dsctyp.signed dsctyp.bitSize a)
      (extend dsctyp.signed dsctyp.bitSize a') := by
  have hkeep : ∀ i, (lb &&& bitsInType dtyp).getLsbD i = true → i < dsctyp.bitSize →
      a.getLsbD i = a'.getLsbD i := by
    intro i hi hik
    apply h
    have hbits : (bitsInType dsctyp).getLsbD i = true := by
      rw [bitsInType_of_scalar hs, getLsbD_bitmaskOfSize]
      simp [hik, bit_lt hi]
    have hnew := and_bit hi hbits
    unfold Target.cvtLive
    dsimp only
    split_ifs
    · exact Covers.or_left _ _ i hnew
    · exact hnew
  intro i hi
  have hi64 := bit_lt hi
  have hlb : lb.getLsbD i = true := covers_and_left _ _ i hi
  unfold extend
  by_cases hsg : dsctyp.signed = true
  · rw [if_pos hsg, if_pos hsg, getLsbD_signExtendFrom _ hi64, getLsbD_signExtendFrom _ hi64]
    split_ifs with hik
    · exact hkeep i hi hik
    · -- only a 32-bit source leaves room for copies of its sign, and that source is `I4`
      have h32 : dsctyp.bitSize = 32 := by omega
      have hi4 : dsctyp = .i4 := by
        cases dsctyp <;> simp_all [Mtype.scalar, Mtype.bitSize, Mtype.signed]
      apply h
      rw [h32]
      unfold Target.cvtLive
      dsimp only
      rw [if_pos ⟨Or.inl hi4, ushiftRight_ne_zero hlb (by omega)⟩]
      exact Covers.or_right _ _ _ (one_shiftLeft_bit (by omega))
  · rw [if_neg hsg, if_neg hsg, BitVec.getLsbD_and, BitVec.getLsbD_and, getLsbD_bitmaskOfSize]
    by_cases hik : i < dsctyp.bitSize
    · rw [hkeep i hi hik]
    · simp [hik]

/-- The inserted field of `COMPOSE_BITS` comes from the second operand, the rest from the first. -/
theorem composeBits_agree {off size : Nat} {lb a a' b b' : BitVec 64}
    (ha : AgreeOn (lb &&& ~~~(bitmaskOfSize size <<< off)) a a')
    (hb : AgreeOn ((lb >>> off) &&& bitmaskOfSize size) b b') :
    AgreeOn lb ((a &&& ~~~(bitmaskOfSize size <<< off)) ||| ((b &&& bitmaskOfSize size) <<< off))
      ((a' &&& ~~~(bitmaskOfSize size <<< off)) ||| ((b' &&& bitmaskOfSize size) <<< off)) := by
  intro i hi
  have hi64 := bit_lt hi
  rw [BitVec.getLsbD_or, BitVec.getLsbD_or]
  by_cases hfield : (bitmaskOfSize size <<< off).getLsbD i = true
  · have hoff : ¬ i < off := by
      intro hlt
      rw [BitVec.getLsbD_shiftLeft] at hfield
      simp [hlt] at hfield
    have hsize : (bitmaskOfSize size).getLsbD (i - off) = true := by
      rw [BitVec.getLsbD_shiftLeft] at hfield
      simpa [hoff, hi64] using hfield
    have hbit : b.getLsbD (i - off) = b'.getLsbD (i - off) := by
      apply hb
      refine and_bit ?_ hsize
      rw [BitVec.getLsbD_ushiftRight, show off + (i - off) = i by omega]
      exact hi
    rw [BitVec.getLsbD_and, BitVec.getLsbD_and, BitVec.getLsbD_not, hfield, BitVec.getLsbD_shiftLeft,
      BitVec.getLsbD_shiftLeft, BitVec.getLsbD_and, BitVec.getLsbD_and, hbit]
    simp
  · have hkeep : (~~~(bitmaskOfSize size <<< off)).getLsbD i = true := by
      rw [Bool.not_eq_true] at hfield
      rw [BitVec.getLsbD_not, hfield]
      simp [hi64]
    have hzero : ∀ c : BitVec 64, ((c &&& bitmaskOfSize size) <<< off).getLsbD i = false := by
      intro c
      rw [Bool.not_eq_true, BitVec.getLsbD_shiftLeft] at hfield
      rw [BitVec.getLsbD_shiftLeft, BitVec.getLsbD_and]
      by_cases hoff : i < off
      · simp [hoff]
      · have hsize : (bitmaskOfSize size).getLsbD (i - off) = false := by
          simpa [hoff, hi64] using hfield
        rw [hsize]
        simp
    rw [BitVec.getLsbD_and, BitVec.getLsbD_and, ha i (and_bit hi hkeep), hzero b, hzero b']

/-! ## Operands that agree on what is passed -/

/-- The operands agree on every mask passed to them. -/
def OperandsAgree (opnds : List Operand) (ps : List (Nat × Mask)) (x y : Nat → Value ρ) : Prop :=
  ∀ i m o, (i, m) ∈ ps → opnds[i]? = some o → Agree o.dtyp o.pair m (x i) (y i)

/-- The operand values are those of the constants where an operand is one. -/
def RespectsConsts (opnds : List Operand) (x : Nat → Value ρ) : Prop :=
  ∀ i o c, opnds[i]? = some o → o.constVal = some c → (x i).low = c

theorem bitsInType_zero {t : Mtype} (h : t ≠ .str) : (bitsInType t).getLsbD 0 = true := by
  cases t <;> first | exact absurd rfl h | decide

theorem view_eq_of_scalar {o : Operand} {m : Mask} {x y : Value ρ} (h : Agree o.dtyp o.pair m x y)
    (ho : o.dtyp.scalar = true) : view o m x = view o m y := by
  rw [Agree, if_pos ho] at h
  rw [view, view, if_pos ho, if_pos ho, h.1.and_mask_eq]
  split_ifs with hp
  · rw [(h.2 hp).and_mask_eq]
  · rfl

theorem view_eq {o : Operand} {m : Mask} {x y : Value ρ} (h : Agree o.dtyp o.pair m x y)
    (hm : m.getLsbD 0 = true) (ho : o.dtyp ≠ .str) : view o m x = view o m y := by
  by_cases hs : o.dtyp.scalar = true
  · exact view_eq_of_scalar h hs
  · rw [Agree, if_neg hs] at h
    rw [view, view, if_neg hs, if_neg hs]
    exact h (ne_zero_iff_bit.mpr ⟨0, and_bit hm (bitsInType_zero ho)⟩)

section

variable {target : Target} {n : OpNode} {opnds : List Operand} {livebits live : Mask}
  {x y : Nat → Value ρ}

theorem operandValue_eq_of_view {m : Mask}
    (h : ∀ i o, opnds[i]? = some o → view o m (x i) = view o m (y i)) :
    operandValue opnds m x = operandValue opnds m y := by
  funext i
  unfold operandValue
  cases ho : opnds[i]? with
  | none => rfl
  | some o => exact h i o ho

theorem passes_of_visitsAll (hn : n.Typed target opnds) (hv : n.visitsAll target = true) :
    n.passes target opnds true livebits live =
      (List.range opnds.length).map fun i => (i, n.readMask target) := by
  have harity := hn.arity
  unfold OpNode.visitsAll at hv
  unfold OpNode.passes OpNode.readMask
  cases hop : n.opr <;> rw [hop] at harity hv <;>
    first
      | exact absurd hv Bool.false_ne_true
      | rfl
      | (rw [harity _ rfl]; rfl)
      | skip
  case cvt =>
    rw [harity _ rfl]
    simp only [ne_eq, decide_not, Bool.and_eq_true, Bool.not_eq_eq_eq_not, Bool.not_true,
      decide_eq_false_iff_not, Bool.and_eq_false_iff] at hv
    obtain ⟨hb, hint⟩ := hv
    have hnot : ¬ (n.dtyp.isIntegral = true ∧ (n.effDsctyp target).isIntegral = true) := by
      rintro ⟨h₁, h₂⟩
      rcases hint with h | h
      · rw [h₁] at h
        cases h
      · rw [h₂] at h
        cases h
    simp only [if_neg hb, if_neg hnot]
    rfl

theorem eval_eq_of_visitsAll (hn : n.Typed target opnds) (hv : n.visitsAll target = true)
    (meaning : OpNode → (Nat → Value ρ) → Value ρ)
    (h : OperandsAgree opnds (n.passes target opnds true livebits live) x y) :
    n.eval target opnds meaning x = n.eval target opnds meaning y := by
  have hread : (n.readMask target).getLsbD 0 = true := by
    unfold OpNode.readMask
    split <;> first | decide | exact bitsInType_zero hn.dsctyp
  have hsame : operandValue opnds (n.readMask target) x = operandValue opnds (n.readMask target) y := by
    apply operandValue_eq_of_view
    intro i o ho
    refine view_eq (h i _ o ?_ ho) hread (hn.sized o (List.mem_of_getElem? ho))
    rw [passes_of_visitsAll hn hv]
    exact List.mem_map.mpr ⟨i, List.mem_range.mpr (List.getElem?_eq_some_iff.mp ho).1, rfl⟩
  rw [OpNode.eval, OpNode.eval, if_pos hv, if_pos hv, hsame]

/-! ## Integer results -/

theorem OperandsAgree.low {ps : List (Nat × Mask)} (h : OperandsAgree opnds ps x y) {i : Nat} {m : Mask}
    {o : Operand} (hm : (i, m) ∈ ps) (ho : opnds[i]? = some o) (hs : o.dtyp.scalar = true) :
    AgreeOn m (operandValue opnds (BitVec.allOnes 64) x i).low
      (operandValue opnds (BitVec.allOnes 64) y i).low := by
  have hag := h i m o hm ho
  rw [Agree, if_pos hs] at hag
  rw [low_operandValue ho hs, low_operandValue ho hs]
  exact hag.1

theorem OperandsAgree.high {ps : List (Nat × Mask)} (h : OperandsAgree opnds ps x y) {i : Nat} {m : Mask}
    {o : Operand} (hm : (i, m) ∈ ps) (ho : opnds[i]? = some o) (hs : o.dtyp.scalar = true) :
    AgreeOn m (operandValue opnds (BitVec.allOnes 64) x i).high
      (operandValue opnds (BitVec.allOnes 64) y i).high := by
  have hag := h i m o hm ho
  rw [Agree, if_pos hs] at hag
  simp only [operandValue, ho, Option.elim_some, view, if_pos hs, Value.high_word]
  split_ifs with hp
  · rw [BitVec.and_allOnes, BitVec.and_allOnes]
    exact hag.2 hp
  · exact AgreeOn.refl _ _

theorem exists_operand (hn : n.Typed target opnds) {k i : Nat} (hk : OpNode.arityOf n.opr = some k)
    (hi : i < k) : ∃ o, opnds[i]? = some o := by
  have hlen := hn.arity k hk
  exact ⟨_, List.getElem?_eq_getElem (by omega)⟩

theorem scalar_operand (hn : n.Typed target opnds) (hv : n.visitsAll target = false) {i : Nat}
    {o : Operand} (ho : opnds[i]? = some o) (hs : (n.operandType target i).scalar = true) :
    o.dtyp.scalar = true := by
  rcases hn.operands hv i o ho with h | h
  · rwa [h]
  · exact h.1

theorem sum_agree {t : Mtype} (ht : t.scalar = true) {a a' b b' : BitVec 64}
    {f : BitVec 64 → BitVec 64 → BitVec 64}
    (hf : ∀ {a a' b b' : BitVec 64} {j : Nat}, (∀ i ≤ j, a.getLsbD i = a'.getLsbD i) →
      (∀ i ≤ j, b.getLsbD i = b'.getLsbD i) → (f a b).getLsbD j = (f a' b').getLsbD j)
    (ha : AgreeOn (bitsInType t &&& fillLowerBits livebits) a a')
    (hb : AgreeOn (bitsInType t &&& fillLowerBits livebits) b b') :
    AgreeOn (livebits &&& bitsInType t) (f a b) (f a' b') := by
  intro j hj
  have hlive : livebits.getLsbD j = true := covers_and_left _ _ j hj
  have hjt : j < t.bitSize := by
    rw [BitVec.getLsbD_and, bitsInType_of_scalar ht, getLsbD_bitmaskOfSize] at hj
    simp only [Bool.and_eq_true, decide_eq_true_eq] at hj
    exact hj.2.2
  exact hf (fun i hi => ha i (fill_covers ht hlive hjt hi)) fun i hi => hb i (fill_covers ht hlive hjt hi)

/-- A bit of `a & b` with a constant `a` needs the bit of `b` only where `a` has a one. -/
theorem and_agree {m : Mask} {c d : Option (BitVec 64)} {a a' b b' : BitVec 64}
    (hca : ∀ v, c = some v → a = v ∧ a' = v) (hdb : ∀ v, d = some v → b = v ∧ b' = v)
    (ha : AgreeOn (d.elim m fun v => m &&& v) a a')
    (hb : AgreeOn (c.elim m fun v => m &&& v) b b') :
    AgreeOn m (a &&& b) (a' &&& b') := by
  intro i hi
  -- where the other operand is a constant zero, the operand bit does not matter
  have hone : ∀ {e : Option (BitVec 64)} {p p' q q' : BitVec 64},
      (∀ v, e = some v → p = v ∧ p' = v) → AgreeOn (e.elim m fun v => m &&& v) q q' →
      q.getLsbD i = q'.getLsbD i ∨ (p.getLsbD i = false ∧ p'.getLsbD i = false) := by
    intro e p p' q q' hconst hq
    cases e with
    | none => exact Or.inl (hq i hi)
    | some v =>
      obtain ⟨hp, hp'⟩ := hconst v rfl
      by_cases hv : v.getLsbD i = true
      · exact Or.inl (hq i (and_bit hi hv))
      · rw [Bool.not_eq_true] at hv
        rw [hp, hp']
        exact Or.inr ⟨hv, hv⟩
  rw [BitVec.getLsbD_and, BitVec.getLsbD_and]
  rcases hone hdb ha with h₁ | ⟨h₁, h₁'⟩
  · rcases hone hca hb with h₂ | ⟨h₂, h₂'⟩
    · rw [h₁, h₂]
    · rw [h₂, h₂', Bool.false_and, Bool.false_and]
  · rw [h₁, h₁', Bool.and_false, Bool.and_false]

theorem not_agree {m a a' : BitVec 64} (h : AgreeOn m a a') : AgreeOn m (~~~a) (~~~a') := by
  intro i hi
  rw [BitVec.getLsbD_not, BitVec.getLsbD_not, h i hi]

/-- A bit of `a | b` with a constant `a` needs the bit of `b` only where `a` has a zero. -/
theorem or_agree {m : Mask} {c d : Option (BitVec 64)} {a a' b b' : BitVec 64}
    (hca : ∀ v, c = some v → a = v ∧ a' = v) (hdb : ∀ v, d = some v → b = v ∧ b' = v)
    (ha : AgreeOn (d.elim m fun v => m &&& ~~~v) a a')
    (hb : AgreeOn (c.elim m fun v => m &&& ~~~v) b b') :
    AgreeOn m (a ||| b) (a' ||| b') := by
  have hnots : ∀ {e : Option (BitVec 64)} {p p' : BitVec 64}, (∀ v, e = some v → p = v ∧ p' = v) →
      ∀ v, e.map (~~~·) = some v → ~~~p = v ∧ ~~~p' = v := by
    intro e p p' h v hv
    obtain ⟨u, hu, rfl⟩ := Option.map_eq_some_iff.mp hv
    obtain ⟨rfl, rfl⟩ := h u hu
    exact ⟨rfl, rfl⟩
  have helim : ∀ e : Option (BitVec 64),
      (e.map (~~~·)).elim m (fun v => m &&& v) = e.elim m fun v => m &&& ~~~v := by
    intro e
    cases e <;> rfl
  have hand := and_agree (hnots hca) (hnots hdb) (by rw [helim]; exact not_agree ha)
    (by rw [helim]; exact not_agree hb)
  rw [← BitVec.not_or, ← BitVec.not_or] at hand
  have hnot := not_agree hand
  rwa [BitVec.not_not, BitVec.not_not] at hnot

theorem constOpnd_low (hx : RespectsConsts opnds x) {i : Nat} {o : Operand} (ho : opnds[i]? = some o)
    (hs : o.dtyp.scalar = true) (v : BitVec 64) (hv : OpNode.constOpnd opnds i = some v) :
    (operandValue opnds (BitVec.allOnes 64) x i).low = v := by
  rw [low_operandValue ho hs]
  rw [OpNode.constOpnd, ho, Option.bind_some] at hv
  exact hx i o v ho hv

theorem shiftRight_agree {m a a' : BitVec 64} {k : Nat} (h : AgreeOn (m <<< k) a a') :
    AgreeOn m (a >>> k) (a' >>> k) := by
  intro i hi
  rw [BitVec.getLsbD_ushiftRight, BitVec.getLsbD_ushiftRight]
  by_cases hlt : k + i < 64
  · apply h
    rw [BitVec.getLsbD_shiftLeft, show k + i - k = i by omega, hi]
    simp [hlt]
  · rw [BitVec.getLsbD_of_ge _ _ (by omega), BitVec.getLsbD_of_ge _ _ (by omega)]

theorem xor_agree {m a a' b b' : BitVec 64} (ha : AgreeOn m a a') (hb : AgreeOn m b b') :
    AgreeOn m (a ^^^ b) (a' ^^^ b') := by
  intro i hi
  rw [BitVec.getLsbD_xor, BitVec.getLsbD_xor, ha i hi, hb i hi]

/-- The word of an operand that is read in full. -/
abbrev operandWord (opnds : List Operand) (x : Nat → Value ρ) (i : Nat) : BitVec 64 :=
  (operandValue opnds (BitVec.allOnes 64) x i).low

section Words

variable {m : Mask} {t : Mtype} {o : Operand}

theorem constOpnd_agree (hx : RespectsConsts opnds x) (hy : RespectsConsts opnds y) {i : Nat}
    (ho : ∃ o, opnds[i]? = some o ∧ o.dtyp.scalar = true) (v : BitVec 64) (hv : OpNode.constOpnd opnds i = some v) :
    operandWord opnds x i = v ∧ operandWord opnds y i = v := by
  obtain ⟨o, ho, hs⟩ := ho
  exact ⟨constOpnd_low hx ho hs v hv, constOpnd_low hy ho hs v hv⟩

/-- An operand that is passed alone. -/
theorem word_agree (hopnd : ∃ o, opnds[0]? = some o ∧ o.dtyp.scalar = true) (h : OperandsAgree opnds [(0, m)] x y) :
    AgreeOn m (operandWord opnds x 0) (operandWord opnds y 0) := by
  obtain ⟨o, ho, hs⟩ := hopnd
  exact h.low (List.mem_cons_self ..) ho hs

variable (hopnd : ∀ i < 2, ∃ o, opnds[i]? = some o ∧ o.dtyp.scalar = true)
include hopnd

theorem words_agree {m₀ m₁ : Mask} (h : OperandsAgree opnds [(0, m₀), (1, m₁)] x y) :
    AgreeOn m₀ (operandWord opnds x 0) (operandWord opnds y 0) ∧
      AgreeOn m₁ (operandWord opnds x 1) (operandWord opnds y 1) := by
  obtain ⟨o₀, ho₀, hs₀⟩ := hopnd 0 (by omega)
  obtain ⟨o₁, ho₁, hs₁⟩ := hopnd 1 (by omega)
  exact ⟨h.low (by simp) ho₀ hs₀, h.low (by simp) ho₁ hs₁⟩

/-- The operators whose carries go upwards. -/
theorem carry_agree (ht : t.scalar = true) {f : BitVec 64 → BitVec 64 → BitVec 64}
    (hf : ∀ {a a' b b' : BitVec 64} {j : Nat}, (∀ i ≤ j, a.getLsbD i = a'.getLsbD i) →
      (∀ i ≤ j, b.getLsbD i = b'.getLsbD i) → (f a b).getLsbD j = (f a' b').getLsbD j)
    (h : OperandsAgree opnds [(0, bitsInType t &&& fillLowerBits livebits), (1, bitsInType t &&& fillLowerBits livebits)]
      x y) :
    AgreeOn (livebits &&& bitsInType t) (f (operandWord opnds x 0) (operandWord opnds x 1))
      (f (operandWord opnds y 0) (operandWord opnds y 1)) := by
  obtain ⟨h₀, h₁⟩ := words_agree hopnd h
  exact sum_agree ht hf h₀ h₁

/-- `|` with the second operand visited first; a constant operand settles the bits that it sets. -/
theorem or_words_agree (hx : RespectsConsts opnds x) (hy : RespectsConsts opnds y)
    (h : OperandsAgree opnds [(1, (OpNode.constOpnd opnds 0).elim m fun v => m &&& ~~~v),
      (0, (OpNode.constOpnd opnds 1).elim m fun v => m &&& ~~~v)] x y) :
    AgreeOn m (operandWord opnds x 0 ||| operandWord opnds x 1) (operandWord opnds y 0 ||| operandWord opnds y 1) := by
  obtain ⟨o₀, ho₀, hs₀⟩ := hopnd 0 (by omega)
  obtain ⟨o₁, ho₁, hs₁⟩ := hopnd 1 (by omega)
  exact or_agree (constOpnd_agree hx hy ⟨o₀, ho₀, hs₀⟩) (constOpnd_agree hx hy ⟨o₁, ho₁, hs₁⟩)
    (h.low (List.mem_cons_of_mem _ (List.mem_cons_self ..)) ho₀ hs₀) (h.low (List.mem_cons_self ..) ho₁ hs₁)

/-- `&` likewise; a constant operand settles the bits that it clears. -/
theorem and_words_agree (hx : RespectsConsts opnds x) (hy : RespectsConsts opnds y)
    (h : OperandsAgree opnds [(1, (OpNode.constOpnd opnds 0).elim m fun v => m &&& v),
      (0, (OpNode.constOpnd opnds 1).elim m fun v => m &&& v)] x y) :
    AgreeOn m (operandWord opnds x 0 &&& operandWord opnds x 1) (operandWord opnds y 0 &&& operandWord opnds y 1) := by
  obtain ⟨o₀, ho₀, hs₀⟩ := hopnd 0 (by omega)
  obtain ⟨o₁, ho₁, hs₁⟩ := hopnd 1 (by omega)
  exact and_agree (constOpnd_agree hx hy ⟨o₀, ho₀, hs₀⟩) (constOpnd_agree hx hy ⟨o₁, ho₁, hs₁⟩)
    (h.low (List.mem_cons_of_mem _ (List.mem_cons_self ..)) ho₀ hs₀) (h.low (List.mem_cons_self ..) ho₁ hs₁)

end Words

/-- The integer result of an operator that is transparent to bits agrees on the live bits. -/
theorem wordResult_agree (hn : n.Typed target opnds) (hv : n.visitsAll target = false)
    (hshift : n.opr.isShift = false) (hd : n.dtyp.scalar = true) (hx : RespectsConsts opnds x)
    (hy : RespectsConsts opnds y)
    (h : OperandsAgree opnds (n.passes target opnds true livebits live) x y) :
    AgreeOn (livebits &&& bitsInType n.dtyp) (n.wordResult target opnds x)
      (n.wordResult target opnds y) := by
  have hfields := hn.fields
  have hvis := hv
  have hopnd : ∀ {k : Nat}, OpNode.arityOf n.opr = some k → ∀ i < k,
      (n.operandType target i).scalar = true → ∃ o, opnds[i]? = some o ∧ o.dtyp.scalar = true := by
    intro k hk i hi hs
    obtain ⟨o, ho⟩ := exists_operand hn hk hi
    exact ⟨o, ho, scalar_operand hn hv ho hs⟩
  unfold OpNode.FieldsTyped at hfields
  unfold OpNode.visitsAll at hvis
  unfold OpNode.operandType at hopnd
  unfold OpNode.passes at h
  unfold OpNode.wordResult
  cases hop : n.opr <;> rw [hop] at hshift hvis <;>
    first
      | exact absurd hshift.symm Bool.false_ne_true
      | exact absurd hvis.symm Bool.false_ne_true
      | skip
  all_goals simp only [hop] at hfields hopnd h ⊢
  case cvtl =>
    have hlow := word_agree (hopnd rfl 0 (by decide) hd) h
    exact (extend_agree target hfields.2 hlow).mono (covers_and_left _ _)
  case cvt =>
    by_cases hb : n.effDsctyp target = .b
    · simp only [if_pos hb] at h ⊢
      have hlow := word_agree (hopnd rfl 0 (by decide) (by rw [hb]; rfl)) h
      rw [hlow.and_mask_eq]
      exact AgreeOn.refl _ _
    · have hint : n.dtyp.isIntegral = true ∧ (n.effDsctyp target).isIntegral = true := by
        simpa [hb] using hvis
      simp only [if_neg hb, if_pos hint] at hfields h ⊢
      obtain ⟨hsame, hsize⟩ := hfields hint.1 hint.2
      rw [hd] at hsame
      exact cvt_agree hsame.symm (hsize hsame.symm) (word_agree (hopnd rfl 0 (by decide) hsame.symm) h)
  case neg =>
    rw [hfields] at h
    have hlow := word_agree (hopnd rfl 0 (by decide) hd) h
    exact sum_agree (f := fun a _ => -a) hd (fun ha _ => neg_bit_congr ha) hlow hlow
  case extractBits =>
    have hlow := word_agree (hopnd rfl 0 (by decide) hd) h
    rw [target.shiftLeft_of_lt _ (by omega)] at hlow
    exact (extend_agree target ⟨hfields.2.1, by omega⟩ (shiftRight_agree hlow)).mono
      (covers_and_left _ _)
  case paren | minpart =>
    rw [hfields] at h
    exact (word_agree (hopnd rfl 0 (by decide) hd) h).mono (wordLive_covers _ _)
  case maxpart =>
    rw [hfields] at h
    obtain ⟨o, ho, hs⟩ := hopnd rfl 0 (by decide) hd
    exact (h.high (List.mem_cons_self ..) ho hs).mono (wordLive_covers _ _)
  case bnot =>
    rw [hfields] at h
    exact not_agree ((word_agree (hopnd rfl 0 (by decide) hd) h).mono (wordLive_covers _ _))
  case add =>
    rw [hfields] at h
    exact carry_agree (fun i hi => hopnd rfl i hi hd) hd (f := fun a b => a + b) add_bit_congr h
  case sub =>
    rw [hfields] at h
    exact carry_agree (fun i hi => hopnd rfl i hi hd) hd (f := fun a b => a - b) sub_bit_congr h
  case mpy =>
    rw [hfields] at h
    exact carry_agree (fun i hi => hopnd rfl i hi hd) hd (f := fun a b => a * b) mul_bit_congr h
  case bxor =>
    rw [hfields] at h
    obtain ⟨h₀, h₁⟩ := words_agree (fun i hi => hopnd rfl i hi hd) h
    exact (xor_agree h₀ h₁).mono (wordLive_covers _ _)
  case bior =>
    rw [hfields] at h
    exact (or_words_agree (fun i hi => hopnd rfl i hi hd) hx hy h).mono (wordLive_covers _ _)
  case bnor =>
    rw [hfields] at h
    exact not_agree ((or_words_agree (fun i hi => hopnd rfl i hi hd) hx hy h).mono (wordLive_covers _ _))
  case band =>
    rw [hfields] at h
    exact (and_words_agree (fun i hi => hopnd rfl i hi hd) hx hy h).mono (wordLive_covers _ _)
  case composeBits =>
    rw [target.shiftLeft_of_lt _ (by omega), target.shiftRight_of_lt _ (by omega)] at h
    obtain ⟨h₀, h₁⟩ := words_agree (fun i hi => hopnd rfl i hi hd) h
    exact (composeBits_agree h₀ h₁).mono (covers_and_left _ _)
  case select =>
    obtain ⟨o₀, ho₀, hs₀⟩ := hopnd rfl 0 (by decide) rfl
    obtain ⟨o₁, ho₁, hs₁⟩ := hopnd rfl 1 (by decide) hd
    obtain ⟨o₂, ho₂, hs₂⟩ := hopnd rfl 2 (by decide) hd
    rw [(h.low (List.mem_cons_self ..) ho₀ hs₀).and_mask_eq, BitVec.and_comm livebits]
    split_ifs
    · exact h.low (by simp) ho₁ hs₁
    · exact h.low (by simp) ho₂ hs₂

/-! ## Results that are live as a whole -/

/-- Some bit of the type is live. -/
def LiveIn (t : Mtype) (m : Mask) : Prop := m &&& bitsInType t ≠ 0

theorem LiveIn.mono {t : Mtype} {m m' : Mask} (h : LiveIn t m)
    (hsub : Covers m' (m &&& bitsInType t)) : LiveIn t m' := by
  obtain ⟨i, hi⟩ := ne_zero_iff_bit.mp h
  have hbits := hi
  rw [BitVec.getLsbD_and, Bool.and_eq_true] at hbits
  exact ne_zero_iff_bit.mpr ⟨i, and_bit (hsub i hi) hbits.2⟩

theorem LiveIn.fill {t : Mtype} {m : Mask} (h : LiveIn t m) :
    LiveIn t (bitsInType t &&& fillLowerBits m) := by
  apply h.mono
  intro i hi
  rw [BitVec.getLsbD_and, Bool.and_eq_true] at hi
  exact and_bit hi.2 ((getLsbD_fillLowerBits m i).mpr ⟨i, le_refl i, hi.1⟩)

theorem bitsInType_of_integral_whole {t : Mtype} (hi : t.isIntegral = true) (hs : t.scalar = false) :
    bitsInType t = BitVec.allOnes 64 := by
  cases t <;> first | exact absurd hi Bool.false_ne_true | exact absurd hs.symm Bool.false_ne_true | rfl

theorem LiveIn.cvt {dtyp dsctyp : Mtype} {m : Mask} (hi : dsctyp.isIntegral = true)
    (hs : dsctyp.scalar = false) (h : LiveIn dtyp m) : LiveIn dsctyp (Target.cvtLive dtyp dsctyp m) := by
  have hall := bitsInType_of_integral_whole hi hs
  have hnew : LiveIn dsctyp (m &&& bitsInType dtyp) := by
    unfold LiveIn
    rw [hall, BitVec.and_allOnes]
    exact h
  apply hnew.mono
  unfold Target.cvtLive
  dsimp only
  split_ifs
  · exact Covers.or_left _ _
  · exact Covers.refl _

theorem OperandsAgree.whole {ps : List (Nat × Mask)} (h : OperandsAgree opnds ps x y) {i : Nat}
    {m : Mask} {o : Operand} (hm : (i, m) ∈ ps) (ho : opnds[i]? = some o) (hs : o.dtyp.scalar = false)
    (hlive : LiveIn o.dtyp m) : x i = y i := by
  have hag := h i m o hm ho
  rw [Agree, if_neg (by rw [hs]; exact Bool.false_ne_true)] at hag
  exact hag hlive

theorem operand_dtyp_of_whole (hn : n.Typed target opnds) (hv : n.visitsAll target = false) {i : Nat}
    {o : Operand} (ho : opnds[i]? = some o) (hs : (n.operandType target i).scalar = false) :
    o.dtyp = n.operandType target i := by
  rcases hn.operands hv i o ho with heq | hscalar
  · exact heq
  · rw [hs] at hscalar
    exact absurd hscalar.2 Bool.false_ne_true

theorem constOpnd_of_whole (hn : n.Typed target opnds) (hv : n.visitsAll target = false) {j : Nat}
    (hs : (n.operandType target j).scalar = false) : OpNode.constOpnd opnds j = none := by
  rw [OpNode.constOpnd]
  cases ho : opnds[j]? with
  | none => rfl
  | some o =>
    rw [Option.bind_some]
    by_contra hne
    have hcs := hn.consts o (List.mem_of_getElem? ho) hne
    rw [operand_dtyp_of_whole hn hv ho hs, hs] at hcs
    exact Bool.false_ne_true hcs

/-- The operands of a result that is live as a whole, the condition of a `SELECT` apart, agree as a
whole. -/
theorem operands_eq_of_whole (hn : n.Typed target opnds) (hv : n.visitsAll target = false)
    (hshift : n.opr.isShift = false) (hd : n.dtyp.scalar = false) (hlive : LiveIn n.dtyp livebits)
    (h : OperandsAgree opnds (n.passes target opnds true livebits live) x y) {i : Nat} {o : Operand}
    (ho : opnds[i]? = some o) (hi : n.opr = .select → i ≠ 0) : x i = y i := by
  have hfields := hn.fields
  have hvis := hv
  have hlt : i < opnds.length := (List.getElem?_eq_some_iff.mp ho).1
  have harity := hn.arity
  have hwhole : ∀ {t : Mtype} {m : Mask}, n.operandType target i = t → t.scalar = false →
      (i, m) ∈ n.passes target opnds true livebits live → LiveIn t m → x i = y i := by
    intro t m ht hs hm hl
    have heq := operand_dtyp_of_whole hn hv ho (by rw [ht]; exact hs)
    rw [ht] at heq
    exact h.whole hm ho (by rw [heq]; exact hs) (by rw [heq]; exact hl)
  have hconst := fun j => constOpnd_of_whole (j := j) hn hv
  unfold OpNode.FieldsTyped at hfields
  unfold OpNode.visitsAll at hvis
  unfold OpNode.passes OpNode.operandType at hwhole
  unfold OpNode.operandType at hconst
  cases hop : n.opr <;> rw [hop] at hshift hvis harity <;>
    first
      | exact absurd hshift.symm Bool.false_ne_true
      | exact absurd hvis.symm Bool.false_ne_true
      | skip
  all_goals
    have hk := harity _ rfl
    simp only [hop] at hfields hwhole hconst
  case cvtl | extractBits | composeBits =>
    rw [hd] at hfields
    exact absurd hfields.1 Bool.false_ne_true
  case cvt =>
    obtain rfl : i = 0 := by omega
    by_cases hb : n.effDsctyp target = .b
    · rw [if_pos hb, hd] at hfields
      exact absurd hfields Bool.false_ne_true
    · have hint : n.dtyp.isIntegral = true ∧ (n.effDsctyp target).isIntegral = true := by
        simpa [hb] using hvis
      simp only [if_neg hb, if_pos hint] at hfields hwhole
      have hs := (hfields hint.1 hint.2).1
      rw [hd] at hs
      exact hwhole rfl hs.symm (List.mem_cons_self ..) (hlive.cvt hint.2 hs.symm)
  case neg =>
    obtain rfl : i = 0 := by omega
    rw [hfields] at hwhole
    exact hwhole rfl hd (List.mem_cons_self ..) hlive.fill
  case paren | bnot | minpart | maxpart =>
    obtain rfl : i = 0 := by omega
    rw [hfields] at hwhole
    exact hwhole rfl hd (List.mem_cons_self ..) (hlive.mono (wordLive_covers _ _))
  case add | sub | mpy =>
    rw [hfields] at hwhole
    obtain rfl | rfl : i = 0 ∨ i = 1 := by omega
    · exact hwhole rfl hd (by simp) hlive.fill
    · exact hwhole rfl hd (by simp) hlive.fill
  case bxor =>
    rw [hfields] at hwhole
    obtain rfl | rfl : i = 0 ∨ i = 1 := by omega
    · exact hwhole rfl hd (by simp) (hlive.mono (wordLive_covers _ _))
    · exact hwhole rfl hd (by simp) (hlive.mono (wordLive_covers _ _))
  case bior | bnor | band =>
    rw [hfields, hconst 0 hd, hconst 1 hd] at hwhole
    obtain rfl | rfl : i = 0 ∨ i = 1 := by omega
    · exact hwhole rfl hd (by simp) (hlive.mono (wordLive_covers _ _))
    · exact hwhole rfl hd (by simp) (hlive.mono (wordLive_covers _ _))
  case select =>
    have hne := hi hop
    rw [if_neg hne] at hwhole
    have hboth : LiveIn n.dtyp (bitsInType n.dtyp &&& livebits) := by
      apply hlive.mono
      rw [BitVec.and_comm]
      exact Covers.refl _
    obtain rfl | rfl : i = 1 ∨ i = 2 := by omega
    · exact hwhole rfl hd (by simp) hboth
    · exact hwhole rfl hd (by simp) hboth

theorem eval_eq_of_whole (hn : n.Typed target opnds) (hv : n.visitsAll target = false)
    (hshift : n.opr.isShift = false) (hd : n.dtyp.scalar = false) (hlive : LiveIn n.dtyp livebits)
    (meaning : OpNode → (Nat → Value ρ) → Value ρ)
    (h : OperandsAgree opnds (n.passes target opnds true livebits live) x y) :
    n.eval target opnds meaning x = n.eval target opnds meaning y := by
  have hopnd : ∀ i, (n.opr = .select → i ≠ 0) →
      operandValue opnds (BitVec.allOnes 64) x i = operandValue opnds (BitVec.allOnes 64) y i := by
    intro i hi
    unfold operandValue
    cases ho : opnds[i]? with
    | none => rfl
    | some o => rw [operands_eq_of_whole hn hv hshift hd hlive h ho hi]
  have hns : ¬ n.dtyp.scalar = true := by
    rw [hd]
    exact Bool.false_ne_true
  rw [OpNode.eval, OpNode.eval, hv, if_neg Bool.false_ne_true, if_neg hns, if_neg Bool.false_ne_true,
    if_neg hns]
  by_cases hsel : n.opr = .select
  · -- the condition is an integer, read on the bits of the descriptor type
    obtain ⟨o, ho⟩ := exists_operand (i := 0) hn (by rw [hsel]; rfl) (by omega : 0 < 3)
    have hs := scalar_operand hn hv ho (by simp [OpNode.operandType, hsel, Mtype.scalar])
    have hcond := (h.low (m := bitsInType (n.effDsctyp target)) (by simp [OpNode.passes, hsel]) ho
      hs).and_mask_eq
    simp only [hsel]
    rw [hcond, hopnd 1 (fun _ => by omega), hopnd 2 (fun _ => by omega)]
  · have hsame : operandValue opnds (BitVec.allOnes 64) x = operandValue opnds (BitVec.allOnes 64) y :=
      funext fun i => hopnd i fun heq => absurd heq hsel
    rw [hsame]

/-! ## One call and a sequence of calls -/

/-- Operands that agree on what a call passes that visits all of them give results that agree on the
live bits of the node. -/
theorem passes_agree (hn : n.Typed target opnds) (hshift : n.opr.isShift = false)
    (meaning : OpNode → (Nat → Value ρ) → Value ρ) (hx : RespectsConsts opnds x)
    (hy : RespectsConsts opnds y)
    (h : OperandsAgree opnds (n.passes target opnds true livebits live) x y) :
    Agree n.dtyp n.opr.makesPair livebits (n.eval target opnds meaning x)
      (n.eval target opnds meaning y) := by
  by_cases hv : n.visitsAll target = true
  · exact Agree.of_eq (eval_eq_of_visitsAll hn hv meaning h)
  · have hnv := hv
    rw [Bool.not_eq_true] at hnv
    by_cases hd : n.dtyp.scalar = true
    · have hword := wordResult_agree hn hnv hshift hd hx hy h
      have hlow : AgreeOn livebits (n.wordResult target opnds x &&& bitsInType n.dtyp)
          (n.wordResult target opnds y &&& bitsInType n.dtyp) := by
        intro i hi
        rw [BitVec.getLsbD_and, BitVec.getLsbD_and]
        by_cases hbit : (bitsInType n.dtyp).getLsbD i = true
        · rw [hword i (and_bit hi hbit)]
        · rw [Bool.not_eq_true] at hbit
          rw [hbit, Bool.and_false, Bool.and_false]
      rw [Agree, if_pos hd, OpNode.eval, OpNode.eval, if_neg hv, if_pos hd, if_neg hv, if_pos hd]
      exact ⟨hlow, fun _ => AgreeOn.refl _ _⟩
    · rw [Agree, if_neg hd]
      intro hlive
      rw [Bool.not_eq_true] at hd
      exact eval_eq_of_whole hn hnv hshift hd hlive meaning h

theorem passes_of_not_visitsAll (hv : n.visitsAll target = false) (visitAll : Bool) :
    n.passes target opnds visitAll livebits live = n.passes target opnds true livebits live := by
  unfold OpNode.visitsAll at hv
  unfold OpNode.passes
  cases hop : n.opr <;> rw [hop] at hv <;>
    first
      | rfl
      | exact absurd hv.symm Bool.false_ne_true
      | skip
  case cvt =>
    by_cases hb : n.effDsctyp target = .b
    · simp only [if_pos hb]
    · have hint : n.dtyp.isIntegral = true ∧ (n.effDsctyp target).isIntegral = true := by
        simpa [hb] using hv
      simp only [if_neg hb, if_pos hint]

/-- The operands agree on the masks of every call made on them. -/
def CallsAgree (opnds : List Operand) (calls : List (Nat × Visit)) (x y : Nat → Value ρ) : Prop :=
  ∀ i v o, (i, v) ∈ calls → opnds[i]? = some o → Agree o.dtyp o.pair v.live (x i) (y i)

/-- The results agree on the bits marked so far; an operator that reads its operands as a whole has the
same result as soon as it has a live bit. -/
def MarksSound (target : Target) (n : OpNode) (opnds : List Operand)
    (meaning : OpNode → (Nat → Value ρ) → Value ρ) (x y : Nat → Value ρ) (s : Marks) : Prop :=
  Agree n.dtyp n.opr.makesPair s.livebits (n.eval target opnds meaning x)
      (n.eval target opnds meaning y) ∧
    (n.visitsAll target = true → s.livebits ≠ 0 →
      n.eval target opnds meaning x = n.eval target opnds meaning y)

theorem marksSound_none (meaning : OpNode → (Nat → Value ρ) → Value ρ) :
    MarksSound target n opnds meaning x y Marks.none := by
  refine ⟨Agree.zero _ _ _ _, ?_⟩
  intro _ hne
  exact absurd rfl hne

/-- The bits a boolean operator trims away are zero in its result. -/
theorem agree_of_trimmed (hn : n.Typed target opnds) (meaning : OpNode → (Nat → Value ρ) → Value ρ)
    {m : Mask}
    (h : Agree n.dtyp n.opr.makesPair (n.trimmed m) (n.eval target opnds meaning x)
      (n.eval target opnds meaning y)) :
    Agree n.dtyp n.opr.makesPair m (n.eval target opnds meaning x) (n.eval target opnds meaning y) := by
  unfold OpNode.trimmed at h
  split_ifs at h with hb
  · have hv : n.visitsAll target = true := by
      unfold OpNode.visitsAll
      revert hb
      cases n.opr <;> simp [Operator.isBoolean]
    have hpair : n.opr.makesPair = false := by
      revert hb
      cases n.opr <;> simp [Operator.isBoolean, Operator.makesPair]
    have hlow : ∀ z : Nat → Value ρ, ∃ v : BitVec 64, (n.eval target opnds meaning z).low = v &&& 1 := by
      intro z
      rw [OpNode.eval, if_pos hv, OpNode.normalize, if_pos hb]
      exact ⟨_, rfl⟩
    have hd := hn.boolean hb
    rw [Agree, if_pos hd, hpair] at h ⊢
    refine ⟨?_, fun hp => absurd hp Bool.false_ne_true⟩
    intro i hi
    by_cases hzero : i = 0
    · subst hzero
      exact h.1 0 (and_bit hi rfl)
    · obtain ⟨v, hv₁⟩ := hlow x
      obtain ⟨w, hw⟩ := hlow y
      rw [hv₁, hw, BitVec.getLsbD_and, BitVec.getLsbD_and, show (1 : BitVec 64) = 1#64 from rfl,
        BitVec.getLsbD_one]
      simp [hzero]
  · exact h

/-- One call keeps the marks sound and asks for bits on which the results agree. -/
theorem visit_sound (hn : n.Typed target opnds) (hshift : n.opr.isShift = false)
    (meaning : OpNode → (Nat → Value ρ) → Value ρ) (hx : RespectsConsts opnds x)
    (hy : RespectsConsts opnds y) {s : Marks} (hs : MarksSound target n opnds meaning x y s) (c : Visit)
    (h : CallsAgree opnds (n.visit target opnds s c).2 x y) :
    MarksSound target n opnds meaning x y (n.visit target opnds s c).1 ∧
      Agree n.dtyp n.opr.makesPair c.live (n.eval target opnds meaning x)
        (n.eval target opnds meaning y) := by
  unfold OpNode.visit at h ⊢
  dsimp only at h ⊢
  by_cases hexit : (!(c.stmtVisit && decide (s.usecnt < 2)) && !s.moreBitsLive (n.trimmed c.live)) = true
  · -- nothing new is live, so the earlier calls already cover this one
    rw [if_pos hexit]
    refine ⟨hs, agree_of_trimmed hn meaning (hs.1.mono ?_)⟩
    rw [Bool.and_eq_true, Bool.not_eq_true', Bool.not_eq_true', Marks.moreBitsLive] at hexit
    exact covers_of_and_not_eq_zero (by simpa using hexit.2)
  · rw [if_neg hexit] at h ⊢
    have hagree : Agree n.dtyp n.opr.makesPair (s.livebits ||| n.trimmed c.live)
        (n.eval target opnds meaning x) (n.eval target opnds meaning y) ∧
        (n.visitsAll target = true →
          n.eval target opnds meaning x = n.eval target opnds meaning y) := by
      by_cases hold : n.visitsAll target = true ∧ s.livebits ≠ 0
      · have heq := hs.2 hold.1 hold.2
        exact ⟨Agree.of_eq heq, fun _ => heq⟩
      · have hpassed : OperandsAgree opnds
            (n.passes target opnds true (s.livebits ||| n.trimmed c.live) (n.trimmed c.live)) x y := by
          intro i m o hm ho
          refine h i ⟨m, _⟩ o (List.mem_map.mpr ⟨(i, m), ?_, rfl⟩) ho
          by_cases hv : n.visitsAll target = true
          · have hzero : s.livebits = 0 := by
              by_contra hne
              exact hold ⟨hv, hne⟩
            rw [hzero, decide_eq_true rfl, Bool.or_true]
            rwa [hzero] at hm
          · rw [Bool.not_eq_true] at hv
            rw [passes_of_not_visitsAll hv]
            exact hm
        exact ⟨passes_agree hn hshift meaning hx hy hpassed, fun hv =>
          eval_eq_of_visitsAll hn hv meaning hpassed⟩
    exact ⟨⟨hagree.1, fun hv _ => hagree.2 hv⟩,
      agree_of_trimmed hn meaning (hagree.1.mono (Covers.or_right _ _))⟩

/-- Operands that agree on the masks of all the calls a sequence of calls makes on them give results
that agree on every bit any of those calls asks for. -/
theorem visits_agree_of_marks (hn : n.Typed target opnds) (hshift : n.opr.isShift = false)
    (meaning : OpNode → (Nat → Value ρ) → Value ρ) (hx : RespectsConsts opnds x)
    (hy : RespectsConsts opnds y) (cs : List Visit) :
    ∀ s : Marks, MarksSound target n opnds meaning x y s →
      CallsAgree opnds (n.visits target opnds s cs) x y → ∀ c ∈ cs,
        Agree n.dtyp n.opr.makesPair c.live (n.eval target opnds meaning x)
          (n.eval target opnds meaning y) := by
  induction cs with
  | nil =>
    intro _ _ _ c hc
    cases hc
  | cons c cs ih =>
    intro s hs h
    have hhead : CallsAgree opnds (n.visit target opnds s c).2 x y :=
      fun i v o hm => h i v o (List.mem_append_left _ hm)
    obtain ⟨hnext, hc⟩ := visit_sound hn hshift meaning hx hy hs c hhead
    have htail := ih _ hnext fun i v o hm => h i v o (List.mem_append_right _ hm)
    intro d hd
    rcases List.mem_cons.mp hd with rfl | hd
    · exact hc
    · exact htail d hd

end

end Path64.Bdce

import Path64.DivRem.Multiplier

/-!
# Dividing 32-bit values by constants

* `expandSigned32_word` : every signed sequence leaves the truncated quotient;
* `expandUnsigned32_word`, `expandCompare32_word` : the unsigned sequences;
* `expand_divides_32` : the expansion of a 32-bit division by a constant that is no power of two.
-/

namespace Path64.DivRem

open Lib Machine

/-! ## Signed -/

theorem signed_high_add (n : BitVec 32) (M : Int) :
    ((n.signExtend 64 * BitVec.ofInt 64 (M - 2 ^ 32)) >>> 32).setWidth 32 + n = BitVec.ofInt 32 (n.toInt * M / 2 ^ 32) := by
  have hn : n = BitVec.ofInt 32 n.toInt := BitVec.ofInt_toInt.symm
  have hsplit : n.toInt * M / 2 ^ 32 = n.toInt * (M - 2 ^ 32) / 2 ^ 32 + n.toInt := by
    rw [← Int.add_mul_ediv_right _ _ (by norm_num)]
    congr 1
    ring
  rw [signed_high, hsplit, BitVec.ofInt_add, ← hn]

theorem signed_word {d : Nat} (h3 : 3 ≤ d) (hlt : d < 2 ^ 31) (hpow : d ≠ 2 ^ log2 d) (n : BitVec 32) :
    (BitVec.ofInt 32 (n.toInt * (signedMultiplier d).1 / 2 ^ 32)).sshiftRight (signedMultiplier d).2 -
      n.sshiftRight 31 = BitVec.ofInt 32 (n.toInt.tdiv d) := by
  obtain ⟨-, -, -, hM⟩ := signedMultiplier_magic h3 hlt hpow
  have hlow := n.le_toInt
  have hhigh := n.toInt_lt
  norm_num at hlow hhigh
  set M := (signedMultiplier d).1
  have hM0 : (0 : Int) ≤ M := Int.natCast_nonneg M
  have hM' : (M : Int) < 2 ^ 32 := by exact_mod_cast hM
  have hprodlow : -2 ^ 31 ≤ n.toInt * M / 2 ^ 32 := by
    rw [Int.le_ediv_iff_mul_le (by norm_num)]
    nlinarith
  have hprodhigh : n.toInt * M / 2 ^ 32 < 2 ^ 31 := by
    rw [Int.ediv_lt_iff_lt_mul (by norm_num)]
    nlinarith
  rw [sshiftRight_ofInt hprodlow hprodhigh, sshiftRight_sign, BitVec.sub_eq_add_neg, ← BitVec.ofInt_neg, ← BitVec.ofInt_add,
    ← Int.sub_eq_add_neg, signed_quotient h3 hlt hpow (by omega) (by omega)]

theorem tdiv_natAbs (n d : Int) : n.tdiv d = if d < 0 then -n.tdiv d.natAbs else n.tdiv d.natAbs := by
  split_ifs with hd
  · rw [← Int.tdiv_neg]
    congr 1
    omega
  · congr 1
    omega

theorem toInt_ofInt_tdiv (n : BitVec 32) {d : Int} (hd : 2 ≤ d.natAbs) :
    (BitVec.ofInt 32 (n.toInt.tdiv d)).toInt = n.toInt.tdiv d := by
  have hlow := n.le_toInt
  have hhigh := n.toInt_lt
  norm_num at hlow hhigh
  have habs : (n.toInt.tdiv d).natAbs = n.toInt.natAbs / d.natAbs := Int.natAbs_tdiv _ _
  have hhalf : n.toInt.natAbs / d.natAbs ≤ n.toInt.natAbs / 2 := Nat.div_le_div_left hd (by norm_num)
  rw [BitVec.toInt_ofInt, Int.bmod_eq_of_le (by norm_num; omega) (by norm_num; omega)]

theorem quotient_of_word {n : BitVec 32} {d : Int} {q : BitVec 32}
    (hq : q = BitVec.ofInt 32 (n.toInt.tdiv d.natAbs)) :
    (0 < d → q = BitVec.ofInt 32 (n.toInt.tdiv d)) ∧ (d < 0 → -q = BitVec.ofInt 32 (n.toInt.tdiv d)) := by
  refine ⟨fun hpos => ?_, fun hneg => ?_⟩
  · rw [tdiv_natAbs, if_neg (by omega), hq]
  · rw [tdiv_natAbs, if_pos hneg, hq, BitVec.ofInt_neg]

section Signed

variable {result numer next : Nat} {d : Int}

/-- The divisors of the signed path. -/
structure SignedDivisor (d : Int) : Prop where
  ge : 3 ≤ d.natAbs
  lt : d.natAbs < 2 ^ 31
  pow : d.natAbs ≠ 2 ^ log2 d.natAbs

theorem SignedDivisor.word (h : SignedDivisor d) (n : BitVec 32) :
    let q := (BitVec.ofInt 32 (n.toInt * (signedMultiplier d.natAbs).1 / 2 ^ 32)).sshiftRight
      (signedMultiplier d.natAbs).2
    (0 < d → q - n.sshiftRight 31 = BitVec.ofInt 32 (n.toInt.tdiv d)) ∧
      (d < 0 → n.sshiftRight 31 - q = BitVec.ofInt 32 (n.toInt.tdiv d)) := by
  intro q
  obtain ⟨hpos, hneg⟩ := quotient_of_word (signed_word h.ge h.lt h.pow n)
  refine ⟨hpos, fun hd => ?_⟩
  rw [← hneg hd, BitVec.neg_sub, BitVec.add_comm, ← BitVec.sub_eq_add_neg]

/-- The sequence for a multiplier with its top bit set. -/
theorem runs_signed_add (hres : result < next) (hnum : numer < next) (h : SignedDivisor d) (target32 : Bool)
    (htop : (signedMultiplier d.natAbs).1 / 2 ^ 31 ≠ 0) (m : Machine) :
    Runs (expandSigned32 target32 result numer next d) m fun m' =>
      m'.read .w32 result = BitVec.ofInt 32 ((m.read .w32 numer).toInt.tdiv d) := by
  obtain ⟨-, hs, hl, hM⟩ := signedMultiplier_magic h.ge h.lt h.pow
  obtain ⟨hpos, hneg⟩ := h.word (m.read .w32 numer)
  have hge := h.ge
  unfold expandSigned32
  generalize signedMultiplier d.natAbs = Ms at *
  obtain ⟨M, s⟩ := Ms
  simp only at hs hM hpos hneg htop ⊢
  rw [Nat.mod_eq_of_lt hM, if_pos htop]
  refine Runs.write rfl fun m₁ h₁ => Runs.write rfl fun m₂ h₂ => ?_
  refine Runs.arith rfl fun m₃ h₃ => Runs.shri (by norm_num) fun m₄ h₄ => ?_
  refine Runs.arith rfl fun m₅ h₅ => Runs.sari (by norm_num) fun m₆ h₆ => ?_
  refine Runs.sari (show s < 32 by omega) fun m₇ h₇ => Runs.arith rfl fun m₈ h₈ => ?_
  have hsign : m₈.read .w32 (next + 5) = (m.read .w32 numer).sshiftRight 31 := by
    rw [h₈.other _ _ (by omega), h₇.other _ _ (by omega), h₆.read, h₅.other _ _ (by omega), h₄.other _ _ (by omega),
      h₃.other _ _ (by omega), h₂.other _ _ (by omega), h₁.other _ _ (by omega)]
  have hquot : m₈.read .w32 (next + 6) = (BitVec.ofInt 32 ((m.read .w32 numer).toInt * M / 2 ^ 32)).sshiftRight s := by
    rw [h₈.other _ _ (by omega), h₇.read, h₆.other _ _ (by omega), h₅.read, h₄.low, h₃.read, h₂.read,
      h₂.other _ _ (by omega), h₁.read, h₄.other _ _ (by omega), h₃.other _ _ (by omega), h₂.other _ _ (by omega),
      h₁.other _ _ (by omega), signed_high_add]
  by_cases hd : d > 0
  · rw [if_pos hd]
    refine Runs.arith rfl fun m₉ h₉ => Runs.nil ?_
    rw [h₉.read, hquot, hsign, hpos hd]
  · rw [if_neg hd]
    refine Runs.arith rfl fun m₉ h₉ => Runs.nil ?_
    rw [h₉.read, hquot, hsign, hneg (by omega)]

theorem runs_sari_or_mov {ops : List Op} {m : Machine} {Q : Machine → Prop} {r a s : Nat} (hs32 : s < 32)
    (h : ∀ m₁, Sets m m₁ .w32 r ((m.read .w32 a).sshiftRight s) → Runs ops m₁ Q) :
    Runs ((if s ≠ 0 then .sari .w32 r a s else .mov .w32 r a) :: ops) m Q := by
  by_cases hs : s ≠ 0
  · rw [if_pos hs]
    exact Runs.sari hs32 h
  · rw [if_neg hs]
    rw [not_ne_iff.mp hs, BitVec.sshiftRight_zero] at h
    exact Runs.write rfl h

theorem runs_sari_or_skip {m : Machine} {Q : Machine → Prop} {r s : Nat} (hs32 : s < 32)
    (h : ∀ m₁, m₁.read .w32 r = (m.read .w32 r).sshiftRight s →
      (∀ r' : Nat, r' ≠ r → m₁.read .w32 r' = m.read .w32 r') → Q m₁) :
    Runs (if s ≠ 0 then [.sari .w32 r r s] else []) m Q := by
  by_cases hs : s ≠ 0
  · rw [if_pos hs]
    exact Runs.sari hs32 fun m₁ h₁ => Runs.nil (h m₁ h₁.read (h₁.other .w32))
  · rw [if_neg hs]
    refine Runs.nil (h m ?_ fun _ _ => rfl)
    rw [not_ne_iff.mp hs, BitVec.sshiftRight_zero]

theorem runs_signed_mul (hnum : numer < next) (h : SignedDivisor d)
    (htop : ¬ (signedMultiplier d.natAbs).1 / 2 ^ 31 ≠ 0) (m : Machine) :
    Runs (expandSigned32 false result numer next d) m fun m' =>
      m'.read .w32 result = BitVec.ofInt 32 ((m.read .w32 numer).toInt.tdiv d) := by
  obtain ⟨-, hs, hl, hM⟩ := signedMultiplier_magic h.ge h.lt h.pow
  obtain ⟨hpos, hneg⟩ := h.word (m.read .w32 numer)
  have hge := h.ge
  unfold expandSigned32
  generalize signedMultiplier d.natAbs = Ms at *
  obtain ⟨M, s⟩ := Ms
  simp only at hs hM hpos hneg htop ⊢
  rw [Nat.mod_eq_of_lt hM, if_neg htop, if_neg Bool.false_ne_true]
  refine Runs.write rfl fun m₁ h₁ => Runs.sari (by norm_num) fun m₂ h₂ => ?_
  refine Runs.write rfl fun m₃ h₃ => Runs.arith rfl fun m₄ h₄ => ?_
  refine Runs.shri (by norm_num) fun m₅ h₅ => runs_sari_or_mov (by omega) fun m₆ h₆ => ?_
  have hsign : m₆.read .w32 (next + 1) = (m.read .w32 numer).sshiftRight 31 := by
    rw [h₆.other _ _ (by omega), h₅.other _ _ (by omega), h₄.other _ _ (by omega), h₃.other _ _ (by omega), h₂.read,
      h₁.other _ _ (by omega)]
  have hquot : m₆.read .w32 (next + 5) = (BitVec.ofInt 32 ((m.read .w32 numer).toInt * M / 2 ^ 32)).sshiftRight s := by
    rw [h₆.read, h₅.low, h₄.read, h₃.read, h₃.other _ _ (by omega), h₂.other _ _ (by omega), h₁.read, signed_high]
  by_cases hd : d < 0
  · rw [if_pos hd]
    refine Runs.arith rfl fun m₇ h₇ => Runs.nil ?_
    rw [h₇.read, hquot, hsign, hneg hd]
  · rw [if_neg hd]
    refine Runs.arith rfl fun m₇ h₇ => Runs.nil ?_
    rw [h₇.read, hquot, hsign, hpos (by omega)]

/-- The sequence of a 32-bit target, on the fixed registers of the long multiplication. -/
theorem runs_signed_imulx (hnum : numer < next) (h : SignedDivisor d)
    (htop : ¬ (signedMultiplier d.natAbs).1 / 2 ^ 31 ≠ 0) (m : Machine) :
    Runs (expandSigned32 true result numer next d) m fun m' =>
      m'.read .w32 result = BitVec.ofInt 32 ((m.read .w32 numer).toInt.tdiv d) := by
  obtain ⟨-, hs, hl, hM⟩ := signedMultiplier_magic h.ge h.lt h.pow
  obtain ⟨hpos, hneg⟩ := h.word (m.read .w32 numer)
  have hge := h.ge
  unfold expandSigned32
  generalize signedMultiplier d.natAbs = Ms at *
  obtain ⟨M, s⟩ := Ms
  simp only at hs hM hpos hneg htop ⊢
  rw [Nat.mod_eq_of_lt hM, if_neg htop, if_pos trivial]
  simp only [List.append_assoc, List.cons_append, List.nil_append]
  refine Runs.write rfl fun m₁ h₁ => Runs.arith₂ rfl fun m₂ m₃ h₂ h₃ => Runs.write rfl fun m₄ h₄ => ?_
  have hprod : m₄.read .w32 (next + 1) = BitVec.ofInt 32 ((m.read .w32 numer).toInt * M / 2 ^ 32) := by
    have hM31 : (BitVec.ofInt 32 (M : Int)).toInt = M := by
      rw [BitVec.toInt_ofInt, Int.bmod_eq_of_le (by norm_num) (by norm_num; omega)]
    rw [h₄.other _ _ (by omega), h₃.read, h₁.read, h₁.other _ _ (by omega), BitVec.mul_comm]
    show ((BitVec.signExtend 64 _ * BitVec.ofInt 64 (BitVec.ofInt 32 (M : Int)).toInt) >>> 32).setWidth 32 = _
    rw [hM31, signed_high]
  have hnumer : m₄.read .w32 next = m.read .w32 numer := by
    rw [h₄.read, h₃.other _ _ (by omega), h₂.other _ _ (by omega), h₁.other _ _ (by omega)]
  refine Runs.append (runs_sari_or_skip (by omega) fun m₅ h₅ h₅' => ?_)
  refine Runs.shri (by norm_num) fun m₆ h₆ => Runs.arith rfl fun m₇ h₇ => ?_
  have hquot : m₇.read .w32 (next + 1) = (BitVec.ofInt 32 ((m.read .w32 numer).toInt * M / 2 ^ 32)).sshiftRight s -
      (m.read .w32 numer).sshiftRight 31 := by
    rw [h₇.read, h₆.read, h₆.other _ _ (by omega), h₅, hprod, h₅' _ (by omega), hnumer, ushiftRight_sign,
      ← BitVec.sub_eq_add_neg]
  refine Runs.append ?_
  by_cases hd : d < 0
  · rw [if_pos hd]
    refine Runs.flags rfl fun m₈ h₈ _ => Runs.nil (Runs.write rfl fun m₉ h₉ => Runs.nil ?_)
    rw [h₉.read, h₈.read, hquot, ← hneg hd, BitVec.neg_sub, BitVec.add_comm, ← BitVec.sub_eq_add_neg]
  · rw [if_neg hd]
    refine Runs.nil (Runs.write rfl fun m₉ h₉ => Runs.nil ?_)
    rw [h₉.read, hquot, hpos (by omega)]

theorem expandSigned32_runs (hres : result < next) (hnum : numer < next) (h : SignedDivisor d) (target32 : Bool)
    (m : Machine) :
    Runs (expandSigned32 target32 result numer next d) m fun m' =>
      (m'.read .w32 result).toInt = (m.read .w32 numer).toInt.tdiv d := by
  have hge := h.ge
  have hword : Runs (expandSigned32 target32 result numer next d) m fun m' =>
      m'.read .w32 result = BitVec.ofInt 32 ((m.read .w32 numer).toInt.tdiv d) := by
    by_cases htop : (signedMultiplier d.natAbs).1 / 2 ^ 31 ≠ 0
    · exact runs_signed_add hres hnum h target32 htop m
    · cases target32 with
      | false => exact runs_signed_mul hnum h htop m
      | true => exact runs_signed_imulx hnum h htop m
  refine hword.mono fun m' hread => ?_
  rw [hread, toInt_ofInt_tdiv _ (by omega)]

end Signed

/-! ## Unsigned -/

theorem oddPart_spec (fuel t n : Nat) (ht : 0 < t) (hlt : t < 2 ^ fuel) :
    (oddPart fuel t n).1 % 2 = 1 ∧ n ≤ (oddPart fuel t n).2 ∧
      t = (oddPart fuel t n).1 * 2 ^ ((oddPart fuel t n).2 - n) := by
  induction fuel generalizing t n with
  | zero => omega
  | succ fuel ih =>
    rw [oddPart]
    split_ifs with heven
    · obtain ⟨hodd, hle, heq⟩ := ih (t / 2) (n + 1) (by omega) (by rw [pow_succ] at hlt; omega)
      refine ⟨hodd, by omega, ?_⟩
      have hsub : (oddPart fuel (t / 2) (n + 1)).2 - n = (oddPart fuel (t / 2) (n + 1)).2 - (n + 1) + 1 := by omega
      rw [hsub, pow_succ, ← Nat.mul_assoc, ← heq]
      omega
    · refine ⟨by omega, le_rfl, ?_⟩
      rw [Nat.sub_self, pow_zero, Nat.mul_one]

/-- The divisors of the unsigned path. -/
structure UnsignedDivisor (d t k : Nat) : Prop where
  odd : t % 2 = 1
  ge : 3 ≤ t
  lt : d < 2 ^ 31
  eq : d = t * 2 ^ k

theorem UnsignedDivisor.oddPart {d : Nat} (hlt : d < 2 ^ 31) (hpow : ∀ k, d ≠ 2 ^ k) (hd : 0 < d) :
    UnsignedDivisor d (oddPart 32 d 0).1 (oddPart 32 d 0).2 := by
  obtain ⟨hodd, -, heq⟩ := oddPart_spec 32 d 0 hd (by omega)
  rw [Nat.sub_zero] at heq
  refine ⟨hodd, ?_, hlt, heq⟩
  by_contra hsmall
  have hone : (DivRem.oddPart 32 d 0).1 = 1 := by omega
  rw [hone, Nat.one_mul] at heq
  exact hpow _ heq

section Unsigned

variable {result numer next d t k : Nat}

theorem UnsignedDivisor.t_lt (h : UnsignedDivisor d t k) : t < 2 ^ 31 :=
  lt_of_le_of_lt (h.eq ▸ Nat.le_mul_of_pos_right t (Nat.two_pow_pos k)) h.lt

theorem UnsignedDivisor.shift_lt (h : UnsignedDivisor d t k) : log2 t + k ≤ 30 := by
  have hlow := (log2_bounds (show t ≠ 0 by have := h.ge; omega)).1
  by_contra hbig
  have h1 : 2 ^ 31 ≤ 2 ^ (log2 t + k) := Nat.pow_le_pow_right (by norm_num) (by omega)
  have h2 : 2 ^ (log2 t + k) ≤ d := by
    rw [pow_add, h.eq]
    exact Nat.mul_le_mul_right _ hlow
  have := h.lt
  omega

theorem UnsignedDivisor.div (h : UnsignedDivisor d t k) {M p x : Nat}
    (hmagic : Magic t (2 ^ p) M ((2 ^ 32 - 1) / t)) (hx : x < 2 ^ 32) : M * x / 2 ^ (p + k) = x / d := by
  have hge := h.ge
  have hQ := (unsigned_range (show 0 < t by omega) h.t_lt).2.1
  rw [pow_add, ← Nat.div_div_eq_div_mul, hmagic.div (by omega) hQ (unsigned_in_range h.ge h.odd hx),
    Nat.div_div_eq_div_mul, ← h.eq]

theorem unsigned_high_32 (n : BitVec 32) {M : Nat} (hM : M < 2 ^ 32) :
    (((n.setWidth 64 * BitVec.ofInt 64 (M : Int)) >>> 32).setWidth 32).toNat = n.toNat * M / 2 ^ 32 := by
  have hn := n.isLt
  have hprod : n.toNat * M < 2 ^ 64 := by
    calc n.toNat * M ≤ n.toNat * 2 ^ 32 := Nat.mul_le_mul_left _ hM.le
      _ < 2 ^ 32 * 2 ^ 32 := Nat.mul_lt_mul_of_pos_right hn (by norm_num)
      _ = 2 ^ 64 := by norm_num
  have hhigh : n.toNat * M / 2 ^ 32 < 2 ^ 32 := by
    rw [Nat.div_lt_iff_lt_mul (by norm_num)]
    exact hprod
  rw [BitVec.ofInt_natCast, BitVec.toNat_setWidth, BitVec.toNat_ushiftRight, Nat.shiftRight_eq_div_pow,
    BitVec.toNat_mul, BitVec.toNat_setWidth, BitVec.toNat_ofNat, Nat.mod_eq_of_lt (show n.toNat < 2 ^ 64 by omega),
    Nat.mod_eq_of_lt (show M < 2 ^ 64 by omega), Nat.mod_eq_of_lt hprod, Nat.mod_eq_of_lt hhigh]

/-- A `U4` register: the high half is zero. -/
def ZeroExtended (m : Machine) (r : Tn) : Prop := m.regs r = (m.read .w32 r).setWidth 64

theorem runs_unsigned_mul (h : UnsignedDivisor d t k) (hodd : oddPart 32 d 0 = (t, k)) (hnum : numer < next)
    (ha : (unsignedMultiplier t).2.2 = false) (m : Machine) (hzero : ZeroExtended m numer) :
    Runs (expandUnsigned32 result numer next d) m fun m' =>
      (m'.read .w32 result).toNat = (m.read .w32 numer).toNat / d := by
  obtain ⟨hM, hs, hmagic⟩ := (unsignedMultiplier_spec h.ge h.t_lt h.odd).1 ha
  have hk := h.shift_lt
  unfold expandUnsigned32
  simp only [hodd]
  generalize unsignedMultiplier t = r at *
  obtain ⟨M, s, a⟩ := r
  simp only at ha hM hs hmagic ⊢
  rw [ha, if_neg Bool.false_ne_true]
  refine Runs.write rfl fun m₁ h₁ => Runs.arith rfl fun m₂ h₂ => ?_
  refine Runs.shri (by norm_num) fun m₃ h₃ => Runs.shri (show s + k < 32 by omega) fun m₄ h₄ => Runs.nil ?_
  have hnumer : m₁.read .w64 numer = (m.read .w32 numer).setWidth 64 := by
    rw [h₁.other _ _ (by omega), ← hzero]
    exact BitVec.setWidth_eq _
  rw [h₄.read, h₃.low, h₂.read, h₁.read, hnumer, BitVec.toNat_ushiftRight, unsigned_high_32 _ hM,
    Nat.shiftRight_eq_div_pow, Nat.div_div_eq_div_mul, ← pow_add, Nat.mul_comm, ← Nat.add_assoc,
    h.div hmagic (BitVec.isLt _)]

/-- The multiplier with the extra bit. -/
theorem runs_unsigned_average (h : UnsignedDivisor d t k) (hodd : oddPart 32 d 0 = (t, k)) (hnum : numer < next)
    (ha : (unsignedMultiplier t).2.2 = true) (m : Machine) (hzero : ZeroExtended m numer) :
    Runs (expandUnsigned32 result numer next d) m fun m' =>
      (m'.read .w32 result).toNat = (m.read .w32 numer).toNat / d := by
  obtain ⟨hs, hMlow, hMhigh, hmagic⟩ := (unsignedMultiplier_spec h.ge h.t_lt h.odd).2 ha
  have hk := h.shift_lt
  unfold expandUnsigned32
  simp only [hodd]
  generalize unsignedMultiplier t = r at *
  obtain ⟨M, s, a⟩ := r
  simp only at ha hs hMlow hMhigh hmagic ⊢
  rw [ha, if_pos rfl]
  refine Runs.write rfl fun m₁ h₁ => Runs.arith rfl fun m₂ h₂ => ?_
  refine Runs.shri (by norm_num) fun m₃ h₃ => Runs.arith rfl fun m₄ h₄ => ?_
  refine Runs.shri (by norm_num) fun m₅ h₅ => Runs.arith rfl fun m₆ h₆ => ?_
  refine Runs.shri (show s + k < 32 by omega) fun m₇ h₇ => Runs.nil ?_
  have hnumer : m₁.read .w64 numer = (m.read .w32 numer).setWidth 64 := by
    rw [h₁.other _ _ (by omega), ← hzero]
    exact BitVec.setWidth_eq _
  have hnumer' : m₃.read .w32 numer = m.read .w32 numer := by
    rw [h₃.other _ _ (by omega), h₂.other _ _ (by omega), h₁.other _ _ (by omega)]
  set M' := (2 * M + 1) % 2 ^ 32 with hM'
  have hM'eq : 2 * M + 1 = 2 ^ 32 + M' := by omega
  have hp : (m₃.read .w32 next).toNat = (m.read .w32 numer).toNat * M' / 2 ^ 32 := by
    rw [h₃.low, h₂.read, h₁.read, hnumer, unsigned_high_32 _ (by omega)]
  set x := (m.read .w32 numer).toNat with hx
  have hxlt : x < 2 ^ 32 := BitVec.isLt _
  have hple : x * M' / 2 ^ 32 ≤ x := by
    refine Nat.div_le_of_le_mul ?_
    rw [Nat.mul_comm]
    exact Nat.mul_le_mul_right _ (by omega)
  have hsub : (m₅.read .w32 (next + 4)).toNat = (x - x * M' / 2 ^ 32) / 2 := by
    rw [h₅.read, h₄.read, BitVec.toNat_ushiftRight, Nat.shiftRight_eq_div_pow, hnumer',
      BitVec.toNat_sub_of_le (by rw [BitVec.le_def, hp]; exact hple), hp, pow_one]
  have hadd : (m₆.read .w32 (next + 5)).toNat = (2 * M + 1) * x / 2 ^ 33 := by
    rw [h₆.read, BitVec.toNat_add, hsub, h₅.other _ _ (by omega), h₄.other _ _ (by omega), hp, hM'eq,
      ← average_div 32 x (show M' ≤ 2 ^ 32 by omega)]
    refine Nat.mod_eq_of_lt ?_
    show _ < 2 ^ 32
    omega
  rw [h₇.read, BitVec.toNat_ushiftRight, Nat.shiftRight_eq_div_pow, hadd, Nat.div_div_eq_div_mul, ← pow_add,
    ← Nat.add_assoc, h.div hmagic hxlt]

theorem expandUnsigned32_runs (hlt : d < 2 ^ 31) (hpow : ∀ k, d ≠ 2 ^ k) (hd : 0 < d) (hnum : numer < next)
    (m : Machine) (hzero : ZeroExtended m numer) :
    Runs (expandUnsigned32 result numer next d) m fun m' =>
      (m'.read .w32 result).toNat = (m.read .w32 numer).toNat / d := by
  have h := UnsignedDivisor.oddPart hlt hpow hd
  cases ha : (unsignedMultiplier (oddPart 32 d 0).1).2.2 with
  | false => exact runs_unsigned_mul h rfl hnum ha m hzero
  | true => exact runs_unsigned_average h rfl hnum ha m hzero

theorem expandCompare32_runs {v : Int} (hv : 2 ^ 31 ≤ (v % 2 ^ 32).toNat) (hnum : numer < next) (m : Machine) :
    Runs (expandCompare32 result numer next v) m fun m' =>
      (m'.read .w32 result).toNat = (m.read .w32 numer).toNat / (v % 2 ^ 32).toNat := by
  unfold expandCompare32
  refine Runs.write rfl fun m₁ h₁ => Runs.compare rfl fun m₂ h₂ hf₂ => ?_
  refine Runs.writeFlags rfl fun m₃ h₃ hf₃ => Runs.writeFlags rfl fun m₄ h₄ hf₄ => ?_
  refine Runs.sbb (hf₄.trans (hf₃.trans hf₂)) fun m₅ h₅ => Runs.nil ?_
  have hd : (BitVec.ofInt 32 v).toNat = (v % 2 ^ 32).toNat := BitVec.toNat_ofInt ..
  set x := m.read .w32 numer with hx
  have hxlt : x.toNat < 2 ^ 32 := x.isLt
  rw [h₅.read, h₄.read, h₄.other _ _ (by omega), h₃.read, h₁.other _ _ (by omega), h₁.read, ← hx]
  have hult : x.ult (BitVec.ofInt 32 v) = decide (x.toNat < (v % 2 ^ 32).toNat) := by rw [BitVec.ult, hd]
  rw [hult]
  by_cases hlt : x.toNat < (v % 2 ^ 32).toNat
  · rw [decide_eq_true hlt, Nat.div_eq_of_lt hlt]
    show (BitVec.ofInt 32 0 - BitVec.ofInt 32 (-1) - (BitVec.ofBool true).setWidth 32).toNat = 0
    decide
  · rw [decide_eq_false hlt, Nat.div_eq_of_lt_le (k := 1) (by omega) (by omega)]
    show (BitVec.ofInt 32 0 - BitVec.ofInt 32 (-1) - (BitVec.ofBool false).setWidth 32).toNat = 1
    decide

end Unsigned

/-! ## The expansion -/

theorem isPowerOf2_iff {v : Int} {t : Mtype} : isPowerOf2 v t = true ↔ (testedValue t v).isPowerOfTwo := by
  rw [isPowerOf2, Bool.and_eq_true, bne_iff_ne, beq_iff_eq]
  exact Nat.ne_zero_and_sub_one_eq_zero_iff_isPowerOfTwo

theorem signedDivisor_of_i4 {v : Int} (hlow : -2 ^ 31 ≤ v) (hhigh : v < 2 ^ 31) (h0 : v ≠ 0)
    (hpow : ¬ v.natAbs.isPowerOfTwo) : SignedDivisor v := by
  have hne : ∀ k, v.natAbs ≠ 2 ^ k := fun k hk => hpow ⟨k, hk⟩
  have h1 := hne 0
  have h2 := hne 1
  have h31 := hne 31
  exact ⟨by omega, by omega, hne _⟩

/-- Both 32-bit types, for every divisor that is no power of two: the operations run and leave the quotient. -/
theorem expand_divides_32 (t : Target) (hcvrt : t.cvrtIntDivToMult = true) (hopt : t.idivByConstOpt = true)
    {result numer next : Nat} (hres : result < next) (hnum : numer < next) (m : Machine) :
    (∀ v : Int, -2 ^ 31 ≤ v → v < 2 ^ 31 → v ≠ 0 → ¬ v.natAbs.isPowerOfTwo →
      ∃ ops, expandIntegerDivideByConstant t result numer next v .i4 = some ops ∧
        Runs ops m fun m' => (m'.read .w32 result).toInt = (m.read .w32 numer).toInt.tdiv v) ∧
    (∀ v : Int, (v % 2 ^ 32).toNat ≠ 0 → ¬ (v % 2 ^ 32).toNat.isPowerOfTwo → ZeroExtended m numer →
      ∃ ops, expandIntegerDivideByConstant t result numer next v .u4 = some ops ∧
        Runs ops m fun m' => (m'.read .w32 result).toNat = (m.read .w32 numer).toNat / (v % 2 ^ 32).toNat) := by
  refine ⟨fun v hlow hhigh h0 hpow => ?_, fun v h0 hpow hzero => ?_⟩
  · have hdiv := signedDivisor_of_i4 hlow hhigh h0 hpow
    have hge := hdiv.ge
    have hpow' : ¬ isPowerOf2 v .i4 = true := fun h => hpow (isPowerOf2_iff.mp h)
    refine ⟨expandSigned32 t.is32bit result numer next v, ?_, expandSigned32_runs hres hnum hdiv _ m⟩
    unfold expandIntegerDivideByConstant
    rw [if_neg (by omega), if_neg (by omega), if_neg hpow', if_neg (by simp [hcvrt]),
      if_pos (by simp [Mtype.isDouble, hopt])]
    rfl
  · have h1 : v ≠ 1 := by
      rintro rfl
      exact hpow ⟨0, rfl⟩
    have hpow' : ¬ isPowerOf2 v .u4 = true := fun h => hpow (isPowerOf2_iff.mp h)
    have hchoice : expandIntegerDivideByConstant t result numer next v .u4 =
        if (v % 2 ^ 32).toNat < 2 ^ 31 then some (expandUnsigned32 result numer next (v % 2 ^ 32).toNat)
        else some (expandCompare32 result numer next v) := by
      unfold expandIntegerDivideByConstant
      rw [if_neg h1, if_neg (by simp [Mtype.isSigned]), if_neg hpow',
        if_neg (by simp [hcvrt]), if_pos (by simp [Mtype.isDouble, hopt]), if_neg (by simp [Mtype.isSigned])]
      rfl
    rw [hchoice]
    by_cases hlt : (v % 2 ^ 32).toNat < 2 ^ 31
    · rw [if_pos hlt]
      exact ⟨_, rfl, expandUnsigned32_runs hlt (fun k hk => hpow ⟨k, hk⟩) (by omega) hnum m hzero⟩
    · rw [if_neg hlt]
      exact ⟨_, rfl, expandCompare32_runs (by omega) hnum m⟩

/-- A multiplier with the extra bit: 100 divided by -7 and by 7. -/
theorem expand_divides_32_seven :
    (∃ ops, expandIntegerDivideByConstant ⟨true, true, false⟩ 0 1 2 (-7) .i4 = some ops ∧
      Runs ops ⟨fun _ => 100, none⟩ fun m' => (m'.read .w32 0).toInt = -14) ∧
    ∃ ops, expandIntegerDivideByConstant ⟨true, true, false⟩ 0 1 2 7 .u4 = some ops ∧
      Runs ops ⟨fun _ => 100, none⟩ fun m' => (m'.read .w32 0).toNat = 14 := by
  obtain ⟨hsigned, hunsigned⟩ := expand_divides_32 ⟨true, true, false⟩ rfl rfl (show 0 < 2 by decide)
    (show 1 < 2 by decide) ⟨fun _ => 100, none⟩
  exact ⟨hsigned (-7) (by decide) (by decide) (by decide) (by decide),
    hunsigned 7 (by decide) (by decide) rfl⟩

end Path64.DivRem

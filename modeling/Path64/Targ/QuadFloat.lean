import Mathlib.Data.BitVec
import Mathlib.Tactic.IntervalCases
import Mathlib.Tactic.Ring
import Mathlib.Tactic.SplitIfs

/-!
# Integers and 128-bit floats

`U8_To_F16`, `I8_To_F16`, `F16_To_U8` and `F16_To_I8` of `targ_const.cxx`, on words of 32 bits.

* `F16Type` : the four words; `f4ToF16` : the single float with the given bits;
* `normalize` : the loop that shifts the leading bit to the top; `normalize_eq` : it gets there;
* `u8ToF16`, `i8ToF16`, `f16ToU8`, `f16ToI8` : the functions;
* `quadPattern` : the pattern of an integer; `bits_pack` : that the words of the conversions are this pattern;
* `conversions_iff` : the integers that survive.
-/

namespace Path64.Targ

/-! ## The conversions -/

/-- `F16_TYPE`. -/
structure F16Type where
  qval0 : BitVec 32
  qval1 : BitVec 32
  qval2 : BitVec 32
  qval3 : BitVec 32
  deriving DecidableEq, Repr

/-- `F4_To_F16`, of the single float with the bits `sval`. -/
def f4ToF16 (sval : BitVec 32) : F16Type where
  qval0 := 0
  qval1 := 0
  qval2 := (sval <<< 25) &&& 0xfe000000#32
  qval3 := ((((sval <<< 1).sshiftRight 8) &&& 0x7fffffff#32) ^^^ 0x3f800000#32) ||| (sval &&& 0x80000000#32)

/-- `while (sx > 0)`, for at most so many turns. -/
def normalize : Nat → BitVec 32 → BitVec 64 → BitVec 32 × BitVec 64
  | 0, expon, sx => (expon, sx)
  | n + 1, expon, sx => if (0#64).slt sx then normalize n (expon - 1) (sx <<< 1) else (expon, sx)

/-- The words of a sign, an exponent and a mantissa. -/
def pack (sign expon : BitVec 32) (sx : BitVec 64) : F16Type where
  qval0 := 0
  qval1 := (sx <<< 17).setWidth 32 &&& 0xfffe0000#32
  qval2 := (sx.sshiftRight 15).setWidth 32
  qval3 := ((expon <<< 16) &&& 0x7fff0000#32) ||| (sign <<< 31) ||| (sx.sshiftRight 47 &&& 0xffff#64).setWidth 32

/-- `U8_To_F16`. -/
def u8ToF16 (x : BitVec 64) : F16Type :=
  if x = 0 then f4ToF16 0
  else
    let r := normalize 63 (63 + 0x3fff) x
    pack 0 r.1 r.2

/-- `I8_To_F16`. -/
def i8ToF16 (sx : BitVec 64) : F16Type :=
  if sx = 0 then f4ToF16 0
  else
    let sign := sx.slt 0
    let sx := if sign then -sx else sx
    let r := normalize 63 (63 + 0x3fff) sx
    pack (if sign then 1 else 0) r.1 r.2

/-- `F16_To_U8`; a count outside the range is taken modulo 64, as the host does. -/
def f16ToU8 (q : F16Type) : BitVec 64 :=
  let sign := q.qval3 &&& 0x80000000#32
  let expon := (q.qval3.sshiftRight 16 &&& 0x7fff#32) - 0x3fff#32
  if expon.slt 0 then 0
  else
    let x := 1#64
    let x := (x <<< 16) ||| (q.qval3 &&& 0xffff#32).signExtend 64
    let x := (x <<< 32) ||| q.qval2.signExtend 64
    let x := (x <<< 15) ||| (q.qval1.sshiftRight 17 &&& 0x1ffff#32).signExtend 64
    let x := x >>> ((63 - expon).toNat % 64)
    if sign ≠ 0 then -x else x

/-- `F16_To_I8`. -/
def f16ToI8 (q : F16Type) : BitVec 64 := f16ToU8 q

/-- The four words together. -/
def F16Type.bits (q : F16Type) : BitVec 128 := q.qval3 ++ q.qval2 ++ q.qval1 ++ q.qval0

/-! ## The pattern of an integer -/

/-- The 128-bit pattern of `n` or `-n`: sign, biased exponent, and the mantissa without its leading bit. -/
def quadPattern (negative : Bool) (n : Nat) : BitVec 128 :=
  if n = 0 then 0
  else BitVec.ofBool negative ++ BitVec.ofNat 15 (16383 + n.log2) ++
    BitVec.ofNat 112 ((n - 2 ^ n.log2) * 2 ^ (112 - n.log2))

/-! ## The loop -/

/-- A word with its leading bit at `63 - k` is shifted `k` times. -/
theorem normalize_eq {n k : Nat} (hk : k ≤ n) (expon : BitVec 32) {sx : BitVec 64} (hlow : 2 ^ 63 ≤ sx.toNat * 2 ^ k)
    (hhigh : sx.toNat * 2 ^ k < 2 ^ 64) : normalize n expon sx = (expon - BitVec.ofNat 32 k, sx <<< k) := by
  induction k generalizing n expon sx with
  | zero =>
    have hneg : (0#64).slt sx = false := by
      rw [pow_zero, mul_one] at hlow
      rw [BitVec.slt_eq_decide, decide_eq_false_iff_not, BitVec.toInt_zero, BitVec.toInt_eq_toNat_cond]
      split_ifs <;> omega
    have hzero : (expon - BitVec.ofNat 32 0, sx <<< 0) = (expon, sx) := by simp
    rw [hzero]
    cases n with
    | zero => rfl
    | succ n => rw [normalize, hneg, if_neg Bool.false_ne_true]
  | succ k ih =>
    obtain ⟨m, rfl⟩ : ∃ m, n = m + 1 := ⟨n - 1, by omega⟩
    have hsmall : sx.toNat < 2 ^ 63 := by
      have hle : sx.toNat * 2 ^ 1 ≤ sx.toNat * 2 ^ (k + 1) :=
        Nat.mul_le_mul_left _ (Nat.pow_le_pow_right (by omega) (by omega))
      omega
    have hpos : 0 < sx.toNat := by
      rcases Nat.eq_zero_or_pos sx.toNat with h | h
      · rw [h, Nat.zero_mul] at hlow
        omega
      · exact h
    have hslt : (0#64).slt sx = true := by
      rw [BitVec.slt_eq_decide, decide_eq_true_iff, BitVec.toInt_zero, BitVec.toInt_eq_toNat_cond]
      split_ifs <;> omega
    have hdouble : (sx <<< 1).toNat = sx.toNat * 2 := by
      rw [BitVec.toNat_shiftLeft, Nat.shiftLeft_eq, pow_one, Nat.mod_eq_of_lt (by omega)]
    have hpow : (sx <<< 1).toNat * 2 ^ k = sx.toNat * 2 ^ (k + 1) := by rw [hdouble, pow_succ']; ring
    rw [normalize, hslt, if_pos rfl, ih (by omega) (expon - 1) (hpow ▸ hlow) (hpow ▸ hhigh)]
    refine Prod.ext ?_ ?_
    · simp only
      rw [show BitVec.ofNat 32 (k + 1) = BitVec.ofNat 32 k + 1 from BitVec.ofNat_add ..]
      bv_omega
    · simp only
      rw [← BitVec.shiftLeft_add, Nat.add_comm]

theorem log2_bounds {x : BitVec 64} (hx : x ≠ 0) : x.toNat.log2 ≤ 63 ∧
    2 ^ 63 ≤ x.toNat * 2 ^ (63 - x.toNat.log2) ∧ x.toNat * 2 ^ (63 - x.toNat.log2) < 2 ^ 64 := by
  have hne : x.toNat ≠ 0 := fun h => hx (BitVec.eq_of_toNat_eq h)
  have hle : x.toNat.log2 ≤ 63 := by
    have hlt : 2 ^ x.toNat.log2 < 2 ^ 64 := (Nat.log2_self_le hne).trans_lt x.isLt
    have := (Nat.pow_lt_pow_iff_right (by omega)).mp hlt
    omega
  refine ⟨hle, ?_, ?_⟩
  · calc 2 ^ 63 = 2 ^ x.toNat.log2 * 2 ^ (63 - x.toNat.log2) := by rw [← pow_add]; congr 1; omega
      _ ≤ _ := Nat.mul_le_mul_right _ (Nat.log2_self_le hne)
  · calc x.toNat * 2 ^ (63 - x.toNat.log2) < 2 ^ (x.toNat.log2 + 1) * 2 ^ (63 - x.toNat.log2) :=
        Nat.mul_lt_mul_of_pos_right Nat.lt_log2_self (Nat.two_pow_pos _)
      _ = 2 ^ 64 := by rw [← pow_add]; congr 1; omega

theorem normalize_log2 (expon : BitVec 32) {x : BitVec 64} (hx : x ≠ 0) :
    normalize 63 expon x = (expon - BitVec.ofNat 32 (63 - x.toNat.log2), x <<< (63 - x.toNat.log2)) := by
  obtain ⟨-, hlow, hhigh⟩ := log2_bounds hx
  exact normalize_eq (Nat.sub_le 63 _) expon hlow hhigh

/-! ## The words -/

/-- The bits of the words: from the mantissa, the exponent and the sign. -/
theorem getLsbD_qval1 (sign expon : BitVec 32) (sx : BitVec 64) {i : Nat} (hi : i < 32) :
    (pack sign expon sx).qval1.getLsbD i = (decide (17 ≤ i) && sx.getLsbD (i - 17)) := by
  have hmask : 0xfffe0000#32 = BitVec.allOnes 32 <<< 17 := by decide
  unfold pack
  simp only [hmask, BitVec.getLsbD_and, BitVec.getLsbD_setWidth, BitVec.getLsbD_shiftLeft, BitVec.getLsbD_allOnes]
  by_cases h : 17 ≤ i
  · simp [h, hi, show i < 64 by omega, show ¬i < 17 by omega, show i - 17 < 32 by omega]
  · simp [h, show i < 17 by omega]

theorem getLsbD_qval2 (sign expon : BitVec 32) (sx : BitVec 64) {i : Nat} (hi : i < 32) :
    (pack sign expon sx).qval2.getLsbD i = sx.getLsbD (15 + i) := by
  unfold pack
  simp only [BitVec.getLsbD_setWidth, BitVec.getLsbD_sshiftRight, if_pos (show 15 + i < 64 by omega)]
  simp [hi, show ¬64 ≤ i by omega]

theorem getLsbD_qval3 (negative : Bool) (expon : BitVec 32) (sx : BitVec 64) {i : Nat} (hi : i < 32) :
    (pack (if negative then 1 else 0) expon sx).qval3.getLsbD i =
      if i < 16 then sx.getLsbD (47 + i) else if i < 31 then expon.getLsbD (i - 16) else negative := by
  have hhigh : 0x7fff0000#32 = (BitVec.allOnes 32 >>> 17) <<< 16 := by decide
  have hlow : 0xffff#64 = BitVec.allOnes 64 >>> 48 := by decide
  have hsign : ((if negative then 1 else 0 : BitVec 32) <<< 31).getLsbD i = (decide (i = 31) && negative) := by
    rw [BitVec.getLsbD_shiftLeft]
    by_cases h : i = 31
    · subst h
      cases negative <;> rfl
    · simp [h, hi, show i < 31 by omega]
  unfold pack
  rw [hhigh, hlow]
  simp only [BitVec.getLsbD_or, hsign, BitVec.getLsbD_and, BitVec.getLsbD_setWidth, BitVec.getLsbD_shiftLeft,
    BitVec.getLsbD_ushiftRight, BitVec.getLsbD_allOnes, BitVec.getLsbD_sshiftRight]
  by_cases h1 : i < 16
  · rw [if_pos h1, if_pos (show 47 + i < 64 by omega)]
    simp [h1, hi, show ¬i = 31 by omega, show ¬64 ≤ i by omega, show 48 + i < 64 by omega]
  · rw [if_neg h1]
    by_cases h2 : i < 31
    · rw [if_pos h2]
      simp [h1, hi, show ¬i = 31 by omega, show ¬48 + i < 64 by omega, show 17 + (i - 16) < 32 by omega]
    · rw [if_neg h2]
      have hlast : i = 31 := by omega
      simp [hlast]

/-- The mantissa, left-aligned without its leading bit. -/
def mantissa (sx : BitVec 64) : BitVec 112 := (sx.setWidth 63).setWidth 112 <<< 49

/-- The four words are the sign, the exponent and the mantissa. -/
theorem bits_pack (negative : Bool) (expon : BitVec 32) (sx : BitVec 64) :
    (pack (if negative then 1 else 0) expon sx).bits =
      BitVec.ofBool negative ++ expon.setWidth 15 ++ mantissa sx := by
  apply BitVec.eq_of_getLsbD_eq
  intro i hi
  have hmant : ∀ j < 112, (mantissa sx).getLsbD j = (decide (49 ≤ j) && decide (j < 112) && sx.getLsbD (j - 49)) :=
    fun j hj => by
    unfold mantissa
    simp only [BitVec.getLsbD_shiftLeft, BitVec.getLsbD_setWidth]
    by_cases h : 49 ≤ j
    · simp [h, hj, show ¬j < 49 by omega, show j - 49 < 63 by omega, show j - 49 < 112 by omega]
    · simp [h, show j < 49 by omega]
  unfold F16Type.bits
  rw [BitVec.getLsbD_append, BitVec.getLsbD_append, BitVec.getLsbD_append, BitVec.getLsbD_append,
    BitVec.getLsbD_append, BitVec.getLsbD_setWidth, BitVec.getLsbD_ofBool]
  by_cases h0 : i < 32
  · rw [if_pos h0, if_pos (show i < 112 by omega), hmant i (by omega), decide_eq_false (show ¬49 ≤ i by omega)]
    exact BitVec.getLsbD_zero
  rw [if_neg h0]
  by_cases h1 : i - 32 < 32
  · rw [if_pos h1, if_pos (show i < 112 by omega), hmant i (by omega), getLsbD_qval1 _ _ _ h1,
      decide_eq_true (show i < 112 by omega), Bool.and_true, show i - 32 - 17 = i - 49 by omega]
    congr 1
    exact decide_eq_decide.mpr (by omega)
  rw [if_neg h1]
  by_cases h2 : i - 32 - 32 < 32
  · rw [if_pos h2, if_pos (show i < 112 by omega), hmant i (by omega), getLsbD_qval2 _ _ _ h2,
      decide_eq_true (show i < 112 by omega), decide_eq_true (show 49 ≤ i by omega),
      show 15 + (i - 32 - 32) = i - 49 by omega]
    rfl
  rw [if_neg h2, getLsbD_qval3 _ _ _ (show i - 32 - 32 - 32 < 32 by omega)]
  by_cases h3 : i < 112
  · rw [if_pos h3, if_pos (show i - 32 - 32 - 32 < 16 by omega), hmant i h3, decide_eq_true h3,
      decide_eq_true (show 49 ≤ i by omega), show 47 + (i - 32 - 32 - 32) = i - 49 by omega]
    rfl
  rw [if_neg h3, if_neg (show ¬i - 32 - 32 - 32 < 16 by omega)]
  by_cases h4 : i - 112 < 15
  · rw [if_pos h4, if_pos (show i - 32 - 32 - 32 < 31 by omega), decide_eq_true h4,
      show i - 32 - 32 - 32 - 16 = i - 112 by omega]
    rfl
  · rw [if_neg h4, if_neg (show ¬i - 32 - 32 - 32 < 31 by omega), decide_eq_true (show i - 112 - 15 = 0 by omega)]
    rfl

theorem mantissa_log2 {x : BitVec 64} (hx : x ≠ 0) : mantissa (x <<< (63 - x.toNat.log2)) =
    BitVec.ofNat 112 ((x.toNat - 2 ^ x.toNat.log2) * 2 ^ (112 - x.toNat.log2)) := by
  obtain ⟨hle, -⟩ := log2_bounds hx
  have hne : x.toNat ≠ 0 := fun h => hx (BitVec.eq_of_toNat_eq h)
  have hlow := Nat.log2_self_le hne
  have hhigh : x.toNat < 2 ^ (x.toNat.log2 + 1) := Nat.lt_log2_self
  generalize x.toNat.log2 = l at *
  obtain ⟨y, hy⟩ : ∃ y, x.toNat = 2 ^ l + y := ⟨x.toNat - 2 ^ l, by omega⟩
  have hylt : y < 2 ^ l := by rw [pow_succ] at hhigh; omega
  have htop : 2 ^ l * 2 ^ (63 - l) = 2 ^ 63 := by rw [← pow_add]; congr 1; omega
  have hrest : y * 2 ^ (63 - l) < 2 ^ 63 :=
    (Nat.mul_lt_mul_of_pos_right hylt (Nat.two_pow_pos _)).trans_eq htop
  have hshift : (x <<< (63 - l)).toNat = 2 ^ 63 + y * 2 ^ (63 - l) := by
    rw [BitVec.toNat_shiftLeft, Nat.shiftLeft_eq, hy, Nat.add_mul, htop, Nat.mod_eq_of_lt (by omega)]
  have halign : y * 2 ^ (63 - l) * 2 ^ 49 = y * 2 ^ (112 - l) := by
    rw [Nat.mul_assoc, ← pow_add]
    congr 2
    omega
  apply BitVec.eq_of_toNat_eq
  rw [mantissa, BitVec.toNat_shiftLeft, BitVec.toNat_setWidth, BitVec.toNat_setWidth, hshift, BitVec.toNat_ofNat, hy,
    Nat.add_sub_cancel_left, Nat.add_mod_left, Nat.mod_eq_of_lt hrest, Nat.mod_eq_of_lt (hrest.trans (by norm_num)),
    Nat.shiftLeft_eq, halign]

theorem pack_eq_pattern (negative : Bool) {x : BitVec 64} (hx : x ≠ 0) :
    (pack (if negative then 1 else 0) (normalize 63 (63 + 0x3fff) x).1 (normalize 63 (63 + 0x3fff) x).2).bits =
      quadPattern negative x.toNat := by
  obtain ⟨hle, -⟩ := log2_bounds hx
  have hne : x.toNat ≠ 0 := fun h => hx (BitVec.eq_of_toNat_eq h)
  have hexpon : (63 + 0x3fff - BitVec.ofNat 32 (63 - x.toNat.log2) : BitVec 32).setWidth 15 =
      BitVec.ofNat 15 (16383 + x.toNat.log2) := by
    have hbias : (63 + 0x3fff : BitVec 32) = BitVec.ofNat 32 16446 := by decide
    apply BitVec.eq_of_toNat_eq
    simp only [hbias, BitVec.toNat_setWidth, BitVec.toNat_sub, BitVec.toNat_ofNat]
    omega
  rw [normalize_log2 _ hx, bits_pack, hexpon, mantissa_log2 hx, quadPattern, if_neg hne]

/-! ## The way back -/

theorem getLsbD_leading (negative : Bool) (expon : BitVec 32) (sx : BitVec 64) {q : F16Type}
    (hq : q = pack (if negative then 1 else 0) expon sx) {j : Nat} (hj : j < 64) :
    ((1#64 <<< 16) ||| (q.qval3 &&& 0xffff#32).signExtend 64).getLsbD j =
      if j < 16 then sx.getLsbD (47 + j) else decide (j = 16) := by
  have hmask : 0xffff#32 = BitVec.allOnes 32 >>> 16 := by decide
  have hmsb : (q.qval3 &&& 0xffff#32).msb = false := by
    rw [BitVec.msb_and, show (0xffff#32).msb = false from rfl, Bool.and_false]
  rw [BitVec.getLsbD_or, BitVec.getLsbD_shiftLeft, BitVec.getLsbD_signExtend, hmsb, BitVec.getLsbD_and, hmask,
    BitVec.getLsbD_ushiftRight, BitVec.getLsbD_allOnes, BitVec.getLsbD_one]
  by_cases h : j < 16
  · rw [if_pos h, if_pos (by omega), hq, getLsbD_qval3 _ _ _ (by omega), if_pos h]
    simp [h, hj, show 16 + j < 32 by omega]
  · rw [if_neg h]
    by_cases h' : j = 16
    · simp [h']
    · simp [h, h', show ¬16 + j < 32 by omega, show ¬j - 16 = 0 by omega]

theorem getLsbD_middle (negative : Bool) (expon : BitVec 32) (sx : BitVec 64) {q : F16Type}
    (hq : q = pack (if negative then 1 else 0) expon sx) {j : Nat} (hj : j < 64) :
    ((((1#64 <<< 16) ||| (q.qval3 &&& 0xffff#32).signExtend 64) <<< 32) ||| q.qval2.signExtend 64).getLsbD j =
      if j < 32 then sx.getLsbD (15 + j)
      else (if j - 32 < 16 then sx.getLsbD (15 + j) else decide (j = 48)) || sx.getLsbD 46 := by
  have hmsb : q.qval2.msb = sx.getLsbD 46 := by
    rw [BitVec.msb_eq_getLsbD_last, hq, getLsbD_qval2 _ _ _ (by omega)]
  rw [BitVec.getLsbD_or, BitVec.getLsbD_shiftLeft, BitVec.getLsbD_signExtend, hmsb]
  by_cases h : j < 32
  · rw [if_pos h, if_pos h, hq, getLsbD_qval2 _ _ _ h]
    simp [h, hj]
  · rw [if_neg h, if_neg h, getLsbD_leading negative expon sx hq (by omega), show 47 + (j - 32) = 15 + j by omega]
    simp only [hj, h, decide_true, decide_false, Bool.not_false, Bool.true_and]
    congr 2
    exact decide_eq_decide.mpr (by omega)

/-- What the way back makes of a mantissa: bit 46 goes to all bits above it, and bit 14 to the two above it. -/
theorem getLsbD_restored (negative : Bool) (expon : BitVec 32) (sx : BitVec 64) {q : F16Type}
    (hq : q = pack (if negative then 1 else 0) expon sx) {i : Nat} (hi : i < 64) :
    ((((((1#64 <<< 16) ||| (q.qval3 &&& 0xffff#32).signExtend 64) <<< 32) ||| q.qval2.signExtend 64) <<< 15) |||
        (q.qval1.sshiftRight 17 &&& 0x1ffff#32).signExtend 64).getLsbD i =
      if i = 63 then true
      else sx.getLsbD i || (decide (47 ≤ i) && sx.getLsbD 46) || (decide (i = 15 ∨ i = 16) && sx.getLsbD 14) := by
  have hmask : 0x1ffff#32 = BitVec.allOnes 32 >>> 15 := by decide
  have hmsb : (q.qval1.sshiftRight 17 &&& 0x1ffff#32).msb = false := by
    rw [BitVec.msb_and, show (0x1ffff#32).msb = false from rfl, Bool.and_false]
  have hlow : ((q.qval1.sshiftRight 17 &&& 0x1ffff#32).signExtend 64).getLsbD i =
      if i < 15 then sx.getLsbD i else decide (i = 15 ∨ i = 16) && sx.getLsbD 14 := by
    have hsign : q.qval1.msb = sx.getLsbD 14 := by
      rw [BitVec.msb_eq_getLsbD_last, hq, getLsbD_qval1 _ _ _ (by omega)]
      rfl
    rw [BitVec.getLsbD_signExtend, hmsb, BitVec.getLsbD_and, hmask, BitVec.getLsbD_ushiftRight,
      BitVec.getLsbD_allOnes, BitVec.getLsbD_sshiftRight, hsign]
    by_cases h : i < 15
    · rw [if_pos (by omega), if_pos (by omega), if_pos h, hq, getLsbD_qval1 _ _ _ (by omega),
        Nat.add_sub_cancel_left]
      simp [hi, show ¬32 ≤ i by omega, show 15 + i < 32 by omega]
    · rw [if_neg (show ¬17 + i < 32 by omega), if_neg h]
      by_cases h' : i < 32
      · simp [hi, h', show ¬32 ≤ i by omega, show (15 + i < 32) ↔ (i = 15 ∨ i = 16) by omega, Bool.and_comm]
      · simp [h', show ¬(i = 15 ∨ i = 16) by omega]
  rw [BitVec.getLsbD_or, hlow, BitVec.getLsbD_shiftLeft]
  by_cases h : i < 15
  · simp [h, show ¬i = 63 by omega, show ¬47 ≤ i by omega, show ¬(i = 15 ∨ i = 16) by omega]
  rw [if_neg h, getLsbD_middle negative expon sx hq (by omega), show 15 + (i - 15) = i by omega]
  by_cases h1 : i < 47
  · simp [h, hi, show i - 15 < 32 by omega, show ¬i = 63 by omega, show ¬47 ≤ i by omega]
  · by_cases h2 : i = 63
    · simp [h2]
    · simp [h, hi, h2, show ¬i - 15 < 32 by omega, show i - 15 - 32 < 16 by omega, show 47 ≤ i by omega,
        show ¬(i = 15 ∨ i = 16) by omega]

/-- Bit 46 of a mantissa is set with all above it, or not at all; bit 14 with the two above it. -/
def KeepsBits (sx : BitVec 64) : Prop :=
  (sx.getLsbD 46 → ∀ i, 47 ≤ i → i < 63 → sx.getLsbD i) ∧ (sx.getLsbD 14 → sx.getLsbD 15 ∧ sx.getLsbD 16)

/-- The sign and the exponent are read back. -/
theorem f16ToU8_pack (negative : Bool) {k : Nat} (hk : k ≤ 63) (sx : BitVec 64) {q : F16Type}
    (hq : q = pack (if negative then 1 else 0) (63 + 0x3fff - BitVec.ofNat 32 k) sx) {m : BitVec 64}
    (hm : m = ((((((1#64 <<< 16) ||| (q.qval3 &&& 0xffff#32).signExtend 64) <<< 32) ||| q.qval2.signExtend 64) <<< 15) |||
        (q.qval1.sshiftRight 17 &&& 0x1ffff#32).signExtend 64)) :
    f16ToU8 q = if negative then -(m >>> k) else m >>> k := by
  have hexpon : q.qval3.sshiftRight 16 &&& 0x7fff#32 = 63 + 0x3fff - BitVec.ofNat 32 k := by
    have hmask : 0x7fff#32 = BitVec.allOnes 32 >>> 17 := by decide
    have hsmall : (63 + 0x3fff - BitVec.ofNat 32 k : BitVec 32).toNat < 2 ^ 15 := by
      have hbias : (63 + 0x3fff : BitVec 32) = BitVec.ofNat 32 16446 := by decide
      simp only [hbias, BitVec.toNat_sub, BitVec.toNat_ofNat]
      omega
    apply BitVec.eq_of_getLsbD_eq
    intro i hi
    rw [BitVec.getLsbD_and, hmask, BitVec.getLsbD_ushiftRight, BitVec.getLsbD_allOnes, BitVec.getLsbD_sshiftRight]
    by_cases h : i < 15
    · rw [if_pos (by omega), hq, getLsbD_qval3 _ _ _ (by omega), if_neg (by omega), if_pos (by omega),
        Nat.add_sub_cancel_left]
      simp [show ¬32 ≤ i by omega, show 17 + i < 32 by omega]
    · rw [decide_eq_false (show ¬17 + i < 32 by omega), Bool.and_false, BitVec.getLsbD,
        Nat.testBit_lt_two_pow (hsmall.trans_le (Nat.pow_le_pow_right (by omega) (by omega)))]
  have hsign : (q.qval3 &&& 0x80000000#32 ≠ 0) ↔ negative = true := by
    have hbit : (q.qval3 &&& 0x80000000#32) = if negative then 0x80000000#32 else 0 := by
      have hmask : 0x80000000#32 = BitVec.twoPow 32 31 := by decide
      have hbit : q.qval3.getLsbD 31 = negative := by
        rw [hq, getLsbD_qval3 _ _ _ (by omega)]
        rfl
      rw [hmask, BitVec.and_twoPow, hbit]
      rfl
    rw [hbit]
    cases negative <;> decide
  have hcount : (63 + 0x3fff - BitVec.ofNat 32 k - 0x3fff#32 : BitVec 32) = BitVec.ofNat 32 (63 - k) := by
    have hbias : (63 + 0x3fff : BitVec 32) = BitVec.ofNat 32 16446 := by decide
    rw [hbias]
    apply BitVec.eq_of_toNat_eq
    simp only [BitVec.toNat_sub, BitVec.toNat_ofNat]
    omega
  have hnonneg : (BitVec.ofNat 32 (63 - k)).slt 0#32 = false := by
    rw [BitVec.slt_eq_decide, decide_eq_false_iff_not, BitVec.toInt_zero, BitVec.toInt_eq_toNat_cond,
      BitVec.toNat_ofNat]
    split_ifs <;> omega
  have hshift : ((63 : BitVec 32) - BitVec.ofNat 32 (63 - k)).toNat % 64 = k := by
    rw [BitVec.toNat_sub, BitVec.toNat_ofNat, show (63 : BitVec 32).toNat = 63 from rfl]
    omega
  unfold f16ToU8
  simp only [hexpon, hcount, hshift, hsign, ← hm]
  exact if_neg (Bool.eq_false_iff.mp hnonneg)

/-- What comes back is what went in just when the mantissa keeps its bits. -/
theorem restored_eq_iff (negative : Bool) (expon : BitVec 32) {x m : BitVec 64} {k : Nat} {q : F16Type}
    (hlow : 2 ^ 63 ≤ x.toNat * 2 ^ k) (hhigh : x.toNat * 2 ^ k < 2 ^ 64)
    (hq : q = pack (if negative then 1 else 0) expon (x <<< k))
    (hm : m = ((((((1#64 <<< 16) ||| (q.qval3 &&& 0xffff#32).signExtend 64) <<< 32) ||| q.qval2.signExtend 64) <<< 15) |||
        (q.qval1.sshiftRight 17 &&& 0x1ffff#32).signExtend 64)) :
    m >>> k = x ↔ KeepsBits (x <<< k) := by
  have hback : x <<< k >>> k = x := by
    apply BitVec.eq_of_toNat_eq
    rw [BitVec.toNat_ushiftRight, BitVec.toNat_shiftLeft, Nat.shiftLeft_eq, Nat.mod_eq_of_lt hhigh,
      Nat.shiftRight_eq_div_pow, Nat.mul_div_cancel _ (Nat.two_pow_pos k)]
  have htop : (x <<< k).getLsbD 63 = true := by
    have hmsb : (x <<< k).msb = true := by
      rw [BitVec.msb_eq_decide, decide_eq_true_iff, BitVec.toNat_shiftLeft, Nat.shiftLeft_eq, Nat.mod_eq_of_lt hhigh]
      exact hlow
    rw [← hmsb, BitVec.msb_eq_getLsbD_last]
  have hbits : ∀ i < 64, m.getLsbD i = ((x <<< k).getLsbD i || (decide (47 ≤ i) && (x <<< k).getLsbD 46) ||
      (decide (i = 15 ∨ i = 16) && (x <<< k).getLsbD 14)) := fun i hi => by
    rw [hm, getLsbD_restored negative expon (x <<< k) hq hi]
    split_ifs with h
    · rw [h, htop]
      rfl
    · rfl
  have hbelow : ∀ i < k, (x <<< k).getLsbD i = false := fun i hi => by
    rw [BitVec.getLsbD_shiftLeft, decide_eq_true hi, Bool.not_true, Bool.and_false, Bool.false_and]
  have heq : m >>> k = x ↔ ∀ i, k ≤ i → i < 64 → m.getLsbD i = (x <<< k).getLsbD i := by
    constructor
    · intro h i hk hi
      have hbit := congrArg (fun y : BitVec 64 => y.getLsbD (i - k)) (h.trans hback.symm)
      simp only [BitVec.getLsbD_ushiftRight, Nat.add_sub_cancel' hk] at hbit
      exact hbit
    · intro h
      rw [← hback]
      apply BitVec.eq_of_getLsbD_eq
      intro i hi
      rw [BitVec.getLsbD_ushiftRight, BitVec.getLsbD_ushiftRight]
      by_cases hlt : k + i < 64
      · exact h _ (Nat.le_add_right k i) hlt
      · rw [BitVec.getLsbD_of_ge _ _ (Nat.le_of_not_lt hlt), BitVec.getLsbD_of_ge _ _ (Nat.le_of_not_lt hlt)]
  rw [heq]
  constructor
  · intro h
    have hle : ∀ i, (x <<< k).getLsbD i = true → k ≤ i := fun i hi => by
      by_contra hlt
      rw [hbelow i (Nat.lt_of_not_le hlt)] at hi
      exact Bool.false_ne_true hi
    refine ⟨fun h46 i h47 h63 => ?_, fun h14 => ⟨?_, ?_⟩⟩
    · rw [← h i (by have := hle 46 h46; omega) (by omega), hbits i (by omega), h46, decide_eq_true h47]
      simp
    · rw [← h 15 (by have := hle 14 h14; omega) (by omega), hbits 15 (by omega), h14]
      simp
    · rw [← h 16 (by have := hle 14 h14; omega) (by omega), hbits 16 (by omega), h14]
      simp
  · rintro ⟨h46, h14⟩ i - hi
    rw [hbits i hi]
    by_cases hset : (x <<< k).getLsbD i = true
    · rw [hset]
      rfl
    · have h46' : (decide (47 ≤ i) && (x <<< k).getLsbD 46) = false := by
        rw [Bool.and_eq_false_iff, decide_eq_false_iff_not]
        by_contra hnot
        push Not at hnot
        obtain ⟨h47, hbit⟩ := hnot
        have h63 : i ≠ 63 := fun h => hset (h ▸ htop)
        exact hset (h46 (Bool.eq_true_of_not_eq_false hbit) i h47 (by omega))
      have h14' : (decide (i = 15 ∨ i = 16) && (x <<< k).getLsbD 14) = false := by
        rw [Bool.and_eq_false_iff, decide_eq_false_iff_not]
        by_contra hnot
        push Not at hnot
        obtain ⟨hi', hbit⟩ := hnot
        obtain ⟨h15, h16⟩ := h14 (Bool.eq_true_of_not_eq_false hbit)
        rcases hi' with rfl | rfl
        · exact hset h15
        · exact hset h16
      rw [h46', h14', Bool.or_false, Bool.or_false]

/-! ## The integers that survive -/

/-- The bits of an integer from its leading bit down: those of the mantissa that is packed. -/
def normalized (x : BitVec 64) : BitVec 64 := x <<< (63 - x.toNat.log2)

theorem f16ToU8_normalize_iff (negative : Bool) {x : BitVec 64} (hx : x ≠ 0) :
    f16ToU8 (pack (if negative then 1 else 0) (normalize 63 (63 + 0x3fff) x).1 (normalize 63 (63 + 0x3fff) x).2) =
      (if negative then -x else x) ↔ KeepsBits (normalized x) := by
  obtain ⟨-, hlow, hhigh⟩ := log2_bounds hx
  rw [normalize_log2 _ hx, f16ToU8_pack negative (Nat.sub_le 63 _) _ rfl rfl]
  rw [normalized, ← restored_eq_iff negative _ hlow hhigh rfl rfl]
  cases negative with
  | false => exact Iff.rfl
  | true => exact neg_inj

theorem slt_zero_cases (sx : BitVec 64) :
    (sx.slt 0 = false ∧ sx.toNat = sx.toInt.natAbs) ∨ (sx.slt 0 = true ∧ (-sx).toNat = sx.toInt.natAbs) := by
  have hslt : sx.slt 0#64 = decide (sx.toInt < 0) := by rw [BitVec.slt_eq_decide, BitVec.toInt_zero]
  have hlt := sx.isLt
  by_cases h : sx.toInt < 0
  · refine Or.inr ⟨hslt.trans (decide_eq_true h), ?_⟩
    rw [BitVec.toInt_eq_toNat_cond] at h ⊢
    rw [BitVec.toNat_neg]
    split_ifs at h ⊢ <;> omega
  · refine Or.inl ⟨hslt.trans (decide_eq_false h), ?_⟩
    rw [BitVec.toInt_eq_toNat_cond] at h ⊢
    split_ifs at h ⊢ <;> omega

/-- An unsigned integer survives when it is not 0 and keeps its bits; a signed one when its magnitude does. -/
theorem conversions_iff (x sx : BitVec 64) :
    ((u8ToF16 x).bits = quadPattern false x.toNat ∧ f16ToU8 (u8ToF16 x) = x ↔ x ≠ 0 ∧ KeepsBits (normalized x)) ∧
      ((i8ToF16 sx).bits = quadPattern (sx.slt 0) sx.toInt.natAbs ∧ f16ToI8 (i8ToF16 sx) = sx ↔
        sx ≠ 0 ∧ KeepsBits (normalized (if sx.slt 0 then -sx else sx))) := by
  have hzero : (f4ToF16 0).bits ≠ 0 := by decide
  constructor
  · by_cases hx : x = 0
    · subst hx
      exact iff_of_false (fun h => hzero h.1) fun h => h.1 rfl
    · have hpattern := pack_eq_pattern false hx
      have hback := f16ToU8_normalize_iff false hx
      rw [u8ToF16, if_neg hx]
      exact ⟨fun h => ⟨hx, hback.mp h.2⟩, fun h => ⟨hpattern, hback.mpr h.2⟩⟩
  · by_cases hsx : sx = 0
    · subst hsx
      exact iff_of_false (fun h => hzero h.1) fun h => h.1 rfl
    · rw [i8ToF16, if_neg hsx]
      rcases slt_zero_cases sx with ⟨hsign, habs⟩ | ⟨hsign, habs⟩
      · have hpattern := pack_eq_pattern false hsx
        have hback := f16ToU8_normalize_iff false hsx
        simp only [hsign, ← habs]
        exact ⟨fun h => ⟨hsx, hback.mp h.2⟩, fun h => ⟨hpattern, hback.mpr h.2⟩⟩
      · have hneg : -sx ≠ 0 := neg_ne_zero.mpr hsx
        have hpattern := pack_eq_pattern true hneg
        have hback := f16ToU8_normalize_iff true hneg
        rw [if_pos rfl, neg_neg] at hback
        simp only [hsign, ← habs]
        exact ⟨fun h => ⟨hsx, hback.mp h.2⟩, fun h => ⟨hpattern, hback.mpr h.2⟩⟩

/-- 0 becomes the power of 2 with exponent -127, and 131073 comes back as 262143. -/
theorem conversions_fail : (u8ToF16 0).bits ≠ quadPattern false 0 ∧ (i8ToF16 0).bits ≠ quadPattern false 0 ∧
    f16ToU8 (u8ToF16 131073) = 262143 ∧ f16ToI8 (i8ToF16 131073) = 262143 :=
  ⟨by decide, by decide, rfl, rfl⟩

end Path64.Targ

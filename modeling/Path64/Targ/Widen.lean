import Path64.Targ.QuadFloat
import Path64.Lib.Ieee

/-!
# Widening to the 128-bit float

`F10_To_F16`, `F16_To_F10`, `F8_To_F16`, `F16_To_F8`, `F4_To_F16` and `F16_To_F4` of `targ_const.cxx`.

* `f10ToF16`, `f16ToF10`, `f8ToF16`, `f16ToF8`, `f16ToF4` : the functions, on words of 32 bits;
* `quad`, `double`, `single` : the patterns of these words;
* `Widens` : a pattern is widened to one of the same number, or to an infinity if it is one;
* `ones`, `getLsbD_up`, `getLsbD_down` : the bits of a field that is masked and moved;
* `rebiased_f8ToF16`, `rebiased_f4ToF16` : that the exponent is moved to the other bias;
* `f16ToF8_f8ToF16`, `f16ToF4_f4ToF16`, `f16ToF10_f10ToF16` : the ways back;
* `widens_iff` : the patterns that are widened, and that all come back.
-/

namespace Path64.Targ
open Lib

/-! ## The functions -/

/-- `F10_To_F16`. The words of the 80 bits are the first three. -/
def f10ToF16 (q : F16Type) : F16Type where
  qval3 := (q.qval2 <<< 16) ||| (q.qval1.sshiftRight 15 &&& 0x0000ffff#32)
  qval2 := ((q.qval1 <<< 17) &&& 0xfffe0000#32) ||| (q.qval0.sshiftRight 15 &&& 0x0001ffff#32)
  qval1 := (q.qval0 <<< 17) &&& 0xfffe0000#32
  qval0 := 0

/-- `F16_To_F10`. -/
def f16ToF10 (q : F16Type) : F16Type :=
  let qval0 := (q.qval1.sshiftRight 17 &&& 0x00007fff#32) ||| ((q.qval2 <<< 15) &&& 0xffff8000#32)
  let qval1 := (q.qval2.sshiftRight 17 &&& 0x00007fff#32) ||| ((q.qval3 <<< 15) &&& 0x7fff8000#32)
  let qval2 := q.qval3.sshiftRight 16
  let expon := qval2 &&& 0x00007fff#32
  let qval1 := if expon ≠ 0 ∧ expon ≠ 32767 then qval1 ||| 0x80000000#32 else qval1
  { q with qval0, qval1, qval2 }

/-- `F8_To_F16`, of the double with the words `dval1` and `dval0`. -/
def f8ToF16 (dval1 dval0 : BitVec 32) : F16Type where
  qval3 := ((((dval1 <<< 1).sshiftRight 5) &&& 0x7fffffff#32) ^^^ 0x3c000000#32) ||| (dval1 &&& 0x80000000#32)
  qval2 := ((dval1 <<< 28) &&& 0xf0000000#32) ||| (dval0.sshiftRight 4 &&& 0x0fffffff#32)
  qval1 := (dval0 <<< 28) &&& 0xf0000000#32
  qval0 := 0

/-- `F16_To_F8`: `dval[1]` and `dval[0]`. -/
def f16ToF8 (q : F16Type) : BitVec 32 × BitVec 32 :=
  ((q.qval3 &&& 0x80000000#32) ||| (((q.qval3 <<< 4) &&& 0x7ffffff0#32) ^^^ 0x40000000#32) |||
      (q.qval2.sshiftRight 28 &&& 0x0000000f#32),
    ((q.qval2 <<< 4) &&& 0xfffffff0#32) ||| (q.qval1.sshiftRight 28 &&& 0x0000000f#32))

/-- `F16_To_F4`. -/
def f16ToF4 (q : F16Type) : BitVec 32 :=
  (q.qval3 &&& 0x80000000#32) ||| (((q.qval3 <<< 7) &&& 0x7fffff80#32) ^^^ 0x40000000#32) |||
    (q.qval2.sshiftRight 25 &&& 0x0000007f#32)

/-! ## The patterns -/

def quadFormat : Ieee := ⟨15, 112⟩

def doubleFormat : Ieee := ⟨11, 52⟩

def singleFormat : Ieee := ⟨8, 23⟩

/-- The 128-bit pattern of the words. -/
def quad (q : F16Type) : Ieee.Pattern quadFormat :=
  ⟨q.qval3.getLsbD 31, q.qval3.extractLsb' 16 15, q.qval3.extractLsb' 0 16 ++ q.qval2 ++ q.qval1 ++ q.qval0⟩

/-- The 64-bit pattern of the words. -/
def double (dval1 dval0 : BitVec 32) : Ieee.Pattern doubleFormat :=
  ⟨dval1.getLsbD 31, dval1.extractLsb' 20 11, dval1.extractLsb' 0 20 ++ dval0⟩

/-- The 32-bit pattern of a word. -/
def single (sval : BitVec 32) : Ieee.Pattern singleFormat :=
  ⟨sval.getLsbD 31, sval.extractLsb' 23 8, sval.extractLsb' 0 23⟩

/-- The 80 bits of the first three words. -/
def F16Type.extended (q : F16Type) : BitVec 80 := q.qval2.setWidth 16 ++ q.qval1 ++ q.qval0

/-- A normalised 80-bit pattern: the exponent is neither 0 nor all ones, and the leading bit is set. -/
def F16Type.Normalised (q : F16Type) : Prop :=
  q.qval2 &&& 0x7fff#32 ≠ 0 ∧ q.qval2 &&& 0x7fff#32 ≠ 32767 ∧ q.qval1.getLsbD 31 = true

/-- A pattern is widened to one of the same number, and an infinity to the same infinity. -/
structure Widens {F : Ieee} (x : Ieee.Pattern F) (y : Ieee.Pattern quadFormat) : Prop where
  finite : x.IsFinite → y.IsFinite ∧ y.value = x.value
  infinite : x.IsInfinite → y.IsInfinite ∧ y.negative = x.negative

/-! ## The bits of the words -/

section
variable {i : Nat}

/-- The ones from `a` on and below `b`. -/
def ones (a b : Nat) : BitVec 32 := (BitVec.allOnes 32 >>> (32 - (b - a))) <<< a

theorem getLsbD_ones {a b : Nat} (hb : b ≤ 32) (hi : i < 32) : (ones a b).getLsbD i = decide (a ≤ i ∧ i < b) := by
  unfold ones
  rw [BitVec.getLsbD_shiftLeft, BitVec.getLsbD_ushiftRight, BitVec.getLsbD_allOnes, decide_eq_true hi, Bool.true_and]
  by_cases h : a ≤ i
  · rw [decide_eq_false (show ¬i < a by omega), Bool.not_false, Bool.true_and, decide_eq_decide]
    omega
  · rw [decide_eq_true (show i < a by omega), Bool.not_true, Bool.false_and, decide_eq_false (by omega)]

/-- A field that is moved up: the bits from `k` on and below `b`. -/
theorem getLsbD_up (x : BitVec 32) {k b : Nat} {mask : BitVec 32} (hmask : mask = ones k b) (hb : b ≤ 32) (hi : i < 32) :
    ((x <<< k) &&& mask).getLsbD i = (decide (k ≤ i ∧ i < b) && x.getLsbD (i - k)) := by
  rw [hmask, BitVec.getLsbD_and, getLsbD_ones hb hi, BitVec.getLsbD_shiftLeft, decide_eq_true hi, Bool.true_and]
  by_cases h : k ≤ i
  · rw [decide_eq_false (show ¬i < k by omega), Bool.not_false, Bool.true_and, Bool.and_comm]
  · rw [decide_eq_true (show i < k by omega), decide_eq_false (show ¬(k ≤ i ∧ i < b) by omega), Bool.not_true,
      Bool.false_and, Bool.false_and]

/-- A field that is moved down by `k` places: the bits below `b`. -/
theorem getLsbD_down (x : BitVec 32) {k b : Nat} {mask : BitVec 32} (hmask : mask = ones 0 b) (hb : k + b ≤ 32)
    (hi : i < 32) : (x.sshiftRight k &&& mask).getLsbD i = (decide (i < b) && x.getLsbD (k + i)) := by
  rw [hmask, BitVec.getLsbD_and, getLsbD_ones (by omega) hi, BitVec.getLsbD_sshiftRight,
    decide_eq_false (show ¬32 ≤ i by omega), Bool.not_false, Bool.true_and, Bool.and_comm]
  by_cases h : i < b
  · rw [if_pos (show k + i < 32 by omega), decide_eq_true h, decide_eq_true (show 0 ≤ i ∧ i < b by omega)]
  · rw [decide_eq_false h, decide_eq_false (show ¬(0 ≤ i ∧ i < b) by omega), Bool.false_and, Bool.false_and]

/-- The highest word of a widened pattern, whose exponent begins `k` places further up: the exponent is extended with
its highest bit, and the `k` bits below that one are inverted. -/
theorem getLsbD_qval3_widened (x : BitVec 32) {k : Nat} {mask : BitVec 32} (hmask : mask = ones (30 - k) 30)
    (hk : k ≤ 30) (hi : i < 32) :
    (((((x <<< 1).sshiftRight (k + 1)) &&& 0x7fffffff#32) ^^^ mask) ||| (x &&& 0x80000000#32)).getLsbD i =
      if i < 30 - k then x.getLsbD (i + k) else if i < 30 then !x.getLsbD 30 else x.getLsbD i := by
  have hlow : 0x7fffffff#32 = ones 0 31 := by decide
  have hsign : 0x80000000#32 = ones 31 32 := by decide
  have hextend : ((x <<< 1).sshiftRight (k + 1)).getLsbD i = x.getLsbD (min (i + k) 30) := by
    rw [BitVec.getLsbD_sshiftRight, decide_eq_false (show ¬32 ≤ i by omega), Bool.not_false, Bool.true_and,
      BitVec.msb_eq_getLsbD_last]
    split_ifs with h
    · rw [BitVec.getLsbD_shiftLeft, decide_eq_true h, decide_eq_false (show ¬k + 1 + i < 1 by omega),
        Nat.min_eq_left (by omega), show k + 1 + i - 1 = i + k by omega]
      rfl
    · rw [BitVec.getLsbD_shiftLeft, Nat.min_eq_right (by omega)]
      rfl
  rw [hlow, hsign, hmask, BitVec.getLsbD_or, BitVec.getLsbD_xor, BitVec.getLsbD_and, BitVec.getLsbD_and, hextend,
    getLsbD_ones (by omega) hi, getLsbD_ones (by omega) hi, getLsbD_ones le_rfl hi]
  split_ifs with h1 h2
  · rw [Nat.min_eq_left (by omega)]
    simp [show i < 31 by omega, show ¬30 - k ≤ i by omega, show ¬31 ≤ i by omega]
  · rw [Nat.min_eq_right (by omega)]
    simp [show i < 31 by omega, show 30 ≤ i + k by omega, h2, show ¬31 ≤ i by omega]
  · rcases (show i = 30 ∨ i = 31 by omega) with rfl | rfl
    · simp
    · simp

theorem getLsbD_narrowed (x y : BitVec 32) {k : Nat} {mask low : BitVec 32} (hmask : mask = ones k 31)
    (hlow : low = ones 0 k) (hk : k ≤ 29) (hi : i < 32) :
    ((x &&& 0x80000000#32) ||| (((x <<< k) &&& mask) ^^^ 0x40000000#32) ||| (y.sshiftRight (32 - k) &&& low)).getLsbD i =
      if i < k then y.getLsbD (32 - k + i) else if i < 30 then x.getLsbD (i - k)
      else if i = 30 then !x.getLsbD (30 - k) else x.getLsbD 31 := by
  have hsign : 0x80000000#32 = ones 31 32 := by decide
  have hflip : 0x40000000#32 = ones 30 31 := by decide
  rw [hsign, hflip, BitVec.getLsbD_or, BitVec.getLsbD_or, BitVec.getLsbD_xor, BitVec.getLsbD_and,
    getLsbD_ones le_rfl hi, getLsbD_ones (by omega) hi, getLsbD_up _ hmask (by omega) hi,
    getLsbD_down _ hlow (by omega) hi]
  by_cases h : i < k
  · simp [h, show ¬31 ≤ i by omega, show ¬k ≤ i by omega, show ¬30 ≤ i by omega]
  · by_cases h30 : i < 30
    · simp [h, h30, show ¬31 ≤ i by omega, not_lt.mp h, show i < 31 by omega, show ¬30 ≤ i by omega]
    · rcases (show i = 30 ∨ i = 31 by omega) with rfl | rfl
      · simp [h, not_lt.mp h]
      · simp [h]

theorem getLsbD_narrowed_widened (x w : BitVec 32) {k : Nat} (hpos : 0 < k) (hk : k ≤ 29)
    (hw : ∀ j < 32, w.getLsbD j =
      if j < 30 - k then x.getLsbD (j + k) else if j < 30 then !x.getLsbD 30 else x.getLsbD j)
    (hki : k ≤ i) (hi : i < 32) :
    (if i < 30 then w.getLsbD (i - k) else if i = 30 then !w.getLsbD (30 - k) else w.getLsbD 31) = x.getLsbD i := by
  split_ifs with h30 h
  · rw [hw (i - k) (by omega), if_pos (show i - k < 30 - k by omega), Nat.sub_add_cancel hki]
  · rw [hw (30 - k) (by omega), if_neg (lt_irrefl _), if_pos (show 30 - k < 30 by omega), Bool.not_not, h]
  · rw [hw 31 (by omega), if_neg (show ¬31 < 30 - k by omega), if_neg (show ¬31 < 30 by omega), show i = 31 by omega]

/-! ## Doubles -/

theorem getLsbD_f8ToF16_qval3 (dval1 dval0 : BitVec 32) (hi : i < 32) : (f8ToF16 dval1 dval0).qval3.getLsbD i =
    if i < 26 then dval1.getLsbD (i + 4) else if i < 30 then !dval1.getLsbD 30 else dval1.getLsbD i :=
  getLsbD_qval3_widened dval1 (by decide) (by decide) hi

theorem getLsbD_f8ToF16_qval2 (dval1 dval0 : BitVec 32) (hi : i < 32) : (f8ToF16 dval1 dval0).qval2.getLsbD i =
    if i < 28 then dval0.getLsbD (4 + i) else dval1.getLsbD (i - 28) := by
  rw [f8ToF16, BitVec.getLsbD_or, getLsbD_up dval1 (by decide : _ = ones 28 32) le_rfl hi,
    getLsbD_down dval0 (by decide : _ = ones 0 28) le_rfl hi]
  split_ifs with h
  · simp [h]
  · simp [h, hi, not_lt.mp h]

theorem getLsbD_f8ToF16_qval1 (dval1 dval0 : BitVec 32) (hi : i < 32) : (f8ToF16 dval1 dval0).qval1.getLsbD i =
    (decide (28 ≤ i) && dval0.getLsbD (i - 28)) := by
  rw [f8ToF16, getLsbD_up dval0 (by decide : _ = ones 28 32) le_rfl hi]
  simp [hi]

/-- Every double comes back. -/
theorem f16ToF8_f8ToF16 (dval1 dval0 : BitVec 32) : f16ToF8 (f8ToF16 dval1 dval0) = (dval1, dval0) := by
  refine Prod.ext (BitVec.eq_of_getLsbD_eq fun i hi => ?_) (BitVec.eq_of_getLsbD_eq fun i hi => ?_)
  · refine (getLsbD_narrowed _ _ (by decide : _ = ones 4 31) (by decide : _ = ones 0 4) (by decide) hi).trans ?_
    by_cases h : i < 4
    · rw [if_pos h, getLsbD_f8ToF16_qval2 _ _ (show 28 + i < 32 by omega), if_neg (by omega), Nat.add_sub_cancel_left]
    · rw [if_neg h]
      exact getLsbD_narrowed_widened dval1 _ (by decide) (by decide)
        (fun j hj => getLsbD_f8ToF16_qval3 dval1 dval0 hj) (not_lt.mp h) hi
  · rw [f16ToF8, BitVec.getLsbD_or, getLsbD_up _ (by decide : _ = ones 4 32) (by decide) hi,
      getLsbD_down _ (by decide : _ = ones 0 4) (by decide) hi]
    by_cases h : i < 4
    · rw [getLsbD_f8ToF16_qval1 _ _ (show 28 + i < 32 by omega)]
      simp [h, show ¬4 ≤ i by omega]
    · rw [getLsbD_f8ToF16_qval2 _ _ (show i - 4 < 32 by omega), if_pos (by omega), show 4 + (i - 4) = i by omega]
      simp [h, hi, not_lt.mp h]

/-! ## Singles -/

theorem getLsbD_f4ToF16_qval3 (sval : BitVec 32) (hi : i < 32) : (f4ToF16 sval).qval3.getLsbD i =
    if i < 23 then sval.getLsbD (i + 7) else if i < 30 then !sval.getLsbD 30 else sval.getLsbD i :=
  getLsbD_qval3_widened sval (by decide) (by decide) hi

theorem getLsbD_f4ToF16_qval2 (sval : BitVec 32) (hi : i < 32) : (f4ToF16 sval).qval2.getLsbD i =
    (decide (25 ≤ i) && sval.getLsbD (i - 25)) := by
  rw [f4ToF16, getLsbD_up sval (by decide : _ = ones 25 32) le_rfl hi]
  simp [hi]

/-- Every single comes back. -/
theorem f16ToF4_f4ToF16 (sval : BitVec 32) : f16ToF4 (f4ToF16 sval) = sval := by
  refine BitVec.eq_of_getLsbD_eq fun i hi => ?_
  refine (getLsbD_narrowed _ _ (by decide : _ = ones 7 31) (by decide : _ = ones 0 7) (by decide) hi).trans ?_
  by_cases h : i < 7
  · rw [if_pos h, getLsbD_f4ToF16_qval2 _ (show 25 + i < 32 by omega), Nat.add_sub_cancel_left,
      decide_eq_true (by omega), Bool.true_and]
  · rw [if_neg h]
    exact getLsbD_narrowed_widened sval _ (by decide) (by decide)
      (fun j hj => getLsbD_f4ToF16_qval3 sval hj) (not_lt.mp h) hi

/-! ## The exponent and the fraction -/

theorem toNat_extract_succ (x : BitVec 32) (start len : Nat) : (x.extractLsb' start (len + 1)).toNat =
    (x.extractLsb' start len).toNat + if x.getLsbD (start + len) then 2 ^ len else 0 := by
  rw [BitVec.extractLsb'_toNat, BitVec.extractLsb'_toNat, Nat.mod_pow_succ, BitVec.getLsbD,
    Nat.testBit_eq_decide_div_mod_eq, Nat.pow_add, ← Nat.div_div_eq_div_mul, Nat.shiftRight_eq_div_pow]
  rcases Nat.mod_two_eq_zero_or_one (x.toNat / 2 ^ start / 2 ^ len) with h | h
  · rw [h, mul_zero, if_neg (by decide)]
  · rw [h, mul_one, if_pos (by decide)]

/-- The exponent is moved to the other bias. -/
theorem toNat_exponent_widened (x w : BitVec 32) {k : Nat} (hk : k ≤ 14) (hw : ∀ j < 32, w.getLsbD j =
      if j < 30 - k then x.getLsbD (j + k) else if j < 30 then !x.getLsbD 30 else x.getLsbD j) :
    (w.extractLsb' 16 15).toNat + (2 ^ (14 - k) - 1) = (x.extractLsb' (16 + k) (14 - k + 1)).toNat + 16383 := by
  have hlow : w.extractLsb' 16 (14 - k) = x.extractLsb' (16 + k) (14 - k) := by
    refine BitVec.eq_of_getLsbD_eq fun i hi => ?_
    rw [BitVec.getLsbD_extractLsb', BitVec.getLsbD_extractLsb', hw (16 + i) (by omega),
      if_pos (show 16 + i < 30 - k by omega), show 16 + i + k = 16 + k + i by omega]
  have hmiddle : w.extractLsb' (30 - k) k = if x.getLsbD 30 then 0 else BitVec.allOnes k := by
    refine BitVec.eq_of_getLsbD_eq fun i hi => ?_
    rw [BitVec.getLsbD_extractLsb', hw (30 - k + i) (by omega), if_neg (show ¬30 - k + i < 30 - k by omega),
      if_pos (show 30 - k + i < 30 by omega), decide_eq_true hi, Bool.true_and]
    cases x.getLsbD 30 with
    | true => rw [if_pos rfl]; exact BitVec.getLsbD_zero.symm
    | false => rw [if_neg Bool.false_ne_true, BitVec.getLsbD_allOnes, decide_eq_true hi]; rfl
  have hfield : (w.extractLsb' 16 14).toNat =
      (x.extractLsb' (16 + k) (14 - k)).toNat + 2 ^ (14 - k) * (w.extractLsb' (30 - k) k).toNat := by
    rw [← hlow, BitVec.extractLsb'_toNat, BitVec.extractLsb'_toNat, BitVec.extractLsb'_toNat,
      show 2 ^ 14 = 2 ^ (14 - k) * 2 ^ k by rw [← pow_add, Nat.sub_add_cancel hk], Nat.mod_mul,
      Nat.shiftRight_eq_div_pow, Nat.shiftRight_eq_div_pow, Nat.div_div_eq_div_mul, ← pow_add,
      show 16 + (14 - k) = 30 - k by omega]
  have hpow : 2 ^ (14 - k) * 2 ^ k = 16384 := by rw [← pow_add, Nat.sub_add_cancel hk]; rfl
  have hpos : 0 < 2 ^ (14 - k) := Nat.two_pow_pos _
  have hle : 2 ^ (14 - k) ≤ 16384 := hpow ▸ Nat.le_mul_of_pos_right _ (Nat.two_pow_pos k)
  rw [toNat_extract_succ w 16 14, toNat_extract_succ x (16 + k) (14 - k), hfield, hmiddle,
    show 16 + k + (14 - k) = 30 by omega, hw (16 + 14) (by omega), if_neg (show ¬16 + 14 < 30 - k by omega),
    if_neg (show ¬16 + 14 < 30 by omega)]
  generalize 2 ^ (14 - k) = p at hpow hpos hle ⊢
  cases x.getLsbD 30 with
  | true =>
    simp only [if_true, BitVec.ofNat_eq_ofNat, BitVec.toNat_ofNat, Nat.zero_mod, mul_zero]
    omega
  | false =>
    simp only [Bool.false_eq_true, if_false, BitVec.toNat_allOnes, Nat.mul_sub, hpow, mul_one]
    omega

theorem toNat_fraction_widened {m k : Nat} (x : BitVec m) (y : BitVec 112) (hk : m + k = 112)
    (h : ∀ i < 112, y.getLsbD i = (decide (k ≤ i) && x.getLsbD (i - k))) : y.toNat = x.toNat * 2 ^ k := by
  have hbits : y = x.setWidth 112 <<< k := by
    refine BitVec.eq_of_getLsbD_eq fun i hi => ?_
    rw [h i hi, BitVec.getLsbD_shiftLeft, BitVec.getLsbD_setWidth, decide_eq_true hi,
      decide_eq_true (show i - k < 112 by omega), Bool.true_and, Bool.true_and]
    by_cases hki : k ≤ i
    · rw [decide_eq_true hki, decide_eq_false (not_lt.mpr hki)]
      rfl
    · rw [decide_eq_false hki, decide_eq_true (not_le.mp hki)]
      rfl
  have hlt : x.toNat * 2 ^ k < 2 ^ 112 := by
    rw [← hk, pow_add]
    exact Nat.mul_lt_mul_of_pos_right x.isLt (Nat.two_pow_pos k)
  rw [hbits, BitVec.toNat_shiftLeft, BitVec.toNat_setWidth, Nat.shiftLeft_eq,
    Nat.mod_eq_of_lt (x.isLt.trans_le (Nat.pow_le_pow_right (by omega) (by omega))), Nat.mod_eq_of_lt hlt]

/-- The fraction of the four words. -/
def F16Type.fraction (q : F16Type) : BitVec 112 := q.qval3.extractLsb' 0 16 ++ q.qval2 ++ q.qval1 ++ q.qval0

theorem getLsbD_fraction (q : F16Type) : q.fraction.getLsbD i =
    if i < 32 then q.qval0.getLsbD i else if i < 64 then q.qval1.getLsbD (i - 32)
    else if i < 96 then q.qval2.getLsbD (i - 64) else (decide (i < 112) && q.qval3.getLsbD (i - 96)) := by
  rw [F16Type.fraction, BitVec.getLsbD_append, BitVec.getLsbD_append, BitVec.getLsbD_append, BitVec.getLsbD_extractLsb']
  by_cases h0 : i < 32
  · rw [if_pos h0, if_pos h0]
  rw [if_neg h0, if_neg h0]
  by_cases h1 : i < 64
  · rw [if_pos h1, if_pos (show i - 32 < 32 by omega)]
  rw [if_neg h1, if_neg (show ¬i - 32 < 32 by omega), show i - 32 - 32 = i - 64 by omega]
  by_cases h2 : i < 96
  · rw [if_pos h2, if_pos (show i - 64 < 32 by omega)]
  rw [if_neg h2, if_neg (show ¬i - 64 < 32 by omega), show 0 + (i - 64 - 32) = i - 96 by omega]
  congr 1
  exact decide_eq_decide.mpr (by omega)

/-- A double is moved to the other bias. -/
theorem rebiased_f8ToF16 (dval1 dval0 : BitVec 32) : (double dval1 dval0).Rebiased (quad (f8ToF16 dval1 dval0)) where
  negative := (getLsbD_f8ToF16_qval3 dval1 dval0 (show 31 < 32 by omega)).trans (if_neg (by omega))
  exponent := toNat_exponent_widened dval1 _ (k := 4) (by decide) fun j hj => getLsbD_f8ToF16_qval3 dval1 dval0 hj
  fraction := by
    refine toNat_fraction_widened (k := 60) (dval1.extractLsb' 0 20 ++ dval0) (f8ToF16 dval1 dval0).fraction rfl
      fun i hi => ?_
    rw [getLsbD_fraction, BitVec.getLsbD_append, BitVec.getLsbD_extractLsb']
    by_cases h0 : i < 32
    · rw [if_pos h0, decide_eq_false (show ¬60 ≤ i by omega)]
      exact BitVec.getLsbD_zero
    rw [if_neg h0]
    by_cases h1 : i < 64
    · rw [if_pos h1, getLsbD_f8ToF16_qval1 _ _ (by omega), if_pos (show i - 60 < 32 by omega),
        show i - 32 - 28 = i - 60 by omega]
      congr 1
      exact decide_eq_decide.mpr (by omega)
    rw [if_neg h1, decide_eq_true (show 60 ≤ i by omega), Bool.true_and]
    by_cases h2 : i < 96
    · rw [if_pos h2, getLsbD_f8ToF16_qval2 _ _ (by omega)]
      by_cases h3 : i < 92
      · rw [if_pos (show i - 64 < 28 by omega), if_pos (show i - 60 < 32 by omega), show 4 + (i - 64) = i - 60 by omega]
      · rw [if_neg (show ¬i - 64 < 28 by omega), if_neg (show ¬i - 60 < 32 by omega),
          decide_eq_true (show i - 60 - 32 < 20 by omega), Bool.true_and, show 0 + (i - 60 - 32) = i - 64 - 28 by omega]
    · rw [if_neg h2, getLsbD_f8ToF16_qval3 _ _ (by omega), if_pos (show i - 96 < 26 by omega),
        if_neg (show ¬i - 60 < 32 by omega), decide_eq_true hi, decide_eq_true (show i - 60 - 32 < 20 by omega),
        show 0 + (i - 60 - 32) = i - 96 + 4 by omega]

/-- A single is moved to the other bias. -/
theorem rebiased_f4ToF16 (sval : BitVec 32) : (single sval).Rebiased (quad (f4ToF16 sval)) where
  negative := (getLsbD_f4ToF16_qval3 sval (show 31 < 32 by omega)).trans (if_neg (by omega))
  exponent := toNat_exponent_widened sval _ (k := 7) (by decide) fun j hj => getLsbD_f4ToF16_qval3 sval hj
  fraction := by
    refine toNat_fraction_widened (k := 89) (sval.extractLsb' 0 23) (f4ToF16 sval).fraction rfl fun i hi => ?_
    rw [getLsbD_fraction, BitVec.getLsbD_extractLsb', decide_eq_true (show i - 89 < 23 by omega), Bool.true_and]
    by_cases h1 : i < 64
    · rw [decide_eq_false (show ¬89 ≤ i by omega), Bool.false_and, if_pos h1]
      split_ifs with h0
      · exact BitVec.getLsbD_zero
      · exact BitVec.getLsbD_zero
    rw [if_neg (show ¬i < 32 by omega), if_neg h1]
    by_cases h2 : i < 96
    · rw [if_pos h2, getLsbD_f4ToF16_qval2 _ (by omega), show i - 64 - 25 = 0 + (i - 89) by omega]
      congr 1
      exact decide_eq_decide.mpr (by omega)
    · rw [if_neg h2, getLsbD_f4ToF16_qval3 _ (by omega), if_pos (show i - 96 < 23 by omega), decide_eq_true hi,
        decide_eq_true (show 89 ≤ i by omega), show 0 + (i - 89) = i - 96 + 7 by omega]

/-! ## The extended floats -/

theorem getLsbD_f10ToF16_qval3 (q : F16Type) (hi : i < 32) : (f10ToF16 q).qval3.getLsbD i =
    if i < 16 then q.qval1.getLsbD (15 + i) else q.qval2.getLsbD (i - 16) := by
  rw [f10ToF16, BitVec.getLsbD_or, BitVec.getLsbD_shiftLeft,
    getLsbD_down q.qval1 (by decide : _ = ones 0 16) (by decide) hi, decide_eq_true hi, Bool.true_and]
  split_ifs with h
  · simp [h]
  · simp [h]

theorem getLsbD_f10ToF16_qval2 (q : F16Type) (hi : i < 32) : (f10ToF16 q).qval2.getLsbD i =
    if i < 17 then q.qval0.getLsbD (15 + i) else q.qval1.getLsbD (i - 17) := by
  rw [f10ToF16, BitVec.getLsbD_or, getLsbD_up q.qval1 (by decide : _ = ones 17 32) le_rfl hi,
    getLsbD_down q.qval0 (by decide : _ = ones 0 17) le_rfl hi]
  split_ifs with h
  · simp [h]
  · simp [h, hi, not_lt.mp h]

theorem getLsbD_f10ToF16_qval1 (q : F16Type) (hi : i < 32) : (f10ToF16 q).qval1.getLsbD i =
    (decide (17 ≤ i) && q.qval0.getLsbD (i - 17)) := by
  rw [f10ToF16, getLsbD_up q.qval0 (by decide : _ = ones 17 32) le_rfl hi]
  simp [hi]

theorem getLsbD_f16ToF10_qval2 (q : F16Type) (hi : i < 16) :
    ((f10ToF16 q).qval3.sshiftRight 16).getLsbD i = q.qval2.getLsbD i := by
  rw [BitVec.getLsbD_sshiftRight, decide_eq_false (show ¬32 ≤ i by omega), if_pos (show 16 + i < 32 by omega),
    getLsbD_f10ToF16_qval3 q (by omega), if_neg (by omega), Nat.add_sub_cancel_left]
  rfl

/-- Every normalised pattern of 80 bits comes back. -/
theorem f16ToF10_f10ToF16 {q : F16Type} (hq : q.Normalised) : (f16ToF10 (f10ToF16 q)).extended = q.extended := by
  obtain ⟨h0, hones, hleading⟩ := hq
  have hmask : 0x7fff#32 = ones 0 15 := by decide
  have hexpon : (f10ToF16 q).qval3.sshiftRight 16 &&& 0x7fff#32 = q.qval2 &&& 0x7fff#32 := by
    refine BitVec.eq_of_getLsbD_eq fun i hi => ?_
    rw [hmask, BitVec.getLsbD_and, BitVec.getLsbD_and, getLsbD_ones (by decide) hi]
    by_cases h : i < 15
    · rw [getLsbD_f16ToF10_qval2 q (by omega)]
    · rw [decide_eq_false (by omega), Bool.and_false, Bool.and_false]
  have hqval2 : (f16ToF10 (f10ToF16 q)).qval2.setWidth 16 = q.qval2.setWidth 16 := by
    refine BitVec.eq_of_getLsbD_eq fun i hi => ?_
    rw [BitVec.getLsbD_setWidth, BitVec.getLsbD_setWidth]
    exact congrArg _ (getLsbD_f16ToF10_qval2 q hi)
  have hqval1 : (f16ToF10 (f10ToF16 q)).qval1 = q.qval1 := by
    refine BitVec.eq_of_getLsbD_eq fun i hi => ?_
    simp only [f16ToF10, hexpon]
    rw [if_pos ⟨h0, hones⟩, (by decide : 0x80000000#32 = ones 31 32), BitVec.getLsbD_or, BitVec.getLsbD_or,
      getLsbD_up _ (by decide : _ = ones 15 31) (by decide) hi,
      getLsbD_down _ (by decide : _ = ones 0 15) (by decide) hi, getLsbD_ones le_rfl hi]
    by_cases h15 : i < 15
    · rw [getLsbD_f10ToF16_qval2 q (by omega), if_neg (show ¬17 + i < 17 by omega), Nat.add_sub_cancel_left]
      simp [h15, show ¬15 ≤ i by omega, show ¬31 ≤ i by omega]
    · by_cases h31 : i < 31
      · rw [getLsbD_f10ToF16_qval3 q (by omega), if_pos (show i - 15 < 16 by omega), show 15 + (i - 15) = i by omega]
        simp [h15, h31, not_lt.mp h15, show ¬31 ≤ i by omega]
      · obtain rfl : i = 31 := by omega
        simp [hleading]
  have hqval0 : (f16ToF10 (f10ToF16 q)).qval0 = q.qval0 := by
    refine BitVec.eq_of_getLsbD_eq fun i hi => ?_
    rw [f16ToF10, BitVec.getLsbD_or, getLsbD_up _ (by decide : _ = ones 15 32) le_rfl hi,
      getLsbD_down _ (by decide : _ = ones 0 15) (by decide) hi]
    by_cases h15 : i < 15
    · rw [getLsbD_f10ToF16_qval1 q (by omega), Nat.add_sub_cancel_left]
      simp [h15, show ¬15 ≤ i by omega]
    · rw [getLsbD_f10ToF16_qval2 q (by omega), if_pos (show i - 15 < 17 by omega), show 15 + (i - 15) = i by omega]
      simp [h15, hi, not_lt.mp h15]
  rw [F16Type.extended, F16Type.extended, hqval2, hqval1, hqval0]

/-! ## What is widened -/

theorem widens_of_rebiased {F : Ieee} {x : Ieee.Pattern F} {y : Ieee.Pattern quadFormat} (h : x.Rebiased y)
    (hpos : 0 < F.exponentBits) (hbias : F.bias < quadFormat.bias) (hbits : F.fractionBits ≤ quadFormat.fractionBits)
    (hexp : 2 ^ F.exponentBits + quadFormat.bias < 2 ^ quadFormat.exponentBits + F.bias) :
    Widens x y ↔ x.exponent ≠ 0 ∧ ¬x.IsInfinite := by
  have hfinite := h.isFinite hexp
  constructor
  · intro hw
    refine ⟨fun h0 => ?_, fun hx => hfinite (hw.infinite hx).1.1⟩
    have hx : x.IsFinite := fun hones => by
      have hnat := congrArg BitVec.toNat (h0.symm.trans hones)
      have hlt := Nat.one_lt_two_pow (Nat.pos_iff_ne_zero.mp hpos)
      rw [BitVec.toNat_allOnes, BitVec.ofNat_eq_ofNat, BitVec.toNat_ofNat, Nat.zero_mod] at hnat
      omega
    exact (h.value_eq_iff hbias hbits).mp (hw.finite hx).2 h0
  · rintro ⟨h0, hnot⟩
    exact ⟨fun _ => ⟨hfinite, (h.value_eq_iff hbias hbits).mpr h0⟩, fun hx => absurd hx hnot⟩

/-- A double or a single is widened and comes back just when its exponent is not 0 and it is not an infinity. -/
theorem widens_iff (dval1 dval0 sval : BitVec 32) (q : F16Type) :
    (Widens (double dval1 dval0) (quad (f8ToF16 dval1 dval0)) ∧ f16ToF8 (f8ToF16 dval1 dval0) = (dval1, dval0) ↔
        (double dval1 dval0).exponent ≠ 0 ∧ ¬(double dval1 dval0).IsInfinite) ∧
      (Widens (single sval) (quad (f4ToF16 sval)) ∧ f16ToF4 (f4ToF16 sval) = sval ↔
        (single sval).exponent ≠ 0 ∧ ¬(single sval).IsInfinite) ∧
      (q.Normalised → (f16ToF10 (f10ToF16 q)).extended = q.extended) := by
  have hdouble := widens_of_rebiased (rebiased_f8ToF16 dval1 dval0) (by decide) (by decide) (by decide) (by decide)
  have hsingle := widens_of_rebiased (rebiased_f4ToF16 sval) (by decide) (by decide) (by decide) (by decide)
  refine ⟨?_, ?_, f16ToF10_f10ToF16⟩
  · rw [← hdouble]
    exact and_iff_left (f16ToF8_f8ToF16 dval1 dval0)
  · rw [← hsingle]
    exact and_iff_left (f16ToF4_f4ToF16 sval)

/-- The double 0.0 and the single 0.0 become powers of 2, and the infinities finite numbers. -/
theorem not_widens_zero : ¬Widens (double 0 0) (quad (f8ToF16 0 0)) ∧ ¬Widens (single 0) (quad (f4ToF16 0)) ∧
    ¬Widens (double 0x7ff00000 0) (quad (f8ToF16 0x7ff00000 0)) ∧
    ¬Widens (single 0x7f800000) (quad (f4ToF16 0x7f800000)) := by
  refine ⟨fun h => ?_, fun h => ?_, fun h => ?_, fun h => ?_⟩
  · have hvalue := (h.finite (by decide)).2
    exact ((rebiased_f8ToF16 0 0).value_eq_iff (by decide) (by decide)).mp hvalue (by decide)
  · have hvalue := (h.finite (by decide)).2
    exact ((rebiased_f4ToF16 0).value_eq_iff (by decide) (by decide)).mp hvalue (by decide)
  · exact absurd (h.infinite (by decide)).1 (by decide)
  · exact absurd (h.infinite (by decide)).1 (by decide)

end

end Path64.Targ

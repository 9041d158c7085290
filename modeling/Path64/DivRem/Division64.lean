import Path64.DivRem.Division32
import Path64.DivRem.PseudoInverse

/-!
# Dividing 64-bit values by constants

* `expandSigned_runs`, `expand_divides_signed_64` : the signed sequence divides the absolute value and puts the sign back;
* `runs_unsigned_even`, `runs_unsigned_odd` : the unsigned sequences multiply by what `determinePseudoInverse` returned;
* `expand_divides_unsigned_64_iff` : which divisors they divide by, and `expand_unsigned_64_fails`.
-/

namespace Path64.DivRem

open Lib Machine

variable {result numer next : Nat}

/-! ## Signed -/

/-- The absolute value as the sequence takes it: the negation, or the number itself if that is negative. -/
theorem abs_toNat (x : BitVec 64) : (if (-x).msb then x else -x).toNat = x.toInt.natAbs := by
  have hx := x.isLt
  rw [BitVec.msb_eq_decide, BitVec.toNat_neg, BitVec.toInt_eq_toNat_cond]
  simp only [decide_eq_true_eq]
  split_ifs
  · omega
  · omega
  · rw [BitVec.toNat_neg]
    omega
  · rw [BitVec.toNat_neg]
    omega

theorem tdiv_eq_natAbs_div (n d : Int) (hd : d ≠ 0) : n.tdiv d =
    if (0 < d) = (0 ≤ n) then ((n.natAbs / d.natAbs : Nat) : Int) else -((n.natAbs / d.natAbs : Nat) : Int) := by
  have hnat : ((n.natAbs : Int).tdiv (d.natAbs : Int)) = ((n.natAbs / d.natAbs : Nat) : Int) := rfl
  rw [tdiv_natAbs, ← hnat]
  by_cases hn : 0 ≤ n
  · have hn' : ((n.natAbs : Nat) : Int) = n := by omega
    rw [hn']
    split_ifs with h1 h2 h2
    · simp only [eq_iff_iff, hn, iff_true] at h2
      omega
    · rfl
    · rfl
    · simp only [eq_iff_iff, hn, iff_true] at h2
      omega
  · have hn' : ((n.natAbs : Nat) : Int) = -n := by omega
    rw [hn', Int.neg_tdiv]
    split_ifs with h1 h2 h2
    · rfl
    · simp only [eq_iff_iff, hn, iff_false] at h2
      omega
    · simp only [eq_iff_iff, hn, iff_false] at h2
      omega
    · rw [Int.neg_neg]

theorem toInt_signed_quotient {x q : BitVec 64} {d : Int} (hd : 3 ≤ d.natAbs)
    (hq : q.toNat = x.toInt.natAbs / d.natAbs) :
    (if (0 < d) = (0 ≤ x.toInt) then q else -q).toInt = x.toInt.tdiv d := by
  have hlow := x.le_toInt
  have hhigh := x.toInt_lt
  norm_num at hlow hhigh
  have hthird : x.toInt.natAbs / d.natAbs ≤ x.toInt.natAbs / 3 := Nat.div_le_div_left hd (by norm_num)
  rw [tdiv_eq_natAbs_div _ _ (by omega)]
  generalize x.toInt.natAbs / d.natAbs = k at *
  have hqInt : q.toInt = k := by
    rw [BitVec.toInt_eq_toNat_cond, if_pos (by omega), hq]
  split_ifs
  · exact hqInt
  · rw [BitVec.toInt_neg, hqInt, Int.bmod_eq_of_le (by norm_num; omega) (by norm_num; omega)]

theorem runs_sign {numer' shift : Nat} (hne : numer' ≠ result) (hne' : shift ≠ result) (d : Int) (m : Machine) :
    Runs [.neg .w64 result shift, .test .w64 numer' numer',
      if d > 0 then .cmovge result shift else .cmovl result shift] m fun m' =>
        m'.read .w64 result =
          if (0 < d) = (0 ≤ (m.read .w64 numer').toInt) then m.read .w64 shift else -m.read .w64 shift := by
  refine Runs.flags rfl fun m₁ h₁ _ => Runs.compare rfl fun m₂ h₂ hf₂ => ?_
  have hsf : (m₁.read .w64 numer' &&& m₁.read .w64 numer').msb = decide ((m.read .w64 numer').toInt < 0) := by
    rw [h₁.other _ _ hne, BitVec.and_self, BitVec.msb_eq_toInt]
  by_cases hd : d > 0
  · rw [if_pos hd]
    refine Runs.cmov hf₂ rfl fun m₃ h₃ => Runs.nil ?_
    rw [h₃.read, h₂, h₂, h₁.read, h₁.other _ _ hne']
    show (if (m₁.read .w64 numer' &&& m₁.read .w64 numer').msb == false then _ else _) = _
    rw [hsf]
    refine if_congr ?_ rfl rfl
    simp only [beq_iff_eq, decide_eq_false_iff_not, not_lt, gt_iff_lt.mp hd, eq_iff_iff, true_iff]
  · rw [if_neg hd]
    refine Runs.cmov hf₂ rfl fun m₃ h₃ => Runs.nil ?_
    rw [h₃.read, h₂, h₂, h₁.read, h₁.other _ _ hne']
    show (if (m₁.read .w64 numer' &&& m₁.read .w64 numer').msb != false then _ else _) = _
    rw [hsf]
    refine if_congr ?_ rfl rfl
    simp only [bne_iff_ne, ne_eq, decide_eq_false_iff_not, not_not, show ¬ 0 < d from hd, eq_iff_iff, false_iff, not_le]

theorem toNat_sshiftRight_of_lt {q : BitVec 64} (h : q.toNat < 2 ^ 63) (s : Nat) :
    (q.sshiftRight s).toNat = q.toNat / 2 ^ s := by
  have hmsb : q.msb = false := by
    rw [BitVec.msb_eq_decide, decide_eq_false_iff_not]
    omega
  rw [BitVec.sshiftRight_eq_of_msb_false hmsb, BitVec.toNat_ushiftRight, Nat.shiftRight_eq_div_pow]

/-- The constants of the signed path: the quotient of every absolute value. -/
theorem signed_constants {b : Nat} (h3 : 3 ≤ b) (hb : b < 2 ^ 63) : ∃ d n, determinePseudoInverse b 63 = (d, n) ∧
    d < 2 ^ 64 ∧ 1 ≤ n ∧ n ≤ 63 ∧ ∀ a ≤ 2 ^ 63, d * a / 2 ^ (63 + n) = a / b := by
  obtain ⟨n, hw, heq⟩ := determinePseudoInverse_small 63 hb.le (by omega)
  obtain ⟨-, hlt⟩ := reciprocal_bounds 63 hw hb.le
  have hn63 : n ≤ 63 := by
    by_contra h64
    have h64 : n = 64 := by have := hw.le; omega
    have hlow := hw.lower
    rw [h64] at hlow
    omega
  refine ⟨_, n, heq, Nat.mod_lt _ (by norm_num), hw.pos, hn63, fun a ha => ?_⟩
  rw [Nat.mod_eq_of_lt hlt, Nat.add_comm 63 n]
  refine ceil_mul_div (by omega) (Nat.two_pow_pos _) ?_
  rw [pow_add]
  exact Nat.mul_le_mul hw.upper ha

/-- The general signed path, at 64 bits. -/
theorem expandSigned_runs (hres : result < next) (hnum : numer < next) {d : Int} (h3 : 3 ≤ d.natAbs)
    (hlt : d.natAbs < 2 ^ 63) : ∃ ops, expandSigned .i8 result numer next d = some ops ∧ ∀ m, Runs ops m fun m' =>
      (m'.read .w64 result).toInt = (m.read .w64 numer).toInt.tdiv d := by
  obtain ⟨c, n, hc, hc64, hn1, hn63, hdiv⟩ := signed_constants h3 hlt
  unfold expandSigned
  simp only [show Mtype.width .i8 = .w64 from rfl, show Width.w64.bits - 1 = 63 from rfl, hc]
  rw [if_neg (by omega)]
  refine ⟨_, rfl, fun m => ?_⟩
  simp only [List.cons_append, List.nil_append]
  set x := m.read .w64 numer with hx
  refine Runs.write rfl fun m₁ h₁ => Runs.flags rfl fun m₂ h₂ hf₂ => Runs.cmov hf₂ rfl fun m₃ h₃ => ?_
  refine Runs.arith₂ rfl fun m₄ m₅ h₄ h₅ => Runs.sari (show n - 1 < 64 by omega) fun m₆ h₆ => ?_
  have habs : (m₃.read .w64 (next + 1)).toNat = x.toInt.natAbs := by
    rw [h₃.read, h₂.other _ _ (by omega), h₂.read, h₁.other _ _ (by omega), ← hx]
    exact abs_toNat x
  have hconst : (m₃.read .w64 next).toNat = c := by
    rw [h₃.other _ _ (by omega), h₂.other _ _ (by omega), h₁.read, BitVec.ofInt_natCast, BitVec.toNat_ofNat,
      Nat.mod_eq_of_lt hc64]
  have hxabs : x.toInt.natAbs ≤ 2 ^ 63 := by
    have hlow := x.le_toInt
    have hhigh := x.toInt_lt
    norm_num at hlow hhigh
    omega
  have hhigh : (m₅.read .w64 (next + 2)).toNat = x.toInt.natAbs * c / 2 ^ 64 := by
    rw [h₅.read, unsigned_high, habs, hconst]
  have hq : (m₆.read .w64 (next + 4)).toNat = x.toInt.natAbs / d.natAbs := by
    have hsmall : x.toInt.natAbs * c / 2 ^ 64 < 2 ^ 63 := by
      rw [Nat.div_lt_iff_lt_mul (by norm_num)]
      calc x.toInt.natAbs * c ≤ 2 ^ 63 * c := Nat.mul_le_mul_right _ hxabs
        _ < 2 ^ 63 * 2 ^ 64 := Nat.mul_lt_mul_of_pos_left hc64 (by norm_num)
    rw [h₆.read, toNat_sshiftRight_of_lt (by rw [hhigh]; exact hsmall), hhigh, Nat.div_div_eq_div_mul, ← pow_add,
      show 64 + (n - 1) = 63 + n by omega, Nat.mul_comm, hdiv _ hxabs]
  have hnumer : m₆.read .w64 numer = x := by
    rw [h₆.other _ _ (by omega), h₅.other _ _ (by omega), h₄.other _ _ (by omega), h₃.other _ _ (by omega),
      h₂.other _ _ (by omega), h₁.other _ _ (by omega)]
  -- a copy of the dividend is kept when the result overwrites it
  by_cases hsame : result = numer
  · rw [if_pos hsame, if_pos hsame]
    refine Runs.write rfl fun m₇ h₇ => (runs_sign (by omega) (by omega) d m₇).mono fun m' hm' => ?_
    rw [hm', h₇.read, hnumer, h₇.other _ _ (by omega)]
    exact toInt_signed_quotient h3 hq
  · rw [if_neg hsame, if_neg hsame]
    refine (runs_sign (by omega) (by omega) d m₆).mono fun m' hm' => ?_
    rw [hm', hnumer]
    exact toInt_signed_quotient h3 hq

/-- Signed 64-bit division by every constant that is no power of two up to its sign. -/
theorem expand_divides_signed_64 (t : Target) (hcvrt : t.cvrtIntDivToMult = true) (hres : result < next)
    (hnum : numer < next) (v : Int) (hlow : -2 ^ 63 ≤ v) (hhigh : v < 2 ^ 63) (h0 : v ≠ 0)
    (hpow : ¬ v.natAbs.isPowerOfTwo) :
    ∃ ops, expandIntegerDivideByConstant t result numer next v .i8 = some ops ∧ ∀ m, Runs ops m fun m' =>
      (m'.read .w64 result).toInt = (m.read .w64 numer).toInt.tdiv v := by
  have hne : ∀ k, v.natAbs ≠ 2 ^ k := fun k hk => hpow ⟨k, hk⟩
  have h1 := hne 0
  have h2 := hne 1
  have h63 := hne 63
  have hpow' : ¬ isPowerOf2 v .i8 = true := fun h => hpow (isPowerOf2_iff.mp h)
  have hchoice : expandIntegerDivideByConstant t result numer next v .i8 = expandSigned .i8 result numer next v := by
    unfold expandIntegerDivideByConstant
    rw [if_neg (by omega), if_neg (by omega), if_neg hpow', if_neg (by simp [hcvrt]),
      if_neg (by simp [Mtype.isDouble])]
    rfl
  rw [hchoice]
  exact expandSigned_runs hres hnum (by omega) (by omega)

/-- The least dividend, and a divisor next to it. -/
theorem expand_divides_signed_64_min : ∃ ops, expandIntegerDivideByConstant ⟨true, true, false⟩ 0 1 2 (1 - 2 ^ 63) .i8 =
    some ops ∧ Runs ops ⟨fun _ => BitVec.intMin 64, none⟩ fun m' => (m'.read .w64 0).toInt = 1 := by
  obtain ⟨ops, hops, hruns⟩ := expand_divides_signed_64 ⟨true, true, false⟩ rfl (show 0 < 2 by decide)
    (show 1 < 2 by decide) (1 - 2 ^ 63) (by decide) (by decide) (by decide) (by decide)
  exact ⟨ops, hops, hruns _⟩

/-! ## Unsigned -/

/-- The divisor of a `U8` division. -/
def divisor (v : Int) : Nat := (v % 2 ^ 64).toNat

/-- An even divisor: the dividend is halved, and the constants are those of the signed path. -/
theorem runs_unsigned_even {v : Int} (h6 : 6 ≤ divisor v) (heven : divisor v % 2 = 0)
    (hlt : divisor v < 2 ^ 64) : ∃ ops, expandUnsigned .u8 result numer next v = some ops ∧ ∀ m, Runs ops m fun m' =>
      (m'.read .w64 result).toNat = (m.read .w64 numer).toNat / divisor v := by
  obtain ⟨c, n, hc, hc64, hn1, hn63, hdiv⟩ := signed_constants (b := divisor v / 2) (by omega) (by omega)
  have hodd : ¬ divisor v % 2 = 1 := by omega
  unfold expandUnsigned
  simp only [show Mtype.width .u8 = .w64 from rfl, hodd, if_false, show Width.w64.bits - 1 = 63 from rfl,
    show testedValue .u8 v = divisor v from rfl, hc]
  rw [if_neg (by omega)]
  refine ⟨_, rfl, fun m => ?_⟩
  simp only [List.cons_append, List.nil_append]
  refine Runs.shri (by norm_num) fun m₁ h₁ => Runs.write rfl fun m₂ h₂ => ?_
  refine Runs.arith₂ rfl fun m₃ m₄ h₃ h₄ => Runs.shri (show n - 1 < 64 by omega) fun m₅ h₅ => Runs.nil ?_
  have hpre : (m₂.read .w64 next).toNat = (m.read .w64 numer).toNat / 2 := by
    rw [h₂.other _ _ (by omega), h₁.read, BitVec.toNat_ushiftRight, Nat.shiftRight_eq_div_pow, pow_one]
  have hconst : (m₂.read .w64 (next + 1)).toNat = c := by
    rw [h₂.read, BitVec.ofInt_natCast, BitVec.toNat_ofNat, Nat.mod_eq_of_lt hc64]
  have hx : (m.read .w64 numer).toNat < 2 ^ 64 := BitVec.isLt _
  rw [h₅.read, BitVec.toNat_ushiftRight, Nat.shiftRight_eq_div_pow, h₄.read, unsigned_high, hpre, hconst,
    Nat.div_div_eq_div_mul, ← pow_add, show 64 + (n - 1) = 63 + n by omega, Nat.mul_comm, hdiv _ (by omega),
    Nat.div_div_eq_div_mul, show 2 * (divisor v / 2) = divisor v by omega]

/-- An odd divisor: what the sequence leaves, whatever the constants are worth. -/
theorem runs_unsigned_odd (result : Nat) (hnum : numer < next) {v : Int} (hodd : divisor v % 2 = 1) {c n : Nat}
    (hc : determinePseudoInverse (divisor v) 64 = (c, n)) (hc64 : c < 2 ^ 64) (hn1 : 1 ≤ n) (hn64 : n ≤ 64) :
    ∃ ops, expandUnsigned .u8 result numer next v = some ops ∧ ∀ m, Runs ops m fun m' =>
      (m'.read .w64 result).toNat = (2 ^ 64 + c) * (m.read .w64 numer).toNat / 2 ^ (n + 64) := by
  unfold expandUnsigned
  simp only [show Mtype.width .u8 = .w64 from rfl, hodd, if_true, show testedValue .u8 v = divisor v from rfl, hc,
    show Width.w64.bits = 64 from rfl]
  rw [if_neg (by omega)]
  refine ⟨_, rfl, fun m => ?_⟩
  simp only [List.cons_append, List.nil_append]
  refine Runs.write rfl fun m₁ h₁ => Runs.arith₂ rfl fun m₂ m₃ h₂ h₃ => ?_
  refine Runs.arith rfl fun m₄ h₄ => Runs.shri (by norm_num) fun m₅ h₅ => Runs.arith rfl fun m₆ h₆ => ?_
  refine Runs.shri (show n - 1 < 64 by omega) fun m₇ h₇ => Runs.nil ?_
  set x := (m.read .w64 numer).toNat with hx
  have hxlt : x < 2 ^ 64 := BitVec.isLt _
  have hconst : (m₁.read .w64 (next + 1)).toNat = c := by
    rw [h₁.read, BitVec.ofInt_natCast, BitVec.toNat_ofNat, Nat.mod_eq_of_lt hc64]
  have hnumer : m₃.read .w64 numer = m.read .w64 numer := by
    rw [h₃.other _ _ (by omega), h₂.other _ _ (by omega), h₁.other _ _ (by omega)]
  have hp : (m₃.read .w64 (next + 2)).toNat = x * c / 2 ^ 64 := by
    rw [h₃.read, unsigned_high, hconst, h₁.other _ _ (by omega)]
  have hple : x * c / 2 ^ 64 ≤ x := by
    refine Nat.div_le_of_le_mul ?_
    rw [Nat.mul_comm]
    exact Nat.mul_le_mul_right _ hc64.le
  have hsub : (m₅.read .w64 (next + 5)).toNat = (x - x * c / 2 ^ 64) / 2 := by
    rw [h₅.read, h₄.read, BitVec.toNat_ushiftRight, Nat.shiftRight_eq_div_pow, hnumer,
      BitVec.toNat_sub_of_le (by rw [BitVec.le_def, hp]; exact hple), hp, pow_one]
  have hadd : (m₆.read .w64 (next + 6)).toNat = (2 ^ 64 + c) * x / 2 ^ 65 := by
    rw [h₆.read, BitVec.toNat_add, hsub, h₅.other _ _ (by omega), h₄.other _ _ (by omega), hp,
      ← average_div 64 x hc64.le, Nat.add_comm]
    refine Nat.mod_eq_of_lt ?_
    show _ < 2 ^ 64
    omega
  rw [h₇.read, BitVec.toNat_ushiftRight, Nat.shiftRight_eq_div_pow, hadd, Nat.div_div_eq_div_mul, ← pow_add,
    show 65 + (n - 1) = n + 64 by omega]

/-- The condition on the divisor: the loop of `determinePseudoInverse` never doubles a remainder of `2^63` or more. -/
def Representable (b : Nat) : Prop := b < 2 ^ 63 ∨ b % 2 = 0 ∨ ∀ i < 64, (2 ^ (64 + i) - 1) % b < 2 ^ 63

/-- The expansion leaves the quotient of every dividend. -/
def Divides (t : Target) (result numer next : Tn) (v : Int) : Prop :=
  ∃ ops, expandIntegerDivideByConstant t result numer next v .u8 = some ops ∧ ∀ m, Runs ops m fun m' =>
    (m'.read .w64 result).toNat = (m.read .w64 numer).toNat / divisor v

/-- The constants of the odd path when no bit is lost. -/
theorem odd_constants {b : Nat} (h3 : 3 ≤ b) (hb : b < 2 ^ 64)
    (hrep : b < 2 ^ 63 ∨ ∀ i < 64, (2 ^ (64 + i) - 1) % b < 2 ^ 63) :
    ∃ c n, determinePseudoInverse b 64 = (c, n) ∧ c < 2 ^ 64 ∧ 1 ≤ n ∧ n ≤ 64 ∧
      ∀ a < 2 ^ 64, (2 ^ 64 + c) * a / 2 ^ (n + 64) = a / b := by
  obtain ⟨n, hn, hw⟩ := inverseWidth_isWidth hb (by omega)
  have hsmall : ∀ j < 64 + 1, trueRemainder b (n - 1) j < 2 ^ 63 := by
    intro j hj
    by_cases hle : b ≤ 2 ^ 63
    · exact lt_of_lt_of_le (Nat.mod_lt _ (by omega)) hle
    · have hn64 : n = 64 := by
        have hlarge := (inverseWidth_large hb (by omega)).1
        rw [hn, Prod.mk.injEq] at hlarge
        exact hlarge.1
      rw [hn64]
      cases j with
      | zero =>
        have hrem : trueRemainder b 63 0 = 2 ^ 63 - 1 := Nat.mod_eq_of_lt (show 2 ^ 63 - 1 < b by omega)
        rw [hrem]
        norm_num
      | succ i =>
        have hrem : trueRemainder b 63 (i + 1) = (2 ^ (64 + i) - 1) % b := by
          rw [trueRemainder, show 63 + (i + 1) = 64 + i by omega]
        rw [hrem]
        exact hrep.resolve_left (by omega) i (by omega)
  obtain ⟨hge, hlt⟩ := reciprocal_bounds 64 hw hb.le
  refine ⟨_, n, determinePseudoInverse_eq hn hw (by omega) hsmall, Nat.mod_lt _ (by norm_num), hw.pos, hw.le,
    fun a ha => ?_⟩
  have htop : 2 ^ 64 + ((2 ^ (n + 64) - 1) / b + 1) % 2 ^ 64 = (2 ^ (n + 64) - 1) / b + 1 := by omega
  rw [htop]
  refine ceil_mul_div (by omega) (Nat.two_pow_pos _) ?_
  rw [pow_add]
  exact Nat.mul_le_mul hw.upper ha.le

/-- Unsigned 64-bit division by a constant that is no power of two: which divisors the expansion divides by. -/
theorem expand_divides_unsigned_64_iff (t : Target) (hcvrt : t.cvrtIntDivToMult = true) (hnum : numer < next) (v : Int)
    (h0 : divisor v ≠ 0) (hpow : ¬ (divisor v).isPowerOfTwo) :
    Divides t result numer next v ↔ Representable (divisor v) := by
  have hne : ∀ k, divisor v ≠ 2 ^ k := fun k hk => hpow ⟨k, hk⟩
  have h1 := hne 0
  have h2 := hne 1
  have h4 := hne 2
  have hlt : divisor v < 2 ^ 64 := by
    unfold divisor
    omega
  have hpow' : ¬ isPowerOf2 v .u8 = true := fun h => hpow (isPowerOf2_iff.mp h)
  have hv1 : v ≠ 1 := by
    rintro rfl
    exact h1 rfl
  have hchoice : expandIntegerDivideByConstant t result numer next v .u8 = expandUnsigned .u8 result numer next v := by
    unfold expandIntegerDivideByConstant
    rw [if_neg hv1, if_neg (by simp [Mtype.isSigned]), if_neg hpow', if_neg (by simp [hcvrt]),
      if_neg (by simp [Mtype.isDouble])]
    rfl
  unfold Divides
  rw [hchoice]
  by_cases heven : divisor v % 2 = 0
  · exact ⟨fun _ => Or.inr (Or.inl heven), fun _ => runs_unsigned_even (by omega) heven hlt⟩
  · have hodd : divisor v % 2 = 1 := by omega
    constructor
    · rintro ⟨ops, hops, hruns⟩
      by_contra hrep
      unfold Representable at hrep
      push Not at hrep
      obtain ⟨hlarge, -, hlost⟩ := hrep
      have hne63 := hne 63
      obtain ⟨c, hc, hbound⟩ := determinePseudoInverse_behind hlt (by omega) hlost
      have hc64 : c < 2 ^ 64 := by
        by_contra hge
        have h1 : 2 ^ 65 * 2 ^ 63 ≤ (2 ^ 64 + c) * divisor v := Nat.mul_le_mul (by omega) hlarge
        omega
      obtain ⟨ops', hops', hruns'⟩ := runs_unsigned_odd result hnum hodd hc hc64 (by norm_num) le_rfl
      obtain rfl : ops = ops' := Option.some.inj (hops.symm.trans hops')
      -- the divisor itself is divided to 0
      obtain ⟨m', hrun, hm'⟩ := hruns ⟨fun _ => BitVec.ofNat 64 (divisor v), none⟩
      obtain ⟨m'', hrun', hm''⟩ := hruns' ⟨fun _ => BitVec.ofNat 64 (divisor v), none⟩
      obtain rfl : m' = m'' := Option.some.inj (hrun.symm.trans hrun')
      have hx : ((⟨fun _ => BitVec.ofNat 64 (divisor v), none⟩ : Machine).read .w64 numer).toNat = divisor v := by
        show ((BitVec.ofNat 64 (divisor v)).setWidth 64).toNat = _
        rw [BitVec.setWidth_eq, BitVec.toNat_ofNat, Nat.mod_eq_of_lt hlt]
      rw [hm'', hx, Nat.div_self (by omega), Nat.div_eq_of_lt hbound] at hm'
      exact Nat.zero_ne_one hm'
    · intro hrep
      have hrep : divisor v < 2 ^ 63 ∨ ∀ i < 64, (2 ^ (64 + i) - 1) % divisor v < 2 ^ 63 := by
        rcases hrep with h | h | h
        · exact Or.inl h
        · omega
        · exact Or.inr h
      obtain ⟨c, n, hc, hc64, hn1, hn64, hdiv⟩ := odd_constants (by omega) hlt hrep
      obtain ⟨ops, hops, hruns⟩ := runs_unsigned_odd result hnum hodd hc hc64 hn1 hn64
      refine ⟨ops, hops, fun m => (hruns m).mono fun m' hm' => ?_⟩
      rw [hm', hdiv _ (BitVec.isLt _)]

/-- A divisor above half the range without a lost bit, and the largest divisor of all. -/
theorem expand_divides_unsigned_64_iff_seven :
    (Divides ⟨true, true, false⟩ 0 1 2 7 ↔ Representable 7) ∧
      (Divides ⟨true, true, false⟩ 0 1 2 (-1) ↔ Representable (2 ^ 64 - 1)) :=
  ⟨expand_divides_unsigned_64_iff _ rfl (by decide) 7 (by decide) (by decide),
    expand_divides_unsigned_64_iff _ rfl (by decide) (-1) (by decide) (by decide)⟩

/-- The divisor `2^64 - 3` divides itself to 0. -/
theorem expand_unsigned_64_fails : ¬ Divides ⟨true, true, false⟩ 0 1 2 (-3) ∧
    ((expandIntegerDivideByConstant ⟨true, true, false⟩ 0 1 2 (-3) .u8).bind fun ops =>
      (run ops ⟨fun _ => -3, none⟩).map fun m => m.regs 0) = some 0 := by
  have heval : ((expandIntegerDivideByConstant ⟨true, true, false⟩ 0 1 2 (-3) .u8).bind fun ops =>
      (run ops ⟨fun _ => -3, none⟩).map fun m => m.regs 0) = some 0 := by decide +kernel
  refine ⟨?_, heval⟩
  rintro ⟨ops, hops, hruns⟩
  obtain ⟨m', hrun, hm'⟩ := hruns ⟨fun _ => -3, none⟩
  rw [hops, Option.bind_some, hrun, Option.map_some, Option.some.injEq] at heval
  have hzero : (m'.read .w64 0).toNat = 0 := by
    show ((m'.regs 0).setWidth 64).toNat = 0
    rw [heval]
    rfl
  rw [hzero] at hm'
  exact absurd hm' (by decide)

end Path64.DivRem

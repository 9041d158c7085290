import Path64.Targ.Folding

/-!
# Integer powers

`Targ_Ipower` and `Targ_Power` of `targ_const.cxx`, for integer bases and exponents.

* `mpy`, `powerLoop`, `targIpower`, `targPower` : the functions; the callers ask for a result of type I4 or I8;
* `Right` : the result is the power, or the truncated value of its reciprocal;
* `powerLoop_spec` : the loop computes the power modulo the size of the type;
* `power_right_iff` : the powers that are right.
-/

namespace Path64.Targ
open Simp

/-! ## The functions -/

/-- `OPC_I4MPY` and its like, as `Targ_WhirlOp` folds them. -/
def mpy (type : RType) (c0 c1 : Tcon) : Tcon := ⟨type, (whirlOp (.binary .mpy type) c0 c1).vals⟩

/-- The square and multiply loop, for at most so many turns: `r` and `base`. -/
def powerLoop (btype : RType) : Nat → BitVec 64 → Tcon → Tcon → Tcon × Tcon
  | 0, _, r, base => (r, base)
  | n + 1, exp, r, base =>
    if exp = 0 then (r, base)
    else powerLoop btype n (exp >>> 1) (if exp &&& 1 ≠ 0 then mpy btype r base else r) (mpy btype base base)

/-- `Targ_Ipower`, for an integer type: `*folded` and the result. -/
def targIpower (base : Tcon) (exp : BitVec 64) (negExp : Bool) (btype : RType) : Bool × Tcon :=
  let r := Tcon.write btype ⟨btype, 0⟩ 1
  let (r, base) := powerLoop btype 64 exp r base
  if negExp then
    let ty := base.ty
    if r.read ty = 0 then (false, r)
    else if r.read ty ≠ 1 ∧ (ty.1.isUnsigned = true ∨ r.read ty ≠ -1) then (true, r.write ty 0)
    else (true, r)
  else (true, r)

/-- `Targ_Power`, for an exponent of an integer type. -/
def targPower (base exp : Tcon) (btype : RType) : Bool × Tcon :=
  if exp.ty = .u8 ∨ exp.ty = .u4 then targIpower base (BitVec.ofInt 64 exp.value) false btype
  else if exp.ty = .i4 then
    let intExp := BitVec.ofInt 64 exp.value
    if intExp.slt 0 then targIpower base (-intExp) true btype else targIpower base intExp false btype
  else
    let intExp := BitVec.ofInt 64 exp.value
    if intExp = 0x8000000000000000 then targIpower base intExp true btype
    else if intExp.slt 0 then targIpower base (-intExp) true btype
    else targIpower base intExp false btype

/-- The result of a folded power: the power modulo the size of the type, or the truncated reciprocal. -/
def Right (base exp : Tcon) (btype : RType) : Prop :=
  (targPower base exp btype).1 = true →
    (targPower base exp btype).2.read btype =
      if 0 ≤ exp.value then btype.1.wrap (base.value ^ exp.value.toNat)
      else (1 : Int).tdiv (base.value ^ (-exp.value).toNat)

/-! ## The loop -/

section
variable {btype : RType} {c0 c1 r base exp : Tcon} {n : Nat}

theorem mpy_spec (h : btype ≠ .u8) (c0 c1 : Tcon) :
    (mpy btype c0 c1).ty = btype ∧ (mpy btype c0 c1).value = btype.1.wrap (c0.value * c1.value) := by
  refine ⟨rfl, (value_binary .mpy btype c0 c1).trans ?_⟩
  show btype.1.wrap (operand btype c0 * operand btype c1) = _
  rw [operand, operand, if_neg h, if_neg h]
  exact MType.wrap_congr ((MType.wrap_modEq _ _).mul (MType.wrap_modEq _ _))

theorem powerLoop_zero (btype : RType) (n : Nat) (r base : Tcon) : powerLoop btype n 0 r base = (r, base) := by
  cases n with
  | zero => rfl
  | succ n => rw [powerLoop, if_pos rfl]

theorem toNat_zero_exp : (0 : BitVec 64).toNat = 0 := rfl

theorem and_one_ne_zero_iff (e : BitVec 64) : e &&& 1 ≠ 0 ↔ e.toNat % 2 = 1 := by
  have hand : (e &&& 1).toNat = e.toNat % 2 := (BitVec.toNat_and ..).trans (Nat.and_one_is_mod _)
  rw [Ne, ← BitVec.toNat_inj, hand]
  show ¬e.toNat % 2 = 0 ↔ _
  omega

theorem value_eq_wrap (hr : r.ty = btype) : r.value = btype.1.wrap r.value := by
  rw [Tcon.value, hr]
  exact (MType.wrap_wrap _ _).symm

/-- The loop multiplies by the power. -/
theorem powerLoop_spec (base : Tcon) (h : btype ≠ .u8) (e : BitVec 64) (hn : e.toNat < 2 ^ n) (hr : r.ty = btype) :
    (powerLoop btype n e r base).1.ty = btype ∧
      (powerLoop btype n e r base).1.value = btype.1.wrap (r.value * base.value ^ e.toNat) ∧
      (e ≠ 0 → (powerLoop btype n e r base).2.ty = btype) := by
  induction n generalizing e r base with
  | zero =>
    obtain rfl : e = 0 := BitVec.eq_of_toNat_eq (by show e.toNat = 0; omega)
    refine ⟨hr, ?_, fun h0 => absurd rfl h0⟩
    rw [toNat_zero_exp, pow_zero, mul_one]
    exact value_eq_wrap hr
  | succ n ih =>
    by_cases h0 : e = 0
    · subst h0
      rw [powerLoop_zero, toNat_zero_exp, pow_zero, mul_one]
      exact ⟨hr, value_eq_wrap hr, fun h0 => absurd rfl h0⟩
    have hhalf : (e >>> 1).toNat = e.toNat / 2 := by
      rw [BitVec.toNat_ushiftRight, Nat.shiftRight_eq_div_pow, pow_one]
    obtain ⟨hbty, hbval⟩ := mpy_spec h base base
    obtain ⟨hrty, hrval⟩ := mpy_spec h r base
    rw [powerLoop, if_neg h0]
    have hr' : (if e &&& 1 ≠ 0 then mpy btype r base else r).ty = btype := by
      split_ifs
      · exact hrty
      · exact hr
    obtain ⟨hty, hval, hbase⟩ := ih (mpy btype base base) (e >>> 1) (by rw [hhalf]; omega) hr'
    refine ⟨hty, hval.trans (MType.wrap_congr ?_), fun _ => ?_⟩
    · rw [hhalf, hbval]
      -- the square of the base to half of the exponent, and the base once more if it is odd
      have hsquare : (btype.1.wrap (base.value * base.value)) ^ (e.toNat / 2) ≡
          base.value ^ (2 * (e.toNat / 2)) [ZMOD 2 ^ btype.1.bits] := by
        rw [pow_mul, pow_two]
        exact (MType.wrap_modEq _ _).pow _
      by_cases hodd : e &&& 1 ≠ 0
      · have hexp : e.toNat = 2 * (e.toNat / 2) + 1 := by
          have := (and_one_ne_zero_iff e).mp hodd
          omega
        have hpow : r.value * base.value ^ e.toNat = r.value * base.value * base.value ^ (2 * (e.toNat / 2)) := by
          conv_lhs => rw [hexp, pow_succ]
          ring
        rw [if_pos hodd, hrval, hpow]
        exact (MType.wrap_modEq _ _).mul hsquare
      · have hexp : 2 * (e.toNat / 2) = e.toNat := by
          have := mt (and_one_ne_zero_iff e).mpr hodd
          omega
        rw [hexp] at hsquare
        rw [if_neg hodd]
        exact (Int.ModEq.refl _).mul hsquare
    · by_cases hrest : e >>> 1 = 0
      · rw [hrest, powerLoop_zero]
        exact hbty
      · exact hbase hrest

/-! ## The powers that are right -/

theorem power_spec (h : btype ≠ .u8) (base : Tcon) (e : BitVec 64) :
    (powerLoop btype 64 e (Tcon.write btype ⟨btype, 0⟩ 1) base).1.ty = btype ∧
      (powerLoop btype 64 e (Tcon.write btype ⟨btype, 0⟩ 1) base).1.read btype = btype.1.wrap (base.value ^ e.toNat) ∧
      (e ≠ 0 → (powerLoop btype 64 e (Tcon.write btype ⟨btype, 0⟩ 1) base).2.ty = btype) := by
  obtain ⟨hty, hval, hbase⟩ := powerLoop_spec base h e e.isLt (Tcon.ty_write btype ⟨btype, 0⟩ 1)
  have hone : (Tcon.write btype ⟨btype, 0⟩ 1).value = 1 := (Tcon.read_write rfl _ _).trans (btype.wrap_toInt true)
  rw [hone, one_mul, Tcon.value, hty] at hval
  exact ⟨hty, hval, hbase⟩

theorem targIpower_nonneg (h : btype ≠ .u8) (base : Tcon) (e : BitVec 64) :
    (targIpower base e false btype).2.read btype = btype.1.wrap (base.value ^ e.toNat) := (power_spec h base e).2.1

theorem targIpower_neg (h : btype.1.isUnsigned = false) (base : Tcon) {e : BitVec 64} (he : e ≠ 0) {p : Int}
    (hp : btype.1.wrap (base.value ^ e.toNat) = p) :
    ((targIpower base e true btype).1 = true ↔ p ≠ 0) ∧
      (p ≠ 0 → (targIpower base e true btype).2.read btype = if p = 1 ∨ p = -1 then p else 0) := by
  have hne : btype ≠ .u8 := fun h8 => by
    rw [h8] at h
    exact Bool.noConfusion h
  obtain ⟨-, hval, hbase⟩ := power_spec hne base e
  rw [hp] at hval
  simp only [targIpower, if_true]
  generalize powerLoop btype 64 e (Tcon.write btype ⟨btype, 0⟩ 1) base = result at hval hbase ⊢
  obtain ⟨r, b⟩ := result
  have hb : b.ty = btype := hbase he
  have hr : r.read btype = p := hval
  simp only [hb, hr, h, Bool.false_eq_true, false_or]
  by_cases h0 : p = 0
  · simp [h0]
  by_cases h1 : p ≠ 1 ∧ p ≠ -1
  · rw [if_neg h0, if_pos h1, if_neg (by omega)]
    refine ⟨iff_of_true rfl h0, fun _ => ?_⟩
    rw [Tcon.read_write rfl]
    exact MType.wrap_zero _
  · rw [if_neg h0, if_neg h1, if_pos (by omega)]
    exact ⟨iff_of_true rfl h0, fun _ => hr⟩

theorem slt_ofInt {v : Int} (h : -2 ^ 63 ≤ v) (h' : v < 2 ^ 63) :
    (BitVec.ofInt 64 v).slt 0 = decide (v < 0) := by
  have hzero : (0 : BitVec 64).toInt = 0 := rfl
  rw [BitVec.slt_eq_decide, hzero, BitVec.toInt_ofInt, Int.bmod_eq_of_le h h']

theorem toNat_neg_ofInt {v : Int} (h : -2 ^ 63 ≤ v) (h' : v < 0) : (-BitVec.ofInt 64 v).toNat = (-v).toNat := by
  rw [← BitVec.ofInt_neg, BitVec.toNat_ofInt]
  show ((-v) % 2 ^ 64).toNat = _
  rw [Int.emod_eq_of_lt (by omega) (by omega)]

theorem inRange_value (c : Tcon) : c.ty.1.InRange c.value := MType.inRange_wrap _ _

theorem targPower_nonneg (base : Tcon) (btype : RType) (h : 0 ≤ exp.value) : ∃ e : BitVec 64, e.toNat = exp.value.toNat ∧
    targPower base exp btype = targIpower base e false btype := by
  have hrange := inRange_value exp
  have hsmall : exp.value < 2 ^ 64 → (BitVec.ofInt 64 exp.value).toNat = exp.value.toNat := fun hlt => by
    rw [BitVec.toNat_ofInt]
    show (exp.value % 2 ^ 64).toNat = _
    rw [Int.emod_eq_of_lt h hlt]
  have hsign : exp.value < 2 ^ 63 → (BitVec.ofInt 64 exp.value).slt 0 = false := fun hlt => by
    rw [slt_ofInt (by omega) hlt, decide_eq_false (not_lt.mpr h)]
  unfold targPower
  refine ⟨BitVec.ofInt 64 exp.value, ?_⟩
  rcases RType.cases exp.ty with hty | hty | hty | hty <;> rw [hty] at hrange ⊢
  · have hlt : exp.value < 2 ^ 31 := hrange.2
    refine ⟨hsmall (by omega), ?_⟩
    rw [if_neg (by decide), if_pos rfl]
    simp only [hsign (show exp.value < 2 ^ 63 by omega), Bool.false_eq_true, if_false]
  · have hlt : exp.value < 2 ^ 63 := hrange.2
    refine ⟨hsmall (by omega), ?_⟩
    have hleast : BitVec.ofInt 64 exp.value ≠ 0x8000000000000000 := fun heq => by
      have := hsign hlt
      rw [heq] at this
      exact absurd this (by decide)
    rw [if_neg (by decide), if_neg (by decide)]
    simp only [if_neg hleast, hsign hlt, Bool.false_eq_true, if_false]
  · have hlt : exp.value < 2 ^ 32 := hrange.2
    exact ⟨hsmall (by omega), if_pos (by decide)⟩
  · exact ⟨hsmall hrange.2, if_pos (by decide)⟩

theorem targPower_neg (base : Tcon) (btype : RType) (h : exp.value < 0) : ∃ e : BitVec 64, e.toNat = (-exp.value).toNat ∧
    targPower base exp btype = targIpower base e true btype := by
  have hrange := inRange_value exp
  unfold targPower
  rcases RType.cases exp.ty with hty | hty | hty | hty <;> rw [hty] at hrange ⊢
  · have hle : -2 ^ 31 ≤ exp.value := hrange.1
    refine ⟨-BitVec.ofInt 64 exp.value, toNat_neg_ofInt (by omega) h, ?_⟩
    rw [if_neg (by decide), if_pos rfl]
    simp only [slt_ofInt (show -2 ^ 63 ≤ exp.value by omega) (by omega), decide_eq_true h, if_true]
  · have hle : -2 ^ 63 ≤ exp.value := hrange.1
    refine ⟨-BitVec.ofInt 64 exp.value, toNat_neg_ofInt hle h, ?_⟩
    rw [if_neg (by decide), if_neg (by decide)]
    simp only [slt_ofInt hle (show exp.value < 2 ^ 63 by omega), decide_eq_true h, if_true]
    -- the least exponent is its own negation
    split_ifs with hleast
    · rw [hleast]
      rfl
    · rfl
  · exact absurd hrange.1 (not_le.mpr h)
  · exact absurd hrange.1 (not_le.mpr h)

theorem tdiv_pow {b : Int} {n : Nat} (hn : n ≠ 0) (hb : b ≠ 1) (hb' : b ≠ -1) : (1 : Int).tdiv (b ^ n) = 0 := by
  rcases eq_or_ne b 0 with rfl | h0
  · rw [zero_pow hn]
    rfl
  have hlarge : 1 < (b ^ n).natAbs := by
    rw [Int.natAbs_pow]
    exact Nat.one_lt_pow hn (by omega)
  rcases Int.le_total 0 (b ^ n) with hpos | hneg
  · exact Int.tdiv_eq_zero_of_lt (by decide) (by omega)
  · rw [← neg_neg (b ^ n), Int.tdiv_neg, Int.tdiv_eq_zero_of_lt (by decide) (by omega), neg_zero]

/-- **The powers that are right.** -/
theorem power_right_iff (base exp : Tcon) (btype : RType) (hb : btype = .i4 ∨ btype = .i8) :
    Right base exp btype ↔ ¬(exp.value < 0 ∧ base.value ≠ 1 ∧ base.value ≠ -1 ∧
      (btype.1.wrap (base.value ^ (-exp.value).toNat) = 1 ∨
        btype.1.wrap (base.value ^ (-exp.value).toNat) = -1)) := by
  have hsigned : btype.1.isUnsigned = false := by rcases hb with rfl | rfl <;> rfl
  unfold Right
  by_cases h0 : 0 ≤ exp.value
  · have hne : btype ≠ .u8 := by rcases hb with rfl | rfl <;> decide
    obtain ⟨e, he, hrun⟩ := targPower_nonneg base btype h0
    rw [if_pos h0, hrun, ← he]
    exact iff_of_true (fun _ => targIpower_nonneg hne base e) fun h => absurd h.1 (not_lt.mpr h0)
  · have hneg : exp.value < 0 := not_le.mp h0
    obtain ⟨e, he, hrun⟩ := targPower_neg base btype hneg
    have hpos : e ≠ 0 := by
      rintro rfl
      have : (0 : BitVec 64).toNat = 0 := rfl
      omega
    rw [if_neg h0, hrun, ← he]
    obtain ⟨hfolded, hval⟩ := targIpower_neg hsigned base hpos rfl
    rw [hfolded]
    have hn : e.toNat ≠ 0 := fun h => hpos (BitVec.eq_of_toNat_eq h)
    by_cases hunit : base.value = 1 ∨ base.value = -1
    · -- a power of 1 or -1 is its own reciprocal
      have hpow : base.value ^ e.toNat = 1 ∨ base.value ^ e.toNat = -1 := by
        rcases hunit with h | h
        · exact .inl (by rw [h, one_pow])
        · rw [h]
          exact neg_one_pow_eq_or Int e.toNat
      refine iff_of_true (fun h => ?_) fun h => by omega
      rw [hval h]
      rcases hpow with h | h <;> rw [h] <;> rcases hb with rfl | rfl <;> decide
    · rw [not_or] at hunit
      rw [tdiv_pow hn hunit.1 hunit.2]
      constructor
      · rintro hright ⟨-, -, -, hp⟩
        have hne : btype.1.wrap (base.value ^ e.toNat) ≠ 0 := by rcases hp with h | h <;> rw [h] <;> decide
        have := hright hne
        rw [hval hne, if_pos hp] at this
        exact hne this
      · intro hnot h
        rw [hval h, if_neg fun hp => hnot ⟨hneg, hunit.1, hunit.2, hp⟩]

/-- `2 ** (-3)`. -/
theorem power_right_iff_two : Right ⟨.i4, 2⟩ ⟨.i4, 0xfffffffd⟩ .i4 :=
  (power_right_iff ⟨.i4, 2⟩ ⟨.i4, 0xfffffffd⟩ .i4 (.inl rfl)).mpr (by decide)

/-- `2147483647 ** (-2)` is folded to 1. -/
theorem not_right_wraps : ¬Right ⟨.i4, 0x7fffffff⟩ ⟨.i4, 0xfffffffe⟩ .i4 := by
  unfold Right
  decide

end

end Path64.Targ

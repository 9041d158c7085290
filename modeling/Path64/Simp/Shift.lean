import Path64.Simp.Const

/-!
# The simplification of shifts

`simp_shift` of the simplifier (`wn_simp_code.h`), on a target of the host's endianness.

* `constCount` : the places that a constant count asks for; `valueType` : `get_value_type`;
* `simpShiftShift`, `simpMaskShl`, `simpShortShift` : the rules for shifts of shifts, of masks and of short values;
* `simpShift` : the function;
* `shiftBit` : where the bits of a shift come from; `simpShift_eval` : every rule keeps them.
-/

namespace Path64.Simp

open Lib

/-- The settings that the rules for bits depend on. -/
structure BitFlags where
  extractBits : Bool
  composeBits : Bool
  keepCvt : Bool

def Opr2.isShift : Opr2 → Bool
  | .shl | .ashr | .lshr => true
  | _ => false

/-- `get_value_type`. -/
def Simpnode.valueType : Simpnode → MType
  | .load _ desc _ => desc
  | node => node.rtype.1

/-- The count of a shift by the constant `val`. -/
def constCount (mask : Bool) (ty : RType) (val : Int) : Nat :=
  if mask then (val.land (ty.1.bits - 1)).toNat else min (val % 2 ^ 64).toNat ty.1.bits

/-- The type of a field, by the size of the shift. -/
def extractType (signed : Bool) (shiftSize : Nat) : RType :=
  match signed with
  | false => if shiftSize = 32 then .u4 else .u8
  | true => if shiftSize = 32 then .i4 else .i8

section

variable {mask : Bool} (flags : BitFlags) (create : Creates mask) (op : Opr2) (ty : RType)

/-- A shift by `c1` of `j first c2`, of the same size. -/
def simpShiftShift (first : Opr2) (j : Simpnode) (c1 c2 : Nat) : Option Simpnode :=
  let shiftSize := ty.1.bits
  if first = op then
    if c1 + c2 ≥ shiftSize then
      if op ≠ .ashr then some (.intconst ty 0)
      else some (create.exp2 op ty j (.intconst ty (shiftSize - 1)))
    else some (create.exp2 op ty j (.intconst ty (c1 + c2)))
  else if first ≠ .shl ∧ op = .shl ∧ c1 = c2 then
    some (create.exp2 .band ty j (.intconst ty (createBitmask c1).lnot))
  else if first = .shl ∧ op = .lshr ∧ c1 = c2 then
    some (create.exp2 .band ty j (.intconst ty (createBitmask (shiftSize - c1))))
  else if first = .shl ∧ op = .lshr ∧ flags.extractBits ∧ c1 > c2 then
    some (create.extract (extractType false shiftSize) (c1 - c2) (max (shiftSize - c1) 1) j)
  else if first = .shl ∧ op = .ashr ∧ c1 = 32 ∧ c2 = 32 then
    if j.rtype = .i4 ∨ j.rtype = .u4 then some (create.cvt .i8 .i4 j) else none
  else if first = .shl ∧ op = .ashr ∧ flags.extractBits ∧ c1 ≥ c2 then
    some (create.extract (extractType true shiftSize) (c1 - c2) (max (shiftSize - c1) 1) j)
  else none

/-- `(j & c2) << k1`. -/
def simpMaskShl (j k1 : Simpnode) (c1 : Nat) (c2 : Int) : Option Simpnode :=
  let ones := createBitmask (ty.1.bits - c1)
  if c2.land ones = ones then some (create.exp2 .shl ty j k1)
  else if flags.composeBits ∧ isPowerOf2 (wrap64 (c2 + 1)) then
    some (create.deposit ty c1 (wrap64 (c2 + 1) % 2 ^ 64).toNat.log2 (.intconst ty 0) j)
  else none

/-- A value of a type with no more than `c1` bits. -/
def simpShortShift (k0 : Simpnode) (c1 : Nat) : Option Simpnode :=
  let rty := k0.valueType
  if rty ≠ ty.1 ∧ ((op = .lshr ∧ rty.isUnsigned) ∨ (op = .ashr ∧ k0.rtype.1.isUnsigned ∧ rty.bits < ty.1.bits)) ∧
      c1 ≥ rty.bits then
    some (.intconst ty 0)
  else none

/-- A shift by the constant `k1`, which moves `c1` places: not none, and fewer than there are. -/
def simpShiftConst (k0 k1 : Simpnode) (c1 : Nat) : Option Simpnode :=
  match k0 with
  | .cvt _ _ j =>
    if ¬flags.keepCvt ∧ op = .shl ∧ c1 ≥ 32 then some (create.exp2 op ty j k1) else simpShortShift op ty k0 c1
  | .exp2 .band bty j (.intconst cty c2) =>
    if op = .shl then simpMaskShl flags create ty j k1 c1 c2
    else if ty.1.bits = bty.1.bits then
      let tmp := create.exp2 op ty (.intconst cty c2) k1
      some (create.exp2 .band bty (create.exp2 op ty j k1) tmp)
    else simpShortShift op ty k0 c1
  | .exp2 first sty j (.intconst _ val2) =>
    if first.isShift ∧ ty.1.bits = sty.1.bits then
      simpShiftShift flags create op ty first j c1 (constCount mask ty val2)
    else simpShortShift op ty k0 c1
  | _ => simpShortShift op ty k0 c1

/-- `simp_shift`. -/
def simpShift (k0 k1 : Simpnode) : Option Simpnode :=
  match k1 with
  | .intconst _ val =>
    let c1 := constCount mask ty val
    if c1 = 0 then some k0
    else if c1 ≥ ty.1.bits then
      if op ≠ .ashr then some (.intconst ty 0)
      else some (create.exp2 op ty k0 (.intconst ty (ty.1.bits - 1)))
    else simpShiftConst flags create op ty k0 k1 c1
  | .exp2 .band _ x (.intconst _ c1) =>
    if mask ∧ c1.land (ty.1.bits - 1) = ty.1.bits - 1 then some (create.exp2 op ty k0 x) else none
  | _ => none

end

/-! ## The bits of a shift -/

section Bits

variable {mask : Bool} {env : Env} {op : Opr2} {ty kty : RType} {r k0 k1 j : Simpnode} {x y m val : Int} {w n k c1 c2 : Nat}

/-- Bit `k` of `x` shifted by `count` places, in `w` bits. -/
def shiftBit (op : Opr2) (w count k : Nat) (x : Int) : Bool :=
  match op with
  | .shl => decide (count ≤ k) && x.testBit (k - count)
  | .ashr => x.testBit (min (count + k) (w - 1))
  | .lshr => decide (count + k < w) && x.testBit (count + k)
  | _ => false

/-- `y` is `x`, shifted. -/
def Shifted (op : Opr2) (w count : Nat) (x y : Int) : Prop := ∀ i < w, y.testBit i = shiftBit op w count i x

theorem MType.testBit_wrap (ty : MType) (x : Int) (hk : k < ty.bits) : (ty.wrap x).testBit k = x.testBit k :=
  emod_two_pow_eq_iff.mp (wrap_emod ty x) k hk

theorem wrap_eval_eq (hty : k0.rtype = ty)
    (h : ∀ k < ty.1.bits, (r.eval mask env).testBit k = (k0.eval mask env).testBit k) :
    ty.1.wrap (r.eval mask env) = k0.eval mask env := by
  subst hty
  rw [← k0.wrap_eval]
  exact MType.wrap_congr (emod_two_pow_eq_iff.mpr h)

theorem testBit_eval_shift (hop : op.isShift = true) (hk : k < ty.1.bits) :
    ((Simpnode.exp2 op ty k0 k1).eval mask env).testBit k =
      shiftBit op ty.1.bits (shiftCount mask ty (k1.eval mask env)) k (k0.eval mask env) := by
  show (ty.1.wrap _).testBit k = _
  rw [MType.testBit_wrap _ _ hk]
  cases op with
  | shl =>
    show (_ * 2 ^ _ : Int).testBit k = (decide _ && _)
    rw [testBit_mul_two_pow, MType.testBit_wrap _ _ (by omega)]
    rfl
  | ashr =>
    show ((_ : Int) / 2 ^ _).testBit k = Int.testBit _ _
    rw [testBit_div_two_pow, testBit_bmod _ ty.1.one_le_bits, MType.testBit_wrap _ _ (by omega)]
    rfl
  | lshr =>
    show (ty.1.wrap (k0.eval mask env) % 2 ^ ty.1.bits / 2 ^ shiftCount mask ty (k1.eval mask env)).testBit k =
      (decide (shiftCount mask ty (k1.eval mask env) + k < ty.1.bits) && _)
    rw [testBit_div_two_pow, testBit_emod]
    by_cases hlt : shiftCount mask ty (k1.eval mask env) + k < ty.1.bits
    · rw [MType.testBit_wrap _ _ hlt]
    · rw [decide_eq_false hlt, Bool.false_and, Bool.false_and]
  | _ => exact absurd hop (by decide)

theorem testBit_eval_band (hk : k < ty.1.bits) :
    ((Simpnode.exp2 .band ty k0 k1).eval mask env).testBit k =
      ((k0.eval mask env).testBit k && (k1.eval mask env).testBit k) := by
  show (ty.1.wrap _).testBit k = _
  rw [MType.testBit_wrap _ _ hk]
  show (Int.land _ (ty.1.wrap _)).testBit k = _
  rw [Int.testBit_land, MType.testBit_wrap _ _ hk, MType.testBit_wrap _ _ hk]

/-! ## Counts -/

theorem bits_le (ty : RType) : ty.1.bits ≤ 64 := by rcases ty.bits_eq with h | h <;> omega

theorem constCount_le (mask : Bool) (ty : RType) (val : Int) : constCount mask ty val ≤ ty.1.bits := by
  unfold constCount
  split_ifs
  · rcases ty.bits_eq with h | h <;> rw [h]
    · have := land_two_pow_sub_one val 5
      norm_num at this ⊢
      omega
    · have := land_two_pow_sub_one val 6
      norm_num at this ⊢
      omega
  · exact min_le_right _ _

/-- The simplifier's count is that of the shift. -/
theorem shiftCount_const (hval : Stored kty val) :
    shiftCount mask ty ((Simpnode.intconst kty val).eval mask env) = constCount mask ty val := by
  show shiftCount mask ty (kty.1.wrap val) = _
  have hmod := MType.wrap_emod kty.1 val
  unfold shiftCount constCount
  split_ifs
  · have hdvd : (ty.1.bits : Int) ∣ 2 ^ kty.1.bits := by
      rcases ty.bits_eq with h | h <;> rcases kty.bits_eq with h' | h' <;> rw [h, h'] <;> decide
    have hland : val.land (ty.1.bits - 1) = val % ty.1.bits := by
      rcases ty.bits_eq with h | h <;> rw [h]
      · exact land_two_pow_sub_one val 5
      · exact land_two_pow_sub_one val 6
    rw [hland, ← Int.emod_emod_of_dvd (kty.1.wrap val) hdvd, hmod, Int.emod_emod_of_dvd val hdvd]
  · rcases lt_or_ge val 0 with hneg | hnonneg
    · -- a negative constant asks for more places than there are
      have hbits := bits_le ty
      have hint := hval.int64.1
      have hle := hval.le
      have hwrap : 64 ≤ kty.1.wrap val % 2 ^ 64 := by
        rcases RType.cases kty with rfl | rfl | rfl | rfl
        · rw [hval.wrap_signed rfl]
          omega
        · rw [hval.wrap_signed rfl]
          omega
        · show (64 : Int) ≤ val % 2 ^ 32 % 2 ^ 64
          change (-2 ^ 31 : Int) ≤ val at hle
          omega
        · show (64 : Int) ≤ val % 2 ^ 64 % 2 ^ 64
          omega
      rw [min_eq_right (by omega), min_eq_right (by omega)]
    · rw [hval.wrap_nonneg hnonneg]

theorem shiftCount_natCast (hn : n < ty.1.bits) : shiftCount mask ty ((Simpnode.intconst ty n).eval mask env) = n := by
  have hbits := bits_le ty
  have hwrap : ty.1.wrap n = n := by
    apply MType.wrap_of_inRange
    rcases RType.cases ty with rfl | rfl | rfl | rfl
    · exact ⟨show (-2 ^ 31 : Int) ≤ n by omega, show (n : Int) < 2 ^ 31 by omega⟩
    · exact ⟨show (-2 ^ 63 : Int) ≤ n by omega, show (n : Int) < 2 ^ 63 by omega⟩
    · exact ⟨Int.natCast_nonneg n, show (n : Int) < 2 ^ 32 by omega⟩
    · exact ⟨Int.natCast_nonneg n, show (n : Int) < 2 ^ 64 by omega⟩
  show shiftCount mask ty (ty.1.wrap n) = n
  rw [hwrap]
  unfold shiftCount
  split_ifs
  · rw [Int.emod_eq_of_lt (Int.natCast_nonneg n) (by omega), Int.toNat_natCast]
  · omega

/-! ## Shifts of shifts -/

theorem shiftBit_zero (hop : op.isShift = true) (hk : k < w) : shiftBit op w 0 k x = x.testBit k := by
  cases op with
  | shl => rfl
  | ashr =>
    show x.testBit _ = _
    rw [Nat.zero_add, min_eq_left (by omega)]
  | lshr =>
    show (decide _ && x.testBit _) = _
    rw [Nat.zero_add, decide_eq_true hk, Bool.true_and]
  | _ => exact absurd hop (by decide)

theorem shiftBit_big (hashr : op ≠ .ashr) (hn : w ≤ n) (hk : k < w) : shiftBit op w n k x = false := by
  cases op with
  | shl => exact (congrArg (· && _) (decide_eq_false (by omega))).trans (Bool.false_and _)
  | ashr => exact absurd rfl hashr
  | lshr => exact (congrArg (· && _) (decide_eq_false (by omega))).trans (Bool.false_and _)
  | _ => rfl

theorem shiftBit_ashr_big (hn : w - 1 ≤ n) : shiftBit .ashr w n k x = x.testBit (w - 1) :=
  congrArg x.testBit (min_eq_right (by omega))

theorem shiftBit_add (hy : Shifted op w c2 x y) (hk : k < w) : shiftBit op w c1 k y = shiftBit op w (c1 + c2) k x := by
  cases op with
  | shl =>
    show (decide _ && y.testBit _) = (decide _ && x.testBit _)
    rw [hy _ (by omega)]
    show (decide _ && (decide _ && x.testBit _)) = _
    rw [← Bool.and_assoc, ← Bool.decide_and, Nat.sub_sub]
    exact congrArg (· && _) (decide_eq_decide.mpr (by omega))
  | ashr =>
    show y.testBit _ = x.testBit _
    rw [hy _ (by omega)]
    exact congrArg x.testBit (by omega)
  | lshr =>
    show (decide _ && y.testBit _) = (decide _ && x.testBit _)
    by_cases hlt : c1 + k < w
    · rw [hy _ hlt, decide_eq_true hlt, Bool.true_and, show c1 + c2 + k = c2 + (c1 + k) by omega]
      rfl
    · rw [decide_eq_false hlt, decide_eq_false (by omega), Bool.false_and, Bool.false_and]
  | _ => rfl

/-- Right and back: the low bits are lost. -/
theorem shiftBit_shl_right (hy : Shifted op w c2 x y) (hright : op = .ashr ∨ op = .lshr) (hk : k < w) :
    shiftBit .shl w c2 k y = (decide (c2 ≤ k) && x.testBit k) := by
  show (decide _ && y.testBit _) = _
  by_cases hle : c2 ≤ k
  · rw [hy _ (by omega)]
    rcases hright with rfl | rfl
    · show (_ && x.testBit _) = _
      rw [show min (c2 + (k - c2)) (w - 1) = k by omega]
    · show (_ && (decide _ && x.testBit _)) = _
      rw [show c2 + (k - c2) = k by omega, decide_eq_true hk, Bool.true_and]
  · rw [decide_eq_false hle, Bool.false_and, Bool.false_and]

/-- Left and back: a field of bits, extended with zeros … -/
theorem shiftBit_lshr_shl (hy : Shifted .shl w c2 x y) (hle : c2 ≤ c1) :
    shiftBit .lshr w c1 k y = (decide (k < w - c1) && x.testBit (c1 - c2 + k)) := by
  show (decide _ && y.testBit _) = _
  by_cases hlt : c1 + k < w
  · rw [hy _ hlt]
    show (_ && (decide _ && x.testBit _)) = _
    rw [decide_eq_true hlt, decide_eq_true (show c2 ≤ c1 + k by omega), decide_eq_true (show k < w - c1 by omega),
      Bool.true_and, Bool.true_and, Bool.true_and, show c1 + k - c2 = c1 - c2 + k by omega]
  · rw [decide_eq_false hlt, decide_eq_false (by omega), Bool.false_and, Bool.false_and]

/-- … or with its highest bit. -/
theorem shiftBit_ashr_shl (hy : Shifted .shl w c2 x y) (hle : c2 ≤ c1) (hlt : c1 < w) :
    shiftBit .ashr w c1 k y = x.testBit (c1 - c2 + min k (w - c1 - 1)) := by
  show y.testBit _ = _
  rw [hy _ (by omega)]
  show (decide _ && x.testBit _) = _
  rw [decide_eq_true (by omega), Bool.true_and]
  exact congrArg x.testBit (by omega)

/-! ## The nodes that the rules create -/

theorem testBit_eval_zero (k : Nat) : ((Simpnode.intconst ty 0).eval mask env).testBit k = false := by
  show (ty.1.wrap 0).testBit k = false
  rw [MType.wrap_zero, zero_testBit]

theorem testBit_eval_intconst (hk : k < ty.1.bits) : ((Simpnode.intconst ty m).eval mask env).testBit k = m.testBit k :=
  MType.testBit_wrap ty.1 m hk

theorem testBit_createBitmask (hk : k < 64) : (createBitmask n).testBit k = decide (k < n) := by
  have hmod : ∀ x : Int, wrap64 x % 2 ^ 64 = x % 2 ^ 64 := MType.wrap_emod .i8
  unfold createBitmask
  split_ifs with h0 h64
  · rw [zero_testBit, h0]
    exact (decide_eq_false (Nat.not_lt_zero k)).symm
  · rw [testBit_of_bounds (show (-2 ^ 0 : Int) ≤ -1 by decide) (by decide) (Nat.zero_le k)]
    exact (decide_eq_true (show k < n by omega)).symm
  · have hbits : wrap64 (wrap64 (2 ^ n) - 1) % 2 ^ 64 = (2 ^ n - 1) % 2 ^ 64 := by
      rw [hmod, Int.sub_emod, hmod, ← Int.sub_emod]
    rw [emod_two_pow_eq_iff.mp hbits k hk, testBit_two_pow_sub_one]

theorem testBit_eval_extract {ety : RType} {offset size : Nat} (hk : k < ety.1.bits) (hsize : 1 ≤ size) :
    ((Simpnode.extractBits ety offset size j).eval mask env).testBit k =
      if ety.1.isUnsigned then decide (k < size) && (j.eval mask env).testBit (offset + k)
      else (j.eval mask env).testBit (offset + min k (size - 1)) := by
  show (ety.1.wrap (ety.extend size (j.eval mask env / 2 ^ offset))).testBit k = _
  rw [MType.testBit_wrap _ _ hk, RType.extend]
  split_ifs
  · rw [testBit_emod, testBit_div_two_pow]
  · rw [testBit_bmod _ hsize, testBit_div_two_pow]

theorem testBit_eval_compose {offset size : Nat} (hk : k < ty.1.bits) :
    ((Simpnode.composeBits ty offset size (.intconst ty 0) j).eval mask env).testBit k =
      (decide (offset ≤ k) && (decide (k - offset < size) && (j.eval mask env).testBit (k - offset))) := by
  show (ty.1.wrap (ty.1.wrap 0 + (j.eval mask env % 2 ^ size - ty.1.wrap 0 / 2 ^ offset % 2 ^ size) * 2 ^ offset)).testBit k = _
  rw [MType.testBit_wrap _ _ hk, MType.wrap_zero, Int.zero_ediv, Int.zero_emod, sub_zero, zero_add, testBit_mul_two_pow,
    testBit_emod]

theorem testBit_eval_cvt (hk : k < 64) :
    ((Simpnode.cvt .i8 .i4 j).eval mask env).testBit k = (j.eval mask env).testBit (min k 31) := by
  show (MType.wrap .i8 ((j.eval mask env).bmod (2 ^ 32))).testBit k = _
  rw [MType.testBit_wrap .i8 _ hk, testBit_bmod _ (by decide)]

theorem testBit_eval_cvt_low {cty desc : RType} (hk : k < 32) :
    ((Simpnode.cvt cty desc j).eval mask env).testBit k = (j.eval mask env).testBit k := by
  have hdesc := desc.2
  have hcty := cty.2
  show (cty.1.wrap (desc.1.wrap _)).testBit k = _
  rw [MType.testBit_wrap _ _ (by omega), MType.testBit_wrap _ _ (by omega)]

theorem shiftCount_band {bty cty : RType} {x : Simpnode} {c : Int} (hmask : mask = true)
    (hc : c.land (ty.1.bits - 1) = ty.1.bits - 1) :
    shiftCount mask ty ((Simpnode.exp2 .band bty x (.intconst cty c)).eval mask env) =
      shiftCount mask ty (x.eval mask env) := by
  obtain ⟨n, hn, hbits⟩ : ∃ n ≤ 6, (ty.1.bits : Int) = 2 ^ n := by
    rcases ty.bits_eq with h | h
    · exact ⟨5, by decide, by rw [h]; rfl⟩
    · exact ⟨6, by decide, by rw [h]; rfl⟩
  have hbty := bty.2
  have hcty := cty.2
  unfold shiftCount
  rw [if_pos hmask, if_pos hmask, hbits]
  refine congrArg Int.toNat (emod_two_pow_eq_iff.mpr fun i hi => ?_)
  rw [testBit_eval_band (by omega), testBit_eval_intconst (by omega)]
  have hbit := congrArg (Int.testBit · i) hc
  simp only [hbits, Int.testBit_land, testBit_two_pow_sub_one, decide_eq_true hi, Bool.and_true] at hbit
  rw [hbit, Bool.and_true]

/-! ## The rules -/

variable {flags : BitFlags} {create : Creates mask} {first : Opr2}

theorem shifted_eval (hop : op.isShift = true) : Shifted op ty.1.bits (shiftCount mask ty (k1.eval mask env))
    (k0.eval mask env) ((Simpnode.exp2 op ty k0 k1).eval mask env) :=
  fun _ hi => testBit_eval_shift hop hi

theorem testBit_eval_create (hop : op.isShift = true) (hn : n < ty.1.bits) (hk : k < ty.1.bits) :
    ((create.exp2 op ty j (.intconst ty n)).eval mask env).testBit k = shiftBit op ty.1.bits n k (j.eval mask env) := by
  rw [create.eval_exp2, testBit_eval_shift hop hk, shiftCount_natCast hn]

theorem bits_extractType (signed : Bool) (ty : RType) : (extractType signed ty.1.bits).1.bits = ty.1.bits := by
  rcases RType.cases ty with rfl | rfl | rfl | rfl <;> cases signed <;> rfl

theorem isUnsigned_extractType (signed : Bool) (n : Nat) : (extractType signed n).1.isUnsigned = !signed := by
  cases signed <;> unfold extractType <;> split_ifs <;> rfl

theorem testBit_simpShiftShift (hop : op.isShift = true) (hfirst : first.isShift = true) (hc1 : c1 < ty.1.bits)
    (hc2 : c2 ≤ ty.1.bits) (hy : Shifted first ty.1.bits c2 (j.eval mask env) y)
    (h : simpShiftShift flags create op ty first j c1 c2 = some r) (hk : k < ty.1.bits) :
    (r.eval mask env).testBit k = shiftBit op ty.1.bits c1 k y := by
  have hbits := bits_le ty
  unfold simpShiftShift at h
  simp only at h
  split_ifs at h with heq hsum hashr hmask hmask' hextract h32 hrty hextract <;> cases h
  · subst heq
    rw [shiftBit_add hy hk, shiftBit_big hashr hsum hk, testBit_eval_zero]
  · rw [not_not] at hashr
    subst heq hashr
    have hcast : ((ty.1.bits : Int) - 1) = ((ty.1.bits - 1 : Nat) : Int) := by omega
    rw [shiftBit_add hy hk, shiftBit_ashr_big (by omega), hcast, testBit_eval_create hop (by omega) hk,
      shiftBit_ashr_big le_rfl]
  · subst heq
    have hcast : ((c1 : Int) + c2) = ((c1 + c2 : Nat) : Int) := by omega
    rw [shiftBit_add hy hk, hcast, testBit_eval_create hop (by omega) hk]
  · obtain ⟨hne, rfl, rfl⟩ := hmask
    have hright : first = .ashr ∨ first = .lshr := by cases first <;> simp_all [Opr2.isShift]
    rw [shiftBit_shl_right hy hright hk, create.eval_exp2, testBit_eval_band hk, testBit_eval_intconst hk,
      Int.testBit_lnot, testBit_createBitmask (by omega), Bool.and_comm, ← decide_not]
    exact congrArg (· && _) (decide_eq_decide.mpr (by omega))
  · obtain ⟨rfl, rfl, rfl⟩ := hmask'
    rw [shiftBit_lshr_shl hy le_rfl, create.eval_exp2, testBit_eval_band hk, testBit_eval_intconst hk,
      testBit_createBitmask (by omega), Nat.sub_self, Nat.zero_add, Bool.and_comm]
  · obtain ⟨rfl, rfl, -, hlt⟩ := hextract
    rw [shiftBit_lshr_shl hy (by omega), create.eval_extract, testBit_eval_extract (by rwa [bits_extractType]) (by omega),
      isUnsigned_extractType, if_pos (show (!false) = true from rfl), max_eq_left (by omega)]
  · obtain ⟨rfl, rfl, rfl, rfl⟩ := h32
    have h64 : ty.1.bits = 64 := ty.bits_eq.resolve_left (by omega)
    rw [shiftBit_ashr_shl hy le_rfl hc1, create.eval_cvt, testBit_eval_cvt (by omega), h64, Nat.sub_self, Nat.zero_add]
  · obtain ⟨rfl, rfl, -, hle⟩ := hextract
    rw [shiftBit_ashr_shl hy hle hc1, create.eval_extract, testBit_eval_extract (by rwa [bits_extractType]) (by omega),
      isUnsigned_extractType, if_neg (show ¬(!true) = true by decide), max_eq_left (by omega)]

theorem mask_of_isPowerOf2 {c : Int} (h : isPowerOf2 (wrap64 (c + 1)) = true) (hk : k < 64) :
    c.testBit k = decide (k < (wrap64 (c + 1) % 2 ^ 64).toNat.log2) := by
  obtain ⟨n, hn⟩ : ∃ n < 64, wrap64 (c + 1) % 2 ^ 64 = 2 ^ n := by
    rcases (isPowerOf2_iff (inInt64_wrap64 _)).mp h with ⟨n, hn, heq⟩ | heq
    · refine ⟨n, by omega, ?_⟩
      rw [heq, Int.emod_eq_of_lt (by positivity) (pow_lt_pow_right₀ (by norm_num) (by omega))]
    · exact ⟨63, by decide, by rw [heq]; decide⟩
  have hlog : (wrap64 (c + 1) % 2 ^ 64).toNat.log2 = n := by
    rw [hn.2, show (2 : Int) ^ n = ((2 ^ n : Nat) : Int) by push_cast; rfl, Int.toNat_natCast, Nat.log2_two_pow]
  have hmod : c ≡ 2 ^ n - 1 [ZMOD 2 ^ 64] := by
    have hsum : c + 1 ≡ 2 ^ n [ZMOD 2 ^ 64] := hn.2 ▸ (MType.wrap_emod .i8 (c + 1)).symm.trans (Int.mod_modEq _ _).symm
    simpa using hsum.sub_right 1
  rw [hlog, emod_two_pow_eq_iff.mp hmod k hk, testBit_two_pow_sub_one]

theorem testBit_simpMaskShl {bty cty : RType} {c : Int} (hcty : cty.1.bits = bty.1.bits)
    (hbty : bty.1.bits = ty.1.bits ∨ 32 ≤ c1) (hc1 : c1 < ty.1.bits)
    (hcount : shiftCount mask ty (k1.eval mask env) = c1) (h : simpMaskShl flags create ty j k1 c1 c = some r)
    (hk : k < ty.1.bits) : (r.eval mask env).testBit k =
      shiftBit .shl ty.1.bits c1 k ((Simpnode.exp2 .band bty j (.intconst cty c)).eval mask env) := by
  have hbits := bits_le ty
  have hbits' := ty.bits_eq
  have hbits'' := bty.bits_eq
  -- only the bits of the mask that are not shifted out count
  have hband : shiftBit .shl ty.1.bits c1 k ((Simpnode.exp2 .band bty j (.intconst cty c)).eval mask env) =
      (decide (c1 ≤ k) && ((j.eval mask env).testBit (k - c1) && c.testBit (k - c1))) := by
    show (decide _ && _) = _
    by_cases hle : c1 ≤ k
    · rw [testBit_eval_band (by omega), testBit_eval_intconst (by omega)]
    · rw [decide_eq_false hle, Bool.false_and, Bool.false_and]
  unfold simpMaskShl at h
  simp only at h
  rw [hband]
  split_ifs at h with hones hcompose <;> cases h
  · have hbit := fun i => congrArg (Int.testBit · i) hones
    rw [create.eval_exp2, testBit_eval_shift rfl hk, hcount]
    show (decide _ && _) = _
    by_cases hle : c1 ≤ k
    · have := hbit (k - c1)
      simp only [Int.testBit_land, testBit_createBitmask (show k - c1 < 64 by omega),
        decide_eq_true (show k - c1 < ty.1.bits - c1 by omega), Bool.and_true] at this
      rw [this, Bool.and_true]
    · rw [decide_eq_false hle, Bool.false_and, Bool.false_and]
  · rw [create.eval_deposit, testBit_eval_compose hk, ← mask_of_isPowerOf2 hcompose.2 (by omega), Bool.and_comm (c.testBit _)]

/-- What a tree has where the rules look: constants are those of their types, a load extends as its type does, and a mask
has the type's size, or none of the bits beyond it are left. -/
structure ShiftOperands (mask : Bool) (ty : RType) (k0 k1 : Simpnode) : Prop where
  count : ∀ kty val, k1 = .intconst kty val → Stored kty val
  inner : ∀ op sty j cty val, k0 = .exp2 op sty j (.intconst cty val) → Stored cty val
  load : ∀ rtype desc id, k0 = .load rtype desc id → rtype.1.isUnsigned = desc.isUnsigned
  mask : ∀ bty j cty c, k0 = .exp2 .band bty j (.intconst cty c) → cty.1.bits = bty.1.bits ∧
    (bty.1.bits = ty.1.bits ∨ ∀ kty val, k1 = .intconst kty val → 32 ≤ constCount mask ty val)

theorem testBit_valueType (hload : ∀ rtype desc id, k0 = .load rtype desc id → rtype.1.isUnsigned = desc.isUnsigned)
    (hunsigned : k0.valueType.isUnsigned = true ∨ k0.rtype.1.isUnsigned = true) (hk : k0.valueType.bits ≤ k) :
    (k0.eval mask env).testBit k = false := by
  have hself : k0.rtype.1.isUnsigned = true → k0.rtype.1.bits ≤ k → (k0.eval mask env).testBit k = false := by
    intro hty hle
    rw [← k0.wrap_eval, MType.wrap, if_pos hty, testBit_emod, decide_eq_false (by omega), Bool.false_and]
  cases k0 with
  | load rtype desc id =>
    have hsame := hload rtype desc id rfl
    change desc.isUnsigned = true ∨ rtype.1.isUnsigned = true at hunsigned
    change desc.bits ≤ k at hk
    have hdesc : desc.isUnsigned = true := hunsigned.elim (fun h => h) hsame.symm.trans
    show (rtype.1.wrap (desc.wrap (env.load id))).testBit k = false
    rw [MType.wrap, if_pos (hsame.trans hdesc), testBit_emod, MType.wrap, if_pos hdesc, testBit_emod,
      decide_eq_false (show ¬k < desc.bits by omega), Bool.false_and, Bool.and_false]
  | _ => exact hself (hunsigned.elim id id) hk

theorem testBit_simpShortShift (hload : ∀ rtype desc id, k0 = .load rtype desc id → rtype.1.isUnsigned = desc.isUnsigned)
    (h : simpShortShift op ty k0 c1 = some r) :
    (r.eval mask env).testBit k = shiftBit op ty.1.bits c1 k (k0.eval mask env) := by
  unfold simpShortShift at h
  simp only at h
  split_ifs at h with hrule
  cases h
  obtain ⟨-, ⟨rfl, hunsigned⟩ | ⟨rfl, hunsigned, hlt⟩, hle⟩ := hrule
  · rw [testBit_eval_zero]
    show _ = (_ && (k0.eval mask env).testBit _)
    rw [testBit_valueType hload (Or.inl hunsigned) (by omega), Bool.and_false]
  · rw [testBit_eval_zero]
    exact (testBit_valueType hload (Or.inr hunsigned) (by omega)).symm

theorem shiftBit_and {a b : Int} (hy : ∀ i < w, y.testBit i = (a.testBit i && b.testBit i)) (hk : k < w) :
    shiftBit op w n k y = (shiftBit op w n k a && shiftBit op w n k b) := by
  cases op with
  | shl =>
    show (decide _ && y.testBit _) = ((decide _ && _) && (decide _ && _))
    rw [hy _ (by omega)]
    cases decide (n ≤ k) <;> simp
  | ashr => exact hy _ (by omega)
  | lshr =>
    show (decide _ && y.testBit _) = ((decide _ && _) && (decide _ && _))
    by_cases hlt : n + k < w
    · rw [hy _ hlt, decide_eq_true hlt, Bool.true_and, Bool.true_and, Bool.true_and]
    · rw [decide_eq_false hlt, Bool.false_and, Bool.false_and, Bool.false_and]
  | _ => rfl

theorem testBit_simpShiftConst {kty : RType} (hop : op.isShift = true)
    (hvalid : ShiftOperands mask ty k0 (.intconst kty val)) (hc1 : constCount mask ty val < ty.1.bits)
    (h : simpShiftConst flags create op ty k0 (.intconst kty val) (constCount mask ty val) = some r)
    (hk : k < ty.1.bits) :
    (r.eval mask env).testBit k = shiftBit op ty.1.bits (constCount mask ty val) k (k0.eval mask env) := by
  have hcount : shiftCount mask ty ((Simpnode.intconst kty val).eval mask env) = constCount mask ty val :=
    shiftCount_const (hvalid.count kty val rfl)
  have hbits := bits_le ty
  unfold simpShiftConst at h
  split at h
  · split_ifs at h with hrule
    · cases h
      obtain ⟨-, rfl, h32⟩ := hrule
      rw [create.eval_exp2, testBit_eval_shift rfl hk, hcount]
      show (decide _ && _) = (decide _ && _)
      by_cases hle : constCount mask ty val ≤ k
      · rw [testBit_eval_cvt_low (by omega)]
      · rw [decide_eq_false hle, Bool.false_and, Bool.false_and]
    · exact testBit_simpShortShift hvalid.load h
  · split_ifs at h with hshl hsize
    · subst hshl
      obtain ⟨hcty, hbty⟩ := hvalid.mask _ _ _ _ rfl
      exact testBit_simpMaskShl hcty (hbty.imp_right fun h => h kty val rfl) hc1 hcount h hk
    · cases h
      rw [create.eval_exp2, testBit_eval_band (by omega), create.eval_exp2, create.eval_exp2, testBit_eval_shift hop hk,
        testBit_eval_shift hop hk, hcount]
      exact (shiftBit_and (fun i hi => testBit_eval_band (by omega)) hk).symm
    · exact testBit_simpShortShift hvalid.load h
  · next first sty j cty val2 hband =>
    split_ifs at h with hshift
    · have hy : Shifted first sty.1.bits _ _ ((Simpnode.exp2 first sty j (.intconst cty val2)).eval mask env) :=
        shifted_eval hshift.1
      have hsame : constCount mask sty val2 = constCount mask ty val2 := by rw [constCount, constCount, hshift.2]
      rw [shiftCount_const (hvalid.inner _ _ _ _ _ rfl), hsame, ← hshift.2] at hy
      exact testBit_simpShiftShift hop hshift.1 hc1 (constCount_le _ _ _) hy h hk
    · exact testBit_simpShortShift hvalid.load h
  · exact testBit_simpShortShift hvalid.load h

/-- Whatever the simplifier returns for a shift reads as the shift, in its type, for every value of the leaves. -/
theorem simpShift_eval (flags : BitFlags) (create : Creates mask) (k0 k1 : Simpnode) (hop : op.isShift = true)
    (hvalid : ShiftOperands mask ty k0 k1) (h : simpShift flags create op ty k0 k1 = some r) (env : Env) :
    ty.1.wrap (r.eval mask env) = (Simpnode.exp2 op ty k0 k1).eval mask env := by
  refine wrap_eval_eq rfl fun k hk => ?_
  rw [testBit_eval_shift hop hk]
  unfold simpShift at h
  split at h
  · next kty val =>
    rw [shiftCount_const (hvalid.count kty val rfl)]
    simp only at h
    split_ifs at h with hzero hbig hashr
    · cases h
      rw [hzero, shiftBit_zero hop hk]
    · cases h
      rw [shiftBit_big hashr hbig hk, testBit_eval_zero]
    · cases h
      rw [not_not] at hashr
      subst hashr
      have hcast : ((ty.1.bits : Int) - 1) = ((ty.1.bits - 1 : Nat) : Int) := by omega
      rw [hcast, testBit_eval_create rfl (by omega) hk, shiftBit_ashr_big le_rfl, shiftBit_ashr_big (by omega)]
    · exact testBit_simpShiftConst hop hvalid (by omega) h hk
  · next bty x cty c1 =>
    split_ifs at h with hrule
    cases h
    rw [create.eval_exp2, testBit_eval_shift hop hk, shiftCount_band hrule.1 hrule.2]
  · exact nomatch h

end Bits

/-- `(j << 40) LSHR 48` takes 16 bits of `j`, from bit 8 on. -/
theorem simpShift_extract :
    RType.u8.1.wrap ((Simpnode.extractBits .u8 8 16 (.load .u8 .u8 0)).eval false ⟨fun _ => 2 ^ 20, fun _ => 0⟩) =
      (Simpnode.exp2 .lshr .u8 (.exp2 .shl .u8 (.load .u8 .u8 0) (.intconst .i4 40)) (.intconst .i4 48)).eval false
        ⟨fun _ => 2 ^ 20, fun _ => 0⟩ :=
  simpShift_eval ⟨true, true, false⟩ (Creates.plain false) (.exp2 .shl .u8 (.load .u8 .u8 0) (.intconst .i4 40))
    (.intconst .i4 48) rfl
    ⟨fun _ _ h => by cases h; exact ⟨by decide, by decide, by decide⟩,
      fun _ _ _ _ _ h => by cases h; exact ⟨by decide, by decide, by decide⟩,
      fun _ _ _ h => (nomatch h), fun _ _ _ _ h => (nomatch h)⟩
    (by decide) _

end Path64.Simp

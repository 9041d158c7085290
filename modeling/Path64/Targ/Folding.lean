import Path64.Targ.WhirlOp
import Mathlib.Tactic.Ring

/-!
# What is folded

The results of `Targ_WhirlOp` for the integer opcodes.

* `Opcode.exact`, `Opcode.Declines` : the operator, applied to the operands, and where it is not folded;
* `Opcode.Applies`, `Opcode.highWord` : where the result is the operator's, and its high word when it has 4 bytes;
* `value_shift`, `value_binary`, `value_division`, … : the values of the cases;
* `whirlOp_exact` : what is folded, to which type, value and high word.
-/

namespace Path64.Targ
open Simp Lib

/-! ## The operators -/

/-- The value of type with the low bits of an integer; a value of type B is that of a word. -/
def TypeId.wrap : TypeId → Int → Int
  | .b, x => RType.u4.1.wrap x
  | .int ty, x => ty.1.wrap x

def TypeId.bits : TypeId → Nat
  | .b => 32
  | .int ty => ty.1.bits

/-- The value of the constant that is returned. -/
def Folded.value (r : Folded) : Int := r.ty.wrap r.vals.toNat

def Folded.high (r : Folded) : BitVec 32 := r.vals.extractLsb' 32 32

/-- The type of the result: that of the opcode, and U4 for the logical operators with two operands. -/
def Opcode.resultType : Opcode → TypeId
  | .compare _ rtype _ => rtype
  | .cvtl rtype | .shift _ rtype | .cvt rtype _ | .binary _ rtype | .unary _ rtype | .division _ rtype => .int rtype
  | .logical _ _ => .int .u4
  | .lnot boolean => logicalRtype boolean

/-- An operand of a type: converted to it, or its 64 bits as they are for U8. -/
def operand (type : RType) (c : Tcon) : Int := if type = .u8 then c.vals.toNat else type.1.wrap c.value

/-- A shift count is an unsigned number of 64 bits. -/
def shiftPlaces (c1 : Tcon) : Nat := (c1.value % 2 ^ 64).toNat

def Shift.exact (opr : Shift) (type : RType) (x : Int) (count : Nat) : Int :=
  match opr with
  | .shl => x * 2 ^ count
  | .lshr => x % 2 ^ type.1.bits / 2 ^ count
  | .ashr => x.bmod (2 ^ type.1.bits) / 2 ^ count

def Logical.exact : Logical → Int → Int → Bool
  | .land, x, y => x ≠ 0 ∧ y ≠ 0
  | .lior, x, y => x ≠ 0 ∨ y ≠ 0

def Binary.exact : Binary → Int → Int → Int
  | .bxor, x, y => x.xor y
  | .band, x, y => x.land y
  | .bior, x, y => x.lor y
  | .bnor, x, y => (x.lor y).lnot
  | .add, x, y => x + y
  | .sub, x, y => x - y
  | .mpy, x, y => x * y
  | .min, x, y => x ⊓ y
  | .max, x, y => x ⊔ y

def Unary.exact : Unary → Int → Int
  | .bnot, x => x.lnot
  | .neg, x => -x

/-- `DIV` and `REM` truncate, `MOD` has the sign of the divisor. -/
def Division.exact : Division → Int → Int → Int
  | .div, x, y => x.tdiv y
  | .rem, x, y => x.tmod y
  | .mod, x, y => x.fmod y

/-- The low bits of a number, as a signed or an unsigned number. -/
def lengthExact (type : RType) (x : Int) (len : Nat) : Int :=
  if type.1.isUnsigned then x % 2 ^ min len type.1.bits else x.bmod (2 ^ min len type.1.bits)

/-- The operator, applied to the operands. -/
def Opcode.exact (op : Opcode) (c0 c1 : Tcon) : Int :=
  match op with
  | .compare opr _ desc => (opr.holds (operand desc c0) (operand desc c1)).toInt
  | .cvtl rtype => lengthExact rtype c0.value c1.value.toNat
  | .shift opr rtype => opr.exact rtype c0.value (shiftPlaces c1)
  | .cvt _ .b => RType.i4.1.wrap c0.value
  | .cvt _ (.int desc) => desc.1.wrap c0.value
  | .logical opr _ => (opr.exact (c0.value % 2 ^ 32) (c1.value % 2 ^ 32)).toInt
  | .lnot _ => (decide (c0.value = 0)).toInt
  | .binary opr rtype => opr.exact (operand rtype c0) (operand rtype c1)
  | .unary opr rtype => opr.exact (rtype.1.wrap c0.value)
  | .division opr rtype => opr.exact (operand rtype c0) (operand rtype c1)

/-- What is not folded: a division by 0, or of the most negative value by -1. -/
def Opcode.Declines (op : Opcode) (c0 c1 : Tcon) : Prop :=
  match op with
  | .division _ rtype => operand rtype c1 = 0 ∨
      (rtype.1.isUnsigned = false ∧ operand rtype c1 = -1 ∧ operand rtype c0 = minInt rtype)
  | _ => False

/-- Where the result is the operator's: for a length that is a number of bits, and for a comparison of words whose
result has 8 bytes, where the high word of the first operand is 0 or goes in a conversion. -/
def Opcode.Applies (op : Opcode) (c0 c1 : Tcon) : Prop :=
  match op with
  | .cvtl _ => 0 ≤ c1.value ∧ c1.value < 2 ^ 63
  | .compare _ rtype desc => rtype.bits = 64 → desc.1.bits = 32 → c0.ty = desc → c0.high = 0
  | _ => True

/-- The high word of a result of 4 bytes: that of the first operand, unless it was converted; after `CVTL` the copies of
the sign. -/
def Opcode.highWord (op : Opcode) (c0 c1 : Tcon) : BitVec 32 :=
  match op with
  | .compare _ _ desc => if desc.1.bits = 32 ∧ c0.ty = desc then c0.high else 0
  | .cvtl rtype => if (lengthExact rtype c0.value c1.value.toNat).bmod (2 ^ 32) < 0 then BitVec.allOnes 32 else 0
  | .cvt rtype desc => if desc = .int rtype ∧ c0.ty = rtype then c0.high else 0
  | .logical _ _ | .lnot _ => c0.high
  | .shift _ rtype | .binary _ rtype | .unary _ rtype | .division _ rtype => if c0.ty = rtype then c0.high else 0

/-! ## The operands -/

section
variable {ty ty' type : RType} {c c0 c1 : Tcon} {x y : Int}

theorem read_of_le (h : ty'.1.bits ≤ c.ty.1.bits) : c.read ty' = ty'.1.wrap c.value := by
  apply MType.wrap_congr
  rw [Tcon.value, Tcon.read]
  exact (((MType.wrap_modEq c.ty.1 c.vals.toNat).of_dvd (pow_dvd_pow 2 h))).symm

theorem read_targConv_of_bits (h : ty'.1.bits = ty.1.bits) (c : Tcon) :
    (c.targConv ty).read ty' = ty'.1.wrap c.value := by
  unfold Tcon.targConv
  split_ifs with hty
  · exact read_of_le (by rw [hty, h])
  · exact Tcon.read_write h _ _

theorem bits_signed (ty : RType) : (signed ty).1.bits = ty.1.bits := by
  rcases RType.cases ty with rfl | rfl | rfl | rfl <;> rfl

theorem bits_unsigned (ty : RType) : (unsigned ty).1.bits = ty.1.bits := by
  rcases RType.cases ty with rfl | rfl | rfl | rfl <;> rfl

theorem wrap_signed (ty : RType) (x : Int) : (signed ty).1.wrap x = x.bmod (2 ^ ty.1.bits) := by
  rcases RType.cases ty with rfl | rfl | rfl | rfl <;> rfl

theorem wrap_unsigned (ty : RType) (x : Int) : (unsigned ty).1.wrap x = x % 2 ^ ty.1.bits := by
  rcases RType.cases ty with rfl | rfl | rfl | rfl <;> rfl

/-- The operands of `BOTH_OPNDS`, as they are read. -/
theorem read_bothOpnds (type : RType) (c0 c1 : Tcon) :
    (Tcon.bothOpnds c0 c1 type).1.read type = operand type c0 ∧
      (Tcon.bothOpnds c0 c1 type).2.read type = operand type c1 := by
  have hstored (c : Tcon) : c.read .u8 = c.vals.toNat :=
    MType.wrap_of_inRange (show (0 : Int) ≤ c.vals.toNat ∧ (c.vals.toNat : Int) < 2 ^ 64 by omega)
  by_cases h : type = .u8
  · subst h
    exact ⟨hstored c0, hstored c1⟩
  · simp only [Tcon.bothOpnds, operand, if_pos h, if_neg h]
    exact ⟨Tcon.read_targConv type c0, Tcon.read_targConv type c1⟩

@[simp] theorem ty_bothOpnds (type : RType) (c0 c1 : Tcon) : (Tcon.bothOpnds c0 c1 type).1.ty = type := rfl

theorem high_bothOpnds (h : type.1.bits = 32) (c0 c1 : Tcon) :
    (Tcon.bothOpnds c0 c1 type).1.high = if c0.ty = type then c0.high else 0 := by
  have hne : type ≠ .u8 := fun h8 => absurd (h8 ▸ h) (by decide)
  rw [← Tcon.high_targConv h, Tcon.bothOpnds, if_pos hne]
  rfl

theorem value_write (h : c.ty = ty) (x : Int) : (c.write ty x).result.value = ty.1.wrap x := by
  subst h
  exact Tcon.read_write rfl c x

/-! ## Comparisons and logical operators -/

theorem wrap_write_bool {t : TypeId} (h : t.bits = 32 ∨ c.high = 0) (b : Bool) :
    t.wrap (c.write .i4 b.toInt).vals.toNat = t.wrap b.toInt := by
  rcases h with h | h
  · cases t with
    | b => exact @Tcon.read_write .i4 .u4 rfl c _
    | int ty' => exact @Tcon.read_write .i4 ty' h c _
  · have hvals : (c.write .i4 b.toInt).vals.toNat = b.toInt := by
      rw [Tcon.write, if_pos (by rfl), h]
      cases b <;> rfl
    rw [hvals]

theorem high_setHigh (c : Tcon) (w : BitVec 32) : (c.setHigh w).high = w := BitVec.extractLsb'_append_eq_left

theorem setHigh_write (c : Tcon) (w : BitVec 32) (x : Int) :
    (c.write .i4 x).setHigh w = (c.setHigh w).write .i4 x := by
  rw [Tcon.setHigh, Tcon.write, Tcon.write, if_pos (by rfl), if_pos (by rfl), high_setHigh, Tcon.setHigh]
  simp only [BitVec.extractLsb'_append_eq_right]

theorem value_compare (opr : Relop) (optype : TypeId) (desc : RType) (c0 c1 : Tcon)
    (h : (Opcode.compare opr optype desc).Applies c0 c1) :
    (compare opr optype desc c0 c1).value = optype.wrap ((Opcode.compare opr optype desc).exact c0 c1) := by
  obtain ⟨h0, h1⟩ := read_bothOpnds desc c0 c1
  simp only [compare, Folded.value, Opcode.exact, h0, h1]
  rcases desc.bits_eq with hdesc | hdesc
  · rw [if_neg (by omega)]
    refine wrap_write_bool ?_ _
    rcases (show optype.bits = 32 ∨ optype.bits = 64 by
      cases optype with
      | b => exact Or.inl rfl
      | int ty => exact ty.bits_eq) with ht | ht
    · exact Or.inl ht
    · refine Or.inr ?_
      rw [high_bothOpnds hdesc]
      split_ifs with hty
      · exact h ht hdesc hty
      · rfl
  · rw [if_pos hdesc]
    rw [setHigh_write]
    exact wrap_write_bool (Or.inr (high_setHigh _ 0)) _

theorem high_compare (opr : Relop) (optype : TypeId) (desc : RType) (c0 c1 : Tcon) :
    (compare opr optype desc c0 c1).high = (Opcode.compare opr optype desc).highWord c0 c1 := by
  simp only [compare, Folded.high, Opcode.highWord]
  rcases desc.bits_eq with hdesc | hdesc
  · simp only [hdesc, Nat.reduceEqDiff, if_false, true_and]
    exact (Tcon.high_write rfl _ _).trans (high_bothOpnds hdesc c0 c1)
  · rw [if_pos hdesc, if_neg (by omega)]
    exact high_setHigh _ 0

theorem value_logical (opr : Logical) (boolean : Bool) (c0 c1 : Tcon) :
    (logical opr c0 c1).value = RType.u4.1.wrap ((Opcode.logical opr boolean).exact c0 c1) := by
  have hlow (c : Tcon) : c.read .u4 = c.value % 2 ^ 32 := read_of_le c.ty.2
  simp only [logical, Folded.value, Opcode.exact, hlow]
  have hbool : ∀ b : Bool, TypeId.wrap (.int .u4) (c0.write .i4 b.toInt).vals.toNat = RType.u4.1.wrap b.toInt :=
    wrap_write_bool (Or.inl rfl)
  cases opr with
  | land => simpa [Logical.exact] using hbool _
  | lior => simpa [Logical.exact] using hbool _

theorem value_lnot (boolean : Bool) (c0 c1 : Tcon) :
    (lnot boolean c0).value = (logicalRtype boolean).wrap ((Opcode.lnot boolean).exact c0 c1) := by
  refine wrap_write_bool (Or.inl ?_) _
  cases boolean <;> rfl

/-! ## Shifts -/

theorem ediv_two_pow_of_bounds {m n : Nat} (hmn : m ≤ n) (hlow : -2 ^ m ≤ x) (hhigh : x < 2 ^ m) :
    x / 2 ^ n = if x < 0 then -1 else 0 := by
  have hle : (2 : Int) ^ m ≤ 2 ^ n := pow_le_pow_right₀ (by decide) hmn
  split_ifs with h
  · exact Int.ediv_eq_neg_one_of_neg_of_le h (by omega)
  · exact Int.ediv_eq_zero_of_lt (by omega) (by omega)

theorem toNat_targToHost (c : Tcon) : (targToHost c).toNat = shiftPlaces c := by
  rw [targToHost, BitVec.toNat_ofInt]
  rfl

theorem value_shift (opr : Shift) (optype : RType) (c0 c1 : Tcon) :
    (shift opr optype c0 c1).value = optype.1.wrap ((Opcode.shift opr optype).exact c0 c1) := by
  have hsigned := (read_targConv_of_bits (bits_signed optype) c0).trans (wrap_signed optype _)
  have hunsigned := (read_targConv_of_bits (bits_unsigned optype) c0).trans (wrap_unsigned optype _)
  have hpos : 0 < optype.1.bits := optype.1.one_le_bits
  simp only [shift, Opcode.exact, toNat_targToHost, hsigned, hunsigned]
  cases opr with
  | shl =>
    refine (value_write (Tcon.ty_targConv _ _) _).trans (MType.wrap_congr ?_)
    show _ = c0.value * 2 ^ shiftPlaces c1 % _
    split_ifs with h
    · have hmod : c0.value.bmod (2 ^ optype.1.bits) ≡ c0.value [ZMOD 2 ^ optype.1.bits] := by
        rw [← wrap_signed, ← bits_signed]
        exact MType.wrap_modEq _ _
      exact hmod.mul_right _
    · rw [Int.zero_emod, Int.emod_eq_zero_of_dvd (Dvd.dvd.mul_left (pow_dvd_pow 2 (by omega)) _)]
  | lshr =>
    refine (value_write (Tcon.ty_targConv _ _) _).trans ?_
    show _ = optype.1.wrap (c0.value % 2 ^ optype.1.bits / 2 ^ shiftPlaces c1)
    split_ifs with h
    · rfl
    · have hle : (2 : Int) ^ optype.1.bits ≤ 2 ^ shiftPlaces c1 := pow_le_pow_right₀ (by decide) (by omega)
      have hmod : (0 : Int) < 2 ^ optype.1.bits := by positivity
      rw [Int.ediv_eq_zero_of_lt (Int.emod_nonneg _ (by omega)) ((Int.emod_lt_of_pos _ hmod).trans_le hle)]
  | ashr =>
    refine (value_write (Tcon.ty_targConv _ _) _).trans ?_
    show _ = optype.1.wrap (c0.value.bmod (2 ^ optype.1.bits) / 2 ^ shiftPlaces c1)
    split_ifs with h
    · rfl
    · have hrange := MType.inRange_wrap (signed optype).1 c0.value
      have hsign : (signed optype).1.isUnsigned = false := by
        rcases RType.cases optype with rfl | rfl | rfl | rfl <;> rfl
      rw [MType.InRange, hsign, if_neg Bool.false_ne_true, wrap_signed, bits_signed] at hrange
      rw [ediv_two_pow_of_bounds le_rfl hrange.1 hrange.2, ediv_two_pow_of_bounds (by omega) hrange.1 hrange.2]

/-! ## Conversions -/

theorem value_cvt (optype : RType) (desc : TypeId) (c0 c1 : Tcon) :
    (cvt optype desc c0).value = optype.1.wrap ((Opcode.cvt optype desc).exact c0 c1) := by
  cases desc with
  | b => exact (value_write rfl _).trans (congrArg _ (read_of_le c0.ty.2))
  | int desc =>
    have hdesc : (c0.targConv desc).value = desc.1.wrap c0.value := by
      rw [Tcon.value, Tcon.ty_targConv, Tcon.read_targConv]
    calc (cvt optype (.int desc) c0).value = ((c0.targConv desc).targConv optype).value := rfl
      _ = optype.1.wrap (c0.targConv desc).value := by rw [Tcon.value, Tcon.ty_targConv, Tcon.read_targConv]
      _ = optype.1.wrap (desc.1.wrap c0.value) := by rw [hdesc]

theorem high_cvt (optype : RType) (h : optype.1.bits = 32) (desc : TypeId) (c0 c1 : Tcon) :
    (cvt optype desc c0).high = (Opcode.cvt optype desc).highWord c0 c1 := by
  cases desc with
  | b => exact (Tcon.high_write h _ _).trans BitVec.extractLsb'_zero
  | int desc =>
    refine (Tcon.high_targConv h _).trans ?_
    simp only [Tcon.ty_targConv, Opcode.highWord, TypeId.int.injEq]
    by_cases hd : desc = optype
    · subst hd
      simp only [if_true, true_and]
      exact Tcon.high_targConv h c0
    · simp only [hd, if_false, false_and]

/-! ## The operators without exceptions -/

theorem value_binary (opr : Binary) (type : RType) (c0 c1 : Tcon) :
    (binary opr type c0 c1).value = type.1.wrap ((Opcode.binary opr type).exact c0 c1) := by
  obtain ⟨h0, h1⟩ := read_bothOpnds type c0 c1
  simp only [binary, Opcode.exact, h0, h1]
  cases opr with
  | bxor | band | bior | add | sub | mpy => exact value_write rfl _
  | bnor =>
    refine (value_write rfl _).trans (MType.wrap_congr ?_)
    rw [Tcon.read_write rfl]
    exact lnot_emod_congr (MType.wrap_emod _ _)
  | min => exact (value_write rfl _).trans (congrArg _ (min_def _ _).symm)
  | max =>
    refine (value_write rfl _).trans (congrArg _ ?_)
    rw [Binary.exact, max_comm, max_def]

theorem value_unary (opr : Unary) (type : RType) (c0 c1 : Tcon) :
    (unary opr type c0).value = type.1.wrap ((Opcode.unary opr type).exact c0 c1) := by
  simp only [unary, Opcode.exact, Tcon.read_targConv]
  cases opr with
  | bnot | neg => exact value_write (Tcon.ty_targConv _ _) _

/-! ## Divisions -/

theorem inRange_operand (type : RType) (c : Tcon) : type.1.InRange (operand type c) := by
  rw [← (read_bothOpnds type c c).1]
  exact MType.inRange_wrap _ _

theorem Division.host_eq (opr : Division) (hx : type.1.InRange x) (hy : type.1.InRange y) (hne : y ≠ 0) :
    opr.host type x y = opr.exact x y := by
  cases opr with
  | div | rem => rfl
  | mod =>
    simp only [Division.host, Division.exact]
    by_cases hu : type.1.isUnsigned = true
    · rw [MType.InRange, if_pos hu] at hx hy
      rw [if_pos hu, Int.fmod_eq_tmod_of_nonneg hx.1 hy.1]
    rw [if_neg hu, Int.fmod_eq_tmod]
    by_cases hdvd : y ∣ x
    · rw [if_pos hdvd, if_neg (fun h => h.1 (Int.dvd_iff_tmod_eq_zero.mp hdvd)), add_zero]
    have hrem : x.tmod y ≠ 0 := fun h => hdvd (Int.dvd_iff_tmod_eq_zero.mpr h)
    have hx0 : x ≠ 0 := fun h => hdvd (h ▸ dvd_zero y)
    -- the signs of the dividend and of the divisor
    rcases lt_or_gt_of_ne hx0 with hx0 | hx0 <;> rcases lt_or_gt_of_ne hne with hy0 | hy0
    · rw [if_neg hdvd, if_neg (not_le.mpr hx0), if_neg (not_le.mpr hy0), decide_eq_false (not_lt.mpr hx0.le),
        decide_eq_false (not_lt.mpr hy0.le), if_neg (fun h => Bool.false_ne_true h.2)]
      omega
    · rw [if_neg hdvd, if_neg (not_le.mpr hx0), if_pos hy0.le, decide_eq_false (not_lt.mpr hx0.le),
        decide_eq_true hy0, if_pos ⟨hrem, rfl⟩]
      omega
    · rw [if_neg hdvd, if_pos hx0.le, if_neg (not_le.mpr hy0), decide_eq_true hx0,
        decide_eq_false (not_lt.mpr hy0.le), if_pos ⟨hrem, rfl⟩]
    · rw [if_neg hdvd, if_pos hx0.le, if_pos hy0.le, decide_eq_true hx0, decide_eq_true hy0,
        if_neg (fun h => Bool.false_ne_true h.2), add_zero]

theorem value_division (opr : Division) (type : RType) (c0 c1 : Tcon)
    (h : ¬(Opcode.division opr type).Declines c0 c1) :
    (division opr type c0 c1).folded = true ∧
      (division opr type c0 c1).value = type.1.wrap ((Opcode.division opr type).exact c0 c1) := by
  obtain ⟨h0, h1⟩ := read_bothOpnds type c0 c1
  simp only [division, Opcode.exact, h0, h1]
  rw [Opcode.Declines] at h
  push Not at h
  obtain ⟨hne, hmin⟩ := h
  have hfold : type.1.isUnsigned = true ∨ operand type c1 ≠ -1 ∨ operand type c0 ≠ minInt type := by
    by_contra hnot
    push Not at hnot
    exact hmin (Bool.eq_false_of_not_eq_true hnot.1) hnot.2.1 hnot.2.2
  rw [if_pos hne, if_pos hfold, opr.host_eq (inRange_operand type c0) (inRange_operand type c1) hne]
  exact ⟨rfl, value_write rfl _⟩

theorem not_folded_division (opr : Division) (type : RType) (c0 c1 : Tcon)
    (h : (Opcode.division opr type).Declines c0 c1) : (division opr type c0 c1).folded = false := by
  obtain ⟨h0, h1⟩ := read_bothOpnds type c0 c1
  simp only [division, h0, h1]
  rcases h with h | ⟨hu, hone, hmin⟩
  · rw [if_neg (not_not.mpr h)]
  · split_ifs with hne hfold
    · rcases hfold with hfold | hfold | hfold
      · exact absurd (hfold.symm.trans hu) (by decide)
      · exact absurd hone hfold
      · exact absurd hmin hfold
    · rfl
    · rfl

/-! ## Lengths -/

/-- The mask keeps the bits below the length, and copies the highest of them for a signed conversion. -/
theorem convertField_eq {len n : Nat} (hlen : len ≤ 64) (hn : n < len) (sval slen : BitVec 64) (hslen : slen.toNat = n)
    (sign : Bool) : convertField len sval slen sign =
      if sign then (sval.setWidth n).signExtend len else (sval.setWidth n).setWidth len := by
  have hmod : slen.toNat % len = n := by rw [hslen, Nat.mod_eq_of_lt hn]
  have hhigh : ∀ i < len, ((-BitVec.ofNat len 1) <<< n).getLsbD i = decide (n ≤ i) := fun i hi => by
    rw [BitVec.neg_one_eq_allOnes, BitVec.getLsbD_shiftLeft, BitVec.getLsbD_allOnes, decide_eq_true hi,
      decide_eq_true (show i - n < len by omega), Bool.and_true, Bool.true_and, ← decide_not, decide_eq_decide]
    exact not_lt
  have hlow : ∀ i < len, ((sval &&& (~~~((-BitVec.ofNat len 1) <<< n)).signExtend 64).setWidth len).getLsbD i =
      (decide (i < n) && sval.getLsbD i) := fun i hi => by
    rw [BitVec.getLsbD_setWidth, BitVec.getLsbD_and, BitVec.getLsbD_signExtend, if_pos hi, BitVec.getLsbD_not,
      hhigh i hi, decide_eq_true hi, decide_eq_true (show i < 64 by omega), ← decide_not]
    by_cases h : i < n
    · simp [h, not_le.mpr h]
    · simp [h, not_lt.mp h]
  -- the bit below the length is what `signmask` asks for
  have hsign : (sval &&& (~~~((-BitVec.ofNat len 1) <<< n)).signExtend 64).setWidth len &&& BitVec.ofNat len 1 <<< ((slen - 1).toNat % len) ≠ 0 ↔
      (sval.setWidth n).msb = true := by
    cases n with
    | zero =>
      have hzero : (sval &&& (~~~((-BitVec.ofNat len 1) <<< 0)).signExtend 64).setWidth len = BitVec.ofNat len 0 :=
        BitVec.eq_of_getLsbD_eq fun i hi => by
          rw [hlow i hi, decide_eq_false (Nat.not_lt_zero i), Bool.false_and, BitVec.getLsbD_zero]
      rw [hzero, BitVec.zero_and]
      exact iff_of_false (fun h => h rfl) Bool.false_ne_true
    | succ m =>
      have hplace : (slen - 1).toNat % len = m := by
        rw [show (slen - 1).toNat = m by bv_omega, Nat.mod_eq_of_lt (by omega)]
      have htwo : BitVec.twoPow len m ≠ BitVec.ofNat len 0 := fun h => by
        have hbit := congrArg (BitVec.getLsbD · m) h
        simp only [BitVec.getLsbD_twoPow, BitVec.getLsbD_zero, decide_eq_true (show m < len by omega)] at hbit
        exact absurd hbit (by simp)
      rw [hplace, show BitVec.ofNat len 1 <<< m = BitVec.twoPow len m from rfl, BitVec.and_twoPow, hlow m (by omega),
        BitVec.msb_eq_getLsbD_last, BitVec.getLsbD_setWidth, Nat.add_sub_cancel]
      split_ifs with h
      · exact iff_of_true htwo h
      · exact iff_of_false (fun hne => hne rfl) h
  unfold convertField
  simp only [hmod, hsign]
  refine BitVec.eq_of_getLsbD_eq fun i hi => ?_
  cases sign with
  | false =>
    rw [if_neg (fun h => Bool.false_ne_true h.1), if_neg Bool.false_ne_true, hlow i hi, BitVec.getLsbD_setWidth,
      BitVec.getLsbD_setWidth, decide_eq_true hi, Bool.true_and]
  | true =>
    rw [if_pos rfl, BitVec.getLsbD_signExtend, decide_eq_true hi, Bool.true_and, BitVec.getLsbD_setWidth]
    by_cases hmsb : (sval.setWidth n).msb = true
    · rw [if_pos ⟨rfl, hmsb⟩, BitVec.getLsbD_or, hlow i hi, hhigh i hi, hmsb]
      split_ifs with h
      · simp [h, not_le.mpr h]
      · simp [h, not_lt.mp h]
    · rw [if_neg (fun h => hmsb h.2), hlow i hi, Bool.eq_false_of_not_eq_true hmsb]
      split_ifs with h
      · rfl
      · rw [decide_eq_false h, Bool.false_and]

theorem toNat_setWidth_host {m : Nat} (hm : m ≤ 64) (c : Tcon) :
    (((targToHost c).setWidth m).toNat : Int) = c.value % 2 ^ m := by
  rw [BitVec.toNat_setWidth, targToHost, BitVec.toNat_ofInt, Int.natCast_mod,
    Int.toNat_of_nonneg (Int.emod_nonneg _ (by positivity)), Nat.cast_pow, Nat.cast_pow, Nat.cast_ofNat]
  exact Int.emod_emod_of_dvd _ (pow_dvd_pow 2 hm)

theorem toInt_setWidth_host {m : Nat} (hm : m ≤ 64) (c : Tcon) :
    ((targToHost c).setWidth m).toInt = c.value.bmod (2 ^ m) := by
  rw [BitVec.toInt_eq_toNat_bmod, toNat_setWidth_host hm, ← Int.emod_bmod (x := c.value), Nat.cast_pow, Nat.cast_ofNat]

/-- The word of `Targ_Convert_Length`, and what it is modulo the size of the type. -/
theorem convertLength_eq (rtype : RType) (c0 c1 : Tcon) (h : (Opcode.cvtl rtype).Applies c0 c1) :
    ∃ w : BitVec rtype.1.bits,
      convertLength c0 c1 rtype rtype.1.bits (!rtype.1.isUnsigned) = hostToTarg rtype (w.signExtend 64) ∧
        w.toInt ≡ lengthExact rtype c0.value c1.value.toNat [ZMOD 2 ^ rtype.1.bits] := by
  obtain ⟨h0, h63⟩ := h
  have hbits : rtype.1.bits ≤ 64 := by rcases rtype.bits_eq with h | h <;> omega
  have hlen : (targToHost c1).toInt = c1.value := by
    rw [targToHost, BitVec.toInt_ofInt, Int.bmod_eq_of_le_mul_two (by push_cast; omega) (by push_cast; omega)]
  have hlenNat : (targToHost c1).toNat = c1.value.toNat := by
    rw [toNat_targToHost, shiftPlaces, Int.emod_eq_of_lt h0 (by omega)]
  have hbmod (n : Nat) : c0.value.bmod (2 ^ n) ≡ c0.value [ZMOD 2 ^ n] := by
    have h := Int.bmod_emod (x := c0.value) (m := 2 ^ n)
    rw [Nat.cast_pow, Nat.cast_ofNat] at h
    exact h
  unfold convertLength
  simp only [hlen]
  split_ifs with hle
  · refine ⟨_, rfl, ?_⟩
    rw [toInt_setWidth_host hbits, lengthExact, Nat.min_eq_right (by omega)]
    refine (hbmod _).trans ?_
    split_ifs
    · exact (Int.mod_modEq _ _).symm
    · exact (hbmod _).symm
  · refine ⟨_, rfl, ?_⟩
    have hlt : c1.value.toNat < rtype.1.bits := by omega
    rw [convertField_eq hbits hlt _ _ hlenNat, lengthExact, Nat.min_eq_left hlt.le]
    cases hu : rtype.1.isUnsigned with
    | true =>
      have hmod := Int.bmod_emod (x := c0.value % 2 ^ c1.value.toNat) (m := 2 ^ rtype.1.bits)
      rw [Nat.cast_pow, Nat.cast_ofNat] at hmod
      rw [Bool.not_true, if_neg Bool.false_ne_true, if_pos rfl, BitVec.toInt_eq_toNat_bmod,
        BitVec.toNat_setWidth_of_le hlt.le, toNat_setWidth_host (hlt.le.trans hbits)]
      exact hmod
    | false =>
      rw [Bool.not_false, if_pos rfl, if_neg Bool.false_ne_true, BitVec.toInt_signExtend_of_le hlt.le,
        toInt_setWidth_host (hlt.le.trans hbits)]

theorem value_cvtl (rtype : RType) (c0 c1 : Tcon) (h : (Opcode.cvtl rtype).Applies c0 c1) :
    (whirlOp (.cvtl rtype) c0 c1).value = rtype.1.wrap ((Opcode.cvtl rtype).exact c0 c1) := by
  obtain ⟨w, hw, hmod⟩ := convertLength_eq rtype c0 c1 h
  have hbits : rtype.1.bits ≤ 64 := by rcases rtype.bits_eq with h | h <;> omega
  have hword : ((w.signExtend 64).toNat : Int) ≡ w.toInt [ZMOD 2 ^ rtype.1.bits] := by
    have hint := BitVec.toInt_signExtend_of_le (x := w) hbits
    rw [BitVec.toInt_eq_toNat_bmod] at hint
    have hemod := Int.bmod_emod (x := (w.signExtend 64).toNat) (m := 2 ^ 64)
    rw [hint, Nat.cast_pow, Nat.cast_ofNat] at hemod
    exact (Int.ModEq.of_dvd (pow_dvd_pow 2 hbits) hemod).symm
  rw [whirlOp, hw]
  exact MType.wrap_congr (hword.trans hmod)

theorem high_cvtl (rtype : RType) (hrtype : rtype.1.bits = 32) (c0 c1 : Tcon)
    (h : (Opcode.cvtl rtype).Applies c0 c1) :
    (whirlOp (.cvtl rtype) c0 c1).high = (Opcode.cvtl rtype).highWord c0 c1 := by
  obtain ⟨w, hw, hmod⟩ := convertLength_eq rtype c0 c1 h
  have hsign : (lengthExact rtype c0.value c1.value.toNat).bmod (2 ^ 32) = w.toInt := by
    have hemod : lengthExact rtype c0.value c1.value.toNat % (2 ^ rtype.1.bits : Nat) =
        w.toInt % (2 ^ rtype.1.bits : Nat) := by
      push_cast
      exact hmod.symm
    refine (congrArg (fun n => (lengthExact rtype c0.value c1.value.toNat).bmod (2 ^ n)) hrtype.symm).trans ?_
    rw [← BitVec.toInt_bmod_cancel w, ← Int.emod_bmod, hemod, Int.emod_bmod]
  rw [whirlOp, hw]
  simp only [Opcode.highWord, hsign]
  refine BitVec.eq_of_getLsbD_eq fun i hi => ?_
  rw [Folded.high, Tcon.result, hostToTarg, BitVec.getLsbD_extractLsb', BitVec.getLsbD_signExtend,
    if_neg (show ¬32 + i < rtype.1.bits by omega), decide_eq_true hi, decide_eq_true (show 32 + i < 64 by omega),
    BitVec.msb_eq_toInt, Bool.true_and, Bool.true_and]
  split_ifs with hneg
  · rw [decide_eq_true hneg, BitVec.getLsbD_allOnes, decide_eq_true hi]
  · rw [decide_eq_false hneg]
    exact BitVec.getLsbD_zero.symm

/-! ## What is folded -/

theorem high_write_targConv (h : type.1.bits = 32) (c0 : Tcon) (x : Int) :
    ((c0.targConv type).write type x).result.high = if c0.ty = type then c0.high else 0 :=
  (Tcon.high_write h _ x).trans (Tcon.high_targConv h c0)

theorem high_write_bothOpnds (h : type.1.bits = 32) (c0 c1 : Tcon) (x : Int) :
    ((Tcon.bothOpnds c0 c1 type).1.write type x).result.high = if c0.ty = type then c0.high else 0 :=
  (Tcon.high_write h _ x).trans (high_bothOpnds h c0 c1)

theorem high_binary (opr : Binary) (h : type.1.bits = 32) (c0 c1 : Tcon) :
    (binary opr type c0 c1).high = if c0.ty = type then c0.high else 0 := by
  cases opr with
  | bnor => exact (Tcon.high_write h _ _).trans (high_write_bothOpnds h c0 c1 _)
  | _ => exact high_write_bothOpnds h c0 c1 _

theorem high_division (opr : Division) (h : type.1.bits = 32) (c0 c1 : Tcon) :
    (division opr type c0 c1).high = if c0.ty = type then c0.high else 0 := by
  rw [← high_bothOpnds h c0 c1, division]
  by_cases hne : (Tcon.bothOpnds c0 c1 type).2.read type ≠ 0
  · rw [if_pos hne]
    split_ifs
    · exact Tcon.high_write h _ _
    · rfl
  · rw [if_neg hne]
    rfl

theorem folded_iff (op : Opcode) (c0 c1 : Tcon) : (whirlOp op c0 c1).folded = false ↔ op.Declines c0 c1 := by
  cases op with
  | division opr rtype =>
    refine ⟨fun h => ?_, not_folded_division opr rtype c0 c1⟩
    by_contra hnot
    exact Bool.false_ne_true (h.symm.trans (value_division opr rtype c0 c1 hnot).1)
  | compare | cvtl | lnot | logical => exact iff_of_false Bool.false_ne_true.symm id
  | shift opr rtype | binary opr rtype | unary opr rtype =>
    refine iff_of_false ?_ id
    cases opr <;> exact Bool.false_ne_true.symm
  | cvt rtype desc =>
    refine iff_of_false ?_ id
    cases desc <;> exact Bool.false_ne_true.symm

theorem ty_whirlOp (op : Opcode) (c0 c1 : Tcon) : (whirlOp op c0 c1).ty = op.resultType := by
  cases op with
  | compare | lnot | logical => rfl
  | cvtl rtype =>
    show TypeId.int (convertLength c0 c1 rtype _ _).ty = _
    unfold convertLength
    simp only
    split_ifs <;> rfl
  | cvt rtype desc =>
    cases desc with
    | b => rfl
    | int desc => exact congrArg TypeId.int (Tcon.ty_targConv rtype _)
  | shift opr rtype | unary opr rtype => cases opr <;> exact congrArg TypeId.int (Tcon.ty_targConv rtype c0)
  | binary opr rtype => cases opr <;> rfl
  | division opr rtype =>
    show (division opr rtype c0 c1).ty = _
    simp only [division]
    split_ifs <;> rfl

theorem high_shift (opr : Shift) (h : type.1.bits = 32) (c0 c1 : Tcon) :
    (shift opr type c0 c1).high = if c0.ty = type then c0.high else 0 := by
  cases opr <;> exact high_write_targConv h c0 _

end

/-- What is folded has the type of the result, the value of the operator, and the high word that is kept. -/
theorem whirlOp_exact (op : Opcode) (c0 c1 : Tcon) :
    ((whirlOp op c0 c1).folded = false ↔ op.Declines c0 c1) ∧
      ((whirlOp op c0 c1).folded = true →
        (whirlOp op c0 c1).ty = op.resultType ∧
          (op.Applies c0 c1 → (whirlOp op c0 c1).value = op.resultType.wrap (op.exact c0 c1) ∧
            (op.resultType.bits = 32 → (whirlOp op c0 c1).high = op.highWord c0 c1))) := by
  refine ⟨folded_iff op c0 c1, fun hfolded => ⟨ty_whirlOp op c0 c1, fun happlies => ?_⟩⟩
  have hnot : ¬op.Declines c0 c1 := fun h =>
    Bool.false_ne_true (((folded_iff op c0 c1).mpr h).symm.trans hfolded)
  cases op with
  | compare opr rtype desc =>
    exact ⟨value_compare opr rtype desc c0 c1 happlies, fun _ => high_compare opr rtype desc c0 c1⟩
  | cvtl rtype => exact ⟨value_cvtl rtype c0 c1 happlies, fun h => high_cvtl rtype h c0 c1 happlies⟩
  | shift opr rtype => exact ⟨value_shift opr rtype c0 c1, fun h => high_shift opr h c0 c1⟩
  | cvt rtype desc => exact ⟨value_cvt rtype desc c0 c1, fun h => high_cvt rtype h desc c0 c1⟩
  | logical opr boolean => exact ⟨value_logical opr boolean c0 c1, fun _ => Tcon.high_write rfl _ _⟩
  | lnot boolean => exact ⟨value_lnot boolean c0 c1, fun _ => Tcon.high_write rfl _ _⟩
  | binary opr rtype => exact ⟨value_binary opr rtype c0 c1, fun h => high_binary opr h c0 c1⟩
  | unary opr rtype =>
    refine ⟨value_unary opr rtype c0 c1, fun h => ?_⟩
    cases opr <;> exact high_write_targConv h c0 _
  | division opr rtype =>
    exact ⟨(value_division opr rtype c0 c1 hnot).2, fun h => high_division opr h c0 c1⟩

/-- `U8ADD` of the I4 constant -1, `I4LAND`, and the high word of `I4CVTL`. -/
theorem not_exact_unconverted :
    (whirlOp (.binary .add .u8) ⟨.i4, 0xffffffff⟩ ⟨.u8, 0⟩).value ≠ RType.u8.1.wrap (-1 + 0) ∧
      (whirlOp (.logical .land false) ⟨.i4, 1⟩ ⟨.i4, 1⟩).ty ≠ .int .i4 ∧
      (whirlOp (.cvtl .i4) ⟨.i4, 0xff⟩ ⟨.i4, 8⟩).high ≠ 0 := by
  refine ⟨?_, ?_, ?_⟩ <;> decide

end Path64.Targ

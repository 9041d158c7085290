import Path64.DivRem.Machine

/-!
# Expanding a division by a constant: `Expand_Integer_Divide_By_Constant`

* `log2`, `reduceMultiplier`, `signedMultiplier`, `unsignedMultiplier` : the 32-bit multipliers;
* `determinePseudoInverse` : the multiplier of the general path, in `UINT64` arithmetic;
* `expandPowerOf2Divide`, `expandSigned32`, `expandUnsigned32`, `expandCompare32`, `expandSigned`, `expandUnsigned` :
  the operations of each path;
* `expandIntegerDivideByConstant` : the choice between them, `none` when the division is left alone.

New temporaries are numbered from `next` on.
-/

namespace Path64.DivRem

inductive Mtype where
  | i4 | u4 | i8 | u8
  deriving DecidableEq, Repr

def Mtype.isSigned : Mtype → Bool
  | .i4 | .i8 => true
  | .u4 | .u8 => false

def Mtype.isDouble : Mtype → Bool
  | .i8 | .u8 => true
  | .i4 | .u4 => false

def Mtype.width (t : Mtype) : Width := if t.isDouble then .w64 else .w32

/-- The switches the expansion depends on. -/
structure Target where
  cvrtIntDivToMult : Bool
  idivByConstOpt : Bool
  is32bit : Bool

/-! ## Powers of two -/

/-- `val` as the power-of-two tests look at it: the absolute value for a signed type, the low bits otherwise. -/
def testedValue (mtype : Mtype) (val : Int) : Nat :=
  match mtype with
  | .i4 | .i8 => val.natAbs
  | .u4 => (val % 2 ^ 32).toNat
  | .u8 => (val % 2 ^ 64).toNat

/-- `Is_Power_Of_2`. -/
def isPowerOf2 (val : Int) (mtype : Mtype) : Bool :=
  testedValue mtype val != 0 && testedValue mtype val &&& (testedValue mtype val - 1) == 0

/-- `Get_Power_Of_2`, for a value that is one. -/
def getPowerOf2 (val : Int) (mtype : Mtype) : Nat :=
  ((List.range mtype.width.bits).find? fun i => testedValue mtype val == 2 ^ i).getD 0

/-- `Expand_Power_Of_2_Divide`. -/
def expandPowerOf2Divide (result numer next : Tn) (dvsr : Int) (mtype : Mtype) : List Op :=
  let n := getPowerOf2 dvsr mtype
  let w := mtype.width
  if !mtype.isSigned then [Op.shri w result numer n]
  else
    let t1 := next
    let t2 := next + 1
    let t3 := next + 2
    let t4 := next + 3
    let t5 := if dvsr < 0 then next + 4 else result
    [Op.sari w t1 numer (w.bits - 1), Op.ldc w t2 ((dvsr.natAbs : Int) - 1), Op.and w t3 t1 t2, Op.add w t4 t3 numer,
      Op.sari w t5 t4 n] ++ if dvsr < 0 then [Op.neg w result t5] else []

/-! ## The 32-bit multipliers -/

/-- `log2`: shifts right until nothing is left. -/
def log2 (i : Nat) : Nat := Nat.log2 i

/-- The loop that halves both multipliers while they stay apart and `l` is positive. -/
def reduceMultiplier : Nat → Nat → Nat → Nat × Nat × Nat
  | 0, mLow, mHigh => (0, mLow, mHigh)
  | l + 1, mLow, mHigh =>
    if mLow / 2 < mHigh / 2 then reduceMultiplier l (mLow / 2) (mHigh / 2) else (l + 1, mLow, mHigh)

/-- `l`, `m_low` and `m_high` after the loop, for the divisor `d` and the range constant `k`. -/
def multiplierFor (d l k : Nat) : Nat × Nat × Nat :=
  reduceMultiplier l (2 ^ (32 + l) / d) ((2 ^ (32 + l) + k) % 2 ^ 64 / d)

/-- The signed path's `(m_high, s)`. -/
def signedMultiplier (d : Nat) : Nat × Nat :=
  let l := log2 d
  let j := 2 ^ 31 % d
  let k := 2 ^ (32 + l) / (2 ^ 31 - j)
  let r := multiplierFor d l k
  (r.2.2, r.1)

/-- The unsigned path's loop that makes the divisor odd: `(t, n)`. -/
def oddPart : Nat → Nat → Nat → Nat × Nat
  | 0, t, n => (t, n)
  | fuel + 1, t, n => if t % 2 = 0 then oddPart fuel (t / 2) (n + 1) else (t, n)

/-- The unsigned path's `(m, s, a)` for the odd divisor `t`. -/
def unsignedMultiplier (t : Nat) : Nat × Nat × Bool :=
  let l := log2 t + 1
  let j := (2 ^ 32 - 1) % t
  let k := 2 ^ (32 + l) / (2 ^ 32 - 1 - j)
  let r := multiplierFor t l k
  if r.2.2 / 2 ^ 32 = 0 then (r.2.2, r.1, false)
  else
    let s := log2 t
    let mLow := 2 ^ (32 + s) / t
    let rem := 2 ^ (32 + s) % t
    let m := if rem < t / 2 + 1 then mLow % 2 ^ 32 else (mLow % 2 ^ 32 + 1) % 2 ^ 32
    (m, s, true)

/-! ## The general multiplier -/

/-- The smallest `n` with `2^n - 1 >= b1`, and that `m`. -/
def inverseWidth (b1 : Nat) : Nat → Nat → Nat → Nat × Nat
  | 0, n, m => (n, m)
  | fuel + 1, n, m => if m < b1 then inverseWidth b1 fuel (n + 1) ((2 * m + 1) % 2 ^ 64) else (n, m)

/-- One bit of the quotient: `(m, q)`. -/
def inverseStep (b : Nat) (s : Nat × Nat) (_ : Nat) : Nat × Nat :=
  let q := 2 * s.2 % 2 ^ 64
  let (m, q) := if s.1 ≥ b then (s.1 - b, q + 1) else (s.1, q)
  ((2 * m + 1) % 2 ^ 64, q)

/-- `determine_pseudo_inverse`: the multiplier and `*pn`. -/
def determinePseudoInverse (b maxbitsA : Nat) : Nat × Nat :=
  let (n, m) := inverseWidth (b - 1) 64 1 1
  let s := (List.range (maxbitsA + 1)).foldl (inverseStep b) (m, 0)
  ((1 + s.2) % 2 ^ 64, n)

/-! ## The paths -/

/-- Signed 32-bit division by the magic multiplier. -/
def expandSigned32 (target32 : Bool) (result numer next : Tn) (denomVal : Int) : List Op :=
  let (mHigh, s) := signedMultiplier denomVal.natAbs
  let m : Nat := mHigh % 2 ^ 32
  if mHigh / 2 ^ 31 ≠ 0 then
    let tmp1 := next
    let mult := next + 1
    let d := next + 2
    let shift := next + 3
    let tmp2 := next + 4
    let tmp3 := next + 5
    let tmp4 := next + 6
    [.movslq tmp1 numer, .ldc .w64 d ((m : Int) - 2 ^ 32), .imul .w64 mult tmp1 d, .shri .w64 shift mult 32,
      .add .w32 tmp2 shift numer, .sari .w32 tmp3 numer 31, .sari .w32 tmp4 tmp2 s, .sub .w32 result tmp4 tmp3,
      if denomVal > 0 then .sub .w32 result tmp4 tmp3 else .sub .w32 result tmp3 tmp4]
  else if target32 then
    let eax := next
    let edx := next + 1
    [.ldc .w32 eax m, .imulx .w32 eax edx eax numer, .mov .w32 eax numer] ++
      (if s ≠ 0 then [.sari .w32 edx edx s] else []) ++
      [.shri .w32 eax eax 31, .add .w32 edx edx eax] ++
      (if denomVal < 0 then [.neg .w32 edx edx] else []) ++ [.mov .w32 result edx]
  else
    let tmp1 := next
    let tmp2 := next + 1
    let mult := next + 2
    let d := next + 3
    let shift := next + 4
    let tmp3 := next + 5
    [.movslq tmp1 numer, .sari .w32 tmp2 numer 31, .ldc .w64 d m, .imul .w64 mult tmp1 d, .shri .w64 shift mult 32,
      if s ≠ 0 then .sari .w32 tmp3 shift s else .mov .w32 tmp3 shift,
      if denomVal < 0 then .sub .w32 result tmp2 tmp3 else .sub .w32 result tmp3 tmp2]

/-- Unsigned 32-bit division by a divisor below `2^31`. -/
def expandUnsigned32 (result numer next : Tn) (d : Nat) : List Op :=
  let (t, n) := oddPart 32 d 0
  let (m, s, a) := unsignedMultiplier t
  let s := s + n
  let tmp1 := next
  let dTn := next + 1
  let mult := next + 2
  if a then
    let m : Nat := (2 * m + 1) % 2 ^ 32
    let tmp2 := next + 3
    let tmp3 := next + 4
    let tmp4 := next + 5
    [.ldc .w64 dTn m, .imul .w64 mult numer dTn, .shri .w64 tmp1 mult 32, .sub .w32 tmp2 numer tmp1,
      .shri .w32 tmp3 tmp2 1, .add .w32 tmp4 tmp3 tmp1, .shri .w32 result tmp4 s]
  else
    [.ldc .w64 dTn m, .imul .w64 mult numer dTn, .shri .w64 tmp1 mult 32, .shri .w32 result tmp1 s]

/-- Unsigned 32-bit division by a divisor of at least `2^31`. -/
def expandCompare32 (result numer next : Tn) (denomVal : Int) : List Op :=
  let tmp1 := next
  let tmp2 := next + 1
  let tmp3 := next + 2
  [.ldc .w32 tmp1 denomVal, .cmp .w32 numer tmp1, .ldc .w32 tmp2 0, .ldc .w32 tmp3 (-1), .sbb .w32 result tmp2 tmp3]

/-- The general signed path: divide the absolute value, then choose the sign. -/
def expandSigned (mtype : Mtype) (result numer next : Tn) (denomVal : Int) : Option (List Op) :=
  let w := mtype.width
  let (d, n) := determinePseudoInverse denomVal.natAbs (w.bits - 1)
  if n > w.bits - 1 then none
  else
    let dTn := next
    let neg := next + 1
    let mult := next + 2
    let low := next + 3
    let shift := next + 4
    let tmpNumer := next + 5
    let numer' := if result = numer then tmpNumer else numer
    some ([.ldc w dTn d, .neg w neg numer, .cmovs neg numer, .mulx w low mult neg dTn, .sari w shift mult (n - 1)] ++
      (if result = numer then [.mov w tmpNumer numer] else []) ++
      [.neg w result shift, .test w numer' numer',
        if denomVal > 0 then .cmovge result shift else .cmovl result shift])

/-- The general unsigned path; an even divisor shifts the dividend first. -/
def expandUnsigned (mtype : Mtype) (result numer next : Tn) (denomVal : Int) : Option (List Op) :=
  let w := mtype.width
  let b := testedValue mtype denomVal
  let odd := b % 2 = 1
  let precision := if odd then w.bits else w.bits - 1
  let (d, n) := determinePseudoInverse (if odd then b else b / 2) precision
  if n > precision then none
  else
    let preShift := next
    let numer' := if odd then numer else preShift
    let dTn := next + 1
    let mult := next + 2
    let low := next + 3
    let tmp1 := next + 4
    let tmp2 := next + 5
    let tmp3 := next + 6
    let mult' := if odd then tmp3 else mult
    some ((if odd then [] else [.shri w preShift numer 1]) ++
      [.ldc w dTn d, .mulx w low mult numer' dTn] ++
      (if odd then [.sub w tmp1 numer' mult, .shri w tmp2 tmp1 1, .add w tmp3 mult tmp2] else []) ++
      [.shri w result mult' (n - 1)])

/-- `Expand_Integer_Divide_By_Constant`; `none` is `FALSE`. -/
def expandIntegerDivideByConstant (t : Target) (result numer next : Tn) (denomVal : Int) (mtype : Mtype) :
    Option (List Op) :=
  if denomVal = 1 then some [.mov mtype.width result numer]
  else if mtype.isSigned ∧ denomVal = -1 then some [.neg mtype.width result numer]
  else if isPowerOf2 denomVal mtype then some (expandPowerOf2Divide result numer next denomVal mtype)
  else if !t.cvrtIntDivToMult then none
  else if !mtype.isDouble ∧ t.idivByConstOpt then
    if mtype.isSigned then some (expandSigned32 t.is32bit result numer next denomVal)
    else if testedValue mtype denomVal < 2 ^ 31 then
      some (expandUnsigned32 result numer next (testedValue mtype denomVal))
    else some (expandCompare32 result numer next denomVal)
  else if mtype.isSigned then expandSigned mtype result numer next denomVal
  else expandUnsigned mtype result numer next denomVal

end Path64.DivRem

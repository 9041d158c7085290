import Path64.Lib.Gcd
import Mathlib.Algebra.Order.Field.Basic
import Mathlib.Algebra.Order.Field.Rat
import Mathlib.Algebra.Order.Ring.Abs
import Mathlib.Data.Int.GCD
import Mathlib.Data.Rat.Lemmas
import Mathlib.Tactic.FieldSimp
import Mathlib.Tactic.LinearCombination
import Mathlib.Tactic.Linarith

/-!
# Fractions of 32-bit numbers

`FRAC` of `frac.h` and `frac.cxx`. The flag `FRAC::Exception` is passed along; a division that traps returns nothing.
The `Gcd` of `lx_ipa_lno_util.cxx` is `gcd32`.

* `checkSize`, `checkSizes` : the two kinds of `_checksz`;
* `reduce2`, `make` : `_reduce2`, and the constructor with its `_reduce`;
* `addFrac`, `subFrac`, `mulFrac`, `divFrac`, `negFrac`, `absFrac` : the operators;
* `MakeOk` : the arguments for which the constructor is right; `make_right_iff` : that this is exact;
* `FracExp` : an expression of fractions; `frac_right_iff` : the expressions all of whose results are exact or flagged.
-/

namespace Path64.Lno

/-- `FRAC_MAX`, smaller when `Is_True_On` is defined. -/
def fracMax (isTrueOn : Bool) : Int := if isTrueOn then 1000000 else 2 ^ 31 - 1

/-- `FRAC`: `_n` and `_d`. -/
structure Frac where
  n : Int
  d : Int
  deriving DecidableEq, Repr

/-! ## Reduction -/

/-- `_sz_ok`. -/
def SizeOk (isTrueOn : Bool) (x : Int) : Prop := x ≤ fracMax isTrueOn ∧ x ≥ -fracMax isTrueOn

instance (isTrueOn : Bool) (x : Int) : Decidable (SizeOk isTrueOn x) := inferInstanceAs (Decidable (_ ∧ _))

/-- `_checksz` of a component, which is clipped. -/
def checkSize (isTrueOn : Bool) (x : Int) (exc : Bool) : Int × Bool :=
  if SizeOk isTrueOn x then (x, exc) else (max (min x (fracMax isTrueOn)) (-fracMax isTrueOn), true)

/-- A division of two 32-bit numbers, which may trap. -/
def quot (x y : Int) : Option Int := if y = 0 ∨ x = -2 ^ 31 ∧ y = -1 then none else some (x.tdiv y)

/-- `_checksz` of both components. -/
def checkSizes (isTrueOn : Bool) (n d : Int) (exc : Bool) : Option (Frac × Bool) :=
  if SizeOk isTrueOn n ∧ SizeOk isTrueOn d then some (⟨n, d⟩, exc)
  else do
    let n ← if d = 0 then some 1 else quot n d
    return (⟨n, 1⟩, true)

/-- `_reduce2`. -/
def reduce2 (isTrueOn : Bool) (n d : Int) (exc : Bool) : Option (Frac × Bool) := do
  let exc := exc || d = 0
  let d := if d = 0 then 1 else d
  let neg : Bool := if n < 0 then d > 0 else d < 0
  let i1 := if n < 0 then wrap32 (-n) else n
  let i2 := if d < 0 then wrap32 (-d) else d
  let g := gcd32 i1 i2
  let n ← quot (if neg then wrap32 (-i1) else i1) g
  let d ← quot i2 g
  checkSizes isTrueOn n d exc

/-- `FRAC(n, d)`. -/
def make (isTrueOn : Bool) (n d : Int) (exc : Bool) : Option (Frac × Bool) :=
  if d = 1 then
    let r := checkSize isTrueOn n exc
    some (⟨r.1, d⟩, r.2)
  else if n = 0 then some (⟨n, 1⟩, exc)
  else if n = 1 ∨ n = -1 then
    let r := checkSize isTrueOn (if d < 0 then wrap32 (-d) else d) exc
    some (⟨if d < 0 then -n else n, r.1⟩, r.2)
  else if d = -1 then
    let r := checkSize isTrueOn (wrap32 (-n)) exc
    some (⟨r.1, -d⟩, r.2)
  else reduce2 isTrueOn n d exc

/-! ## The operators -/

/-- `FRAC(_checksz(n), _checksz(d))` of 64-bit numbers. -/
def makeChecked (isTrueOn : Bool) (n d : Int) (exc : Bool) : Option (Frac × Bool) :=
  let rn := checkSize isTrueOn (wrap64 n) exc
  let rd := checkSize isTrueOn (wrap64 d) rn.2
  make isTrueOn rn.1 rd.1 rd.2

def addFrac (isTrueOn : Bool) (x y : Frac) (exc : Bool) : Option (Frac × Bool) :=
  makeChecked isTrueOn (x.n * y.d + y.n * x.d) (x.d * y.d) exc

def subFrac (isTrueOn : Bool) (x y : Frac) (exc : Bool) : Option (Frac × Bool) :=
  makeChecked isTrueOn (x.n * y.d - y.n * x.d) (x.d * y.d) exc

def mulFrac (isTrueOn : Bool) (x y : Frac) (exc : Bool) : Option (Frac × Bool) :=
  makeChecked isTrueOn (x.n * y.n) (x.d * y.d) exc

def divFrac (isTrueOn : Bool) (x y : Frac) (exc : Bool) : Option (Frac × Bool) :=
  makeChecked isTrueOn (x.n * y.d) (x.d * y.n) exc

/-- Without reduction. -/
def negFrac (x : Frac) : Frac := ⟨wrap32 (-x.n), x.d⟩

def absFrac (x : Frac) : Frac := ⟨if x.n < 0 then wrap32 (-x.n) else x.n, x.d⟩

/-- `operator <`. -/
def ltFrac (x y : Frac) : Bool := wrap64 (x.n * y.d) < wrap64 (y.n * x.d)

/-- `operator <=`. -/
def leFrac (x y : Frac) : Bool := wrap64 (x.n * y.d) ≤ wrap64 (y.n * x.d)

variable {isTrueOn exc : Bool} {i j n d x y : Int}

/-! ## The constructor -/

/-- A fraction in lowest terms with a positive denominator, and no component too big. -/
structure Frac.Canonical (isTrueOn : Bool) (f : Frac) : Prop where
  pos : 0 < f.d
  lowest : Int.gcd f.n f.d = 1
  num : SizeOk isTrueOn f.n
  den : SizeOk isTrueOn f.d

def Frac.value (f : Frac) : ℚ := f.n / f.d

/-- The quotient of two numbers, if there is one. -/
def ratio (n d : Int) : Option ℚ := if d = 0 then none else some (n / d)

/-- The operation returns, and its result is flagged or exactly `v`. -/
def Right (isTrueOn : Bool) (v : Option ℚ) (o : Option (Frac × Bool)) : Prop :=
  ∃ r, o = some r ∧ (r.2 = true ∨ r.1.Canonical isTrueOn ∧ v = some r.1.value)

/-- The arguments for which the constructor is right: no zero below 0, 1 or -1; and the most negative number only
where its quotient by the divisor that is found is too big, or has the right sign. -/
def MakeOk (isTrueOn : Bool) (n d : Int) (exc : Bool) : Prop :=
  (d = 0 → n = 0 ∨ n = 1 ∨ n = -1 → exc = true) ∧
    ((n = -2 ^ 31 ∨ d = -2 ^ 31) → ¬(n = 0 ∨ n = 1 ∨ n = -1) → ¬(d = 0 ∨ d = 1 ∨ d = -1) →
      gcd32 n d ≠ -1 ∧
        (exc = true ∨ ¬(SizeOk isTrueOn (n.tdiv (gcd32 n d)) ∧ SizeOk isTrueOn (d.tdiv (gcd32 n d))) ∨ n = d ∨
          n = -2 ^ 31 ∧ 0 < d ∧ 0 < gcd32 n d))

theorem fracMax_bounds (isTrueOn : Bool) : 1 ≤ fracMax isTrueOn ∧ fracMax isTrueOn < 2 ^ 31 := by
  cases isTrueOn <;> decide

theorem checkSize_cases (isTrueOn : Bool) (x : Int) (exc : Bool) :
    ((checkSize isTrueOn x exc).2 = true ∨ checkSize isTrueOn x exc = (x, exc)) ∧
      SizeOk isTrueOn (checkSize isTrueOn x exc).1 ∧ (exc = true → (checkSize isTrueOn x exc).2 = true) := by
  have hmax := fracMax_bounds isTrueOn
  unfold checkSize
  split_ifs with hok
  · exact ⟨Or.inr rfl, hok, id⟩
  · refine ⟨Or.inl rfl, ?_, fun _ => rfl⟩
    constructor
    · exact max_le (min_le_right _ _) (by omega)
    · exact le_max_right _ _

theorem sizeOk_neg : SizeOk isTrueOn (-x) ↔ SizeOk isTrueOn x := by
  unfold SizeOk
  omega

theorem sizeOk_abs : SizeOk isTrueOn |x| ↔ SizeOk isTrueOn x := by
  rcases abs_choice x with h | h
  · rw [h]
  · rw [h, sizeOk_neg]

theorem quot_eq (hy : y ≠ 0) (htrap : ¬(x = -2 ^ 31 ∧ y = -1)) : quot x y = some (x.tdiv y) :=
  if_neg fun h => h.elim hy htrap

/-- The last check: what is too big is flagged. -/
theorem checkSizes_right_iff {v : Option ℚ} (hy : y ≠ 0) (htrap : ¬(x = -2 ^ 31 ∧ y = -1)) :
    Right isTrueOn v (checkSizes isTrueOn x y exc) ↔
      exc = true ∨ ¬(SizeOk isTrueOn x ∧ SizeOk isTrueOn y) ∨
        0 < y ∧ Int.gcd x y = 1 ∧ v = some (x / y : ℚ) := by
  unfold checkSizes
  by_cases hok : SizeOk isTrueOn x ∧ SizeOk isTrueOn y
  · rw [if_pos hok]
    constructor
    · rintro ⟨r, hr, hflag | ⟨hcanonical, hvalue⟩⟩
      · cases hr
        exact Or.inl hflag
      · cases hr
        exact Or.inr (Or.inr ⟨hcanonical.pos, hcanonical.lowest, hvalue⟩)
    · rintro (hflag | hbig | ⟨hpos, hlowest, hvalue⟩)
      · exact ⟨_, rfl, Or.inl hflag⟩
      · exact absurd hok hbig
      · exact ⟨_, rfl, Or.inr ⟨⟨hpos, hlowest, hok.1, hok.2⟩, hvalue⟩⟩
  · rw [if_neg hok, if_neg hy, quot_eq hy htrap]
    exact iff_of_true ⟨_, rfl, Or.inl rfl⟩ (Or.inr (Or.inl hok))

theorem abs32_eq_ite (hi : InInt32 i) : abs32 i = if i < 0 then wrap32 (-i) else i := by
  split_ifs with hneg
  · rw [abs32, abs_of_neg hneg]
  · rw [abs32, abs_of_nonneg (not_lt.mp hneg), wrap32_eq_iff]
    exact hi

theorem abs32_abs32 (hi : InInt32 i) : abs32 (abs32 i) = abs32 i := by
  rw [abs32_eq hi]
  split_ifs with hmin
  · rw [hmin]
    decide
  · rw [abs32, abs_abs, ← abs32, abs32_nonneg hi hmin]

theorem reduce2_eq (hn : InInt32 n) (hd : InInt32 d) (hd0 : d ≠ 0) : reduce2 isTrueOn n d exc =
    (do
      let a ← quot (if (if n < 0 then d > 0 else d < 0) then wrap32 (-abs32 n) else abs32 n) (gcd32 n d)
      let b ← quot (abs32 d) (gcd32 n d)
      checkSizes isTrueOn a b exc) := by
  have hgcd : gcd32 (abs32 n) (abs32 d) = gcd32 n d := by
    unfold gcd32
    rw [abs32_abs32 hn, abs32_abs32 hd]
  have hneg : ((if n < 0 then decide (d > 0) else decide (d < 0)) = true) ↔ (if n < 0 then d > 0 else d < 0) := by
    split_ifs <;> exact decide_eq_true_iff
  unfold reduce2
  rw [decide_eq_false hd0, Bool.or_false, if_neg hd0]
  simp only [hneg]
  rw [← hgcd, abs32_eq_ite hn, abs32_eq_ite hd]

theorem signed_numerator (hn : InInt32 n) (hd : InInt32 d) (hn0 : n ≠ 0) (hd0 : d ≠ 0) :
    (if (if n < 0 then d > 0 else d < 0) then wrap32 (-abs32 n) else abs32 n) =
      if n = -2 ^ 31 then n else if d < 0 then -n else n := by
  rw [abs32_eq hn]
  rw [InInt32] at hn hd
  by_cases hmin : n = -2 ^ 31
  · rw [if_pos hmin, if_pos hmin, hmin, show wrap32 (-(-2 ^ 31)) = -2 ^ 31 by decide]
    split_ifs <;> rfl
  · have hwrap : wrap32 (-|n|) = -|n| := by
      rw [wrap32_eq_iff, InInt32]
      rcases abs_cases n with ⟨habs, -⟩ | ⟨habs, -⟩ <;> rw [habs] <;> omega
    rw [if_neg hmin, if_neg hmin, hwrap]
    rcases lt_or_gt_of_ne hn0 with hlt | hgt
    · simp only [if_pos hlt, abs_of_neg hlt]
      split_ifs <;> omega
    · simp only [if_neg (not_lt.mpr hgt.le), abs_of_pos hgt]

theorem quotients_right_iff {g : Int} {v : Option ℚ} (hg : g ≠ 0) (hx : ¬(x = -2 ^ 31 ∧ g = -1))
    (hy : ¬(y = -2 ^ 31 ∧ g = -1)) (hy0 : y.tdiv g ≠ 0) (htrap : ¬(x.tdiv g = -2 ^ 31 ∧ y.tdiv g = -1)) :
    Right isTrueOn v (do
      let a ← quot x g
      let b ← quot y g
      checkSizes isTrueOn a b exc) ↔
      exc = true ∨ ¬(SizeOk isTrueOn (x.tdiv g) ∧ SizeOk isTrueOn (y.tdiv g)) ∨
        0 < y.tdiv g ∧ Int.gcd (x.tdiv g) (y.tdiv g) = 1 ∧ v = some ((x.tdiv g : Int) / (y.tdiv g : Int) : ℚ) := by
  rw [quot_eq hg hx, quot_eq hg hy]
  exact checkSizes_right_iff hy0 htrap

theorem not_right_quotients {v : Option ℚ} (h : x = -2 ^ 31 ∨ y = -2 ^ 31) : ¬Right isTrueOn v (do
      let a ← quot x (-1)
      let b ← quot y (-1)
      checkSizes isTrueOn a b exc) := by
  have htraps : quot (-2 ^ 31) (-1) = none := by decide
  have hnone : (do
      let a ← quot x (-1)
      let b ← quot y (-1)
      checkSizes isTrueOn a b exc) = none := by
    rcases h with rfl | rfl
    · rw [htraps]
      rfl
    · rw [htraps]
      cases quot x (-1) <;> rfl
  rw [hnone]
  rintro ⟨r, hr, -⟩
  cases hr

theorem gcd32_min : gcd32 (-2 ^ 31) (-2 ^ 31) = -2 ^ 31 := by decide

/-- Two numbers are `G` times two numbers without a common divisor. -/
structure Lowest (n d n' d' G : Int) : Prop where
  coprime : Int.gcd n' d' = 1
  pos : 0 < G
  num : n = n' * G
  den : d = d' * G

namespace Lowest

variable {n' d' G a b g : Int}

theorem num_ne_zero (h : Lowest n d n' d' G) (hn : n ≠ 0) : n' ≠ 0 := fun h0 => hn (by rw [h.num, h0, zero_mul])

theorem den_ne_zero (h : Lowest n d n' d' G) (hd : d ≠ 0) : d' ≠ 0 := fun h0 => hd (by rw [h.den, h0, zero_mul])

theorem den_pos_iff (h : Lowest n d n' d' G) : 0 < d' ↔ 0 < d := by
  rw [h.den]
  exact (mul_pos_iff_of_pos_right h.pos).symm

theorem tdiv_num (h : Lowest n d n' d' G) : n.tdiv G = n' := by
  rw [h.num]
  exact Int.mul_tdiv_cancel n' h.pos.ne'

theorem tdiv_den (h : Lowest n d n' d' G) : d.tdiv G = d' := by
  rw [h.den]
  exact Int.mul_tdiv_cancel d' h.pos.ne'

theorem tdiv_abs (h : Lowest n d n' d' G) : |d|.tdiv G = |d'| := by
  rw [h.den, abs_mul, abs_of_pos h.pos]
  exact Int.mul_tdiv_cancel |d'| h.pos.ne'

theorem gcd_eq (h : Lowest n d n' d' G) (ha : a.natAbs = n'.natAbs) (hb : b.natAbs = d'.natAbs) : Int.gcd a b = 1 := by
  rw [← h.coprime, Int.gcd_def, Int.gcd_def, ha, hb]

theorem value_eq_iff (h : Lowest n d n' d' G) (hd : d ≠ 0) (hb : b ≠ 0) :
    (some (n / d : ℚ) = some (a / b : ℚ)) ↔ n' * b = a * d' := by
  have hgq : (G : ℚ) ≠ 0 := by exact_mod_cast h.pos.ne'
  have hbq : (b : ℚ) ≠ 0 := by exact_mod_cast hb
  have hdq : (d' : ℚ) ≠ 0 := by exact_mod_cast h.den_ne_zero hd
  have hquot : (n / d : ℚ) = n' / d' := by
    rw [h.num, h.den]
    push_cast
    exact mul_div_mul_right _ _ hgq
  rw [Option.some_inj, hquot, div_eq_div_iff hdq hbq]
  exact_mod_cast Iff.rfl

theorem ne_min {z w : Int} (hG : 0 < G) (hw : w = z * G) (hfit : InInt32 w) (hmin : w ≠ -2 ^ 31) :
    z ≠ -2 ^ 31 ∧ z ≠ 2 ^ 31 := by
  rw [InInt32] at hfit
  constructor
  · rintro rfl
    omega
  · rintro rfl
    omega

end Lowest

section
variable {n' d' G g : Int}

theorem right_of_small (h : Lowest n d n' d' G) (hd0 : d ≠ 0) : Right isTrueOn (some (n / d)) (do
      let a ← quot (if d < 0 then -n else n) G
      let b ← quot |d| G
      checkSizes isTrueOn a b exc) := by
  have hpos := abs_pos.mpr (h.den_ne_zero hd0)
  have hG := h.pos
  have hnum : (if d < 0 then -n else n).tdiv G = if d < 0 then -n' else n' := by
    split_ifs
    · rw [Int.neg_tdiv, h.tdiv_num]
    · exact h.tdiv_num
  have hvalue : n' * |d'| = (if d < 0 then -n' else n') * d' := by
    have hsign := h.den_pos_iff
    split_ifs with hneg
    · rw [abs_of_nonpos (by omega), mul_neg, neg_mul]
    · rw [abs_of_pos (by omega)]
  have hgcd : Int.gcd (if d < 0 then -n' else n') |d'| = 1 := by
    refine h.gcd_eq ?_ (Int.natAbs_abs d')
    split_ifs
    · exact Int.natAbs_neg n'
    · rfl
  refine (quotients_right_iff hG.ne' (by omega) (by omega) ?_ ?_).mpr (Or.inr (Or.inr ?_))
  · rw [h.tdiv_abs]
    exact hpos.ne'
  · rw [h.tdiv_abs]
    omega
  · rw [hnum, h.tdiv_abs]
    exact ⟨hpos, hgcd, (h.value_eq_iff hd0 hpos.ne').mpr hvalue⟩

/-- A most negative numerator keeps its sign, whatever that of the denominator. -/
theorem min_num_right_iff (h : Lowest n d n' d' G) (hd : InInt32 d) (hn0 : n ≠ 0) (hd0 : d ≠ 0)
    (hminN : n = -2 ^ 31) (hminD : d ≠ -2 ^ 31) (hg : g = G ∨ g = -G) :
    Right isTrueOn (some (n / d)) (do
      let a ← quot n g
      let b ← quot |d| g
      checkSizes isTrueOn a b exc) ↔
      g ≠ -1 ∧ (exc = true ∨ ¬(SizeOk isTrueOn (n.tdiv g) ∧ SizeOk isTrueOn (d.tdiv g)) ∨ 0 < d ∧ 0 < g) := by
  by_cases htrap : g = -1
  · rw [htrap]
    exact iff_of_false (not_right_quotients (Or.inl hminN)) fun hok => hok.1 rfl
  have hpos := abs_pos.mpr (h.den_ne_zero hd0)
  have hG := h.pos
  have hmin := Lowest.ne_min hG h.den hd hminD
  have habs : |d| ≠ -2 ^ 31 := by
    have := abs_nonneg d
    omega
  rcases hg with rfl | rfl
  · have hvalue : n' * |d'| = n' * d' ↔ 0 < d := by
      rw [mul_right_inj' (h.num_ne_zero hn0), abs_eq_self, ← h.den_pos_iff]
      have := h.den_ne_zero hd0
      omega
    rw [quotients_right_iff hG.ne' (by omega) (by omega) (by rw [h.tdiv_abs]; exact hpos.ne')
      (by rw [h.tdiv_abs]; omega), h.tdiv_num, h.tdiv_den, h.tdiv_abs, h.value_eq_iff hd0 hpos.ne', hvalue, sizeOk_abs]
    have hgcd := h.gcd_eq rfl (Int.natAbs_abs d')
    simp only [htrap, ne_eq, not_false_eq_true, true_and, hpos, hgcd, hG, and_true]
  · have hnum : n.tdiv (-G) = -n' := by rw [Int.tdiv_neg, h.tdiv_num]
    have hden : d.tdiv (-G) = -d' := by rw [Int.tdiv_neg, h.tdiv_den]
    have hdenA : |d|.tdiv (-G) = -|d'| := by rw [Int.tdiv_neg, h.tdiv_abs]
    have hd'abs : |d'| = 1 → d' = 1 ∨ d' = -1 := fun h1 => eq_or_eq_neg_of_abs_eq h1
    have hnotpos : ¬0 < -|d'| := by omega
    have hnotG : ¬0 < -G := by omega
    rw [quotients_right_iff (by omega) (by omega) (by omega) (by rw [hdenA]; omega) ?_, hnum, hden, hdenA,
      sizeOk_neg (x := |d'|), sizeOk_neg (x := d'), sizeOk_abs]
    · simp only [htrap, ne_eq, not_false_eq_true, true_and, hnotpos, hnotG, and_false, false_and]
    · rw [hnum, hdenA]
      have := h.num
      rintro ⟨hbig, -⟩
      obtain rfl : n' = 2 ^ 31 := by omega
      omega

/-- A most negative denominator keeps its sign. -/
theorem min_den_right_iff (h : Lowest n d n' d' G) (hn : InInt32 n) (hn0 : n ≠ 0) (hminN : n ≠ -2 ^ 31)
    (hminD : d = -2 ^ 31) (hg : g = G ∨ g = -G) :
    Right isTrueOn (some (n / d)) (do
      let a ← quot (-n) g
      let b ← quot d g
      checkSizes isTrueOn a b exc) ↔
      g ≠ -1 ∧ (exc = true ∨ ¬(SizeOk isTrueOn (n.tdiv g) ∧ SizeOk isTrueOn (d.tdiv g))) := by
  by_cases htrap : g = -1
  · rw [htrap]
    exact iff_of_false (not_right_quotients (Or.inr hminD)) fun hok => hok.1 rfl
  have hd0 : d ≠ 0 := by omega
  have hG := h.pos
  have hmin := Lowest.ne_min hG h.num hn hminN
  have hneg : ¬0 < d' := by
    rw [h.den_pos_iff]
    omega
  have hd'0 := h.den_ne_zero hd0
  rcases hg with rfl | rfl
  · have hnum : (-n).tdiv g = -n' := by rw [Int.neg_tdiv, h.tdiv_num]
    rw [quotients_right_iff hG.ne' (by omega) (by omega) (by rw [h.tdiv_den]; exact hd'0) (by rw [hnum]; omega),
      hnum, h.tdiv_num, h.tdiv_den, sizeOk_neg]
    simp only [htrap, ne_eq, not_false_eq_true, true_and, hneg, false_and, or_false]
  · have hnum : n.tdiv (-G) = -n' := by rw [Int.tdiv_neg, h.tdiv_num]
    have hnumN : (-n).tdiv (-G) = n' := by rw [Int.tdiv_neg, Int.neg_tdiv, h.tdiv_num, neg_neg]
    have hden : d.tdiv (-G) = -d' := by rw [Int.tdiv_neg, h.tdiv_den]
    have hvalue : ¬n' * -d' = n' * d' := by
      rw [mul_right_inj' (h.num_ne_zero hn0)]
      omega
    rw [quotients_right_iff (by omega) (by omega) (by omega) (by rw [hden]; omega) (by rw [hnumN]; omega), hnum, hnumN,
      hden, h.value_eq_iff hd0 (neg_ne_zero.mpr hd'0), sizeOk_neg (x := n')]
    simp only [htrap, ne_eq, not_false_eq_true, true_and, hvalue, and_false, or_false]

/-- `_reduce2` of numbers that are not zero. -/
theorem reduce2_right_iff (hn : InInt32 n) (hd : InInt32 d) (hn0 : n ≠ 0) (hd0 : d ≠ 0) :
    Right isTrueOn (some (n / d)) (reduce2 isTrueOn n d exc) ↔
      ((n = -2 ^ 31 ∨ d = -2 ^ 31) → gcd32 n d ≠ -1 ∧
        (exc = true ∨ ¬(SizeOk isTrueOn (n.tdiv (gcd32 n d)) ∧ SizeOk isTrueOn (d.tdiv (gcd32 n d))) ∨ n = d ∨
          n = -2 ^ 31 ∧ 0 < d ∧ 0 < gcd32 n d)) := by
  have hpos : 0 < Int.gcd n d := Int.gcd_pos_of_ne_zero_left d hn0
  obtain ⟨n', d', hcoprime, hnum, hden⟩ := Int.exists_gcd_one hpos
  have h : Lowest n d n' d' (Int.gcd n d) := ⟨hcoprime, by exact_mod_cast hpos, hnum, hden⟩
  have hg : gcd32 n d = (Int.gcd n d : Int) ∨ gcd32 n d = -(Int.gcd n d : Int) := by
    have := natAbs_gcd32 hn hd
    omega
  rw [reduce2_eq hn hd hd0, signed_numerator hn hd hn0 hd0, abs32_eq hd]
  by_cases hminN : n = -2 ^ 31
  · by_cases hminD : d = -2 ^ 31
    · -- both are the most negative number, and so is the divisor
      rw [if_pos hminN, if_pos hminD, hminN, hminD, gcd32_min]
      have hone : (-2 ^ 31 : Int).tdiv (-2 ^ 31) = 1 := by decide
      refine iff_of_true ((quotients_right_iff (by decide) (by decide) (by decide) (by decide) (by decide)).mpr ?_)
        fun _ => ⟨by decide, Or.inr (Or.inr (Or.inl rfl))⟩
      refine Or.inr (Or.inr ⟨by decide, by decide, ?_⟩)
      rw [hone]
      norm_num
    · rw [if_pos hminN, if_neg hminD, min_num_right_iff h hd hn0 hd0 hminN hminD hg]
      have hne : n ≠ d := by omega
      simp only [eq_true hminN, true_or, true_imp_iff, true_and, hne, false_or]
  · rw [if_neg hminN]
    by_cases hminD : d = -2 ^ 31
    · have hneg : d < 0 := by omega
      have hne : n ≠ d := by omega
      rw [if_pos hminD, if_pos hneg, min_den_right_iff h hn hn0 hminN hminD hg]
      simp only [eq_true hminD, or_true, true_imp_iff, hne, hminN, false_and, or_false]
    · have hG : gcd32 n d = (Int.gcd n d : Int) := gcd32_nonneg hn hd hminN hminD
      rw [if_neg hminD, hG]
      exact iff_of_true (right_of_small h hd0) fun hmin => absurd hmin (not_or.mpr ⟨hminN, hminD⟩)

end

theorem gcd32_one (hi : InInt32 i) : gcd32 i 1 = 1 := by
  by_cases hmin : i = -2 ^ 31
  · rw [hmin]
    decide
  · rw [gcd32_nonneg hi (by decide) hmin (by decide), Int.gcd_one]
    rfl

theorem checkSizes_flag {r : Frac × Bool} (h : checkSizes isTrueOn x y true = some r) : r.2 = true := by
  unfold checkSizes at h
  split_ifs at h
  · cases h
    rfl
  · cases h
    rfl
  · obtain ⟨q, -, hq⟩ := Option.bind_eq_some_iff.mp h
    cases hq
    rfl

theorem reduce2_flag {r : Frac × Bool} (h : reduce2 isTrueOn n d true = some r) : r.2 = true := by
  obtain ⟨a, -, h⟩ := Option.bind_eq_some_iff.mp h
  obtain ⟨b, -, h⟩ := Option.bind_eq_some_iff.mp h
  rw [Bool.true_or] at h
  exact checkSizes_flag h

theorem make_flag {r : Frac × Bool} (h : make isTrueOn n d true = some r) : r.2 = true := by
  have hsize := fun x => (checkSize_cases isTrueOn x true).2.2 rfl
  unfold make at h
  split_ifs at h
  · cases h
    exact hsize n
  · cases h
    rfl
  · cases h
    exact hsize _
  · cases h
    exact hsize _
  · cases h
    exact hsize _
  · exact reduce2_flag h

theorem right_of_flag {v w : Option ℚ} {o : Option (Frac × Bool)} (hflag : ∀ r, o = some r → r.2 = true)
    (h : Right isTrueOn v o) : Right isTrueOn w o := by
  obtain ⟨r, hr, -⟩ := h
  exact ⟨r, hr, Or.inl (hflag r hr)⟩

theorem reduce2_zero (hn : InInt32 n) (hn0 : n ≠ 0) : Right isTrueOn none (reduce2 isTrueOn n 0 exc) := by
  have hone : reduce2 isTrueOn n 0 exc = reduce2 isTrueOn n 1 true := by
    unfold reduce2
    rw [decide_eq_true (rfl : (0 : Int) = 0), Bool.or_true, Bool.true_or]
    rfl
  rw [hone]
  refine right_of_flag (fun r => reduce2_flag) ((reduce2_right_iff hn (by decide) hn0 one_ne_zero).mpr fun _ => ?_)
  rw [gcd32_one hn]
  exact ⟨by decide, Or.inl rfl⟩

/-! ## The special cases of the constructor -/

theorem checkSize_num_right (isTrueOn exc : Bool) (hpos : 0 < d) (hgcd : Int.gcd n d = 1) (hd : SizeOk isTrueOn d) :
    Right isTrueOn (some (n / d)) (some (⟨(checkSize isTrueOn n exc).1, d⟩, (checkSize isTrueOn n exc).2)) := by
  obtain ⟨hcases, hok, -⟩ := checkSize_cases isTrueOn n exc
  rcases hcases with hflag | heq
  · exact ⟨_, rfl, Or.inl hflag⟩
  · rw [heq] at hok ⊢
    exact ⟨_, rfl, Or.inr ⟨⟨hpos, hgcd, hok, hd⟩, rfl⟩⟩

theorem checkSize_den_right (isTrueOn exc : Bool) (hpos : 0 < d) (hgcd : Int.gcd n d = 1) (hn : SizeOk isTrueOn n) :
    Right isTrueOn (some (n / d)) (some (⟨n, (checkSize isTrueOn d exc).1⟩, (checkSize isTrueOn d exc).2)) := by
  obtain ⟨hcases, hok, -⟩ := checkSize_cases isTrueOn d exc
  rcases hcases with hflag | heq
  · exact ⟨_, rfl, Or.inl hflag⟩
  · rw [heq] at hok ⊢
    exact ⟨_, rfl, Or.inr ⟨⟨hpos, hgcd, hn, hok⟩, rfl⟩⟩

theorem sizeOk_one : SizeOk isTrueOn 1 := by
  have := fracMax_bounds isTrueOn
  unfold SizeOk
  omega

theorem sizeOk_zero : SizeOk isTrueOn 0 := by
  have := fracMax_bounds isTrueOn
  unfold SizeOk
  omega

theorem checkSize_neg (hx : InInt32 x) :
    checkSize isTrueOn (wrap32 (-x)) exc = checkSize isTrueOn (-x) exc ∨
      (checkSize isTrueOn (wrap32 (-x)) exc).2 = true := by
  have hmax := fracMax_bounds isTrueOn
  by_cases hmin : x = -2 ^ 31
  · refine Or.inr ?_
    rw [hmin, checkSize, if_neg]
    rw [show wrap32 (- -2 ^ 31) = -2 ^ 31 by decide, SizeOk]
    omega
  · refine Or.inl ?_
    rw [wrap32_eq_iff.mpr]
    rw [InInt32] at hx ⊢
    omega

theorem neg_ratio (n d : Int) : (n / d : ℚ) = (-n : Int) / (-d : Int) := by
  push_cast
  exact (neg_div_neg_eq _ _).symm

theorem right_none_iff {f : Frac} : Right isTrueOn none (some (f, exc)) ↔ exc = true := by
  constructor
  · rintro ⟨r, hr, hflag | ⟨-, hv⟩⟩
    · cases hr
      exact hflag
    · cases hv
  · exact fun h => ⟨_, rfl, Or.inl h⟩

/-- The constructor is right exactly for these arguments. -/
theorem make_right_iff (hn : InInt32 n) (hd : InInt32 d) :
    Right isTrueOn (ratio n d) (make isTrueOn n d exc) ↔ MakeOk isTrueOn n d exc := by
  unfold make MakeOk ratio
  by_cases hd1 : d = 1
  · rw [if_pos hd1, hd1, if_neg one_ne_zero]
    refine iff_of_true (checkSize_num_right isTrueOn exc one_pos (Int.gcd_one_right n) sizeOk_one) ⟨?_, ?_⟩
    · exact fun h => absurd h one_ne_zero
    · exact fun _ _ h => absurd (Or.inr (Or.inl rfl)) h
  rw [if_neg hd1]
  by_cases hn0 : n = 0
  · rw [if_pos hn0, hn0]
    by_cases hd0 : d = 0
    · rw [if_pos hd0, right_none_iff]
      exact ⟨fun h => ⟨fun _ _ => h, fun _ h0 => absurd (Or.inl rfl) h0⟩, fun h => h.1 hd0 (Or.inl rfl)⟩
    · rw [if_neg hd0]
      refine iff_of_true ⟨_, rfl, Or.inr ⟨⟨one_pos, Int.gcd_one_right 0, sizeOk_zero, sizeOk_one⟩, ?_⟩⟩ ⟨?_, ?_⟩
      · unfold Frac.value
        norm_num
      · exact fun h => absurd h hd0
      · exact fun _ h => absurd (Or.inl rfl) h
  rw [if_neg hn0]
  by_cases hn1 : n = 1 ∨ n = -1
  · rw [if_pos hn1]
    have hsize : SizeOk isTrueOn n ∧ SizeOk isTrueOn (-n) := by
      rw [sizeOk_neg, and_self]
      rcases hn1 with rfl | rfl
      · exact sizeOk_one
      · exact sizeOk_neg.mpr sizeOk_one
    have hgcd : ∀ z, Int.gcd n z = 1 ∧ Int.gcd (-n) z = 1 := by
      intro z
      rcases hn1 with rfl | rfl <;> simp
    have hnot : ¬¬(n = 0 ∨ n = 1 ∨ n = -1) := not_not.mpr (Or.inr hn1)
    by_cases hd0 : d = 0
    · rw [if_pos hd0, hd0, if_neg (lt_irrefl 0), checkSize, if_pos sizeOk_zero, right_none_iff]
      exact ⟨fun h => ⟨fun _ _ => h, fun _ h0 => absurd h0 hnot⟩, fun h => h.1 rfl (Or.inr hn1)⟩
    · rw [if_neg hd0]
      refine iff_of_true ?_ ⟨fun h => absurd h hd0, fun _ h => absurd h hnot⟩
      by_cases hneg : d < 0
      · rw [if_pos hneg, if_pos hneg]
        rcases checkSize_neg hd with heq | hflag
        · rw [heq]
          have hright := checkSize_den_right isTrueOn exc (neg_pos.mpr hneg) (hgcd _).2 hsize.2
          rw [← neg_ratio] at hright
          exact hright
        · exact ⟨_, rfl, Or.inl hflag⟩
      · rw [if_neg hneg, if_neg hneg]
        exact checkSize_den_right isTrueOn exc (by omega) (hgcd _).1 hsize.1
  rw [if_neg hn1]
  by_cases hdN : d = -1
  · have hd0 : d ≠ 0 := by omega
    rw [if_pos hdN, if_neg hd0, hdN]
    refine iff_of_true ?_ ⟨fun h => absurd h (by decide), fun _ _ h => absurd (Or.inr (Or.inr rfl)) h⟩
    rcases checkSize_neg hn with heq | hflag
    · rw [heq]
      have hright := checkSize_num_right isTrueOn exc one_pos (Int.gcd_one_right (-n)) sizeOk_one
      rw [← neg_neg (1 : Int), ← neg_ratio] at hright
      exact hright
    · exact ⟨_, rfl, Or.inl hflag⟩
  rw [if_neg hdN]
  by_cases hd0 : d = 0
  · rw [if_pos hd0, hd0]
    refine iff_of_true (reduce2_zero hn hn0) ⟨?_, ?_⟩
    · exact fun _ h => absurd h (not_or.mpr ⟨hn0, hn1⟩)
    · exact fun _ _ h => absurd (Or.inl rfl) h
  · rw [if_neg hd0, reduce2_right_iff hn hd hn0 hd0]
    refine ⟨fun h => ⟨fun h0 => absurd h0 hd0, fun hmin _ _ => h hmin⟩, fun h hmin => h.2 hmin ?_ ?_⟩
    · exact not_or.mpr ⟨hn0, hn1⟩
    · exact not_or.mpr ⟨hd0, not_or.mpr ⟨hd1, hdN⟩⟩

/-! ## The operators on canonical fractions -/

theorem inInt32_of_sizeOk (h : SizeOk isTrueOn x) : InInt32 x ∧ x ≠ -2 ^ 31 := by
  have := fracMax_bounds isTrueOn
  unfold SizeOk at h
  rw [InInt32]
  omega

theorem sizeOk_small (h : x = 0 ∨ x = 1 ∨ x = -1) : SizeOk isTrueOn x := by
  have := fracMax_bounds isTrueOn
  unfold SizeOk
  omega

theorem makeOk_iff (hn : SizeOk isTrueOn n) (hd : SizeOk isTrueOn d) :
    MakeOk isTrueOn n d exc ↔ (d = 0 → n = 0 ∨ n = 1 ∨ n = -1 → exc = true) := by
  have hmin : ¬(n = -2 ^ 31 ∨ d = -2 ^ 31) := not_or.mpr ⟨(inInt32_of_sizeOk hn).2, (inInt32_of_sizeOk hd).2⟩
  exact ⟨And.left, fun h => ⟨h, fun h0 => absurd h0 hmin⟩⟩

theorem makeChecked_flag (v : Option ℚ) (h : exc = true ∨ ¬(SizeOk isTrueOn (wrap64 n) ∧ SizeOk isTrueOn (wrap64 d))) :
    Right isTrueOn v (makeChecked isTrueOn n d exc) := by
  obtain ⟨-, hn, hflagN⟩ := checkSize_cases isTrueOn (wrap64 n) exc
  obtain ⟨-, hd, hflagD⟩ := checkSize_cases isTrueOn (wrap64 d) (checkSize isTrueOn (wrap64 n) exc).2
  have hset : (checkSize isTrueOn (wrap64 d) (checkSize isTrueOn (wrap64 n) exc).2).2 = true := by
    rcases h with hexc | hbig
    · exact hflagD (hflagN hexc)
    · by_cases hbigN : SizeOk isTrueOn (wrap64 n)
      · rw [checkSize, if_neg fun hbigD => hbig ⟨hbigN, hbigD⟩]
      · refine hflagD ?_
        rw [checkSize, if_neg hbigN]
  unfold makeChecked
  simp only [hset]
  exact right_of_flag (fun r => make_flag) ((make_right_iff (inInt32_of_sizeOk hn).1 (inInt32_of_sizeOk hd).1).mpr
    ((makeOk_iff hn hd).mpr fun _ _ => rfl))

theorem makeChecked_right_iff (hn : InInt64 n) (hd : InInt64 d) :
    Right isTrueOn (ratio n d) (makeChecked isTrueOn n d exc) ↔ (d = 0 → n = 0 ∨ n = 1 ∨ n = -1 → exc = true) := by
  by_cases hok : SizeOk isTrueOn n ∧ SizeOk isTrueOn d
  · obtain ⟨hokN, hokD⟩ := hok
    rw [← makeOk_iff hokN hokD, ← make_right_iff (inInt32_of_sizeOk hokN).1 (inInt32_of_sizeOk hokD).1]
    unfold makeChecked checkSize
    simp only [wrap64_eq hn, wrap64_eq hd, if_pos hokN, if_pos hokD]
  · refine iff_of_true (makeChecked_flag _ (Or.inr ?_)) fun hd0 hn1 => absurd ⟨sizeOk_small hn1, ?_⟩ hok
    · rw [wrap64_eq hn, wrap64_eq hd]
      exact hok
    · exact sizeOk_small (Or.inl hd0)

/-- The operators of two fractions. -/
inductive Operator
  | add
  | sub
  | mul
  | div
  deriving DecidableEq, Repr

def Operator.apply (isTrueOn : Bool) : Operator → Frac → Frac → Bool → Option (Frac × Bool)
  | add => addFrac isTrueOn
  | sub => subFrac isTrueOn
  | mul => mulFrac isTrueOn
  | div => divFrac isTrueOn

/-- The rational result, if there is one. -/
def Operator.value : Operator → ℚ → ℚ → Option ℚ
  | add, p, q => some (p + q)
  | sub, p, q => some (p - q)
  | mul, p, q => some (p * q)
  | div, p, q => if q = 0 then none else some (p / q)

theorem Operator.apply_flag (o : Operator) (f h : Frac) (v : Option ℚ) : Right isTrueOn v (o.apply isTrueOn f h true) := by
  cases o <;> exact makeChecked_flag v (Or.inl rfl)

theorem mul_bounds (hx : SizeOk isTrueOn x) (hy : SizeOk isTrueOn y) : -2 ^ 62 < x * y ∧ x * y < 2 ^ 62 := by
  have hmax := fracMax_bounds isTrueOn
  obtain ⟨hxu, hxl⟩ := hx
  obtain ⟨hyu, hyl⟩ := hy
  have habs : |x * y| ≤ (2 ^ 31 - 1) * (2 ^ 31 - 1) := by
    rw [abs_mul]
    exact mul_le_mul (abs_le.mpr (by omega)) (abs_le.mpr (by omega)) (abs_nonneg y) (by decide)
  rw [abs_le] at habs
  omega

theorem Operator.value_eq {f h : Frac} (hf : 0 < f.d) (hh : 0 < h.d) :
    Operator.add.value f.value h.value = ratio (f.n * h.d + h.n * f.d) (f.d * h.d) ∧
      Operator.sub.value f.value h.value = ratio (f.n * h.d - h.n * f.d) (f.d * h.d) ∧
      Operator.mul.value f.value h.value = ratio (f.n * h.n) (f.d * h.d) ∧
      Operator.div.value f.value h.value = ratio (f.n * h.d) (f.d * h.n) := by
  have hfq : (f.d : ℚ) ≠ 0 := by exact_mod_cast hf.ne'
  have hhq : (h.d : ℚ) ≠ 0 := by exact_mod_cast hh.ne'
  have hden : f.d * h.d ≠ 0 := (mul_pos hf hh).ne'
  unfold ratio Operator.value Frac.value
  rw [if_neg hden, if_neg hden, if_neg hden]
  push_cast
  refine ⟨?_, ?_, ?_, ?_⟩
  · rw [div_add_div _ _ hfq hhq, mul_comm (f.d : ℚ) (h.n : ℚ)]
  · rw [div_sub_div _ _ hfq hhq, mul_comm (f.d : ℚ) (h.n : ℚ)]
  · rw [div_mul_div_comm]
  · by_cases hzero : h.n = 0
    · simp only [hzero, mul_zero, Int.cast_zero, zero_div, if_true]
    · have hnq : (h.n : ℚ) ≠ 0 := by exact_mod_cast hzero
      rw [if_neg (div_ne_zero hnq hhq), if_neg (mul_ne_zero hf.ne' hzero), div_div_div_eq]

/-- An operator is right on canonical fractions, except that 0, 1 or -1 over zero is not flagged. -/
theorem Operator.apply_right_iff {o : Operator} {f h : Frac} (hf : f.Canonical isTrueOn) (hh : h.Canonical isTrueOn) :
    Right isTrueOn (o.value f.value h.value) (o.apply isTrueOn f h exc) ↔
      (o = .div → h.n = 0 → f.n = 0 ∨ f.n = 1 ∨ f.n = -1 → exc = true) := by
  obtain ⟨hadd, hsub, hmul, hdiv⟩ := Operator.value_eq hf.pos hh.pos
  have hnd := mul_bounds hf.num hh.den
  have hdn := mul_bounds hh.num hf.den
  have hdd := mul_bounds hf.den hh.den
  have hnn := mul_bounds hf.num hh.num
  have hdn' := mul_bounds hf.den hh.num
  have hden : f.d * h.d ≠ 0 := (mul_pos hf.pos hh.pos).ne'
  cases o with
  | add =>
    rw [hadd]
    refine iff_of_true ((makeChecked_right_iff ?_ ?_).mpr fun h0 => absurd h0 hden) (fun hne => nomatch hne) <;>
      · unfold InInt64
        omega
  | sub =>
    rw [hsub]
    refine iff_of_true ((makeChecked_right_iff ?_ ?_).mpr fun h0 => absurd h0 hden) (fun hne => nomatch hne) <;>
      · unfold InInt64
        omega
  | mul =>
    rw [hmul]
    refine iff_of_true ((makeChecked_right_iff ?_ ?_).mpr fun h0 => absurd h0 hden) (fun hne => nomatch hne) <;>
      · unfold InInt64
        omega
  | div =>
    rw [hdiv]
    refine (makeChecked_right_iff ?_ ?_).trans ?_
    · unfold InInt64
      omega
    · unfold InInt64
      omega
    · -- the divisor is zero, and its denominator 1
      have hone : h.n = 0 → h.d = 1 := by
        intro h0
        have hlowest := hh.lowest
        rw [h0, Int.gcd_zero_left] at hlowest
        have := hh.pos
        omega
      constructor
      · intro hright _ h0 hf1
        rw [hone h0, h0, mul_one, mul_zero] at hright
        exact hright rfl hf1
      · intro hright h0 hf1
        have h0' : h.n = 0 := (mul_eq_zero.mp h0).resolve_left hf.pos.ne'
        rw [hone h0', mul_one] at hf1
        exact hright rfl h0' hf1

/-! ## Expressions -/

/-- A fraction built by the public constructors and operators. -/
inductive FracExp
  | zero
  | int (n : Int)
  | make (n d : Int)
  | neg (e : FracExp)
  | abs (e : FracExp)
  | binary (o : Operator) (e f : FracExp)
  deriving DecidableEq, Repr

namespace FracExp

/-- The fraction, and the flag afterwards. -/
def eval (isTrueOn : Bool) : FracExp → Bool → Option (Frac × Bool)
  | zero, exc => some (⟨0, 1⟩, exc)
  | int n, exc => some (⟨(checkSize isTrueOn n exc).1, 1⟩, (checkSize isTrueOn n exc).2)
  | make n d, exc => Lno.make isTrueOn n d exc
  | neg e, exc => do
    let x ← e.eval isTrueOn exc
    return (negFrac x.1, x.2)
  | abs e, exc => do
    let x ← e.eval isTrueOn exc
    return (absFrac x.1, x.2)
  | binary o e f, exc => do
    let x ← e.eval isTrueOn exc
    let y ← f.eval isTrueOn x.2
    o.apply isTrueOn x.1 y.1 y.2

/-- The rational value, if nothing is divided by zero. -/
def value : FracExp → Option ℚ
  | zero => some 0
  | int n => some n
  | make n d => ratio n d
  | neg e => e.value.map (-·)
  | abs e => e.value.map (|·|)
  | binary o e f => do
    let p ← e.value
    let q ← f.value
    o.value p q

/-- The arguments of the constructors are 32-bit numbers. -/
def Typed : FracExp → Prop
  | zero => True
  | int n => InInt32 n
  | make n d => InInt32 n ∧ InInt32 d
  | neg e => e.Typed
  | abs e => e.Typed
  | binary _ e f => e.Typed ∧ f.Typed

/-- Every fraction of the expression is flagged or exact, in lowest terms and over a positive denominator. -/
def RightThroughout (isTrueOn : Bool) : FracExp → Bool → Prop
  | zero, exc => Right isTrueOn (value zero) (eval isTrueOn zero exc)
  | int n, exc => Right isTrueOn (value (int n)) (eval isTrueOn (int n) exc)
  | make n d, exc => Right isTrueOn (value (make n d)) (eval isTrueOn (make n d) exc)
  | neg e, exc => e.RightThroughout isTrueOn exc ∧ Right isTrueOn (value (neg e)) (eval isTrueOn (neg e) exc)
  | abs e, exc => e.RightThroughout isTrueOn exc ∧ Right isTrueOn (value (abs e)) (eval isTrueOn (abs e) exc)
  | binary o e f, exc =>
    e.RightThroughout isTrueOn exc ∧
      (∀ x, e.eval isTrueOn exc = some x → f.RightThroughout isTrueOn x.2) ∧
      Right isTrueOn (value (binary o e f)) (eval isTrueOn (binary o e f) exc)

/-- Every constructor has arguments for which it is right, and 0, 1 or -1 is not divided by zero without a flag. -/
def Meets (isTrueOn : Bool) : FracExp → Bool → Prop
  | zero, _ => True
  | int _, _ => True
  | make n d, exc => MakeOk isTrueOn n d exc
  | neg e, exc => e.Meets isTrueOn exc
  | abs e, exc => e.Meets isTrueOn exc
  | binary o e f, exc =>
    e.Meets isTrueOn exc ∧
      ∀ x, e.eval isTrueOn exc = some x → f.Meets isTrueOn x.2 ∧
        ∀ y, f.eval isTrueOn x.2 = some y →
          (o = .div → y.1.n = 0 → x.1.n = 0 ∨ x.1.n = 1 ∨ x.1.n = -1 → y.2 = true)

variable {e f : FracExp}

/-- The flag is never reset. -/
theorem eval_flag (e : FracExp) {r : Frac × Bool} (h : e.eval isTrueOn true = some r) : r.2 = true := by
  induction e generalizing r with
  | zero =>
    cases h
    rfl
  | int n =>
    cases h
    exact (checkSize_cases isTrueOn n true).2.2 rfl
  | make n d => exact make_flag h
  | neg e ih =>
    obtain ⟨x, hx, hr⟩ := Option.bind_eq_some_iff.mp h
    cases hr
    have hflag := ih hx
    exact hflag
  | abs e ih =>
    obtain ⟨x, hx, hr⟩ := Option.bind_eq_some_iff.mp h
    cases hr
    have hflag := ih hx
    exact hflag
  | binary o e f ihe ihf =>
    obtain ⟨x, hx, hr⟩ := Option.bind_eq_some_iff.mp h
    obtain ⟨y, hy, hr⟩ := Option.bind_eq_some_iff.mp hr
    rw [ihe hx] at hy
    rw [ihf hy] at hr
    obtain ⟨r', hr', hflag | ⟨-, hv⟩⟩ := o.apply_flag x.1 y.1 none
    · rw [hr] at hr'
      cases hr'
      exact hflag
    · cases hv

theorem RightThroughout.right (h : e.RightThroughout isTrueOn exc) : Right isTrueOn e.value (e.eval isTrueOn exc) := by
  cases e with
  | zero => exact h
  | int n => exact h
  | make n d => exact h
  | neg e => exact h.2
  | abs e => exact h.2
  | binary o e f => exact h.2.2

theorem right_map_sign {v : Option ℚ} {o : Option (Frac × Bool)} {sign : Frac → Frac} {signQ : ℚ → ℚ}
    (hsign : ∀ x : Frac, x.Canonical isTrueOn → (sign x).Canonical isTrueOn ∧ (sign x).value = signQ x.value)
    (h : Right isTrueOn v o) : Right isTrueOn (v.map signQ) (do
      let x ← o
      return (sign x.1, x.2)) := by
  obtain ⟨r, rfl, hflag | ⟨hcanonical, rfl⟩⟩ := h
  · exact ⟨_, rfl, Or.inl hflag⟩
  · obtain ⟨hc, hv⟩ := hsign r.1 hcanonical
    exact ⟨_, rfl, Or.inr ⟨hc, congrArg some hv.symm⟩⟩

theorem negFrac_canonical {x : Frac} (hx : x.Canonical isTrueOn) :
    (negFrac x).Canonical isTrueOn ∧ (negFrac x).value = -x.value := by
  have hn := inInt32_of_sizeOk (sizeOk_neg.mpr hx.num)
  unfold negFrac
  rw [wrap32_eq_iff.mpr hn.1]
  refine ⟨⟨hx.pos, ?_, sizeOk_neg.mpr hx.num, hx.den⟩, ?_⟩
  · rw [Int.neg_gcd]
    exact hx.lowest
  · unfold Frac.value
    push_cast
    exact neg_div _ _

theorem absFrac_canonical {x : Frac} (hx : x.Canonical isTrueOn) :
    (absFrac x).Canonical isTrueOn ∧ (absFrac x).value = |x.value| := by
  have hd : (0 : ℚ) < x.d := by exact_mod_cast hx.pos
  by_cases hneg : x.n < 0
  · have hq : x.value < 0 := div_neg_of_neg_of_pos (by exact_mod_cast hneg) hd
    rw [absFrac, if_pos hneg, abs_of_neg hq]
    exact negFrac_canonical hx
  · have hq : 0 ≤ x.value := div_nonneg (by exact_mod_cast not_lt.mp hneg) hd.le
    rw [absFrac, if_neg hneg, abs_of_nonneg hq]
    exact ⟨hx, rfl⟩

/-- Two operands that are right, and the second begun with the flag of the first. -/
theorem binary_right_iff {o : Operator} (he : e.RightThroughout isTrueOn exc)
    (hf : ∀ x, e.eval isTrueOn exc = some x → f.RightThroughout isTrueOn x.2) :
    Right isTrueOn (value (binary o e f)) (eval isTrueOn (binary o e f) exc) ↔
      ∀ x, e.eval isTrueOn exc = some x → ∀ y, f.eval isTrueOn x.2 = some y →
        (o = .div → y.1.n = 0 → x.1.n = 0 ∨ x.1.n = 1 ∨ x.1.n = -1 → y.2 = true) := by
  obtain ⟨x, hx, hxr⟩ := he.right
  obtain ⟨y, hy, hyr⟩ := (hf x hx).right
  have heval : eval isTrueOn (binary o e f) exc = o.apply isTrueOn x.1 y.1 y.2 := by
    rw [eval, hx]
    show (f.eval isTrueOn x.2).bind _ = _
    rw [hy]
    rfl
  have hall : (∀ x, e.eval isTrueOn exc = some x → ∀ y, f.eval isTrueOn x.2 = some y →
      (o = .div → y.1.n = 0 → x.1.n = 0 ∨ x.1.n = 1 ∨ x.1.n = -1 → y.2 = true)) ↔
      (o = .div → y.1.n = 0 → x.1.n = 0 ∨ x.1.n = 1 ∨ x.1.n = -1 → y.2 = true) := by
    constructor
    · exact fun h => h x hx y hy
    · intro h x' hx' y' hy'
      cases hx.symm.trans hx'
      cases hy.symm.trans hy'
      exact h
  rw [heval, hall]
  by_cases hflag : y.2 = true
  · rw [hflag]
    exact iff_of_true (o.apply_flag x.1 y.1 _) fun _ _ _ => rfl
  · have hflagX : ¬x.2 = true := fun hx2 => hflag (eval_flag f (by rw [← hx2]; exact hy))
    obtain ⟨hxc, hxv⟩ := hxr.resolve_left hflagX
    obtain ⟨hyc, hyv⟩ := hyr.resolve_left hflag
    have hvalue : value (binary o e f) = o.value x.1.value y.1.value := by
      rw [value, hxv, hyv]
      rfl
    rw [hvalue]
    exact Operator.apply_right_iff hxc hyc

/-- By induction on the expression. -/
theorem rightThroughout_iff (e : FracExp) (ht : e.Typed) (exc : Bool) :
    e.RightThroughout isTrueOn exc ↔ e.Meets isTrueOn exc := by
  induction e generalizing exc with
  | zero =>
    refine iff_of_true ⟨_, rfl, Or.inr ⟨⟨one_pos, Int.gcd_one_right 0, sizeOk_zero, sizeOk_one⟩, ?_⟩⟩ trivial
    unfold Frac.value value
    norm_num
  | int n =>
    refine iff_of_true ?_ trivial
    have hright := checkSize_num_right isTrueOn exc one_pos (Int.gcd_one_right n) sizeOk_one
    rw [Int.cast_one, div_one] at hright
    exact hright
  | make n d => exact make_right_iff ht.1 ht.2
  | neg e ih =>
    unfold RightThroughout Meets
    rw [← ih ht exc]
    exact and_iff_left_of_imp fun h => right_map_sign (fun x => negFrac_canonical) h.right
  | abs e ih =>
    unfold RightThroughout Meets
    rw [← ih ht exc]
    exact and_iff_left_of_imp fun h => right_map_sign (fun x => absFrac_canonical) h.right
  | binary o e f ihe ihf =>
    unfold RightThroughout Meets
    rw [ihe ht.1 exc]
    constructor
    · rintro ⟨he, hf, hright⟩
      have hdiv := (binary_right_iff ((ihe ht.1 exc).mpr he) hf).mp hright
      exact ⟨he, fun x hx => ⟨(ihf ht.2 x.2).mp (hf x hx), hdiv x hx⟩⟩
    · rintro ⟨he, hall⟩
      have hf : ∀ x, e.eval isTrueOn exc = some x → f.RightThroughout isTrueOn x.2 :=
        fun x hx => (ihf ht.2 x.2).mpr (hall x hx).1
      exact ⟨he, hf, (binary_right_iff ((ihe ht.1 exc).mpr he) hf).mpr fun x hx => (hall x hx).2⟩

end FracExp

/-! ## Comparisons -/

theorem compare_canonical {f h : Frac} (hf : f.Canonical isTrueOn) (hh : h.Canonical isTrueOn) :
    (f = h ↔ f.value = h.value) ∧ (ltFrac f h = true ↔ f.value < h.value) ∧
      (leFrac f h = true ↔ f.value ≤ h.value) := by
  have hfq : (0 : ℚ) < f.d := by exact_mod_cast hf.pos
  have hhq : (0 : ℚ) < h.d := by exact_mod_cast hh.pos
  have hfh := mul_bounds hf.num hh.den
  have hhf := mul_bounds hh.num hf.den
  have hwrap : wrap64 (f.n * h.d) = f.n * h.d ∧ wrap64 (h.n * f.d) = h.n * f.d := by
    constructor <;>
      · refine wrap64_eq ?_
        unfold InInt64
        omega
  refine ⟨⟨congrArg Frac.value, fun heq => ?_⟩, ?_, ?_⟩
  · obtain ⟨hn, hd⟩ := Rat.div_int_inj hf.pos hh.pos hf.lowest hh.lowest heq
    cases f
    cases h
    cases hn
    cases hd
    rfl
  · unfold ltFrac Frac.value
    rw [decide_eq_true_iff, hwrap.1, hwrap.2, div_lt_div_iff₀ hfq hhq]
    exact_mod_cast Iff.rfl
  · unfold leFrac Frac.value
    rw [decide_eq_true_iff, hwrap.1, hwrap.2, div_le_div_iff₀ hfq hhq]
    exact_mod_cast Iff.rfl

/-- From a flag that is clear, every fraction of an expression is exact or flagged just where the arguments allow it;
and the comparisons of what is exact are right. -/
theorem frac_right_iff (isTrueOn : Bool) (e : FracExp) (ht : e.Typed) :
    (e.RightThroughout isTrueOn false ↔ e.Meets isTrueOn false) ∧
      ∀ f h : Frac, f.Canonical isTrueOn → h.Canonical isTrueOn →
        (f = h ↔ f.value = h.value) ∧ (ltFrac f h = true ↔ f.value < h.value) ∧
          (leFrac f h = true ↔ f.value ≤ h.value) :=
  ⟨FracExp.rightThroughout_iff e ht false, fun _ _ hf hh => compare_canonical hf hh⟩

/-- One half and one third are added. -/
theorem frac_half_third : (FracExp.binary .add (.make 1 2) (.make 1 3)).RightThroughout false false := by
  have hhalf : MakeOk false 1 2 false := ⟨fun h => absurd h (by decide), fun _ h => absurd (by decide) h⟩
  have hthird : ∀ exc, MakeOk false 1 3 exc := fun _ => ⟨fun h => absurd h (by decide), fun _ h => absurd (by decide) h⟩
  have ht : (FracExp.binary .add (.make 1 2) (.make 1 3)).Typed := ⟨⟨by decide, by decide⟩, ⟨by decide, by decide⟩⟩
  refine (frac_right_iff false _ ht).1.mpr ⟨hhalf, fun x _ => ⟨hthird x.2, fun _ _ h => ?_⟩⟩
  cases h

/-- Zero over zero is an unflagged zero, and a zero denominator is stored. -/
theorem frac_zero_denominator :
    (FracExp.binary .div .zero .zero).eval false false = some (⟨0, 1⟩, false) ∧
      (FracExp.binary .div .zero .zero).value = none ∧
      (FracExp.make 1 0).eval false false = some (⟨1, 0⟩, false) ∧
      ¬∀ (isTrueOn : Bool) (e : FracExp), e.Typed → e.RightThroughout isTrueOn false := by
  have hzero : (FracExp.make 1 0).eval false false = some (⟨1, 0⟩, false) := by decide
  refine ⟨by decide, rfl, hzero, fun h => ?_⟩
  obtain ⟨r, hr, hflag | ⟨-, hv⟩⟩ := h false (.make 1 0) ⟨by decide, by decide⟩
  · cases hzero.symm.trans hr
    cases hflag
  · cases hv

end Path64.Lno

import Path64.Simp.Node
import Path64.Lib.Wrap

/-!
# Constants in the simplifier

The arithmetic that the simplifier (`wn_simp_code.h`) does on the constants of a tree, which it holds in an `INT64`.

* `Stored` : the `INT64` that can stand for a constant of a type, a constant of an unsigned type also sign-extended;
* `isPowerOf2`, `createBitmask`, `isAddOk`, `isSubOk` : the helpers under their names; `isPowerOf2_iff`;
* `divide` : the division of two `INT64`, which traps where the quotient is none;
* `wrap_land_mask` : a mask of ones takes the residue; `Stored.powerOf2` : the mask below a power of two.
-/

namespace Path64.Simp

open Lib

/-- An `INT64` that stands for a constant of the type. -/
structure Stored (ty : RType) (val : Int) : Prop where
  le : -2 ^ (ty.1.bits - 1) ≤ val
  lt : val < if ty.1.isUnsigned then 2 ^ ty.1.bits else 2 ^ (ty.1.bits - 1)
  int64 : InInt64 val

/-- `IS_POWER_OF_2`. -/
def isPowerOf2 (x : Int) : Bool := x ≠ 0 ∧ x.land (wrap64 (x - 1)) = 0

/-- `create_bitmask`. -/
def createBitmask (numBits : Nat) : Int :=
  if numBits = 0 then 0
  else if numBits = 64 then -1
  else wrap64 (wrap64 (2 ^ numBits) - 1)

/-- `is_add_ok`: the sum, and whether it is one of the type. -/
def isAddOk (i1 i2 : Int) (ty : MType) : Int × Bool :=
  let sum := wrap64 (i1 + i2)
  (sum, match ty with
    | .u4 => ¬sum % 2 ^ 64 > 2 ^ 32 - 1
    | .i4 => ¬sum > 2 ^ 31 - 1 ∧ ¬sum < -2 ^ 31
    | .u8 => ¬sum % 2 ^ 64 < i1 % 2 ^ 64
    | .i8 => i1.xor i2 < 0 ∨ (¬((i1 > 0 ∨ i2 > 0) ∧ sum ≤ 0) ∧ ¬((i1 < 0 ∨ i2 < 0) ∧ sum ≥ 0))
    | _ => false)

/-- `is_sub_ok`. -/
def isSubOk (i1 i2 : Int) (ty : MType) : Int × Bool :=
  let sum := wrap64 (i1 - i2)
  (sum, match ty with
    | .i4 => ¬sum > 2 ^ 31 - 1 ∧ ¬sum < -2 ^ 31
    | .u4 | .u8 => ¬i2 % 2 ^ 64 > i1 % 2 ^ 64
    | .i8 => i1.xor i2 ≥ 0 ∨ (¬(i1 > i2 ∧ sum ≤ 0) ∧ ¬(i1 < i2 ∧ sum ≥ 0))
    | _ => false)

/-- The test against the least value of the type. -/
def isC1Min (ty : RType) (c1 : Int) : Bool :=
  match ty.1 with
  | .i4 => c1 = -2 ^ 31
  | .i8 => c1 = -2 ^ 63
  | .u4 | .u8 => c1 = 0
  | _ => false

/-- The test against the greatest value of the type. -/
def isC1Max (ty : RType) (c1 : Int) : Bool :=
  match ty.1 with
  | .i4 => c1 = 2 ^ 31 - 1
  | .i8 => c1 = 2 ^ 63 - 1
  | .u4 => c1 = 2 ^ 32 - 1
  | .u8 => c1 = -1
  | _ => false

/-- What stops the simplifier. -/
inductive Fault where
  | division
  deriving DecidableEq, Repr

/-- `c1/c2`. -/
def divide (c1 c2 : Int) : Except Fault Int :=
  if c2 = 0 ∨ (c1 = -2 ^ 63 ∧ c2 = -1) then throw .division else pure (c1.tdiv c2)

/-- The simplifier returns, and a replacement has the value of the node. -/
def FoldsRight (mask : Bool) (result : Except Fault (Option Simpnode)) (node : Simpnode) (env : Env) : Prop :=
  ∃ replacement, result = .ok replacement ∧ ∀ r ∈ replacement, r.eval mask env = node.eval mask env

theorem foldsRight_some {mask : Bool} {r node : Simpnode} {env : Env} :
    FoldsRight mask (.ok (some r)) node env ↔ r.eval mask env = node.eval mask env :=
  ⟨fun ⟨_, h, hr⟩ => hr r (by cases h; rfl), fun h => ⟨_, rfl, fun _ hr => by cases hr; exact h⟩⟩

theorem foldsRight_none {mask : Bool} {node : Simpnode} {env : Env} : FoldsRight mask (.ok none) node env :=
  ⟨none, rfl, fun _ hr => nomatch hr⟩

theorem not_foldsRight_error {mask : Bool} {e : Fault} {node : Simpnode} {env : Env} :
    ¬FoldsRight mask (.error e) node env :=
  fun ⟨_, h, _⟩ => nomatch h

variable {ty : RType} {c c1 c2 : Int}

/-! ## Limits and quotients -/

theorem signed_limits (hty : ty.1.isUnsigned = false) : ∃ B : Int, (B = 2 ^ 31 ∨ B = 2 ^ 63) ∧
    (∀ x, ty.1.InRange x ↔ -B ≤ x ∧ x < B) ∧ (∀ x, isC1Min ty x = true ↔ x = -B) ∧
    (∀ x, isC1Max ty x = true ↔ x = B - 1) ∧ ty.1.wrap B = -B := by
  rcases RType.cases ty with rfl | rfl | rfl | rfl
  · exact ⟨2 ^ 31, Or.inl rfl, fun x => Iff.rfl, fun x => decide_eq_true_iff, fun x => decide_eq_true_iff,
      by decide⟩
  · exact ⟨2 ^ 63, Or.inr rfl, fun x => Iff.rfl, fun x => decide_eq_true_iff, fun x => decide_eq_true_iff,
      by decide⟩
  · exact absurd hty (by decide)
  · exact absurd hty (by decide)

theorem tdiv_spec (c1 : Int) (hne : c2 ≠ 0) : ∃ r : Int, c1 = c1.tdiv c2 * c2 + r ∧ r.natAbs < c2.natAbs ∧
    r.natAbs ≤ c1.natAbs ∧ (0 ≤ c1 → 0 ≤ r) ∧ (c1 ≤ 0 → r ≤ 0) := by
  refine ⟨c1.tmod c2, ?_, ?_, ?_, fun h => Int.tmod_nonneg c2 h, fun h => ?_⟩
  · rw [mul_comm]
    exact (Int.mul_tdiv_add_tmod c1 c2).symm
  · rw [Int.natAbs_tmod]
    exact Nat.mod_lt _ (Int.natAbs_pos.mpr hne)
  · rw [Int.natAbs_tmod]
    exact Nat.mod_le _ _
  · have := Int.tmod_nonneg c2 (show 0 ≤ -c1 by omega)
    rw [Int.neg_tmod] at this
    omega

theorem tdiv_cases (c1 : Int) (hne : c2 ≠ 0) :
    (c2 = 1 ∧ c1.tdiv c2 = c1) ∨ (c2 = -1 ∧ c1.tdiv c2 = -c1) ∨ 2 * (c1.tdiv c2).natAbs ≤ c1.natAbs := by
  rcases eq_or_ne c2 1 with rfl | h1
  · exact Or.inl ⟨rfl, Int.tdiv_one c1⟩
  rcases eq_or_ne c2 (-1) with rfl | h2
  · exact Or.inr (Or.inl ⟨rfl, by rw [Int.tdiv_neg, Int.tdiv_one]⟩)
  · refine Or.inr (Or.inr ?_)
    rw [Int.natAbs_tdiv]
    show 2 * (c1.natAbs / c2.natAbs) ≤ _
    have hle : c1.natAbs / c2.natAbs ≤ c1.natAbs / 2 := Nat.div_le_div_left (by omega) (by decide)
    omega

theorem wrap64_tdiv_mul (h1 : InInt64 c1) (hne : c2 ≠ 0) : wrap64 (c1.tdiv c2 * c2) = c1.tdiv c2 * c2 := by
  obtain ⟨r, hr, -, habs, hpos, hneg⟩ := tdiv_spec c1 hne
  have hlo := h1.1
  have hhi := h1.2
  exact wrap64_eq ⟨by omega, by omega⟩

/-! ## Powers of two and their masks -/

theorem isPowerOf2_iff {x : Int} (hx : InInt64 x) : isPowerOf2 x = true ↔ (∃ n < 63, x = 2 ^ n) ∨ x = -2 ^ 63 := by
  have hrange : -2 ^ 63 ≤ x ∧ x < 2 ^ 63 := hx
  unfold isPowerOf2
  rw [decide_eq_true_eq]
  rcases eq_or_ne x (-2 ^ 63) with rfl | hmin
  · refine iff_of_true ⟨by decide, ?_⟩ (Or.inr rfl)
    rw [show wrap64 (-2 ^ 63 - 1) = 2 ^ 63 - 1 from by decide, land_two_pow_sub_one]
    decide
  rw [wrap64_eq (show InInt64 (x - 1) from ⟨by omega, by omega⟩)]
  constructor
  · rintro ⟨hne, hland⟩
    rcases lt_trichotomy x 0 with hneg | rfl | hpos
    · have := land_neg hneg (show x - 1 < 0 by omega)
      omega
    · exact absurd rfl hne
    · obtain ⟨n, rfl⟩ := (land_sub_one_eq_zero_iff hpos).mp hland
      exact Or.inl ⟨n, (pow_lt_pow_iff_right₀ (by norm_num)).mp hrange.2, rfl⟩
  · rintro (⟨n, -, rfl⟩ | h)
    · exact ⟨by positivity, (land_sub_one_eq_zero_iff (by positivity)).mpr ⟨n, rfl⟩⟩
    · exact absurd h hmin

/-- A mask of ones takes the residue. -/
theorem wrap_land_mask (ty : RType) (a : Int) (n : Nat) :
    ty.1.wrap (a.land (ty.1.wrap (2 ^ n - 1))) = ty.1.wrap (a % 2 ^ n) := by
  rw [← land_two_pow_sub_one]
  exact MType.wrap_congr (land_emod_congr rfl (MType.wrap_emod _ _))

theorem Stored.wrap_signed (h : Stored ty c) (hty : ty.1.isUnsigned = false) : ty.1.wrap c = c := by
  have hlt := h.lt
  rw [hty] at hlt
  apply MType.wrap_of_inRange
  unfold MType.InRange
  rw [hty]
  exact ⟨h.le, hlt⟩

theorem Stored.wrap_nonneg (h : Stored ty c) (hc : 0 ≤ c) : ty.1.wrap c = c := by
  cases hty : ty.1.isUnsigned with
  | false => exact h.wrap_signed hty
  | true =>
    have hlt := h.lt
    rw [hty] at hlt
    apply MType.wrap_of_inRange
    unfold MType.InRange
    rw [hty]
    exact ⟨hc, hlt⟩

/-- The value of a constant that passes the test for a power of two, and of the mask below it. -/
theorem Stored.powerOf2 (h : Stored ty c) (hpow : isPowerOf2 c = true) (hsign : ty.1.isUnsigned = true ∨ 0 < c) :
    ∃ n : Nat, ty.1.wrap c = 2 ^ n ∧ ty.1.wrap (wrap64 (c - 1)) = ty.1.wrap (2 ^ n - 1) := by
  rcases (isPowerOf2_iff h.int64).mp hpow with ⟨n, hn, rfl⟩ | rfl
  · have hint := h.int64
    have hone : (1 : Int) ≤ 2 ^ n := one_le_pow₀ (by norm_num)
    refine ⟨n, h.wrap_nonneg (by positivity), ?_⟩
    rw [wrap64_eq (show InInt64 (2 ^ n - 1) from ⟨by omega, by have := hint.2; omega⟩)]
  · -- only the unsigned 64-bit type has this constant
    obtain ⟨ty, hbits⟩ := ty
    have hle := h.le
    refine ⟨63, ?_⟩
    cases ty <;> simp_all [MType.isUnsigned, MType.bits]
    decide

end Path64.Simp

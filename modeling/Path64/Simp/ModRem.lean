import Path64.Simp.Const

/-!
# The simplification of `MOD` and `REM`

`simp_mod_rem` of the simplifier (`wn_simp_code.h`): divisors `±1`, and masks in place of divisions by powers of two.

* `simpModRem` : the function; `simpModRem_iff` : what it returns has the value of the operation, but for the `MOD` of a
  multiple of a negative divisor, where the mask leaves the divisor in place of 0.
-/

namespace Path64.Simp

open Lib

variable {mask : Bool} {ty : RType} {a c : Int}

/-- `simp_mod_rem`. -/
def simpModRem (create : Creates mask) (opr : Opr2) (ty : RType) (k0 k1 : Simpnode) : Option Simpnode :=
  match k0.intConstVal with
  | some c0 => if c0 = 0 then some (.intconst ty 0) else none
  | none => do
    let c1 ← k1.intConstVal
    if c1 = 1 ∨ (c1 = -1 ∧ ¬ty.1.isUnsigned) then
      some (.intconst ty 0)
    else if opr ≠ .rem ∧ isPowerOf2 c1 then
      -- the most negative divisor is a power of two as well, and ends here
      if ty.1.isUnsigned ∨ (¬ty.1.isUnsigned ∧ c1 > 0) then
        some (create.exp2 .band ty k0 (.intconst ty (wrap64 (c1 - 1))))
      else none
    else if opr ≠ .rem ∧ isPowerOf2 (wrap64 (-c1)) ∧ ¬ty.1.isUnsigned then
      let c1 := wrap64 (-c1)
      let r := create.exp2 .band ty k0 (.intconst ty (wrap64 (c1 - 1)))
      some (create.exp2 .sub ty r (.intconst ty c1))
    else if opr = .rem ∧ isPowerOf2 c1 ∧ ty.1.isUnsigned then
      some (create.exp2 .band ty k0 (.intconst ty (wrap64 (c1 - 1))))
    else none

/-! ## Residues by powers of two -/

theorem fmod_two_pow (a : Int) (n : Nat) : a.fmod (2 ^ n) = a % 2 ^ n :=
  Int.fmod_eq_emod_of_nonneg a (by positivity)

theorem fmod_neg_two_pow (a : Int) (n : Nat) :
    a.fmod (-2 ^ n) = if (2 : Int) ^ n ∣ a then 0 else a % 2 ^ n - 2 ^ n := by
  have hpos : (0 : Int) < 2 ^ n := by positivity
  rw [Int.fmod_eq_emod, Int.emod_neg]
  by_cases hdvd : (2 : Int) ^ n ∣ a
  · rw [if_pos hdvd, if_pos (Or.inr (neg_dvd.mpr hdvd)), Int.emod_eq_zero_of_dvd hdvd]
    rfl
  · rw [if_neg hdvd, if_neg (by rw [neg_dvd]; omega)]
    omega

theorem eval_modRem {opr : Opr2} (hopr : opr = .mod ∨ opr = .rem) (env : Env) (k0 k1 : Simpnode) :
    (Simpnode.exp2 opr ty k0 k1).eval mask env =
      ty.1.wrap (opr.apply mask ty (ty.1.wrap (k0.eval mask env)) (ty.1.wrap (k1.eval mask env))) := by
  rcases hopr with rfl | rfl <;> rfl

theorem eval_mask (create : Creates mask) (env : Env) (k0 : Simpnode) {val : Int} {n : Nat}
    (hval : ty.1.wrap val = ty.1.wrap (2 ^ n - 1)) :
    (create.exp2 .band ty k0 (.intconst ty val)).eval mask env =
      ty.1.wrap (ty.1.wrap (k0.eval mask env) % 2 ^ n) := by
  rw [create.eval_exp2, ← wrap_land_mask]
  show ty.1.wrap (Int.land _ (ty.1.wrap (ty.1.wrap val))) = _
  rw [hval, MType.wrap_wrap]

theorem eval_negMask (create : Creates mask) (env : Env) (k0 : Simpnode) {n : Nat} (hn : n < 63) :
    (create.exp2 .sub ty (create.exp2 .band ty k0 (.intconst ty (wrap64 (2 ^ n - 1))))
      (.intconst ty (2 ^ n))).eval mask env = ty.1.wrap (ty.1.wrap (k0.eval mask env) % 2 ^ n - 2 ^ n) := by
  have hlt : (2 : Int) ^ n < 2 ^ 63 := pow_lt_pow_right₀ (by norm_num) hn
  have hpos : (0 : Int) < 2 ^ n := by positivity
  rw [create.eval_exp2]
  show ty.1.wrap (ty.1.wrap _ - ty.1.wrap (ty.1.wrap (2 ^ n))) = _
  rw [eval_mask create env k0 (congrArg _ (wrap64_eq ⟨by omega, by omega⟩)), MType.wrap_wrap, MType.wrap_wrap,
    MType.wrap_sub]

/-! ## The replacement -/

/-- The divisor whose mask leaves a wrong residue: a negative divisor of the dividend. -/
def NegDivides (opr : Opr2) (ty : RType) (k0 : Simpnode) (c dividend : Int) : Prop :=
  k0.intConstVal = none ∧ opr = .mod ∧ ty.1.isUnsigned = false ∧ c < -1 ∧ c ∣ dividend

variable {opr : Opr2} {k0 r : Simpnode} {kty : RType}

theorem apply_of_isUnit (hopr : opr = .mod ∨ opr = .rem) (hd : c = 1 ∨ c = -1) : opr.apply mask ty a c = 0 := by
  rcases hopr with rfl | rfl <;> rcases hd with rfl | rfl
  · exact Int.fmod_one a
  · exact Int.fmod_eq_zero_of_dvd ⟨-a, by ring⟩
  · exact Int.tmod_one a
  · exact Int.tmod_eq_zero_of_dvd ⟨-a, by ring⟩

theorem apply_two_pow (hopr : opr = .mod ∨ opr = .rem ∧ 0 ≤ a) (n : Nat) : opr.apply mask ty a (2 ^ n) = a % 2 ^ n := by
  rcases hopr with rfl | ⟨rfl, ha⟩
  · exact fmod_two_pow a n
  · exact Int.tmod_eq_emod_of_nonneg ha

theorem eq_neg_two_pow (hc : InInt64 c) (hnot : ¬isPowerOf2 c = true) (hpow : isPowerOf2 (wrap64 (-c)) = true) :
    ∃ n < 63, c = -2 ^ n := by
  have hmin : c ≠ -2 ^ 63 := fun h => hnot ((isPowerOf2_iff hc).mpr (Or.inr h))
  have hneg : InInt64 (-c) := ⟨by have := hc.2; omega, by have := hc.1; omega⟩
  rw [wrap64_eq hneg] at hpow
  rcases (isPowerOf2_iff hneg).mp hpow with ⟨n, hn, h⟩ | h
  · exact ⟨n, hn, by omega⟩
  · have := hc.2
    omega

/-- A replacement has the value of the operation, but where the divisor is negative and divides the dividend. -/
theorem simpModRem_iff (create : Creates mask) (hopr : opr = .mod ∨ opr = .rem) (hbits : kty.1.bits = ty.1.bits)
    (hc : Stored ty c) (hne : c ≠ 0) (hr : simpModRem create opr ty k0 (.intconst kty c) = some r) (env : Env) :
    r.eval mask env = (Simpnode.exp2 opr ty k0 (.intconst kty c)).eval mask env ↔
      ¬NegDivides opr ty k0 c (ty.1.wrap (k0.eval mask env)) := by
  have hdiv : ty.1.wrap ((Simpnode.intconst kty c).eval mask env) = ty.1.wrap c :=
    MType.wrap_congr (hbits ▸ MType.wrap_emod _ _)
  have hzero : (Simpnode.intconst ty 0).eval mask env = ty.1.wrap 0 := rfl
  rw [eval_modRem hopr, hdiv]
  unfold simpModRem at hr
  cases hk0 : k0.intConstVal with
  | some c0 =>
    simp only [hk0] at hr
    split_ifs at hr with h0
    obtain ⟨kty0, rfl⟩ : ∃ kty0, k0 = .intconst kty0 0 := by
      cases k0 <;> simp_all [Simpnode.intConstVal]
    cases hr
    refine iff_of_true ?_ fun h => nomatch hk0.symm.trans h.1
    have hz : ty.1.wrap ((Simpnode.intconst kty0 0).eval mask env) = 0 := by
      show ty.1.wrap (kty0.1.wrap 0) = 0
      rw [MType.wrap_zero, MType.wrap_zero]
    rw [hzero, hz]
    rcases hopr with rfl | rfl
    · exact congrArg _ (Int.zero_fmod (ty.1.wrap c)).symm
    · exact congrArg _ (Int.zero_tmod (ty.1.wrap c)).symm
  | none =>
    simp only [hk0, show (Simpnode.intconst kty c).intConstVal = some c from rfl, Option.bind_eq_bind, Option.bind_some] at hr
    split_ifs at hr with hunit hmask hsign hneg hrem <;> cases hr
    · -- the divisors 1 and -1
      have hwrap : ty.1.wrap c = 1 ∨ ty.1.wrap c = -1 := by
        rcases hunit with rfl | ⟨rfl, hty⟩
        · exact Or.inl (hc.wrap_nonneg (by decide))
        · exact Or.inr (hc.wrap_signed (by simpa using hty))
      rw [hzero, apply_of_isUnit hopr hwrap]
      exact iff_of_true rfl fun h => by have := h.2.2.2.1; omega
    · -- a power of two
      obtain ⟨n, hd, hm⟩ := hc.powerOf2 hmask.2 (hsign.imp_right And.right)
      rw [eval_mask create env k0 hm, hd, apply_two_pow (Or.inl (hopr.resolve_right hmask.1))]
      refine iff_of_true rfl fun h => ?_
      rcases hsign with hty | ⟨-, hpos⟩
      · exact absurd (h.2.2.1.symm.trans hty) (by decide)
      · have := h.2.2.2.1
        omega
    · -- the opposite of a power of two
      have hmod : opr = .mod := hopr.resolve_right hneg.1
      have hty : ty.1.isUnsigned = false := by simpa using hneg.2.2
      obtain ⟨n, hn, rfl⟩ := eq_neg_two_pow hc.int64 (fun h => hmask ⟨hneg.1, h⟩) hneg.2.1
      have hpos : (0 : Int) < 2 ^ n := by positivity
      have hlt : (2 : Int) ^ n < 2 ^ 63 := pow_lt_pow_right₀ (by norm_num) hn
      have hminus : wrap64 (- -(2 : Int) ^ n) = 2 ^ n := by
        rw [neg_neg]
        exact wrap64_eq ⟨by omega, hlt⟩
      have hbelow : -(2 : Int) ^ n < -1 := by
        have : -(2 : Int) ^ n ≠ -1 := fun h => hunit (Or.inr ⟨h, by simpa using hneg.2.2⟩)
        omega
      rw [hminus, eval_negMask create env k0 hn, hc.wrap_signed hty, hmod]
      show _ = ty.1.wrap (Int.fmod _ _) ↔ _
      rw [fmod_neg_two_pow]
      by_cases hdvd : (2 : Int) ^ n ∣ ty.1.wrap (k0.eval mask env)
      · -- the mask leaves 0, and the subtraction the divisor
        rw [if_pos hdvd, Int.emod_eq_zero_of_dvd hdvd, zero_sub, hc.wrap_signed hty, MType.wrap_zero]
        exact iff_of_false (by omega) fun h => h ⟨hk0, rfl, hty, hbelow, neg_dvd.mpr hdvd⟩
      · rw [if_neg hdvd]
        exact iff_of_true rfl fun h => hdvd (neg_dvd.mp h.2.2.2.2)
    · -- a remainder of an unsigned type
      obtain ⟨n, hd, hm⟩ := hc.powerOf2 hrem.2.1 (Or.inl hrem.2.2)
      rw [eval_mask create env k0 hm, hd, apply_two_pow (Or.inr ⟨hrem.1, MType.wrap_nonneg hrem.2.2 _⟩)]
      exact iff_of_true rfl fun h => absurd (h.2.2.1.symm.trans hrem.2.2) (by decide)

/-- The replacement of `6 MOD -4` has the value of the operation. -/
theorem simpModRem_six :
    (Simpnode.exp2 .sub .i4 (.exp2 .band .i4 (.load .i4 .i4 0) (.intconst .i4 3)) (.intconst .i4 4)).eval true
      ⟨fun _ => 6, fun _ => 0⟩ =
        (Simpnode.exp2 .mod .i4 (.load .i4 .i4 0) (.intconst .i4 (-4))).eval true ⟨fun _ => 6, fun _ => 0⟩ :=
  (simpModRem_iff (Creates.plain true) (Or.inl rfl) rfl
    ⟨by decide, by decide, by decide⟩ (by decide) rfl ⟨fun _ => 6, fun _ => 0⟩).mpr fun h =>
      absurd h.2.2.2.2 (by decide)

/-- `8 MOD -4` becomes `(8 & 3) - 4`. -/
theorem simpModRem_eight :
    ∃ r, simpModRem (Creates.plain true) .mod .i4 (.load .i4 .i4 0) (.intconst .i4 (-4)) = some r ∧
      r.eval true ⟨fun _ => 8, fun _ => 0⟩ = -4 ∧
      (Simpnode.exp2 .mod .i4 (.load .i4 .i4 0) (.intconst .i4 (-4))).eval true ⟨fun _ => 8, fun _ => 0⟩ = 0 :=
  ⟨_, rfl, by decide, by decide⟩

end Path64.Simp

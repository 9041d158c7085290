import Path64.Simp.Cancel
import Path64.Lib.Checked

/-!
# The simplification of `<`, `<=`, `>` and `>=`

`simp_relop` of the simplifier (`wn_simp_code.h`), for integral operands.

* `relopConst` : the rules for a constant on the right; `scaleRelop` : that for a scaled value;
* `simpRelop` : the function;
* `simpRelop_scaled_iff` : a scaled value against a constant is folded right, but where the quotient overflows.
-/

namespace Path64.Simp

open Lib

section

variable {mask : Bool} (flags : Flags) (hasPointerType : Simpnode → Bool) (create : Creates mask)
  (opr : Relop) (rty ty : RType) (k0 k1 : Simpnode)

/-- Whether a constant may be moved across the comparison. -/
def addFoldOk : Bool :=
  if ¬ty.1.isUnsigned ∧ (k0.rtype.1.isUnsigned ∨ k1.rtype.1.isUnsigned) then flags.foldUnsignedRelops
  else (¬ty.1.isUnsigned ∨ flags.foldUnsignedRelops) ∧ flags.unsafeRelops

/-- `(j * c2) relop c1`. -/
def scaleRelop (j : Simpnode) (c1 c2 : Int) : Except Fault Simpnode := do
  let c3 ← divide c1 c2
  let signC3 := c1.xor c2 < 0
  let newopr := if c2 > 0 then opr else opr.commutative
  if c1 = wrap64 (c3 * c2) then
    return create.relop newopr rty ty j (.intconst ty c3)
  -- it does not divide evenly: the quotient moves away from zero where the bound lies on that side
  let c3 :=
    if (opr = .lt ∧ c1 > 0) ∨ (opr = .gt ∧ c1 < 0) ∨ (opr = .le ∧ c1 < 0) ∨ (opr = .ge ∧ c1 > 0) then
      if signC3 then wrap64 (c3 - 1) else wrap64 (c3 + 1)
    else c3
  return create.relop newopr rty ty j (.intconst ty c3)

/-- The rules of `simp_relop` for a constant `c1` on the right. -/
def relopConst (c1 : Int) : Except Fault (Option Simpnode) :=
  if isC1Min ty c1 ∧ opr = .lt then return some (.intconst rty 0)
  else if isC1Min ty c1 ∧ opr = .ge then return some (.intconst rty 1)
  else if isC1Max ty c1 ∧ opr = .gt then return some (.intconst rty 0)
  else if isC1Max ty c1 ∧ opr = .le then return some (.intconst rty 1)
  else
    match k0 with
    | .exp2 .add _ j (.intconst _ c2) =>
      let (c3, ok) := isSubOk c1 c2 ty.1
      return if addFoldOk flags ty k0 k1 ∧ ok then some (create.relop opr rty ty j (.intconst ty c3)) else none
    | .exp2 .sub _ j (.intconst _ c2) =>
      let (c3, ok) := isAddOk c1 c2 ty.1
      return if addFoldOk flags ty k0 k1 ∧ ok then some (create.relop opr rty ty j (.intconst ty c3)) else none
    | .exp2 .sub _ (.intconst _ c2) j =>
      let (c3, ok) := isSubOk c2 c1 ty.1
      return if addFoldOk flags ty k0 k1 ∧ ok then some (create.relop opr.commutative rty ty j (.intconst ty c3)) else none
    | .exp2 .mpy mty j (.intconst _ c2) =>
      if (¬mty.1.isUnsigned ∨ flags.foldUnsignedRelops) ∧ flags.unsafeRelops ∧ c2 ≠ 0 then
        some <$> scaleRelop create opr rty ty j c1 c2
      else return none
    | _ => return none

/-- `i < N+1` and the like, on the right and then on the left. -/
def relopNext : Option Simpnode :=
  let right := match k1 with
    | .exp2 .add _ j (.intconst _ c1) =>
      if ¬addFoldOk flags ty k0 k1 then none
      else if c1 = -1 ∧ opr = .le then some (create.relop .lt rty ty k0 j)
      else if c1 = -1 ∧ opr = .gt then some (create.relop .ge rty ty k0 j)
      else if c1 = 1 ∧ opr = .ge then some (create.relop .gt rty ty k0 j)
      else if c1 = 1 ∧ opr = .lt then some (create.relop .le rty ty k0 j)
      else none
    | _ => none
  let left := match k0 with
    | .exp2 .add _ j (.intconst _ c1) =>
      if ¬addFoldOk flags ty k0 k1 ∨ ¬flags.unsafeRelops then none
      else if c1 = 1 ∧ opr = .le then some (create.relop .lt rty ty j k1)
      else if c1 = 1 ∧ opr = .gt then some (create.relop .ge rty ty j k1)
      else if c1 = -1 ∧ opr = .ge then some (create.relop .gt rty ty j k1)
      else if c1 = -1 ∧ opr = .lt then some (create.relop .le rty ty j k1)
      else none
    | _ => none
  right <|> left

/-- `simp_relop`. -/
def simpRelop : Except Fault (Option Simpnode) := do
  if k0.intConstVal.isSome then return none
  if let some c1 := k1.intConstVal then
    if let some r ← relopConst flags create opr rty ty k0 k1 c1 then return some r
  if let some r := relopNext flags create opr rty ty k0 k1 then return some r
  if ¬flags.cfoldAggressive then return none
  if k0 = k1 then return some (.intconst rty (if opr = .le ∨ opr = .ge then 1 else 0))
  return cancelInRelop flags hasPointerType create opr rty ty k0 k1

end

/-! ## The quotient -/

section Quotient

variable {c r t J c1 c2 : Int} {opr : Relop}

theorem mul_lt_iff_of_abs_lt (hlo : -c < r) (hhi : r < c) : t * c < r ↔ t < if 0 < r then 1 else 0 := by
  have hc : 0 < c := by omega
  -- the multiples of `c` at and below 0
  have hneg : t < 0 → t * c ≤ -c := fun h => by nlinarith
  have hnonneg : 0 ≤ t → 0 ≤ t * c := fun h => by positivity
  have hpos : 0 < t → c ≤ t * c := fun h => by nlinarith
  split_ifs with hr
  · rcases lt_trichotomy t 0 with h | rfl | h
    · have := hneg h
      omega
    · omega
    · have := hpos h
      omega
  · rcases lt_or_ge t 0 with h | h
    · have := hneg h
      omega
    · have := hnonneg h
      omega

/-- The constant that `scaleRelop` compares with, without the wrapping. -/
def scaledBound (opr : Relop) (c1 c2 : Int) : Int :=
  if c1 = c1.tdiv c2 * c2 then c1.tdiv c2
  else if (opr = .lt ∧ c1 > 0) ∨ (opr = .gt ∧ c1 < 0) ∨ (opr = .le ∧ c1 < 0) ∨ (opr = .ge ∧ c1 > 0) then
    if c1.xor c2 < 0 then c1.tdiv c2 - 1 else c1.tdiv c2 + 1
  else c1.tdiv c2

/-- A scaled value against a constant: the bound is the quotient, rounded away from the values that hold. -/
theorem holds_scaled (hne : c2 ≠ 0) (hopr : opr.isEquality = false) :
    opr.holds (J * c2) c1 = (if c2 > 0 then opr else opr.commutative).holds J (scaledBound opr c1 c2) := by
  obtain ⟨r, hr, habs, -, hpos, hneg⟩ := tdiv_spec c1 hne
  have hrel : opr = .lt ∨ opr = .le ∨ opr = .gt ∨ opr = .ge := by
    revert hopr
    cases opr <;> decide
  have hxor := xor_neg_iff (m := c1) (n := c2)
  have hdvd : c1 = c1.tdiv c2 * c2 ↔ r = 0 := by omega
  have hsplit : J * c2 = c1.tdiv c2 * c2 + (J - c1.tdiv c2) * c2 := by ring
  unfold scaledBound
  simp only [hdvd]
  generalize c1.tdiv c2 = q at hr hsplit ⊢
  -- what is left of the comparison: `t * c2` against the remainder
  generalize htq : J - q = t at hsplit
  rcases lt_or_gt_of_ne hne with hc | hc
  · rw [if_neg (by omega)]
    have hflip : t * c2 = -t * -c2 := by ring
    have hlt := mul_lt_iff_of_abs_lt (t := -t) (c := -c2) (r := r) (by omega) (by omega)
    have hgt := mul_lt_iff_of_abs_lt (t := t) (c := -c2) (r := -r) (by omega) (by omega)
    rw [mul_neg] at hgt
    rw [← hflip] at hlt
    rcases hrel with rfl | rfl | rfl | rfl <;> simp only [Relop.holds, Relop.commutative, decide_eq_decide, reduceCtorEq,
      true_and, false_and, or_false, false_or] <;> split_ifs at hlt hgt ⊢ <;> omega
  · rw [if_pos hc]
    have hflip : -(t * c2) = -t * c2 := by ring
    have hlt := mul_lt_iff_of_abs_lt (t := t) (c := c2) (r := r) (by omega) (by omega)
    have hgt := mul_lt_iff_of_abs_lt (t := -t) (c := c2) (r := -r) (by omega) (by omega)
    rw [← hflip] at hgt
    rcases hrel with rfl | rfl | rfl | rfl <;> simp only [Relop.holds, decide_eq_decide, reduceCtorEq, true_and,
      false_and, or_false, false_or] <;> split_ifs at hlt hgt ⊢ <;> omega

theorem not_unit (h : ¬c1 = c1.tdiv c2 * c2) : c2 ≠ 1 ∧ c2 ≠ -1 :=
  ⟨fun h1 => h (by rw [h1]; simp), fun h1 => h (by rw [h1]; simp)⟩

theorem scaledBound_mem (opr : Relop) {B : Int} (hB : 4 ≤ B) (hne : c2 ≠ 0) (hlo : -B ≤ c1) (hhi : c1 < B)
    (hnot : ¬(c1 = -B ∧ c2 = -1)) : -B ≤ scaledBound opr c1 c2 ∧ scaledBound opr c1 c2 < B := by
  have hcases := tdiv_cases c1 hne
  unfold scaledBound
  split_ifs with hdvd hmove hsign
  · omega
  · have := not_unit hdvd
    omega
  · have := not_unit hdvd
    omega
  · omega

end Quotient

section Scaled

variable {mask : Bool} {flags : Flags} {hasPointerType : Simpnode → Bool} {create : Creates mask}
  {opr : Relop} {rty ty cty kty : RType} {j : Simpnode} {c1 c2 : Int}

theorem scaleRelop_eq (h1 : InInt64 c1) (hne : c2 ≠ 0) (hnot : ¬(c1 = -2 ^ 63 ∧ c2 = -1)) :
    scaleRelop create opr rty ty j c1 c2 =
      .ok (create.relop (if c2 > 0 then opr else opr.commutative) rty ty j (.intconst ty (scaledBound opr c1 c2))) := by
  have hlo := h1.1
  have hhi := h1.2
  have hcases := tdiv_cases c1 hne
  have hprod := wrap64_tdiv_mul h1 hne
  have hdiv : divide c1 c2 = .ok (c1.tdiv c2) := if_neg (by omega)
  unfold scaleRelop scaledBound
  rw [hdiv]
  simp only [Lib.ok_bind, hprod]
  by_cases hdvd : c1 = c1.tdiv c2 * c2
  · rw [if_pos hdvd, if_pos hdvd]
    rfl
  · have hunit := not_unit hdvd
    have hsub : wrap64 (c1.tdiv c2 - 1) = c1.tdiv c2 - 1 := wrap64_eq ⟨by omega, by omega⟩
    have hadd : wrap64 (c1.tdiv c2 + 1) = c1.tdiv c2 + 1 := wrap64_eq ⟨by omega, by omega⟩
    rw [if_neg hdvd, if_neg hdvd, hsub, hadd]
    rfl

theorem simpRelop_mpy (mty : RType) (kid : Simpnode) :
    simpRelop flags hasPointerType create opr rty ty (.exp2 .mpy mty j kid) (.intconst kty c1) =
      relopConst flags create opr rty ty (.exp2 .mpy mty j kid) (.intconst kty c1) c1 := by
  unfold simpRelop
  show (do
    if let some r ← relopConst flags create opr rty ty (.exp2 .mpy mty j kid) (.intconst kty c1) c1 then return some r
    _) = _
  cases relopConst flags create opr rty ty (.exp2 .mpy mty j kid) (.intconst kty c1) c1 with
  | error e => rfl
  | ok replacement =>
    cases replacement with
    | some r => rfl
    | none =>
      rw [Lib.ok_bind]
      cases h : flags.cfoldAggressive <;> simp [relopNext, cancelInRelop, Simpnode.isSum, h] <;> rfl

/-- Where the quotient of the constant by the scale is not one of the type. -/
def QuotientOverflows (flags : Flags) (opr : Relop) (ty : RType) (c1 c2 : Int) : Prop :=
  flags.unsafeRelops = true ∧ (opr = .gt ∨ opr = .le) ∧ isC1Min ty c1 = true ∧ c2 = -1

/-- `simp_relop` turns a scaled value against a constant into a comparison with the same truth value, but where the
quotient overflows. -/
theorem simpRelop_scaled_iff (hopr : opr.isEquality = false) (hty : ty.1.isUnsigned = false)
    (hcty : cty.1.bits = ty.1.bits) (hkty : kty.1.bits = ty.1.bits) (hc1 : Stored ty c1) (hc2 : Stored ty c2)
    (hne : c2 ≠ 0) (env : Env) (hfits : ty.1.InRange (ty.1.wrap (j.eval mask env) * c2)) :
    FoldsRight mask
      (simpRelop flags hasPointerType create opr rty ty (.exp2 .mpy ty j (.intconst cty c2)) (.intconst kty c1))
      (.relop opr rty ty (.exp2 .mpy ty j (.intconst cty c2)) (.intconst kty c1)) env ↔
    ¬QuotientOverflows flags opr ty c1 c2 := by
  obtain ⟨B, hB, hrange, hmin, hmax, hwrapB⟩ := signed_limits hty
  have hval1 : ty.1.wrap ((Simpnode.intconst kty c1).eval mask env) = c1 :=
    (MType.wrap_congr (hkty ▸ MType.wrap_emod _ _)).trans (hc1.wrap_signed hty)
  have hval2 : ty.1.wrap ((Simpnode.intconst cty c2).eval mask env) = c2 :=
    (MType.wrap_congr (hcty ▸ MType.wrap_emod _ _)).trans (hc2.wrap_signed hty)
  have hprod : ty.1.wrap ((Simpnode.exp2 .mpy ty j (.intconst cty c2)).eval mask env) =
      ty.1.wrap (j.eval mask env) * c2 := by
    show ty.1.wrap (ty.1.wrap (_ * ty.1.wrap _)) = _
    rw [hval2, MType.wrap_wrap, MType.wrap_of_inRange hfits]
  have hb1 := (hrange c1).mp (by rw [← hc1.wrap_signed hty]; exact MType.inRange_wrap _ _)
  have hprodRange := (hrange _).mp hfits
  have hJ := (hrange _).mp (MType.inRange_wrap ty.1 (j.eval mask env))
  have hnode : (Simpnode.relop opr rty ty (.exp2 .mpy ty j (.intconst cty c2)) (.intconst kty c1)).eval mask env =
      (opr.holds (ty.1.wrap (j.eval mask env) * c2) c1).toInt := by
    rw [eval_relop_eq, hprod, hval1]
  -- a constant result at a limit of the type
  have hconst : ∀ b : Bool, opr.holds (ty.1.wrap (j.eval mask env) * c2) c1 = b →
      FoldsRight mask (.ok (some (.intconst rty b.toInt)))
        (.relop opr rty ty (.exp2 .mpy ty j (.intconst cty c2)) (.intconst kty c1)) env := by
    intro b hb
    rw [foldsRight_some, hnode, hb]
    exact rty.wrap_toInt b
  generalize hJeq : ty.1.wrap (j.eval mask env) = J at *
  rw [simpRelop_mpy, relopConst, QuotientOverflows]
  simp only [hmin, hmax]
  split_ifs with h1 h2 h3 h4 hflag
  · obtain ⟨hc, rfl⟩ := h1
    exact iff_of_true (hconst false (decide_eq_false (by omega))) fun h => by
      rcases h.2.1 with h | h <;> exact nomatch h
  · obtain ⟨hc, rfl⟩ := h2
    exact iff_of_true (hconst true (decide_eq_true (by omega))) fun h => by
      rcases h.2.1 with h | h <;> exact nomatch h
  · obtain ⟨hc, rfl⟩ := h3
    exact iff_of_true (hconst false (decide_eq_false (by omega))) fun h => by omega
  · obtain ⟨hc, rfl⟩ := h4
    exact iff_of_true (hconst true (decide_eq_true (by omega))) fun h => by omega
  · by_cases hover : c1 = -B ∧ c2 = -1
    · obtain ⟨rfl, rfl⟩ := hover
      have hrel : opr = .gt ∨ opr = .le := by
        revert hopr h1 h2
        cases opr <;> simp [Relop.isEquality]
      refine iff_of_false ?_ fun h => h ⟨hflag.2.1, hrel, rfl, rfl⟩
      rcases hB with rfl | rfl
      · -- the quotient `2 ^ 31` is stored, and stands for the least value
        have hquot : scaledBound opr (-2 ^ 31) (-1) = 2 ^ 31 := if_pos (by decide)
        rw [scaleRelop_eq hc1.int64 hne (by decide), hquot]
        refine fun h => ?_
        have heq := foldsRight_some.mp h
        rw [hnode, create.eval_relop, eval_relop_eq, hJeq] at heq
        change (Relop.holds _ _ (ty.1.wrap (ty.1.wrap _))).toInt = _ at heq
        rw [MType.wrap_wrap, hwrapB, if_neg (by decide)] at heq
        rcases hrel with rfl | rfl
        · have hlt : Relop.holds .lt J (-2 ^ 31) = false := decide_eq_false (by omega)
          have hgt : Relop.holds .gt (J * -1) (-2 ^ 31) = true := decide_eq_true (by omega)
          exact absurd (hlt ▸ hgt ▸ heq) (by decide)
        · have hge : Relop.holds .ge J (-2 ^ 31) = true := decide_eq_true (by omega)
          have hle : Relop.holds .le (J * -1) (-2 ^ 31) = false := decide_eq_false (by omega)
          exact absurd (hge ▸ hle ▸ heq) (by decide)
      · -- the division traps
        exact not_foldsRight_error
    · refine iff_of_true ?_ fun h => hover ⟨h.2.2.1, h.2.2.2⟩
      have hbound := scaledBound_mem opr (by omega) hne hb1.1 hb1.2 hover
      have hwrap : ty.1.wrap (scaledBound opr c1 c2) = scaledBound opr c1 c2 :=
        MType.wrap_of_inRange ((hrange _).mpr hbound)
      rw [scaleRelop_eq hc1.int64 hne (by omega)]
      refine foldsRight_some.mpr ?_
      rw [hnode, create.eval_relop, eval_relop_eq, hJeq, holds_scaled hne hopr]
      show (Relop.holds _ _ (ty.1.wrap (ty.1.wrap _))).toInt = _
      rw [hwrap, hwrap]
  · exact iff_of_true foldsRight_none fun h => hflag ⟨Or.inl (by simp [hty]), h.1, hne⟩

/-- `j * 3 < 7` becomes `j < 3`. -/
theorem simpRelop_scaled_three :
    FoldsRight true
      (simpRelop ⟨true, false, true⟩ (fun _ => false) (Creates.plain true) .lt .i4 .i4
        (.exp2 .mpy .i4 (.load .i4 .i4 0) (.intconst .i4 3)) (.intconst .i4 7))
      (.relop .lt .i4 .i4 (.exp2 .mpy .i4 (.load .i4 .i4 0) (.intconst .i4 3)) (.intconst .i4 7))
      ⟨fun _ => 2, fun _ => 0⟩ :=
  (simpRelop_scaled_iff rfl rfl rfl rfl ⟨by decide, by decide, by decide⟩ ⟨by decide, by decide, by decide⟩
    (by decide) _ (by decide)).mpr fun h => absurd h.2.2.1 (by decide)

/-- `j * -1 > -2 ^ 31` holds for `j = 0`, and becomes `j < -2 ^ 31`. -/
theorem simpRelop_scaled_min :
    simpRelop ⟨true, false, true⟩ (fun _ => false) (Creates.plain true) .gt .i4 .i4
        (.exp2 .mpy .i4 (.load .i4 .i4 0) (.intconst .i4 (-1))) (.intconst .i4 (-2 ^ 31)) =
      .ok (some (.relop .lt .i4 .i4 (.load .i4 .i4 0) (.intconst .i4 (2 ^ 31)))) ∧
    (Simpnode.relop .lt .i4 .i4 (.load .i4 .i4 0) (.intconst .i4 (2 ^ 31))).eval true ⟨fun _ => 0, fun _ => 0⟩ = 0 ∧
    (Simpnode.relop .gt .i4 .i4 (.exp2 .mpy .i4 (.load .i4 .i4 0) (.intconst .i4 (-1)))
      (.intconst .i4 (-2 ^ 31))).eval true ⟨fun _ => 0, fun _ => 0⟩ = 1 :=
  ⟨by rfl, by decide, by decide⟩

end Scaled

end Path64.Simp

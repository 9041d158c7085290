import Path64.Simp.CancelSound
import Path64.Lib.Checked

/-!
# The simplification of `==` and `!=`

`simp_eq_neq` of the simplifier (`wn_simp_code.h`), for integral operands, on a target with bit tests
(`ARCH_has_bit_tests`, which both targets are).

* `eqNeqTruth` : the rules for the constants 0 and 1; `eqNeqFold` : those that fold `(j op c2) == c1`;
* `simpEqNeq` : the function;
* `simpEqNeq_fold_iff` : for which constants folding is right for every operand.
-/

namespace Path64.Simp

open Lib

/-- What the symbol table tells about addresses. -/
structure Addresses where
  cannotBeZero : Simpnode → Bool
  /-- `LDA_Equal_Address`, where it is not `MAYBE`. -/
  equalAddress : Simpnode → Simpnode → Option Bool

section

variable {mask : Bool} (flags : Flags) (hasPointerType : Simpnode → Bool) (addresses : Addresses)
  (create : Creates mask) (opr : Relop) (rty desc : RType) (k0 k1 : Simpnode) (c1 : Int)

/-- A truth value compared with 0 or 1, and an address with 0. -/
def eqNeqTruth : Option Simpnode :=
  -- the comparison asks whether the truth value holds
  let holds := (opr = .eq ∧ c1 = 1) ∨ (opr ≠ .eq ∧ c1 = 0)
  if ¬(c1 = 0 ∨ c1 = 1) then none
  else
    match k0 with
    | .exp1 .lnot ty x => some (if holds then create.exp1 .lnot rty x else create.exp1 .lnot ty k0)
    | .exp2 .land ty x y => some (if holds then create.exp2 .land rty x y else create.exp1 .lnot ty k0)
    | .exp2 .lior ty x y => some (if holds then create.exp2 .lior rty x y else create.exp1 .lnot ty k0)
    | .relop op _ kdesc x y =>
      some (if holds then create.relop op rty kdesc x y else create.relop op.inverse rty kdesc x y)
    | .exp2 .band ty (.exp1 .bnot _ expr) (.intconst cty c2) =>
      if opr = .eq ∧ c1 = 0 ∧ isPowerOf2 c2 then
        some (create.relop opr.inverse rty desc (create.exp2 .band ty expr (.intconst cty c2)) k1)
      else none
    | .lda _ _ _ =>
      if c1 = 0 ∧ addresses.cannotBeZero k0 then some (.intconst rty (if opr = .eq then 0 else 1)) else none
    | _ => none

/-- The constants as the rule for `&` and `|` compares them. -/
def eqNeqMask (c : Int) : Int := if rty.1.bits = 32 then c.land (2 ^ 32 - 1) else c

/-- `(j op c2) == c1`. -/
def eqNeqFold : Except Fault (Option Simpnode) :=
  match k0 with
  | .exp2 .band _ _ (.intconst _ c2) =>
    return if (eqNeqMask rty c1).land (eqNeqMask rty c2).lnot ≠ 0 then
      some (.intconst rty (if opr = .eq then 0 else 1)) else none
  | .exp2 .bior _ _ (.intconst _ c2) =>
    return if (eqNeqMask rty c2).land (eqNeqMask rty c1).lnot ≠ 0 then
      some (.intconst rty (if opr = .eq then 0 else 1)) else none
  | .exp2 .add ty j (.intconst _ c2) =>
    let (c3, ok) := isAddOk c1 (wrap64 (-c2)) ty.1
    return if ok ∨ ty.1.bits = 64 then some (create.relop opr rty desc j (.intconst ty c3)) else none
  | .exp2 .sub ty j (.intconst _ c2) =>
    let (c3, ok) := isAddOk c1 c2 ty.1
    return if ok ∨ ty.1.bits = 64 then some (create.relop opr rty desc j (.intconst ty c3)) else none
  | .exp2 .sub ty (.intconst _ c2) j =>
    let (c3, ok) := isSubOk c2 c1 ty.1
    return if ok ∨ ty.1.bits = 64 then some (create.relop opr rty desc j (.intconst ty c3)) else none
  | .exp2 .mpy _ j (.intconst _ c2) => do
    if c2 = 0 then return none
    let c3 ← divide c1 c2
    return some (if wrap64 (c3 * c2) = c1 then create.relop opr rty desc j (.intconst k1.rtype c3)
      else .intconst rty (if opr = .eq then 0 else 1))
  | _ => return none

/-- `simp_eq_neq`. -/
def simpEqNeq : Except Fault (Option Simpnode) := do
  if k0.intConstVal.isSome then return none
  if let some c1 := k1.intConstVal then
    if let some r := eqNeqTruth addresses create opr rty desc k0 k1 c1 then return some r
    if let some r ← eqNeqFold create opr rty desc k0 k1 c1 then return some r
  if ¬flags.cfoldAggressive then return none
  if k0 = k1 then return some (.intconst rty (if opr = .eq then 1 else 0))
  match k0, k1 with
  | .lda _ _ _, .lda _ _ _ =>
    if let some equal := addresses.equalAddress k0 k1 then
      return some (.intconst rty (if equal = (opr = .eq) then 1 else 0))
  | _, _ => pure ()
  return cancelInRelop flags hasPointerType create opr rty desc k0 k1

end

/-! ## Equalities modulo the size -/

section Equality

variable {mask : Bool} {env : Env} {opr : Relop} {rty ty : RType} {a b a' b' : Simpnode}

theorem holds_equality (hopr : opr.isEquality = true) (x y : Int) :
    opr.holds x y = if opr = .eq then decide (x = y) else !decide (x = y) := by
  cases opr with
  | eq => rfl
  | ne => exact decide_not
  | _ => exact absurd hopr (by decide)

theorem eval_equality_iff (hopr : opr.isEquality = true) :
    (Simpnode.relop opr rty ty a b).eval mask env = (Simpnode.relop opr rty ty a' b').eval mask env ↔
      (a.eval mask env ≡ b.eval mask env [ZMOD 2 ^ ty.1.bits] ↔ a'.eval mask env ≡ b'.eval mask env [ZMOD 2 ^ ty.1.bits]) := by
  have hiff : ∀ x y : Int, ty.1.wrap x = ty.1.wrap y ↔ x ≡ y [ZMOD 2 ^ ty.1.bits] := fun x y => MType.wrap_eq_iff
  rw [eval_relop_eq, eval_relop_eq, holds_equality hopr, holds_equality hopr, ← hiff, ← hiff]
  split_ifs <;> by_cases h : ty.1.wrap (a.eval mask env) = ty.1.wrap (b.eval mask env) <;>
    by_cases h' : ty.1.wrap (a'.eval mask env) = ty.1.wrap (b'.eval mask env) <;> simp [h, h']

theorem eval_never_iff (hopr : opr.isEquality = true) :
    (Simpnode.intconst rty (if opr = .eq then 0 else 1)).eval mask env = (Simpnode.relop opr rty ty a b).eval mask env ↔
      ¬a.eval mask env ≡ b.eval mask env [ZMOD 2 ^ ty.1.bits] := by
  have hconst : (Simpnode.intconst rty (if opr = .eq then 0 else 1)).eval mask env =
      (if opr = .eq then false else true : Bool).toInt := by
    rw [← rty.wrap_toInt]
    show rty.1.wrap _ = _
    split_ifs <;> rfl
  rw [hconst, eval_relop_eq, holds_equality hopr,
    show a.eval mask env ≡ b.eval mask env [ZMOD 2 ^ ty.1.bits] ↔ ty.1.wrap (a.eval mask env) = ty.1.wrap (b.eval mask env)
      from MType.wrap_eq_iff.symm]
  split_ifs <;> by_cases h : ty.1.wrap (a.eval mask env) = ty.1.wrap (b.eval mask env) <;> simp [h]

end Equality

/-! ## Folding -/

/-- `(j op c2)`, and `(c2 - j)`. -/
inductive FoldShape where
  | add | sub | subFrom | mpy | band | bior
  deriving DecidableEq

namespace FoldShape

def node (ty cty : RType) (j : Simpnode) (c2 : Int) : FoldShape → Simpnode
  | add => .exp2 .add ty j (.intconst cty c2)
  | sub => .exp2 .sub ty j (.intconst cty c2)
  | subFrom => .exp2 .sub ty (.intconst cty c2) j
  | mpy => .exp2 .mpy ty j (.intconst cty c2)
  | band => .exp2 .band ty j (.intconst cty c2)
  | bior => .exp2 .bior ty j (.intconst cty c2)

/-- The exact result. -/
def apply (j c2 : Int) : FoldShape → Int
  | add => j + c2
  | sub => j - c2
  | subFrom => c2 - j
  | mpy => j * c2
  | band => j.land c2
  | bior => j.lor c2

end FoldShape

section Fold

variable {mask : Bool} {env : Env} {flags : Flags} {hasPointerType : Simpnode → Bool} {addresses : Addresses}
  {create : Creates mask} {opr : Relop} {rty ty cty kty : RType} {j k0 k1 : Simpnode} {c c1 c2 c3 : Int}

theorem modEq_congr {n a b a' b' : Int} (ha : a ≡ a' [ZMOD n]) (hb : b ≡ b' [ZMOD n]) :
    a ≡ b [ZMOD n] ↔ a' ≡ b' [ZMOD n] :=
  ⟨fun h => ha.symm.trans (h.trans hb), fun h => ha.trans (h.trans hb.symm)⟩

theorem eval_intconst (mask : Bool) (env : Env) (c : Int) (hkty : kty.1.bits = ty.1.bits) :
    (Simpnode.intconst kty c).eval mask env ≡ c [ZMOD 2 ^ ty.1.bits] := by
  show kty.1.wrap c ≡ c [ZMOD _]
  rw [← hkty]
  exact MType.wrap_modEq kty.1 c

theorem FoldShape.eval_node (shape : FoldShape) (hcty : cty.1.bits = ty.1.bits) :
    (shape.node ty cty j c2).eval mask env ≡ shape.apply (j.eval mask env) c2 [ZMOD 2 ^ ty.1.bits] := by
  have hj := MType.wrap_modEq ty.1 (j.eval mask env)
  have hc : ty.1.wrap ((Simpnode.intconst cty c2).eval mask env) ≡ c2 [ZMOD 2 ^ ty.1.bits] :=
    (MType.wrap_modEq ty.1 _).trans (eval_intconst mask env c2 hcty)
  cases shape
  · exact (MType.wrap_modEq ty.1 _).trans (hj.add hc)
  · exact (MType.wrap_modEq ty.1 _).trans (hj.sub hc)
  · exact (MType.wrap_modEq ty.1 _).trans (hc.sub hj)
  · exact (MType.wrap_modEq ty.1 _).trans (hj.mul hc)
  · exact (MType.wrap_modEq ty.1 _).trans (land_emod_congr hj hc)
  · exact (MType.wrap_modEq ty.1 _).trans (lor_emod_congr hj hc)

theorem foldsRight_relop (hopr : opr.isEquality = true) (hkty : kty.1.bits = ty.1.bits) :
    FoldsRight mask (.ok (some (create.relop opr rty ty j (.intconst kty c3)))) (.relop opr rty ty k0 k1) env ↔
      (j.eval mask env ≡ c3 [ZMOD 2 ^ ty.1.bits] ↔ k0.eval mask env ≡ k1.eval mask env [ZMOD 2 ^ ty.1.bits]) := by
  rw [foldsRight_some, create.eval_relop, eval_equality_iff hopr]
  exact iff_congr (modEq_congr rfl (eval_intconst mask env c3 hkty)) Iff.rfl

theorem foldsRight_never (hopr : opr.isEquality = true) :
    FoldsRight mask (.ok (some (.intconst rty (if opr = .eq then 0 else 1)))) (.relop opr rty ty k0 k1) env ↔
      ¬k0.eval mask env ≡ k1.eval mask env [ZMOD 2 ^ ty.1.bits] := by
  rw [foldsRight_some, eval_never_iff hopr]

theorem wrap64_modEq (ty : RType) (x : Int) : wrap64 x ≡ x [ZMOD 2 ^ ty.1.bits] := by
  have h64 : wrap64 x ≡ x [ZMOD 2 ^ 64] := MType.wrap_modEq .i8 x
  exact h64.of_dvd (pow_dvd_pow 2 (by rcases ty.bits_eq with h | h <;> omega))

theorem node_modEq_iff (shape : FoldShape) (hcty : cty.1.bits = ty.1.bits) (hkty : kty.1.bits = ty.1.bits) :
    (shape.node ty cty j c2).eval mask env ≡ (Simpnode.intconst kty c1).eval mask env [ZMOD 2 ^ ty.1.bits] ↔
      shape.apply (j.eval mask env) c2 ≡ c1 [ZMOD 2 ^ ty.1.bits] :=
  modEq_congr (shape.eval_node hcty) (eval_intconst mask env c1 hkty)

theorem foldsRight_move (shape : FoldShape) (hopr : opr.isEquality = true) (hcty : cty.1.bits = ty.1.bits)
    (hkty : kty.1.bits = ty.1.bits) (ok : Prop) [Decidable ok]
    (hc3 : j.eval mask env ≡ c3 [ZMOD 2 ^ ty.1.bits] ↔ shape.apply (j.eval mask env) c2 ≡ c1 [ZMOD 2 ^ ty.1.bits]) :
    FoldsRight mask (.ok (if ok then some (create.relop opr rty ty j (.intconst ty c3)) else none))
      (.relop opr rty ty (shape.node ty cty j c2) (.intconst kty c1)) env := by
  split_ifs
  · rw [foldsRight_relop hopr rfl, node_modEq_iff shape hcty hkty]
    exact hc3
  · exact foldsRight_none

theorem foldsRight_add (hopr : opr.isEquality = true) (hcty : cty.1.bits = ty.1.bits) (hkty : kty.1.bits = ty.1.bits) :
    FoldsRight mask (eqNeqFold create opr rty ty (FoldShape.add.node ty cty j c2) (.intconst kty c1) c1)
      (.relop opr rty ty (FoldShape.add.node ty cty j c2) (.intconst kty c1)) env := by
  refine foldsRight_move .add hopr hcty hkty _ ?_
  have hc3 : wrap64 (c1 + wrap64 (-c2)) ≡ c1 - c2 [ZMOD 2 ^ ty.1.bits] :=
    (wrap64_modEq ty _).trans ((wrap64_modEq ty (-c2)).add_left c1)
  refine (modEq_congr rfl hc3).trans ⟨fun h => ?_, fun h => ?_⟩
  · simpa [FoldShape.apply] using h.add_right c2
  · simpa [FoldShape.apply] using h.sub_right c2

theorem foldsRight_sub (hopr : opr.isEquality = true) (hcty : cty.1.bits = ty.1.bits) (hkty : kty.1.bits = ty.1.bits) :
    FoldsRight mask (eqNeqFold create opr rty ty (FoldShape.sub.node ty cty j c2) (.intconst kty c1) c1)
      (.relop opr rty ty (FoldShape.sub.node ty cty j c2) (.intconst kty c1)) env := by
  refine foldsRight_move .sub hopr hcty hkty _ ?_
  refine (modEq_congr rfl (wrap64_modEq ty (c1 + c2))).trans ⟨fun h => ?_, fun h => ?_⟩
  · simpa [FoldShape.apply] using h.sub_right c2
  · simpa [FoldShape.apply] using h.add_right c2

theorem foldsRight_subFrom (hopr : opr.isEquality = true) (hcty : cty.1.bits = ty.1.bits) (hj : j.Sized ty)
    (hkty : kty.1.bits = ty.1.bits) :
    FoldsRight mask (eqNeqFold create opr rty ty (FoldShape.subFrom.node ty cty j c2) (.intconst kty c1) c1)
      (.relop opr rty ty (FoldShape.subFrom.node ty cty j c2) (.intconst kty c1)) env := by
  have hmove : ∀ c3 : Int, c3 ≡ c2 - c1 [ZMOD 2 ^ ty.1.bits] → (j.eval mask env ≡ c3 [ZMOD 2 ^ ty.1.bits] ↔
      FoldShape.subFrom.apply (j.eval mask env) c2 ≡ c1 [ZMOD 2 ^ ty.1.bits]) := by
    intro c3 hc3
    refine (modEq_congr rfl hc3).trans ⟨fun h => ?_, fun h => ?_⟩
    · simpa [FoldShape.apply] using (h.sub_left c2)
    · simpa [FoldShape.apply] using (h.sub_left c2)
  cases j with
  | intconst jty c => exact foldsRight_sub (j := .intconst cty c2) hopr hj hkty
  | _ => exact foldsRight_move .subFrom hopr hcty hkty _ (hmove _ (wrap64_modEq ty (c2 - c1)))

theorem simpEqNeq_of_truth {r : Simpnode} (hk0 : k0.intConstVal = none)
    (htruth : eqNeqTruth addresses create opr rty ty k0 (.intconst kty c1) c1 = some r) :
    simpEqNeq flags hasPointerType addresses create opr rty ty k0 (.intconst kty c1) = .ok (some r) := by
  unfold simpEqNeq
  simp only [hk0, Option.isSome_none, Bool.false_eq_true, if_false, htruth,
    show (Simpnode.intconst kty c1).intConstVal = some c1 from rfl]
  rfl

/-- Past the rules for truth values, what folding returns decides: cancelling is right for equalities. -/
theorem foldsRight_simpEqNeq (hopr : opr.isEquality = true) (hk0 : k0.intConstVal = none) (h0 : k0.Sized ty)
    (hkty : kty.1.bits = ty.1.bits)
    (htruth : eqNeqTruth addresses create opr rty ty k0 (.intconst kty c1) c1 = none) :
    FoldsRight mask (simpEqNeq flags hasPointerType addresses create opr rty ty k0 (.intconst kty c1))
        (.relop opr rty ty k0 (.intconst kty c1)) env ↔
      FoldsRight mask (eqNeqFold create opr rty ty k0 (.intconst kty c1) c1)
        (.relop opr rty ty k0 (.intconst kty c1)) env := by
  have hne : k0 ≠ .intconst kty c1 := fun h => by rw [h] at hk0; exact nomatch hk0
  unfold simpEqNeq
  simp only [hk0, Option.isSome_none, Bool.false_eq_true, if_false, htruth,
    show (Simpnode.intconst kty c1).intConstVal = some c1 from rfl]
  cases hfold : eqNeqFold create opr rty ty k0 (.intconst kty c1) c1 with
  | error e => exact Iff.rfl
  | ok replacement =>
    cases replacement with
    | some r => exact Iff.rfl
    | none =>
      refine iff_of_true ?_ foldsRight_none
      rw [Lib.ok_bind]
      simp only [hne, if_false]
      split_ifs
      · cases hcancel : cancelInRelop flags hasPointerType create opr rty ty k0 (.intconst kty c1) with
        | none => exact foldsRight_none
        | some r => exact foldsRight_some.mpr (cancelInRelop_equality hopr h0
            (show Simpnode.Sized ty (.intconst kty c1) from hkty) hcancel env)
      · exact foldsRight_none

/-! ## Products -/

theorem eqNeqFold_mpy (h1 : InInt64 c1) (hne : c2 ≠ 0) (hnot : ¬(c1 = -2 ^ 63 ∧ c2 = -1)) :
    eqNeqFold create opr rty ty (FoldShape.mpy.node ty cty j c2) (.intconst kty c1) c1 =
      .ok (some (if c1.tdiv c2 * c2 = c1 then create.relop opr rty ty j (.intconst kty (c1.tdiv c2))
        else .intconst rty (if opr = .eq then 0 else 1))) := by
  have hdiv : divide c1 c2 = .ok (c1.tdiv c2) := if_neg (by omega)
  simp only [FoldShape.node, eqNeqFold, if_neg hne, hdiv, Lib.ok_bind, wrap64_tdiv_mul h1 hne, Simpnode.rtype]
  rfl

theorem foldsRight_mpy_iff (hopr : opr.isEquality = true) (hcty : cty.1.bits = ty.1.bits)
    (hkty : kty.1.bits = ty.1.bits) (h1 : InInt64 c1) (hne : c2 ≠ 0) (hnot : ¬(c1 = -2 ^ 63 ∧ c2 = -1)) :
    FoldsRight mask (eqNeqFold create opr rty ty (FoldShape.mpy.node ty cty j c2) (.intconst kty c1) c1)
        (.relop opr rty ty (FoldShape.mpy.node ty cty j c2) (.intconst kty c1)) env ↔
      if c1.tdiv c2 * c2 = c1 then
        (j.eval mask env ≡ c1.tdiv c2 [ZMOD 2 ^ ty.1.bits] ↔ j.eval mask env * c2 ≡ c1 [ZMOD 2 ^ ty.1.bits])
      else ¬j.eval mask env * c2 ≡ c1 [ZMOD 2 ^ ty.1.bits] := by
  rw [eqNeqFold_mpy h1 hne hnot]
  by_cases hdvd : c1.tdiv c2 * c2 = c1
  · rw [if_pos hdvd, if_pos hdvd, foldsRight_relop hopr hkty, node_modEq_iff .mpy hcty hkty]
    rfl
  · rw [if_neg hdvd, if_neg hdvd, foldsRight_never hopr, node_modEq_iff .mpy hcty hkty]
    rfl

theorem modEq_iff_of_inRange {x y : Int} (hx : ty.1.InRange x) (hy : ty.1.InRange y) :
    x ≡ y [ZMOD 2 ^ ty.1.bits] ↔ x = y := by
  rw [← show ty.1.wrap x = ty.1.wrap y ↔ x ≡ y [ZMOD 2 ^ ty.1.bits] from MType.wrap_eq_iff, MType.wrap_of_inRange hx,
    MType.wrap_of_inRange hy]

/-- Without overflow the rule is right for signed products. -/
theorem foldsRight_mpy_signed (hopr : opr.isEquality = true) (hcty : cty.1.bits = ty.1.bits)
    (hkty : kty.1.bits = ty.1.bits) (hty : ty.1.isUnsigned = false) (hc1 : Stored ty c1) (hne : c2 ≠ 0)
    (hnot : ¬(c1 = -2 ^ 63 ∧ c2 = -1)) (hfits : ty.1.InRange (ty.1.wrap (j.eval mask env) * c2)) :
    FoldsRight mask (eqNeqFold create opr rty ty (FoldShape.mpy.node ty cty j c2) (.intconst kty c1) c1)
      (.relop opr rty ty (FoldShape.mpy.node ty cty j c2) (.intconst kty c1)) env := by
  obtain ⟨B, hB, hrange, -, -, hwrapB⟩ := signed_limits hty
  have hj := MType.wrap_modEq ty.1 (j.eval mask env)
  have hJ := MType.inRange_wrap ty.1 (j.eval mask env)
  have hc1range : ty.1.InRange c1 := by
    rw [← hc1.wrap_signed hty]
    exact MType.inRange_wrap _ _
  rw [foldsRight_mpy_iff hopr hcty hkty hc1.int64 hne hnot, ← modEq_congr (hj.mul_right c2) rfl,
    ← modEq_congr hj rfl, modEq_iff_of_inRange hfits hc1range]
  generalize ty.1.wrap (j.eval mask env) = J at hfits hJ
  split_ifs with hdvd
  · have hcancel : J = c1.tdiv c2 ↔ J * c2 = c1 := by
      rw [← mul_left_inj' hne, hdvd]
    by_cases hover : c1 = -B ∧ c2 = -1
    · -- neither side holds: the product would be the opposite of the least value
      obtain ⟨rfl, rfl⟩ := hover
      have hJ' := (hrange J).mp hJ
      have hfits' := (hrange _).mp hfits
      have hq : (-B).tdiv (-1) = B := by rw [Int.tdiv_neg, Int.tdiv_one, neg_neg]
      have hwrap : B ≡ -B [ZMOD 2 ^ ty.1.bits] := hwrapB ▸ (MType.wrap_modEq ty.1 B).symm
      rw [hq, modEq_congr rfl hwrap, modEq_iff_of_inRange hJ hc1range]
      omega
    · have hq : ty.1.InRange (c1.tdiv c2) := by
        have h1 := (hrange c1).mp hc1range
        have hcases := tdiv_cases c1 hne
        exact (hrange _).mpr (by omega)
      rw [modEq_iff_of_inRange hJ hq, hcancel]
  · intro h
    exact hdvd (by rw [← h, Int.mul_tdiv_cancel _ hne])

theorem mul_odd_modEq_iff {x q : Int} {w : Nat} (hodd : ¬(2 : Int) ∣ c2) :
    x ≡ q [ZMOD 2 ^ w] ↔ x * c2 ≡ q * c2 [ZMOD 2 ^ w] := by
  rw [Int.modEq_iff_dvd, Int.modEq_iff_dvd, ← sub_mul, two_pow_dvd_mul_odd_iff hodd]

theorem exists_mul_modEq_iff {w : Nat} : ((Int.gcd c2 (2 ^ w) : Nat) : Int) ∣ c1 ↔ ∃ x, x * c2 ≡ c1 [ZMOD 2 ^ w] := by
  constructor
  · rintro ⟨k, rfl⟩
    refine ⟨Int.gcdA c2 (2 ^ w) * k, Int.modEq_iff_dvd.mpr ⟨Int.gcdB c2 (2 ^ w) * k, ?_⟩⟩
    rw [Int.gcd_eq_gcd_ab]
    ring
  · rintro ⟨x, hx⟩
    obtain ⟨m, hm⟩ := Int.modEq_iff_dvd.mp hx
    have hc2 : ((Int.gcd c2 (2 ^ w) : Nat) : Int) ∣ c2 := Int.gcd_dvd_left c2 _
    have hpow : ((Int.gcd c2 (2 ^ w) : Nat) : Int) ∣ 2 ^ w := Int.gcd_dvd_right c2 _
    rw [show c1 = x * c2 + 2 ^ w * m by rw [← hm]; ring]
    exact dvd_add (hc2.mul_left x) (hpow.mul_right m)

theorem eval_wholeLoad (mask : Bool) (ty : RType) (x : Int) :
    (Simpnode.load ty ty.1 0).eval mask ⟨fun _ => x, fun _ => 0⟩ ≡ x [ZMOD 2 ^ ty.1.bits] := by
  show ty.1.wrap (ty.1.wrap x) ≡ x [ZMOD _]
  rw [MType.wrap_wrap]
  exact MType.wrap_modEq ty.1 x

/-- For unsigned products the rule is right just when the scale is odd, if it divides the constant, and else when no
multiple has the constant's residue. -/
theorem foldsRight_mpy_unsigned (create : Creates mask) (rty : RType) (hopr : opr.isEquality = true)
    (hcty : cty.1.bits = ty.1.bits) (hkty : kty.1.bits = ty.1.bits) (h1 : InInt64 c1) (hne : c2 ≠ 0) (hnot : ¬(c1 = -2 ^ 63 ∧ c2 = -1)) :
    (∀ j env, j.Sized ty → FoldsRight mask
        (eqNeqFold create opr rty ty (FoldShape.mpy.node ty cty j c2) (.intconst kty c1) c1)
        (.relop opr rty ty (FoldShape.mpy.node ty cty j c2) (.intconst kty c1)) env) ↔
      if c1.tdiv c2 * c2 = c1 then ¬2 ∣ c2 else ¬((Int.gcd c2 (2 ^ ty.1.bits) : Nat) : Int) ∣ c1 := by
  simp only [foldsRight_mpy_iff hopr hcty hkty h1 hne hnot]
  have hload : ∀ x : Int, (Simpnode.load ty ty.1 0).Sized ty := fun _ => rfl
  split_ifs with hdvd
  · constructor
    · rintro h ⟨k, rfl⟩
      -- half of the values further, the product is the same
      have hval := eval_wholeLoad mask ty (c1.tdiv (2 * k) + 2 ^ (ty.1.bits - 1))
      have hhalf := MType.two_pow_bits ty.1
      have hmul : (c1.tdiv (2 * k) + 2 ^ (ty.1.bits - 1)) * (2 * k) ≡ c1 [ZMOD 2 ^ ty.1.bits] := by
        refine Int.modEq_iff_dvd.mpr ⟨-k, ?_⟩
        rw [hhalf]
        linear_combination -hdvd
      have hsame := (h _ _ (hload 0)).mpr ((hval.mul_right (2 * k)).trans hmul)
      have hbad := Int.modEq_iff_dvd.mp (hval.symm.trans hsame)
      rw [sub_add_cancel_left, dvd_neg, hhalf] at hbad
      have hpos : (0 : Int) < 2 ^ (ty.1.bits - 1) := by positivity
      have := Int.le_of_dvd hpos hbad
      omega
    · intro hodd j env _
      rw [mul_odd_modEq_iff hodd, hdvd]
  · rw [exists_mul_modEq_iff]
    constructor
    · rintro h ⟨x, hx⟩
      exact h _ _ (hload 0) (((eval_wholeLoad mask ty x).mul_right c2).trans hx)
    · exact fun h j env _ heq => h ⟨_, heq⟩

/-! ## Masks -/

theorem testBit_eqNeqMask (rty : RType) (c : Int) (k : Nat) :
    (eqNeqMask rty c).testBit k = (decide (rty.1.bits = 32 → k < 32) && c.testBit k) := by
  unfold eqNeqMask
  split_ifs with h
  · rw [land_two_pow_sub_one, testBit_emod]
    simp [h]
  · simp [h]

/-- The bits of one constant that the other lacks, as the rule for `&` and `|` looks at them. -/
def excessBits (rty : RType) (a b : Int) : Int := (eqNeqMask rty a).land (eqNeqMask rty b).lnot

theorem testBit_excessBits (rty : RType) (a b : Int) (k : Nat) : (excessBits rty a b).testBit k =
    (decide (rty.1.bits = 32 → k < 32) && (a.testBit k && !b.testBit k)) := by
  rw [excessBits, Int.testBit_land, Int.testBit_lnot, testBit_eqNeqMask, testBit_eqNeqMask]
  cases decide (rty.1.bits = 32 → k < 32) <;> simp

/-- Excess bits of the type: the constants differ where the operation cannot change them. -/
theorem exists_excess {a b : Int} (h : ¬(2 : Int) ^ ty.1.bits ∣ excessBits rty a b) :
    ∃ k < ty.1.bits, a.testBit k = true ∧ b.testBit k = false := by
  by_contra hno
  push Not at hno
  refine h (Int.dvd_of_emod_eq_zero ?_)
  rw [← Int.zero_emod (2 ^ ty.1.bits), emod_two_pow_eq_iff]
  intro k hk
  rw [testBit_excessBits]
  cases ha : a.testBit k
  · simp
  · simp [hno k hk ha]

/-- No excess bits of the type, but others: the constants are not masked, and agree in the type. -/
theorem no_excess {a b : Int} (hne : excessBits rty a b ≠ 0) (hdvd : (2 : Int) ^ ty.1.bits ∣ excessBits rty a b) :
    ∀ k < ty.1.bits, a.testBit k = true → b.testBit k = true := by
  have hzero : ∀ k < ty.1.bits, (excessBits rty a b).testBit k = false := by
    intro k hk
    have := emod_two_pow_eq_iff.mp ((Int.emod_eq_zero_of_dvd hdvd).trans (Int.zero_emod _).symm) k hk
    simpa using this
  have hrty : rty.1.bits ≠ 32 := by
    intro h32
    refine hne (eq_of_testBit fun k => ?_)
    by_cases hk : k < ty.1.bits
    · simpa using hzero k hk
    · have := ty.bits_eq
      rw [testBit_excessBits]
      simp [h32, show ¬k < 32 by omega]
  intro k hk ha
  have := hzero k hk
  rw [testBit_excessBits] at this
  simpa [hrty, ha] using this

/-- Where no operand gives the constant, "never equal" is right; where the constants agree in the type, `j = c1` does. -/
theorem foldsRight_mask_forall {shape : FoldShape} {a b : Int} (hopr : opr.isEquality = true)
    (hcty : cty.1.bits = ty.1.bits) (hkty : kty.1.bits = ty.1.bits)
    (hfold : ∀ j, eqNeqFold create opr rty ty (shape.node ty cty j c2) (.intconst kty c1) c1 =
      .ok (if excessBits rty a b ≠ 0 then some (.intconst rty (if opr = .eq then 0 else 1)) else none))
    (hnever : (∃ k < ty.1.bits, a.testBit k = true ∧ b.testBit k = false) →
      ∀ x : Int, ¬shape.apply x c2 ≡ c1 [ZMOD 2 ^ ty.1.bits])
    (hself : (∀ k < ty.1.bits, a.testBit k = true → b.testBit k = true) →
      ∀ x : Int, x ≡ c1 [ZMOD 2 ^ ty.1.bits] → shape.apply x c2 ≡ c1 [ZMOD 2 ^ ty.1.bits]) :
    (∀ j env, j.Sized ty → FoldsRight mask
        (eqNeqFold create opr rty ty (shape.node ty cty j c2) (.intconst kty c1) c1)
        (.relop opr rty ty (shape.node ty cty j c2) (.intconst kty c1)) env) ↔
      (excessBits rty a b = 0 ∨ ¬2 ^ ty.1.bits ∣ excessBits rty a b) := by
  simp only [hfold]
  constructor
  · intro h
    by_contra hno
    push Not at hno
    have hright := h (.load ty ty.1 0) ⟨fun _ => c1, fun _ => 0⟩ rfl
    rw [if_pos hno.1, foldsRight_never hopr, node_modEq_iff shape hcty hkty] at hright
    exact hright (hself (no_excess hno.1 hno.2) _ (eval_wholeLoad mask ty c1))
  · intro h j env _
    by_cases hzero : excessBits rty a b = 0
    · rw [if_neg (not_not.mpr hzero)]
      exact foldsRight_none
    · rw [if_pos hzero, foldsRight_never hopr, node_modEq_iff shape hcty hkty]
      exact hnever (exists_excess (h.resolve_left hzero)) _

theorem foldsRight_band_forall (create : Creates mask) (rty : RType) (c1 c2 : Int) (hopr : opr.isEquality = true)
    (hcty : cty.1.bits = ty.1.bits) (hkty : kty.1.bits = ty.1.bits) :
    (∀ j env, j.Sized ty → FoldsRight mask
        (eqNeqFold create opr rty ty (FoldShape.band.node ty cty j c2) (.intconst kty c1) c1)
        (.relop opr rty ty (FoldShape.band.node ty cty j c2) (.intconst kty c1)) env) ↔
      (excessBits rty c1 c2 = 0 ∨ ¬2 ^ ty.1.bits ∣ excessBits rty c1 c2) := by
  refine foldsRight_mask_forall hopr hcty hkty (fun j => rfl) ?_ ?_
  · rintro ⟨k, hk, h1, h2⟩ x heq
    have := emod_two_pow_eq_iff.mp heq k hk
    rw [FoldShape.apply, Int.testBit_land, h1, h2, Bool.and_false] at this
    exact absurd this (by decide)
  · intro h x hx
    refine emod_two_pow_eq_iff.mpr fun k hk => ?_
    have hbit := emod_two_pow_eq_iff.mp hx k hk
    rw [FoldShape.apply, Int.testBit_land, hbit]
    cases h1 : c1.testBit k
    · rfl
    · rw [h k hk h1]
      rfl

theorem foldsRight_bior_forall (create : Creates mask) (rty : RType) (c1 c2 : Int) (hopr : opr.isEquality = true)
    (hcty : cty.1.bits = ty.1.bits) (hkty : kty.1.bits = ty.1.bits) :
    (∀ j env, j.Sized ty → FoldsRight mask
        (eqNeqFold create opr rty ty (FoldShape.bior.node ty cty j c2) (.intconst kty c1) c1)
        (.relop opr rty ty (FoldShape.bior.node ty cty j c2) (.intconst kty c1)) env) ↔
      (excessBits rty c2 c1 = 0 ∨ ¬2 ^ ty.1.bits ∣ excessBits rty c2 c1) := by
  refine foldsRight_mask_forall hopr hcty hkty (fun j => rfl) ?_ ?_
  · rintro ⟨k, hk, h2, h1⟩ x heq
    have := emod_two_pow_eq_iff.mp heq k hk
    rw [FoldShape.apply, Int.testBit_lor, h1, h2, Bool.or_true] at this
    exact absurd this (by decide)
  · intro h x hx
    refine emod_two_pow_eq_iff.mpr fun k hk => ?_
    have hbit := emod_two_pow_eq_iff.mp hx k hk
    rw [FoldShape.apply, Int.testBit_lor, hbit]
    cases h2 : c2.testBit k
    · exact Bool.or_false _
    · rw [h k hk h2]
      rfl

/-! ## The complement of a bit -/

theorem Stored.exists_bit (hc : Stored ty c) (hpow : isPowerOf2 c = true) :
    ∃ n < ty.1.bits, ∀ k < ty.1.bits, c.testBit k = decide (k = n) := by
  have hle := hc.le
  rcases (isPowerOf2_iff hc.int64).mp hpow with ⟨n, hn, rfl⟩ | rfl
  · refine ⟨n, ?_, fun k _ => testBit_two_pow n k⟩
    by_contra hge
    have hlt := hc.lt
    have hmono : (2 : Int) ^ ty.1.bits ≤ 2 ^ n := pow_le_pow_right₀ (by norm_num) (by omega)
    have hhalf := MType.two_pow_bits ty.1
    have hpos : (0 : Int) < 2 ^ (ty.1.bits - 1) := by positivity
    split_ifs at hlt <;> omega
  · have h64 : ty.1.bits = 64 := by
      rcases ty.bits_eq with h | h
      · rw [h] at hle
        norm_num at hle
      · exact h
    rw [h64]
    refine ⟨63, by decide, fun k hk => ?_⟩
    rw [← testBit_two_pow]
    exact emod_two_pow_eq_iff.mp (show (-2 ^ 63 : Int) % 2 ^ 64 = 2 ^ 63 % 2 ^ 64 by decide) k hk

theorem land_bit_modEq_zero {n w : Nat} (hn : n < w) (hc : ∀ k < w, c.testBit k = decide (k = n)) (x : Int) :
    x.land c ≡ 0 [ZMOD 2 ^ w] ↔ x.testBit n = false := by
  rw [Int.ModEq, emod_two_pow_eq_iff]
  constructor
  · intro h
    simpa [Int.testBit_land, hc n hn] using h n hn
  · intro h k hk
    rw [Int.testBit_land, hc k hk, zero_testBit]
    rcases eq_or_ne k n with rfl | hne
    · simp [h]
    · simp [hne]

theorem foldsRight_bnot {bty : RType} {expr : Simpnode} (hbty : bty.1.bits = ty.1.bits) (hcty : cty.1.bits = ty.1.bits)
    (hkty : kty.1.bits = ty.1.bits) (hc2 : Stored ty c2) (hpow : isPowerOf2 c2 = true) :
    FoldsRight mask (.ok (some (create.relop .ne rty ty (create.exp2 .band ty expr (.intconst cty c2)) (.intconst kty 0))))
      (.relop .eq rty ty (.exp2 .band ty (.exp1 .bnot bty expr) (.intconst cty c2)) (.intconst kty 0)) env := by
  obtain ⟨n, hn, hbits⟩ := hc2.exists_bit hpow
  have hbnot : (Simpnode.exp1 .bnot bty expr).eval mask env ≡ (expr.eval mask env).lnot [ZMOD 2 ^ ty.1.bits] := by
    rw [← hbty]
    exact (MType.wrap_modEq bty.1 _).trans (lnot_emod_congr (MType.wrap_modEq bty.1 _))
  have hzero : ∀ j : Simpnode, (Simpnode.exp2 .band ty j (.intconst cty c2)).eval mask env ≡
      (Simpnode.intconst kty 0).eval mask env [ZMOD 2 ^ ty.1.bits] ↔ (j.eval mask env).testBit n = false :=
    fun j => (node_modEq_iff .band hcty hkty).trans (land_bit_modEq_zero hn hbits _)
  have hne : ∀ x y : Int, Relop.ne.holds (ty.1.wrap x) (ty.1.wrap y) = !decide (x ≡ y [ZMOD 2 ^ ty.1.bits]) := by
    intro x y
    exact decide_not.trans (congrArg (!·) (decide_eq_decide.mpr MType.wrap_eq_iff))
  have heq : ∀ x y : Int, Relop.eq.holds (ty.1.wrap x) (ty.1.wrap y) = decide (x ≡ y [ZMOD 2 ^ ty.1.bits]) :=
    fun x y => decide_eq_decide.mpr MType.wrap_eq_iff
  rw [foldsRight_some, create.eval_relop, eval_relop_eq, eval_relop_eq, create.eval_exp2, hne, heq]
  have h0 := hzero expr
  have h1 := hzero (.exp1 .bnot bty expr)
  rw [emod_two_pow_eq_iff.mp hbnot n hn, Int.testBit_lnot] at h1
  refine congrArg Bool.toInt ?_
  rw [← decide_not, decide_eq_decide, h0, h1]
  cases (expr.eval mask env).testBit n <;> decide

/-! ## The function -/

namespace FoldShape

/-- Signed arithmetic does not overflow. -/
def Fits (ty : RType) (j c2 : Int) : FoldShape → Prop
  | band | bior => True
  | shape => ty.1.isUnsigned = false → ty.1.InRange (shape.apply j c2)

/-- The constants that are folded right for every operand. -/
def Right (rty ty : RType) (c1 c2 : Int) : FoldShape → Prop
  | add | sub | subFrom => True
  | mpy => c2 = 0 ∨ (¬(c1 = -2 ^ 63 ∧ c2 = -1) ∧ (ty.1.isUnsigned = true →
      if c1.tdiv c2 * c2 = c1 then ¬2 ∣ c2 else ¬((Int.gcd c2 (2 ^ ty.1.bits) : Nat) : Int) ∣ c1))
  | band => excessBits rty c1 c2 = 0 ∨ ¬2 ^ ty.1.bits ∣ excessBits rty c1 c2
  | bior => excessBits rty c2 c1 = 0 ∨ ¬2 ^ ty.1.bits ∣ excessBits rty c2 c1

theorem sized_node (shape : FoldShape) (hj : j.Sized ty) (hcty : cty.1.bits = ty.1.bits) :
    (shape.node ty cty j c2).Sized ty := by
  cases shape
  · exact ⟨rfl, hj, hcty⟩
  · exact ⟨rfl, hj, hcty⟩
  · exact ⟨rfl, hcty, hj⟩
  · rfl
  · rfl
  · rfl

end FoldShape

theorem eqNeqTruth_eq_none {shape : FoldShape} (hshape : shape ≠ .band) :
    eqNeqTruth addresses create opr rty ty (shape.node ty cty j c2) (.intconst kty c1) c1 = none := by
  unfold eqNeqTruth
  cases shape with
  | band => exact absurd rfl hshape
  | _ =>
    simp only [FoldShape.node]
    split_ifs <;> rfl

theorem eqNeqTruth_band (addresses : Addresses) (create : Creates mask) (opr : Relop) (rty ty cty kty : RType)
    (j : Simpnode) (c1 c2 : Int) : eqNeqTruth addresses create opr rty ty (FoldShape.band.node ty cty j c2) (.intconst kty c1) c1 = none ∨
      ∃ bty expr, j = .exp1 .bnot bty expr ∧ opr = .eq ∧ c1 = 0 ∧ isPowerOf2 c2 = true ∧
        eqNeqTruth addresses create opr rty ty (FoldShape.band.node ty cty j c2) (.intconst kty c1) c1 =
          some (create.relop .ne rty ty (create.exp2 .band ty expr (.intconst cty c2)) (.intconst kty c1)) := by
  by_cases h01 : c1 = 0 ∨ c1 = 1
  · unfold eqNeqTruth
    simp only [FoldShape.node, if_neg (not_not.mpr h01)]
    cases j with
    | exp1 op bty expr =>
      cases op with
      | bnot =>
        by_cases h : opr = .eq ∧ c1 = 0 ∧ isPowerOf2 c2 = true
        · refine Or.inr ⟨bty, expr, rfl, h.1, h.2.1, h.2.2, (if_pos h).trans ?_⟩
          rw [h.1]
          rfl
        · exact Or.inl (if_neg h)
      | _ => exact Or.inl rfl
    | _ => exact Or.inl rfl
  · exact Or.inl (if_pos h01)

theorem excessBits_zero (rty : RType) (b : Int) : excessBits rty 0 b = 0 := by
  refine eq_of_testBit fun k => ?_
  rw [testBit_excessBits, zero_testBit, Bool.false_and, Bool.and_false]

/-- Folding an equality against a constant is right for every operand just for the constants of `Right`. -/
theorem simpEqNeq_fold_iff (flags : Flags) (hasPointerType : Simpnode → Bool) (addresses : Addresses)
    (create : Creates mask) (shape : FoldShape) (hopr : opr.isEquality = true) (hcty : cty.1.bits = ty.1.bits)
    (hkty : kty.1.bits = ty.1.bits) (hc1 : Stored ty c1) (hc2 : Stored ty c2) :
    (∀ j env, j.Sized ty → shape.Fits ty (ty.1.wrap (j.eval mask env)) c2 → FoldsRight mask
        (simpEqNeq flags hasPointerType addresses create opr rty ty (shape.node ty cty j c2) (.intconst kty c1))
        (.relop opr rty ty (shape.node ty cty j c2) (.intconst kty c1)) env) ↔
      shape.Right rty ty c1 c2 := by
  have hfold : ∀ (shape : FoldShape) (j env), j.Sized ty → eqNeqTruth addresses create opr rty ty
        (shape.node ty cty j c2) (.intconst kty c1) c1 = none → (FoldsRight mask
        (simpEqNeq flags hasPointerType addresses create opr rty ty (shape.node ty cty j c2) (.intconst kty c1))
        (.relop opr rty ty (shape.node ty cty j c2) (.intconst kty c1)) env ↔ FoldsRight mask
        (eqNeqFold create opr rty ty (shape.node ty cty j c2) (.intconst kty c1) c1)
        (.relop opr rty ty (shape.node ty cty j c2) (.intconst kty c1)) env) := by
    intro shape j env hj htruth
    exact foldsRight_simpEqNeq hopr (by cases shape <;> rfl) (shape.sized_node hj hcty) hkty htruth
  cases shape with
  | add =>
    refine iff_of_true (fun j env hj _ => ?_) trivial
    rw [hfold .add j env hj (eqNeqTruth_eq_none (by decide))]
    exact foldsRight_add hopr hcty hkty
  | sub =>
    refine iff_of_true (fun j env hj _ => ?_) trivial
    rw [hfold .sub j env hj (eqNeqTruth_eq_none (by decide))]
    exact foldsRight_sub hopr hcty hkty
  | subFrom =>
    refine iff_of_true (fun j env hj _ => ?_) trivial
    rw [hfold .subFrom j env hj (eqNeqTruth_eq_none (by decide))]
    exact foldsRight_subFrom hopr hcty hj hkty
  | mpy =>
    have hiff := fun (j : Simpnode) env (hj : j.Sized ty) => hfold .mpy j env hj (eqNeqTruth_eq_none (by decide))
    by_cases hzero : c2 = 0
    · refine iff_of_true (fun j env hj _ => ?_) (Or.inl hzero)
      rw [hiff j env hj, FoldShape.node, eqNeqFold, if_pos hzero]
      exact foldsRight_none
    by_cases htrap : c1 = -2 ^ 63 ∧ c2 = -1
    · -- the division stops the simplifier, also where the product fits
      refine iff_of_false (fun h => ?_) (by simp [FoldShape.Right, htrap])
      have hj : (Simpnode.intconst ty 0).Sized ty := rfl
      have hstop : eqNeqFold create opr rty ty (FoldShape.mpy.node ty cty (.intconst ty 0) c2) (.intconst kty c1) c1 =
          .error .division := by
        rw [FoldShape.node, eqNeqFold, if_neg hzero, divide, if_pos (Or.inr htrap)]
        rfl
      have hfits : ty.1.InRange (ty.1.wrap (ty.1.wrap 0) * c2) := by
        rw [MType.wrap_wrap, MType.wrap_zero, zero_mul, ← MType.wrap_zero ty.1]
        exact MType.inRange_wrap _ _
      have hright := (hiff _ ⟨fun _ => 0, fun _ => 0⟩ hj).mp (h _ _ hj fun _ => hfits)
      rw [hstop] at hright
      exact not_foldsRight_error hright
    cases hty : ty.1.isUnsigned with
    | false =>
      refine iff_of_true (fun j env hj hfits => ?_) (Or.inr ⟨htrap, fun h => absurd (hty.symm.trans h) (by decide)⟩)
      rw [hiff j env hj]
      exact foldsRight_mpy_signed hopr hcty hkty hty hc1 hzero htrap (hfits hty)
    | true =>
      have hall := foldsRight_mpy_unsigned create rty hopr hcty hkty hc1.int64 hzero htrap
      constructor
      · intro h
        refine Or.inr ⟨htrap, fun _ => hall.mp fun j env hj => ?_⟩
        exact (hiff j env hj).mp (h j env hj fun hs => absurd (hty.symm.trans hs) (by decide))
      · rintro h j env hj -
        exact (hiff j env hj).mpr (hall.mpr ((h.resolve_left hzero).2 hty) j env hj)
  | band =>
    have hall := foldsRight_band_forall create rty c1 c2 hopr hcty hkty
    constructor
    · intro h
      rcases eq_or_ne c1 0 with rfl | hne
      · exact Or.inl (excessBits_zero rty c2)
      · refine hall.mp fun j env hj => ?_
        rcases eqNeqTruth_band addresses create opr rty ty cty kty j c1 c2 with hnone | ⟨_, _, _, _, hzero, _⟩
        · exact (hfold .band j env hj hnone).mp (h j env hj trivial)
        · exact absurd hzero hne
    · rintro h j env hj -
      rcases eqNeqTruth_band addresses create opr rty ty cty kty j c1 c2 with hnone | ⟨bty, expr, rfl, rfl, rfl, hpow, hrule⟩
      · exact (hfold .band j env hj hnone).mpr (hall.mpr h j env hj)
      · rw [simpEqNeq_of_truth rfl hrule]
        exact foldsRight_bnot hj hcty hkty hc2 hpow
  | bior =>
    have hiff := fun (j : Simpnode) env (hj : j.Sized ty) => hfold .bior j env hj (eqNeqTruth_eq_none (by decide))
    have hall := foldsRight_bior_forall create rty c1 c2 hopr hcty hkty
    exact ⟨fun h => hall.mp fun j env hj => (hiff j env hj).mp (h j env hj trivial),
      fun h j env hj _ => (hiff j env hj).mpr (hall.mpr h j env hj)⟩

end Fold

/-- `j * 3 == 7` is never true in `I4` without overflow. -/
theorem simpEqNeq_fold_three :
    FoldsRight true
      (simpEqNeq ⟨true, true, true⟩ (fun _ => false) ⟨fun _ => false, fun _ _ => none⟩ (Creates.plain true) .eq .i4 .i4
        (.exp2 .mpy .i4 (.load .i4 .i4 0) (.intconst .i4 3)) (.intconst .i4 7))
      (.relop .eq .i4 .i4 (.exp2 .mpy .i4 (.load .i4 .i4 0) (.intconst .i4 3)) (.intconst .i4 7))
      ⟨fun _ => 2, fun _ => 0⟩ :=
  (simpEqNeq_fold_iff ⟨true, true, true⟩ (fun _ => false) ⟨fun _ => false, fun _ _ => none⟩ (Creates.plain true) .mpy
    rfl rfl rfl ⟨by decide, by decide, by decide⟩ ⟨by decide, by decide, by decide⟩).mpr
    (Or.inr ⟨by decide, by decide⟩) (.load .i4 .i4 0) ⟨fun _ => 2, fun _ => 0⟩ rfl fun _ => by decide

/-- In `U4`, `j * 2 == 4` holds for `j = 2 ^ 31 + 2`, and becomes `j == 2`. -/
theorem simpEqNeq_fold_even :
    simpEqNeq ⟨true, true, true⟩ (fun _ => false) ⟨fun _ => false, fun _ _ => none⟩ (Creates.plain true) .eq .i4 .u4
        (.exp2 .mpy .u4 (.load .u4 .u4 0) (.intconst .u4 2)) (.intconst .u4 4) =
      .ok (some (.relop .eq .i4 .u4 (.load .u4 .u4 0) (.intconst .u4 2))) ∧
    (Simpnode.relop .eq .i4 .u4 (.load .u4 .u4 0) (.intconst .u4 2)).eval true ⟨fun _ => 2 ^ 31 + 2, fun _ => 0⟩ = 0 ∧
    (Simpnode.relop .eq .i4 .u4 (.exp2 .mpy .u4 (.load .u4 .u4 0) (.intconst .u4 2)) (.intconst .u4 4)).eval true
      ⟨fun _ => 2 ^ 31 + 2, fun _ => 0⟩ = 1 :=
  ⟨by rfl, by decide, by decide⟩

end Path64.Simp

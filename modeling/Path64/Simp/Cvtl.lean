import Path64.Simp.Const
import Path64.Targ.Folding

/-!
# The simplification of `CVTL`

`simp_cvtl` of the simplifier (`wn_simp_code.h`).

* `foldCvtl` : the constant that `Targ_WhirlOp` makes; `simpCvtlOp` : the rules for operators over a `CVTL`;
* `simpCvtl` : the function;
* `CvtlRight` : the operands, and the values of the leaves, for which it is right; `simpCvtl_iff` : that this is exact.
-/

namespace Path64.Simp

open Lib

/-! ## Constants -/

/-- The conversion of a constant to `n` bits, which `Targ_WhirlOp` always folds. -/
def foldCvtl (dest : RType) (n : Nat) (rtype : RType) (val : Int) : Int :=
  let c0 := Targ.hostToTarg rtype (BitVec.ofInt 64 val)
  let c1 := Targ.hostToTarg .i8 (BitVec.ofInt 64 n)
  (Targ.targToHost ⟨dest, (Targ.whirlOp (.cvtl dest) c0 c1).vals⟩).toInt

/-! ## The function -/

/-- The operand of a `CVTL` of the same opcode that keeps at least `n` bits. -/
def Simpnode.cvtlKid (dest : RType) (n : Nat) : Simpnode → Option Simpnode
  | .cvtl rtype bits x => if rtype = dest ∧ bits ≥ n then some x else none
  | _ => none

/-- `SIMPNODE_opcode(k) == opc`. -/
def Simpnode.isCvtl (dest : RType) : Simpnode → Bool
  | .cvtl rtype _ _ => rtype = dest
  | _ => false

section

variable {mask : Bool} (create : Creates mask) (isPreg : Simpnode → Bool) (dest : RType) (n : Nat)

/-- The rules for operators. -/
def simpCvtlOp (k0 : Simpnode) : Option Simpnode :=
  match k0 with
  | .exp1 op ty k1 =>
    match k1.cvtlKid dest n with
    | some x => some (create.cvtl dest n (create.exp1 op ty x))
    | none => if op = .lnot then some k0 else none
  | .relop _ _ _ _ _ | .exp2 .lior _ _ _ | .exp2 .land _ _ _ => some k0
  | .exp2 op ty k1 k2 =>
    if op = .add ∨ op = .sub ∨ op = .mpy ∨ op = .bior ∨ op = .bxor ∨ op = .band ∨ op = .shl then
      match k1.cvtlKid dest n, k2.cvtlKid dest n with
      | some x, some y => some (create.cvtl dest n (create.exp2 op ty x y))
      | some x, none => some (create.cvtl dest n (create.exp2 op ty x k2))
      | none, some y => if op ≠ .shl then some (create.cvtl dest n (create.exp2 op ty k1 y)) else none
      | none, none => none
    else none
  | _ => none

/-- A conversion to the size that the operand has, and the rules for operators. -/
def simpCvtlSize (k0 : Simpnode) : Option Simpnode :=
  if k0.rtype.1.bits = dest.1.bits ∧ k0.rtype.1.bits = n then some k0 else simpCvtlOp create dest n k0

/-- `simp_cvtl`. -/
def simpCvtl (k0 : Simpnode) : Option Simpnode :=
  match k0 with
  | .intconst rtype val => some (.intconst dest (foldCvtl dest n rtype val))
  | .select _ c k1 k2 =>
    if k1.intConstVal.isSome ∨ k2.intConstVal.isSome ∨ k1.isCvtl dest ∨ k2.isCvtl dest then
      some (create.select dest c ((simpCvtl k1).getD (create.cvtl dest n k1)) ((simpCvtl k2).getD (create.cvtl dest n k2)))
    else none
  | .cvtl rtype bits x =>
    if rtype = dest then some (if bits ≤ n then k0 else create.cvtl dest n x) else simpCvtlSize create dest n k0
  | .exp2 .band _ x (.intconst _ cval) =>
    -- the host takes the count of a shift modulo 64
    let ones : Int := 2 ^ (n % 64) - 1
    if ones.land cval = ones then some (create.cvtl dest n x) else simpCvtlOp create dest n k0
  | .load rtype desc _ =>
    if ¬isPreg k0 ∧ rtype = dest ∧ desc.bits = n then some k0 else simpCvtlSize create dest n k0
  | _ => simpCvtlSize create dest n k0

end

/-! ## Where it is right -/

section Right

variable (mask : Bool) (env : Env) (dest : RType) (n : Nat)

/-- A value of one bit that stays as it is: extended with its sign it would be negative. -/
def TruthRight (k0 : Simpnode) : Prop := ¬(n = 1 ∧ dest.1.isUnsigned = false ∧ k0.eval mask env ≠ 0)

/-- The operators over a `CVTL`: what `!` and a count of `<<` depend on must be left by the inner conversion. -/
def CvtlOpRight (k0 : Simpnode) : Prop :=
  match k0 with
  | .exp1 .lnot ty k1 =>
    match k1.cvtlKid dest n with
    | some x => ty.1.wrap (k1.eval mask env) = 0 ↔ ty.1.wrap (x.eval mask env) = 0
    | none => TruthRight mask env dest n k0
  | .relop _ _ _ _ _ | .exp2 .lior _ _ _ | .exp2 .land _ _ _ => TruthRight mask env dest n k0
  | .exp2 .shl ty k1 k2 =>
    match k1.cvtlKid dest n, k2.cvtlKid dest n with
    | some x, some y =>
      let count := shiftCount mask ty (k2.eval mask env)
      let count' := shiftCount mask ty (y.eval mask env)
      count = count' ∨ 2 ^ n ∣ x.eval mask env * 2 ^ min count count'
    | _, _ => True
  | _ => True

/-- The operands and values for which the simplifier is right. -/
def CvtlRight : Simpnode → Prop
  | .select _ c k1 k2 =>
    k1.intConstVal.isSome ∨ k2.intConstVal.isSome ∨ k1.isCvtl dest ∨ k2.isCvtl dest →
      if c.eval mask env ≠ 0 then CvtlRight k1 else CvtlRight k2
  | k0@(.exp2 .band _ x (.intconst _ _)) => n = 64 → k0.eval mask env ≡ x.eval mask env [ZMOD 2 ^ 64]
  | k0 => (k0.rtype.1.bits = dest.1.bits ∧ n = dest.1.bits) ∨ CvtlOpRight mask env dest n k0

/-- The operand has the bits that are converted, and so have the parts that the rules take out of it; a load extends as its
type does. -/
def CvtlOperand : Simpnode → Prop
  | .select rtype _ k1 k2 => n ≤ rtype.1.bits ∧ CvtlOperand k1 ∧ CvtlOperand k2
  | .exp2 .band rtype _ (.intconst cty _) => n ≤ rtype.1.bits ∧ n ≤ cty.1.bits
  | .load rtype desc _ => n ≤ rtype.1.bits ∧ rtype.1.isUnsigned = desc.isUnsigned
  | k0 => n ≤ k0.rtype.1.bits

end Right

/-! ## The low bits -/

section Low

variable {mask : Bool} {env : Env} {create : Creates mask} {dest ty rtype : RType} {n m : Nat} {r k0 k1 k2 x y : Simpnode}
  {op : Opr2} {a b : Int}

theorem MType.wrap_modEq_of_le {ty : MType} (hn : n ≤ ty.bits) (a : Int) : ty.wrap a ≡ a [ZMOD 2 ^ n] :=
  (wrap_modEq ty a).of_dvd (pow_dvd_pow 2 hn)

theorem RType.extend_modEq (ty : RType) (n : Nat) (a : Int) : ty.extend n a ≡ a [ZMOD 2 ^ n] := by
  unfold extend
  split_ifs
  · exact Int.mod_modEq a _
  · rw [show ((2 : Int) ^ n) = ((2 ^ n : Nat) : Int) by push_cast; rfl]
    exact Int.bmod_emod

theorem RType.extend_congr (ty : RType) (h : a ≡ b [ZMOD 2 ^ n]) : ty.extend n a = ty.extend n b := by
  unfold extend
  split_ifs
  · exact h
  · have hcast : a % (2 ^ n : Nat) = b % (2 ^ n : Nat) := by push_cast; exact h
    rw [← Int.emod_bmod, hcast, Int.emod_bmod]

theorem eval_cvtl_modEq (hdest : n ≤ dest.1.bits) (hm : n ≤ m) :
    (Simpnode.cvtl dest m x).eval mask env ≡ x.eval mask env [ZMOD 2 ^ n] :=
  (MType.wrap_modEq_of_le hdest _).trans ((dest.extend_modEq m _).of_dvd (pow_dvd_pow 2 hm))

theorem eval_cvtl_iff (hdest : n ≤ dest.1.bits) :
    (Simpnode.cvtl dest n x).eval mask env = (Simpnode.cvtl dest n y).eval mask env ↔
      x.eval mask env ≡ y.eval mask env [ZMOD 2 ^ n] := by
  constructor
  · intro h
    exact (eval_cvtl_modEq hdest le_rfl).symm.trans (h ▸ eval_cvtl_modEq hdest le_rfl)
  · exact fun h => congrArg dest.1.wrap (dest.extend_congr h)

/-- A replacement that reads as the conversion. -/
def Converts (mask : Bool) (env : Env) (dest : RType) (n : Nat) (r k0 : Simpnode) : Prop :=
  dest.1.wrap (r.eval mask env) = (Simpnode.cvtl dest n k0).eval mask env

theorem converts_cvtl (hdest : n ≤ dest.1.bits) : Converts mask env dest n (create.cvtl dest n x) k0 ↔
    x.eval mask env ≡ k0.eval mask env [ZMOD 2 ^ n] := by
  rw [Converts, create.eval_cvtl, ← eval_cvtl_iff hdest]
  exact Eq.congr_left (MType.wrap_wrap dest.1 _)

theorem converts_cvtl_exp2 (hdest : n ≤ dest.1.bits) :
    Converts mask env dest n (create.cvtl dest n (create.exp2 op ty x y)) k0 ↔
      (Simpnode.exp2 op ty x y).eval mask env ≡ k0.eval mask env [ZMOD 2 ^ n] := by
  rw [converts_cvtl hdest, create.eval_exp2]

theorem cvtlKid_modEq (hdest : n ≤ dest.1.bits) (h : k0.cvtlKid dest n = some x) :
    k0.eval mask env ≡ x.eval mask env [ZMOD 2 ^ n] := by
  unfold Simpnode.cvtlKid at h
  split at h
  · split_ifs at h with hcvtl
    cases h
    rw [hcvtl.1]
    exact eval_cvtl_modEq hdest hcvtl.2
  · exact nomatch h

theorem converts_size (hn : n = dest.1.bits) : Converts mask env dest n k0 k0 := by
  subst hn
  exact MType.wrap_congr (dest.extend_modEq _ _).symm

theorem converts_load {desc : MType} {id : Nat} (hsame : dest.1.isUnsigned = desc.isUnsigned) (hdest : n ≤ dest.1.bits)
    (hn : desc.bits = n) : Converts mask env dest n (.load dest desc id) (.load dest desc id) := by
  have hload : desc.wrap (env.load id) = dest.extend n (env.load id) := by rw [RType.extend, MType.wrap, hsame, hn]
  show dest.1.wrap (dest.1.wrap (desc.wrap _)) = dest.1.wrap (dest.extend n (dest.1.wrap (desc.wrap _)))
  rw [MType.wrap_wrap, hload]
  exact congrArg dest.1.wrap (dest.extend_congr ((MType.wrap_modEq_of_le hdest _).trans (dest.extend_modEq n _))).symm

theorem converts_truth (hn : 1 ≤ n) (htruth : ∃ b : Bool, k0.eval mask env = b.toInt) :
    Converts mask env dest n k0 k0 ↔ TruthRight mask env dest n k0 := by
  obtain ⟨b, hb⟩ := htruth
  show dest.1.wrap (k0.eval mask env) = dest.1.wrap (dest.extend n (k0.eval mask env)) ↔
    ¬(n = 1 ∧ _ ∧ k0.eval mask env ≠ 0)
  rw [hb]
  unfold RType.extend
  cases b with
  | false =>
    refine iff_of_true (congrArg dest.1.wrap ?_) (by simp)
    split_ifs
    · exact (Int.zero_emod _).symm
    · exact (Int.zero_bmod).symm
  | true =>
    have hpow : (2 : Int) ≤ 2 ^ n := by simpa using pow_le_pow_right₀ (show (1 : Int) ≤ 2 by norm_num) hn
    cases hty : dest.1.isUnsigned with
    | true =>
      refine iff_of_true (congrArg dest.1.wrap ?_) (by simp)
      exact (Int.emod_eq_of_lt (by decide) (show (1 : Int) < 2 ^ n by omega)).symm
    | false =>
      rcases hn.eq_or_lt with rfl | hlt
      · refine iff_of_false ?_ (by simp)
        rcases RType.cases dest with rfl | rfl | rfl | rfl <;> decide
      · refine iff_of_true (congrArg dest.1.wrap ?_) (by omega)
        have hpow' : (4 : Int) ≤ 2 ^ n := by simpa using pow_le_pow_right₀ (show (1 : Int) ≤ 2 by norm_num) hlt
        exact (Int.bmod_eq_of_le_mul_two (by push_cast; show _ ≤ 1 * 2; omega) (by push_cast; show 1 * 2 < _; omega)).symm

/-! ## Operators -/

theorem eval_exp2_modEq (hn : n ≤ ty.1.bits)
    (hop : op = .add ∨ op = .sub ∨ op = .mpy ∨ op = .bior ∨ op = .bxor ∨ op = .band)
    (hx : k1.eval mask env ≡ x.eval mask env [ZMOD 2 ^ n]) (hy : k2.eval mask env ≡ y.eval mask env [ZMOD 2 ^ n]) :
    (Simpnode.exp2 op ty x y).eval mask env ≡ (Simpnode.exp2 op ty k1 k2).eval mask env [ZMOD 2 ^ n] := by
  have hlow := fun k : Simpnode => MType.wrap_modEq_of_le hn (k.eval mask env)
  have hx' := (hlow x).trans (hx.symm.trans (hlow k1).symm)
  have hy' := (hlow y).trans (hy.symm.trans (hlow k2).symm)
  refine (MType.wrap_modEq_of_le hn _).trans (Int.ModEq.trans ?_ (MType.wrap_modEq_of_le hn _).symm)
  rcases hop with rfl | rfl | rfl | rfl | rfl | rfl
  · exact hx'.add hy'
  · exact hx'.sub hy'
  · exact hx'.mul hy'
  · exact lor_emod_congr hx' hy'
  · exact xor_emod_congr hx' hy'
  · exact land_emod_congr hx' hy'

theorem eval_shl_modEq (hn : n ≤ ty.1.bits) (hx : k1.eval mask env ≡ a [ZMOD 2 ^ n]) :
    (Simpnode.exp2 .shl ty k1 k2).eval mask env ≡ a * 2 ^ shiftCount mask ty (k2.eval mask env) [ZMOD 2 ^ n] :=
  (MType.wrap_modEq_of_le hn _).trans (((MType.wrap_modEq_of_le hn _).trans hx).mul_right _)

theorem eval_neg_bnot_modEq {opr : Opr1} (hn : n ≤ ty.1.bits) (hop : opr ≠ .lnot)
    (hx : k1.eval mask env ≡ x.eval mask env [ZMOD 2 ^ n]) :
    (Simpnode.exp1 opr ty x).eval mask env ≡ (Simpnode.exp1 opr ty k1).eval mask env [ZMOD 2 ^ n] := by
  have hx' := (MType.wrap_modEq_of_le hn (x.eval mask env)).trans
    (hx.symm.trans (MType.wrap_modEq_of_le hn (k1.eval mask env)).symm)
  refine (MType.wrap_modEq_of_le hn _).trans (Int.ModEq.trans ?_ (MType.wrap_modEq_of_le hn _).symm)
  cases opr with
  | neg => exact hx'.neg
  | bnot => exact lnot_emod_congr hx'
  | lnot => exact absurd rfl hop

theorem eval_lnot_eq (mask : Bool) (env : Env) (ty : RType) (k1 : Simpnode) : (Simpnode.exp1 .lnot ty k1).eval mask env =
    (decide (ty.1.wrap (k1.eval mask env) = 0)).toInt := by
  show ty.1.wrap (if _ then 1 else 0) = _
  by_cases h : ty.1.wrap (k1.eval mask env) = 0
  · rw [if_pos h, decide_eq_true h]
    exact ty.wrap_toInt true
  · rw [if_neg h, decide_eq_false h]
    exact ty.wrap_toInt false

theorem exists_truth_logop (hop : op = .land ∨ op = .lior) :
    ∃ b : Bool, (Simpnode.exp2 op ty k1 k2).eval mask env = b.toInt := by
  have hif : ∀ p : Prop, ∀ _ : Decidable p, ∃ b : Bool, ty.1.wrap (if p then 1 else 0) = b.toInt := by
    intro p _
    split_ifs
    · exact ⟨true, ty.wrap_toInt true⟩
    · exact ⟨false, ty.wrap_toInt false⟩
  rcases hop with rfl | rfl
  · exact hif _ _
  · exact hif _ _

theorem toInt_modEq_iff (hn : 1 ≤ n) (b c : Bool) : b.toInt ≡ c.toInt [ZMOD 2 ^ n] ↔ b = c := by
  have hpow : (2 : Int) ≤ 2 ^ n := by simpa using pow_le_pow_right₀ (show (1 : Int) ≤ 2 by norm_num) hn
  have hone : ¬(1 : Int) ≡ 0 [ZMOD 2 ^ n] := by
    intro h
    have := Int.le_of_dvd (by decide) (Int.modEq_zero_iff_dvd.mp h)
    omega
  cases b <;> cases c
  · exact iff_of_true rfl rfl
  · exact iff_of_false (fun h => hone h.symm) (by decide)
  · exact iff_of_false hone (by decide)
  · exact iff_of_true rfl rfl

/-- All replacements read as the conversion. -/
def ConvertsAll (mask : Bool) (env : Env) (dest : RType) (n : Nat) (result : Option Simpnode) (k0 : Simpnode) : Prop :=
  ∀ r ∈ result, Converts mask env dest n r k0

theorem convertsAll_some : ConvertsAll mask env dest n (some r) k0 ↔ Converts mask env dest n r k0 :=
  ⟨fun h => h r rfl, fun h _ hr => by cases hr; exact h⟩

theorem convertsAll_none : ConvertsAll mask env dest n none k0 := fun _ hr => nomatch hr

theorem simpCvtlOp_exp2
    (hop : op = .add ∨ op = .sub ∨ op = .mpy ∨ op = .bior ∨ op = .bxor ∨ op = .band ∨ op = .shl) :
    simpCvtlOp create dest n (.exp2 op ty k1 k2) =
      match k1.cvtlKid dest n, k2.cvtlKid dest n with
      | some x, some y => some (create.cvtl dest n (create.exp2 op ty x y))
      | some x, none => some (create.cvtl dest n (create.exp2 op ty x k2))
      | none, some y => if op ≠ .shl then some (create.cvtl dest n (create.exp2 op ty k1 y)) else none
      | none, none => none := by
  have hlog : op ≠ .lior ∧ op ≠ .land := by
    rcases hop with rfl | rfl | rfl | rfl | rfl | rfl | rfl <;> decide
  unfold simpCvtlOp
  cases op with
  | lior => exact absurd rfl hlog.1
  | land => exact absurd rfl hlog.2
  | _ => exact if_pos hop

theorem simpCvtlOp_iff (hn : 1 ≤ n) (hdest : n ≤ dest.1.bits) (hk0 : n ≤ k0.rtype.1.bits) :
    ConvertsAll mask env dest n (simpCvtlOp create dest n k0) k0 ↔ CvtlOpRight mask env dest n k0 := by
  cases k0 with
  | exp1 op ty k1 =>
    unfold simpCvtlOp
    cases hkid : k1.cvtlKid dest n with
    | some x =>
      have hx : k1.eval mask env ≡ x.eval mask env [ZMOD 2 ^ n] := cvtlKid_modEq hdest hkid
      simp only [hkid, convertsAll_some, converts_cvtl hdest, create.eval_exp1]
      cases op with
      | lnot =>
        rw [eval_lnot_eq, eval_lnot_eq, toInt_modEq_iff hn, decide_eq_decide, CvtlOpRight, hkid]
        exact iff_comm
      | _ => exact iff_of_true (eval_neg_bnot_modEq hk0 (by decide) hx) trivial
    | none =>
      simp only [hkid]
      cases op with
      | lnot =>
        rw [if_pos rfl, convertsAll_some, CvtlOpRight, hkid]
        exact converts_truth hn ⟨_, eval_lnot_eq mask env ty k1⟩
      | _ => exact iff_of_true convertsAll_none trivial
  | relop opr rtype desc k1 k2 =>
    exact convertsAll_some.trans (converts_truth hn ⟨_, eval_relop_eq mask env opr rtype desc k1 k2⟩)
  | exp2 op ty k1 k2 =>
    have hkid : ∀ {k x : Simpnode}, k.cvtlKid dest n = some x → k.eval mask env ≡ x.eval mask env [ZMOD 2 ^ n] :=
      cvtlKid_modEq hdest
    by_cases hlow : op = .add ∨ op = .sub ∨ op = .mpy ∨ op = .bior ∨ op = .bxor ∨ op = .band
    · have hright : CvtlOpRight mask env dest n (.exp2 op ty k1 k2) := by
        rcases hlow with rfl | rfl | rfl | rfl | rfl | rfl <;> trivial
      refine iff_of_true ?_ hright
      rw [simpCvtlOp_exp2 (by tauto)]
      split
      · next hx hy =>
        exact convertsAll_some.mpr ((converts_cvtl_exp2 hdest).mpr (eval_exp2_modEq hk0 hlow (hkid hx) (hkid hy)))
      · next hx hy => exact convertsAll_some.mpr ((converts_cvtl_exp2 hdest).mpr (eval_exp2_modEq hk0 hlow (hkid hx) rfl))
      · next hx hy =>
        split_ifs
        · exact convertsAll_some.mpr ((converts_cvtl_exp2 hdest).mpr (eval_exp2_modEq hk0 hlow rfl (hkid hy)))
        · exact convertsAll_none
      · exact convertsAll_none
    by_cases hshl : op = .shl
    · subst hshl
      have hx : ∀ {x : Simpnode}, k1.cvtlKid dest n = some x → (Simpnode.exp2 .shl ty k1 k2).eval mask env ≡
          x.eval mask env * 2 ^ shiftCount mask ty (k2.eval mask env) [ZMOD 2 ^ n] :=
        fun h => eval_shl_modEq hk0 (hkid h)
      rw [simpCvtlOp_exp2 (by decide), CvtlOpRight]
      cases hkid1 : k1.cvtlKid dest n with
      | none => cases k2.cvtlKid dest n <;> exact iff_of_true convertsAll_none trivial
      | some x =>
        cases k2.cvtlKid dest n with
        | none =>
          refine iff_of_true (convertsAll_some.mpr ((converts_cvtl_exp2 hdest).mpr ?_)) trivial
          exact (eval_shl_modEq hk0 rfl).trans (hx hkid1).symm
        | some y =>
          refine convertsAll_some.trans ((converts_cvtl_exp2 hdest).trans (Iff.trans ?_ (mul_two_pow_emod_eq_iff _ _ _ _)))
          have hy : (Simpnode.exp2 .shl ty x y).eval mask env ≡ _ [ZMOD 2 ^ n] := eval_shl_modEq hk0 rfl
          exact ⟨fun h => (hx hkid1).symm.trans (h.symm.trans hy), fun h => hy.trans (h.symm.trans (hx hkid1).symm)⟩
    by_cases hlog : op = .land ∨ op = .lior
    · have htruth : ∃ b : Bool, (Simpnode.exp2 op ty k1 k2).eval mask env = b.toInt := exists_truth_logop hlog
      rcases hlog with rfl | rfl
      · exact convertsAll_some.trans (converts_truth hn htruth)
      · exact convertsAll_some.trans (converts_truth hn htruth)
    · cases op <;> first | exact iff_of_true convertsAll_none trivial | simp at hlow hshl hlog
  | _ => exact iff_of_true convertsAll_none trivial

/-! ## The function -/

theorem convertsAll_simpCvtlSize (hn : 1 ≤ n) (hdest : n ≤ dest.1.bits) (hk0 : n ≤ k0.rtype.1.bits) :
    ConvertsAll mask env dest n (simpCvtlSize create dest n k0) k0 ↔
      (k0.rtype.1.bits = dest.1.bits ∧ n = dest.1.bits) ∨ CvtlOpRight mask env dest n k0 := by
  unfold simpCvtlSize
  split_ifs with hsize
  · have hfull : n = dest.1.bits := hsize.2.symm.trans hsize.1
    exact iff_of_true (convertsAll_some.mpr (converts_size hfull)) (Or.inl ⟨hsize.1, hfull⟩)
  · rw [simpCvtlOp_iff hn hdest hk0, or_iff_right (by omega)]

theorem value_hostToTarg (ty : RType) (val : Int) : (Targ.hostToTarg ty (BitVec.ofInt 64 val)).value = ty.1.wrap val := by
  have hbits : ty.1.bits ≤ 64 := by rcases ty.bits_eq with h | h <;> omega
  refine MType.wrap_congr ?_
  show ((BitVec.ofInt 64 val).toNat : Int) ≡ val [ZMOD _]
  rw [BitVec.toNat_ofInt, Int.toNat_of_nonneg (Int.emod_nonneg _ (by decide))]
  exact (Int.mod_modEq val _).of_dvd (pow_dvd_pow 2 hbits)

theorem toInt_targToHost (c : Targ.Tcon) : (Targ.targToHost c).toInt ≡ c.value [ZMOD 2 ^ 64] := by
  rw [Targ.targToHost, BitVec.toInt_ofInt]
  exact Int.bmod_emod

/-- The length that is asked for is a number of bits of the type. -/
theorem lengthExact_eq_extend (hdest : n ≤ dest.1.bits) (a : Int) : Targ.lengthExact dest a n = dest.extend n a := by
  rw [Targ.lengthExact, Nat.min_eq_left hdest, RType.extend]

theorem foldCvtl_modEq {val : Int} (hdest : n ≤ dest.1.bits) :
    foldCvtl dest n rtype val ≡ dest.extend n (rtype.1.wrap val) [ZMOD 2 ^ dest.1.bits] := by
  have hbits : dest.1.bits ≤ 64 := by rcases dest.bits_eq with h | h <;> omega
  have hlen : (Targ.hostToTarg .i8 (BitVec.ofInt 64 n)).value = n := by
    rw [value_hostToTarg]
    exact MType.wrap_of_inRange (show -2 ^ 63 ≤ (n : Int) ∧ (n : Int) < 2 ^ 63 by omega)
  have happlies : (Targ.Opcode.cvtl dest).Applies (Targ.hostToTarg rtype (BitVec.ofInt 64 val))
      (Targ.hostToTarg .i8 (BitVec.ofInt 64 n)) := by
    show 0 ≤ Targ.Tcon.value _ ∧ Targ.Tcon.value _ < 2 ^ 63
    rw [hlen]
    omega
  -- what is folded has the value of the low bits
  have hfold := Targ.value_cvtl dest _ _ happlies
  simp only [Targ.Opcode.exact, hlen, value_hostToTarg, Int.toNat_natCast, lengthExact_eq_extend hdest] at hfold
  refine ((toInt_targToHost _).of_dvd (pow_dvd_pow 2 hbits)).trans ?_
  have hvalue (r : Targ.Folded) (hty : r.ty = .int dest) : Targ.Tcon.value ⟨dest, r.vals⟩ = r.value := by
    rw [Targ.Folded.value, hty]
    rfl
  rw [hvalue _ (Targ.ty_whirlOp _ _ _), hfold]
  exact MType.wrap_modEq dest.1 _

theorem converts_intconst {val : Int} (hdest : n ≤ dest.1.bits) : Converts mask env dest n
    (.intconst dest (foldCvtl dest n rtype val)) (.intconst rtype val) := by
  show dest.1.wrap (dest.1.wrap (foldCvtl dest n rtype val)) = dest.1.wrap (dest.extend n (rtype.1.wrap val))
  rw [MType.wrap_wrap]
  exact MType.wrap_congr (foldCvtl_modEq hdest)

theorem converts_select {c : Simpnode} (hrtype : n ≤ rtype.1.bits) :
    Converts mask env dest n (create.select dest c x y) (.select rtype c k1 k2) ↔
      if c.eval mask env ≠ 0 then Converts mask env dest n x k1 else Converts mask env dest n y k2 := by
  have hkid : ∀ k : Simpnode, dest.extend n (rtype.1.wrap (k.eval mask env)) = dest.extend n (k.eval mask env) :=
    fun k => dest.extend_congr (MType.wrap_modEq_of_le hrtype _)
  unfold Converts
  rw [create.eval_select]
  simp only [Simpnode.eval]
  rw [MType.wrap_wrap]
  split_ifs
  · rw [hkid]
  · rw [hkid]

theorem converts_getD {result : Option Simpnode} (hdest : n ≤ dest.1.bits) :
    Converts mask env dest n (result.getD (create.cvtl dest n k1)) k1 ↔ ConvertsAll mask env dest n result k1 := by
  cases result with
  | some r => exact convertsAll_some.symm
  | none => exact iff_of_true ((converts_cvtl hdest).mpr rfl) convertsAll_none

theorem RType.extend_extend (ty : RType) (h : m ≤ n) (a : Int) : ty.extend n (ty.extend m a) = ty.extend m a := by
  have hpos : (0 : Int) < 2 ^ m := by positivity
  have hle : (2 : Int) ^ m ≤ 2 ^ n := pow_le_pow_right₀ (by norm_num) h
  unfold extend
  split_ifs
  · exact Int.emod_eq_of_lt (Int.emod_nonneg a hpos.ne') ((Int.emod_lt_of_pos a hpos).trans_le hle)
  · have hlow := Int.le_bmod (x := a) (m := 2 ^ m) (by positivity)
    have hhigh := Int.bmod_lt (x := a) (m := 2 ^ m) (by positivity)
    push_cast at hlow hhigh
    exact Int.bmod_eq_of_le_mul_two (by push_cast; omega) (by push_cast; omega)

theorem converts_self (hdest : n ≤ dest.1.bits) (h : m ≤ n) :
    Converts mask env dest n (.cvtl dest m x) (.cvtl dest m x) := by
  show dest.1.wrap (dest.1.wrap (dest.extend m _)) = dest.1.wrap (dest.extend n (dest.1.wrap (dest.extend m _)))
  rw [MType.wrap_wrap, dest.extend_congr (MType.wrap_modEq_of_le hdest _), RType.extend_extend dest h]

theorem converts_band {cty : RType} {c : Int} (hn : n < 64) (hty : n ≤ ty.1.bits) (hcty : n ≤ cty.1.bits)
    (hdest : n ≤ dest.1.bits) (hones : Int.land (2 ^ (n % 64) - 1) c = 2 ^ (n % 64) - 1) :
    Converts mask env dest n (create.cvtl dest n x) (.exp2 .band ty x (.intconst cty c)) := by
  rw [converts_cvtl hdest]
  have hconst : ty.1.wrap (cty.1.wrap c) ≡ c [ZMOD 2 ^ n] :=
    (MType.wrap_modEq_of_le hty _).trans (MType.wrap_modEq_of_le hcty c)
  have hx := MType.wrap_modEq_of_le hty (x.eval mask env)
  refine Int.ModEq.trans ?_ ((MType.wrap_modEq_of_le hty _).trans (land_emod_congr hx hconst)).symm
  refine emod_two_pow_eq_iff.mpr fun k hk => ?_
  have hbit := congrArg (Int.testBit · k) hones
  rw [Nat.mod_eq_of_lt hn] at hbit
  simp only [Int.testBit_land, testBit_two_pow_sub_one, decide_eq_true hk, Bool.true_and] at hbit
  rw [Int.testBit_land, hbit, Bool.and_true]

/-- The simplification of a conversion is right just for the operands and values of `CvtlRight`. -/
theorem simpCvtl_iff (create : Creates mask) (isPreg : Simpnode → Bool) (dest : RType) (n : Nat) (hn : 1 ≤ n)
    (hdest : n ≤ dest.1.bits) (k0 : Simpnode) (hk0 : CvtlOperand n k0) (env : Env) :
    (∀ r ∈ simpCvtl create isPreg dest n k0,
        dest.1.wrap (r.eval mask env) = (Simpnode.cvtl dest n k0).eval mask env) ↔
      CvtlRight mask env dest n k0 := by
  show ConvertsAll mask env dest n _ k0 ↔ _
  induction k0 with
  | intconst rtype val =>
    rw [simpCvtl]
    exact iff_of_true (convertsAll_some.mpr (converts_intconst hdest)) (Or.inr trivial)
  | select rtype c k1 k2 ihc ih1 ih2 =>
    rw [simpCvtl, CvtlRight]
    by_cases hrule : k1.intConstVal.isSome ∨ k2.intConstVal.isSome ∨ k1.isCvtl dest ∨ k2.isCvtl dest
    · rw [if_pos hrule, convertsAll_some, converts_select hk0.1, converts_getD hdest, converts_getD hdest, ih1 hk0.2.1,
        ih2 hk0.2.2]
      exact ⟨fun h _ => h, fun h => h hrule⟩
    · rw [if_neg hrule]
      exact iff_of_true convertsAll_none fun h => absurd h hrule
  | cvtl rtype bits x ih =>
    rw [simpCvtl]
    split_ifs with hsame hle
    · subst hsame
      exact iff_of_true (convertsAll_some.mpr (converts_self hdest hle)) (Or.inr trivial)
    · subst hsame
      refine iff_of_true (convertsAll_some.mpr ((converts_cvtl hdest).mpr ?_)) (Or.inr trivial)
      exact (eval_cvtl_modEq hdest (by omega)).symm
    · exact convertsAll_simpCvtlSize hn hdest hk0
  | load rtype desc id =>
    rw [simpCvtl]
    split_ifs with hload
    · obtain ⟨-, rfl, hbits⟩ := hload
      exact iff_of_true (convertsAll_some.mpr (converts_load hk0.2 hdest hbits)) (Or.inr trivial)
    · exact convertsAll_simpCvtlSize hn hdest hk0.1
  | exp2 op ty k1 k2 ih1 ih2 =>
    cases op with
    | band =>
      cases k2 with
      | intconst cty c =>
        rw [simpCvtl, CvtlRight]
        by_cases h64 : n = 64
        · -- the mask is empty
          subst h64
          have hones : Int.land (2 ^ (64 % 64) - 1) c = 2 ^ (64 % 64) - 1 := by
            rw [show (2 : Int) ^ (64 % 64) - 1 = 0 by norm_num]
            exact eq_of_testBit fun k => by rw [Int.testBit_land, zero_testBit, Bool.false_and]
          rw [if_pos hones, convertsAll_some, converts_cvtl hdest]
          exact ⟨fun h _ => h.symm, fun h => (h rfl).symm⟩
        · refine iff_of_true ?_ fun h => absurd h h64
          have hlt : n < 64 := by have := dest.bits_eq; omega
          split_ifs with hones
          · exact convertsAll_some.mpr (converts_band hlt hk0.1 hk0.2 hdest hones)
          · have hrtype : n ≤ (Simpnode.exp2 .band ty k1 (.intconst cty c)).rtype.1.bits := hk0.1
            exact (simpCvtlOp_iff hn hdest hrtype).mpr trivial
      | _ => exact convertsAll_simpCvtlSize hn hdest hk0
    | _ => exact convertsAll_simpCvtlSize hn hdest hk0
  | _ => exact convertsAll_simpCvtlSize hn hdest hk0

end Low

/-- `CVTL 16` of `!CVTL 16 x` becomes that of `!x`: right for 1 … -/
theorem simpCvtl_lnot_one :
    simpCvtl (Creates.plain true) (fun _ => false) .i4 16 (.exp1 .lnot .i4 (.cvtl .i4 16 (.load .i4 .i4 0))) =
      some (.cvtl .i4 16 (.exp1 .lnot .i4 (.load .i4 .i4 0))) ∧
    RType.i4.1.wrap ((Simpnode.cvtl .i4 16 (.exp1 .lnot .i4 (.load .i4 .i4 0))).eval true ⟨fun _ => 1, fun _ => 0⟩) =
      (Simpnode.cvtl .i4 16 (.exp1 .lnot .i4 (.cvtl .i4 16 (.load .i4 .i4 0)))).eval true ⟨fun _ => 1, fun _ => 0⟩ :=
  ⟨rfl, (simpCvtl_iff (Creates.plain true) (fun _ => false) .i4 16 (by decide) (by decide)
    (.exp1 .lnot .i4 (.cvtl .i4 16 (.load .i4 .i4 0))) (show 16 ≤ 32 by decide) ⟨fun _ => 1, fun _ => 0⟩).mpr
    (Or.inr (iff_of_false (show ¬(1 : Int) = 0 by decide) (show ¬(1 : Int) = 0 by decide))) _ rfl⟩

/-- … and wrong for `2 ^ 16`, where the inner conversion leaves 0. -/
theorem simpCvtl_lnot_two_pow :
    simpCvtl (Creates.plain true) (fun _ => false) .i4 16 (.exp1 .lnot .i4 (.cvtl .i4 16 (.load .i4 .i4 0))) =
      some (.cvtl .i4 16 (.exp1 .lnot .i4 (.load .i4 .i4 0))) ∧
    (Simpnode.cvtl .i4 16 (.exp1 .lnot .i4 (.load .i4 .i4 0))).eval true ⟨fun _ => 2 ^ 16, fun _ => 0⟩ = 0 ∧
    (Simpnode.cvtl .i4 16 (.exp1 .lnot .i4 (.cvtl .i4 16 (.load .i4 .i4 0)))).eval true
      ⟨fun _ => 2 ^ 16, fun _ => 0⟩ = 1 :=
  ⟨by rfl, by decide, by decide⟩

end Path64.Simp

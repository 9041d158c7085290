import Path64.Simp.Const

/-!
# Signs under negation and division

`simp_neg` and `simp_div` of the simplifier (`wn_simp_code.h`), for integral types.

* `Signnode` : negations, differences, products and quotients over other nodes; `eval` : the value, which is none where
  a division by zero or a quotient that does not fit traps, and, when it is `strict`, where a signed operation overflows;
* `simpNeg`, `simpDiv` : the functions, with the functions that create nodes and compare trees as a parameter `Builds`;
* `SignOk` : the values of the operands for which the signs may be moved; `simplify_iff` : that this is exact.
-/

namespace Path64.Simp

inductive Signop where
  | sub | mpy | div
  deriving DecidableEq, Repr

/-- `simpnode`. A `leaf` is any other expression. -/
inductive Signnode where
  | leaf (rtype : RType) (id : Nat)
  | intconst (rtype : RType) (val : Int)
  | neg (rtype : RType) (kid0 : Signnode)
  | exp2 (opr : Signop) (rtype : RType) (kid0 kid1 : Signnode)
  deriving DecidableEq, Repr

/-- `MTYPE_complement`. -/
def RType.complement (ty : RType) : RType :=
  if ty = .i4 then .u4 else if ty = .u4 then .i4 else if ty = .i8 then .u8 else .i8

/-- The value of an operation, which wraps around; when it is `strict`, a signed one must fit. -/
def RType.finish (strict : Bool) (ty : RType) (x : Int) : Option Int :=
  if strict = true ∧ ty.1.isUnsigned = false ∧ ¬ty.1.InRange x then none else some (ty.1.wrap x)

/-- The quotient, which must fit on any machine. -/
def RType.quotient (ty : RType) (a b : Int) : Option Int :=
  if b = 0 then none else ty.finish true (a.tdiv b)

def Signop.apply (strict : Bool) (ty : RType) : Signop → Int → Int → Option Int
  | sub, a, b => ty.finish strict (a - b)
  | mpy, a, b => ty.finish strict (a * b)
  | div, a, b => ty.quotient a b

namespace Signnode

/-- `SIMPNODE_rtype`. -/
def rtype : Signnode → RType
  | leaf rtype _ | intconst rtype _ | neg rtype _ | exp2 _ rtype _ _ => rtype

/-- The type in which a constant is negated. -/
def signedType (node : Signnode) : RType := if node.rtype.1.isUnsigned then node.rtype.complement else node.rtype

/-- `SIMP_Is_Constant`. -/
def isConstant : Signnode → Bool
  | intconst _ _ => true
  | _ => false

/-- The value of a node whose leaves are given; operands are read in the type of the operation. -/
def eval (strict : Bool) (env : Nat → Int) : Signnode → Option Int
  | leaf rtype id => some (rtype.1.wrap (env id))
  | intconst rtype val => some (rtype.1.wrap val)
  | neg rtype kid0 => do
    let a ← kid0.eval strict env
    rtype.finish strict (-rtype.1.wrap a)
  | exp2 opr rtype kid0 kid1 => do
    let a ← kid0.eval strict env
    let b ← kid1.eval strict env
    opr.apply strict rtype (rtype.1.wrap a) (rtype.1.wrap b)

/-- Every operand has the size of its operation. -/
def SameSize : Signnode → Prop
  | leaf _ _ => True
  | intconst _ _ => True
  | neg rtype kid0 => kid0.rtype.1.bits = rtype.1.bits ∧ kid0.SameSize
  | exp2 _ rtype kid0 kid1 =>
    kid0.rtype.1.bits = rtype.1.bits ∧ kid1.rtype.1.bits = rtype.1.bits ∧ kid0.SameSize ∧ kid1.SameSize

end Signnode

/-- The functions that create nodes (`SIMPNODE_SimpCreateExp1`, `SIMPNODE_SimpCreateExp2`) and compare trees, and what
the simplifier relies on: the node has the value of the one that is asked for, and trees that compare equal have one
value. -/
structure Builds where
  neg : RType → Signnode → Signnode
  exp2 : Signop → RType → Signnode → Signnode → Signnode
  compareTrees : Signnode → Signnode → Int
  eval_neg : ∀ env ty kid0, (neg ty kid0).eval false env = (Signnode.neg ty kid0).eval false env
  eval_exp2 : ∀ env opr ty kid0 kid1, (exp2 opr ty kid0 kid1).eval false env =
    (Signnode.exp2 opr ty kid0 kid1).eval false env
  eval_compare : ∀ env kid0 kid1, compareTrees kid0 kid1 = 0 → kid0.eval true env = kid1.eval true env

/-! ## The functions -/

variable (build : Builds)

/-- `simp_neg`. -/
def simpNeg (opc : RType) (k0 : Signnode) : Option Signnode :=
  match k0 with
  | .neg ty kid0 => if opc = ty then some kid0 else none
  | .exp2 opr ty kid0 kid1 =>
    if opr = .sub then some (build.exp2 opr ty kid1 kid0)
    else if (opr = .mpy ∨ opr = .div) ∧ kid1.isConstant ∧ ¬ty.1.isUnsigned then
      some (build.exp2 opr ty kid0 (build.neg kid1.signedType kid1))
    else if opr = .div ∧ kid0.isConstant ∧ ¬ty.1.isUnsigned then
      some (build.exp2 opr ty (build.neg kid0.rtype kid0) kid1)
    else none
  | _ => none

/-- The divisors 1 and -1. -/
def simpDivConst (ty : RType) (k0 k1 : Signnode) : Option Signnode :=
  match k1 with
  | .intconst _ c1 =>
    if c1 = 1 then some k0
    else if c1 = -1 ∧ ¬ty.1.isUnsigned then some (build.neg ty k0)
    else none
  | _ => none

/-- `simp_div`. -/
def simpDiv (cfoldAggressive : Bool) (ty : RType) (k0 k1 : Signnode) : Option Signnode :=
  match k0, k1 with
  | .neg _ kid0, .neg _ kid1 => some (build.exp2 .div ty kid0 kid1)
  | _, _ =>
    match simpDivConst build ty k0 k1 with
    | some r => some r
    | none => if cfoldAggressive ∧ build.compareTrees k0 k1 = 0 then some (.intconst ty 1) else none

/-- The simplification of a negation or a division. -/
def simplify (cfoldAggressive : Bool) (node : Signnode) : Option Signnode :=
  match node with
  | .neg opc k0 => simpNeg build opc k0
  | .exp2 .div ty k0 k1 => simpDiv build cfoldAggressive ty k0 k1
  | _ => none

/-! ## When signs may be moved -/

/-- The least value of a signed type. -/
def RType.least (ty : RType) : Int := -2 ^ (ty.1.bits - 1)

/-- The operand, read in a type. -/
def Reads (env : Nat → Int) (ty : RType) (kid : Signnode) (p : Int → Prop) : Prop :=
  ∃ a, kid.eval true env = some a ∧ p (ty.1.wrap a)

/-- The negation of a quotient with a constant divisor, or else with a constant dividend. -/
def NegOk (env : Nat → Int) (k0 : Signnode) : Prop :=
  match k0 with
  | .exp2 .div ty kid0 kid1 =>
    ty.1.isUnsigned = false →
      if kid1.isConstant then
        ¬(Reads env ty kid0 (· = ty.least) ∧ Reads env ty kid1 fun c => c = ty.least ∨ c = 1)
      else kid0.isConstant = true → ¬(Reads env ty kid0 (· = ty.least) ∧ Reads env ty kid1 (· ≠ 1))
  | _ => True

/-- The quotient of two negations. -/
def DivOk (env : Nat → Int) (ty : RType) (k0 k1 : Signnode) : Prop :=
  match k0, k1 with
  | .neg _ kid0, .neg _ kid1 =>
    if ty.1.isUnsigned then ∃ x y, Reads env ty kid0 (· = x) ∧ Reads env ty kid1 (· = y) ∧ (x = 0 ∨ x = y)
    else Reads env ty kid0 (· = ty.least) → Reads env ty kid1 (· = ty.least)
  | _, _ => True

/-- The signs may be moved. -/
def SignOk (env : Nat → Int) : Signnode → Prop
  | .neg _ k0 => NegOk env k0
  | .exp2 .div ty k0 k1 => DivOk env ty k0 k1
  | _ => True

/-! ## Values -/

section
variable {ty kty : RType} {a b c x y v : Int}

theorem wrap_wrap_of_bits (h : kty.1.bits = ty.1.bits) (x : Int) : ty.1.wrap (kty.1.wrap x) = ty.1.wrap x :=
  MType.wrap_congr (h ▸ MType.wrap_emod _ _)

theorem finish_false (ty : RType) (x : Int) : ty.finish false x = some (ty.1.wrap x) := if_neg fun h => nomatch h.1

theorem finish_true_eq : ty.finish true x = some v ↔ (ty.1.isUnsigned = false → ty.1.InRange x) ∧ v = ty.1.wrap x := by
  unfold RType.finish
  split_ifs with h
  · exact iff_of_false (fun h0 => nomatch h0) fun h0 => h.2.2 (h0.1 h.2.1)
  · rw [Option.some_inj, eq_comm]
    refine (and_iff_right fun hty => ?_).symm
    by_contra hx
    exact h ⟨rfl, hty, hx⟩

theorem quotient_eq : ty.quotient a b = some v ↔
    b ≠ 0 ∧ (ty.1.isUnsigned = false → ty.1.InRange (a.tdiv b)) ∧ v = ty.1.wrap (a.tdiv b) := by
  unfold RType.quotient
  split_ifs with h
  · exact iff_of_false (fun h0 => nomatch h0) fun h0 => h0.1 h
  · rw [finish_true_eq]
    exact (and_iff_right h).symm

theorem Signnode.eval_strict {env : Nat → Int} (node : Signnode) (h : node.eval true env = some v) :
    node.eval false env = some v := by
  have hfinish : ∀ (ty : RType) x v, ty.finish true x = some v → ty.finish false x = some v := by
    intro ty x v h
    rw [(finish_true_eq.mp h).2, finish_false]
  induction node generalizing v with
  | leaf rtype id => exact h
  | intconst rtype val => exact h
  | neg rtype kid0 ih =>
    obtain ⟨a, ha, h⟩ := Option.bind_eq_some_iff.mp h
    exact Option.bind_eq_some_iff.mpr ⟨a, ih ha, hfinish _ _ _ h⟩
  | exp2 opr rtype kid0 kid1 ih0 ih1 =>
    obtain ⟨a, ha, h⟩ := Option.bind_eq_some_iff.mp h
    obtain ⟨b, hb, h⟩ := Option.bind_eq_some_iff.mp h
    refine Option.bind_eq_some_iff.mpr ⟨a, ih0 ha, Option.bind_eq_some_iff.mpr ⟨b, ih1 hb, ?_⟩⟩
    cases opr with
    | sub => exact hfinish _ _ _ h
    | mpy => exact hfinish _ _ _ h
    | div => exact h

/-! ## Quotients of signed values -/

theorem signed_range (hty : ty.1.isUnsigned = false) : ty.least < -2 ∧
    (∀ x, ty.1.InRange x ↔ ty.least ≤ x ∧ x < -ty.least) ∧ ty.1.wrap (-ty.least) = ty.least := by
  rcases RType.cases ty with rfl | rfl | rfl | rfl
  · exact ⟨by decide, fun x => Iff.rfl, by decide⟩
  · exact ⟨by decide, fun x => Iff.rfl, by decide⟩
  · exact absurd hty (by decide)
  · exact absurd hty (by decide)

theorem wrap_neg_signed (hty : ty.1.isUnsigned = false) (hx : ty.1.InRange x) :
    ty.1.wrap (-x) = if x = ty.least then ty.least else -x := by
  obtain ⟨hneg, hrange, hleast⟩ := signed_range hty
  split_ifs with h
  · rw [h, hleast]
  · rw [hrange] at hx
    exact MType.wrap_of_inRange ((hrange _).mpr (by omega))

theorem tdiv_eq_least (hty : ty.1.isUnsigned = false) (ha : ty.1.InRange a) (hb : b ≠ 0) (hq : ty.1.InRange (a.tdiv b)) :
    a.tdiv b = ty.least ↔ a = ty.least ∧ b = 1 := by
  obtain ⟨hneg, hrange, -⟩ := signed_range hty
  rw [hrange] at ha hq
  constructor
  · intro h
    rcases tdiv_cases a hb with ⟨rfl, heq⟩ | ⟨rfl, heq⟩ | hhalf
    · exact ⟨by omega, rfl⟩
    · omega
    · omega
  · rintro ⟨rfl, rfl⟩
    exact Int.tdiv_one _

theorem tdiv_least (hty : ty.1.isUnsigned = false) (ha : ty.1.InRange a) :
    a.tdiv ty.least = if a = ty.least then 1 else 0 := by
  obtain ⟨hneg, hrange, -⟩ := signed_range hty
  rw [hrange] at ha
  split_ifs with h
  · rw [h, Int.tdiv_self (by omega)]
  · rcases lt_or_ge a 0 with ha0 | ha0
    · rw [← neg_neg a, Int.neg_tdiv, ← neg_neg ty.least, Int.tdiv_neg, neg_neg]
      exact Int.tdiv_eq_zero_of_lt (by omega) (by omega)
    · rw [← neg_neg ty.least, Int.tdiv_neg, Int.tdiv_eq_zero_of_lt ha0 (by omega), neg_zero]

theorem wrap_eq_wrap_neg (hty : ty.1.isUnsigned = false) (ha : ty.1.InRange a) :
    ty.1.wrap a = ty.1.wrap (-a) ↔ a = 0 ∨ a = ty.least := by
  obtain ⟨hneg, hrange, -⟩ := signed_range hty
  rw [wrap_neg_signed hty ha, MType.wrap_of_inRange ha]
  split_ifs with h
  · exact iff_of_true h (Or.inr h)
  · omega

theorem inRange_neg_iff (hty : ty.1.isUnsigned = false) (ha : ty.1.InRange a) : ty.1.InRange (-a) ↔ a ≠ ty.least := by
  obtain ⟨hneg, hrange, -⟩ := signed_range hty
  rw [hrange] at ha ⊢
  omega

/-- The quotient by a negated divisor. -/
theorem quotient_neg_divisor (hty : ty.1.isUnsigned = false) (ha : ty.1.InRange a) (hc : ty.1.InRange c) (hne : c ≠ 0)
    (hq : ty.1.InRange (a.tdiv c)) :
    (∃ w, ty.quotient a (ty.1.wrap (-c)) = some w ∧ ty.1.wrap w = ty.1.wrap (-a.tdiv c)) ↔
      ¬(a = ty.least ∧ (c = ty.least ∨ c = 1)) := by
  obtain ⟨hneg, hrange, -⟩ := signed_range hty
  have hleast := tdiv_eq_least hty ha hne hq
  simp only [quotient_eq, wrap_neg_signed hty hc]
  by_cases hcl : c = ty.least
  · -- the divisor is its own negation
    rw [if_pos hcl, ← hcl]
    have hself := wrap_eq_wrap_neg hty hq
    have hq' := tdiv_least hty ha
    rw [← hcl] at hq' hself hneg
    constructor
    · rintro ⟨w, ⟨-, -, rfl⟩, hw⟩ ⟨hal, -⟩
      rw [MType.wrap_wrap] at hw
      have hzero := hself.mp hw
      rw [hq', if_pos hal] at hzero
      omega
    · intro hnot
      have hal : a ≠ c := fun h => hnot ⟨h, Or.inl rfl⟩
      refine ⟨_, ⟨hne, fun _ => hq, rfl⟩, ?_⟩
      rw [MType.wrap_wrap]
      refine hself.mpr (Or.inl ?_)
      rw [hq', if_neg hal]
  · rw [if_neg hcl, Int.tdiv_neg]
    have hfit := inRange_neg_iff hty hq
    rw [ne_eq, hleast] at hfit
    constructor
    · rintro ⟨w, ⟨-, hin, -⟩, -⟩ ⟨hal, hor⟩
      exact hfit.mp (hin hty) ⟨hal, hor.resolve_left hcl⟩
    · intro hnot
      refine ⟨_, ⟨by omega, fun _ => hfit.mpr fun h => hnot ⟨h.1, Or.inr h.2⟩, rfl⟩, ?_⟩
      rw [MType.wrap_wrap]

/-- The quotient of a negated dividend. -/
theorem quotient_neg_dividend (hty : ty.1.isUnsigned = false) (hc : ty.1.InRange c) (hx : ty.1.InRange x) (hne : x ≠ 0)
    (hq : ty.1.InRange (c.tdiv x)) :
    (∃ w, ty.quotient (ty.1.wrap (-c)) x = some w ∧ ty.1.wrap w = ty.1.wrap (-c.tdiv x)) ↔
      ¬(c = ty.least ∧ x ≠ 1) := by
  obtain ⟨hneg, hrange, -⟩ := signed_range hty
  have hleast := tdiv_eq_least hty hc hne hq
  simp only [quotient_eq, wrap_neg_signed hty hc]
  by_cases hcl : c = ty.least
  · -- the dividend is its own negation, and its quotient is not 0
    rw [if_pos hcl, ← hcl]
    have hself := wrap_eq_wrap_neg hty hq
    have hnonzero : c.tdiv x ≠ 0 := by
      intro h0
      have habs := Int.natAbs_tdiv c x
      rw [h0] at habs
      rw [hrange] at hx
      rcases Nat.div_eq_zero_iff.mp habs.symm with h | h
      · omega
      · omega
    constructor
    · rintro ⟨w, ⟨-, -, rfl⟩, hw⟩ ⟨-, hx1⟩
      rw [MType.wrap_wrap] at hw
      exact hx1 (hleast.mp ((hself.mp hw).resolve_left hnonzero)).2
    · intro hnot
      have hx1 : x = 1 := by
        by_contra h
        exact hnot ⟨rfl, h⟩
      refine ⟨_, ⟨hne, fun _ => hq, rfl⟩, ?_⟩
      rw [MType.wrap_wrap]
      exact hself.mpr (Or.inr (hleast.mpr ⟨hcl, hx1⟩))
  · rw [if_neg hcl, Int.neg_tdiv]
    refine iff_of_true ⟨_, ⟨hne, fun _ => (inRange_neg_iff hty hq).mpr fun h => hcl (hleast.mp h).1, rfl⟩, ?_⟩
      fun h => hcl h.1
    rw [MType.wrap_wrap]

/-- The quotient of two negations of a signed type. -/
theorem quotient_neg_neg_signed (hty : ty.1.isUnsigned = false) (hx : ty.1.InRange x) (hy : ty.1.InRange y) (hne : y ≠ 0)
    (hq : ty.1.InRange ((ty.1.wrap (-x)).tdiv (ty.1.wrap (-y)))) :
    (∃ w, ty.quotient x y = some w ∧ ty.1.wrap w = ty.1.wrap ((ty.1.wrap (-x)).tdiv (ty.1.wrap (-y)))) ↔
      (x = ty.least → y = ty.least) := by
  obtain ⟨hneg, hrange, -⟩ := signed_range hty
  simp only [quotient_eq]
  rw [wrap_neg_signed hty hx, wrap_neg_signed hty hy] at hq ⊢
  by_cases hyl : y = ty.least
  · -- a quotient by the least value is 0, but for that value itself
    rw [if_pos hyl] at hq ⊢
    rw [← hyl] at hq ⊢
    have hquot : x.tdiv y = (if x = y then y else -x).tdiv y := by
      split_ifs with h
      · rw [h]
      · have hnx : ty.1.InRange (-x) := by
          rw [inRange_neg_iff hty hx, ← hyl]
          exact h
        rw [hyl, tdiv_least hty hx, tdiv_least hty hnx, if_neg (by omega), if_neg]
        rw [hrange] at hx
        omega
    refine iff_of_true ⟨_, ⟨hne, fun _ => ?_, rfl⟩, ?_⟩ fun _ => rfl
    · rw [hquot]
      exact hq
    · rw [MType.wrap_wrap, hquot]
  · rw [if_neg hyl] at hq ⊢
    by_cases hxl : x = ty.least
    · rw [if_pos hxl] at hq ⊢
      refine iff_of_false ?_ fun h => hyl (h hxl)
      rintro ⟨w, ⟨-, hin, rfl⟩, hw⟩
      have hfit := hin hty
      rw [← hxl] at hw hq
      rw [Int.tdiv_neg] at hw hq
      rw [MType.wrap_wrap, MType.wrap_of_inRange hfit, MType.wrap_of_inRange hq] at hw
      have hnonzero : x.tdiv y ≠ 0 := by
        intro h0
        have habs := Int.natAbs_tdiv x y
        rw [h0] at habs
        rw [hrange] at hy
        rcases Nat.div_eq_zero_iff.mp habs.symm with h | h
        · omega
        · omega
      omega
    · rw [if_neg hxl, Int.neg_tdiv, Int.tdiv_neg, neg_neg] at hq ⊢
      refine iff_of_true ⟨_, ⟨hne, fun _ => hq, rfl⟩, ?_⟩ fun h => absurd h hxl
      rw [MType.wrap_wrap]

theorem wrap_neg_unsigned (hty : ty.1.isUnsigned = true) (hx : ty.1.InRange x) :
    ty.1.wrap (-x) = if x = 0 then 0 else 2 ^ ty.1.bits - x := by
  unfold MType.InRange at hx
  rw [if_pos hty] at hx
  split_ifs with h
  · rw [h, neg_zero, MType.wrap_zero]
  · unfold MType.wrap
    rw [if_pos hty, ← Int.add_emod_right, neg_add_eq_sub]
    exact Int.emod_eq_of_lt (by omega) (by omega)

theorem inRange_tdiv (hty : ty.1.isUnsigned = true) (hx : ty.1.InRange x) (hy : ty.1.InRange y) :
    ty.1.InRange (x.tdiv y) := by
  unfold MType.InRange at hx hy ⊢
  rw [if_pos hty] at hx hy ⊢
  exact ⟨Int.tdiv_nonneg hx.1 hy.1, lt_of_le_of_lt (Int.tdiv_le_self y hx.1) hx.2⟩

/-- The quotient of two negations of an unsigned type. -/
theorem quotient_neg_neg_unsigned (hty : ty.1.isUnsigned = true) (hx : ty.1.InRange x) (hy : ty.1.InRange y)
    (hne : y ≠ 0) :
    (∃ w, ty.quotient x y = some w ∧ ty.1.wrap w = ty.1.wrap ((ty.1.wrap (-x)).tdiv (ty.1.wrap (-y)))) ↔
      x = 0 ∨ x = y := by
  have hbounds : (0 ≤ x ∧ x < 2 ^ ty.1.bits) ∧ 0 ≤ y ∧ y < 2 ^ ty.1.bits := by
    unfold MType.InRange at hx hy
    rw [if_pos hty] at hx hy
    exact ⟨hx, hy⟩
  have hquot : ∀ w, ty.quotient x y = some w ↔ w = x.tdiv y := by
    intro w
    rw [quotient_eq, MType.wrap_of_inRange (inRange_tdiv hty hx hy)]
    refine ⟨fun h => h.2.2, fun h => ⟨hne, fun h0 => ?_, h⟩⟩
    rw [hty] at h0
    cases h0
  simp only [hquot, exists_eq_left]
  rw [MType.wrap_of_inRange (inRange_tdiv hty hx hy),
    MType.wrap_of_inRange (inRange_tdiv hty (MType.inRange_wrap _ _) (MType.inRange_wrap _ _)),
    wrap_neg_unsigned hty hx, wrap_neg_unsigned hty hy, if_neg hne]
  by_cases hx0 : x = 0
  · rw [if_pos hx0, hx0, Int.zero_tdiv, Int.zero_tdiv]
    exact iff_of_true rfl (Or.inl rfl)
  rw [if_neg hx0]
  rcases lt_trichotomy x y with hlt | heq | hgt
  · -- the quotient is 0, and that of the negations is not
    refine iff_of_false ?_ (by omega)
    rw [Int.tdiv_eq_zero_of_lt hbounds.1.1 hlt]
    intro h
    have hle : 1 ≤ (2 ^ ty.1.bits - x) / (2 ^ ty.1.bits - y) := by
      rw [Int.le_ediv_iff_mul_le (by omega)]
      omega
    rw [← Int.tdiv_eq_ediv_of_nonneg (by omega), ← h] at hle
    omega
  · rw [heq, Int.tdiv_self hne, Int.tdiv_self (by omega)]
    exact iff_of_true rfl (Or.inr rfl)
  · -- the quotient of the negations is 0
    refine iff_of_false ?_ (by omega)
    rw [Int.tdiv_eq_zero_of_lt (show 0 ≤ 2 ^ ty.1.bits - x by omega) (by omega)]
    intro h
    have hle : 1 ≤ x / y := by
      rw [Int.le_ediv_iff_mul_le (by omega)]
      omega
    rw [← Int.tdiv_eq_ediv_of_nonneg hbounds.1.1, h] at hle
    omega

end

/-! ## The replacements -/

/-- The replacement has the value of the node, read in its type. -/
def Right (env : Nat → Int) (ty : RType) (v : Int) (r : Signnode) : Prop :=
  ∃ w, r.eval false env = some w ∧ ty.1.wrap w = v

section
variable {build} {env : Nat → Int} {opc ty kty : RType} {a b c v : Int} {k0 kid0 kid1 r : Signnode}

theorem eval_build_neg (build : Builds) (h : kid0.eval false env = some c) (hbits : kty.1.bits = ty.1.bits) :
    ∃ d, (build.neg kty kid0).eval false env = some d ∧ ty.1.wrap d = ty.1.wrap (-ty.1.wrap c) := by
  refine ⟨kty.1.wrap (-kty.1.wrap c), ?_, ?_⟩
  · rw [build.eval_neg, Signnode.eval, h]
    exact finish_false kty _
  · rw [wrap_wrap_of_bits hbits]
    refine MType.wrap_congr ((Int.ModEq.neg ?_).trans (MType.wrap_modEq ty.1 c).symm.neg)
    rw [← hbits]
    exact MType.wrap_modEq kty.1 c

theorem eval_build_exp2 (opr : Signop) (h0 : kid0.eval false env = some a) (h1 : kid1.eval false env = some b) :
    (build.exp2 opr ty kid0 kid1).eval false env = opr.apply false ty (ty.1.wrap a) (ty.1.wrap b) := by
  rw [build.eval_exp2, Signnode.eval, h0]
  show (kid1.eval false env).bind _ = _
  rw [h1]
  rfl

theorem eval_neg_eq (h : (Signnode.neg opc k0).eval true env = some v) :
    ∃ a, k0.eval true env = some a ∧ v = opc.1.wrap (-opc.1.wrap a) := by
  obtain ⟨a, ha, hv⟩ := Option.bind_eq_some_iff.mp h
  exact ⟨a, ha, (finish_true_eq.mp hv).2⟩

theorem eval_exp2_eq {opr : Signop} (h : (Signnode.exp2 opr ty kid0 kid1).eval true env = some v) :
    ∃ a b, kid0.eval true env = some a ∧ kid1.eval true env = some b ∧
      opr.apply true ty (ty.1.wrap a) (ty.1.wrap b) = some v := by
  obtain ⟨a, ha, h⟩ := Option.bind_eq_some_iff.mp h
  obtain ⟨b, hb, h⟩ := Option.bind_eq_some_iff.mp h
  exact ⟨a, b, ha, hb, h⟩

theorem reads_iff {p : Int → Prop} (h : k0.eval true env = some a) : Reads env ty k0 p ↔ p (ty.1.wrap a) := by
  constructor
  · rintro ⟨a', ha', hp⟩
    cases h.symm.trans ha'
    exact hp
  · exact fun hp => ⟨a, h, hp⟩

theorem wrap_neg_wrap (ty : RType) (x : Int) : ty.1.wrap (-ty.1.wrap x) = ty.1.wrap (-x) :=
  MType.wrap_congr (MType.wrap_modEq ty.1 x).neg

theorem wrap_iff_of_bits {x y : Int} (h : ty.1.bits = opc.1.bits) : opc.1.wrap x = opc.1.wrap y ↔ ty.1.wrap x = ty.1.wrap y := by
  rw [MType.wrap_eq_iff, MType.wrap_eq_iff, h]

theorem right_iff_of_value {q : Int} (hbits : ty.1.bits = opc.1.bits) (hv : v = opc.1.wrap (-opc.1.wrap q)) :
    Right env opc v r ↔ ∃ w, r.eval false env = some w ∧ ty.1.wrap w = ty.1.wrap (-q) := by
  unfold Right
  rw [hv, wrap_neg_wrap]
  simp only [wrap_iff_of_bits hbits]

theorem right_neg_sub (hbits : ty.1.bits = opc.1.bits)
    (hv : (Signnode.neg opc (.exp2 .sub ty kid0 kid1)).eval true env = some v) :
    Right env opc v (build.exp2 .sub ty kid1 kid0) := by
  obtain ⟨q, hq, hv⟩ := eval_neg_eq hv
  obtain ⟨a, b, ha, hb, hsub⟩ := eval_exp2_eq hq
  rw [right_iff_of_value hbits hv, eval_build_exp2 .sub (kid1.eval_strict hb) (kid0.eval_strict ha)]
  refine ⟨_, finish_false ty _, ?_⟩
  rw [(finish_true_eq.mp hsub).2, MType.wrap_wrap, wrap_neg_wrap, neg_sub]

theorem right_neg_mpy (hbits : ty.1.bits = opc.1.bits) (hkty : kty.1.bits = ty.1.bits)
    (hv : (Signnode.neg opc (.exp2 .mpy ty kid0 kid1)).eval true env = some v) :
    Right env opc v (build.exp2 .mpy ty kid0 (build.neg kty kid1)) := by
  obtain ⟨q, hq, hv⟩ := eval_neg_eq hv
  obtain ⟨a, b, ha, hb, hmpy⟩ := eval_exp2_eq hq
  obtain ⟨d, hd, hwrap⟩ := eval_build_neg build (kid1.eval_strict hb) hkty
  rw [right_iff_of_value hbits hv, eval_build_exp2 .mpy (kid0.eval_strict ha) hd]
  refine ⟨_, finish_false ty _, ?_⟩
  rw [(finish_true_eq.mp hmpy).2, MType.wrap_wrap, wrap_neg_wrap, hwrap, ← mul_neg]
  exact MType.wrap_congr ((MType.wrap_modEq ty.1 _).mul_left _)

theorem eval_div_eq {q : Int} (hty : ty.1.isUnsigned = false) (h : (Signnode.exp2 .div ty kid0 kid1).eval true env = some q) :
    ∃ a b, kid0.eval true env = some a ∧ kid1.eval true env = some b ∧ ty.1.wrap b ≠ 0 ∧
      ty.1.InRange ((ty.1.wrap a).tdiv (ty.1.wrap b)) ∧ q = (ty.1.wrap a).tdiv (ty.1.wrap b) := by
  obtain ⟨a, b, ha, hb, hdiv⟩ := eval_exp2_eq h
  obtain ⟨hne, hfit, hq⟩ := quotient_eq.mp hdiv
  rw [MType.wrap_of_inRange (hfit hty)] at hq
  exact ⟨a, b, ha, hb, hne, hfit hty, hq⟩

theorem right_neg_divisor_iff (hty : ty.1.isUnsigned = false) (hbits : ty.1.bits = opc.1.bits) (hkty : kty.1.bits = ty.1.bits)
    (hv : (Signnode.neg opc (.exp2 .div ty kid0 kid1)).eval true env = some v) :
    Right env opc v (build.exp2 .div ty kid0 (build.neg kty kid1)) ↔
      ¬(Reads env ty kid0 (· = ty.least) ∧ Reads env ty kid1 fun c => c = ty.least ∨ c = 1) := by
  obtain ⟨q, hq, hv⟩ := eval_neg_eq hv
  obtain ⟨a, b, ha, hb, hne, hfit, rfl⟩ := eval_div_eq hty hq
  obtain ⟨d, hd, hwrap⟩ := eval_build_neg build (kid1.eval_strict hb) hkty
  rw [right_iff_of_value hbits hv, eval_build_exp2 .div (kid0.eval_strict ha) hd, hwrap, reads_iff ha, reads_iff hb]
  exact quotient_neg_divisor hty (MType.inRange_wrap _ _) (MType.inRange_wrap _ _) hne hfit

theorem right_neg_dividend_iff (hty : ty.1.isUnsigned = false) (hbits : ty.1.bits = opc.1.bits)
    (hkty : kty.1.bits = ty.1.bits) (hv : (Signnode.neg opc (.exp2 .div ty kid0 kid1)).eval true env = some v) :
    Right env opc v (build.exp2 .div ty (build.neg kty kid0) kid1) ↔
      ¬(Reads env ty kid0 (· = ty.least) ∧ Reads env ty kid1 (· ≠ 1)) := by
  obtain ⟨q, hq, hv⟩ := eval_neg_eq hv
  obtain ⟨a, b, ha, hb, hne, hfit, rfl⟩ := eval_div_eq hty hq
  obtain ⟨d, hd, hwrap⟩ := eval_build_neg build (kid0.eval_strict ha) hkty
  rw [right_iff_of_value hbits hv, eval_build_exp2 .div hd (kid1.eval_strict hb), hwrap, reads_iff ha, reads_iff hb]
  exact quotient_neg_dividend hty (MType.inRange_wrap _ _) (MType.inRange_wrap _ _) hne hfit

theorem bits_signedType (node : Signnode) : node.signedType.1.bits = node.rtype.1.bits := by
  unfold Signnode.signedType
  rcases RType.cases node.rtype with h | h | h | h <;> rw [h] <;> decide

/-- A replacement of a negation has its value just where the signs may be moved. -/
theorem simpNeg_iff (hr : simpNeg build opc k0 = some r) (hsize : (Signnode.neg opc k0).SameSize)
    (hv : (Signnode.neg opc k0).eval true env = some v) : Right env opc v r ↔ NegOk env k0 := by
  obtain ⟨hbits, hsize⟩ := hsize
  unfold simpNeg at hr
  cases k0 with
  | leaf rtype id => cases hr
  | intconst rtype val => cases hr
  | neg ty kid0 =>
    dsimp only at hr
    split_ifs at hr with hopc
    cases hr
    subst hopc
    obtain ⟨q, hq, hv⟩ := eval_neg_eq hv
    obtain ⟨a, ha, rfl⟩ := eval_neg_eq hq
    refine iff_of_true ⟨a, r.eval_strict ha, ?_⟩ trivial
    rw [hv, MType.wrap_wrap, wrap_neg_wrap, neg_neg, MType.wrap_wrap]
  | exp2 opr ty kid0 kid1 =>
    obtain ⟨hkid0, hkid1, -, -⟩ := hsize
    have hkty := (bits_signedType kid1).trans hkid1
    dsimp only at hr
    by_cases hsub : opr = .sub
    · subst hsub
      cases hr
      exact iff_of_true (right_neg_sub hbits hv) trivial
    rw [if_neg hsub] at hr
    by_cases hconst : (opr = .mpy ∨ opr = .div) ∧ kid1.isConstant = true ∧ ¬ty.1.isUnsigned = true
    · rw [if_pos hconst] at hr
      cases hr
      rcases hconst with ⟨rfl | rfl, hkid, hsigned⟩
      · exact iff_of_true (right_neg_mpy hbits hkty hv) trivial
      · have hty : ty.1.isUnsigned = false := by simpa using hsigned
        unfold NegOk
        simp only [hty, true_imp_iff, if_pos hkid]
        exact right_neg_divisor_iff hty hbits hkty hv
    · rw [if_neg hconst] at hr
      split_ifs at hr with hdiv
      cases hr
      obtain ⟨rfl, hkid, hsigned⟩ := hdiv
      have hty : ty.1.isUnsigned = false := by simpa using hsigned
      have hnot : ¬kid1.isConstant = true := fun h => hconst ⟨Or.inr rfl, h, hsigned⟩
      unfold NegOk
      simp only [hty, true_imp_iff, if_neg hnot, hkid]
      exact right_neg_dividend_iff hty hbits hkid0 hv

/-! ## Divisions -/

theorem eval_neg_read {ty0 : RType} (hbits : ty0.1.bits = ty.1.bits) (h : (Signnode.neg ty0 kid0).eval true env = some c) :
    ∃ a, kid0.eval true env = some a ∧ ty.1.wrap c = ty.1.wrap (-ty.1.wrap a) := by
  obtain ⟨a, ha, rfl⟩ := eval_neg_eq h
  refine ⟨a, ha, ?_⟩
  rw [wrap_neg_wrap, wrap_neg_wrap, wrap_wrap_of_bits hbits]

/-- The quotient of two negations. -/
theorem right_neg_neg_iff {ty0 ty1 : RType} (h0 : ty0.1.bits = ty.1.bits) (h1 : ty1.1.bits = ty.1.bits)
    (hv : (Signnode.exp2 .div ty (.neg ty0 kid0) (.neg ty1 kid1)).eval true env = some v) :
    Right env ty v (build.exp2 .div ty kid0 kid1) ↔ DivOk env ty (.neg ty0 kid0) (.neg ty1 kid1) := by
  obtain ⟨c, d, hc, hd, hdiv⟩ := eval_exp2_eq hv
  obtain ⟨a, ha, hca⟩ := eval_neg_read h0 hc
  obtain ⟨b, hb, hdb⟩ := eval_neg_read h1 hd
  obtain ⟨hne, hfit, hq⟩ := quotient_eq.mp hdiv
  rw [hca, hdb] at hfit hq
  rw [hdb] at hne
  have hy : ty.1.wrap b ≠ 0 := by
    intro h
    rw [h, neg_zero, MType.wrap_zero] at hne
    exact hne rfl
  have hx := MType.inRange_wrap ty.1 a
  have hy' := MType.inRange_wrap ty.1 b
  unfold Right DivOk
  rw [eval_build_exp2 .div (kid0.eval_strict ha) (kid1.eval_strict hb), hq]
  dsimp only [Signop.apply]
  cases hty : ty.1.isUnsigned with
  | false =>
    rw [if_neg Bool.false_ne_true, quotient_neg_neg_signed hty hx hy' hy (hfit hty), reads_iff ha, reads_iff hb]
  | true =>
    rw [if_pos rfl, quotient_neg_neg_unsigned hty hx hy' hy]
    constructor
    · exact fun h => ⟨_, _, (reads_iff ha).mpr rfl, (reads_iff hb).mpr rfl, h⟩
    · rintro ⟨x, y, hreadx, hready, h⟩
      rw [(reads_iff ha).mp hreadx, (reads_iff hb).mp hready]
      exact h

theorem simpDivConst_right {k1 : Signnode} (hr : simpDivConst build ty k0 k1 = some r)
    (hsize : (Signnode.exp2 .div ty k0 k1).SameSize) (hv : (Signnode.exp2 .div ty k0 k1).eval true env = some v) :
    Right env ty v r := by
  obtain ⟨hbits0, hbits1, -, -⟩ := hsize
  obtain ⟨a, b, ha, hb, hdiv⟩ := eval_exp2_eq hv
  obtain ⟨-, -, hq⟩ := quotient_eq.mp hdiv
  unfold simpDivConst at hr
  cases k1 with
  | intconst kty c1 =>
    cases hb
    rw [wrap_wrap_of_bits (show kty.1.bits = ty.1.bits from hbits1)] at hq
    dsimp only at hr
    split_ifs at hr with hone hminus
    · cases hr
      refine ⟨a, k0.eval_strict ha, ?_⟩
      have hwrap : ty.1.wrap 1 = 1 := ty.wrap_toInt true
      rw [hq, hone, hwrap, Int.tdiv_one, MType.wrap_wrap]
    · cases hr
      obtain ⟨d, hd, hneg⟩ := eval_build_neg build (k0.eval_strict ha) (rfl : ty.1.bits = ty.1.bits)
      refine ⟨d, hd, ?_⟩
      have hty : ty.1.isUnsigned = false := by simpa using hminus.2
      obtain ⟨hleast, hrange, -⟩ := signed_range hty
      have hwrap : ty.1.wrap (-1) = -1 := MType.wrap_of_inRange ((hrange (-1)).mpr (by omega))
      rw [hq, hminus.1, hwrap, Int.tdiv_neg, Int.tdiv_one, hneg]
  | leaf rtype id => cases hr
  | neg rtype kid0 => cases hr
  | exp2 opr rtype kid0 kid1 => cases hr

theorem right_self {k1 : Signnode} (hsame : build.compareTrees k0 k1 = 0)
    (hv : (Signnode.exp2 .div ty k0 k1).eval true env = some v) : Right env ty v (.intconst ty 1) := by
  obtain ⟨a, b, ha, hb, hdiv⟩ := eval_exp2_eq hv
  obtain ⟨hne, -, hq⟩ := quotient_eq.mp hdiv
  have hab : a = b := Option.some_inj.mp (ha.symm.trans ((build.eval_compare env k0 k1 hsame).trans hb))
  rw [hab, Int.tdiv_self hne] at hq
  exact ⟨_, rfl, by rw [MType.wrap_wrap, hq]⟩

theorem simpDiv_iff {cfoldAggressive : Bool} {k1 : Signnode} (hr : simpDiv build cfoldAggressive ty k0 k1 = some r)
    (hsize : (Signnode.exp2 .div ty k0 k1).SameSize) (hv : (Signnode.exp2 .div ty k0 k1).eval true env = some v) :
    Right env ty v r ↔ DivOk env ty k0 k1 := by
  by_cases hneg : ∃ ty0 kid0 ty1 kid1, k0 = .neg ty0 kid0 ∧ k1 = .neg ty1 kid1
  · obtain ⟨ty0, kid0, ty1, kid1, rfl, rfl⟩ := hneg
    cases hr
    exact right_neg_neg_iff hsize.1 hsize.2.1 hv
  · have hdiv : simpDiv build cfoldAggressive ty k0 k1 =
        match simpDivConst build ty k0 k1 with
        | some r => some r
        | none => if cfoldAggressive ∧ build.compareTrees k0 k1 = 0 then some (.intconst ty 1) else none := by
      cases k0 <;> cases k1 <;> first | rfl | exact absurd ⟨_, _, _, _, rfl, rfl⟩ hneg
    have hok : DivOk env ty k0 k1 := by
      cases k0 <;> cases k1 <;> first | trivial | exact absurd ⟨_, _, _, _, rfl, rfl⟩ hneg
    rw [hdiv] at hr
    refine iff_of_true ?_ hok
    cases hconst : simpDivConst build ty k0 k1 with
    | some r' =>
      rw [hconst] at hr
      cases hr
      exact simpDivConst_right hconst hsize hv
    | none =>
      rw [hconst] at hr
      dsimp only at hr
      split_ifs at hr with hsame
      cases hr
      exact right_self hsame.2 hv

end

/-- Whatever the simplifier returns for a negation or a division has its value, where that neither divides by zero nor
overflows, just where the signs may be moved. -/
theorem simplify_iff {cfoldAggressive : Bool} {env : Nat → Int} {node r : Signnode} {v : Int}
    (hr : simplify build cfoldAggressive node = some r) (hsize : node.SameSize) (hv : node.eval true env = some v) :
    Right env node.rtype v r ↔ SignOk env node := by
  cases node with
  | leaf rtype id => cases hr
  | intconst rtype val => cases hr
  | neg opc k0 => exact simpNeg_iff hr hsize hv
  | exp2 opr ty k0 k1 =>
    cases opr with
    | sub => cases hr
    | mpy => cases hr
    | div => exact simpDiv_iff hr hsize hv

/-- Nothing is simplified on the way, and only the same trees compare equal. -/
def Builds.plain : Builds where
  neg := .neg
  exp2 := .exp2
  compareTrees kid0 kid1 := if kid0 = kid1 then 0 else 1
  eval_neg _ _ _ := rfl
  eval_exp2 _ _ _ _ _ := rfl
  eval_compare _ _ _ h := by
    split_ifs at h with heq
    · rw [heq]
    · cases h

/-- `-(x / 3)` with `x = -7` becomes `x / -3`. -/
theorem simplify_three : Right (fun _ => -7) .i4 2 (.exp2 .div .i4 (.leaf .i4 0) (.neg .i4 (.intconst .i4 3))) :=
  (@simplify_iff Builds.plain true (fun _ => -7) (.neg .i4 (.exp2 .div .i4 (.leaf .i4 0) (.intconst .i4 3))) _ 2
    rfl ⟨rfl, rfl, rfl, trivial, trivial⟩ (by decide)).mpr fun _ h => absurd h.1 fun ⟨a, ha, hl⟩ => by
      cases ha
      revert hl
      decide

/-- `-(x / c)` with `x = c = -2147483648` is -1 and becomes `x / c`, which is 1; `(-1) / (-2)` in U4 becomes `1 / 2`. -/
theorem simplify_least :
    (∃ r, simplify Builds.plain true (.neg .i4 (.exp2 .div .i4 (.leaf .i4 0) (.intconst .i4 (-2 ^ 31)))) = some r ∧
      (Signnode.neg .i4 (.exp2 .div .i4 (.leaf .i4 0) (.intconst .i4 (-2 ^ 31)))).eval true (fun _ => -2 ^ 31) = some (-1) ∧
      r.eval false (fun _ => -2 ^ 31) = some 1) ∧
    ∃ r, simplify Builds.plain true (.exp2 .div .u4 (.neg .u4 (.leaf .u4 1)) (.neg .u4 (.leaf .u4 2))) = some r ∧
      (Signnode.exp2 .div .u4 (.neg .u4 (.leaf .u4 1)) (.neg .u4 (.leaf .u4 2))).eval true (fun id => id) = some 1 ∧
      r.eval false (fun id => id) = some 0 :=
  ⟨⟨_, rfl, by decide, by decide⟩, ⟨_, rfl, by decide, by decide⟩⟩

end Path64.Simp

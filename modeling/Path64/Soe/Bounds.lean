import Path64.Soe.Project

/-!
# Bounds from single inequalities

`SVPC` of `be/lno/soe.cxx`, with the functions it calls: the inequalities on a single unknown become bounds. Where a constant
is too large the test goes on as if nothing was known; the model logs this, and the exact values of the operations of the
fast tests that nothing checks.

* `setBound`, `oneVarConsistent`, `svpc` : the test;
* `upperFrom_eq`, `lowerFrom_eq` : the divisions are rounded to the right side;
* `Bounds.Within`, `Bounds.Ordered`, `Bounded` : the points within the bounds, and what the loop over the rows keeps;
* `svpc_sound` : an answer `consistent` comes with an integer solution.
-/

namespace Path64.Soe

open Lib Logged

/-- What the tests log: a bail-out, a 32-bit product, a 64-bit constant. -/
inductive Event where
  | bail
  | product (x : Int)
  | const (x : Int)
  deriving DecidableEq

inductive SvpcResult where
  | consistent | inconsistent | inapplicable
  deriving DecidableEq

/-- The work arrays with `_lower_bound`, `_upper_bound` (the least and the greatest 32-bit value are infinite) and `_is_svpc`. -/
structure Bounds where
  w : Work
  lower : Nat → Int
  upper : Nat → Int
  isSvpc : Nat → Bool

/-! ## `SVPC` -/

/-- The upper bound from `a * x <= const` with `a` positive. -/
def upperFrom (const a : Int) : Int :=
  wrap32 (if const ≥ 0 ∨ const.tmod a = 0 then const.tdiv a else -(-const).tdiv a - 1)

/-- The lower bound from `a * x <= const` with `a` negative. -/
def lowerFrom (const a : Int) : Int :=
  wrap32 (if const ≥ 0 ∨ const.tmod a = 0 then -const.tdiv (wrap32 (-a)) else (-const).tdiv (wrap32 (-a)) + 1)

/-- `SVPC_Set_Bound`. -/
def Bounds.setBound (s : Bounds) (i var : Nat) : Bounds :=
  let a : Int := s.w.work i var
  let const := s.w.workConst i
  if a > 0 then
    if upperFrom const a < s.upper var then { s with upper := Function.update s.upper var (upperFrom const a) } else s
  else if a < 0 then
    if lowerFrom const a > s.lower var then { s with lower := Function.update s.lower var (lowerFrom const a) } else s
  else if const < 0 then
    { s with lower := Function.update s.lower var 1, upper := Function.update s.upper var 0 }
  else s

theorem setBound_w (s : Bounds) (i var : Nat) : (s.setBound i var).w = s.w := by
  rw [Bounds.setBound]
  split_ifs <;> rfl

/-- The loop of `One_Var_Consistent` over the given rows. -/
def oneVarRows (var : Nat) : List Nat → Bounds → Logged Event (Bounds × Bool)
  | [], s => pure (s, true)
  | i :: rest, s =>
    if s.w.workConst i ≥ int32Max - 1 ∨ s.w.workConst i ≤ int32Min + 1 then do
      report .bail
      pure (s, true)
    else
      let s := s.setBound i var
      if s.lower var > s.upper var then pure (s, false) else oneVarRows var rest s

/-- `One_Var_Consistent`; `allow` is `Allow_wrap_around_opt`. -/
def oneVarConsistent (allow : Bool) (s : Bounds) (var first last : Nat) : Logged Event (Bounds × Bool) :=
  if !allow then do
    report .bail
    pure (s, true)
  else oneVarRows var (List.range' first (last + 1 - first)) s

/-- The unknowns of row `r`. -/
def Work.vars (w : Work) (r : Nat) : List Nat := (List.range w.workCols).filter fun j => (w.work r j : Int) != 0

/-- The loop of `SVPC` over `k` rows from `i` on. -/
def svpcRows (allow : Bool) : Nat → Nat → Bool → Bounds → Logged Event (SvpcResult × Bounds)
  | 0, _, applicable, s => pure (if !applicable then .inapplicable else .consistent, s)
  | k + 1, i, applicable, s =>
    let applicableI : Bool := decide ((s.w.vars i).length ≤ 1)
    let mark (s : Bounds) : Bounds := { s with isSvpc := Function.update s.isSvpc i applicableI }
    if (s.w.vars i).length = 0 then
      if s.w.workConst i < 0 then pure (.inconsistent, s)
      else svpcRows allow k (i + 1) (applicable && applicableI) (mark s)
    else if applicableI then do
      let res ← oneVarConsistent allow s ((s.w.vars i).getLastD 0) i i
      if !res.2 then pure (.inconsistent, res.1)
      else svpcRows allow k (i + 1) (applicable && applicableI) (mark res.1)
    else svpcRows allow k (i + 1) (applicable && applicableI) (mark s)

/-- `SVPC`; `isSvpc` is what `_is_svpc` held before. -/
def svpc (allow : Bool) (w : Work) (isSvpc : Nat → Bool) : Logged Event (SvpcResult × Bounds) :=
  svpcRows allow w.workRows 0 true ⟨w, fun _ => int32Min, fun _ => int32Max, isSvpc⟩

/-! ## One inequality on one unknown -/

/-- The constants `One_Var_Consistent` does not refuse. -/
def SmallConst (const : Int) : Prop := int32Min + 1 < const ∧ const < int32Max - 1

/-- The rounding of `SVPC_Set_Bound` is a division rounded down. -/
theorem floor_eq {const b : Int} (hb : 0 < b) :
    (if const ≥ 0 ∨ b ∣ const then const.tdiv b else -(-const).tdiv b - 1) = const / b := by
  split_ifs with h
  · rcases h with hpos | hdvd
    · exact Int.tdiv_eq_ediv_of_nonneg hpos
    · exact Int.tdiv_eq_ediv_of_dvd hdvd
  · rw [not_or] at h
    have hneg := @Int.neg_ediv const b
    rw [if_neg h.2, Int.sign_eq_one_of_pos hb] at hneg
    rw [Int.tdiv_eq_ediv_of_nonneg (by omega), hneg]
    ring

theorem floor_small {const b : Int} (hb : 0 < b) (hc : SmallConst const) :
    int32Min + 1 < const / b ∧ const / b < int32Max - 1 := by
  obtain ⟨h1, h2⟩ := hc
  have hmul := Int.emod_add_mul_ediv const b
  have hnonneg := Int.emod_nonneg const hb.ne'
  have hlt := Int.emod_lt_of_pos const hb
  unfold int32Min int32Max at *
  constructor
  · by_contra hle
    nlinarith
  · by_contra hle
    nlinarith

theorem upperFrom_eq {const a : Int} (ha : 0 < a) (hc : SmallConst const) : upperFrom const a = const / a := by
  obtain ⟨h1, h2⟩ := floor_small ha hc
  have hfloor := @floor_eq const a ha
  rw [upperFrom]
  simp only [← Int.dvd_iff_tmod_eq_zero]
  rw [hfloor]
  refine wrap32_eq_iff.2 ?_
  rw [int32Min] at h1
  rw [int32Max] at h2
  constructor <;> omega

theorem lowerFrom_eq {const a : Int} (ha : a < 0) (ha32 : InInt32 a) (hc : SmallConst const) :
    lowerFrom const a = -(const / -a) := by
  obtain ⟨h1, h2⟩ := floor_small (neg_pos.2 ha) hc
  have hwrapped : wrap32 (-(const / -a)) = -(const / -a) := by
    refine wrap32_eq_iff.2 ?_
    rw [int32Min] at h1
    rw [int32Max] at h2
    constructor <;> omega
  rw [lowerFrom]
  by_cases hmin : a = -2 ^ 31
  · -- the negation wraps, and the quotient is `0` all the same
    obtain ⟨hc1, hc2⟩ := hc
    rw [int32Min] at hc1
    rw [int32Max] at hc2
    have hw : wrap32 (-a) = -2 ^ 31 := by
      rw [hmin]
      decide
    rw [hw]
    by_cases hpos : const ≥ 0
    · rw [if_pos (Or.inl hpos)]
      have hzero : const.tdiv (-2 ^ 31) = 0 := by
        rw [Int.tdiv_neg, Int.tdiv_eq_zero_of_lt hpos (by omega), neg_zero]
      rw [hzero, hmin, Int.ediv_eq_zero_of_lt hpos (by omega)]
      decide
    · have hnot : ¬ (const ≥ 0 ∨ const.tmod a = 0) := by
        rintro (hc | hc)
        · exact hpos hc
        · obtain ⟨k, hk⟩ := Int.dvd_of_tmod_eq_zero hc
          rw [hmin] at hk
          omega
      rw [if_neg hnot]
      have hzero : (-const).tdiv (-2 ^ 31) = 0 := by
        rw [Int.tdiv_neg, Int.tdiv_eq_zero_of_lt (by omega) (by omega), neg_zero]
      have hdiv : const / -a = -1 := by
        rw [hmin, neg_neg]
        omega
      rw [hzero, hdiv]
      decide
  · have hw : wrap32 (-a) = -a := wrap32_eq_iff.2 ⟨by omega, by have := ha32.1; omega⟩
    rw [hw]
    have hfloor := @floor_eq const (-a) (neg_pos.2 ha)
    have hcases : (if const ≥ 0 ∨ const.tmod a = 0 then -const.tdiv (-a) else (-const).tdiv (-a) + 1) =
        -(if const ≥ 0 ∨ -a ∣ const then const.tdiv (-a) else -(-const).tdiv (-a) - 1) := by
      simp only [← Int.dvd_iff_tmod_eq_zero, neg_dvd]
      split_ifs
      · rfl
      · ring
    rw [hcases, hfloor]
    exact hwrapped

theorem le_upperFrom_iff {const a : Int} (ha : 0 < a) (hc : SmallConst const) (x : Int) :
    x ≤ upperFrom const a ↔ a * x ≤ const := by
  rw [upperFrom_eq ha hc, Int.le_ediv_iff_mul_le ha, mul_comm]

theorem lowerFrom_le_iff {const a : Int} (ha : a < 0) (ha32 : InInt32 a) (hc : SmallConst const) (x : Int) :
    lowerFrom const a ≤ x ↔ a * x ≤ const := by
  rw [lowerFrom_eq ha ha32 hc, neg_le, Int.le_ediv_iff_mul_le (neg_pos.2 ha), neg_mul_neg, mul_comm]

/-! ## Points within the bounds -/

/-- `x` is within the finite bounds. -/
def Bounds.Within (s : Bounds) (x : Nat → Int) : Prop :=
  ∀ j, (s.lower j ≠ int32Min → s.lower j ≤ x j) ∧ (s.upper j ≠ int32Max → x j ≤ s.upper j)

/-- The bounds are in order, and infinite only on their own side. -/
structure Bounds.Ordered (s : Bounds) : Prop where
  le : ∀ j, s.lower j ≤ s.upper j
  lower : ∀ j, int32Min ≤ s.lower j ∧ s.lower j < int32Max
  upper : ∀ j, int32Min < s.upper j ∧ s.upper j ≤ int32Max

/-- The same inequalities with bounds that are no wider. -/
structure Bounds.Tightens (s s' : Bounds) : Prop where
  w : s'.w = s.w
  isSvpc : s'.isSvpc = s.isSvpc
  lower : ∀ j, s.lower j ≤ s'.lower j
  upper : ∀ j, s'.upper j ≤ s.upper j

theorem exists_within {s : Bounds} (h : s.Ordered) : ∃ x, s.Within x := by
  refine ⟨fun j => if s.lower j ≠ int32Min then s.lower j else if s.upper j ≠ int32Max then s.upper j else 0, fun j => ?_⟩
  dsimp only
  have hle := h.le j
  split_ifs with hl hu
  · exact ⟨fun _ => le_rfl, fun _ => hle⟩
  · exact ⟨fun hne => absurd hne hl, fun _ => le_rfl⟩
  · exact ⟨fun hne => absurd hne hl, fun hne => absurd hne hu⟩

theorem Bounds.Within.mono {s s' : Bounds} (hs : s.Ordered) (hlower : ∀ j, s.lower j ≤ s'.lower j)
    (hupper : ∀ j, s'.upper j ≤ s.upper j) {x : Nat → Int} (hx : s'.Within x) : s.Within x := by
  intro j
  have hl := hlower j
  have hu := hupper j
  have hmin := (hs.lower j).1
  have hmax := (hs.upper j).2
  refine ⟨fun hne => hl.trans ((hx j).1 ?_), fun hne => ((hx j).2 ?_).trans hu⟩ <;> omega

theorem tightens_refl (s : Bounds) : s.Tightens s := ⟨rfl, rfl, fun _ => le_rfl, fun _ => le_rfl⟩

theorem mem_vars {w : Work} {r j : Nat} : j ∈ w.vars r ↔ j < w.workCols ∧ (w.work r j : Int) ≠ 0 := by
  rw [Work.vars, List.mem_filter, List.mem_range, bne_iff_ne]

theorem dot_of_vars {w : Work} {r v : Nat} (h : w.vars r = [v]) (x : Nat → Int) :
    dot w.workCols (fun j => w.work r j) x = w.work r v * x v := by
  have hv : v ∈ w.vars r := by
    rw [h]
    exact List.mem_singleton_self v
  refine Finset.sum_eq_single v (fun j hj hne => ?_) fun hnot => absurd (Finset.mem_range.2 (mem_vars.1 hv).1) hnot
  have hzero : (w.work r j : Int) = 0 := by
    by_contra hne'
    have hmem : j ∈ w.vars r := mem_vars.2 ⟨Finset.mem_range.1 hj, hne'⟩
    rw [h] at hmem
    exact hne (List.mem_singleton.1 hmem)
  show ((w.work r j : Int) : Int) * x j = 0
  rw [hzero, zero_mul]

theorem dot_of_vars_nil {w : Work} {r : Nat} (h : w.vars r = []) (x : Nat → Int) :
    dot w.workCols (fun j => w.work r j) x = 0 := by
  refine dot_eq_zero fun j hj => ?_
  by_contra hne
  have hmem : j ∈ w.vars r := mem_vars.2 ⟨hj, hne⟩
  rw [h] at hmem
  exact absurd hmem List.not_mem_nil

/-- What one inequality on one unknown does to the bounds. -/
structure BoundSet (s : Bounds) (i var : Nat) (res : Bounds × Bool) : Prop where
  tightens : s.Tightens res.1
  other : ∀ j, j ≠ var → res.1.lower j = s.lower j ∧ res.1.upper j = s.upper j
  ordered : res.2 = true → res.1.Ordered
  holds : res.2 = true → ∀ x, res.1.Within x → dot s.w.workCols (fun j => s.w.work i j) x ≤ s.w.workConst i

theorem setBound_boundSet {s : Bounds} (hs : s.Ordered) {i var : Nat} (hvars : s.w.vars i = [var])
    (hc : SmallConst (s.w.workConst i)) :
    BoundSet s i var (s.setBound i var, decide (¬ (s.setBound i var).lower var > (s.setBound i var).upper var)) := by
  have hmem : var ∈ s.w.vars i := by
    rw [hvars]
    exact List.mem_singleton_self var
  have hne := (mem_vars.1 hmem).2
  have hdot := dot_of_vars hvars
  -- once the bounds of the unknown are in order all are
  have hordered : ∀ s' : Bounds, s.Tightens s' → (∀ j, j ≠ var → s'.lower j = s.lower j ∧ s'.upper j = s.upper j) →
      s'.lower var < int32Max → int32Min < s'.upper var → s'.lower var ≤ s'.upper var → s'.Ordered := by
    intro s' ht hother hl hu hle
    refine ⟨fun j => ?_, fun j => ?_, fun j => ?_⟩ <;> by_cases hj : j = var
    · rw [hj]
      exact hle
    · rw [(hother j hj).1, (hother j hj).2]
      exact hs.le j
    · rw [hj]
      exact ⟨(hs.lower var).1.trans (ht.lower var), hl⟩
    · rw [(hother j hj).1]
      exact hs.lower j
    · rw [hj]
      exact ⟨hu, (ht.upper var).trans (hs.upper var).2⟩
    · rw [(hother j hj).2]
      exact hs.upper j
  rw [Bounds.setBound]
  rcases lt_or_gt_of_ne hne with hneg | hpos
  · rw [if_neg (not_lt.2 hneg.le), if_pos hneg]
    have hval := lowerFrom_eq hneg (s.w.work i var).2 hc
    obtain ⟨hf1, hf2⟩ := floor_small (neg_pos.2 hneg) hc
    rw [int32Min] at hf1
    rw [int32Max] at hf2
    split_ifs with hlt
    · have htight : s.Tightens { s with lower := Function.update s.lower var (lowerFrom (s.w.workConst i) (s.w.work i var)) } := by
        refine ⟨rfl, rfl, fun j => ?_, fun j => le_rfl⟩
        by_cases hj : j = var
        · rw [hj]
          show s.lower var ≤ Function.update s.lower var _ var
          rw [Function.update_self]
          exact hlt.le
        · exact (Function.update_of_ne hj _ _).ge
      have hother : ∀ j, j ≠ var →
          Function.update s.lower var (lowerFrom (s.w.workConst i) (s.w.work i var)) j = s.lower j ∧ s.upper j = s.upper j :=
        fun j hj => ⟨Function.update_of_ne hj _ _, rfl⟩
      refine ⟨htight, hother, fun hok => hordered _ htight hother ?_ (hs.upper var).1 (not_lt.1 (of_decide_eq_true hok)),
        fun _ x hx => ?_⟩
      · dsimp only
        rw [Function.update_self, hval, int32Max]
        omega
      · have hlow := (hx var).1
        dsimp only at hlow
        rw [Function.update_self] at hlow
        rw [hdot, ← lowerFrom_le_iff hneg (s.w.work i var).2 hc]
        refine hlow ?_
        rw [hval, int32Min]
        omega
    · refine ⟨tightens_refl s, fun j _ => ⟨rfl, rfl⟩, fun _ => hs, fun _ x hx => ?_⟩
      rw [hdot, ← lowerFrom_le_iff hneg (s.w.work i var).2 hc]
      have hle := not_lt.1 hlt
      refine hle.trans ((hx var).1 fun hmin => ?_)
      rw [hval, hmin, int32Min] at hle
      omega
  · rw [if_pos hpos]
    have hval := upperFrom_eq hpos hc
    obtain ⟨hf1, hf2⟩ := floor_small hpos hc
    rw [int32Min] at hf1
    rw [int32Max] at hf2
    split_ifs with hlt
    · have htight : s.Tightens { s with upper := Function.update s.upper var (upperFrom (s.w.workConst i) (s.w.work i var)) } := by
        refine ⟨rfl, rfl, fun j => le_rfl, fun j => ?_⟩
        by_cases hj : j = var
        · rw [hj]
          show Function.update s.upper var _ var ≤ s.upper var
          rw [Function.update_self]
          exact hlt.le
        · exact (Function.update_of_ne hj _ _).le
      have hother : ∀ j, j ≠ var →
          s.lower j = s.lower j ∧ Function.update s.upper var (upperFrom (s.w.workConst i) (s.w.work i var)) j = s.upper j :=
        fun j hj => ⟨rfl, Function.update_of_ne hj _ _⟩
      refine ⟨htight, hother, fun hok => hordered _ htight hother (hs.lower var).2 ?_ (not_lt.1 (of_decide_eq_true hok)),
        fun _ x hx => ?_⟩
      · dsimp only
        rw [Function.update_self, hval, int32Min]
        omega
      · have hup := (hx var).2
        dsimp only at hup
        rw [Function.update_self] at hup
        rw [hdot, ← le_upperFrom_iff hpos hc]
        refine hup ?_
        rw [hval, int32Max]
        omega
    · refine ⟨tightens_refl s, fun j _ => ⟨rfl, rfl⟩, fun _ => hs, fun _ x hx => ?_⟩
      rw [hdot, ← le_upperFrom_iff hpos hc]
      have hle := not_lt.1 hlt
      refine ((hx var).2 fun hmax => ?_).trans hle
      rw [hval, hmax, int32Max] at hle
      omega

/-- `One_Var_Consistent` on one row, without a bail-out. -/
theorem oneVarConsistent_boundSet {ok : Event → Prop} (hbail : ¬ ok .bail) (allow : Bool) {s : Bounds} (hs : s.Ordered)
    {i var : Nat} (hvars : s.w.vars i = [var]) : Yields ok (oneVarConsistent allow s var i i) (BoundSet s i var) := by
  have hbailed : Yields ok ((do report Event.bail; pure (s, true)) : Logged Event (Bounds × Bool)) (BoundSet s i var) :=
    (yields_report (R := fun _ => False) hbail).bind fun _ h => h.elim
  rw [oneVarConsistent]
  cases allow with
  | false => exact hbailed
  | true =>
    rw [if_neg (by decide), show i + 1 - i = 1 by omega, List.range'_one, oneVarRows]
    by_cases hsmall : s.w.workConst i ≥ int32Max - 1 ∨ s.w.workConst i ≤ int32Min + 1
    · rw [if_pos hsmall]
      exact hbailed
    · rw [if_neg hsmall]
      rw [not_or, not_le, not_le] at hsmall
      have hset := setBound_boundSet hs hvars ⟨hsmall.2, hsmall.1⟩
      by_cases hgt : (s.setBound i var).lower var > (s.setBound i var).upper var
      · rw [decide_eq_false (not_not.2 hgt)] at hset
        rw [if_pos hgt]
        exact yields_pure hset
      · rw [decide_eq_true hgt] at hset
        rw [if_neg hgt]
        exact yields_pure hset

/-! ## The bounds of all single inequalities -/

/-- The first `i` rows are taken into the bounds, or have several unknowns. -/
structure Bounded (w : Work) (i : Nat) (s : Bounds) : Prop where
  work : s.w = w
  ordered : s.Ordered
  single : ∀ r < i, s.isSvpc r = true → ∀ x, s.Within x → dot w.workCols (fun j => w.work r j) x ≤ w.workConst r
  several : ∀ r < i, s.isSvpc r = false → 2 ≤ (w.vars r).length

theorem Bounded.next {w : Work} {i : Nat} {s s' : Bounds} (h : Bounded w i s) (ht : s.Tightens s') (ho : s'.Ordered)
    (svpcI : Bool) (hsingle : svpcI = true → ∀ x, s'.Within x → dot w.workCols (fun j => w.work i j) x ≤ w.workConst i)
    (hseveral : svpcI = false → 2 ≤ (w.vars i).length) :
    Bounded w (i + 1) { s' with isSvpc := Function.update s'.isSvpc i svpcI } := by
  refine ⟨ht.w.trans h.work, ⟨ho.le, ho.lower, ho.upper⟩, fun r hr hsvpc x hx => ?_, fun r hr hsvpc => ?_⟩
  · by_cases hri : r = i
    · rw [hri]
      refine hsingle ?_ x hx
      rw [hri] at hsvpc
      dsimp only at hsvpc
      rwa [Function.update_self] at hsvpc
    · dsimp only at hsvpc
      rw [Function.update_of_ne hri, ht.isSvpc] at hsvpc
      exact h.single r (by omega) hsvpc x (hx.mono h.ordered ht.lower ht.upper)
  · by_cases hri : r = i
    · rw [hri]
      refine hseveral ?_
      rw [hri] at hsvpc
      dsimp only at hsvpc
      rwa [Function.update_self] at hsvpc
    · dsimp only at hsvpc
      rw [Function.update_of_ne hri, ht.isSvpc] at hsvpc
      exact h.several r (by omega) hsvpc

theorem vars_eq_singleton {w : Work} {r : Nat} (h : (w.vars r).length = 1) : w.vars r = [(w.vars r).getLastD 0] := by
  obtain ⟨v, hv⟩ := List.length_eq_one_iff.1 h
  rw [hv]
  rfl

/-- While no bail-out is logged, `SVPC` answers `consistent` only with a solution, and leaves the bounds of all single
inequalities. -/
theorem svpcRows_sound {ok : Event → Prop} (hbail : ¬ ok .bail) (allow : Bool) {w : Work} (k : Nat) :
    ∀ (i : Nat) (applicable : Bool) (s : Bounds), i + k = w.workRows → Bounded w i s →
    (applicable = true → ∀ r < i, s.isSvpc r = true) →
    Yields ok (svpcRows allow k i applicable s) fun res =>
      (res.1 = .consistent → ∃ x : Nat → Int, w.Holds x) ∧ (res.1 = .inapplicable → Bounded w w.workRows res.2) := by
  induction k with
  | zero =>
    intro i applicable s hik h happ
    obtain rfl : i = w.workRows := hik
    rw [svpcRows]
    cases applicable with
    | false =>
      refine yields_pure ⟨fun hc => ?_, fun _ => h⟩
      cases hc
    | true =>
      refine yields_pure ⟨fun _ => ?_, fun hc => ?_⟩
      · obtain ⟨x, hx⟩ := exists_within h.ordered
        refine ⟨x, (holds_iff w x).2 fun r hr => ?_⟩
        exact_mod_cast h.single r hr (happ rfl r hr) x hx
      · cases hc
  | succ k ih =>
    intro i applicable s hik h happ
    have hw := h.work
    -- the rest, once row `i` is marked
    have hrest : ∀ s' : Bounds, s.Tightens s' → s'.Ordered → ∀ svpcI : Bool,
        (svpcI = true → ∀ x, s'.Within x → dot w.workCols (fun j => w.work i j) x ≤ w.workConst i) →
        (svpcI = false → 2 ≤ (w.vars i).length) →
        Yields ok (svpcRows allow k (i + 1) (applicable && svpcI)
          { s' with isSvpc := Function.update s'.isSvpc i svpcI }) fun res =>
          (res.1 = .consistent → ∃ x : Nat → Int, w.Holds x) ∧ (res.1 = .inapplicable → Bounded w w.workRows res.2) := by
      intro s' ht ho svpcI hsingle hseveral
      refine ih (i + 1) _ _ (by omega) (h.next ht ho svpcI hsingle hseveral) fun happ' r hr => ?_
      rw [Bool.and_eq_true] at happ'
      dsimp only
      by_cases hri : r = i
      · rw [hri, Function.update_self]
        exact happ'.2
      · rw [Function.update_of_ne hri, ht.isSvpc]
        exact happ happ'.1 r (by omega)
    rw [svpcRows]
    by_cases hzero : (s.w.vars i).length = 0
    · rw [if_pos hzero, decide_eq_true (show (s.w.vars i).length ≤ 1 by omega)]
      by_cases hneg : s.w.workConst i < 0
      · rw [if_pos hneg]
        refine yields_pure ⟨fun hc => ?_, fun hc => ?_⟩ <;> cases hc
      · rw [if_neg hneg]
        refine hrest s (tightens_refl s) h.ordered true (fun _ x _ => ?_) fun hc => absurd hc.symm Bool.false_ne_true
        rw [← hw, dot_of_vars_nil (List.length_eq_zero_iff.1 hzero)]
        exact not_lt.1 hneg
    · rw [if_neg hzero]
      by_cases hone : (s.w.vars i).length ≤ 1
      · rw [decide_eq_true hone, if_pos rfl]
        have hvars := vars_eq_singleton (show (s.w.vars i).length = 1 by omega)
        refine (oneVarConsistent_boundSet hbail allow h.ordered hvars).bind fun res hset => ?_
        cases hres : res.2 with
        | false =>
          rw [if_pos (by decide)]
          refine yields_pure ⟨fun hc => ?_, fun hc => ?_⟩ <;> cases hc
        | true =>
          rw [if_neg (by decide)]
          refine hrest res.1 hset.tightens (hset.ordered hres) true (fun _ x hx => ?_) fun hc => absurd hc.symm Bool.false_ne_true
          rw [← hw]
          exact hset.holds hres x hx
      · rw [decide_eq_false hone, if_neg Bool.false_ne_true]
        refine hrest s (tightens_refl s) h.ordered false (fun hc => absurd hc Bool.false_ne_true) fun _ => ?_
        rw [← hw]
        omega

theorem svpc_sound {ok : Event → Prop} (hbail : ¬ ok .bail) (allow : Bool) (w : Work) (isSvpc : Nat → Bool) :
    Yields ok (svpc allow w isSvpc) fun res =>
      (res.1 = .consistent → ∃ x : Nat → Int, w.Holds x) ∧ (res.1 = .inapplicable → Bounded w w.workRows res.2) := by
  refine svpcRows_sound hbail allow w.workRows 0 true _ (Nat.zero_add _) ⟨rfl, ?_, fun r hr => ?_, fun r hr => ?_⟩ fun _ r hr => ?_
  · have hlt : int32Min < int32Max := by decide
    exact ⟨fun _ => hlt.le, fun _ => ⟨le_rfl, hlt⟩, fun _ => ⟨hlt, le_rfl⟩⟩
  all_goals exact absurd hr (Nat.not_lt_zero r)

end Path64.Soe

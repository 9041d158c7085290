import Path64.Soe.Bounds

/-!
# Setting unknowns to a bound

`Acyclic_Test` of `be/lno/soe.cxx`, with the functions it calls. An unknown that all inequalities left push to one side is set to
its bound on that side and substituted; an infinite bound satisfies every inequality with the unknown.

* `varLeaf`, `acySetVar`, `acyclicTest` : the test;
* `Bounds.Solves` : the points within the bounds that satisfy the inequalities left;
* `VarSet` : what setting one unknown comes to, and how a solution goes back over it;
* `fast_tests_sound` : an answer `consistent` of either fast test comes with an integer solution.
-/

namespace Path64.Soe

open Lib Logged

inductive AcyResult where
  | consistent | inconsistent | inapplicable
  deriving DecidableEq

/-! ## `Acyclic_Test` -/

/-- The loop of `Var_Leaf` over the given rows: the sign, or `none` for not a leaf. -/
def leafRows (s : Bounds) (i : Nat) : List Nat → Int → Option Int
  | [], sign => some sign
  | row :: rest, sign =>
    if !s.isSvpc row then
      if (s.w.work row i : Int) > 0 then if sign = -1 then none else leafRows s i rest 1
      else if (s.w.work row i : Int) < 0 then if sign = 1 then none else leafRows s i rest (-1)
      else leafRows s i rest sign
    else leafRows s i rest sign

/-- `Var_Leaf`. -/
def varLeaf (s : Bounds) (i : Nat) : Option Int := leafRows s i (List.range s.w.workRows) 0

/-- The row with a constant and zeros. -/
def Work.zeroRow (w : Work) (row : Nat) : Work :=
  { w with
    workConst := Function.update w.workConst row 0
    work := fun r c => if r = row ∧ c < w.workCols then MInt32.ofInt 0 else w.work r c }

/-- The constant after unknown `i` is set to `v`: no multiplication for `1` and `-1`, else a 32-bit product. -/
def setConst (a const v : Int) : Logged Event Int := do
  if a = 1 then
    report (.const (const - v))
    pure (wrap64 (const - v))
  else if a = -1 then
    report (.const (const + v))
    pure (wrap64 (const + v))
  else
    report (.product (a * v))
    report (.const (const - wrap32 (a * v)))
    pure (wrap64 (const - wrap32 (a * v)))

/-- The loop of `Acy_Set_Var` over the given rows: the result is `inconsistent`. -/
def setRows (allow : Bool) (i : Nat) (val : Int) : List Nat → Bounds → Logged Event (Bounds × Bool)
  | [], s => pure (s, false)
  | row :: rest, s =>
    if !s.isSvpc row ∧ (s.w.work row i : Int) ≠ 0 then
      if val = int32Max ∨ val = int32Min then
        setRows allow i val rest { s with w := s.w.zeroRow row, isSvpc := Function.update s.isSvpc row true }
      else do
        let const ← setConst (s.w.work row i) (s.w.workConst row) val
        let s : Bounds := { s with w := { s.w with
          workConst := Function.update s.w.workConst row const
          work := Function.update s.w.work row (Function.update (s.w.work row) i (MInt32.ofInt 0)) } }
        if (s.w.vars row).length = 1 then do
          let res ← oneVarConsistent allow s ((s.w.vars row).getLastD 0) row row
          if !res.2 then pure (res.1, true)
          else setRows allow i val rest { res.1 with isSvpc := Function.update res.1.isSvpc row true }
        else setRows allow i val rest s
    else setRows allow i val rest s

/-- `Acy_Set_Var`. -/
def acySetVar (allow : Bool) (s : Bounds) (i : Nat) (val : Int) : Logged Event (Bounds × Bool) :=
  setRows allow i val (List.range s.w.workRows) s

/-- What `Acyclic_Test` keeps: the arrays, `var_substituted`, `subbed_one` and `failed_one`. -/
structure AcyState where
  s : Bounds
  substituted : Nat → Bool
  subbedOne : Bool
  failedOne : Bool

/-- The loop over the given unknowns; the result is `true` where the test returns `ACY_INCONSISTENT`. -/
def acyVars (allow : Bool) : List Nat → AcyState → Logged Event (AcyState × Bool)
  | [], a => pure (a, false)
  | i :: rest, a =>
    if a.substituted i then acyVars allow rest a
    else
      match varLeaf a.s i with
      | none => acyVars allow rest { a with failedOne := true }
      | some sign =>
        let a := { a with substituted := Function.update a.substituted i true }
        if sign > 0 then do
          let res ← acySetVar allow a.s i (a.s.lower i)
          if res.2 then pure ({ a with s := res.1, subbedOne := true }, true)
          else acyVars allow rest { a with s := res.1, subbedOne := true }
        else if sign < 0 then do
          let res ← acySetVar allow a.s i (a.s.upper i)
          if res.2 then pure ({ a with s := res.1, subbedOne := true }, true)
          else acyVars allow rest { a with s := res.1, subbedOne := true }
        else acyVars allow rest a

/-- The outer loop, at most `k` times. -/
def acyLoop (allow : Bool) : Nat → AcyState → Logged Event (AcyResult × Bounds)
  | 0, _ => ofOption none
  | k + 1, a =>
    if a.subbedOne && a.failedOne then do
      let res ← acyVars allow (List.range a.s.w.workCols) { a with subbedOne := false, failedOne := false }
      if res.2 then pure (.inconsistent, res.1.s) else acyLoop allow k res.1
    else pure (if a.failedOne then .inapplicable else .consistent, a.s)

/-- `Acyclic_Test`: each round but the last substitutes an unknown. -/
def acyclicTest (allow : Bool) (s : Bounds) : Logged Event (AcyResult × Bounds) :=
  acyLoop allow (s.w.workCols + 2) ⟨s, fun _ => false, true, true⟩

/-! ## Leaves -/

/-- `x` is within the bounds and satisfies the inequalities that are not among them. -/
structure Bounds.Solves (s : Bounds) (x : Nat → Int) : Prop where
  within : s.Within x
  rows : ∀ r < s.w.workRows, s.isSvpc r = false → dot s.w.workCols (fun j => s.w.work r j) x ≤ s.w.workConst r

/-- The sign of a leaf. -/
theorem leafRows_spec {s : Bounds} {i : Nat} (rows : List Nat) : ∀ sign sg, sign = -1 ∨ sign = 0 ∨ sign = 1 →
    leafRows s i rows sign = some sg →
    (0 < sg → 0 ≤ sign ∧ ∀ r ∈ rows, s.isSvpc r = false → 0 ≤ (s.w.work r i : Int)) ∧
    (sg < 0 → sign ≤ 0 ∧ ∀ r ∈ rows, s.isSvpc r = false → (s.w.work r i : Int) ≤ 0) ∧
    (sg = 0 → sign = 0 ∧ ∀ r ∈ rows, s.isSvpc r = false → (s.w.work r i : Int) = 0) := by
  induction rows with
  | nil =>
    intro sign sg _ h
    obtain rfl : sign = sg := Option.some.inj h
    refine ⟨fun hs => ⟨hs.le, fun r hr => ?_⟩, fun hs => ⟨hs.le, fun r hr => ?_⟩, fun hs => ⟨hs, fun r hr => ?_⟩⟩ <;>
      exact absurd hr List.not_mem_nil
  | cons row rest ih =>
    intro sign sg hsign h
    rw [leafRows] at h
    -- the rest of the rows, and what is known of this one
    have hcons : ∀ sign', (sign' = -1 ∨ sign' = 0 ∨ sign' = 1) → leafRows s i rest sign' = some sg →
        (0 ≤ sign' → 0 ≤ sign ∧ (s.isSvpc row = false → 0 ≤ (s.w.work row i : Int))) →
        (sign' ≤ 0 → sign ≤ 0 ∧ (s.isSvpc row = false → (s.w.work row i : Int) ≤ 0)) →
        (sign' = 0 → sign = 0 ∧ (s.isSvpc row = false → (s.w.work row i : Int) = 0)) →
        (0 < sg → 0 ≤ sign ∧ ∀ r ∈ row :: rest, s.isSvpc r = false → 0 ≤ (s.w.work r i : Int)) ∧
        (sg < 0 → sign ≤ 0 ∧ ∀ r ∈ row :: rest, s.isSvpc r = false → (s.w.work r i : Int) ≤ 0) ∧
        (sg = 0 → sign = 0 ∧ ∀ r ∈ row :: rest, s.isSvpc r = false → (s.w.work r i : Int) = 0) := by
      intro sign' hsign' hrest hpos hneg hzero
      obtain ⟨h1, h2, h3⟩ := ih sign' sg hsign' hrest
      refine ⟨fun hs => ?_, fun hs => ?_, fun hs => ?_⟩
      · obtain ⟨hsign, hrow⟩ := hpos (h1 hs).1
        exact ⟨hsign, List.forall_mem_cons.2 ⟨hrow, (h1 hs).2⟩⟩
      · obtain ⟨hsign, hrow⟩ := hneg (h2 hs).1
        exact ⟨hsign, List.forall_mem_cons.2 ⟨hrow, (h2 hs).2⟩⟩
      · obtain ⟨hsign, hrow⟩ := hzero (h3 hs).1
        exact ⟨hsign, List.forall_mem_cons.2 ⟨hrow, (h3 hs).2⟩⟩
    cases hsvpc : s.isSvpc row with
    | true =>
      rw [hsvpc, if_neg (by decide)] at h
      rw [hsvpc] at hcons
      exact hcons sign hsign h (fun hs => ⟨hs, fun hc => absurd hc.symm Bool.false_ne_true⟩)
        (fun hs => ⟨hs, fun hc => absurd hc.symm Bool.false_ne_true⟩) (fun hs => ⟨hs, fun hc => absurd hc.symm Bool.false_ne_true⟩)
    | false =>
      rw [hsvpc, if_pos (by decide)] at h
      split_ifs at h with hpos hs1 hneg hs2
      · exact hcons 1 (by decide) h (fun _ => ⟨by omega, fun _ => hpos.le⟩) (fun hc => absurd hc (by decide))
          (fun hc => absurd hc (by decide))
      · exact hcons (-1) (by decide) h (fun hc => absurd hc (by decide)) (fun _ => ⟨by omega, fun _ => hneg.le⟩)
          (fun hc => absurd hc (by decide))
      · have hzero : (s.w.work row i : Int) = 0 := by omega
        exact hcons sign hsign h (fun hs => ⟨hs, fun _ => hzero.ge⟩) (fun hs => ⟨hs, fun _ => hzero.le⟩) (fun hs => ⟨hs, fun _ => hzero⟩)

theorem varLeaf_spec {s : Bounds} {i : Nat} {sg : Int} (h : varLeaf s i = some sg) :
    (0 < sg → ∀ r < s.w.workRows, s.isSvpc r = false → 0 ≤ (s.w.work r i : Int)) ∧
    (sg < 0 → ∀ r < s.w.workRows, s.isSvpc r = false → (s.w.work r i : Int) ≤ 0) ∧
    (sg = 0 → ∀ r < s.w.workRows, s.isSvpc r = false → (s.w.work r i : Int) = 0) := by
  obtain ⟨h1, h2, h3⟩ := leafRows_spec _ 0 sg (by decide) h
  exact ⟨fun hs r hr => (h1 hs).2 r (List.mem_range.2 hr), fun hs r hr => (h2 hs).2 r (List.mem_range.2 hr),
    fun hs r hr => (h3 hs).2 r (List.mem_range.2 hr)⟩

/-! ## Setting an unknown -/

/-- The log entries that are no defect: no bail-out, and values that fit. -/
def Event.Fits : Event → Prop
  | .bail => False
  | .product x => InInt32 x
  | .const x => InInt64 x

/-- The inequalities left have at least two unknowns, and the bounds are in order. -/
structure Bounds.Ready (s : Bounds) : Prop where
  ordered : s.Ordered
  several : ∀ r < s.w.workRows, s.isSvpc r = false → 2 ≤ (s.w.vars r).length

/-- Unknown `i` is set: it is gone from the inequalities left, no unknown comes back, and a solution of the new state is one of
the old with some value of `i`. -/
structure VarSet (s : Bounds) (i : Nat) (s' : Bounds) : Prop where
  rows : s'.w.workRows = s.w.workRows
  cols : s'.w.workCols = s.w.workCols
  ready : s'.Ready
  gone : ∀ r < s.w.workRows, s'.isSvpc r = false → (s'.w.work r i : Int) = 0
  zeros : ∀ r < s.w.workRows, s'.isSvpc r = false → s.isSvpc r = false ∧ ∀ j, (s.w.work r j : Int) = 0 → (s'.w.work r j : Int) = 0
  back : ∀ x, s'.Solves x → ∃ t, s.Solves (Function.update x i t)

theorem setConst_exact (a const v : Int) : Yields Event.Fits (setConst a const v) fun c => c = const - a * v := by
  unfold setConst
  split_ifs with h1 hn1
  · refine (yields_report (R := fun _ => InInt64 (const - v)) fun h : Event.Fits (.const (const - v)) => h).bind fun _ hfit => yields_pure ?_
    rw [wrap64_eq hfit, h1, one_mul]
  · refine (yields_report (R := fun _ => InInt64 (const + v)) fun h : Event.Fits (.const (const + v)) => h).bind fun _ hfit => yields_pure ?_
    rw [wrap64_eq hfit, hn1]
    ring
  · refine (yields_report (R := fun _ => InInt32 (a * v)) fun h : Event.Fits (.product (a * v)) => h).bind fun _ hprod => ?_
    rw [wrap32_eq_iff.2 hprod]
    refine (yields_report (R := fun _ => InInt64 (const - a * v)) fun h : Event.Fits (.const (const - a * v)) => h).bind fun _ hfit => yields_pure ?_
    rw [wrap64_eq hfit]

theorem length_vars_clear {w w' : Work} {r i : Nat} (hcols : w'.workCols = w.workCols)
    (hrow : w'.work r = Function.update (w.work r) i (MInt32.ofInt 0)) : (w.vars r).length ≤ (w'.vars r).length + 1 := by
  have hsub : w.vars r ⊆ i :: w'.vars r := by
    intro j hj
    obtain ⟨hjc, hne⟩ := mem_vars.1 hj
    by_cases hji : j = i
    · rw [hji]
      exact List.mem_cons_self
    · refine List.mem_cons_of_mem _ (mem_vars.2 ⟨hcols.symm ▸ hjc, ?_⟩)
      rw [hrow, Function.update_of_ne hji]
      exact hne
  have hnodup : (w.vars r).Nodup := (List.nodup_range).filter _
  exact (hnodup.subperm hsub).length_le

/-- Row `r` holds at `x`. -/
def Bounds.RowHolds (s : Bounds) (r : Nat) (x : Nat → Int) : Prop :=
  dot s.w.workCols (fun j => s.w.work r j) x ≤ s.w.workConst r

/-- Unknown `i` is set to `v` in the rows before `row`. -/
structure Setting (s₀ : Bounds) (i : Nat) (v : Int) (row : Nat) (s : Bounds) : Prop where
  rows : s.w.workRows = s₀.w.workRows
  cols : s.w.workCols = s₀.w.workCols
  ready : s.Ready
  bound : s.lower i = s₀.lower i ∧ s.upper i = s₀.upper i
  later : ∀ r, row ≤ r → s.w.work r = s₀.w.work r ∧ s.w.workConst r = s₀.w.workConst r ∧ s.isSvpc r = s₀.isSvpc r
  gone : ∀ r < row, s.isSvpc r = false → (s.w.work r i : Int) = 0
  zeros : ∀ r, s.isSvpc r = false → s₀.isSvpc r = false ∧ ∀ j, (s₀.w.work r j : Int) = 0 → (s.w.work r j : Int) = 0
  back : ∀ x, s.Within x → (∀ r < row, r < s.w.workRows → s.isSvpc r = false → s.RowHolds r x) →
    (∀ r, row ≤ r → r < s.w.workRows → s₀.isSvpc r = false → s₀.RowHolds r (Function.update x i v)) →
    s₀.Solves (Function.update x i v)

/-- One more row. -/
theorem Setting.next {s₀ s s' : Bounds} {i row : Nat} {v : Int} (h : Setting s₀ i v row s)
    (hrows : s'.w.workRows = s.w.workRows) (hcols : s'.w.workCols = s.w.workCols)
    (hother : ∀ r, r ≠ row → s'.w.work r = s.w.work r ∧ s'.w.workConst r = s.w.workConst r ∧ s'.isSvpc r = s.isSvpc r)
    (hordered : s'.Ordered) (hlower : ∀ j, s.lower j ≤ s'.lower j) (hupper : ∀ j, s'.upper j ≤ s.upper j)
    (hbound : s'.lower i = s.lower i ∧ s'.upper i = s.upper i)
    (hrow : s'.isSvpc row = false → 2 ≤ (s'.w.vars row).length ∧ (s'.w.work row i : Int) = 0 ∧ s₀.isSvpc row = false ∧
      ∀ j, (s₀.w.work row j : Int) = 0 → (s'.w.work row j : Int) = 0)
    (hback : ∀ x, s'.Within x → (s'.isSvpc row = false → s'.RowHolds row x) → s₀.isSvpc row = false →
      s₀.RowHolds row (Function.update x i v)) : Setting s₀ i v (row + 1) s' := by
  have hvars : ∀ r, r ≠ row → s'.w.vars r = s.w.vars r := fun r hr => by
    rw [Work.vars, Work.vars, hcols, (hother r hr).1]
  refine ⟨hrows.trans h.rows, hcols.trans h.cols, ⟨hordered, fun r hr hsvpc => ?_⟩,
    ⟨hbound.1.trans h.bound.1, hbound.2.trans h.bound.2⟩, fun r hr => ?_, fun r hr hsvpc => ?_, fun r hsvpc => ?_,
    fun x hx hbefore hafter => ?_⟩
  · by_cases hrr : r = row
    · rw [hrr] at hsvpc ⊢
      exact (hrow hsvpc).1
    · rw [hvars r hrr]
      exact h.ready.several r (hrows ▸ hr) ((hother r hrr).2.2 ▸ hsvpc)
  · obtain ⟨h1, h2, h3⟩ := hother r (by omega)
    obtain ⟨g1, g2, g3⟩ := h.later r (by omega)
    exact ⟨h1.trans g1, h2.trans g2, h3.trans g3⟩
  · by_cases hrr : r = row
    · rw [hrr] at hsvpc ⊢
      exact (hrow hsvpc).2.1
    · rw [(hother r hrr).1]
      exact h.gone r (by omega) ((hother r hrr).2.2 ▸ hsvpc)
  · by_cases hrr : r = row
    · rw [hrr] at hsvpc ⊢
      exact (hrow hsvpc).2.2
    · rw [(hother r hrr).1]
      exact h.zeros r ((hother r hrr).2.2 ▸ hsvpc)
  · refine h.back x (hx.mono h.ready.ordered hlower hupper) (fun r hr hrw hsvpc => ?_) fun r hr hrw hsvpc => ?_
    · obtain ⟨h1, h2, h3⟩ := hother r (by omega)
      have hholds := hbefore r (by omega) (hrows.symm ▸ hrw) (h3.trans hsvpc)
      unfold Bounds.RowHolds at hholds ⊢
      rwa [hcols, h1, h2] at hholds
    · rcases Nat.eq_or_lt_of_le hr with rfl | hlt
      · exact hback x hx (hbefore row (by omega) (hrows.symm ▸ hrw)) hsvpc
      · exact hafter r hlt (hrows.symm ▸ hrw) hsvpc

theorem dot_set {s₀ : Bounds} {i row : Nat} (hi : i < s₀.w.workCols) (v : Int) (x : Nat → Int) :
    dot s₀.w.workCols (fun j => s₀.w.work row j) (Function.update x i v) =
      dot s₀.w.workCols (fun j => (Function.update (s₀.w.work row) i (MInt32.ofInt 0) j : Int)) x + s₀.w.work row i * v := by
  have hcoeff : (fun j => ((Function.update (s₀.w.work row) i (MInt32.ofInt 0) j : MInt32) : Int)) =
      Function.update (fun j => (s₀.w.work row j : Int)) i 0 := by
    funext j
    by_cases hj : j = i
    · rw [hj, Function.update_self, Function.update_self]
      rfl
    · rw [Function.update_of_ne hj, Function.update_of_ne hj]
  rw [hcoeff, dot_update hi, dot_update_coeff hi]
  simp only [Int.cast_id, Int.cast_zero]
  ring

theorem setRows_setting (allow : Bool) {s₀ : Bounds} {i : Nat} {v : Int} (hi : i < s₀.w.workCols)
    (hfinite : ¬ (v = int32Max ∨ v = int32Min)) (k : Nat) : ∀ (row : Nat) (s : Bounds),
    row + k = s₀.w.workRows → Setting s₀ i v row s →
    Yields Event.Fits (setRows allow i v (List.range' row k) s) fun res =>
      res.2 = false → Setting s₀ i v (row + k) res.1 := by
  induction k with
  | zero =>
    intro row s _ h
    exact yields_pure fun _ => h
  | succ k ih =>
    intro row s hrk h
    rw [List.range'_succ, setRows, show row + (k + 1) = row + 1 + k by omega]
    obtain ⟨hwork, hconst, hsvpc⟩ := h.later row le_rfl
    have hicols : i < s.w.workCols := h.cols.symm ▸ hi
    by_cases hcond : (!s.isSvpc row) = true ∧ (s.w.work row i : Int) ≠ 0
    swap
    · -- the row is among the bounds, or without the unknown
      rw [if_neg hcond]
      refine ih (row + 1) s (by omega) (h.next rfl rfl (fun r _ => ⟨rfl, rfl, rfl⟩) h.ready.ordered (fun _ => le_rfl)
        (fun _ => le_rfl) ⟨rfl, rfl⟩ (fun hfalse => ?_) fun x _ hholds hfalse => ?_)
      · have hzero : (s.w.work row i : Int) = 0 := by
          by_contra hne
          exact hcond ⟨by rw [hfalse]; rfl, hne⟩
        exact ⟨h.ready.several row (by rw [h.rows]; omega) hfalse, hzero, h.zeros row hfalse⟩
      · have hfalse' : s.isSvpc row = false := hsvpc.trans hfalse
        have hzero : (s₀.w.work row i : Int) = 0 := by
          rw [← hwork]
          by_contra hne
          exact hcond ⟨by rw [hfalse']; rfl, hne⟩
        have hholds := hholds hfalse'
        unfold Bounds.RowHolds at hholds ⊢
        rw [dot_update_of_eq_zero hzero]
        rwa [h.cols, hwork, hconst] at hholds
    rw [if_pos hcond, if_neg hfinite]
    have hfalse : s.isSvpc row = false := by
      rw [Bool.not_eq_true'] at hcond
      exact hcond.1
    have hfalse₀ : s₀.isSvpc row = false := hsvpc.symm.trans hfalse
    refine (setConst_exact _ _ _).bind fun c hc => ?_
    set s₁ : Bounds := { s with w := { s.w with
      workConst := Function.update s.w.workConst row c
      work := Function.update s.w.work row (Function.update (s.w.work row) i (MInt32.ofInt 0)) } } with hs₁
    have hrow₁ : s₁.w.work row = Function.update (s.w.work row) i (MInt32.ofInt 0) := Function.update_self _ _ _
    have hconst₁ : s₁.w.workConst row = c := Function.update_self _ _ _
    have hother₁ : ∀ r, r ≠ row → s₁.w.work r = s.w.work r ∧ s₁.w.workConst r = s.w.workConst r := fun r hr =>
      ⟨Function.update_of_ne hr _ _, Function.update_of_ne hr _ _⟩
    have hzero₁ : (s₁.w.work row i : Int) = 0 := by
      rw [hrow₁, Function.update_self]
      rfl
    have hkept : ∀ j, (s₀.w.work row j : Int) = 0 → (s₁.w.work row j : Int) = 0 := by
      intro j hj
      rw [hrow₁]
      by_cases hji : j = i
      · rw [hji, Function.update_self]
        rfl
      · rw [Function.update_of_ne hji, hwork]
        exact hj
    -- the new row says of `x` what the old one says with `i` at `v`
    have hback : ∀ x, s₁.RowHolds row x → s₀.RowHolds row (Function.update x i v) := by
      intro x hx
      unfold Bounds.RowHolds at hx ⊢
      rw [hconst₁, hc, hrow₁, hwork, hconst] at hx
      have hx' : dot s₀.w.workCols (fun j => (Function.update (s₀.w.work row) i (MInt32.ofInt 0) j : Int)) x ≤
          s₀.w.workConst row - s₀.w.work row i * v := by
        rw [← h.cols]
        exact hx
      rw [dot_set hi]
      linarith
    have hlen := length_vars_clear (show s₁.w.workCols = s.w.workCols from rfl) hrow₁
    have htwo := h.ready.several row (by rw [h.rows]; omega) hfalse
    by_cases hone : (s₁.w.vars row).length = 1
    · -- the row goes to the bounds
      rw [if_pos hone]
      have hvars := vars_eq_singleton hone
      have hvar : (s₁.w.vars row).getLastD 0 ≠ i := by
        intro heq
        have hmem : i ∈ s₁.w.vars row := by
          rw [hvars, heq]
          exact List.mem_singleton_self i
        exact (mem_vars.1 hmem).2 hzero₁
      have hordered₁ : s₁.Ordered := ⟨h.ready.ordered.le, h.ready.ordered.lower, h.ready.ordered.upper⟩
      have hfits : ¬ Event.Fits .bail := id
      refine (oneVarConsistent_boundSet hfits allow hordered₁ hvars).bind fun res hset => ?_
      cases hres : res.2 with
      | false =>
        rw [if_pos (by decide)]
        exact yields_pure fun hc => absurd hc.symm Bool.false_ne_true
      | true =>
        rw [if_neg (by decide)]
        have hw : res.1.w = s₁.w := hset.tightens.w
        have hrows : res.1.w.workRows = s.w.workRows := by rw [hw]
        have hcols : res.1.w.workCols = s.w.workCols := by rw [hw]
        refine ih (row + 1) _ (by omega) (h.next hrows hcols (fun r hr => ?_)
          ⟨(hset.ordered hres).le, (hset.ordered hres).lower, (hset.ordered hres).upper⟩ hset.tightens.lower hset.tightens.upper
          (hset.other i hvar.symm) (fun hf => ?_) fun x hx _ _ => ?_)
        · refine ⟨(congrFun (congrArg Work.work hw) r).trans (hother₁ r hr).1,
            (congrFun (congrArg Work.workConst hw) r).trans (hother₁ r hr).2, ?_⟩
          dsimp only
          rw [Function.update_of_ne hr, hset.tightens.isSvpc]
        · dsimp only at hf
          rw [Function.update_self] at hf
          exact absurd hf.symm Bool.false_ne_true
        · exact hback x (hset.holds hres x hx)
    · rw [if_neg hone]
      refine ih (row + 1) s₁ (by omega) (h.next rfl rfl (fun r hr => ⟨(hother₁ r hr).1, (hother₁ r hr).2, rfl⟩)
        ⟨h.ready.ordered.le, h.ready.ordered.lower, h.ready.ordered.upper⟩ (fun _ => le_rfl) (fun _ => le_rfl) ⟨rfl, rfl⟩
        (fun _ => ⟨by omega, hzero₁, hfalse₀, hkept⟩) fun x _ hholds _ => hback x (hholds hfalse))

/-! ## An infinite bound -/

/-- The rows before `row` with unknown `i` are cleared. -/
structure Clearing (s₀ : Bounds) (i row : Nat) (s : Bounds) : Prop where
  rows : s.w.workRows = s₀.w.workRows
  cols : s.w.workCols = s₀.w.workCols
  lower : s.lower = s₀.lower
  upper : s.upper = s₀.upper
  later : ∀ r, row ≤ r → s.w.work r = s₀.w.work r ∧ s.w.workConst r = s₀.w.workConst r ∧ s.isSvpc r = s₀.isSvpc r
  kept : ∀ r, s.isSvpc r = false →
    s₀.isSvpc r = false ∧ s.w.work r = s₀.w.work r ∧ s.w.workConst r = s₀.w.workConst r
  gone : ∀ r < row, s.isSvpc r = false → (s₀.w.work r i : Int) = 0
  stays : ∀ r, s₀.isSvpc r = false → (s₀.w.work r i : Int) = 0 → s.isSvpc r = false

theorem setRows_clearing (allow : Bool) {s₀ : Bounds} {i : Nat} {v : Int} (hinfinite : v = int32Max ∨ v = int32Min)
    (k : Nat) : ∀ (row : Nat) (s : Bounds), Clearing s₀ i row s →
    Yields Event.Fits (setRows allow i v (List.range' row k) s) fun res => Clearing s₀ i (row + k) res.1 := by
  induction k with
  | zero =>
    intro row s h
    exact yields_pure h
  | succ k ih =>
    intro row s h
    rw [List.range'_succ, setRows, show row + (k + 1) = row + 1 + k by omega]
    obtain ⟨hwork, hconst, hsvpc⟩ := h.later row le_rfl
    by_cases hcond : (!s.isSvpc row) = true ∧ (s.w.work row i : Int) ≠ 0
    · rw [if_pos hcond, if_pos hinfinite]
      have hne : (s₀.w.work row i : Int) ≠ 0 := hwork ▸ hcond.2
      have hother : ∀ r, r ≠ row → (s.w.zeroRow row).work r = s.w.work r ∧
          (s.w.zeroRow row).workConst r = s.w.workConst r := by
        refine fun r hr => ⟨?_, Function.update_of_ne hr _ _⟩
        funext c
        exact if_neg fun hc => hr hc.1
      -- a row that is left is another one
      have hleft : ∀ r, Function.update s.isSvpc row true r = false → r ≠ row ∧ s.isSvpc r = false := by
        intro r hr
        have hrr : r ≠ row := by
          rintro rfl
          rw [Function.update_self] at hr
          exact Bool.false_ne_true hr.symm
        rw [Function.update_of_ne hrr] at hr
        exact ⟨hrr, hr⟩
      refine ih (row + 1) _ ⟨h.rows, h.cols, h.lower, h.upper, fun r hr => ?_, fun r hr => ?_, fun r hr hs => ?_, fun r hr hz => ?_⟩
      · obtain ⟨h1, h2, h3⟩ := h.later r (by omega)
        refine ⟨(hother r (by omega)).1.trans h1, (hother r (by omega)).2.trans h2, ?_⟩
        dsimp only
        rw [Function.update_of_ne (by omega)]
        exact h3
      · obtain ⟨hrr, hs⟩ := hleft r hr
        obtain ⟨h1, h2, h3⟩ := h.kept r hs
        exact ⟨h1, (hother r hrr).1.trans h2, (hother r hrr).2.trans h3⟩
      · obtain ⟨hrr, hs⟩ := hleft r hs
        exact h.gone r (by omega) hs
      · have hrr : r ≠ row := by
          rintro rfl
          exact hne hz
        dsimp only
        rw [Function.update_of_ne hrr]
        exact h.stays r hr hz
    · rw [if_neg hcond]
      refine ih (row + 1) s ⟨h.rows, h.cols, h.lower, h.upper, fun r hr => h.later r (by omega), h.kept, fun r hr hs => ?_, h.stays⟩
      rcases Nat.lt_succ_iff_lt_or_eq.1 hr with hlt | rfl
      · exact h.gone r hlt hs
      · rw [← hwork]
        by_contra hne
        exact hcond ⟨by rw [hs]; rfl, hne⟩

theorem exists_small (n : Nat) (c d : Nat → Int) (u : Int) (hc : ∀ r < n, 0 ≤ c r) (hd : ∀ r < n, c r = 0 → 0 ≤ d r) :
    ∃ t ≤ u, ∀ r < n, c r * t ≤ d r := by
  obtain ⟨m, hm⟩ := ((Finset.range n).image d).bddBelow
  refine ⟨min u (min 0 m), min_le_left _ _, fun r hr => ?_⟩
  have hle : m ≤ d r := hm (Finset.mem_coe.2 (Finset.mem_image_of_mem d (Finset.mem_range.2 hr)))
  have h0 : min u (min 0 m) ≤ 0 := (min_le_right _ _).trans (min_le_left _ _)
  have hd' : min u (min 0 m) ≤ d r := ((min_le_right _ _).trans (min_le_right _ _)).trans hle
  rcases (hc r hr).eq_or_lt with hzero | hpos
  · rw [← hzero, zero_mul]
    exact hd r hr hzero.symm
  · nlinarith

/-- An unknown without a bound on the side it is pushed to: the inequalities with it hold for some value. -/
theorem Clearing.varSet {s₀ s : Bounds} {i : Nat} (hi : i < s₀.w.workCols) (hready : s₀.Ready)
    (h : Clearing s₀ i s₀.w.workRows s)
    (hside : (s₀.lower i = int32Min ∧ ∀ r < s₀.w.workRows, s₀.isSvpc r = false → 0 ≤ (s₀.w.work r i : Int)) ∨
      (s₀.upper i = int32Max ∧ ∀ r < s₀.w.workRows, s₀.isSvpc r = false → (s₀.w.work r i : Int) ≤ 0)) :
    VarSet s₀ i s := by
  have hordered : s.Ordered := by
    refine ⟨fun j => ?_, fun j => ?_, fun j => ?_⟩ <;> simp only [h.lower, h.upper]
    · exact hready.ordered.le j
    · exact hready.ordered.lower j
    · exact hready.ordered.upper j
  refine ⟨h.rows, h.cols, ⟨hordered, fun r hr hs => ?_⟩, fun r hr hs => ?_, fun r hr hs => ?_, fun x hx => ?_⟩
  · obtain ⟨hs₀, hwork, -⟩ := h.kept r hs
    rw [Work.vars, h.cols, hwork]
    exact hready.several r (h.rows ▸ hr) hs₀
  · rw [(h.kept r hs).2.1]
    exact h.gone r hr hs
  · obtain ⟨hs₀, hwork, -⟩ := h.kept r hs
    exact ⟨hs₀, fun j hj => by rw [hwork]; exact hj⟩
  · -- the rows as conditions on the value of `i`
    let d (r : Nat) : Int := if s₀.isSvpc r = false then
      s₀.w.workConst r - dot s₀.w.workCols (fun j => s₀.w.work r j) (Function.update x i 0) else 0
    have hvalue : ∀ r t, dot s₀.w.workCols (fun j => s₀.w.work r j) (Function.update x i t) =
        dot s₀.w.workCols (fun j => s₀.w.work r j) (Function.update x i 0) + s₀.w.work r i * t := by
      intro r t
      rw [dot_update hi, dot_update hi]
      simp only [Int.cast_id]
      ring
    have hzero : ∀ r < s₀.w.workRows, (if s₀.isSvpc r = false then (s₀.w.work r i : Int) else 0) = 0 → 0 ≤ d r := by
      intro r hr hz
      by_cases hs₀ : s₀.isSvpc r = false
      · rw [if_pos hs₀] at hz
        have hs := h.stays r hs₀ hz
        obtain ⟨-, hwork, hconst⟩ := h.kept r hs
        have hrow := hx.rows r (h.rows.symm ▸ hr) hs
        rw [h.cols, hwork, hconst] at hrow
        have hx0 := dot_update_of_eq_zero (n := s₀.w.workCols) (a := fun j => (s₀.w.work r j : Int)) (x := x) (i := i) hz 0
        simp only [d, if_pos hs₀]
        rw [hx0]
        linarith
      · simp only [d, if_neg hs₀]
        exact le_rfl
    have hsolves : ∀ t, (s₀.lower i ≠ int32Min → s₀.lower i ≤ t) → (s₀.upper i ≠ int32Max → t ≤ s₀.upper i) →
        (∀ r < s₀.w.workRows, (if s₀.isSvpc r = false then (s₀.w.work r i : Int) else 0) * t ≤ d r) →
        s₀.Solves (Function.update x i t) := by
      intro t hl hu hrows
      refine ⟨fun j => ?_, fun r hr hs₀ => ?_⟩
      · by_cases hj : j = i
        · rw [hj, Function.update_self]
          exact ⟨hl, hu⟩
        · rw [Function.update_of_ne hj]
          have hxj := hx.within j
          rwa [h.lower, h.upper] at hxj
      · have hr' := hrows r hr
        simp only [d, if_pos hs₀] at hr'
        rw [hvalue]
        linarith
    rcases hside with ⟨hinf, hsign⟩ | ⟨hinf, hsign⟩
    · have hnonneg : ∀ r < s₀.w.workRows, 0 ≤ (if s₀.isSvpc r = false then (s₀.w.work r i : Int) else 0) := by
        intro r hr
        split_ifs with hs₀
        · exact hsign r hr hs₀
        · exact le_rfl
      obtain ⟨t, htu, ht⟩ := exists_small s₀.w.workRows _ d (s₀.upper i) hnonneg hzero
      exact ⟨t, hsolves t (fun hne => absurd hinf hne) (fun _ => htu) ht⟩
    · -- the same for the opposite value
      have hnonneg : ∀ r < s₀.w.workRows, 0 ≤ -(if s₀.isSvpc r = false then (s₀.w.work r i : Int) else 0) := by
        intro r hr
        split_ifs with hs₀
        · exact neg_nonneg.2 (hsign r hr hs₀)
        · exact le_rfl
      obtain ⟨t, htu, ht⟩ := exists_small s₀.w.workRows _ d (-s₀.lower i) hnonneg fun r hr hz => hzero r hr (neg_eq_zero.1 hz)
      refine ⟨-t, hsolves (-t) (fun _ => by omega) (fun hne => absurd hinf hne) fun r hr => ?_⟩
      rw [mul_neg, ← neg_mul]
      exact ht r hr

/-! ## The whole test -/

theorem setting_start {s : Bounds} (hready : s.Ready) {i : Nat} {v : Int} (hl : s.lower i ≤ v) (hu : v ≤ s.upper i) :
    Setting s i v 0 s := by
  refine ⟨rfl, rfl, hready, ⟨rfl, rfl⟩, fun r _ => ⟨rfl, rfl, rfl⟩, fun r hr => absurd hr (Nat.not_lt_zero r),
    fun r hs => ⟨hs, fun _ hj => hj⟩, fun x hx _ hafter => ⟨fun j => ?_, fun r hr hs => hafter r (Nat.zero_le r) hr hs⟩⟩
  by_cases hj : j = i
  · rw [hj, Function.update_self]
    exact ⟨fun _ => hl, fun _ => hu⟩
  · rw [Function.update_of_ne hj]
    exact hx j

theorem Setting.varSet {s₀ s : Bounds} {i : Nat} {v : Int} (h : Setting s₀ i v s₀.w.workRows s) : VarSet s₀ i s := by
  refine ⟨h.rows, h.cols, h.ready, h.gone, fun r _ hs => h.zeros r hs, fun x hx => ⟨v, ?_⟩⟩
  exact h.back x hx.within (fun r _ hr hs => hx.rows r hr hs) fun r h1 h2 => absurd h2 (not_lt.2 (h.rows.trans_le h1))

/-- `Acy_Set_Var` with the bound on the side all inequalities push to. -/
theorem acySetVar_varSet (allow : Bool) {s : Bounds} (hready : s.Ready) {i : Nat} (hi : i < s.w.workCols) {v : Int}
    (hside : (v = s.lower i ∧ ∀ r < s.w.workRows, s.isSvpc r = false → 0 ≤ (s.w.work r i : Int)) ∨
      (v = s.upper i ∧ ∀ r < s.w.workRows, s.isSvpc r = false → (s.w.work r i : Int) ≤ 0)) :
    Yields Event.Fits (acySetVar allow s i v) fun res => res.2 = false → VarSet s i res.1 := by
  have hle := hready.ordered.le i
  have hlower := hready.ordered.lower i
  have hupper := hready.ordered.upper i
  rw [acySetVar, List.range_eq_range']
  by_cases hinf : v = int32Max ∨ v = int32Min
  · have hstart : Clearing s i 0 s :=
      ⟨rfl, rfl, rfl, rfl, fun r _ => ⟨rfl, rfl, rfl⟩, fun r hs => ⟨hs, rfl, rfl⟩, fun r hr => absurd hr (Nat.not_lt_zero r),
        fun r hs _ => hs⟩
    refine (setRows_clearing allow hinf s.w.workRows 0 s hstart).mono fun res hres _ => ?_
    rw [Nat.zero_add] at hres
    refine hres.varSet hi hready ?_
    rcases hside with ⟨hv, hsign⟩ | ⟨hv, hsign⟩
    · exact Or.inl ⟨by omega, hsign⟩
    · exact Or.inr ⟨by omega, hsign⟩
  · have hstart : Setting s i v 0 s := by
      rcases hside with ⟨hv, -⟩ | ⟨hv, -⟩
      · exact setting_start hready hv.ge (hv.trans_le hle)
      · exact setting_start hready (hle.trans_eq hv.symm) hv.le
    refine (setRows_setting allow hi hinf s.w.workRows 0 s (Nat.zero_add _) hstart).mono fun res hres hok => ?_
    have hend := hres hok
    rw [Nat.zero_add] at hend
    exact hend.varSet

/-- The unknowns substituted so far are gone, and a solution of what is left gives one of `w`. -/
structure Settles (w : Work) (a : AcyState) : Prop where
  cols : a.s.w.workCols = w.workCols
  ready : a.s.Ready
  gone : ∀ i, a.substituted i = true → ∀ r < a.s.w.workRows, a.s.isSvpc r = false → (a.s.w.work r i : Int) = 0
  back : ∀ x, a.s.Solves x → ∃ x' : Nat → Int, w.Holds x'

/-- One more unknown is substituted. -/
theorem Settles.set {w : Work} {a : AcyState} (h : Settles w a) {i : Nat} {s' : Bounds} (hset : VarSet a.s i s')
    (subbedOne failedOne : Bool) :
    Settles w ⟨s', Function.update a.substituted i true, subbedOne, failedOne⟩ := by
  refine ⟨hset.cols.trans h.cols, hset.ready, fun j hj r hr hs => ?_, fun x hx => ?_⟩
  · have hr' : r < a.s.w.workRows := hset.rows ▸ hr
    by_cases hji : j = i
    · rw [hji]
      exact hset.gone r hr' hs
    · dsimp only at hj
      rw [Function.update_of_ne hji] at hj
      obtain ⟨hs₀, hzeros⟩ := hset.zeros r hr' hs
      exact hzeros j (h.gone j hj r hr' hs₀)
  · obtain ⟨t, ht⟩ := hset.back x hx
    exact h.back _ ht

theorem varSet_of_absent {s : Bounds} (hready : s.Ready) {i : Nat}
    (habsent : ∀ r < s.w.workRows, s.isSvpc r = false → (s.w.work r i : Int) = 0) : VarSet s i s := by
  refine ⟨rfl, rfl, hready, habsent, fun r _ hs => ⟨hs, fun _ hj => hj⟩, fun x hx => ⟨x i, ?_⟩⟩
  rw [Function.update_eq_self]
  exact hx

/-- What a round leaves: the substituted unknowns stay so, and one that is not counts as failed. -/
structure Round (w : Work) (vars : List Nat) (a a' : AcyState) : Prop where
  settles : Settles w a'
  keeps : ∀ i, a.substituted i = true → a'.substituted i = true
  done : a'.failedOne = false → a.failedOne = false ∧ ∀ i ∈ vars, a'.substituted i = true

theorem Round.cons {w : Work} {i : Nat} {rest : List Nat} {a a₁ a' : AcyState} (h : Round w rest a₁ a')
    (hkeeps : ∀ j, a.substituted j = true → a₁.substituted j = true)
    (hdone : a₁.failedOne = false → a.failedOne = false ∧ a₁.substituted i = true) : Round w (i :: rest) a a' := by
  refine ⟨h.settles, fun j hj => h.keeps j (hkeeps j hj), fun hfailed => ?_⟩
  obtain ⟨h1, h2⟩ := h.done hfailed
  obtain ⟨h3, h4⟩ := hdone h1
  exact ⟨h3, List.forall_mem_cons.2 ⟨h.keeps i h4, h2⟩⟩

theorem acyVars_round (allow : Bool) {w : Work} (vars : List Nat) : ∀ a : AcyState, (∀ i ∈ vars, i < w.workCols) →
    Settles w a → Yields Event.Fits (acyVars allow vars a) fun res => res.2 = false → Round w vars a res.1 := by
  induction vars with
  | nil =>
    intro a _ h
    exact yields_pure fun _ => ⟨h, fun _ hi => hi, fun hf => ⟨hf, fun i hi => absurd hi List.not_mem_nil⟩⟩
  | cons i rest ih =>
    intro a hvars h
    obtain ⟨hi, hrest⟩ := List.forall_mem_cons.1 hvars
    have hi' : i < a.s.w.workCols := h.cols.symm ▸ hi
    rw [acyVars]
    by_cases hsub : a.substituted i = true
    · rw [if_pos hsub]
      exact (ih a hrest h).mono fun res hres hok => (hres hok).cons (fun _ hj => hj) fun hf => ⟨hf, hsub⟩
    · rw [if_neg hsub]
      cases hleaf : varLeaf a.s i with
      | none =>
        have hfailed : Settles w { a with failedOne := true } := ⟨h.cols, h.ready, h.gone, h.back⟩
        refine (ih _ hrest hfailed).mono fun res hres hok => (hres hok).cons (fun _ hj => hj) fun hf => ?_
        exact absurd hf.symm Bool.false_ne_true
      | some sign =>
        obtain ⟨hpos, hneg, hzero⟩ := varLeaf_spec hleaf
        -- the rest of the round, after `i` is set
        have hnext : ∀ s' subbed, VarSet a.s i s' → Yields Event.Fits (acyVars allow rest
            ⟨s', Function.update a.substituted i true, subbed, a.failedOne⟩) fun res =>
            res.2 = false → Round w (i :: rest) a res.1 := by
          intro s' subbed hset
          refine (ih _ hrest (h.set hset _ _)).mono fun res hres hok => (hres hok).cons (fun j hj => ?_) fun hf => ⟨hf, ?_⟩
          · dsimp only
            by_cases hji : j = i
            · rw [hji, Function.update_self]
            · rw [Function.update_of_ne hji]
              exact hj
          · exact Function.update_self _ _ _
        have hset : ∀ v, Yields Event.Fits (acySetVar allow a.s i v) (fun res => res.2 = false → VarSet a.s i res.1) →
            Yields Event.Fits (do
              let res ← acySetVar allow a.s i v
              if res.2 then pure (⟨res.1, Function.update a.substituted i true, true, a.failedOne⟩, true)
              else acyVars allow rest ⟨res.1, Function.update a.substituted i true, true, a.failedOne⟩) fun res =>
              res.2 = false → Round w (i :: rest) a res.1 := by
          intro v hv
          refine hv.bind fun res hres => ?_
          cases hok : res.2 with
          | true =>
            rw [if_pos rfl]
            exact yields_pure fun hc => absurd hc.symm Bool.false_ne_true
          | false =>
            rw [if_neg Bool.false_ne_true]
            exact hnext res.1 true (hres hok)
        dsimp only
        by_cases hs1 : sign > 0
        · rw [if_pos hs1]
          exact hset _ (acySetVar_varSet allow h.ready hi' (Or.inl ⟨rfl, hpos hs1⟩))
        · rw [if_neg hs1]
          by_cases hs2 : sign < 0
          · rw [if_pos hs2]
            exact hset _ (acySetVar_varSet allow h.ready hi' (Or.inr ⟨rfl, hneg hs2⟩))
          · rw [if_neg hs2]
            exact hnext a.s a.subbedOne (varSet_of_absent h.ready (hzero (by omega)))

theorem Settles.exists_holds {w : Work} {a : AcyState} (h : Settles w a) (hall : ∀ i < w.workCols, a.substituted i = true) :
    ∃ x : Nat → Int, w.Holds x := by
  obtain ⟨x, hx⟩ := exists_within h.ready.ordered
  refine h.back x ⟨hx, fun r hr hs => ?_⟩
  have hlen := h.ready.several r hr hs
  obtain ⟨i, hi⟩ : ∃ i, i ∈ a.s.w.vars r := List.exists_mem_of_length_pos (by omega)
  obtain ⟨hcols, hne⟩ := mem_vars.1 hi
  exact absurd (h.gone i (hall i (h.cols ▸ hcols)) r hr hs) hne

theorem acyLoop_sound (allow : Bool) {w : Work} (k : Nat) : ∀ a : AcyState, Settles w a →
    (a.failedOne = false → ∀ i < w.workCols, a.substituted i = true) →
    Yields Event.Fits (acyLoop allow k a) fun res => res.1 = .consistent → ∃ x : Nat → Int, w.Holds x := by
  induction k with
  | zero => exact fun a _ _ => yields_ofOption fun b hb => absurd hb.symm (Option.some_ne_none _)
  | succ k ih =>
    intro a h hall
    rw [acyLoop]
    by_cases hgo : (a.subbedOne && a.failedOne) = true
    · rw [if_pos hgo]
      have hstart : Settles w { a with subbedOne := false, failedOne := false } := ⟨h.cols, h.ready, h.gone, h.back⟩
      have hvars : ∀ i ∈ List.range a.s.w.workCols, i < w.workCols := fun i hi => h.cols ▸ List.mem_range.1 hi
      refine (acyVars_round allow _ _ hvars hstart).bind fun res hres => ?_
      cases hok : res.2 with
      | true =>
        rw [if_pos rfl]
        refine yields_pure fun hc => ?_
        cases hc
      | false =>
        rw [if_neg Bool.false_ne_true]
        have hround := hres hok
        refine ih res.1 hround.settles fun hf i hi => (hround.done hf).2 i (List.mem_range.2 ?_)
        exact h.cols.symm ▸ hi
    · rw [if_neg hgo]
      cases hf : a.failedOne with
      | true =>
        refine yields_pure fun hc => ?_
        cases hc
      | false => exact yields_pure fun _ => h.exists_holds (hall hf)

/-- `Acyclic_Test` after `SVPC`. -/
theorem acyclicTest_sound (allow : Bool) {w : Work} {s : Bounds} (h : Bounded w w.workRows s) :
    Yields Event.Fits (acyclicTest allow s) fun res => res.1 = .consistent → ∃ x : Nat → Int, w.Holds x := by
  have hwork := h.work
  refine acyLoop_sound allow _ _ ⟨by rw [hwork], ⟨h.ordered, fun r hr hs => ?_⟩, fun i hi => absurd hi Bool.false_ne_true,
    fun x hx => ⟨x, (holds_iff w x).2 fun r hr => ?_⟩⟩ fun hf => absurd hf.symm Bool.false_ne_true
  · dsimp only at hr hs ⊢
    rw [hwork] at hr ⊢
    exact h.several r hr hs
  · cases hs : s.isSvpc r with
    | true => exact_mod_cast h.single r hr hs x hx.within
    | false =>
      have hrow := hx.rows r (hwork.symm ▸ hr) hs
      dsimp only at hrow
      rw [hwork] at hrow
      exact_mod_cast hrow

/-! ## The test returns -/

theorem setRows_returns {ok : Event → Prop} (allow : Bool) (i : Nat) (v : Int) (rows : List Nat) : ∀ s : Bounds,
    Meets ok (setRows allow i v rows s) fun res => res.1.w.workCols = s.w.workCols := by
  induction rows with
  | nil => exact fun s => meets_pure rfl
  | cons row rest ih =>
    intro s
    have hreport : ∀ e : Event, Meets ok (report e) fun _ => True := fun e => meets_report fun _ => trivial
    have hbounds : ∀ (s' : Bounds) (var : Nat), Meets ok (oneVarConsistent allow s' var row row) fun res =>
        res.1.w.workCols = s'.w.workCols := by
      intro s' var
      rw [oneVarConsistent, show row + 1 - row = 1 by omega, List.range'_one, oneVarRows]
      have hw : (s'.setBound row var).w.workCols = s'.w.workCols := by rw [setBound_w]
      dsimp only
      split_ifs
      · exact (hreport _).bind fun _ _ => meets_pure rfl
      · exact (hreport _).bind fun _ _ => meets_pure rfl
      · exact meets_pure hw
      · exact meets_pure hw
    have hconst : ∀ a const : Int, Meets ok (setConst a const v) fun _ => True := by
      intro a const
      unfold setConst
      split_ifs
      · exact (hreport _).bind fun _ _ => meets_pure trivial
      · exact (hreport _).bind fun _ _ => meets_pure trivial
      · exact (hreport _).bind fun _ _ => (hreport _).bind fun _ _ => meets_pure trivial
    rw [setRows]
    split_ifs
    · exact ih _
    · refine (hconst _ _).bind fun c _ => ?_
      dsimp only
      split_ifs
      · refine (hbounds _ _).bind fun res hres => ?_
        split_ifs
        · exact meets_pure hres
        · exact (ih _).mono fun res' hres' => hres'.trans hres
      · exact ih _
    · exact ih _

/-- What is left of the unknowns. -/
def unsubstituted (cols : Nat) (substituted : Nat → Bool) : Finset Nat :=
  (Finset.range cols).filter fun i => substituted i = false

/-- What a round does to the flags: none is taken back, and `subbedOne` means a new one. -/
structure Marks (vars : List Nat) (a a' : AcyState) : Prop where
  cols : a'.s.w.workCols = a.s.w.workCols
  keeps : ∀ i, a.substituted i = true → a'.substituted i = true
  subbed : a'.subbedOne = true → a.subbedOne = true ∨ ∃ i ∈ vars, a.substituted i = false ∧ a'.substituted i = true

theorem acyVars_marks {ok : Event → Prop} (allow : Bool) (vars : List Nat) : ∀ a : AcyState,
    Meets ok (acyVars allow vars a) fun res => Marks vars a res.1 := by
  induction vars with
  | nil => exact fun a => meets_pure ⟨rfl, fun _ hi => hi, Or.inl⟩
  | cons i rest ih =>
    intro a
    rw [acyVars]
    -- the rest of the round, from a state with the same flags
    have hsame : ∀ a₁ : AcyState, a₁.s.w.workCols = a.s.w.workCols → a₁.substituted = a.substituted →
        a₁.subbedOne = a.subbedOne → Meets ok (acyVars allow rest a₁) fun res => Marks (i :: rest) a res.1 := by
      intro a₁ hcols hsub hsubbed
      refine (ih a₁).mono fun res h => ⟨h.cols.trans hcols, fun j hj => h.keeps j (hsub ▸ hj), fun hs => ?_⟩
      rcases h.subbed hs with h1 | ⟨j, hj, hnot, hnow⟩
      · exact Or.inl (hsubbed ▸ h1)
      · exact Or.inr ⟨j, List.mem_cons_of_mem i hj, hsub ▸ hnot, hnow⟩
    cases hsub : a.substituted i with
    | true =>
      rw [if_pos rfl]
      exact hsame a rfl rfl rfl
    | false =>
      rw [if_neg Bool.false_ne_true]
      have hkeeps : ∀ j, a.substituted j = true → Function.update a.substituted i true j = true := by
        intro j hj
        by_cases hji : j = i
        · rw [hji, Function.update_self]
        · rw [Function.update_of_ne hji]
          exact hj
      have hmarked : ∀ a₁ : AcyState, a₁.s.w.workCols = a.s.w.workCols →
          a₁.substituted = Function.update a.substituted i true →
          Meets ok (acyVars allow rest a₁) fun res => Marks (i :: rest) a res.1 := by
        intro a₁ hcols hsub₁
        refine (ih a₁).mono fun res h => ⟨h.cols.trans hcols, fun j hj => h.keeps j ?_, fun _ => ?_⟩
        · rw [hsub₁]
          exact hkeeps j hj
        · refine Or.inr ⟨i, List.mem_cons_self, hsub, h.keeps i ?_⟩
          rw [hsub₁, Function.update_self]
      have hset : ∀ v, Meets ok (do
          let res ← acySetVar allow a.s i v
          if res.2 then pure (⟨res.1, Function.update a.substituted i true, true, a.failedOne⟩, true)
          else acyVars allow rest ⟨res.1, Function.update a.substituted i true, true, a.failedOne⟩) fun res =>
          Marks (i :: rest) a res.1 := by
        intro v
        refine (setRows_returns allow i v _ a.s).bind fun res hres => ?_
        split_ifs
        · exact meets_pure ⟨hres, hkeeps, fun _ => Or.inr ⟨i, List.mem_cons_self, hsub, Function.update_self _ _ _⟩⟩
        · exact hmarked _ hres rfl
      cases varLeaf a.s i with
      | none => exact hsame _ rfl rfl rfl
      | some sign =>
        dsimp only
        split_ifs
        · exact hset _
        · exact hset _
        · exact hmarked _ rfl rfl

theorem acyLoop_returns {ok : Event → Prop} (allow : Bool) (k : Nat) : ∀ a : AcyState,
    ((a.subbedOne && a.failedOne) = true → (unsubstituted a.s.w.workCols a.substituted).card < k) →
    Meets ok (acyLoop allow (k + 1) a) fun _ => True := by
  induction k with
  | zero =>
    intro a hfuel
    rw [acyLoop]
    split_ifs with hgo
    · exact absurd (hfuel hgo) (Nat.not_lt_zero _)
    all_goals exact meets_pure trivial
  | succ k ih =>
    intro a hfuel
    rw [acyLoop]
    split_ifs with hgo
    · refine (acyVars_marks allow _ _).bind fun res h => ?_
      split_ifs
      · exact meets_pure trivial
      · refine ih res.1 fun hgo' => ?_
        obtain ⟨hsubbed, -⟩ := Bool.and_eq_true_iff.1 hgo'
        rcases h.subbed hsubbed with hc | ⟨i, hi, hnot, hnow⟩
        · exact absurd hc Bool.false_ne_true
        · have hcols : res.1.s.w.workCols = a.s.w.workCols := h.cols
          have hlt : (unsubstituted res.1.s.w.workCols res.1.substituted).card <
              (unsubstituted a.s.w.workCols a.substituted).card := by
            refine Finset.card_lt_card (Finset.ssubset_iff_subset_ne.2 ⟨fun j hj => ?_, fun heq => ?_⟩)
            · obtain ⟨hj1, hj2⟩ := Finset.mem_filter.1 hj
              refine Finset.mem_filter.2 ⟨hcols ▸ hj1, Bool.eq_false_iff.2 fun hj3 => ?_⟩
              rw [h.keeps j hj3] at hj2
              exact absurd hj2.symm Bool.false_ne_true
            · have hmem : i ∈ unsubstituted res.1.s.w.workCols res.1.substituted := by
                rw [heq]
                exact Finset.mem_filter.2 ⟨Finset.mem_range.2 (List.mem_range.1 hi), hnot⟩
              rw [(Finset.mem_filter.1 hmem).2] at hnow
              exact absurd hnow Bool.false_ne_true
          have := hfuel hgo
          omega
    all_goals exact meets_pure trivial

/-- `Acyclic_Test` returns: each round but the last takes an unknown away. -/
theorem acyclicTest_returns (allow : Bool) (s : Bounds) : ∃ res, (acyclicTest allow s).value = some res := by
  have hcard : (unsubstituted s.w.workCols fun _ => false).card < s.w.workCols + 1 := by
    refine Nat.lt_succ_of_le ((Finset.card_filter_le _ _).trans_eq (Finset.card_range _))
  obtain ⟨res, hres, -⟩ := @acyLoop_returns (fun _ => True) allow (s.w.workCols + 1) ⟨s, fun _ => false, true, true⟩
    (fun _ => hcard) fun _ _ => trivial
  exact ⟨res, hres⟩

/-! ## The fast tests -/

/-- In a run without a bail-out whose 32-bit products and 64-bit constants fit, an answer `consistent` of `SVPC` or of
`Acyclic_Test` comes with an integer solution. -/
theorem fast_tests_sound (allow : Bool) (w : Work) (isSvpc : Nat → Bool) (hsvpc : Event.bail ∉ (svpc allow w isSvpc).log) :
    (∀ s, (svpc allow w isSvpc).value = some (.consistent, s) → ∃ x : Nat → Int, w.Holds x) ∧
    ∀ s s', (svpc allow w isSvpc).value = some (.inapplicable, s) →
      (acyclicTest allow s).value = some (.consistent, s') → (∀ e ∈ (acyclicTest allow s).log, e.Fits) →
      ∃ x : Nat → Int, w.Holds x := by
  have hok : ∀ e ∈ (svpc allow w isSvpc).log, e ≠ .bail := by
    intro e he hbail
    rw [hbail] at he
    exact hsvpc he
  have hsound := @svpc_sound (fun e => e ≠ .bail) (fun h => h rfl) allow w isSvpc hok
  refine ⟨fun s hs => (hsound _ hs).1 rfl, fun s s' hs hacy hfits => ?_⟩
  exact acyclicTest_sound allow ((hsound _ hs).2 rfl) hfits _ hacy rfl

/-- `1 ≤ x`, `2 ≤ y` and `3x + y ≤ 10`. -/
theorem fast_tests_sound_triangle : ∃ x : Nat → Int, (Work.ofLes 2 [([3, 1], 10), ([-1, 0], -1), ([0, -1], -2)]).Holds x := by
  have hrun : ((svpc true (Work.ofLes 2 [([3, 1], 10), ([-1, 0], -1), ([0, -1], -2)]) fun _ => false).value.bind fun res =>
      (acyclicTest true res.2).value.map fun res' => (res.1, res'.1, (acyclicTest true res.2).log)) =
      some (.inapplicable, .consistent, [.product 3, .const 7]) := by decide
  obtain ⟨⟨r, s⟩, hsvpc, hmap⟩ := Option.bind_eq_some_iff.1 hrun
  obtain ⟨⟨r', s'⟩, hacy, heq⟩ := Option.map_eq_some_iff.1 hmap
  rw [Prod.mk.injEq, Prod.mk.injEq] at heq
  obtain ⟨rfl, rfl, hlog⟩ := heq
  refine (fast_tests_sound true _ (fun _ => false) (by decide)).2 s s' hsvpc hacy ?_
  rw [hlog]
  refine List.forall_mem_cons.2 ⟨?_, List.forall_mem_singleton.2 ?_⟩
  · show InInt32 3
    decide
  · show InInt64 7
    decide

/-- `65536 ≤ x`, `0 ≤ y` and `49152 x + y ≤ 0`: the product of the coefficient and the bound wraps. -/
theorem acyclicTest_wraps : ∃ s s', (svpc true (Work.ofLes 2 [([49152, 1], 0), ([-1, 0], -65536), ([0, -1], 0)])
      fun _ => false).value = some (.inapplicable, s) ∧
    Event.bail ∉ (svpc true (Work.ofLes 2 [([49152, 1], 0), ([-1, 0], -65536), ([0, -1], 0)]) fun _ => false).log ∧
    (acyclicTest true s).value = some (.consistent, s') ∧ Event.bail ∉ (acyclicTest true s).log ∧
    ¬ ∃ x : Nat → Int, (Work.ofLes 2 [([49152, 1], 0), ([-1, 0], -65536), ([0, -1], 0)]).Holds x := by
  have hrun : ((svpc true (Work.ofLes 2 [([49152, 1], 0), ([-1, 0], -65536), ([0, -1], 0)]) fun _ => false).value.bind
      fun res => (acyclicTest true res.2).value.map fun res' =>
        (res.1, res'.1, decide (Event.bail ∉ (acyclicTest true res.2).log))) =
      some (.inapplicable, .consistent, true) := by decide
  obtain ⟨⟨r, s⟩, hsvpc, hmap⟩ := Option.bind_eq_some_iff.1 hrun
  obtain ⟨⟨r', s'⟩, hacy, heq⟩ := Option.map_eq_some_iff.1 hmap
  rw [Prod.mk.injEq, Prod.mk.injEq] at heq
  obtain ⟨rfl, rfl, hlog⟩ := heq
  refine ⟨s, s', hsvpc, by decide, hacy, of_decide_eq_true hlog, ?_⟩
  rintro ⟨x, hx⟩
  have hrow : ∀ r < 3, dot 2 (fun j => ((Work.ofLes 2 [([49152, 1], 0), ([-1, 0], -65536), ([0, -1], 0)]).work r j : Int)) x ≤
      (Work.ofLes 2 [([49152, 1], 0), ([-1, 0], -65536), ([0, -1], 0)]).workConst r := (holds_iff _ x).1 hx
  simp only [dot, Finset.sum_range_succ, Finset.sum_range_zero, zero_add] at hrow
  have h0 : (49152 : Int) * x 0 + 1 * x 1 ≤ 0 := hrow 0 (by decide)
  have h1 : (-1 : Int) * x 0 + 0 * x 1 ≤ -65536 := hrow 1 (by decide)
  have h2 : (0 : Int) * x 0 + -1 * x 1 ≤ 0 := hrow 2 (by decide)
  omega

end Path64.Soe

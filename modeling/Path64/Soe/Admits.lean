import Path64.Soe.Acyclic

/-!
# What the fast tests keep

`SVPC` and `Acyclic_Test` of `be/lno/soe.cxx` on a system that has integer solutions: each solution stays one of the rows in the
arrays and stays within the bounds, and so neither test finds an inconsistency.

* `Event.Exact` : the values that nothing checks fit; a bail-out does no harm here;
* `Bounds.Admits` : the rows hold at `x`, and `x` is within the bounds;
* `svpc_admits`, `acyclicTest_admits` : the two tests.
-/

namespace Path64.Soe

open Lib Logged

/-- The log entries that keep the rows exact. -/
def Event.Exact : Event → Prop
  | .bail => True
  | .product x => InInt32 x
  | .const x => InInt64 x

/-- The rows hold at `x`, which is within the bounds. -/
structure Bounds.Admits (s : Bounds) (x : Nat → Int) : Prop where
  holds : ∀ r < s.w.workRows, dot s.w.workCols (fun j => s.w.work r j) x ≤ s.w.workConst r
  within : s.Within x
  ordered : s.Ordered

/-- The same rows, and bounds that still hold at `x`. -/
structure Bounds.Narrows (s s' : Bounds) (x : Nat → Int) : Prop where
  w : s'.w = s.w
  isSvpc : s'.isSvpc = s.isSvpc
  within : s'.Within x
  ordered : s'.Ordered

variable {x : Nat → Int}

theorem Bounds.Admits.mark {s : Bounds} (h : s.Admits x) (isSvpc : Nat → Bool) : Bounds.Admits { s with isSvpc := isSvpc } x :=
  ⟨h.holds, h.within, ⟨h.ordered.le, h.ordered.lower, h.ordered.upper⟩⟩

theorem Bounds.Narrows.admits {s s' : Bounds} (h : s.Narrows s' x) (hs : s.Admits x) : s'.Admits x :=
  ⟨h.w ▸ hs.holds, h.within, h.ordered⟩

theorem Bounds.Within.inOrder {s : Bounds} (hx : s.Within x) (hl : ∀ j, int32Min ≤ s.lower j ∧ s.lower j < int32Max)
    (hu : ∀ j, int32Min < s.upper j ∧ s.upper j ≤ int32Max) : s.Ordered := by
  refine ⟨fun j => ?_, hl, hu⟩
  obtain ⟨h1, h2⟩ := hx j
  by_cases hmin : s.lower j = int32Min
  · have := (hu j).1
    omega
  · by_cases hmax : s.upper j = int32Max
    · have := (hl j).2
      omega
    · exact (h1 hmin).trans (h2 hmax)

/-! ## One inequality on one unknown -/

theorem narrows_update {s : Bounds} (hs : s.Ordered) (hx : s.Within x) (var : Nat) {l u : Int}
    (hl : int32Min ≤ l ∧ l < int32Max) (hu : int32Min < u ∧ u ≤ int32Max)
    (hvar : (l ≠ int32Min → l ≤ x var) ∧ (u ≠ int32Max → x var ≤ u)) :
    s.Narrows { s with lower := Function.update s.lower var l, upper := Function.update s.upper var u } x := by
  have hwithin : Bounds.Within { s with lower := Function.update s.lower var l, upper := Function.update s.upper var u } x := by
    intro j
    rcases eq_or_ne j var with rfl | hj
    · simpa using hvar
    · simpa [hj] using hx j
  refine ⟨rfl, rfl, hwithin, hwithin.inOrder ?_ ?_⟩
  · exact (Function.forall_update_iff s.lower fun _ v => int32Min ≤ v ∧ v < int32Max).2 ⟨hl, fun j _ => hs.lower j⟩
  · exact (Function.forall_update_iff s.upper fun _ v => int32Min < v ∧ v ≤ int32Max).2 ⟨hu, fun j _ => hs.upper j⟩

/-- An inequality that holds at `x` gives bounds that do. -/
theorem setBound_narrows {s : Bounds} (hs : s.Ordered) (hx : s.Within x) {i var : Nat} (hc : SmallConst (s.w.workConst i))
    (hrow : (s.w.work i var : Int) * x var ≤ s.w.workConst i) : s.Narrows (s.setBound i var) x := by
  have hsame : s.Narrows s x := ⟨rfl, rfl, hx, hs⟩
  have hlimits : int32Min = -2 ^ 31 ∧ int32Max = 2 ^ 31 - 1 := by decide
  rw [Bounds.setBound]
  rcases lt_trichotomy (s.w.work i var : Int) 0 with hneg | hzero | hpos
  · rw [if_neg (not_lt.2 hneg.le), if_pos hneg]
    have hval := lowerFrom_eq hneg (s.w.work i var).2 hc
    have hfloor := floor_small (neg_pos.2 hneg) hc
    have h := narrows_update hs hx var (by rw [hval]; omega) (hs.upper var)
      ⟨fun _ => (lowerFrom_le_iff hneg (s.w.work i var).2 hc _).2 hrow, (hx var).2⟩
    rw [Function.update_eq_self] at h
    split_ifs
    · exact h
    · exact hsame
  · rw [hzero, if_neg (lt_irrefl 0), if_neg (lt_irrefl 0)]
    rw [hzero, zero_mul] at hrow
    rw [if_neg (not_lt.2 hrow)]
    exact hsame
  · rw [if_pos hpos]
    have hval := upperFrom_eq hpos hc
    have hfloor := floor_small hpos hc
    have h := narrows_update hs hx var (hs.lower var) (by rw [hval]; omega)
      ⟨(hx var).1, fun _ => (le_upperFrom_iff hpos hc _).2 hrow⟩
    rw [Function.update_eq_self] at h
    split_ifs
    · exact h
    · exact hsame

theorem oneVarRows_narrows {ok : Event → Prop} {var : Nat} (rows : List Nat) : ∀ s : Bounds,
    Meets ok (oneVarRows var rows s) fun res => ∀ x : Nat → Int, s.Ordered → s.Within x →
      (∀ i ∈ rows, (s.w.work i var : Int) * x var ≤ s.w.workConst i) → res.2 = true ∧ s.Narrows res.1 x := by
  induction rows with
  | nil => exact fun s => meets_pure fun x hs hx _ => ⟨rfl, rfl, rfl, hx, hs⟩
  | cons i rest ih =>
    intro s
    rw [oneVarRows]
    dsimp only
    split_ifs with hbig hgt
    · exact (meets_report (R := fun _ => True) fun _ => trivial).bind fun _ _ =>
        meets_pure fun x hs hx _ => ⟨rfl, rfl, rfl, hx, hs⟩
    all_goals
      rw [not_or, not_le, not_le] at hbig
      have hset : ∀ x : Nat → Int, s.Ordered → s.Within x →
          (∀ i' ∈ i :: rest, (s.w.work i' var : Int) * x var ≤ s.w.workConst i') → s.Narrows (s.setBound i var) x :=
        fun x hs hx hrows => setBound_narrows hs hx ⟨hbig.2, hbig.1⟩ (hrows i List.mem_cons_self)
    · exact meets_pure fun x hs hx hrows => absurd hgt (not_lt.2 ((hset x hs hx hrows).ordered.le var))
    · refine (ih _).mono fun res hres x hs hx hrows => ?_
      have h := hset x hs hx hrows
      obtain ⟨hok, hrest⟩ := hres x h.ordered h.within (h.w.symm ▸ (List.forall_mem_cons.1 hrows).2)
      exact ⟨hok, hrest.w.trans h.w, hrest.isSvpc.trans h.isSvpc, hrest.within, hrest.ordered⟩

theorem oneVarConsistent_narrows {ok : Event → Prop} (allow : Bool) (s : Bounds) (var first last : Nat) :
    Meets ok (oneVarConsistent allow s var first last) fun res => ∀ x, s.Admits x →
      (∀ i, first ≤ i → i ≤ last → (s.w.work i var : Int) * x var ≤ s.w.workConst i) →
      res.2 = true ∧ s.Narrows res.1 x := by
  rw [oneVarConsistent]
  split_ifs
  · exact (meets_report (R := fun _ => True) fun _ => trivial).bind fun _ _ =>
      meets_pure fun x h _ => ⟨rfl, rfl, rfl, h.within, h.ordered⟩
  · refine (oneVarRows_narrows _ s).mono fun res hres x h hrows => hres x h.ordered h.within fun i hi => ?_
    obtain ⟨h1, h2⟩ := List.mem_range'_1.1 hi
    exact hrows i h1 (by omega)

theorem oneVarConsistent_single {ok : Event → Prop} (allow : Bool) {s : Bounds} {i : Nat}
    (hone : (s.w.vars i).length = 1) : Meets ok (oneVarConsistent allow s ((s.w.vars i).getLastD 0) i i) fun res =>
      ∀ x, i < s.w.workRows → s.Admits x → res.2 = true ∧ s.Narrows res.1 x := by
  refine (oneVarConsistent_narrows allow s _ i i).mono fun res hres x hi h => hres x h fun r h1 h2 => ?_
  obtain rfl : r = i := by omega
  rw [← dot_of_vars (vars_eq_singleton hone)]
  exact h.holds r hi

/-! ## `SVPC` -/

theorem svpcRows_admits {ok : Event → Prop} (allow : Bool) (k : Nat) : ∀ (i : Nat) (applicable : Bool) (s : Bounds),
    Meets ok (svpcRows allow k i applicable s) fun res => ∀ x, i + k = s.w.workRows → s.Admits x →
      res.1 ≠ .inconsistent ∧ res.2.w = s.w ∧ res.2.Admits x := by
  induction k with
  | zero =>
    refine fun i applicable s => meets_pure fun x _ h => ⟨?_, rfl, h⟩
    dsimp only
    split_ifs <;> exact SvpcResult.noConfusion
  | succ k ih =>
    intro i applicable s
    have hnext : ∀ (s' : Bounds) (a : Bool) (v : Nat → Bool),
        (∀ x, i + (k + 1) = s.w.workRows → s.Admits x → s.Narrows s' x) →
        Meets ok (svpcRows allow k (i + 1) a { s' with isSvpc := v }) fun res => ∀ x, i + (k + 1) = s.w.workRows → s.Admits x →
          res.1 ≠ .inconsistent ∧ res.2.w = s.w ∧ res.2.Admits x := fun s' a v hs' =>
      (ih (i + 1) a _).mono fun res hres x hik h => by
        have hw := (hs' x hik h).w
        obtain ⟨h1, h2, h3⟩ := hres x (by dsimp only; rw [hw]; omega) (((hs' x hik h).admits h).mark v)
        exact ⟨h1, h2.trans hw, h3⟩
    have hsame : ∀ x, s.Admits x → s.Narrows s x := fun x h => ⟨rfl, rfl, h.within, h.ordered⟩
    rw [svpcRows]
    dsimp only
    split_ifs with hzero hneg hone
    · refine meets_pure fun x hik h => ?_
      have hconst := h.holds i (by omega)
      rw [dot_of_vars_nil (List.length_eq_zero_iff.1 hzero)] at hconst
      exact absurd hneg (not_lt.2 hconst)
    · exact hnext s _ _ fun x _ h => hsame x h
    · have hlen := of_decide_eq_true hone
      refine (oneVarConsistent_single allow (by omega)).bind fun res hres => ?_
      split_ifs with hno
      · refine meets_pure fun x hik h => ?_
        rw [(hres x (by omega) h).1] at hno
        exact absurd hno (by decide)
      · exact hnext res.1 _ _ fun x hik h => (hres x (by omega) h).2
    · exact hnext s _ _ fun x _ h => hsame x h

/-- A system with an integer solution is not found inconsistent, and the solution is within the bounds. -/
theorem svpc_admits {ok : Event → Prop} (allow : Bool) (w : Work) (isSvpc : Nat → Bool) :
    Meets ok (svpc allow w isSvpc) fun res => ∀ x : Nat → Int, w.Holds x →
      res.1 ≠ .inconsistent ∧ res.2.w = w ∧ res.2.Admits x := by
  have hlt : int32Min < int32Max := by decide
  refine (svpcRows_admits allow w.workRows 0 true _).mono fun res hres x hx =>
    hres x (Nat.zero_add _) ⟨(holds_iff w x).1 hx, fun j => ?_, ?_⟩
  · exact ⟨fun hne => absurd rfl hne, fun hne => absurd rfl hne⟩
  · exact ⟨fun _ => hlt.le, fun _ => ⟨le_rfl, hlt⟩, fun _ => ⟨hlt, le_rfl⟩⟩

/-! ## Setting an unknown -/

theorem setConst_of_exact (a const v : Int) : Yields Event.Exact (setConst a const v) fun c => c = const - a * v := by
  refine (setConst_exact a const v).of_log fun e he hexact => ?_
  cases e with
  | bail =>
    -- no bail-out is logged here
    unfold setConst at he
    split_ifs at he <;> simp [Bind.bind, andThen, report, pure] at he
  | product v => exact hexact
  | const v => exact hexact

/-- The rows left push unknown `i` towards `val`, which is finite. -/
def Bounds.Pushed (s : Bounds) (i : Nat) (val : Int) (x : Nat → Int) : Prop :=
  ∀ r < s.w.workRows, s.isSvpc r = false → (s.w.work r i : Int) * val ≤ s.w.work r i * x i

theorem zeroRow_admits {s : Bounds} (h : s.Admits x) (row : Nat) (isSvpc : Nat → Bool) :
    Bounds.Admits { s with w := s.w.zeroRow row, isSvpc := isSvpc } x := by
  refine ⟨fun r hr => ?_, h.within, ⟨h.ordered.le, h.ordered.lower, h.ordered.upper⟩⟩
  by_cases hrr : r = row
  · have hzero : dot s.w.workCols (fun j => ((s.w.zeroRow row).work r j : Int)) x = 0 :=
      dot_eq_zero fun j hj => congrArg Subtype.val (if_pos ⟨hrr, hj⟩)
    have hconst : (s.w.zeroRow row).workConst r = 0 := by
      rw [hrr]
      exact Function.update_self _ _ _
    exact (hzero.trans hconst.symm).le
  · have hwork : (s.w.zeroRow row).work r = s.w.work r := by
      funext c
      exact if_neg fun hc => hrr hc.1
    have hconst : (s.w.zeroRow row).workConst r = s.w.workConst r := Function.update_of_ne hrr _ _
    show dot s.w.workCols (fun j => ((s.w.zeroRow row).work r j : Int)) x ≤ (s.w.zeroRow row).workConst r
    rw [hwork, hconst]
    exact h.holds r hr

theorem setRow_admits {s : Bounds} (h : s.Admits x) {row i : Nat} (hrow : row < s.w.workRows) (hi : i < s.w.workCols) {val c : Int}
    (hpush : (s.w.work row i : Int) * val ≤ s.w.work row i * x i) (hc : c = s.w.workConst row - s.w.work row i * val) :
    Bounds.Admits { s with w := { s.w with
      workConst := Function.update s.w.workConst row c
      work := Function.update s.w.work row (Function.update (s.w.work row) i (MInt32.ofInt 0)) } } x := by
  refine ⟨fun r hr => ?_, h.within, ⟨h.ordered.le, h.ordered.lower, h.ordered.upper⟩⟩
  dsimp only
  by_cases hrr : r = row
  · rw [hrr, Function.update_self, Function.update_self]
    have hcoeffs : (fun j => ((Function.update (s.w.work row) i (MInt32.ofInt 0) j : MInt32) : Int)) =
        Function.update (fun j => (s.w.work row j : Int)) i 0 := by
      funext j
      by_cases hj : j = i
      · rw [hj, Function.update_self, Function.update_self]
        rfl
      · rw [Function.update_of_ne hj, Function.update_of_ne hj]
    rw [hcoeffs, dot_update_coeff hi]
    have hold := h.holds row hrow
    simp only [Int.cast_id]
    linarith
  · rw [Function.update_of_ne hrr, Function.update_of_ne hrr]
    exact h.holds r hr

theorem setRows_admits (allow : Bool) {i : Nat} {val : Int} (rows : List Nat) : ∀ s : Bounds, (∀ r ∈ rows, r < s.w.workRows) →
    i < s.w.workCols → s.Admits x → (val ≠ int32Max → val ≠ int32Min → s.Pushed i val x) →
    Yields Event.Exact (setRows allow i val rows s) fun res => res.2 = false ∧ res.1.Admits x := by
  induction rows with
  | nil => exact fun s _ _ h _ => yields_pure ⟨rfl, h⟩
  | cons row rest ih =>
    intro s hrows hi h hpush
    obtain ⟨hrow, hrest⟩ := List.forall_mem_cons.1 hrows
    rw [setRows]
    by_cases hcond : (!s.isSvpc row) = true ∧ (s.w.work row i : Int) ≠ 0
    swap
    · rw [if_neg hcond]
      exact ih s hrest hi h hpush
    rw [if_pos hcond]
    have hleft : s.isSvpc row = false := by simpa using hcond.1
    by_cases hinf : val = int32Max ∨ val = int32Min
    · rw [if_pos hinf]
      refine ih _ hrest hi (zeroRow_admits h row _) fun h1 h2 => ?_
      exact (hinf.elim h1 h2).elim
    · rw [if_neg hinf]
      rw [not_or] at hinf
      have hpush' := hpush hinf.1 hinf.2
      refine (setConst_of_exact _ _ _).bind fun c hc => ?_
      have hset := setRow_admits h hrow hi (hpush' row hrow hleft) hc
      -- the other rows, and the marks, are as before
      have hstill : ∀ s' : Bounds, s'.w = { s.w with
          workConst := Function.update s.w.workConst row c
          work := Function.update s.w.work row (Function.update (s.w.work row) i (MInt32.ofInt 0)) } →
          (∀ r, r ≠ row → s'.isSvpc r = s.isSvpc r) → s'.Pushed i val x := by
        intro s' hw hmarks r hr hs'
        rw [hw] at hr ⊢
        dsimp only
        by_cases hrr : r = row
        · rw [hrr, Function.update_self, Function.update_self]
          show (0 : Int) * val ≤ 0 * x i
          rw [zero_mul, zero_mul]
        · rw [Function.update_of_ne hrr]
          exact hpush' r hr ((hmarks r hrr).symm.trans hs')
      dsimp only
      split_ifs with hone
      · refine (oneVarConsistent_single allow hone).yields.bind fun res hsingle => ?_
        have hres := hsingle x hrow hset
        rw [hres.1, if_neg (by decide)]
        have hw := hres.2.w
        refine ih _ ?_ ?_ ((hres.2.admits hset).mark _) fun _ _ => hstill _ hw fun r hr => ?_
        · dsimp only
          rw [hw]
          exact hrest
        · dsimp only
          rw [hw]
          exact hi
        · dsimp only
          rw [Function.update_of_ne hr, hres.2.isSvpc]
      · exact ih _ hrest hi hset fun _ _ => hstill _ rfl fun _ _ => rfl

/-- `Acy_Set_Var` with the bound of a leaf. -/
theorem acySetVar_admits (allow : Bool) {s : Bounds} (h : s.Admits x) {i : Nat} (hi : i < s.w.workCols) {val : Int}
    (hside : (val = s.lower i ∧ ∀ r < s.w.workRows, s.isSvpc r = false → 0 ≤ (s.w.work r i : Int)) ∨
      (val = s.upper i ∧ ∀ r < s.w.workRows, s.isSvpc r = false → (s.w.work r i : Int) ≤ 0)) :
    Yields Event.Exact (acySetVar allow s i val) fun res => res.2 = false ∧ res.1.Admits x := by
  refine setRows_admits allow _ s (fun r hr => List.mem_range.1 hr) hi h fun hmax hmin r hr hleft => ?_
  rcases hside with ⟨hval, hsign⟩ | ⟨hval, hsign⟩
  · exact mul_le_mul_of_nonneg_left (hval ▸ (h.within i).1 (hval ▸ hmin)) (hsign r hr hleft)
  · exact mul_le_mul_of_nonpos_left (hval ▸ (h.within i).2 (hval ▸ hmax)) (hsign r hr hleft)

/-! ## `Acyclic_Test` -/

theorem acyVars_admits (allow : Bool) (vars : List Nat) : ∀ a : AcyState, (∀ i ∈ vars, i < a.s.w.workCols) → a.s.Admits x →
    Yields Event.Exact (acyVars allow vars a) fun res => res.2 = false ∧ res.1.s.Admits x := by
  induction vars with
  | nil => exact fun a _ h => yields_pure ⟨rfl, h⟩
  | cons i rest ih =>
    intro a hvars h
    obtain ⟨hi, hrest⟩ := List.forall_mem_cons.1 hvars
    rw [acyVars]
    by_cases hsub : a.substituted i = true
    · rw [if_pos hsub]
      exact ih a hrest h
    · rw [if_neg hsub]
      cases hleaf : varLeaf a.s i with
      | none => exact ih _ hrest h
      | some sign =>
        obtain ⟨hpos, hneg, -⟩ := varLeaf_spec hleaf
        have hset : ∀ v, Yields Event.Exact (acySetVar allow a.s i v) (fun res => res.2 = false ∧ res.1.Admits x) →
            Yields Event.Exact (do
              let res ← acySetVar allow a.s i v
              if res.2 then pure (⟨res.1, Function.update a.substituted i true, true, a.failedOne⟩, true)
              else acyVars allow rest ⟨res.1, Function.update a.substituted i true, true, a.failedOne⟩) fun res =>
              res.2 = false ∧ res.1.s.Admits x := by
          intro v hv
          have hcols : Yields Event.Exact (acySetVar allow a.s i v) fun res => res.1.w.workCols = a.s.w.workCols :=
            (setRows_returns allow i v _ a.s).yields
          refine Yields.bind (fun hlog res hres => And.intro (hv hlog res hres) (hcols hlog res hres)) fun res hres => ?_
          rw [hres.1.1, if_neg Bool.false_ne_true]
          exact ih _ (fun j hj => hres.2.symm ▸ hrest j hj) hres.1.2
        dsimp only
        split_ifs with hs1 hs2
        · exact hset _ (acySetVar_admits allow h hi (Or.inl ⟨rfl, hpos hs1⟩))
        · exact hset _ (acySetVar_admits allow h hi (Or.inr ⟨rfl, hneg hs2⟩))
        · exact ih _ hrest h

theorem acyLoop_admits (allow : Bool) (k : Nat) : ∀ a : AcyState, a.s.Admits x →
    Yields Event.Exact (acyLoop allow k a) fun res =>
      res.1 ≠ .inconsistent ∧ res.2.w.workCols = a.s.w.workCols ∧ res.2.Admits x := by
  induction k with
  | zero => exact fun a _ => yields_ofOption fun b hb => absurd hb.symm (Option.some_ne_none _)
  | succ k ih =>
    intro a h
    rw [acyLoop]
    split_ifs with hgo hfailed
    · have hround : Yields Event.Exact (acyVars allow (List.range a.s.w.workCols) { a with subbedOne := false, failedOne := false })
          fun res => (res.2 = false ∧ res.1.s.Admits x) ∧ res.1.s.w.workCols = a.s.w.workCols := fun hlog res hres =>
        ⟨acyVars_admits allow _ { a with subbedOne := false, failedOne := false } (fun i hi => List.mem_range.1 hi) h hlog res hres,
          ((acyVars_marks allow _ _).yields hlog res hres).cols⟩
      refine hround.bind fun res hres => ?_
      rw [hres.1.1, if_neg Bool.false_ne_true]
      exact (ih res.1 hres.1.2).mono fun r hr => ⟨hr.1, hr.2.1.trans hres.2, hr.2.2⟩
    · exact yields_pure ⟨AcyResult.noConfusion, rfl, h⟩
    · exact yields_pure ⟨AcyResult.noConfusion, rfl, h⟩

/-- `Acyclic_Test` from bounds that a solution is within. -/
theorem acyclicTest_admits (allow : Bool) {s : Bounds} (h : s.Admits x) :
    Yields Event.Exact (acyclicTest allow s) fun res =>
      res.1 ≠ .inconsistent ∧ res.2.w.workCols = s.w.workCols ∧ res.2.Admits x :=
  acyLoop_admits allow _ _ h

end Path64.Soe

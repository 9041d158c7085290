import Path64.Soe.Admits
import Path64.Soe.Gcds

/-!
# The consistency test

`Is_Consistent` of `be/lno/soe.cxx`: the equalities are eliminated, the fast tests are tried, the rows are divided by their greatest
common divisors, and all unknowns but the last go by Fourier-Motzkin elimination. Where a step gives up the answer is `TRUE`.

* `Work.gcdNormalize`, `projectVars`, `isConsistentWork`, `System.isConsistent` : the test;
* `TestEvent.Exact` : what it forms unchecked fits, and no divisor is negative;
* `gcdNormalize_holds` : the division keeps the integer points;
* `isConsistent_sound` : a system found inconsistent has no integer solution.
-/

namespace Path64.Soe

open Lib Logged

/-- What the steps log: those of the elimination and the fast tests, a divisor, and what `Project` forms. -/
inductive TestEvent where
  | eq (e : EqEvent)
  | fast (e : Event)
  | gcd (g : Int)
  | fourier (f : Formed)

/-! ## The source -/

/-- `g`: folded over the row from its first coefficient that is not zero. -/
def Work.rowDivisor (w : Work) (i : Nat) : Int :=
  match (List.range w.workCols).dropWhile fun j => (w.work i j : Int) == 0 with
  | [] => 0
  | j :: rest => rest.foldl (fun g j => gcd32 g (abs32 (w.work i j))) (abs32 (w.work i j))

/-- A row divided by `g`, the constant rounded down. -/
def Work.divideLe (w : Work) (i : Nat) (g : Int) : Work :=
  { w with
    work := fun r c => if r = i ∧ c < w.workCols then MInt32.ofInt ((w.work i c : Int).tdiv g) else w.work r c
    workConst := Function.update w.workConst i
      (if w.workConst i > 0 ∨ (w.workConst i).tmod g = 0 then (w.workConst i).tdiv g else (w.workConst i).tdiv g - 1) }

/-- The loop of `Gcd_Normalize` over the given rows. -/
def normalizeRows : List Nat → Work → Logged TestEvent Work
  | [], w => pure w
  | i :: rest, w => do
    report (.gcd (w.rowDivisor i))
    normalizeRows rest (if w.rowDivisor i ≠ 0 ∧ w.rowDivisor i ≠ 1 then w.divideLe i (w.rowDivisor i) else w)

/-- `Gcd_Normalize`. -/
def Work.gcdNormalize (w : Work) : Logged TestEvent Work := normalizeRows (List.range w.workRows) w

/-- The loop of `Is_Consistent_Work` over `k` unknowns from `i` on, with the answer where it returns. -/
def projectVars : Nat → Nat → Work → Logged TestEvent (Work × Option Bool)
  | 0, _, w => pure (w, none)
  | k + 1, i, w => do
    match ← attempt ((w.project i i).relabel .fourier) with
    | none => pure (w, some true)
    | some (w, true) => pure (w, some false)
    | some (w, false) => projectVars k (i + 1) w

/-- `Is_Consistent_Work` after the fast tests; `s` holds the bounds that they left. -/
def fourierTest (allow : Bool) (s : Bounds) : Logged TestEvent Bool := do
  let w ← s.w.gcdNormalize
  match ← projectVars (w.workCols - 1) 0 w with
  | (_, some answer) => pure answer
  | (w, none) =>
    if w.workRows = 0 then pure true
    else do
      let res ← (oneVarConsistent allow { s with w := w } (w.workCols - 1) 0 (w.workRows - 1)).relabel .fast
      pure res.2

/-- `Is_Consistent_Work`. -/
def isConsistentWork (allow : Bool) (w : Work) (isSvpc : Nat → Bool) : Logged TestEvent Bool := do
  match ← (svpc allow w isSvpc).relabel .fast with
  | (.consistent, _) => pure true
  | (.inconsistent, _) => pure false
  | (.inapplicable, s) =>
    match ← (acyclicTest allow s).relabel .fast with
    | (.consistent, _) => pure true
    | (.inconsistent, _) => pure false
    | (.inapplicable, s) => fourierTest allow s

/-- `Copy_To_Work ()`. -/
def System.copyAllToWork (s : System) (w : Work) : Except Halt Work := do
  require .gaveUp (s.vars ≤ soeMaxWorkCols)
  let w := { w with workCols := s.vars, workRows := 0 }
  if s.eqnsLe = 0 then return w else s.copyToWork w 0 (s.eqnsLe - 1)

/-- The turns that the elimination of the equalities can take. -/
def maxTurns : Nat := 2 * soeMaxWorkCols + soeMaxWorkRowsEq + 1

/-- `Is_Consistent`. -/
def System.isConsistent (allow : Bool) (s : System) (w : Work) (isSvpc : Nat → Bool) : Logged TestEvent Bool :=
  match s.copyAllToWork w with
  | .error _ => pure true
  | .ok w => do
    match ← (w.subInEqual s.eqs maxTurns).relabel .eq with
    | .failed => pure true
    | .inconsistent _ => pure false
    | .done w => isConsistentWork allow w isSvpc

/-- Room, values that fit and divisors that are not negative. -/
def TestEvent.Exact : TestEvent → Prop
  | .eq e => e.Fits
  | .fast e => e.Exact
  | .gcd g => 0 ≤ g
  | .fourier f => f.Fits

/-! ## Dividing rows -/

section Divisor

variable {w : Work} {i : Nat}

theorem dvd_foldl_gcd32 (cols : List Nat) : ∀ g, InInt32 g → ∀ d : Int,
    d ∣ cols.foldl (fun g j => gcd32 g (abs32 (w.work i j))) g ↔ d ∣ g ∧ ∀ j ∈ cols, d ∣ (w.work i j : Int) := by
  induction cols with
  | nil => exact fun g _ d => by simp
  | cons j rest ih =>
    intro g hg d
    rw [List.foldl_cons, ih _ (inInt32_gcd32 _ _), dvd_gcd32 hg (inInt32_abs32 _), dvd_abs32 (w.work i j).2,
      List.forall_mem_cons, and_assoc]

theorem rowDivisor_dvd {j : Nat} (hj : j < w.workCols) : w.rowDivisor i ∣ (w.work i j : Int) := by
  have hsplit := List.takeWhile_append_dropWhile (p := fun j => (w.work i j : Int) == 0) (l := List.range w.workCols)
  have hmem := List.mem_range.2 hj
  rw [← hsplit] at hmem
  have hbefore : ∀ k ∈ (List.range w.workCols).takeWhile fun j => (w.work i j : Int) == 0, (w.work i k : Int) = 0 :=
    fun k hk => beq_iff_eq.1 (List.mem_takeWhile_imp (p := fun j => (w.work i j : Int) == 0) hk)
  rw [Work.rowDivisor]
  cases hcols : (List.range w.workCols).dropWhile fun j => (w.work i j : Int) == 0 with
  | nil =>
    rw [hcols, List.append_nil] at hmem
    rw [hbefore j hmem]
  | cons c rest =>
    rw [hcols] at hmem
    obtain ⟨hstart, hrest⟩ := (dvd_foldl_gcd32 rest _ (inInt32_abs32 (w.work i c)) _).1 (dvd_refl _)
    rcases List.mem_append.1 hmem with hj | hj
    · rw [hbefore j hj]
      exact dvd_zero _
    · rcases List.mem_cons.1 hj with rfl | hj
      · exact (dvd_abs32 (w.work i j).2 _).1 hstart
      · exact hrest j hj

/-- Only the least number makes a divisor negative. -/
theorem roundDown_eq {c g : Int} (hg : 0 < g) : (if c > 0 ∨ c.tmod g = 0 then c.tdiv g else c.tdiv g - 1) = c / g := by
  rw [← floor_eq hg]
  simp only [Int.dvd_iff_tmod_eq_zero, Int.neg_tdiv, neg_neg]
  rcases eq_or_ne c 0 with rfl | hne
  · simp
  · have hiff : c > 0 ↔ c ≥ 0 := by omega
    simp only [hiff]

theorem divideLe_row {g : Int} (hg : 0 < g) (hdvd : ∀ j < w.workCols, g ∣ (w.work i j : Int)) (x : Nat → Int) :
    dot w.workCols (fun j => (w.divideLe i g).work i j) x ≤ (w.divideLe i g).workConst i ↔
      dot w.workCols (fun j => w.work i j) x ≤ w.workConst i := by
  have hquot : ∀ j < w.workCols, ((w.divideLe i g).work i j : Int) = (w.work i j : Int).tdiv g := by
    intro j hj
    show ((if i = i ∧ j < w.workCols then MInt32.ofInt ((w.work i j : Int).tdiv g) else w.work i j : MInt32) : Int) = _
    rw [if_pos ⟨rfl, hj⟩]
    refine wrap32_eq_iff.2 ?_
    obtain ⟨h1, h2⟩ := (w.work i j).2
    obtain ⟨q, hq⟩ := hdvd j hj
    rw [hq, Int.mul_tdiv_cancel_left _ hg.ne']
    rw [hq] at h1 h2
    constructor <;> nlinarith
  have hconst : (w.divideLe i g).workConst i = w.workConst i / g :=
    (Function.update_self _ _ _).trans (roundDown_eq hg)
  have hfactor : ∀ j < w.workCols, (w.work i j : Int) = g * (w.divideLe i g).work i j := fun j hj => by
    rw [hquot j hj, Int.mul_tdiv_cancel' (hdvd j hj)]
  rw [hconst]
  exact (dot_le_iff_of_factor hg hfactor x (w.workConst i)).symm

end Divisor

theorem normalizeRows_holds (rows : List Nat) : ∀ w : Work,
    Meets TestEvent.Exact (normalizeRows rows w) fun w' =>
      w'.workRows = w.workRows ∧ w'.workCols = w.workCols ∧ ∀ x : Nat → Int, w'.Holds x ↔ w.Holds x := by
  induction rows with
  | nil => exact fun w => meets_pure ⟨rfl, rfl, fun _ => Iff.rfl⟩
  | cons i rest ih =>
    intro w
    rw [normalizeRows]
    refine (meets_report (R := fun _ => 0 ≤ w.rowDivisor i) fun h : TestEvent.Exact (.gcd (w.rowDivisor i)) => h).bind
      fun _ hnonneg => ?_
    split_ifs with hg
    · refine (ih _).mono fun w' hw' => ⟨hw'.1, hw'.2.1, fun x => (hw'.2.2 x).trans ?_⟩
      rw [holds_iff, holds_iff]
      refine forall_congr' fun r => forall_congr' fun _ => ?_
      by_cases hr : r = i
      · rw [hr]
        exact divideLe_row (lt_of_le_of_ne hnonneg hg.1.symm) (fun j hj => rowDivisor_dvd hj) x
      · have hwork : (w.divideLe i (w.rowDivisor i)).work r = w.work r := by
          funext c
          exact if_neg fun hc => hr hc.1
        have hconst : (w.divideLe i (w.rowDivisor i)).workConst r = w.workConst r := Function.update_of_ne hr _ _
        rw [hwork, hconst]
        rfl
    · exact ih w

theorem gcdNormalize_holds (w : Work) : Meets TestEvent.Exact w.gcdNormalize fun w' =>
    w'.workRows = w.workRows ∧ w'.workCols = w.workCols ∧ ∀ x : Nat → Int, w'.Holds x ↔ w.Holds x :=
  normalizeRows_holds _ w

/-! ## Elimination -/

theorem holds_cast (w : Work) (x : Nat → Int) : w.Holds (fun j => (x j : ℚ)) ↔ w.Holds x := by
  rw [holds_iff, holds_iff]
  refine forall_congr' fun r => forall_congr' fun _ => ?_
  have hdot : dot w.workCols (fun j => w.work r j) (fun j => (x j : ℚ)) =
      ((dot w.workCols (fun j => w.work r j) x : Int) : ℚ) := by
    simp only [dot, Int.cast_sum, Int.cast_mul, Int.cast_id]
  rw [hdot, Int.cast_le]
  exact Iff.rfl

/-- A solution survives the elimination of an unknown, and the unknown is gone. -/
theorem project_keeps {w : Work} {i : Nat} (hi : i < w.workCols) (hzero : w.ZeroBefore i) {x : Nat → Int} (hx : w.Holds x) :
    Yields Formed.Fits (w.project i i) fun res =>
      res.2 = false ∧ res.1.workCols = w.workCols ∧ res.1.ZeroBefore (i + 1) ∧ res.1.Holds x := by
  have hS : ∀ q ∈ w.les, q.coeffs.length = w.workCols := by
    rintro q ⟨r, -, rfl⟩
    exact length_leRow w r
  have hstart : Projecting w.les w.workCols i i w w.workRows 0 :=
    ⟨rfl, hzero, le_rfl, fun r hr => absurd hr (Nat.not_lt_zero r), fun r h1 h2 => absurd h2 (not_lt.2 h1),
      ⟨fun q hq => Or.inl hq, fun q hq _ => hq, fun p hp _ => Or.inl hp⟩⟩
  have hrational : ∃ t : ℚ, w.Holds (Function.update (fun j => (x j : ℚ)) i t) :=
    ⟨x i, by rw [Function.update_eq_self]; exact (holds_cast w x).2 hx⟩
  refine (projectPlus_done hS hi w.workRows w.workRows 0 w (by omega) hstart).bind fun res hdone => ?_
  rcases hres : res.2 with _ | _ | _
  · have hne : res.2 ≠ some true := by
      rw [hres]
      exact (Option.some_ne_none _).symm
    obtain ⟨hrows, hpos⟩ := hdone.rows hne
    have hlocal : DropLocal fun w r => decide ((w.work r i : Int) < 0) := fun w1 w2 r h => by
      show decide ((w2.work r i : Int) < 0) = decide ((w1.work r i : Int) < 0)
      rw [h]
    obtain ⟨hles, hcols, hz⟩ := les_compact hlocal res.1 (hdone.zero hne)
    dsimp only
    generalize res.1.compact (fun w r => decide ((w.work r i : Int) < 0)) i = c at hles hcols hz ⊢
    have hreport : Yields Formed.Fits (reportAll ((c.products i).map .wide)) fun _ => ∀ x ∈ c.products i, InInt64 x :=
      yields_reportAll fun hall x hx => hall _ (List.mem_map_of_mem hx)
    refine hreport.bind fun _ hproducts => ?_
    have hgone : ∀ q ∈ c.les, q ∈ res.1.les ∧ q.coeff i = 0 := by
      intro q hq
      rw [hles] at hq
      obtain ⟨r, hr, hkeep, rfl⟩ := hq
      have hge := of_decide_eq_false hkeep
      rw [← coeff_leRow res.1 r (hdone.cols.symm ▸ hi)] at hge
      exact ⟨⟨r, hr, rfl⟩, le_antisymm (hpos _ ⟨r, hr, rfl⟩) (not_lt.1 hge)⟩
    obtain ⟨hsub, hcols', hz'⟩ := les_elimSimpleRedundant c i hz
    have hcolsAll : (c.elimSimpleRedundant i).workCols = w.workCols := hcols'.trans (hcols.trans hdone.cols)
    refine yields_pure ⟨rfl, hcolsAll, fun r hr col hcol hlt => ?_, ?_⟩
    · rcases Nat.lt_succ_iff_lt_or_eq.1 hcol with hcol | rfl
      · exact hz' r hr col hcol hlt
      · rw [← coeff_leRow _ r hlt]
        exact (hgone _ (hsub ⟨r, hr, rfl⟩)).2
    · refine (holds_cast _ x).1 ((holds_elimSimpleRedundant c i hz hproducts _).2 fun q hq => ?_)
      exact (hrows.holds_iff hi hpos _).2 hrational q (hgone q hq).1 (hgone q hq).2
  · have hempty := hdone.empty hres
    refine yields_pure ⟨rfl, hdone.cols, fun r hr => ?_, fun q hq => absurd hq (hempty ▸ Set.notMem_empty q)⟩
    exact absurd (show res.1.leRow r ∈ res.1.les from ⟨r, hr, rfl⟩) (hempty ▸ Set.notMem_empty _)
  · -- a combination that fails would fail at `x`
    obtain ⟨p, hp, m, hm, hpPos, hmNeg, habs⟩ := hdone.absurd hres
    exact absurd (((exists_update_iff w hi _).1 hrational).2 p hp m hm hpPos hmNeg) (habs.not_holds _)

theorem projectVars_right (k : Nat) : ∀ (i : Nat) (w : Work), Meets TestEvent.Exact (projectVars k i w) fun res =>
    ∀ x : Nat → Int, i + k ≤ w.workCols → w.ZeroBefore i → w.Holds x → res.2 ≠ some false ∧ (res.2 = none →
      res.1.workCols = w.workCols ∧ res.1.ZeroBefore (i + k) ∧ res.1.Holds x) := by
  induction k with
  | zero => exact fun i w => meets_pure fun x _ hzero hx => ⟨(Option.some_ne_none _).symm, fun _ => ⟨rfl, hzero, hx⟩⟩
  | succ k ih =>
    intro i w
    rw [projectVars]
    have hproject : Yields (fun f => TestEvent.Exact (.fourier f)) (w.project i i) fun res => ∀ x : Nat → Int,
        i < w.workCols → w.ZeroBefore i → w.Holds x →
        res.2 = false ∧ res.1.workCols = w.workCols ∧ res.1.ZeroBefore (i + 1) ∧ res.1.Holds x :=
      fun hlog res hres x hi hzero hx => project_keeps hi hzero hx hlog res hres
    refine (hproject.relabel.attempt.meets (meets_attempt _)).bind fun res hres => ?_
    match res with
    | none =>
      exact meets_pure fun _ _ _ _ => ⟨fun h => absurd (Option.some.inj h).symm Bool.false_ne_true,
        fun h => absurd h (Option.some_ne_none _)⟩
    | some (w', true) =>
      exact meets_pure fun x hik hzero hx => absurd (hres _ rfl x (by omega) hzero hx).1.symm Bool.false_ne_true
    | some (w', false) =>
      refine (ih (i + 1) w').mono fun res h x hik hzero hx => ?_
      obtain ⟨-, hcols, hzero', hx'⟩ := hres _ rfl x (by omega) hzero hx
      refine ⟨(h x (by rw [hcols]; omega) hzero' hx').1, fun hnone => ?_⟩
      obtain ⟨h1, h2, h3⟩ := (h x (by rw [hcols]; omega) hzero' hx').2 hnone
      exact ⟨h1.trans hcols, by rwa [show i + (k + 1) = i + 1 + k by omega], h3⟩

/-- What the fast tests leave open is not found inconsistent when there is a solution within the bounds. -/
theorem fourierTest_right (allow : Bool) (s : Bounds) : Meets TestEvent.Exact (fourierTest allow s) fun answer =>
    ∀ x, s.Admits x → 0 < s.w.workCols → answer = true := by
  unfold fourierTest
  refine (gcdNormalize_holds s.w).bind fun w hw => (projectVars_right (w.workCols - 1) 0 w).bind fun res hres => ?_
  have hproject : ∀ x, s.Admits x → _ := fun x h => hres x (by omega) (fun r _ c hc => absurd hc (Nat.not_lt_zero c))
    ((hw.2.2 x).2 ((holds_iff _ x).2 h.holds))
  match res with
  | (w', some true) => exact meets_pure fun _ _ _ => rfl
  | (w', some false) => exact meets_pure fun x h _ => absurd rfl (hproject x h).1
  | (w', none) =>
    dsimp only
    split_ifs
    · exact meets_pure fun _ _ _ => rfl
    · refine (oneVarConsistent_narrows allow _ _ _ _).relabel.bind fun res hone => meets_pure fun x h hpos => ?_
      obtain ⟨hcols, hzero, hx⟩ := (hproject x h).2 rfl
      dsimp only at hcols hzero hx
      rw [← hw.2.1, ← hcols] at hpos
      have hholds := (holds_iff w' x).1 hx
      refine (hone x ⟨hholds, h.within, ⟨h.ordered.le, h.ordered.lower, h.ordered.upper⟩⟩ fun r _ hr => ?_).1
      -- only the last unknown is left in the rows
      have hlast : dot w'.workCols (fun j => w'.work r j) x = w'.work r (w'.workCols - 1) * x (w'.workCols - 1) := by
        refine Finset.sum_eq_single _ (fun j hj hne => ?_) fun hnot => absurd (Finset.mem_range.2 (by omega)) hnot
        have hj' := Finset.mem_range.1 hj
        have hz : (w'.work r j : Int) = 0 := hzero r (by omega) j (by omega) hj'
        show ((w'.work r j : Int) : Int) * x j = 0
        rw [hz, zero_mul]
      dsimp only
      rw [← hlast]
      exact hholds r (by omega)

/-! ## The whole test -/

/-- Without columns `SVPC` decides. -/
theorem svpcRows_decides {ok : Event → Prop} (allow : Bool) (k : Nat) : ∀ (i : Nat) (s : Bounds), s.w.workCols = 0 →
    Yields ok (svpcRows allow k i true s) fun res => res.1 ≠ .inapplicable := by
  induction k with
  | zero => exact fun i s _ => yields_pure SvpcResult.noConfusion
  | succ k ih =>
    intro i s hcols
    have hvars : s.w.vars i = [] := by
      rw [Work.vars, hcols]
      rfl
    rw [svpcRows, hvars, if_pos List.length_nil]
    split_ifs
    · exact yields_pure SvpcResult.noConfusion
    · exact ih _ _ hcols

theorem isConsistentWork_right (allow : Bool) (w : Work) (isSvpc : Nat → Bool) :
    Meets TestEvent.Exact (isConsistentWork allow w isSvpc) fun answer => ∀ x : Nat → Int, w.Holds x → answer = true := by
  unfold isConsistentWork
  have hsvpc : Meets (fun e => TestEvent.Exact (.fast e)) (svpc allow w isSvpc) fun res => (w.workCols = 0 → res.1 ≠ .inapplicable) ∧
      ∀ x : Nat → Int, w.Holds x → res.1 ≠ .inconsistent ∧ res.2.w = w ∧ res.2.Admits x := fun hlog =>
    let ⟨res, hvalue, hres⟩ := svpc_admits allow w isSvpc hlog
    ⟨res, hvalue, fun hcols => svpcRows_decides allow _ _ _ hcols hlog res hvalue, hres⟩
  refine hsvpc.relabel.bind fun res hres => ?_
  match res with
  | (.consistent, _) => exact meets_pure fun _ _ => rfl
  | (.inconsistent, _) => exact meets_pure fun x hx => absurd rfl (hres.2 x hx).1
  | (.inapplicable, s) =>
    have hpos : 0 < w.workCols := Nat.pos_of_ne_zero fun hzero => hres.1 hzero rfl
    have hacy : Meets (fun e => TestEvent.Exact (.fast e)) (acyclicTest allow s) fun res => ∀ x : Nat → Int, w.Holds x →
        res.1 ≠ .inconsistent ∧ res.2.w.workCols = s.w.workCols ∧ res.2.Admits x := fun hlog =>
      let ⟨res, hvalue⟩ := acyclicTest_returns allow s
      ⟨res, hvalue, fun x hx => acyclicTest_admits allow (hres.2 x hx).2.2 hlog res hvalue⟩
    refine hacy.relabel.bind fun res hacy => ?_
    match res with
    | (.consistent, _) => exact meets_pure fun _ _ => rfl
    | (.inconsistent, _) => exact meets_pure fun x hx => absurd rfl (hacy x hx).1
    | (.inapplicable, s') =>
      refine (fourierTest_right allow s').mono fun answer h x hx => h x (hacy x hx).2.2 ?_
      rw [(hacy x hx).2.1, (hres.2 x hx).2.1]
      exact hpos

/-! ## Systems -/

theorem foldl_push_copied {s : System} (rows : List Nat) : ∀ w : Work, s.Matches w →
    s.Copied w (fun x => ∀ i ∈ rows, s.RowHolds i x) (rows.foldl (fun w i => w.push s.vars (s.ale i) (s.ble i)) w) := by
  induction rows with
  | nil => exact fun w h => ⟨h, fun x => by simp⟩
  | cons i rest ih =>
    intro w h
    obtain ⟨hcols, hholds⟩ := ih (w.push s.vars (s.ale i) (s.ble i)) fun _ => rfl
    refine ⟨hcols, fun x => ?_⟩
    rw [List.foldl_cons, hholds, holds_push h, List.forall_mem_cons, and_assoc]
    rfl

theorem copyAllToWork_checks (s : System) (w : Work) : Checks (· = Halt.gaveUp) (s.copyAllToWork w) fun w' =>
    s.vars ≤ soeMaxWorkCols ∧ s.Matches w' ∧ ∀ x : Nat → Int, w'.Holds x ↔ ∀ i < s.eqnsLe, s.RowHolds i x := by
  unfold System.copyAllToWork
  refine Checks.bind (checks_require_of_allowed rfl) fun _ hvars => ?_
  have hempty : s.Matches { w with workCols := s.vars, workRows := 0 } := fun h => absurd rfl h
  have hnone : ∀ x : Nat → Int, Work.Holds { w with workCols := s.vars, workRows := 0 } x := by
    rintro x q ⟨r, hr, -⟩
    exact absurd hr (Nat.not_lt_zero r)
  by_cases hzero : s.eqnsLe = 0
  · rw [if_pos hzero]
    refine checks_pure ⟨hvars, hempty, fun x => iff_of_true (hnone x) fun i hi => ?_⟩
    omega
  · rw [if_neg hzero, System.copyToWork]
    refine (checkSpace_checks hempty _).bind fun _ _ => checks_pure ?_
    obtain ⟨hcols, hholds⟩ := foldl_push_copied (List.range' 0 (s.eqnsLe - 1 + 1 - 0)) _ hempty
    refine ⟨hvars, hcols, fun x => (hholds x).trans ⟨fun h i hi => h.2 i ?_, fun h => ⟨hnone x, fun i hi => h i ?_⟩⟩⟩
    · rw [List.mem_range'_1]
      omega
    · rw [List.mem_range'_1] at hi
      omega

/-- What is left has a solution when `P` holds. -/
def EqResult.Keeps (P : Prop) : EqResult → Prop
  | .failed => True
  | .inconsistent _ => ¬ P
  | .done w => P → ∃ x : Nat → Int, w.Holds x

theorem EqResult.Right.keeps {P : Prop} {res : EqResult} (h : res.Right P) : res.Keeps P := by
  cases res with
  | failed => trivial
  | inconsistent _ => exact h
  | done _ => exact h.2

theorem subInEqual_keeps {s : System} {w : Work} (hvars : s.vars ≤ soeMaxWorkCols) (h : s.Matches w) :
    Meets EqEvent.Fits (w.subInEqual s.eqs maxTurns) (EqResult.Keeps (∃ x, s.eqs.Holds x ∧ w.Holds x)) := by
  have hdone : (EqResult.done w).Keeps (∃ x, s.eqs.Holds x ∧ w.Holds x) := Exists.imp fun _ => And.right
  rw [Work.subInEqual]
  by_cases hzero : s.eqs.eqnsEq = 0
  · rw [if_pos hzero]
    exact meets_pure hdone
  · rw [if_neg hzero]
    by_cases hrows : s.eqs.eqnsEq ≤ soeMaxWorkRowsEq
    · refine (copyToWorkEq_copies h hvars hrows).bind fun res hres => ?_
      rw [hres]
      have hmeasure : (w.withEq s.eqs).measure < maxTurns := by
        show 2 * (soeMaxWorkCols - s.eqs.vars) + s.eqs.eqnsEq < 2 * soeMaxWorkCols + soeMaxWorkRowsEq + 1
        omega
      have hloop := subLoop_right maxTurns _ hmeasure
      rw [exists_congr (withEq_solves h)] at hloop
      exact hloop.mono fun _ => EqResult.Right.keeps
    · rw [Work.copyToWorkEq, if_pos (not_le.1 hrows)]
      exact meets_pure hdone

theorem isConsistent_right (allow : Bool) (s : System) (w : Work) (isSvpc : Nat → Bool) :
    Meets TestEvent.Exact (s.isConsistent allow w isSvpc) fun answer => answer = false → ¬ ∃ x : Nat → Int, s.Solves x := by
  have htrue : Meets TestEvent.Exact (pure true) fun answer => answer = false → ¬ ∃ x : Nat → Int, s.Solves x :=
    meets_pure fun h => Bool.noConfusion h
  unfold System.isConsistent
  cases hcopy : s.copyAllToWork w with
  | error e => exact htrue
  | ok w' =>
    obtain ⟨hvars, hmatches, hholds⟩ := (copyAllToWork_checks s w).ok w' hcopy
    have heq : Meets (fun e => TestEvent.Exact (.eq e)) (w'.subInEqual s.eqs maxTurns) _ := subInEqual_keeps hvars hmatches
    refine heq.relabel.bind fun res hres => ?_
    have hsolved : (∃ x, s.Solves x) → ∃ x, s.eqs.Holds x ∧ w'.Holds x :=
      fun ⟨x, hx⟩ => ⟨x, hx.eqs, (hholds x).2 hx.les⟩
    cases res with
    | failed => exact htrue
    | inconsistent _ => exact meets_pure fun _ hx => hres (hsolved hx)
    | done w1 =>
      refine (isConsistentWork_right allow w1 isSvpc).mono fun answer hanswer hfalse hx => ?_
      obtain ⟨x, hx⟩ := hres (hsolved hx)
      exact Bool.noConfusion (hfalse.symm.trans (hanswer x hx))

/-- While what it forms unchecked is exact, the test returns, and a system found inconsistent has no integer solution. -/
theorem isConsistent_sound (allow : Bool) (s : System) (w : Work) (isSvpc : Nat → Bool)
    (hexact : ∀ e ∈ (s.isConsistent allow w isSvpc).log, e.Exact) :
    ∃ answer, (s.isConsistent allow w isSvpc).value = some answer ∧ (answer = false → ¬ ∃ x : Nat → Int, s.Solves x) :=
  isConsistent_right allow s w isSvpc hexact

/-- `1 <= 2x - 2y <= 1`. -/
def paritySystem : System := System.ofLes 2 [([2, -2], 1), ([-2, 2], -1)]

/-- The division rounds the constants, and the elimination of `x` finds `0 <= -1`. -/
theorem isConsistent_sound_parity : ¬ ∃ x : Nat → Int, paritySystem.Solves x := by
  have hexact : ∀ e ∈ (paritySystem.isConsistent true (Work.ofLes 0 []) fun _ => false).log, e.Exact := by
    have hlog : (paritySystem.isConsistent true (Work.ofLes 0 []) fun _ => false).log =
        [.gcd 2, .gcd 2, .fourier (.wide (-1)), .fourier (.narrow 0), .fourier (.narrow 0)] := rfl
    rw [hlog]
    refine List.forall_mem_cons.2 ⟨?_, List.forall_mem_cons.2 ⟨?_, ?_⟩⟩
    · show (0 : Int) ≤ 2
      decide
    · show (0 : Int) ≤ 2
      decide
    · refine List.forall_mem_cons.2 ⟨?_, List.forall_mem_cons.2 ⟨?_, List.forall_mem_singleton.2 ?_⟩⟩
      · show InInt64 (-1)
        decide
      · show InInt32 0
        decide
      · show InInt32 0
        decide
  obtain ⟨answer, hvalue, hsound⟩ := isConsistent_sound true _ (Work.ofLes 0 []) (fun _ => false) hexact
  have hrun : (paritySystem.isConsistent true (Work.ofLes 0 []) fun _ => false).value = some false := by decide
  exact hsound (Option.some.inj (hvalue.symm.trans hrun))

end Path64.Soe

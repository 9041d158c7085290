import Path64.Soe.Consistent

/-!
# Rows proved redundant

The callers of the consistency test in `be/lno/soe.cxx` that answer for one row after another: `Add_Le_Non_Redundant` keeps a new
row only when its complement is consistent with the system, and `Prove_Redundant` tries the bounds of one set against those of
another.

* `addLe`, `complementLe`, `addLeNonRedundant` : the first; `complementLe_complementLe` : the complement is taken back exactly;
* `addLeNonRedundant_exact` : the system left has the solutions of the old one that satisfy the row;
* `boundConsistent`, `proveRedundant`, `proveRedundant_sound` : the second.
-/

namespace Path64.Soe

open Lib Logged

/-! ## A row that is added unless it follows -/

/-- `Add_Le`, of one row. -/
def System.addLe (s : System) (row : Nat → MInt32) (b : MInt64) : System :=
  { s with
    ale := fun r c => if r = s.eqnsLe ∧ c < s.vars then row c else s.ale r c
    ble := Function.update s.ble s.eqnsLe b
    eqnsLe := s.eqnsLe + 1 }

/-- `Complement_Le`. -/
def System.complementLe (s : System) (r : Nat) : System :=
  { s with
    ale := fun r' c => if r' = r ∧ c < s.vars then s.inverseRow r c else s.ale r' c
    ble := Function.update s.ble r ⟨s.inverseConst r, inInt64_wrap64 _⟩ }

/-- `Remove_Last_Le`, of one row. -/
def System.removeLastLe (s : System) : System := { s with eqnsLe := s.eqnsLe - 1 }

/-- `Add_Le_Non_Redundant`, with the system that it leaves. -/
def System.addLeNonRedundant (allow : Bool) (s : System) (row : Nat → MInt32) (b : MInt64) (w : Work) (isSvpc : Nat → Bool) :
    Logged TestEvent (Bool × System) := do
  let newrow := s.eqnsLe
  let s := (s.addLe row b).complementLe newrow
  let consistent ← s.isConsistent allow w isSvpc
  if consistent then pure (true, s.complementLe newrow) else pure (false, s.removeLastLe)

theorem wrap32_neg_neg (a : MInt32) : wrap32 (-wrap32 (-(a : Int))) = a := by
  obtain ⟨h1, h2⟩ := a.2
  unfold wrap32
  rw [Int.bmod_def, Int.bmod_def]
  split_ifs <;> omega

theorem ble_complementLe_self (s : System) (r : Nat) : ((s.complementLe r).ble r : Int) = s.inverseConst r := by
  show ((Function.update s.ble r (⟨s.inverseConst r, inInt64_wrap64 _⟩ : MInt64) r : MInt64) : Int) = _
  rw [Function.update_self]

/-- The complement is taken back, also where a coefficient or the constant wraps. -/
theorem complementLe_complementLe (s : System) (r : Nat) : (s.complementLe r).complementLe r = s := by
  have hale : ((s.complementLe r).complementLe r).ale = s.ale := by
    funext r' c
    show (if r' = r ∧ c < s.vars then (s.complementLe r).inverseRow r c else
      if r' = r ∧ c < s.vars then s.inverseRow r c else s.ale r' c) = s.ale r' c
    split_ifs with h
    · rw [h.1]
      have hrow : (s.complementLe r).ale r c = s.inverseRow r c := if_pos ⟨rfl, h.2⟩
      refine Subtype.ext ?_
      show wrap32 (-((s.complementLe r).ale r c : Int)) = s.ale r c
      rw [hrow]
      exact wrap32_neg_neg _
    · rfl
  have hble : ((s.complementLe r).complementLe r).ble = s.ble := by
    show Function.update (Function.update s.ble r _) r _ = s.ble
    rw [Function.update_idem, Function.update_eq_self_iff]
    refine Subtype.ext ?_
    show (s.complementLe r).inverseConst r = s.ble r
    rw [inverseConst_eq, ble_complementLe_self, inverseConst_eq]
    ring
  show (⟨((s.complementLe r).complementLe r).ale, ((s.complementLe r).complementLe r).ble, s.eqnsLe, s.eqs⟩ : System) = s
  rw [hale, hble]

section AddLe

variable (s : System) (row : Nat → MInt32) (b : MInt64) (x : Nat → Int)

theorem rowHolds_addLe_of_lt {i : Nat} (hi : i < s.eqnsLe) : (s.addLe row b).RowHolds i x ↔ s.RowHolds i x := by
  have hrow : ∀ j, (s.addLe row b).ale i j = s.ale i j := fun j => if_neg fun h => absurd h.1 hi.ne
  have hconst : (s.addLe row b).ble i = s.ble i := Function.update_of_ne hi.ne _ _
  unfold System.RowHolds
  simp only [hrow, hconst]
  exact Iff.rfl

theorem rowHolds_addLe_self : (s.addLe row b).RowHolds s.eqnsLe x ↔ dot s.vars (fun j => row j) x ≤ b := by
  have hdot : dot s.vars (fun j => (s.addLe row b).ale s.eqnsLe j) x = dot s.vars (fun j => row j) x :=
    dot_congr fun j hj => congrArg Subtype.val (if_pos ⟨rfl, hj⟩)
  have hconst : (s.addLe row b).ble s.eqnsLe = b := Function.update_self _ _ _
  show dot s.vars (fun j => (s.addLe row b).ale s.eqnsLe j) x ≤ (s.addLe row b).ble s.eqnsLe ↔ _
  rw [hdot, hconst]

theorem solves_addLe : (s.addLe row b).Solves x ↔ s.Solves x ∧ dot s.vars (fun j => row j) x ≤ b := by
  constructor
  · intro h
    refine ⟨⟨h.eqs, fun i hi => ?_⟩, (rowHolds_addLe_self s row b x).1 (h.les _ (Nat.lt_succ_self _))⟩
    exact (rowHolds_addLe_of_lt s row b x hi).1 (h.les i (Nat.lt_succ_of_lt hi))
  · rintro ⟨h, hrow⟩
    refine ⟨h.eqs, fun i hi => ?_⟩
    rcases Nat.lt_succ_iff_lt_or_eq.1 hi with hi | rfl
    · exact (rowHolds_addLe_of_lt s row b x hi).2 (h.les i hi)
    · exact (rowHolds_addLe_self s row b x).2 hrow

theorem rowHolds_complementLe_of_ne {r i : Nat} (hi : i ≠ r) : (s.complementLe r).RowHolds i x ↔ s.RowHolds i x := by
  have hrow : ∀ j, (s.complementLe r).ale i j = s.ale i j := fun j => if_neg fun h => absurd h.1 hi
  have hconst : (s.complementLe r).ble i = s.ble i := Function.update_of_ne hi _ _
  unfold System.RowHolds
  simp only [hrow, hconst]
  exact Iff.rfl

theorem rowHolds_complementLe_self (r : Nat) : (s.complementLe r).RowHolds r x ↔ s.InverseHolds r x := by
  have hdot : dot s.vars (fun j => (s.complementLe r).ale r j) x = dot s.vars (fun j => s.inverseRow r j) x :=
    dot_congr fun j hj => congrArg Subtype.val (if_pos ⟨rfl, hj⟩)
  show dot s.vars (fun j => (s.complementLe r).ale r j) x ≤ (s.complementLe r).ble r ↔ _
  rw [hdot, ble_complementLe_self]
  exact Iff.rfl

end AddLe

/-- Whatever is decided about the row, the system left has the solutions of the old one that satisfy the row. A row with the least
number as a coefficient is left out: it has no complement. -/
theorem addLeNonRedundant_exact (allow : Bool) (s : System) (row : Nat → MInt32) (b : MInt64) (w : Work) (isSvpc : Nat → Bool)
    (hmin : ∀ j < s.vars, (row j : Int) ≠ int32Min)
    (hexact : ∀ e ∈ (s.addLeNonRedundant allow row b w isSvpc).log, e.Exact) :
    ∃ added s', (s.addLeNonRedundant allow row b w isSvpc).value = some (added, s') ∧ (added = true → s' = s.addLe row b) ∧
      ∀ x, s'.Solves x ↔ s.Solves x ∧ dot s.vars (fun j => row j) x ≤ b := by
  suffices h : Meets TestEvent.Exact (s.addLeNonRedundant allow row b w isSvpc) fun res =>
      (res.1 = true → res.2 = s.addLe row b) ∧ ∀ x, res.2.Solves x ↔ s.Solves x ∧ dot s.vars (fun j => row j) x ≤ b by
    obtain ⟨⟨added, s'⟩, hvalue, hres⟩ := h hexact
    exact ⟨added, s', hvalue, hres⟩
  unfold System.addLeNonRedundant
  have htest : Meets TestEvent.Exact (((s.addLe row b).complementLe s.eqnsLe).isConsistent allow w isSvpc) _ := fun hlog =>
    isConsistent_right allow _ w isSvpc hlog
  refine htest.bind fun answer hanswer => ?_
  cases answer with
  | true =>
    rw [if_pos rfl]
    refine meets_pure ⟨fun _ => complementLe_complementLe _ _, fun x => ?_⟩
    dsimp only
    rw [complementLe_complementLe]
    exact solves_addLe s row b x
  | false =>
    rw [if_neg Bool.false_ne_true]
    refine meets_pure ⟨fun h => absurd h Bool.false_ne_true, fun x => ?_⟩
    have hold : ∀ i < s.eqnsLe, ((s.addLe row b).complementLe s.eqnsLe).RowHolds i x ↔ s.RowHolds i x := fun i hi =>
      (rowHolds_complementLe_of_ne _ x hi.ne).trans (rowHolds_addLe_of_lt s row b x hi)
    have hsame : System.Solves ((s.addLe row b).complementLe s.eqnsLe).removeLastLe x ↔ s.Solves x :=
      ⟨fun h => ⟨h.eqs, fun i hi => (hold i hi).1 (h.les i hi)⟩, fun h => ⟨h.eqs, fun i hi => (hold i hi).2 (h.les i hi)⟩⟩
    refine hsame.trans (iff_self_and.2 fun hx => ?_)
    by_contra hrow
    -- a solution that fails the row would solve the system with the complement
    refine hanswer rfl ⟨x, hx.eqs, fun i hi => ?_⟩
    rcases Nat.lt_succ_iff_lt_or_eq.1 hi with hi | rfl
    · exact (hold i hi).2 (hx.les i hi)
    · refine (rowHolds_complementLe_self _ x _).2 (((inverse_complements_iff _ _).2 (fun j hj => ?_) x).2 fun h =>
        hrow ((rowHolds_addLe_self s row b x).1 h))
      have hcoeff : (s.addLe row b).ale s.eqnsLe j = row j := if_pos ⟨rfl, hj⟩
      rw [hcoeff]
      exact hmin j hj

/-- `x <= 7` beside `x <= 5`: the row is not added. -/
theorem addLeNonRedundant_exact_bound : ∃ added s', ((System.ofLes 1 [([1], 5)]).addLeNonRedundant true (fun _ => MInt32.ofInt 1)
      (MInt64.ofInt 7) (Work.ofLes 0 []) fun _ => false).value = some (added, s') ∧
    (added = true → s' = (System.ofLes 1 [([1], 5)]).addLe (fun _ => MInt32.ofInt 1) (MInt64.ofInt 7)) ∧
    ∀ x, s'.Solves x ↔ (System.ofLes 1 [([1], 5)]).Solves x ∧ dot 1 (fun _ => MInt32.ofInt 1) x ≤ (MInt64.ofInt 7 : Int) := by
  refine addLeNonRedundant_exact true _ _ _ _ _ (by decide) fun e he => ?_
  have hlog : ((System.ofLes 1 [([1], 5)]).addLeNonRedundant true (fun _ => MInt32.ofInt 1) (MInt64.ofInt 7) (Work.ofLes 0 [])
      fun _ => false).log = [] := rfl
  rw [hlog] at he
  exact absurd he List.not_mem_nil

/-! ## The bounds of one set against another -/

/-- The bounds of set `set1`, two rows for each of `dim` axles. -/
def System.copyBounds (s : System) (set1 dim : Nat) (w : Work) : Except Halt Work :=
  (List.range dim).foldlM (fun w j => do
    let w ← s.copyToWork w (4 * j + 2 * set1) (4 * j + 2 * set1)
    s.copyToWork w (4 * j + 2 * set1 + 1) (4 * j + 2 * set1 + 1)) { w with workRows := 0 }

/-- Whether the complement of row `i` may be consistent with the bounds of `set1`; `before` is what the arrays held. -/
def System.boundConsistent (allow : Bool) (s : System) (set1 dim i : Nat) (before : Work × (Nat → Bool)) : Logged TestEvent Bool :=
  match (do let w ← s.copyBounds set1 dim before.1; s.copyInverseToWork w i : Except Halt Work) with
  | .error _ => pure true
  | .ok w => isConsistentWork allow w before.2

/-- The tests of the given rows, up to the first that may be consistent. -/
def System.proveRows (allow : Bool) (s : System) (set1 dim : Nat) (before : Nat → Work × (Nat → Bool)) :
    List Nat → Logged TestEvent Bool
  | [] => pure true
  | i :: rest => do
    let consistent ← s.boundConsistent allow set1 dim i (before i)
    if consistent then pure false else s.proveRows allow set1 dim before rest

/-- `Prove_Redundant`; `before i` is what the arrays hold before the test of row `i`. -/
def System.proveRedundant (allow : Bool) (s : System) (set dim : Nat) (before : Nat → Work × (Nat → Bool)) :
    Logged TestEvent Bool := do
  assert (s.eqnsLe = 4 * dim)
  let set1 := if set ≠ 0 then 0 else 1
  s.proveRows allow set1 dim before ((List.range dim).flatMap fun i => [4 * i + 2 * set, 4 * i + 2 * set + 1])

/-- All bounds of a set hold at `x`. -/
def System.BoundsHold (s : System) (set dim : Nat) (x : Nat → Int) : Prop :=
  ∀ j < dim, s.RowHolds (4 * j + 2 * set) x ∧ s.RowHolds (4 * j + 2 * set + 1) x

theorem copyBounds_checks (s : System) (set1 dim : Nat) (w : Work) : Checks (· = Halt.gaveUp) (s.copyBounds set1 dim w) fun w' =>
    s.Matches w' ∧ ∀ x, w'.Holds x ↔ s.BoundsHold set1 dim x := by
  refine checks_foldlM (fun k w' => s.Matches w' ∧ ∀ x, w'.Holds x ↔ s.BoundsHold set1 k x)
    ⟨fun h => absurd rfl h, fun x => ?_⟩
    fun k _ w' hw' => ?_
  · refine iff_of_true ?_ fun j hj => absurd hj (Nat.not_lt_zero j)
    rintro q ⟨r, hr, -⟩
    exact absurd hr (Nat.not_lt_zero r)
  · refine (copyToWork_checks hw'.1 _).bind fun w1 h1 => (copyToWork_checks h1.cols _).mono fun w2 _ h2 => ⟨h2.cols, fun x => ?_⟩
    rw [h2.holds, h1.holds, hw'.2, and_assoc]
    constructor
    · rintro ⟨hbefore, hrows⟩ j hj
      rcases Nat.lt_succ_iff_lt_or_eq.1 hj with hj | rfl
      · exact hbefore j hj
      · exact hrows
    · exact fun h => ⟨fun j hj => h j (Nat.lt_succ_of_lt hj), h k (Nat.lt_succ_self k)⟩

theorem boundConsistent_sound (allow : Bool) {s : System} {set1 dim i : Nat} (before : Work × (Nat → Bool))
    (hmin : ∀ j < s.vars, (s.ale i j : Int) ≠ int32Min) {x : Nat → Int} (hx : s.BoundsHold set1 dim x) :
    Yields TestEvent.Exact (s.boundConsistent allow set1 dim i before) fun answer => answer = false → s.RowHolds i x := by
  have hcopy : Checks (· = Halt.gaveUp) (do let w ← s.copyBounds set1 dim before.1; s.copyInverseToWork w i : Except Halt Work)
      fun w' => ¬ s.RowHolds i x → w'.Holds x :=
    (copyBounds_checks s set1 dim before.1).bind fun w1 h1 => (copyInverseToWork_checks h1.1 i).mono fun w2 _ h2 hrow =>
      (h2.holds x).2 ⟨(h1.2 x).2 hx, ((inverse_complements_iff s i).2 hmin x).2 hrow⟩
  unfold System.boundConsistent
  cases hrun : (do let w ← s.copyBounds set1 dim before.1; s.copyInverseToWork w i : Except Halt Work) with
  | error e => exact yields_pure fun h => Bool.noConfusion h
  | ok w' =>
    intro hlog answer hanswer hfalse
    by_contra hrow
    have htrue := (isConsistentWork_right allow w' before.2).yields hlog answer hanswer x (hcopy.ok w' hrun hrow)
    exact Bool.noConfusion (hfalse.symm.trans htrue)

theorem proveRows_sound (allow : Bool) {s : System} {set1 dim : Nat} (before : Nat → Work × (Nat → Bool)) {x : Nat → Int}
    (hx : s.BoundsHold set1 dim x) (rows : List Nat) (hmin : ∀ i ∈ rows, ∀ j < s.vars, (s.ale i j : Int) ≠ int32Min) :
    Yields TestEvent.Exact (s.proveRows allow set1 dim before rows) fun answer =>
      answer = true → ∀ i ∈ rows, s.RowHolds i x := by
  induction rows with
  | nil => exact yields_pure fun _ i hi => absurd hi List.not_mem_nil
  | cons i rest ih =>
    obtain ⟨hi, hrest⟩ := List.forall_mem_cons.1 hmin
    rw [System.proveRows]
    refine (boundConsistent_sound allow (before i) hi hx).bind fun answer hanswer => ?_
    cases answer with
    | true =>
      rw [if_pos rfl]
      exact yields_pure fun h => absurd h Bool.false_ne_true
    | false =>
      rw [if_neg Bool.false_ne_true]
      exact (ih hrest).mono fun res hres htrue => List.forall_mem_cons.2 ⟨hanswer rfl, hres htrue⟩

/-- When all bounds of a set are proved redundant, they hold wherever those of the other set do. -/
theorem proveRedundant_sound (allow : Bool) (s : System) (set dim : Nat) (before : Nat → Work × (Nat → Bool)) (hset : set ≤ 1)
    (hmin : ∀ i < s.eqnsLe, ∀ j < s.vars, (s.ale i j : Int) ≠ int32Min)
    (hexact : ∀ e ∈ (s.proveRedundant allow set dim before).log, e.Exact)
    (hproved : (s.proveRedundant allow set dim before).value = some true) (x : Nat → Int)
    (hx : s.BoundsHold (1 - set) dim x) : s.BoundsHold set dim x := by
  have hset1 : (if set ≠ 0 then 0 else 1) = 1 - set := by
    split_ifs <;> omega
  have hrows : Yields TestEvent.Exact (s.proveRedundant allow set dim before) fun answer => answer = true →
      ∀ i ∈ (List.range dim).flatMap fun i => [4 * i + 2 * set, 4 * i + 2 * set + 1], s.RowHolds i x := by
    refine (yields_assert (R := fun _ => s.eqnsLe = 4 * dim) id).bind fun _ hdim => ?_
    dsimp only
    rw [hset1]
    refine proveRows_sound allow before hx _ fun i hi => hmin i ?_
    obtain ⟨j, hj, hij⟩ := List.mem_flatMap.1 hi
    have hj := List.mem_range.1 hj
    simp only [List.mem_cons, List.not_mem_nil, or_false] at hij
    omega
  intro j hj
  have hall := hrows hexact true hproved rfl
  have hmem : ∀ i ∈ [4 * j + 2 * set, 4 * j + 2 * set + 1],
      i ∈ (List.range dim).flatMap fun i => [4 * i + 2 * set, 4 * i + 2 * set + 1] := fun i hi =>
    List.mem_flatMap.2 ⟨j, List.mem_range.2 hj, hi⟩
  exact ⟨hall _ (hmem _ (by simp)), hall _ (hmem _ (by simp))⟩

/-- `0 <= x <= 10` and `2 <= x <= 5`. -/
def twoIntervals : System := System.ofLes 1 [([-1], 0), ([1], 10), ([-1], -2), ([1], 5)]

/-- The first interval follows from the second, at `3`. -/
theorem proveRedundant_sound_interval : twoIntervals.BoundsHold 0 1 fun _ => 3 := by
  refine proveRedundant_sound true _ 0 1 (fun _ => (Work.ofLes 0 [], fun _ => false)) (by decide) (by decide) (fun e he => ?_)
    (by decide) _ fun j hj => ?_
  · have hlog : (twoIntervals.proveRedundant true 0 1 fun _ => (Work.ofLes 0 [], fun _ => false)).log = [] := rfl
    rw [hlog] at he
    exact absurd he List.not_mem_nil
  · rw [Nat.lt_one_iff.1 hj]
    unfold System.RowHolds
    decide

end Path64.Soe

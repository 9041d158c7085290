import Path64.Soe.Store

/-!
# The row store against a pair of lists

`Lists` is what the two blocks are for: a list of inequalities and a list of equalities. `Lists.Step` says what each
operation of the store should do to it; an operation on one list leaves the other alone.

* `Op`, `step` : the operations as data and their effect on the store;
* `Op.InRange`, `RunInRange` : the arguments are in range, along a whole run;
* `step_refines` : every operation but `Remove_Le_Number` is a step of the lists;
* `removeLeNumber_not_step` : `Remove_Le_Number` never is;
* `run_refines_iff` : a run refines the lists exactly when it never uses `Remove_Le_Number`.
-/

namespace Path64.Soe

/-- The operations of the store. -/
inductive Op where
  | addLe (row : Nat → Int) (b : Int)
  | addEq (row : Nat → Int) (b : Int)
  | addSoe (soe : SystemOfEquations)
  | removeLastLe (howMany : Nat)
  | removeLastEq (howMany : Nat)
  | sortLe (sortCriteria : Nat → Int) (descending : Bool)
  | removeLeNumber (k : Nat)
  | removeEqNumber (k : Nat)

def Op.isRemoveLeNumber : Op → Bool
  | .removeLeNumber _ => true
  | _ => false

def step (fresh : Nat → Int) (s : SystemOfEquations) : Op → Option SystemOfEquations
  | .addLe row b => s.addLe fresh row b
  | .addEq row b => s.addEq fresh row b
  | .addSoe soe => s.addSoe fresh soe
  | .removeLastLe n => some (s.removeLastLe n)
  | .removeLastEq n => some (s.removeLastEq n)
  | .sortLe criteria descending => some (s.sortLe criteria descending)
  | .removeLeNumber k => some (s.removeLeNumber k)
  | .removeEqNumber k => some (s.removeEqNumber k)

/-! ## The lists -/

structure Lists where
  le : List Row
  eq : List Row

def SystemOfEquations.lists (s : SystemOfEquations) : Lists := ⟨s.leRows, s.eqRows⟩

/-- The lists may go from `l` to `l'` under an operation on systems of `vars` variables. -/
def Lists.Step (vars : Nat) (l l' : Lists) : Op → Prop
  | .addLe row b => l' = { l with le := l.le ++ [⟨(List.range vars).map row, b⟩] }
  | .addEq row b => l' = { l with eq := l.eq ++ [⟨(List.range vars).map row, b⟩] }
  | .addSoe soe => l' = ⟨l.le ++ soe.leRows, l.eq ++ soe.eqRows⟩
  | .removeLastLe n => l' = { l with le := l.le.take (l.le.length - n) }
  | .removeLastEq n => l' = { l with eq := l.eq.take (l.eq.length - n) }
  | .sortLe criteria descending =>
    SortedAlong descending ((List.range l.le.length).map criteria) l.le l'.le ∧ l'.eq = l.eq
  | .removeLeNumber k => l' = { l with le := l.le.eraseIdx k }
  | .removeEqNumber k => l' = { l with eq := l.eq.eraseIdx k }

/-- The arguments of an operation are in range when there are `nle` inequalities and `neq` equalities. -/
def Op.InRange (vars nle neq : Nat) : Op → Prop
  | .addSoe soe => soe.vars = vars
  | .removeLastLe n => n ≤ nle
  | .removeLastEq n => n ≤ neq
  | .removeLeNumber k => k < nle
  | .removeEqNumber k => k < neq
  | _ => True

/-- How many inequalities the lists have after an operation. -/
def Op.leCount (nle : Nat) : Op → Nat
  | .addLe _ _ => nle + 1
  | .addSoe soe => nle + soe.leRows.length
  | .removeLastLe n => nle - n
  | .removeLeNumber _ => nle - 1
  | _ => nle

/-- How many equalities the lists have after an operation. -/
def Op.eqCount (neq : Nat) : Op → Nat
  | .addEq _ _ => neq + 1
  | .addSoe soe => neq + soe.eqRows.length
  | .removeLastEq n => neq - n
  | .removeEqNumber _ => neq - 1
  | _ => neq

/-- All arguments of a run are in range, counting rows as the lists do. -/
def RunInRange (vars : Nat) : Nat → Nat → List Op → Prop
  | _, _, [] => True
  | nle, neq, op :: ops => op.InRange vars nle neq ∧ RunInRange vars (op.leCount nle) (op.eqCount neq) ops

/-- A run of the store, each step of it a step of the lists. -/
def RunRefines (fresh : Nat → Int) (s : SystemOfEquations) : List Op → Prop
  | [] => True
  | op :: ops => ∃ s', step fresh s op = some s' ∧ s.lists.Step s.vars s'.lists op ∧ RunRefines fresh s' ops

/-! ## One step -/

variable (fresh : Nat → Int)

theorem addLe_lists {s : SystemOfEquations} (h : s.Wf) (row : Nat → Int) (b : Int) :
    ∃ s', s.addLe fresh row b = some s' ∧ s'.Wf ∧ s'.vars = s.vars ∧ s'.eq = s.eq ∧
      s'.leRows = s.leRows ++ [⟨(List.range s.vars).map row, b⟩] := by
  obtain ⟨blk, hadd, hwf, -, hrows⟩ := addRow_rows fresh s.vars h.le row b
  refine ⟨{ s with le := blk }, ?_, ⟨hwf, h.eq⟩, rfl, rfl, hrows⟩
  unfold SystemOfEquations.addLe
  rw [hadd]
  rfl

theorem addEq_lists {s : SystemOfEquations} (h : s.Wf) (row : Nat → Int) (b : Int) :
    ∃ s', s.addEq fresh row b = some s' ∧ s'.Wf ∧ s'.vars = s.vars ∧ s'.le = s.le ∧
      s'.eqRows = s.eqRows ++ [⟨(List.range s.vars).map row, b⟩] := by
  obtain ⟨blk, hadd, hwf, -, hrows⟩ := addRow_rows fresh s.vars h.eq row b
  refine ⟨{ s with eq := blk }, ?_, ⟨h.le, hwf⟩, rfl, rfl, hrows⟩
  unfold SystemOfEquations.addEq
  rw [hadd]
  rfl

/-- The first loop of `Add_Soe`. -/
theorem foldlM_addLe (b : Block) (rs : List Nat) {s : SystemOfEquations} (h : s.Wf) :
    ∃ s', rs.foldlM (fun s r => s.addLe fresh (b.mat r) (b.rhs r)) s = some s' ∧ s'.Wf ∧ s'.vars = s.vars ∧
      s'.eq = s.eq ∧ s'.leRows = s.leRows ++ rs.map (b.row s.vars) := by
  induction rs generalizing s with
  | nil => exact ⟨s, rfl, h, rfl, rfl, by simp⟩
  | cons r rs ih =>
    obtain ⟨s1, hadd, hwf1, hv1, heq1, hrows1⟩ := addLe_lists fresh h (b.mat r) (b.rhs r)
    obtain ⟨s2, hrest, hwf2, hv2, heq2, hrows2⟩ := ih hwf1
    refine ⟨s2, ?_, hwf2, hv2.trans hv1, heq2.trans heq1, ?_⟩
    · rw [List.foldlM_cons, hadd]
      exact hrest
    · rw [hrows2, hrows1, hv1, List.append_assoc]
      rfl

/-- The second loop of `Add_Soe`. -/
theorem foldlM_addEq (b : Block) (rs : List Nat) {s : SystemOfEquations} (h : s.Wf) :
    ∃ s', rs.foldlM (fun s r => s.addEq fresh (b.mat r) (b.rhs r)) s = some s' ∧ s'.Wf ∧ s'.vars = s.vars ∧
      s'.le = s.le ∧ s'.eqRows = s.eqRows ++ rs.map (b.row s.vars) := by
  induction rs generalizing s with
  | nil => exact ⟨s, rfl, h, rfl, rfl, by simp⟩
  | cons r rs ih =>
    obtain ⟨s1, hadd, hwf1, hv1, hle1, hrows1⟩ := addEq_lists fresh h (b.mat r) (b.rhs r)
    obtain ⟨s2, hrest, hwf2, hv2, hle2, hrows2⟩ := ih hwf1
    refine ⟨s2, ?_, hwf2, hv2.trans hv1, hle2.trans hle1, ?_⟩
    · rw [List.foldlM_cons, hadd]
      exact hrest
    · rw [hrows2, hrows1, hv1, List.append_assoc]
      rfl

theorem addSoe_lists {s soe : SystemOfEquations} (h : s.Wf) (hv : soe.vars = s.vars) :
    ∃ s', s.addSoe fresh soe = some s' ∧ s'.Wf ∧ s'.vars = s.vars ∧
      s'.lists = ⟨s.leRows ++ soe.leRows, s.eqRows ++ soe.eqRows⟩ := by
  obtain ⟨s1, hle, hwf1, hv1, heq1, hrows1⟩ := foldlM_addLe fresh soe.le (List.range soe.le.eqns.toNat) h
  obtain ⟨s2, heq, hwf2, hv2, hle2, hrows2⟩ := foldlM_addEq fresh soe.eq (List.range soe.eq.eqns.toNat) hwf1
  refine ⟨s2, ?_, hwf2, hv2.trans hv1, ?_⟩
  · unfold SystemOfEquations.addSoe
    rw [if_pos hv.symm, hle]
    exact heq
  · have hleRows : s2.leRows = s1.leRows := by
      unfold SystemOfEquations.leRows
      rw [hle2, hv2]
    have heqRows : s1.eqRows = s.eqRows := by
      unfold SystemOfEquations.eqRows
      rw [heq1, hv1]
    unfold SystemOfEquations.lists
    rw [hrows2, hleRows, hrows1, heqRows, hv1, ← hv]
    rfl

/-- Every operation but `Remove_Le_Number` succeeds and is a step of the lists. -/
theorem step_refines {s : SystemOfEquations} (h : s.Wf) {op : Op} (hop : op.isRemoveLeNumber = false)
    (hr : op.InRange s.vars s.leRows.length s.eqRows.length) :
    ∃ s', step fresh s op = some s' ∧ s'.Wf ∧ s'.vars = s.vars ∧ s.lists.Step s.vars s'.lists op := by
  have hle : s.leRows.length = s.le.eqns.toNat := rows_length s.vars s.le
  have heq : s.eqRows.length = s.eq.eqns.toNat := rows_length s.vars s.eq
  cases op with
  | addLe row b =>
    obtain ⟨s', hs, hwf, hv, heq', hrows⟩ := addLe_lists fresh h row b
    refine ⟨s', hs, hwf, hv, ?_⟩
    simp only [Lists.Step, SystemOfEquations.lists, hrows, SystemOfEquations.eqRows, heq', hv]
  | addEq row b =>
    obtain ⟨s', hs, hwf, hv, hle', hrows⟩ := addEq_lists fresh h row b
    refine ⟨s', hs, hwf, hv, ?_⟩
    simp only [Lists.Step, SystemOfEquations.lists, hrows, SystemOfEquations.leRows, hle', hv]
  | addSoe soe => exact addSoe_lists fresh h hr
  | removeLastLe n =>
    have hn : n ≤ s.le.eqns.toNat := hle ▸ hr
    refine ⟨_, rfl, ⟨removeLast_wf h.le hn, h.eq⟩, rfl, ?_⟩
    simp only [Lists.Step, SystemOfEquations.lists, hle]
    exact congrArg (Lists.mk · s.eqRows) (removeLast_rows s.vars h.le hn)
  | removeLastEq n =>
    have hn : n ≤ s.eq.eqns.toNat := heq ▸ hr
    refine ⟨_, rfl, ⟨h.le, removeLast_wf h.eq hn⟩, rfl, ?_⟩
    simp only [Lists.Step, SystemOfEquations.lists, heq]
    exact congrArg (Lists.mk s.leRows) (removeLast_rows s.vars h.eq hn)
  | sortLe criteria descending =>
    refine ⟨_, rfl, ⟨sortBlock_wf s.vars descending h.le criteria, h.eq⟩, rfl, ?_, rfl⟩
    simp only [SystemOfEquations.lists, hle]
    exact sortBlock_rows s.vars descending s.le criteria
  | removeLeNumber k => cases hop
  | removeEqNumber k =>
    have hk : k < s.eq.eqns.toNat := heq ▸ hr
    refine ⟨_, rfl, ⟨h.le, removeLast_wf (shiftDown_wf s.vars h.eq k) ?_⟩, rfl, ?_⟩
    · rw [shiftDown_eqns]
      omega
    · exact congrArg (Lists.mk s.leRows) (shiftDown_rows s.vars h.eq hk)

/-- `Remove_Le_Number` keeps the number of inequalities, so it deletes none. -/
theorem removeLeNumber_not_step {s : SystemOfEquations} {k : Nat} (hk : k < s.leRows.length) :
    ¬ s.lists.Step s.vars (s.removeLeNumber k).lists (.removeLeNumber k) := by
  intro hstep
  have hlen := congrArg (fun l => l.le.length) hstep
  have hsame : (s.removeLeNumber k).leRows.length = s.leRows.length := by
    unfold SystemOfEquations.leRows
    rw [rows_length, rows_length]
    exact congrArg Int.toNat (shiftDown_eqns s.vars s.le k)
  simp only [SystemOfEquations.lists, hsame, List.length_eraseIdx_of_lt hk] at hlen
  omega

theorem step_count {vars : Nat} {l l' : Lists} {op : Op} (hr : op.InRange vars l.le.length l.eq.length)
    (h : l.Step vars l' op) : l'.le.length = op.leCount l.le.length ∧ l'.eq.length = op.eqCount l.eq.length := by
  cases op with
  | sortLe criteria descending =>
    obtain ⟨⟨criteria', hlen, hperm, -⟩, heq⟩ := h
    have hzip := hperm.length_eq
    rw [List.length_zip, List.length_zip, List.length_map, List.length_range] at hzip
    exact ⟨by simp only [Op.leCount]; omega, congrArg List.length heq⟩
  | removeLeNumber k =>
    cases h
    exact ⟨List.length_eraseIdx_of_lt hr, rfl⟩
  | removeEqNumber k =>
    cases h
    exact ⟨rfl, List.length_eraseIdx_of_lt hr⟩
  | _ =>
    cases h
    simp [Op.leCount, Op.eqCount]

/-! ## Whole runs -/

theorem runRefines_iff {s : SystemOfEquations} (h : s.Wf) {ops : List Op}
    (hr : RunInRange s.vars s.leRows.length s.eqRows.length ops) :
    RunRefines fresh s ops ↔ ∀ op ∈ ops, op.isRemoveLeNumber = false := by
  induction ops generalizing s with
  | nil => exact iff_of_true trivial (by simp)
  | cons op ops ih =>
    obtain ⟨hin, hrest⟩ := hr
    rw [List.forall_mem_cons, RunRefines]
    by_cases hop : op.isRemoveLeNumber = false
    · obtain ⟨s', hs, hwf, hv, hstep⟩ := step_refines fresh h hop hin
      obtain ⟨hle, heq⟩ := step_count hin hstep
      have hrest' : RunInRange s'.vars s'.leRows.length s'.eqRows.length ops := by
        rw [hv]
        exact hle ▸ heq ▸ hrest
      rw [← ih hwf hrest']
      constructor
      · rintro ⟨s1, hs1, -, hrun⟩
        rw [hs] at hs1
        cases hs1
        exact ⟨hop, hrun⟩
      · rintro ⟨-, hrun⟩
        exact ⟨s', hs, hstep, hrun⟩
    · refine iff_of_false ?_ (fun hall => hop hall.1)
      rintro ⟨s1, hs1, hstep, -⟩
      cases op with
      | removeLeNumber k =>
        cases hs1
        exact removeLeNumber_not_step hin hstep
      | _ => exact hop rfl

/-- A run from a new system refines the lists exactly when no operation of it is `Remove_Le_Number`. -/
theorem run_refines_iff (eqnsLe eqnsEq vars : Nat) (cells : Nat → Nat → Int) (ops : List Op)
    (hr : RunInRange vars 0 0 ops) :
    RunRefines fresh (SystemOfEquations.new fresh eqnsLe eqnsEq vars cells) ops ↔
      ∀ op ∈ ops, op.isRemoveLeNumber = false := by
  apply runRefines_iff
  · exact ⟨⟨le_rfl, Int.natCast_nonneg _⟩, ⟨le_rfl, Int.natCast_nonneg _⟩⟩
  · exact hr

/-- Two inequalities, sorted, the last dropped, an equality deleted. -/
theorem run_refines_iff_example :
    RunRefines (fun _ => 7) (SystemOfEquations.new (fun _ => 7) 1 0 1 fun _ _ => 9)
      [.addLe (fun _ => 1) 5, .addLe (fun _ => 2) 4, .addEq (fun _ => 3) 3, .sortLe (fun i => -i) false,
        .removeLastLe 1, .removeEqNumber 0] := by
  refine (run_refines_iff (fun _ => 7) 1 0 1 (fun _ _ => 9) _ ?_).mpr (by simp [Op.isRemoveLeNumber])
  simp [RunInRange, Op.InRange, Op.leCount, Op.eqCount]

/-- After one inequality and one equality, `Remove_Le_Number(0)` drops the equality and keeps the inequality. -/
theorem removeLeNumber_drops_equality :
    let ops : List Op := [.addLe (fun _ => 1) 5, .addEq (fun _ => 3) 3, .removeLeNumber 0]
    let s := SystemOfEquations.new (fun _ => 0) 2 2 1 fun _ _ => 0
    RunInRange 1 0 0 ops ∧ ¬ RunRefines (fun _ => 0) s ops ∧
      (ops.foldlM (step fun _ => 0) s).map SystemOfEquations.lists = some ⟨[⟨[1], 5⟩], []⟩ := by
  refine ⟨by simp [RunInRange, Op.InRange, Op.leCount], ?_, rfl⟩
  rw [runRefines_iff]
  · simp [Op.isRemoveLeNumber]
  · exact ⟨⟨by decide, by decide⟩, ⟨by decide, by decide⟩⟩
  · simp [RunInRange, Op.InRange, Op.leCount, SystemOfEquations.leRows, SystemOfEquations.new, Block.rows]

end Path64.Soe

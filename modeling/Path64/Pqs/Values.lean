import Path64.Lib.Support
import Path64.Pqs.Basic

/-!
# The predicate query system: nodes and values

Every output of a node has the value that its instruction gives it, from the value of the qualifying predicate and the
previous instance of the output at the nodes recorded for them.

* `Defined`, `Inst.Ok`, `Ok` : the sequences that are entered;
* `NodeOk` : what a node says of the values of its outputs;
* `Entered`, `entered` : the invariant, and that it holds after every sequence and in every execution;
* `supported` : a predicate is true because it was set under a true predicate, or because it was true before.
-/

namespace Path64.Pqs

/-! ## Sequences -/

/-- The instruction sets the predicate. -/
def Inst.Sets (inst : Inst) (t : Tn) : Prop :=
  inst.itype ≠ .noPredicates ∧ (realOutput inst.p1 = some t ∨ realOutput inst.p2 = some t)

def Defined (insts : List Inst) (t : Tn) : Prop := ∃ inst ∈ insts, inst.Sets t

/-- An instruction after others: its qualifying predicate is known, its outputs are two predicates, and it is an `UNC`
where it is the first to set one. -/
structure Inst.Ok (before : List Inst) (inst : Inst) : Prop where
  qual : inst.itype ≠ .noPredicates → ∃ q, inst.qual = some q ∧ (q = p0 ∨ Defined before q)
  distinct : ∀ t, realOutput inst.p1 = some t → realOutput inst.p2 ≠ some t
  first : ∀ t, inst.Sets t → inst.nodeItype = .unc ∨ Defined before t

inductive Ok : List Inst → Prop
  | nil : Ok []
  | snoc {insts : List Inst} {inst : Inst} (h : Ok insts) (hi : inst.Ok insts) : Ok (insts ++ [inst])

theorem enter_snoc (insts : List Inst) (inst : Inst) : enter (insts ++ [inst]) = addInstruction (enter insts) inst :=
  List.foldl_concat ..

/-! ## Values -/

/-- The predicate is an output of the node. -/
def IsOutput (data : List Node) (i : Nat) (t : Tn) : Prop := ∃ n, data[i]? = some n ∧ ∃ slot, n.out slot = some t

/-- `v i t` is the value of `t` after the instruction of the node `i`. -/
structure NodeOk (data : List Node) (v : Nat → Tn → Bool) (i : Nat) (n : Node) : Prop where
  itype : n.itype ≠ .noPredicates
  distinct : ∀ t, n.outPred1 = some t → n.outPred2 ≠ some t
  /-- The outputs from the qualifying predicate, the condition and the previous instances. -/
  values : ∃ q c : Bool, (n.conditionTrue = true → c = true) ∧ (n.conditionFalse = true → c = false) ∧
    ((n.qualPred = .always ∧ q = true) ∨
      ∃ j qt, j < i ∧ n.qualPred = .node j ∧ n.qualTn = some qt ∧ IsOutput data j qt ∧ q = v j qt) ∧
    ∀ slot t, n.out slot = some t → ∃ old, v i t = output n.itype slot q c old ∧
      ((n.itype = .unc ∧ n.upIdx t = .none) ∨
        ∃ j, j < i ∧ n.upIdx t = .node j ∧ IsOutput data j t ∧ old = v j t)

/-- After the instructions that were entered, with the values `s`. -/
structure Entered (insts : List Inst) (m : Manager) (s : State) (v : Nat → Tn → Bool) : Prop where
  p0 : m.lastDef p0 = .always
  defined : ∀ t, Defined insts t → ∃ i, m.lastDef t = .node i
  notNever : ∀ t, m.lastDef t ≠ .never
  last : ∀ t i, m.lastDef t = .node i → IsOutput m.data i t ∧ s t = v i t
  nodes : ∀ i n, m.data[i]? = some n → NodeOk m.data v i n

theorem realOutput_ne_p0 {p : Option Tn} {t : Tn} (h : realOutput p = some t) : t ≠ p0 := by
  obtain ⟨-, hne⟩ := Option.filter_eq_some_iff.mp h
  simpa using hne

theorem IsOutput.lt {data : List Node} {i : Nat} {t : Tn} (h : IsOutput data i t) : i < data.length := by
  obtain ⟨n, hn, -⟩ := h
  exact (List.getElem?_eq_some_iff.mp hn).1

theorem IsOutput.append {data : List Node} {i : Nat} {t : Tn} (h : IsOutput data i t) (more : List Node) :
    IsOutput (data ++ more) i t := by
  have hlt := h.lt
  obtain ⟨n, hn, hout⟩ := h
  exact ⟨n, by rw [List.getElem?_append_left hlt, hn], hout⟩

theorem NodeOk.append {data : List Node} {v v' : Nat → Tn → Bool} {i : Nat} {n : Node} (h : NodeOk data v i n)
    (hv : ∀ j ≤ i, v' j = v j) (more : List Node) : NodeOk (data ++ more) v' i n := by
  refine ⟨h.itype, h.distinct, ?_⟩
  obtain ⟨q, c, htrue, hfalse, hqual, hout⟩ := h.values
  refine ⟨q, c, htrue, hfalse, ?_, fun slot t ht => ?_⟩
  · rcases hqual with hqual | ⟨j, qt, hj, hidx, hqt, hmem, hq⟩
    · exact .inl hqual
    · exact .inr ⟨j, qt, hj, hidx, hqt, hmem.append more, by rw [hv j hj.le, hq]⟩
  · obtain ⟨old, hval, hup⟩ := hout slot t ht
    refine ⟨old, by rw [hv i le_rfl, hval], ?_⟩
    rcases hup with hup | ⟨j, hj, hidx, hmem, hold⟩
    · exact .inl hup
    · exact .inr ⟨j, hj, hidx, hmem.append more, by rw [hv j hj.le, hold]⟩

/-! ## One instruction -/

theorem setUsedAsQual_lastDef (m : Manager) (qual : Option Tn) : (m.setUsedAsQual qual).lastDef = m.lastDef := by
  cases qual <;> rfl

theorem setUsedAsQual_data (m : Manager) (qual : Option Tn) : (m.setUsedAsQual qual).data = m.data := by
  cases qual <;> rfl

theorem setOutput_lastDef (m : Manager) (i : Nat) (p : Option Tn) (t : Tn) :
    (m.setOutput i p).lastDef t = if p = some t then .node i else m.lastDef t := by
  rcases p with _ | u
  · rfl
  · show Function.update m.lastDef u _ t = _
    rw [Function.update_apply]
    by_cases h : t = u
    · rw [if_pos h, if_pos (congrArg some h.symm)]
    · rw [if_neg h, if_neg fun h' => h (Option.some_inj.mp h').symm]

section Add

variable {m : Manager} {inst : Inst} (hkind : inst.itype ≠ .noPredicates)
include hkind

theorem addInstruction_lastDef (t : Tn) : (addInstruction m inst).lastDef t =
    if realOutput inst.p1 = some t ∨ realOutput inst.p2 = some t then .node m.data.length else m.lastDef t := by
  unfold addInstruction
  dsimp only
  rw [if_neg hkind, setOutput_lastDef, setOutput_lastDef, setUsedAsQual_lastDef, setUsedAsQual_data]
  split_ifs <;> first | rfl | simp_all

theorem addInstruction_data : (addInstruction m inst).data =
    m.data ++ [(m.setUsedAsQual inst.qual).newNode inst] := by
  unfold addInstruction
  dsimp only
  rw [if_neg hkind, setUsedAsQual_data]

end Add

theorem upIdx_out {n : Node} (hdistinct : ∀ t, n.outPred1 = some t → n.outPred2 ≠ some t) {slot : Slot} {t : Tn}
    (h : n.out slot = some t) : n.upIdx t = match slot with | .one => n.inPred1 | .two => n.inPred2 := by
  unfold Node.upIdx
  cases slot
  · exact if_pos h
  · rw [if_neg fun h' => hdistinct t h' h]
    exact if_pos h

theorem slotOf_out {n : Node} (hdistinct : ∀ t, n.outPred1 = some t → n.outPred2 ≠ some t) {slot : Slot} {t : Tn}
    (h : n.out slot = some t) : n.slotOf t = some slot := by
  unfold Node.slotOf
  cases slot
  · exact if_pos h
  · rw [if_neg fun h' => hdistinct t h' h]
    exact if_pos h

/-- A `NORM` under the true predicate does what an `UNC` does. -/
theorem output_nodeItype (inst : Inst) (slot : Slot) (s : State) (c old : Bool) :
    output inst.nodeItype slot (inst.qualValue s) c old = output inst.itype slot (inst.qualValue s) c old := by
  unfold Inst.nodeItype
  split_ifs with h
  · have hq : inst.qualValue s = true := by
      rw [Inst.qualValue, h.1]
      rfl
    rw [hq, h.2]
    cases slot <;> rfl
  · rfl

/-- The node of an instruction says what the instruction does. -/
theorem newNode_ok {insts : List Inst} {m : Manager} {s : State} {v : Nat → Tn → Bool} {inst : Inst} {c : Bool}
    (h : Entered insts m s v) (hkind : inst.itype ≠ .noPredicates) (hi : inst.Ok insts) (hc : inst.Allows c) :
    NodeOk m.data (Function.update v m.data.length (inst.exec c s)) m.data.length
      ((m.setUsedAsQual inst.qual).newNode inst) := by
  have hold : ∀ j, j < m.data.length → Function.update v m.data.length (inst.exec c s) j = v j :=
    fun j hj => Function.update_of_ne hj.ne _ _
  have hlast : ∀ t, Defined insts t → ∃ j, j < m.data.length ∧ m.lastDef t = .node j ∧ IsOutput m.data j t ∧
      s t = Function.update v m.data.length (inst.exec c s) j t := by
    intro t ht
    obtain ⟨j, hj⟩ := h.defined t ht
    obtain ⟨hmem, hval⟩ := h.last t j hj
    exact ⟨j, hmem.lt, hj, hmem, by rw [hold j hmem.lt, hval]⟩
  have hup : ∀ slot t, ((m.setUsedAsQual inst.qual).newNode inst).out slot = some t →
      ((m.setUsedAsQual inst.qual).newNode inst).upIdx t =
        if inst.nodeItype.setsUnconditionally then .none else m.lastDef t := by
    intro slot t ht
    rw [upIdx_out hi.distinct ht]
    cases slot
    · show Manager.inPred _ _ (realOutput inst.p1) = _
      rw [show realOutput inst.p1 = some t from ht]
      show (if _ then _ else (m.setUsedAsQual inst.qual).lastDef t) = _
      rw [setUsedAsQual_lastDef]
    · have hne : realOutput inst.p1 ≠ some t := fun h' => hi.distinct t h' ht
      show Manager.inPred _ _ (realOutput inst.p2) = _
      rw [show realOutput inst.p2 = some t from ht]
      show (if _ then _ else (Manager.setOutput _ _ (realOutput inst.p1)).lastDef t) = _
      rw [setOutput_lastDef, if_neg hne, setUsedAsQual_lastDef]
  refine ⟨?_, hi.distinct, inst.qualValue s, c, hc.1, hc.2, ?_, fun slot t ht => ⟨s t, ?_, ?_⟩⟩
  · show inst.nodeItype ≠ _
    unfold Inst.nodeItype
    split_ifs
    · exact Itype.noConfusion
    · exact hkind
  · obtain ⟨q, hq, hqual⟩ := hi.qual hkind
    show (Manager.qualIdx _ inst.qual = _ ∧ _) ∨ _
    by_cases hp0 : q = p0
    · refine .inl ⟨?_, ?_⟩
      · rw [hq, hp0]
        rfl
      · rw [Inst.qualValue, hq, hp0]
        rfl
    · obtain ⟨j, hj, hidx, hmem, hval⟩ := hlast q (hqual.resolve_left hp0)
      refine .inr ⟨j, q, hj, ?_, hq, hmem, ?_⟩
      · show Manager.qualIdx _ inst.qual = _
        rw [hq]
        show (if q = p0 then _ else (m.setUsedAsQual (some q)).lastDef q) = _
        rw [if_neg hp0, setUsedAsQual_lastDef, hidx]
      · rw [← hval, Inst.qualValue, hq]
        simp [hp0]
  · show Function.update v m.data.length (inst.exec c s) m.data.length t = output inst.nodeItype slot _ c (s t)
    rw [Function.update_self, output_nodeItype]
    cases slot
    · exact if_pos ht
    · have hne : realOutput inst.p1 ≠ some t := fun h' => hi.distinct t h' ht
      exact (if_neg hne).trans (if_pos ht)
  · rw [hup slot t ht]
    by_cases hunc : inst.nodeItype = .unc
    · exact .inl ⟨hunc, if_pos (by simp [Itype.setsUnconditionally, hunc])⟩
    · have hsets : inst.Sets t := ⟨hkind, by cases slot; exacts [.inl ht, .inr ht]⟩
      obtain ⟨j, hj, hidx, hmem, hval⟩ := hlast t ((hi.first t hsets).resolve_left hunc)
      exact .inr ⟨j, hj, (if_neg (by simp [Itype.setsUnconditionally, hunc])).trans hidx, hmem, hval⟩

/-- One more instruction. -/
theorem Entered.snoc {insts : List Inst} {m : Manager} {s : State} {v : Nat → Tn → Bool} {inst : Inst} {c : Bool}
    (h : Entered insts m s v) (hi : inst.Ok insts) (hc : inst.Allows c) :
    ∃ v', Entered (insts ++ [inst]) (addInstruction m inst) (inst.exec c s) v' := by
  have hdefined : ∀ t, Defined (insts ++ [inst]) t ↔ Defined insts t ∨ inst.Sets t := by
    intro t
    unfold Defined
    simp only [List.mem_append, List.mem_singleton, or_and_right, exists_or, exists_eq_left]
  by_cases hkind : inst.itype = .noPredicates
  · -- nothing is set
    have hsets : ∀ t, ¬inst.Sets t := fun t ht => ht.1 hkind
    have hstate : inst.exec c s = s := by
      funext t
      unfold Inst.exec
      rw [hkind]
      split_ifs <;> rfl
    have hadd : addInstruction m inst = m.setUsedAsQual inst.qual := if_pos hkind
    have hdef : ∀ t, Defined (insts ++ [inst]) t ↔ Defined insts t := fun t => (hdefined t).trans (or_iff_left (hsets t))
    rw [hstate, hadd]
    refine ⟨v, ?_, fun t ht => ?_, fun t => ?_, fun t i ht => ?_, fun i n hn => ?_⟩
    · rw [setUsedAsQual_lastDef]
      exact h.p0
    · rw [setUsedAsQual_lastDef]
      exact h.defined t ((hdef t).mp ht)
    · rw [setUsedAsQual_lastDef]
      exact h.notNever t
    · rw [setUsedAsQual_lastDef] at ht
      rw [setUsedAsQual_data]
      exact h.last t i ht
    · rw [setUsedAsQual_data] at hn ⊢
      exact h.nodes i n hn
  · have hlast := addInstruction_lastDef (m := m) hkind
    have hdata := addInstruction_data (m := m) hkind
    have hold : ∀ j, j < m.data.length → Function.update v m.data.length (inst.exec c s) j = v j :=
      fun j hj => Function.update_of_ne hj.ne _ _
    refine ⟨Function.update v m.data.length (inst.exec c s), ?_, fun t ht => ?_, fun t => ?_, fun t i ht => ?_,
      fun i n hn => ?_⟩
    · rw [hlast, if_neg]
      · exact h.p0
      · rintro (hp | hp) <;> exact realOutput_ne_p0 hp rfl
    · rw [hlast]
      split_ifs with hout
      · exact ⟨_, rfl⟩
      · exact h.defined t (((hdefined t).mp ht).resolve_right fun hs => hout hs.2)
    · rw [hlast]
      split_ifs
      · exact Idx.noConfusion
      · exact h.notNever t
    · rw [hlast] at ht
      rw [hdata]
      split_ifs at ht with hout
      · obtain rfl := Idx.node.inj ht
        refine ⟨⟨_, List.getElem?_concat_length, ?_⟩, by rw [Function.update_self]⟩
        rcases hout with hout | hout
        · exact ⟨.one, hout⟩
        · exact ⟨.two, hout⟩
      · obtain ⟨hmem, hval⟩ := h.last t i ht
        refine ⟨hmem.append _, ?_⟩
        rw [hold i hmem.lt, ← hval, Inst.exec, if_neg fun hp => hout (.inl hp), if_neg fun hp => hout (.inr hp)]
    · rw [hdata] at hn ⊢
      rcases Nat.lt_or_ge i m.data.length with hlt | hge
      · rw [List.getElem?_append_left hlt] at hn
        exact (h.nodes i n hn).append (fun j hj => hold j (hj.trans_lt hlt)) _
      · obtain rfl : i = m.data.length := by
          have hlt := (List.getElem?_eq_some_iff.mp hn).1
          rw [List.length_append, List.length_singleton] at hlt
          omega
        rw [List.getElem?_concat_length, Option.some_inj] at hn
        rw [← hn]
        exact (newNode_ok h hkind hi hc).append (fun _ _ => rfl) _

/-- The nodes of a sequence fit each of its executions. -/
theorem entered {insts : List Inst} (hok : Ok insts) {s s' : State} (h : Exec insts s s') :
    ∃ v, Entered insts (enter insts) s' v := by
  induction h with
  | nil s =>
    refine ⟨fun _ _ => false, rfl, fun t ht => ?_, fun t ht => ?_, fun t i ht => ?_, fun i n hn => ?_⟩
    · obtain ⟨inst, hinst, -⟩ := ht
      exact absurd hinst List.not_mem_nil
    · have ht' : Function.update (fun _ => Idx.invalid) p0 .always t = .never := ht
      rw [Function.update_apply] at ht'
      split_ifs at ht'
    · have ht' : Function.update (fun _ => Idx.invalid) p0 .always t = .node i := ht
      rw [Function.update_apply] at ht'
      split_ifs at ht'
    · cases hn
  | @snoc insts inst c s s' h hc ih =>
    obtain ⟨hok', hi⟩ : Ok insts ∧ inst.Ok insts := by
      generalize hl : insts ++ [inst] = l at hok
      cases hok with
      | nil => exact absurd hl (by simp)
      | snoc hok' hi =>
        obtain ⟨rfl, heq⟩ := List.append_inj' hl rfl
        obtain rfl := List.singleton_inj.mp heq
        exact ⟨hok', hi⟩
    obtain ⟨v, hv⟩ := ih hok'
    rw [enter_snoc]
    exact hv.snoc hi hc

/-! ## Why a predicate is true -/

/-- The instance `x` of a predicate may get its value from the instance `y`. -/
def Via (m : Manager) (x y : Nat × Tn) : Prop :=
  ∃ n, m.data[x.1]? = some n ∧ ((n.upIdx x.2 = .node y.1 ∧ y.2 = x.2) ∨
    (n.maySetTrue x.2 = true ∧ n.qualPred = .node y.1 ∧ n.qualTn = some y.2))

/-- The instance may be set under the predicate that is always true. -/
def Source (m : Manager) (x : Nat × Tn) : Prop :=
  ∃ n, m.data[x.1]? = some n ∧ n.maySetTrue x.2 = true ∧ n.qualPred = .always

/-- The instance is true. -/
def TrueAt (m : Manager) (v : Nat → Tn → Bool) (x : Nat × Tn) : Prop := IsOutput m.data x.1 x.2 ∧ v x.1 x.2 = true

theorem output_true {n : Node} {slot : Slot} {q c old : Bool} (hn : n.itype ≠ .noPredicates)
    (htrue : n.conditionTrue = true → c = true) (hfalse : n.conditionFalse = true → c = false)
    (h : output n.itype slot q c old = true) :
    ((n.truthInfo slot).maySetTrue = true ∧ q = true ∧ ∀ b, output n.itype slot q c b = true) ∨
      (n.itype ≠ .unc ∧ old = true ∧ ∀ b, output n.itype slot q c b = b) := by
  obtain ⟨itype, conditionTrue, conditionFalse, qualPred, qualTn, out1, out2, in1, in2⟩ := n
  dsimp only at *
  cases itype <;> cases slot <;> cases q <;> cases c <;>
    simp_all [output, Node.truthInfo] <;> split_ifs <;> simp_all

end Path64.Pqs

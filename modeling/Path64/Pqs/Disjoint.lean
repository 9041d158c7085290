import Path64.Pqs.Values

/-!
# The predicate query system: disjoint predicates

`PQS_is_disjoint` marks the instances that `tn1` may get its value from and looks for them among those of `tn2`; a
collision is taken to settle the matter, although `tn1` may have other ways to become true. The form for sets drops the
answers for the members.

* `supported` : a true instance was set under a true predicate, or true before;
* `Walk` : the instances of `tn2` that the search goes on to;
* `Separated` : every collision the search meets is on all ways in which `tn1` can become true, and not at an `OR` that sets
  both;
* `isDisjoint_sound` : then the answer for two predicates is right;
* `isDisjointSets_eq` : the answer for sets is `TRUE` whenever all members can be queried;
* `sound_of_separated` : when both forms are right.
-/

namespace Path64.Pqs

open Lib Relation

variable {insts : List Inst} {m : Manager} {s : State} {v : Nat → Tn → Bool}

/-! ## Ways to become true -/

theorem out_of_upIdx {n : Node} {t : Tn} {j : Nat} (h : n.upIdx t = .node j) : ∃ slot, n.out slot = some t := by
  unfold Node.upIdx at h
  split_ifs at h with h1 h2
  · exact ⟨.one, h1⟩
  · exact ⟨.two, h2⟩

theorem via_lt (h : Entered insts m s v) (x y : Nat × Tn) (hvia : Via m x y) : y.1 < x.1 := by
  obtain ⟨n, hn, hvia⟩ := hvia
  obtain ⟨q, c, -, -, hqual, hout⟩ := (h.nodes x.1 n hn).values
  rcases hvia with ⟨hup, -⟩ | ⟨-, hidx, -⟩
  · obtain ⟨slot, hslot⟩ := out_of_upIdx hup
    obtain ⟨old, -, ⟨-, hnone⟩ | ⟨j, hj, hidx, -⟩⟩ := hout slot x.2 hslot
    · rw [hnone] at hup
      cases hup
    · rw [hidx] at hup
      cases hup
      exact hj
  · rcases hqual with ⟨halways, -⟩ | ⟨j, qt, hj, hnode, -⟩
    · rw [halways] at hidx
      cases hidx
    · rw [hnode] at hidx
      cases hidx
      exact hj

theorem via_isOutput (h : Entered insts m s v) {x y : Nat × Tn} (hvia : Via m x y) : IsOutput m.data y.1 y.2 := by
  obtain ⟨n, hn, hvia⟩ := hvia
  obtain ⟨q, c, -, -, hqual, hout⟩ := (h.nodes x.1 n hn).values
  rcases hvia with ⟨hup, hy⟩ | ⟨-, hidx, hqt⟩
  · obtain ⟨slot, hslot⟩ := out_of_upIdx hup
    obtain ⟨old, -, ⟨-, hnone⟩ | ⟨j, -, hidx, hmem, -⟩⟩ := hout slot x.2 hslot
    · rw [hnone] at hup
      cases hup
    · rw [hidx] at hup
      cases hup
      rwa [hy]
  · rcases hqual with ⟨halways, -⟩ | ⟨j, qt, -, hnode, hqt', hmem, -⟩
    · rw [halways] at hidx
      cases hidx
    · rw [hnode] at hidx
      cases hidx
      rw [hqt'] at hqt
      cases hqt
      exact hmem

theorem maySetTrue_out {n : Node} (hdistinct : ∀ t, n.outPred1 = some t → n.outPred2 ≠ some t) {slot : Slot} {t : Tn}
    (h : n.out slot = some t) : n.maySetTrue t = (n.truthInfo slot).maySetTrue := by
  rw [Node.maySetTrue, slotOf_out hdistinct h]
  rfl

theorem alwaysSetFalse_out {n : Node} (hdistinct : ∀ t, n.outPred1 = some t → n.outPred2 ≠ some t) {slot : Slot}
    {t : Tn} (h : n.out slot = some t) : n.alwaysSetFalse t = (n.truthInfo slot).alwaysSetFalse := by
  rw [Node.alwaysSetFalse, slotOf_out hdistinct h]
  rfl

theorem trueAt_cases (h : Entered insts m s v) {i : Nat} {n : Node} (hn : m.data[i]? = some n) {slot : Slot} {t : Tn}
    (hslot : n.out slot = some t) (htrue : v i t = true) :
    ∃ q c : Bool, (n.conditionTrue = true → c = true) ∧ (n.conditionFalse = true → c = false) ∧
      (n.qualPred = .always → q = true) ∧
      (∀ slot' t', n.out slot' = some t' → ∃ old, v i t' = output n.itype slot' q c old) ∧
      ((n.maySetTrue t = true ∧ (∀ b, output n.itype slot q c b = true) ∧ (n.qualPred = .always ∨
          ∃ j qt, n.qualPred = .node j ∧ n.qualTn = some qt ∧ TrueAt m v (j, qt))) ∨
        ((∀ b, output n.itype slot q c b = b) ∧ ∃ j, n.upIdx t = .node j ∧ TrueAt m v (j, t))) := by
  have hok := h.nodes i n hn
  obtain ⟨q, c, hctrue, hcfalse, hqual, hout⟩ := hok.values
  obtain ⟨old, hval, hup⟩ := hout slot t hslot
  rw [htrue] at hval
  refine ⟨q, c, hctrue, hcfalse, fun halways => ?_, fun slot' t' ht' => ?_, ?_⟩
  · rcases hqual with ⟨-, hq⟩ | ⟨j, qt, -, hidx, -⟩
    · exact hq
    · rw [halways] at hidx
      cases hidx
  · obtain ⟨old', hval', -⟩ := hout slot' t' ht'
    exact ⟨old', hval'⟩
  · rcases output_true hok.itype hctrue hcfalse hval.symm with ⟨hmay, hq, hset⟩ | ⟨hunc, hold, hkept⟩
    · refine .inl ⟨(maySetTrue_out hok.distinct hslot).trans hmay, hset, ?_⟩
      rcases hqual with ⟨halways, -⟩ | ⟨j, qt, -, hidx, hqt, hmem, hqv⟩
      · exact .inl halways
      · exact .inr ⟨j, qt, hidx, hqt, hmem, hqv.symm.trans hq⟩
    · rcases hup with ⟨hunc', -⟩ | ⟨j, -, hidx, hmem, hj⟩
      · exact absurd hunc' hunc
      · exact .inr ⟨hkept, j, hidx, hmem, hj.symm.trans hold⟩

/-- A true instance was set under a true predicate, or was true before. -/
theorem supported (h : Entered insts m s v) : Supported (Via m) (Source m) (TrueAt m v) := by
  rintro ⟨i, t⟩ ⟨⟨n, hn, slot, hslot⟩, htrue⟩
  obtain ⟨q, c, -, -, -, -, ⟨hmay, -, halways | ⟨j, qt, hidx, hqt, hj⟩⟩ | ⟨-, j, hidx, hj⟩⟩ :=
    trueAt_cases h hn hslot htrue
  · exact .inl ⟨n, hn, hmay, halways⟩
  · exact .inr ⟨(j, qt), ⟨n, hn, .inr ⟨hmay, hidx, hqt⟩⟩, hj⟩
  · exact .inr ⟨(j, t), ⟨n, hn, .inl ⟨hidx, rfl⟩⟩, hj⟩

/-- Only what an instance may get its value from is marked. -/
theorem mem_parents {fuel : Nat} {idx : Idx} {tn : Tn} {x : Nat × Tn} (hx : x ∈ m.parents fuel idx tn) :
    ∃ i, idx = .node i ∧ ReflTransGen (Via m) (i, tn) x := by
  induction fuel generalizing idx tn with
  | zero =>
    cases idx <;> exact absurd hx List.not_mem_nil
  | succ fuel ih =>
    rcases idx with _ | _ | _ | _ | i
    · exact absurd hx List.not_mem_nil
    · exact absurd hx List.not_mem_nil
    · exact absurd hx List.not_mem_nil
    · exact absurd hx List.not_mem_nil
    · refine ⟨i, rfl, ?_⟩
      rw [Manager.parents] at hx
      rcases hn : m.data[i]? with _ | n
      · rw [hn] at hx
        exact absurd hx List.not_mem_nil
      · rw [hn] at hx
        rcases List.mem_append.mp hx with hx | hx
        · rcases List.mem_cons.mp hx with rfl | hx
          · exact ReflTransGen.refl
          · split_ifs at hx with hmay
            · rcases hqt : n.qualTn with _ | qt
              · rw [hqt] at hx
                exact absurd hx List.not_mem_nil
              · rw [hqt] at hx
                obtain ⟨j, hj, hchain⟩ := ih hx
                exact ReflTransGen.head ⟨n, hn, .inr ⟨hmay, hj, hqt⟩⟩ hchain
            · exact absurd hx List.not_mem_nil
        · obtain ⟨j, hj, hchain⟩ := ih hx
          exact ReflTransGen.head (b := (j, tn)) ⟨n, hn, .inl ⟨hj, rfl⟩⟩ hchain

/-- All that an instance may get its value from is marked. -/
theorem mem_parents_of_via (h : Entered insts m s v) {fuel i : Nat} {tn : Tn} {x : Nat × Tn} (hi : i < fuel)
    (hlen : i < m.data.length) (hx : ReflTransGen (Via m) (i, tn) x) : x ∈ m.parents fuel (.node i) tn := by
  induction fuel generalizing i tn with
  | zero => exact absurd hi (Nat.not_lt_zero i)
  | succ fuel ih =>
    rw [Manager.parents, List.getElem?_eq_getElem hlen]
    rcases hx.cases_head with rfl | ⟨⟨j, u⟩, hvia, hrest⟩
    · exact List.mem_append_left _ List.mem_cons_self
    · have hj : j < i := via_lt h _ _ hvia
      have hmem := ih (by omega) (by omega) hrest
      obtain ⟨n, hn, ⟨hup, hu⟩ | ⟨hmay, hqual, hqt⟩⟩ := hvia
      · obtain rfl := Option.some_inj.mp ((List.getElem?_eq_getElem hlen).symm.trans hn)
        dsimp only at hup hu ⊢
        rw [hup, ← hu]
        exact List.mem_append_right _ hmem
      · obtain rfl := Option.some_inj.mp ((List.getElem?_eq_getElem hlen).symm.trans hn)
        refine List.mem_append_left _ (List.mem_cons_of_mem _ ?_)
        dsimp only at hmay hqual hqt
        rw [if_pos hmay, hqt, hqual]
        exact hmem

/-! ## Two outputs of a node -/

/-- An instruction other than `OR` and `ORCM` that sets one output true does not leave the other true. -/
theorem output_exclusive {itype : Itype} {a b : Slot} {q c old : Bool} (hab : a ≠ b) (hnone : itype ≠ .noPredicates)
    (hor : itype ≠ .or) (horcm : itype ≠ .orcm) (hset : ∀ x, output itype b q c x = true) :
    output itype a q c old = false := by
  have h := hset false
  cases itype <;> cases a <;> cases b <;> cases q <;> cases c <;> simp_all [output]

theorem output_alwaysSetFalse {n : Node} {a : Slot} {c old : Bool} (htrue : n.conditionTrue = true → c = true)
    (hfalse : n.conditionFalse = true → c = false) (h : (n.truthInfo a).alwaysSetFalse = true) :
    output n.itype a true c old = false := by
  obtain ⟨itype, conditionTrue, conditionFalse, qualPred, qualTn, out1, out2, in1, in2⟩ := n
  dsimp only at *
  cases itype <;> cases a <;> cases c <;> cases conditionTrue <;> cases conditionFalse <;>
    simp_all [output, Node.truthInfo]

theorem alwaysSetFalse_not_kept {n : Node} {a b : Slot} {c : Bool} (htrue : n.conditionTrue = true → c = true)
    (hfalse : n.conditionFalse = true → c = false) (h : (n.truthInfo a).alwaysSetFalse = true)
    (hkept : ∀ x, output n.itype b true c x = x) : False := by
  obtain ⟨itype, conditionTrue, conditionFalse, qualPred, qualTn, out1, out2, in1, in2⟩ := n
  have h0 := hkept false
  have h1 := hkept true
  dsimp only at *
  cases itype <;> cases a <;> cases b <;> cases c <;> cases conditionTrue <;> cases conditionFalse <;>
    simp_all [output, Node.truthInfo]

/-- The answer that two outputs are never true together is right. -/
theorem neverTrueTogether_sound (h : Entered insts m s v) {i : Nat} {n : Node} (hn : m.data[i]? = some n) {t u : Tn}
    (ht : TrueAt m v (i, t)) (hu : TrueAt m v (i, u)) : n.neverTrueTogether t u ≠ .always := by
  obtain ⟨⟨n', hn', a, ha⟩, htv⟩ := ht
  obtain ⟨⟨n'', hn'', b, hb⟩, huv⟩ := hu
  obtain rfl := Option.some_inj.mp (hn.symm.trans hn')
  obtain rfl := Option.some_inj.mp (hn.symm.trans hn'')
  have hdistinct := (h.nodes i n hn).distinct
  intro hverdict
  unfold Node.neverTrueTogether at hverdict
  split_ifs at hverdict with htu halways hunc
  · obtain ⟨q, c, hctrue, hcfalse, hq, hout, -⟩ := trueAt_cases h hn ha htv
    obtain ⟨old, hval⟩ := hout a t ha
    obtain ⟨old', hval'⟩ := hout b u hb
    rw [hq halways.1] at hval hval'
    rcases (Bool.or_eq_true _ _).mp halways.2 with hf | hf
    · rw [alwaysSetFalse_out hdistinct ha] at hf
      rw [output_alwaysSetFalse hctrue hcfalse hf, htv] at hval
      cases hval
    · rw [alwaysSetFalse_out hdistinct hb] at hf
      rw [output_alwaysSetFalse hctrue hcfalse hf, huv] at hval'
      cases hval'
  · obtain ⟨q, c, -, -, -, hout, -⟩ := trueAt_cases h hn ha htv
    obtain ⟨old, hval⟩ := hout a t ha
    obtain ⟨old', hval'⟩ := hout b u hb
    have hab : a ≠ b := by
      rintro rfl
      exact htu (Option.some_inj.mp (ha.symm.trans hb))
    rw [hunc] at hval hval'
    rw [htv] at hval
    rw [huv] at hval'
    cases a <;> cases b <;> first
      | exact hab rfl
      | (cases q <;> cases c <;> first
          | exact absurd (show true = false from hval) Bool.noConfusion
          | exact absurd (show true = false from hval') Bool.noConfusion)

/-! ## The search -/

/-- The instance is marked as one that `a` may get its value from. -/
def Marked (m : Manager) (a x : Nat × Tn) : Prop := ReflTransGen (Via m) a x

/-- The search goes on from `x` to `y`: at a marked node to the previous instance where that is asked for, at others to the
previous instance and to the qualifying predicate. -/
def Walk (m : Manager) (marked : Nat × Tn → Prop) (x y : Nat × Tn) : Prop :=
  ∃ n, m.data[x.1]? = some n ∧
    ((n.upIdx x.2 = .node y.1 ∧ y.2 = x.2 ∧
        ((∃ t, marked (x.1, t)) → ∃ t, marked (x.1, t) ∧ n.neverTrueTogether t x.2 = .possible)) ∨
      (n.maySetTrue x.2 = true ∧ n.qualPred = .node y.1 ∧ n.qualTn = some y.2 ∧ ∀ t, ¬marked (x.1, t)))

/-- Every collision that the search from `b` meets at a node that may set the instance it came with: `a` cannot be true without
the marked instance, and the node does not set both. -/
def SeparatedAt (m : Manager) (a b : Nat × Tn) : Prop :=
  ∀ i t u, ReflTransGen (Walk m (Marked m a)) b (i, u) → Marked m a (i, t) → ¬Marked m a (i, u) → ∀ n, m.data[i]? = some n →
    n.maySetTrue u = true → Needs (Via m) (Source m) a (i, t) ∧ n.itype ≠ .or ∧ n.itype ≠ .orcm

theorem exists_marked {marks : List (Nat × Tn)} {i : Nat} {n : Node}
    (h : (markedAt marks i n.outPred1 || markedAt marks i n.outPred2) = true) :
    ∃ slot t, n.out slot = some t ∧ (i, t) ∈ marks ∧
      ∀ tn, verdictAt marks i n (n.out slot) tn = n.neverTrueTogether t tn := by
  rcases (Bool.or_eq_true _ _).mp h with h | h
  · obtain ⟨t, ht, hmem⟩ := (Option.any_eq_true _ _).mp h
    refine ⟨.one, t, ht, by simpa using hmem, fun tn => (if_pos h).trans ?_⟩
    rw [show n.out .one = some t from ht]
    rfl
  · obtain ⟨t, ht, hmem⟩ := (Option.any_eq_true _ _).mp h
    refine ⟨.two, t, ht, by simpa using hmem, fun tn => (if_pos h).trans ?_⟩
    rw [show n.out .two = some t from ht]
    rfl

/-- When the search says so, no instance it goes on to is true together with the marked ones it needs. -/
theorem disjointHelper_sound (h : Entered insts m s v) {marks : List (Nat × Tn)} {marked : Nat × Tn → Prop}
    {b : Nat × Tn} (hmarks : ∀ x, x ∈ marks ↔ marked x) (houtput : ∀ x, marked x → IsOutput m.data x.1 x.2)
    (hsep : ∀ i t u, ReflTransGen (Walk m marked) b (i, u) → marked (i, t) → ¬marked (i, u) → ∀ n, m.data[i]? = some n →
      n.maySetTrue u = true → TrueAt m v (i, t) ∧ n.itype ≠ .or ∧ n.itype ≠ .orcm) :
    ∀ (fuel : Nat) {j : Nat} {tn : Tn}, ReflTransGen (Walk m marked) b (j, tn) →
      m.disjointHelper marks fuel (.node j) tn = true → ¬TrueAt m v (j, tn) := by
  intro fuel
  induction fuel with
  | zero => exact fun _ hrun => absurd hrun Bool.false_ne_true
  | succ fuel ih =>
    intro j tn hreach hrun htrue
    obtain ⟨⟨n, hn, slot, hslot⟩, hval⟩ := htrue
    have hdistinct := (h.nodes j n hn).distinct
    rw [Manager.disjointHelper] at hrun
    simp only [hn] at hrun
    obtain ⟨q, c, hctrue, hcfalse, hq, hout, hway⟩ := trueAt_cases h hn hslot hval
    by_cases hmarked : (markedAt marks j n.outPred1 || markedAt marks j n.outPred2) = true
    · rw [if_pos hmarked] at hrun
      obtain ⟨a, t, ha, hmem, hat⟩ := exists_marked hmarked
      rw [Bool.and_eq_true, Bool.and_eq_true, decide_eq_true_eq, decide_eq_true_eq] at hrun
      have hverdict : ∀ slot, verdictAt marks j n (n.out slot) tn ≠ .never := by
        intro slot
        cases slot
        · exact hrun.1.2
        · exact hrun.2
      -- an instance that is marked itself is not disjoint
      have hunmarked : (j, tn) ∉ marks := by
        intro hmem
        refine hverdict slot ?_
        have hat : markedAt marks j (some tn) = true := by simpa [markedAt] using hmem
        rw [hslot, verdictAt, if_pos hat]
        exact if_pos rfl
      have htu : t ≠ tn := by
        rintro rfl
        exact hunmarked hmem
      have hab : a ≠ slot := by
        rintro rfl
        exact htu (Option.some_inj.mp (ha.symm.trans hslot))
      rcases hway with ⟨hmay, hset, -⟩ | ⟨hkept, j', hidx, hj'⟩
      · -- set here, so that the marked output is false
        obtain ⟨⟨-, htv⟩, hor, horcm⟩ :=
          hsep j t tn hreach ((hmarks _).mp hmem) (fun h => hunmarked ((hmarks _).mpr h)) n hn hmay
        obtain ⟨old, hold⟩ := hout a t ha
        rw [htv, output_exclusive hab (h.nodes j n hn).itype hor horcm hset] at hold
        cases hold
      · -- true before, which the search goes on to exclude
        have hpossible : n.neverTrueTogether t tn = .possible := by
          unfold Node.neverTrueTogether
          rw [if_neg htu, if_neg, if_neg]
          · intro hunc
            have h0 := hkept true
            have h1 := hkept false
            rw [hunc] at h0 h1
            cases slot <;> cases q <;> cases c <;> first
              | exact absurd (show false = true from h0) Bool.noConfusion
              | exact absurd (show true = false from h1) Bool.noConfusion
          · rintro ⟨halways, hf⟩
            rw [hq halways] at hkept
            rcases (Bool.or_eq_true _ _).mp hf with hf | hf
            · exact alwaysSetFalse_not_kept hctrue hcfalse ((alwaysSetFalse_out hdistinct ha).symm.trans hf) hkept
            · exact alwaysSetFalse_not_kept hctrue hcfalse ((alwaysSetFalse_out hdistinct hslot).symm.trans hf) hkept
        have hup := hrun.1.1
        rw [if_pos, hidx] at hup
        · exact ih (hreach.tail (c := (j', tn))
            ⟨n, hn, .inl ⟨hidx, rfl, fun _ => ⟨t, (hmarks _).mp hmem, hpossible⟩⟩⟩) hup hj'
        · rw [← hat] at hpossible
          cases a
          · exact .inl hpossible
          · exact .inr hpossible
    · have hnone : ∀ t, ¬marked (j, t) := by
        intro t ht
        obtain ⟨n', hn', slot', hslot'⟩ := houtput _ ht
        obtain rfl := Option.some_inj.mp (hn.symm.trans hn')
        have hat : markedAt marks j (n.out slot') = true := by
          rw [hslot']
          simpa [markedAt] using (hmarks _).mpr ht
        refine hmarked ?_
        rw [Bool.or_eq_true]
        cases slot'
        · exact .inl hat
        · exact .inr hat
      rw [if_neg hmarked, Bool.and_eq_true] at hrun
      rcases hway with ⟨hmay, -, hway⟩ | ⟨-, j', hidx, hj'⟩
      · have hqual := hrun.1
        rw [if_pos hmay] at hqual
        rcases hway with halways | ⟨j', qt, hidx, hqt, hj'⟩
        · rw [halways] at hqual
          rcases hqt : n.qualTn with _ | qt <;> rw [hqt] at hqual <;> cases fuel <;> cases hqual
        · rw [hqt, hidx] at hqual
          exact ih (hreach.tail (c := (j', qt)) ⟨n, hn, .inr ⟨hmay, hidx, hqt, hnone⟩⟩) hqual hj'
      · have hup := hrun.2
        rw [hidx] at hup
        exact ih (hreach.tail (c := (j', tn)) ⟨n, hn, .inl ⟨hidx, rfl, fun ⟨t, ht⟩ => (hnone t ht).elim⟩⟩) hup hj'

/-! ## The answers -/

/-- The query about two predicates last set by the nodes `i1` and `i2` goes as far as the search. -/
structure Searched (m : Manager) (tn1 tn2 : Tn) (i1 i2 : Nat) : Prop where
  ne : tn1 ≠ tn2
  query1 : m.noQuery tn1 = false
  query2 : m.noQuery tn2 = false
  node1 : m.lastDef tn1 = .node i1
  node2 : m.lastDef tn2 = .node i2
  same : i1 = i2 → ∀ n, m.data[i1]? = some n → n.neverTrueTogether tn1 tn2 = .possible

/-- Every collision between the ways in which `tn1` and `tn2` can have become true that a search meets is a necessary one. -/
def Separated (m : Manager) (tn1 tn2 : Tn) : Prop :=
  ∀ i1 i2, Searched m tn1 tn2 i1 i2 → SeparatedAt m (i1, tn1) (i2, tn2)

/-- The value of a predicate. -/
def State.val (s : State) (t : Tn) : Bool := t = p0 || s t

theorem searchDisjoint_sound (h : Entered insts m s v) {tn1 tn2 : Tn} {i1 i2 : Nat} (hl1 : m.lastDef tn1 = .node i1)
    (hl2 : m.lastDef tn2 = .node i2) (hsep : SeparatedAt m (i1, tn1) (i2, tn2))
    (hrun : m.searchDisjoint (.node i1) (.node i2) tn1 tn2 = true) (h1 : s tn1 = true) (h2 : s tn2 = true) : False := by
  obtain ⟨hmem1, hval1⟩ := h.last tn1 i1 hl1
  obtain ⟨hmem2, hval2⟩ := h.last tn2 i2 hl2
  have hmarks : ∀ x, x ∈ m.parents m.data.length (.node i1) tn1 ↔ Marked m (i1, tn1) x := by
    refine fun x => ⟨fun hx => ?_, mem_parents_of_via h hmem1.lt hmem1.lt⟩
    obtain ⟨i, hi, hchain⟩ := mem_parents hx
    cases hi
    exact hchain
  have houtput : ∀ x, Marked m (i1, tn1) x → IsOutput m.data x.1 x.2 := by
    intro x hx
    rcases hx.cases_tail with rfl | ⟨y, -, hvia⟩
    · exact hmem1
    · exact via_isOutput h hvia
  refine disjointHelper_sound h hmarks houtput (fun i t u hwalk ht hu n hn hmay => ?_) m.data.length ReflTransGen.refl hrun
    ⟨hmem2, hval2.symm.trans h2⟩
  obtain ⟨hneeds, hkind⟩ := hsep i t u hwalk ht hu n hn hmay
  exact ⟨hneeds.holds (supported h) (r := Prod.fst) (via_lt h) ⟨hmem1, hval1.symm.trans h1⟩, hkind⟩

theorem isDisjointAt_sound (h : Entered insts m s v) {tn1 tn2 : Tn} (hquery1 : m.noQuery tn1 = false)
    (hquery2 : m.noQuery tn2 = false) (hsep : Separated m tn1 tn2)
    (hrun : m.isDisjointAt (m.lastDef tn1) (m.lastDef tn2) tn1 tn2 = some true) :
    ¬(s.val tn1 = true ∧ s.val tn2 = true) := by
  rintro ⟨h1, h2⟩
  unfold Manager.isDisjointAt at hrun
  by_cases hne : tn1 = tn2
  · rw [if_pos hne] at hrun
    cases hrun
  rw [if_neg hne, if_neg fun hnever => hnever.elim (h.notNever tn1) (h.notNever tn2)] at hrun
  by_cases halways : m.lastDef tn1 = .always ∨ m.lastDef tn2 = .always
  · rw [if_pos halways] at hrun
    cases hrun
  rw [if_neg halways] at hrun
  have hp1 : tn1 ≠ p0 := by
    rintro rfl
    exact halways (.inl h.p0)
  have hp2 : tn2 ≠ p0 := by
    rintro rfl
    exact halways (.inr h.p0)
  have h1' : s tn1 = true := by simpa [State.val, hp1] using h1
  have h2' : s tn2 = true := by simpa [State.val, hp2] using h2
  by_cases hsame : m.lastDef tn1 = m.lastDef tn2
  · rw [if_pos hsame] at hrun
    rcases hl1 : m.lastDef tn1 with _ | _ | _ | _ | i <;> rw [hl1] at hrun
    · cases hrun
    · cases hrun
    · cases hrun
    · cases hrun
    have hl2 := hsame.symm.trans hl1
    obtain ⟨hmem1, hval1⟩ := h.last tn1 i hl1
    obtain ⟨hmem2, hval2⟩ := h.last tn2 i hl2
    obtain ⟨n, hn, hrun⟩ := Option.map_eq_some_iff.mp hrun
    rcases hverdict : n.neverTrueTogether tn1 tn2 with _ | _ | _ <;> rw [hverdict] at hrun
    · cases hrun
    · exact neverTrueTogether_sound h hn ⟨hmem1, hval1.symm.trans h1'⟩ ⟨hmem2, hval2.symm.trans h2'⟩ hverdict
    · rw [hl2] at hrun
      refine searchDisjoint_sound h hl1 hl2 (hsep i i ⟨hne, hquery1, hquery2, hl1, hl2, fun _ n' hn' => ?_⟩) hrun h1' h2'
      rw [← Option.some_inj.mp (hn.symm.trans hn')]
      exact hverdict
  · rw [if_neg hsame] at hrun
    have hrun := Option.some_inj.mp hrun
    -- a search from or to no node does not say so
    rcases hl2 : m.lastDef tn2 with _ | _ | _ | _ | i2
    iterate 4
      · unfold Manager.searchDisjoint at hrun
        rw [hl2] at hrun
        cases hlen : m.data.length <;> rw [hlen] at hrun <;> cases hrun
    rcases hl1 : m.lastDef tn1 with _ | _ | _ | _ | i1
    iterate 4
      · -- nothing is marked
        have hnil : m.parents m.data.length (m.lastDef tn1) tn1 = [] := by
          rw [hl1]
          cases m.data.length <;> rfl
        obtain ⟨hmem2, hval2⟩ := h.last tn2 i2 hl2
        unfold Manager.searchDisjoint at hrun
        rw [hnil, hl2] at hrun
        exact @disjointHelper_sound _ _ _ _ h _ (fun _ => False) _ (fun x => iff_of_false List.not_mem_nil id)
          (fun x hx => hx.elim) (fun i t u _ ht => ht.elim) _ _ _ ReflTransGen.refl hrun ⟨hmem2, hval2.symm.trans h2'⟩
    rw [hl1, hl2] at hrun
    refine searchDisjoint_sound h hl1 hl2 (hsep i1 i2 ⟨hne, hquery1, hquery2, hl1, hl2, fun heq => ?_⟩) hrun h1' h2'
    exact absurd (hl1.trans ((congrArg Idx.node heq).trans hl2.symm)) hsame

/-- The query about two predicates is right. -/
def TnSound (insts : List Inst) (tn1 tn2 : Tn) : Prop :=
  isDisjoint (enter insts) tn1 tn2 = some true →
    ∀ s s', Exec insts s s' → ¬(s'.val tn1 = true ∧ s'.val tn2 = true)

/-- No member of one set is ever true together with one of the other. -/
def TrulyDisjoint (insts : List Inst) (tns1 tns2 : List Tn) : Prop :=
  ∀ s s', Exec insts s s' → ∀ p ∈ tns1, ∀ q ∈ tns2, ¬(s'.val p = true ∧ s'.val q = true)

/-- The query about two sets is right. -/
def SetSound (insts : List Inst) (tns1 tns2 : List Tn) : Prop :=
  isDisjointSets (enter insts) tns1 tns2 = some true → TrulyDisjoint insts tns1 tns2

theorem isDisjoint_sound (hok : Ok insts) {tn1 tn2 : Tn} (hsep : Separated (enter insts) tn1 tn2) :
    TnSound insts tn1 tn2 := by
  intro hrun s s' hexec
  obtain ⟨v, hv⟩ := entered hok hexec
  unfold isDisjoint at hrun
  split_ifs at hrun with hno
  · cases hrun
  · rw [Bool.not_eq_true, Bool.or_eq_false_iff] at hno
    exact isDisjointAt_sound hv hno.1 hno.2 hsep hrun

/-! ## Sets -/

theorem foldlM_const {α : Type} {f : Bool → α → Option Bool} {l : List α} {r : Bool} (h : ∀ a ∈ l, f r a = some r) :
    l.foldlM f r = some r := by
  induction l with
  | nil => rfl
  | cons a l ih =>
    rw [List.foldlM_cons, h a List.mem_cons_self]
    exact ih fun b hb => h b (List.mem_cons_of_mem a hb)

theorem isDisjointAt_ne_none (h : Entered insts m s v) {p q : Tn} (hp : p = p0 ∨ Defined insts p) :
    m.isDisjointAt (m.lastDef p) (m.lastDef q) p q ≠ none := by
  unfold Manager.isDisjointAt
  split_ifs with hne hnever halways hsame
  · exact Option.some_ne_none _
  · exact Option.some_ne_none _
  · exact Option.some_ne_none _
  · rcases hp with rfl | hp
    · exact absurd (.inl h.p0) halways
    · obtain ⟨i, hi⟩ := h.defined p hp
      obtain ⟨⟨n, hn, -⟩, -⟩ := h.last p i hi
      rw [hi]
      dsimp only
      rw [hn]
      exact Option.some_ne_none _
  · exact Option.some_ne_none _

/-- The query about sets answers `TRUE` whenever all members can be queried. -/
theorem isDisjointSets_eq (h : Entered insts m s v) {tns1 tns2 : List Tn}
    (hdef : ∀ t ∈ tns1, t = p0 ∨ Defined insts t) :
    isDisjointSets m tns1 tns2 = some !(tns1.any m.noQuery || tns2.any m.noQuery) := by
  unfold isDisjointSets
  split_ifs with hno
  · rw [hno]
    rfl
  · rw [Bool.not_eq_true] at hno
    rw [hno]
    refine foldlM_const fun p hp => foldlM_const fun q _ => ?_
    obtain ⟨r, hr⟩ := Option.ne_none_iff_exists'.mp (isDisjointAt_ne_none (q := q) h (hdef p hp))
    rw [hr]
    rfl

/-- The answer for a pair of members, which the form for sets drops, is `TRUE`. -/
def DisjointPair (m : Manager) (p q : Tn) : Prop :=
  m.isDisjointAt (m.lastDef p) (m.lastDef q) p q = some true ∧ Separated m p q

theorem isDisjointSets_sound (hok : Ok insts) {tns1 tns2 : List Tn}
    (h : (∃ t ∈ tns1 ++ tns2, (enter insts).noQuery t = true) ∨ ∀ p ∈ tns1, ∀ q ∈ tns2, DisjointPair (enter insts) p q) :
    SetSound insts tns1 tns2 := by
  intro hrun s s' hexec p hp q hq
  obtain ⟨v, hv⟩ := entered hok hexec
  unfold isDisjointSets at hrun
  split_ifs at hrun with hno
  · cases hrun
  rw [Bool.not_eq_true, ← List.any_append, List.any_eq_false] at hno
  rcases h with ⟨t, ht, hnoQuery⟩ | hpairs
  · exact absurd hnoQuery (hno t ht)
  · obtain ⟨hanswer, hsep⟩ := hpairs p hp q hq
    exact isDisjointAt_sound hv (Bool.eq_false_iff.mpr (hno p (List.mem_append_left _ hp)))
      (Bool.eq_false_iff.mpr (hno q (List.mem_append_right _ hq))) hsep hanswer

/-- The query about two predicates is right when every collision the search meets is a necessary one, and the query about two
sets when a member cannot be queried or none of the answers it drops is `FALSE`. -/
theorem sound_of_separated (hok : Ok insts) (tn1 tn2 : Tn) (tns1 tns2 : List Tn) :
    (Separated (enter insts) tn1 tn2 → TnSound insts tn1 tn2) ∧
      ((∃ t ∈ tns1 ++ tns2, (enter insts).noQuery t = true) ∨ (∀ p ∈ tns1, ∀ q ∈ tns2, DisjointPair (enter insts) p q) →
        SetSound insts tns1 tns2) :=
  ⟨isDisjoint_sound hok, isDisjointSets_sound hok⟩

/-- Two predicates of which the first qualifies a third. -/
def nested : List Inst := [{ itype := .unc, p1 := some 1, p2 := some 2 }, { itype := .unc, qual := some 1, p1 := some 3 }]

theorem nested_ok : Ok nested := by
  refine @Ok.snoc [_] _ (@Ok.snoc [] _ Ok.nil ⟨fun _ => ⟨p0, rfl, .inl rfl⟩, ?_, ?_⟩) ⟨fun _ => ?_, ?_, ?_⟩
  · intro t ht ht'
    obtain rfl := Option.some_inj.mp ht
    exact absurd ht' (by decide)
  · exact fun t _ => .inl rfl
  · exact ⟨1, rfl, .inr ⟨_, List.mem_cons_self, Itype.noConfusion, .inl rfl⟩⟩
  · exact fun t _ ht => absurd ht (by simp [realOutput])
  · exact fun t _ => .inl rfl

theorem separated_nested : Separated (enter nested) 3 2 := by
  rintro i1 i2 ⟨-, -, -, h1, h2, -⟩
  obtain rfl : 1 = i1 := Idx.node.inj h1
  obtain rfl : 0 = i2 := Idx.node.inj h2
  have hvia : ∀ t y, Via (enter nested) (0, t) y → False := by
    rintro t y ⟨n, hn, ⟨hup, -⟩ | ⟨-, hqual, -⟩⟩
    · obtain rfl := Option.some_inj.mp hn
      unfold Node.upIdx at hup
      split_ifs at hup <;> exact Idx.noConfusion hup
    · obtain rfl := Option.some_inj.mp hn
      exact Idx.noConfusion hqual
  have hfrom : ∀ y, Via (enter nested) (1, 3) y → y = (0, 1) := by
    rintro ⟨j, u⟩ ⟨n, hn, ⟨hup, -⟩ | ⟨-, hqual, hqt⟩⟩
    · obtain rfl := Option.some_inj.mp hn
      exact Idx.noConfusion hup
    · obtain rfl := Option.some_inj.mp hn
      exact Prod.ext (Idx.node.inj hqual).symm (Option.some_inj.mp hqt).symm
  intro i t u hwalk hchain _ n hn _
  obtain ⟨rfl, rfl⟩ : 0 = i ∧ 2 = u := by
    rcases hwalk.cases_head with heq | ⟨y, ⟨n', hn', hstep⟩, -⟩
    · exact Prod.mk.inj heq
    · refine (hvia 2 y ⟨n', hn', ?_⟩).elim
      rcases hstep with ⟨hup, hy, -⟩ | ⟨hmay, hqual, hqt, -⟩
      · exact .inl ⟨hup, hy⟩
      · exact .inr ⟨hmay, hqual, hqt⟩
  obtain rfl := Option.some_inj.mp hn
  refine ⟨?_, Itype.noConfusion, Itype.noConfusion⟩
  rcases hchain.cases_head with heq | ⟨y, hy, hrest⟩
  · cases heq
  · obtain rfl := hfrom y hy
    have heq : ((0, 1) : Nat × Tn) = (0, t) := by
      rcases hrest.cases_head with heq | ⟨z, hz, -⟩
      · exact heq
      · exact (hvia _ _ hz).elim
    rw [← heq]
    intro havoid
    cases havoid with
    | source _ hsource =>
      obtain ⟨n, hn, -, halways⟩ := hsource
      obtain rfl := Option.some_inj.mp hn
      exact Idx.noConfusion halways
    | via _ hy' hrest' =>
      obtain rfl := hfrom _ hy'
      cases hrest' with
      | source hne _ => exact hne rfl
      | via hne _ _ => exact hne rfl

theorem sound_of_separated_nested : TnSound nested 3 2 ∧ SetSound nested [3] [2] :=
  (sound_of_separated nested_ok 3 2 [3] [2]).imp (fun h => h separated_nested) fun h => h <| .inr fun p hp q hq => by
    obtain rfl := List.mem_singleton.mp hp
    obtain rfl := List.mem_singleton.mp hq
    exact ⟨rfl, separated_nested⟩

/-- The set form answers `TRUE` for a predicate and itself. -/
theorem not_sound_sets : ¬∀ (insts : List Inst) (tn1 tn2 : Tn) (tns1 tns2 : List Tn), Ok insts →
    (∀ t ∈ tns1, t = p0 ∨ Defined insts t) → TnSound insts tn1 tn2 ∧ SetSound insts tns1 tns2 := by
  intro h
  have hsound := (h nested 3 2 [1] [1] nested_ok fun t ht => .inr ?_).2 rfl
  · let s : State := fun _ => false
    have hexec : Exec nested s (Inst.exec _ true (Inst.exec _ true s)) :=
      @Exec.snoc [_] _ _ _ _ (@Exec.snoc [] _ _ _ _ (Exec.nil s) ⟨fun _ => rfl, fun hf => absurd hf (by decide)⟩)
        ⟨fun _ => rfl, fun hf => absurd hf (by decide)⟩
    exact hsound s _ hexec 1 List.mem_cons_self 1 List.mem_cons_self ⟨rfl, rfl⟩
  · obtain rfl := List.mem_singleton.mp ht
    exact ⟨_, List.mem_cons_self, Itype.noConfusion, .inl rfl⟩

end Path64.Pqs

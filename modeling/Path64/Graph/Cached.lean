import Path64.Graph.Search

/-!
# The components that are kept

* `Labelled.addsEdge`, `Labelled.deleteEdge` : the changes of a graph that leave its components alone;
* `Kept` : what holds of the components that were found before; `Reachable.kept` : that it does after any calls;
* `Kept.findScc` : a query finds the components of the graph as it is;
* `compact_of_search` : a search that visits just the vertices finds them numbered up to their number.
-/

namespace Path64.Graph

open Lists Relation

namespace Multigraph

variable {m m' : Multigraph} {cnt capacity s t r e u v : Nat} {id : Nat → Nat}

/-- There may be one more edge. -/
structure Joins (m : Multigraph) (s t : Nat) (m' : Multigraph) : Prop where
  vertices : m'.vertices = m.vertices
  old : ∀ u v, m.Edge u v → m'.Edge u v
  new : ∀ u v, m'.Edge u v → m.Edge u v ∨ u = s ∧ v = t

theorem Joins.refl (m : Multigraph) (s t : Nat) : m.Joins s t m := ⟨rfl, fun _ _ h => h, fun _ _ h => .inl h⟩

theorem AddsEdge.joins (h : m.AddsEdge capacity s t r m') : m.Joins s t m' := by
  cases h with
  | full h => exact .refl m s t
  | new e h he hnew =>
    refine ⟨rfl, fun u v ⟨x, hx⟩ => ⟨x, Finset.mem_insert_of_mem hx⟩, ?_⟩
    rintro u v ⟨x, hx⟩
    rcases Finset.mem_insert.mp hx with heq | hx
    · obtain ⟨-, rfl, rfl⟩ := by simpa only [Prod.mk.injEq] using heq
      exact .inr ⟨rfl, rfl⟩
    · exact .inl ⟨x, hx⟩

namespace Labelled

theorem mono (h : m.Labelled cnt id) (huv : ReflTransGen m.Edge u v) : id v ≤ id u := by
  induction huv with
  | refl => exact Nat.le_refl _
  | tail _ hab ih => exact (h.edge _ _ hab).trans ih

theorem joins (h : m.Labelled cnt id) (hs : s ∈ m.vertices) (ht : t ∈ m.vertices) (hid : id s = id t)
    (hadd : m.Joins s t m') : m'.Labelled cnt id := by
  obtain ⟨hvertices, hsub, hedge⟩ := hadd
  have hst := ((h.iff s hs t ht).mp hid).1
  have hreach (u v : Nat) : ReflTransGen m'.Edge u v ↔ ReflTransGen m.Edge u v := by
    constructor
    · intro huv
      induction huv with
      | refl => exact .refl
      | tail _ hab ih =>
        rcases hedge _ _ hab with hab | ⟨rfl, rfl⟩
        · exact ih.tail hab
        · exact ih.trans hst
    · exact ReflTransGen.mono hsub u v
  constructor
  · rw [hvertices]
    exact h.range
  · rw [hvertices]
    exact h.used
  · rw [hvertices]
    intro u hu v hv
    rw [hreach, hreach]
    exact h.iff u hu v hv
  · intro u v huv
    rcases hedge u v huv with huv | ⟨rfl, rfl⟩
    · exact h.edge u v huv
    · exact Nat.le_of_eq hid.symm

/-- No component needs an edge between two of them. -/
theorem deleteEdge (h : m.Labelled cnt id) (hx : ∀ a b, (e, a, b) ∈ m.edges → id a ≠ id b) :
    Multigraph.Labelled ⟨m.vertices, {x ∈ m.edges | x.1 ≠ e}⟩ cnt id := by
  have hsub (u v : Nat) (huv : Multigraph.Edge ⟨m.vertices, {x ∈ m.edges | x.1 ≠ e}⟩ u v) : m.Edge u v := by
    obtain ⟨x, hx⟩ := huv
    exact ⟨x, (Finset.mem_filter.mp hx).1⟩
  -- the numbers do not grow along a path, so a path with the same number at both ends stays within a component
  have hkeep (u v : Nat) (huv : ReflTransGen m.Edge u v) (hid : id u = id v) :
      ReflTransGen (Multigraph.Edge ⟨m.vertices, {x ∈ m.edges | x.1 ≠ e}⟩) u v := by
    induction huv using ReflTransGen.head_induction_on with
    | refl => exact .refl
    | head hab hbv ih =>
      rename_i a b
      have h1 := h.edge a b hab
      have h2 := h.mono hbv
      obtain ⟨x, hxab⟩ := hab
      refine .head ⟨x, Finset.mem_filter.mpr ⟨hxab, ?_⟩⟩ (ih (by omega))
      rintro rfl
      exact hx a b hxab (by omega)
  refine ⟨h.range, h.used, fun u hu v hv => ?_, fun u v huv => h.edge u v (hsub u v huv)⟩
  constructor
  · intro hid
    obtain ⟨h1, h2⟩ := (h.iff u hu v hv).mp hid
    exact ⟨hkeep u v h1 hid, hkeep v u h2 hid.symm⟩
  · rintro ⟨h1, h2⟩
    exact (h.iff u hu v hv).mpr ⟨ReflTransGen.mono hsub _ _ h1, ReflTransGen.mono hsub _ _ h2⟩

end Labelled

end Multigraph

namespace Scc

variable {capacity : Nat} {s s' : Scc}

/-- What holds of the components that were found before. -/
structure Kept (capacity : Nat) (s : Scc) : Prop where
  stored : s.graph.Stored capacity
  compact : s.isValid = true → s.graph.abs.Compact
  labelled : s.isValid = true → s.graph.vcnt ≠ 0 → s.graph.abs.Labelled s.sccCnt s.sccId

theorem kept_of_invalid (hg : s.graph.Stored capacity) (h : s.isValid = false) : s.Kept capacity where
  stored := hg
  compact hv := absurd (hv.symm.trans h) (by decide)
  labelled hv := absurd (hv.symm.trans h) (by decide)

theorem isValid_invalidate (s : Scc) : s.invalidate.isValid = false := bne_self_eq_false invalid

namespace Kept

variable (h : s.Kept capacity) (hcap : capacity ≤ 0xfffe)

include h

theorem beforeAdd {source sink : Nat} {g' : Graph16} (hs : s.graph.vertexIsInGraph source = true)
    (ht : s.graph.vertexIsInGraph sink = true) (hg' : g'.Stored capacity)
    (hadd : s.graph.abs.Joins source sink g'.abs) :
    Kept capacity { s.beforeAdd source sink with graph := g' } := by
  have hvertices := hadd.vertices
  unfold Scc.beforeAdd
  split_ifs with hc
  · exact kept_of_invalid hg' (isValid_invalidate s)
  · refine ⟨hg', fun hv v => ?_, fun hv h0 => ?_⟩
    · show v ∈ g'.abs.vertices ↔ _ ∧ v ≤ g'.abs.vertices.card
      rw [hvertices]
      exact h.compact hv v
    · have hid : s.sccId source = s.sccId sink := by
        by_contra hne
        exact hc ⟨hv, hne⟩
      have h0' : s.graph.vcnt ≠ 0 := by
        rwa [h.stored.vcnt, ← hvertices, ← hg'.vcnt]
      exact (h.labelled hv h0').joins (Graph16.mem_vertices.mpr hs) (Graph16.mem_vertices.mpr ht) hid hadd

theorem beforeDelete {e : Nat} {g' : Graph16} (hg' : g'.Stored capacity)
    (habs : g'.abs = ⟨s.graph.abs.vertices, {x ∈ s.graph.abs.edges | x.1 ≠ e}⟩) :
    Kept capacity { (if s.isValid = true ∧ s.sccId (s.graph.efrom e) = s.sccId (s.graph.eto e) then s.invalidate else s)
      with graph := g' } := by
  split_ifs with hc
  · exact kept_of_invalid hg' (isValid_invalidate s)
  · refine ⟨hg', fun hv v => ?_, fun hv h0 => ?_⟩
    · show v ∈ g'.abs.vertices ↔ _ ∧ v ≤ g'.abs.vertices.card
      rw [habs]
      exact h.compact hv v
    · have h0' : s.graph.vcnt ≠ 0 := by
        rw [h.stored.vcnt]
        rwa [hg'.vcnt, habs] at h0
      show g'.abs.Labelled s.sccCnt s.sccId
      rw [habs]
      refine (h.labelled hv h0').deleteEdge fun a b hab hid => hc ⟨hv, ?_⟩
      obtain ⟨-, ha, hb⟩ := Graph16.mem_edges.mp hab
      exact (congrArg s.sccId ha).symm.trans (hid.trans (congrArg s.sccId hb))

include hcap

theorem perform {c : Call} {r : Nat} (hc : s.graph.Valid c) (hrun : s.perform capacity c = some (r, s')) :
    s'.Kept capacity := by
  cases c with
  | addVertex =>
    obtain ⟨-, rfl⟩ := Prod.mk.inj (Option.some.inj hrun)
    exact kept_of_invalid h.stored.addVertex.1 (isValid_invalidate s)
  | addEdge source sink =>
    obtain ⟨-, rfl⟩ := Prod.mk.inj (Option.some.inj hrun)
    obtain ⟨hg', hadd⟩ := h.stored.addEdge hcap hc.1 hc.2
    exact h.beforeAdd hc.1 hc.2 hg' hadd.joins
  | addUniqueEdge source sink =>
    obtain ⟨e, he, -⟩ := h.stored.getEdgeBetween hc.1 sink
    rw [Scc.perform, Scc.addUniqueEdge, Graph16.addUniqueEdge, he, Option.bind_eq_bind, Option.bind_some] at hrun
    by_cases h0 : e = 0
    · rw [if_neg (not_not.mpr h0)] at hrun
      obtain ⟨-, rfl⟩ := Prod.mk.inj (Option.some.inj hrun)
      obtain ⟨hg', hadd⟩ := h.stored.addEdge hcap hc.1 hc.2
      exact h.beforeAdd hc.1 hc.2 hg' hadd.joins
    · rw [if_pos h0] at hrun
      obtain ⟨-, rfl⟩ := Prod.mk.inj (Option.some.inj hrun)
      exact h.beforeAdd hc.1 hc.2 h.stored (.refl _ _ _)
  | deleteEdge e =>
    obtain ⟨g', hrun', hg', habs, -⟩ := h.stored.deleteEdge hcap hc
    rw [Scc.perform, Scc.deleteEdge, hrun'] at hrun
    obtain ⟨-, rfl⟩ := Prod.mk.inj (Option.some.inj hrun)
    exact h.beforeDelete hg' habs
  | deleteVertex v =>
    obtain ⟨g', hrun', hg', -⟩ := h.stored.deleteVertex hcap hc
    rw [Scc.perform, Scc.deleteVertex, hrun'] at hrun
    obtain ⟨-, rfl⟩ := Prod.mk.inj (Option.some.inj hrun)
    exact kept_of_invalid hg' (isValid_invalidate s)
  | eraseGraph =>
    obtain ⟨-, rfl⟩ := Prod.mk.inj (Option.some.inj hrun)
    obtain ⟨hg', habs⟩ := Graph16.stored_eraseGraph capacity s.graph
    refine ⟨hg', fun _ => ?_, fun _ h0 => absurd rfl h0⟩
    show s.graph.eraseGraph.abs.Compact
    rw [habs]
    intro v
    rw [Finset.card_empty]
    exact iff_of_false (Finset.notMem_empty v) (by omega)

end Kept

theorem kept_construct (capacity : Nat) (memory : Scc) : memory.construct.Kept capacity :=
  kept_of_invalid (Graph16.stored_eraseGraph _ memory.graph).1 (bne_self_eq_false invalid)

/-! ## Queries -/

/-- The components are not those of before `Erase_Graph`. -/
def Current (s : Scc) : Prop := s.isValid = true → s.graph.vcnt = 0 → s.sccCnt = 0

theorem labelled_of_empty (hg : s.graph.Stored capacity) (h0 : s.graph.vcnt = 0) (id : Nat → Nat) :
    s.graph.abs.Labelled 0 id := by
  have hempty : s.graph.abs.vertices = ∅ := Finset.card_eq_zero.mp (hg.vcnt ▸ h0)
  have hno (v : Nat) : v ∉ s.graph.abs.vertices := hempty ▸ Finset.notMem_empty v
  refine ⟨fun v hv => absurd hv (hno v), fun i h1 h2 => by omega, fun u hu => absurd hu (hno u), fun u v huv => ?_⟩
  rw [Graph16.edge_abs] at huv
  obtain ⟨e, he, -, -⟩ := huv
  exact absurd (Graph16.mem_vertices.mpr (hg.ends e he).1) (hno _)

/-- A query finds the components of the graph as it is. -/
theorem Kept.findScc (h : s.Kept capacity) (hcap : capacity ≤ 0xfffe) (hc : s.graph.abs.Compact) :
    ∃ s', s.findScc = some s' ∧ s'.graph = s.graph ∧ s'.isValid = true ∧
      (s.Current → s.graph.abs.Labelled s'.sccCnt s'.sccId) ∧ (s.graph.vcnt ≠ 0 → s.Current) := by
  have hcur (h0 : s.graph.vcnt ≠ 0) : s.Current := fun _ h0' => absurd h0' h0
  unfold Scc.findScc
  by_cases hv : s.isValid = true
  · rw [if_pos hv]
    refine ⟨s, rfl, rfl, hv, fun hcurrent => ?_, hcur⟩
    by_cases h0 : s.graph.vcnt = 0
    · rw [hcurrent hv h0]
      exact labelled_of_empty h.stored h0 _
    · exact h.labelled hv h0
  · rw [if_neg hv]
    obtain ⟨w, hrun, -, hlabel⟩ := search_spec h.stored hc
    refine ⟨{ s with sccId := w.sccId, sccCnt := w.sccCnt - 1 }, by rw [hrun]; rfl, rfl, ?_, fun _ => hlabel, hcur⟩
    have h1 := hlabel.cnt_le
    rw [← h.stored.vcnt] at h1
    have h2 := h.stored.vcnt_le
    refine bne_iff_ne.mpr ?_
    show w.sccCnt - 1 ≠ 0xffff
    omega

/-- What holds of the components holds after any calls and queries. -/
theorem Reachable.kept (hcap : capacity ≤ 0xfffe) (hs : Reachable capacity s) : s.Kept capacity := by
  induction hs with
  | construct memory => exact kept_construct capacity memory
  | call _ hc hrun ih => exact ih.perform hcap hc hrun
  | query _ hc hrun ih =>
    obtain ⟨s'', hrun', hgraph, -, hlabel, hcur⟩ := ih.findScc hcap hc
    obtain rfl := Option.some.inj (hrun.symm.trans hrun')
    constructor
    · rw [hgraph]
      exact ih.stored
    · rw [hgraph]
      exact fun _ => hc
    · rw [hgraph]
      exact fun _ h0 => hlabel (hcur h0)

/-! ## Searches that return -/

theorem popTo_visited {n : Nat} {l : List Nat} {w w' : Work} (h : Work.popTo n l w = some w') :
    w'.visited = w.visited := by
  induction l generalizing w with
  | nil => exact absurd h (by simp only [Work.popTo, reduceCtorEq, not_false_eq_true])
  | cons j l ih =>
    rw [Work.popTo] at h
    by_cases hj : j = n
    · rw [if_pos hj] at h
      rw [← Option.some.inj h]
    · rw [if_neg hj] at h
      exact (ih h).trans rfl

/-- A visit that returns visits its vertex and forgets none. -/
theorem visited_of_run {g : Graph16} {size : Nat} (fuel : Nat) :
    (∀ n w w', sccDfs g size fuel n w = some w' →
      (∀ v, w.visited v = true → w'.visited v = true) ∧ w'.visited n = true) ∧
    ∀ n e w w', sccLoop g size fuel n e w = some w' → ∀ v, w.visited v = true → w'.visited v = true := by
  induction fuel with
  | zero =>
    refine ⟨fun n w w' h => ?_, fun n e w w' h => ?_⟩
    · rw [sccDfs] at h
      exact absurd h.symm (Option.some_ne_none _)
    · rw [sccLoop] at h
      exact absurd h.symm (Option.some_ne_none _)
  | succ fuel ih =>
    obtain ⟨ihDfs, ihLoop⟩ := ih
    refine ⟨fun n w w' h => ?_, fun n e w w' h v hv => ?_⟩
    · rw [sccDfs] at h
      split_ifs at h with hn
      obtain ⟨w₁, hrun, h⟩ := Option.bind_eq_some_iff.mp h
      have hmono := ihLoop _ _ _ _ hrun
      have hend : w'.visited = w₁.visited := by
        split_ifs at h
        · exact popTo_visited h
        · rw [Option.some.inj h]
      rw [hend]
      exact ⟨fun v hv => hmono v (w.visited_enter n hv), hmono n (Function.update_self ..)⟩
    · rw [sccLoop] at h
      split_ifs at h with he hsize hvis hc
      · rwa [← Option.some.inj h]
      · obtain ⟨w₁, hrun, h⟩ := Option.bind_eq_some_iff.mp h
        refine ihLoop _ _ _ _ h v ?_
        rw [Work.lower_visited]
        exact (ihDfs _ _ _ hrun).1 v hv
      · refine ihLoop _ _ _ _ h v ?_
        rwa [Work.lower_visited]
      · exact ihLoop _ _ _ _ h v hv

/-- A search that visits just the vertices finds them numbered up to their number. -/
theorem compact_of_search {w : Work} (hg : s.graph.Stored capacity) (h : s.search = some w)
    (hvisited : ∀ v, w.visited v = true ↔ s.graph.vertexIsInGraph v = true) : s.graph.abs.Compact := by
  have hroots (is : List Nat) (w₀ : Work) (h : is.foldlM (fun w i => if w.visited i = false then
      sccDfs s.graph (s.graph.vcnt + 1) s.fuel i w else some w) w₀ = some w) :
      (∀ v, w₀.visited v = true → w.visited v = true) ∧ ∀ i ∈ is, w.visited i = true := by
    induction is generalizing w₀ with
    | nil =>
      rw [Option.some.inj h]
      exact ⟨fun _ h => h, fun _ h => absurd h List.not_mem_nil⟩
    | cons i is ih =>
      rw [List.foldlM_cons] at h
      obtain ⟨w₁, hrun, h⟩ := Option.bind_eq_some_iff.mp h
      obtain ⟨hmono, hall⟩ := ih w₁ h
      have hfirst : (∀ v, w₀.visited v = true → w₁.visited v = true) ∧ w₁.visited i = true := by
        split_ifs at hrun with hnew
        · exact (visited_of_run _).1 _ _ _ hrun
        · rw [← Option.some.inj hrun]
          exact ⟨fun _ h => h, by simpa using hnew⟩
      exact ⟨fun v hv => hmono v (hfirst.1 v hv), List.forall_mem_cons.mpr ⟨hmono i hfirst.2, hall⟩⟩
  obtain ⟨-, hall⟩ := hroots _ _ h
  have hsub : Finset.Icc 1 s.graph.vcnt ⊆ s.graph.abs.vertices := by
    intro v hv
    have := Finset.mem_Icc.mp hv
    exact Graph16.mem_vertices.mpr ((hvisited v).mp (hall v (List.mem_range'_1.mpr ⟨by omega, by omega⟩)))
  have heq := Finset.eq_of_subset_of_card_le hsub (by rw [Nat.card_Icc, ← hg.vcnt]; omega)
  intro v
  rw [← heq, Finset.mem_Icc, Nat.card_Icc, Nat.add_sub_cancel]
  exact Iff.rfl

end Scc

end Path64.Graph

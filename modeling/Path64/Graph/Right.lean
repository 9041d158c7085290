import Path64.Graph.Levels

/-!
# Components after vertices were deleted

* `Scc.Right` : the search and the queries go over the vertices, and the numbers are those of the components;
* `Levels.unique` : the levels and the maximal level do not depend on the memory;
* `right_iff` : this is so just when the vertices are numbered up to their number.
-/

namespace Path64.Graph

open Lists Relation

namespace Scc

variable {capacity : Nat} {s : Scc}

/-- The search and the queries go over all vertices and over nothing else. -/
structure Right (s : Scc) : Prop where
  search : s.isValid = false → ∃ w, s.search = some w ∧ ∀ v, w.visited v = true ↔ s.graph.vertexIsInGraph v = true
  find : ∃ s', s.findScc = some s' ∧
    (∀ u v, s.graph.vertexIsInGraph u = true → s.graph.vertexIsInGraph v = true →
      (s'.sccId u = s'.sccId v ↔ ReflTransGen s.graph.Edge u v ∧ ReflTransGen s.graph.Edge v u)) ∧
    ∀ i, s.getSccSize i = some {v ∈ s.graph.abs.vertices | s'.sccId v = i}.card
  level : s.graph.abs.Acyclic → ∃ (maxLevel : Nat) (level : Nat → Nat), ∀ level₀,
    s.getLevel level₀ = some (maxLevel, fun v => if s.graph.vertexIsInGraph v = true then level v else level₀ v)
  sort : s.graph.abs.Acyclic → ∃ maxLevel queue, s.levelSort = some (maxLevel, queue) ∧ queue.Nodup ∧
    ∀ v, v ∈ queue ↔ s.graph.vertexIsInGraph v = true

/-- The levels of the vertices in a queue, and the maximal one. -/
theorem Levels.unique {m : Multigraph} {level₁ level₂ : Nat → Nat} {q₁ q₂ : Levels}
    (h₁ : Queued m level₁ q₁.queue q₁) (h₂ : Queued m level₂ q₂.queue q₂) (h : ∀ v, v ∈ q₁.queue ↔ v ∈ q₂.queue) :
    q₁.maxLevel = q₂.maxLevel ∧ ∀ v ∈ q₁.queue, q₁.level v = q₂.level v := by
  have hlevel (v : Nat) (hv : v ∈ q₁.queue) : q₁.level v = q₂.level v :=
    (h₁.longest v hv).unique (h₂.longest v ((h v).mp hv))
  refine ⟨Nat.le_antisymm ?_ ?_, hlevel⟩
  · rcases h₁.max_eq with h0 | ⟨v, hv, hmax⟩
    · exact h0 ▸ Nat.zero_le _
    · rw [← hmax, hlevel v hv]
      exact h₂.le_max v ((h v).mp hv)
  · rcases h₂.max_eq with h0 | ⟨v, hv, hmax⟩
    · exact h0 ▸ Nat.zero_le _
    · rw [← hmax, ← hlevel v ((h v).mpr hv)]
      exact h₁.le_max v ((h v).mpr hv)

theorem card_filter_range' {S : Finset Nat} {n : Nat} (h : ∀ v, v ∈ S ↔ 0 < v ∧ v ≤ n) (p : Nat → Prop)
    [DecidablePred p] : ((List.range' 1 n).filter fun j => p j).length = {v ∈ S | p v}.card := by
  rw [← List.toFinset_card_of_nodup ((List.nodup_range' ..).filter _)]
  congr 1
  ext v
  rw [List.mem_toFinset, List.mem_filter, Finset.mem_filter, h, List.mem_range'_1, decide_eq_true_iff]
  exact and_congr_left fun _ => by omega

theorem Kept.right (h : s.Kept capacity) (hcap : capacity ≤ 0xfffe) (hc : s.graph.abs.Compact) (hcur : s.Current) :
    s.Right := by
  constructor
  · intro _
    obtain ⟨w, hrun, hvisited, -⟩ := search_spec h.stored hc
    exact ⟨w, hrun, hvisited⟩
  · obtain ⟨s', hrun, -, -, hlabel, -⟩ := h.findScc hcap hc
    refine ⟨s', hrun, fun u v hu hv => ?_, fun i => ?_⟩
    · rw [← Graph16.edge_abs]
      exact (hlabel hcur).iff u (Graph16.mem_vertices.mpr hu) v (Graph16.mem_vertices.mpr hv)
    · rw [getSccSize, hrun, Option.map_some, ← card_filter_range' hc, ← h.stored.vcnt]
      rfl
  · intro hm
    obtain ⟨q₁, -, hq₁, hmem₁⟩ := levels_spec hcap h hc hcur hm fun _ => 0
    refine ⟨q₁.maxLevel, q₁.level, fun level₀ => ?_⟩
    obtain ⟨q, hrun, hq, hmem⟩ := levels_spec hcap h hc hcur hm level₀
    obtain ⟨hmax, hlevel⟩ := Levels.unique hq hq₁ fun v => (hmem v).trans (hmem₁ v).symm
    rw [getLevel, hrun, Option.map_some, hmax]
    congr 2
    funext v
    split_ifs with hv
    · exact hlevel v ((hmem v).mpr hv)
    · exact hq.others v fun hv' => hv ((hmem v).mp hv')
  · intro hm
    obtain ⟨q, hrun, hq, hmem⟩ := levels_spec hcap h hc hcur hm fun _ => 0
    exact ⟨q.maxLevel, q.queue, by rw [levelSort, hrun, Option.map_some], hq.nodup, hmem⟩

/-- The levels of a graph without vertices show whether the components are those of before `Erase_Graph`. -/
theorem current_of_level (level₀ : Nat → Nat) {r : Nat × (Nat → Nat)}
    (h : s.getLevel level₀ = some r) : s.Current := by
  intro hv h0
  unfold getLevel levels at h
  rw [findScc, if_pos hv, Option.bind_eq_bind, Option.bind_some] at h
  by_contra hne
  rw [if_neg (fun heq => hne (heq.trans h0))] at h
  exact absurd h.symm (Option.some_ne_none _)

/-- The search and the queries are right just when the vertices are numbered up to their number, and the components
are not those of before `Erase_Graph`. -/
theorem right_iff (hcap : capacity ≤ 0xfffe) (hs : Reachable capacity s) :
    s.Right ↔ s.graph.abs.Compact ∧ s.Current := by
  have h := hs.kept hcap
  constructor
  · intro hright
    constructor
    · by_cases hv : s.isValid = true
      · exact h.compact hv
      · obtain ⟨w, hrun, hvisited⟩ := hright.search (Bool.eq_false_iff.mpr hv)
        exact compact_of_search h.stored hrun hvisited
    · intro hv h0
      have hm : s.graph.abs.Acyclic := by
        intro v hloop
        obtain ⟨u, ⟨e, he⟩, -⟩ := TransGen.head'_iff.mp hloop
        obtain ⟨hlive, -, -⟩ := Graph16.mem_edges.mp he
        have hmem := Graph16.mem_vertices.mpr (h.stored.ends e hlive).1
        rw [show s.graph.abs.vertices = ∅ from Finset.card_eq_zero.mp (h.stored.vcnt ▸ h0)] at hmem
        exact Finset.notMem_empty _ hmem
      obtain ⟨maxLevel, level, hlevel⟩ := hright.level hm
      exact current_of_level _ (hlevel fun _ => 0) hv h0
  · rintro ⟨hc, hcur⟩
    exact h.right hcap hc hcur

/-- Two vertices. -/
def twoVertices : Scc :=
  let memory : Graph16 := ⟨fun _ => 0, fun _ => 0, 0, 0, 0, fun _ => 0, fun _ => 0, fun _ => 0, fun _ => 0, 0, 0, 0⟩
  (((construct ⟨memory, 0, fun _ => 0⟩).addVertex 0xfffe).2.addVertex 0xfffe).2

theorem reachable_twoVertices : Reachable 0xfffe twoVertices :=
  ((Reachable.construct _).call (c := .addVertex) trivial rfl).call (c := .addVertex) trivial rfl

/-- The last vertex is deleted. -/
theorem right_iff_lastDeleted : ∃ s, twoVertices.deleteVertex 2 = some s ∧ s.Right := by
  refine ⟨_, rfl, (right_iff (le_refl _) (reachable_twoVertices.call (c := .deleteVertex 2) rfl rfl)).mpr
    ⟨fun v => ?_, fun hv => absurd hv (by decide)⟩⟩
  have hvertices (g : Graph16) (h : twoVertices.graph.deleteVertex 2 = some g) : g.abs.vertices = {1} := by
    rw [← Option.some.inj h]
    rfl
  rw [hvertices _ rfl, Finset.mem_singleton, Finset.card_singleton]
  omega

/-- The first vertex is deleted: the search goes to it and not to the second. -/
theorem right_firstDeleted : ∃ s w, twoVertices.deleteVertex 1 = some s ∧ Reachable 0xfffe s ∧ s.search = some w ∧
    s.graph.vertexIsInGraph 1 = false ∧ w.visited 1 = true ∧ s.graph.vertexIsInGraph 2 = true ∧
    w.visited 2 = false ∧ ¬s.Right := by
  refine ⟨_, _, rfl, reachable_twoVertices.call (c := .deleteVertex 1) rfl rfl, rfl, rfl, rfl, rfl, rfl, fun h => ?_⟩
  obtain ⟨w, hrun, hvisited⟩ := h.search rfl
  rw [← Option.some.inj hrun] at hvisited
  exact absurd ((hvisited 1).mp rfl) (by decide)

end Scc

end Path64.Graph

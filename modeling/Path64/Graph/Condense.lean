import Path64.Graph.Right

/-!
# Components of graphs that only grow

* `acyclicCondensation` : the graph of the components;
* `Built` : what additions, deletions of edges and queries lead to; `Built.dense` : the vertices are numbered without gaps;
* `condenseVertices_spec`, `condenseEdges_spec` : the loops of the condensation; `Condenses` : what it is;
* `built_correct` : the components, the condensation, the levels and the order by levels of such graphs.
-/

namespace Path64.Graph

open Lists Relation

namespace Scc

variable (capacity : Nat) (s : Scc)

/-- The first loop of `Acyclic_Condensation`: a vertex for each component, with its number. -/
def condenseVertices (is : List Nat) (g : Scc) : Option Scc :=
  is.foldlM (fun g i => if i = (g.addVertex capacity).1 then some (g.addVertex capacity).2 else none) g

/-- The loop over the edges, from `e` on. -/
def condenseEdges : (fuel e : Nat) → Scc → Option Scc
  | 0, _, _ => none
  | fuel + 1, e, g =>
    if e = 0 then some g
    else if s.sccId (s.graph.efrom e) ≠ s.sccId (s.graph.eto e) then do
      let (_, g) ← g.addUniqueEdge capacity (s.sccId (s.graph.efrom e)) (s.sccId (s.graph.eto e))
      condenseEdges fuel (s.graph.getNextEdge e) g
    else condenseEdges fuel (s.graph.getNextEdge e) g

/-- `Acyclic_Condensation`, in new memory. -/
def acyclicCondensation (memory : Scc) : Option Scc := do
  let s ← s.findScc
  let g ← condenseVertices capacity (List.range' 1 s.sccCnt) memory.construct
  s.condenseEdges capacity (s.graph.elast + 1) s.graph.getEdge g

/-! ## Runs without gaps -/

/-- What additions, deletions of edges and queries lead to, whatever the memory held. -/
inductive Built (capacity : Nat) : Scc → Prop
  | construct (memory : Scc) : Built capacity memory.construct
  | call {s s' : Scc} {c : Call} {r : Nat} (h : Built capacity s) (hkeep : c.isAdd = true ∨ ∃ e, c = .deleteEdge e)
    (hc : s.graph.Valid c) (hrun : s.perform capacity c = some (r, s')) : Built capacity s'
  | query {s s' : Scc} (h : Built capacity s) (hrun : s.findScc = some s') : Built capacity s'

variable {capacity : Nat} {s : Scc} {g : Graph16}

theorem vertices_of_dense (hg : g.Stored capacity) (h : g.vlast = g.vcnt) : g.abs.vertices = Finset.Icc 1 g.vcnt := by
  refine Finset.eq_of_subset_of_card_le (fun v hv => ?_) (by rw [Nat.card_Icc, ← hg.vcnt]; omega)
  have := isLive_iff.mp (Graph16.mem_vertices.mp hv)
  exact Finset.mem_Icc.mpr ⟨this.2.1, h ▸ this.1⟩

theorem compact_of_dense (hg : g.Stored capacity) (h : g.vlast = g.vcnt) : g.abs.Compact := by
  intro v
  rw [← hg.vcnt, vertices_of_dense hg h, Finset.mem_Icc]
  exact Iff.rfl

theorem addVertex_dense (hg : g.Stored capacity) (h : g.vlast = g.vcnt) (hlt : g.vcnt < capacity) :
    (g.addVertex capacity).1 = g.vcnt + 1 ∧ (g.addVertex capacity).2.vlast = g.vcnt + 1 ∧
      (g.addVertex capacity).2.vcnt = g.vcnt + 1 ∧ (g.addVertex capacity).2.abs.edges = g.abs.edges := by
  have hfree : g.vfree = 0 := by
    obtain ⟨l, hl, hmem⟩ := hg.freeVertices
    rcases hl.start_mem with h0 | hin
    · exact h0
    · obtain ⟨h0, hle, hfree⟩ := (hmem _).mp hin
      have hv : g.vfree ∈ g.abs.vertices := by
        rw [vertices_of_dense hg h]
        exact Finset.mem_Icc.mpr ⟨h0, h ▸ hle⟩
      exact absurd (hfree.symm.trans (isLive_iff.mp (Graph16.mem_vertices.mp hv)).2.2) (by decide)
  unfold Graph16.addVertex alloc
  rw [if_neg (Nat.ne_of_lt hlt), if_pos hfree, h]
  exact ⟨rfl, rfl, rfl, rfl⟩

theorem isValid_addVertex (capacity : Nat) (s : Scc) : (s.addVertex capacity).2.isValid = false := isValid_invalidate s

theorem addEdge_counts (capacity : Nat) (g : Graph16) (source sink : Nat) :
    (g.addEdge capacity source sink).2.vlast = g.vlast ∧ (g.addEdge capacity source sink).2.vcnt = g.vcnt := by
  unfold Graph16.addEdge
  split_ifs <;> exact ⟨rfl, rfl⟩

/-- Besides `Add_Vertex`, the calls that delete no vertex keep the vertices, and the components or nothing. -/
theorem perform_cases {c : Call} {r : Nat} {s' : Scc} (hkeep : c.isAdd = true ∨ ∃ e, c = .deleteEdge e)
    (hrun : s.perform capacity c = some (r, s')) : s' = (s.addVertex capacity).2 ∨
      s'.graph.vlast = s.graph.vlast ∧ s'.graph.vcnt = s.graph.vcnt ∧ (s'.sccCnt = s.sccCnt ∨ s'.isValid = false) := by
  have hcnt (P : Prop) [Decidable P] (g : Graph16) :
      Scc.sccCnt { (if P then s.invalidate else s) with graph := g } = s.sccCnt ∨
        Scc.isValid { (if P then s.invalidate else s) with graph := g } = false := by
    by_cases hP : P
    · rw [if_pos hP]
      exact .inr (isValid_invalidate s)
    · rw [if_neg hP]
      exact .inl rfl
  cases c with
  | addVertex => exact .inl (Prod.mk.inj (Option.some.inj hrun)).2.symm
  | addEdge source sink =>
    obtain ⟨-, rfl⟩ := Prod.mk.inj (Option.some.inj hrun)
    obtain ⟨hlast, hvcnt⟩ := addEdge_counts capacity s.graph source sink
    exact .inr ⟨hlast, hvcnt, hcnt _ _⟩
  | addUniqueEdge source sink =>
    obtain ⟨⟨e, g⟩, hg', heq⟩ := Option.map_eq_some_iff.mp hrun
    obtain ⟨-, rfl⟩ := Prod.mk.inj heq
    obtain ⟨x, -, hx⟩ := Option.bind_eq_some_iff.mp hg'
    split_ifs at hx
    · obtain ⟨-, rfl⟩ := Prod.mk.inj (Option.some.inj hx)
      exact .inr ⟨rfl, rfl, hcnt _ _⟩
    · obtain ⟨hlast, hvcnt⟩ := addEdge_counts capacity s.graph source sink
      rw [Option.some.inj hx] at hlast hvcnt
      exact .inr ⟨hlast, hvcnt, hcnt _ _⟩
  | deleteEdge e =>
    obtain ⟨s₁, hs₁, heq⟩ := Option.map_eq_some_iff.mp hrun
    obtain ⟨g, hg', rfl⟩ := Option.map_eq_some_iff.mp hs₁
    obtain ⟨-, rfl⟩ := Prod.mk.inj heq
    obtain ⟨out, -, hg'⟩ := Option.bind_eq_some_iff.mp hg'
    obtain ⟨into, -, hg'⟩ := Option.bind_eq_some_iff.mp hg'
    obtain rfl := Option.some.inj hg'
    exact .inr ⟨rfl, rfl, hcnt _ _⟩
  | deleteVertex v => exact absurd hkeep (by rintro (h | ⟨e, h⟩) <;> cases h)
  | eraseGraph => exact absurd hkeep (by rintro (h | ⟨e, h⟩) <;> cases h)

theorem addVertex_keeps_dense (hg : g.Stored capacity) (h : g.vlast = g.vcnt) :
    (g.addVertex capacity).2.vlast = (g.addVertex capacity).2.vcnt := by
  by_cases hfull : g.vcnt = capacity
  · unfold Graph16.addVertex
    rw [if_pos hfull]
    exact h
  · obtain ⟨-, hlast, hcnt, -⟩ := addVertex_dense hg h (Nat.lt_of_le_of_ne hg.vcnt_le hfull)
    rw [hlast, hcnt]

theorem Built.spec (hcap : capacity ≤ 0xfffe) (hs : Built capacity s) :
    Reachable capacity s ∧ s.graph.vlast = s.graph.vcnt ∧ s.Current := by
  induction hs with
  | construct memory => exact ⟨.construct memory, rfl, fun hv => absurd hv (by
      rw [show memory.construct.isValid = false from bne_self_eq_false invalid]; decide)⟩
  | call _ hkeep hc hrun ih =>
    obtain ⟨hreach, hdense, hcur⟩ := ih
    refine ⟨hreach.call hc hrun, ?_⟩
    rcases perform_cases hkeep hrun with rfl | ⟨hlast, hcnt, hscc⟩
    · refine ⟨addVertex_keeps_dense (hreach.kept hcap).stored hdense, fun hv => ?_⟩
      exact absurd ((isValid_addVertex capacity _).symm.trans hv) Bool.false_ne_true
    · refine ⟨hlast.trans (hdense.trans hcnt.symm), fun hv h0 => ?_⟩
      have hscc' := hscc.resolve_right (Bool.not_eq_false _ ▸ hv)
      refine hscc'.trans (hcur ?_ (hcnt ▸ h0))
      unfold isValid at hv ⊢
      rwa [hscc'] at hv
  | query _ hrun ih =>
    obtain ⟨hreach, hdense, hcur⟩ := ih
    have h := hreach.kept hcap
    have hc := compact_of_dense h.stored hdense
    obtain ⟨s₁, hrun₁, hgraph, -, hlabel, -⟩ := h.findScc hcap hc
    obtain rfl := Option.some.inj (hrun.symm.trans hrun₁)
    refine ⟨hreach.query hc hrun, by rw [hgraph]; exact hdense, fun _ h0 => ?_⟩
    rw [hgraph, h.stored.vcnt] at h0
    have := (hlabel hcur).cnt_le
    omega

/-! ## The condensation -/

variable {k : Nat} {c : Scc}

/-- The vertices of the condensation are those of the new graph. -/
theorem condenseVertices_spec (hk : k ≤ capacity) (memory : Scc) : ∃ c,
    condenseVertices capacity (List.range' 1 k) memory.construct = some c ∧ c.graph.Stored capacity ∧
      c.graph.vlast = k ∧ c.graph.vcnt = k ∧ c.graph.abs.edges = ∅ := by
  induction k with
  | zero =>
    obtain ⟨hg, habs⟩ := Graph16.stored_eraseGraph capacity memory.graph
    exact ⟨memory.construct, rfl, hg, rfl, rfl, congrArg Multigraph.edges habs⟩
  | succ k ih =>
    obtain ⟨c, hrun, hg, hlast, hcnt, hedges⟩ := ih (by omega)
    obtain ⟨hv, hlast', hcnt', hedges'⟩ := addVertex_dense hg (hlast.trans hcnt.symm) (by omega)
    rw [hcnt] at hv hlast' hcnt'
    refine ⟨(c.addVertex capacity).2, ?_, hg.addVertex.1, hlast', hcnt', hedges'.trans hedges⟩
    have hi : 1 + 1 * k = (c.addVertex capacity).1 := by
      show _ = (c.graph.addVertex capacity).1
      omega
    unfold condenseVertices at hrun ⊢
    rw [List.range'_concat, List.foldlM_append, hrun, Option.bind_eq_bind, Option.bind_some, List.foldlM_cons,
      if_pos hi]
    rfl

/-- The condensation of a graph. -/
structure Condenses (m : Multigraph) (cnt : Nat) (id : Nat → Nat) (c : Multigraph) : Prop where
  vertices : c.vertices = Finset.Icc 1 cnt
  edge : ∀ a b, c.Edge a b ↔ a ≠ b ∧ ∃ u v, m.Edge u v ∧ id u = a ∧ id v = b
  unique : ∀ e e' a b, (e, a, b) ∈ c.edges → (e', a, b) ∈ c.edges → e = e'
  acyclic : c.Acyclic

/-- After the edges of the list `done`. -/
structure Condensing (s : Scc) (k : Nat) (done : List Nat) (m : Multigraph) : Prop where
  vertices : m.vertices = Finset.Icc 1 k
  edge : ∀ a b, m.Edge a b ↔ a ≠ b ∧ ∃ e ∈ done, s.sccId (s.graph.efrom e) = a ∧ s.sccId (s.graph.eto e) = b
  unique : ∀ e e' a b, (e, a, b) ∈ m.edges → (e', a, b) ∈ m.edges → e = e'
  card : m.edges.card ≤ done.length

namespace Condensing

variable {done : List Nat} {e r : Nat} {m m' : Multigraph}

theorem skip (h : Condensing s k done m) (hedge : s.sccId (s.graph.efrom e) ≠ s.sccId (s.graph.eto e) →
    m.Edge (s.sccId (s.graph.efrom e)) (s.sccId (s.graph.eto e))) : Condensing s k (done ++ [e]) m := by
  refine { h with edge := fun a b => ?_, card := h.card.trans ?_ }
  · constructor
    · intro hab
      obtain ⟨hne, x, hx, hxab⟩ := (h.edge a b).mp hab
      exact ⟨hne, x, List.mem_append_left _ hx, hxab⟩
    · rintro ⟨hne, x, hx, rfl, rfl⟩
      rcases List.mem_append.mp hx with hx | hx
      · exact (h.edge _ _).mpr ⟨hne, x, hx, rfl, rfl⟩
      · obtain rfl := List.mem_singleton.mp hx
        exact hedge hne
  · rw [List.length_append]
    exact Nat.le_add_right _ _

/-- An edge between two components. -/
theorem step (h : Condensing s k done m) (hne : s.sccId (s.graph.efrom e) ≠ s.sccId (s.graph.eto e))
    (hlt : done.length < capacity) (hstep : Multigraph.Step capacity m
      (.addUniqueEdge (s.sccId (s.graph.efrom e)) (s.sccId (s.graph.eto e))) r m') :
    Condensing s k (done ++ [e]) m' := by
  have hcard := h.card
  cases hstep with
  | oldEdge he => exact h.skip fun _ => ⟨_, he⟩
  | newEdge hno hadd =>
    cases hadd with
    | full hfull => omega
    | new _ _ _ hnew =>
      refine ⟨h.vertices, fun a b => ?_, fun x y a b hx hy => ?_, ?_⟩
      · constructor
        · rintro ⟨x, hx⟩
          rcases Finset.mem_insert.mp hx with heq | hx
          · obtain ⟨-, rfl, rfl⟩ := by simpa only [Prod.mk.injEq] using heq
            exact ⟨hne, e, List.mem_append_right _ List.mem_cons_self, rfl, rfl⟩
          · obtain ⟨hab, y, hy, hyab⟩ := (h.edge a b).mp ⟨x, hx⟩
            exact ⟨hab, y, List.mem_append_left _ hy, hyab⟩
        · rintro ⟨hab, y, hy, rfl, rfl⟩
          rcases List.mem_append.mp hy with hy | hy
          · obtain ⟨x, hx⟩ := (h.edge _ _).mpr ⟨hab, y, hy, rfl, rfl⟩
            exact ⟨x, Finset.mem_insert_of_mem hx⟩
          · obtain rfl := List.mem_singleton.mp hy
            exact ⟨_, Finset.mem_insert_self _ _⟩
      · rcases Finset.mem_insert.mp hx with hx | hx <;> rcases Finset.mem_insert.mp hy with hy | hy
        · exact (congrArg Prod.fst hx).trans (congrArg Prod.fst hy).symm
        · obtain ⟨-, rfl, rfl⟩ := by simpa only [Prod.mk.injEq] using hx
          exact absurd hy (hno y)
        · obtain ⟨-, rfl, rfl⟩ := by simpa only [Prod.mk.injEq] using hy
          exact absurd hx (hno x)
        · exact h.unique x y a b hx hy
      · rw [Finset.card_insert_of_notMem (hnew _ _), List.length_append, List.length_singleton]
        omega

end Condensing

/-- The loop over the edges `l`, after those of `done`. -/
theorem condenseEdges_spec (hcap : capacity ≤ 0xfffe) {fuel e : Nat} {done l : List Nat}
    (hid : ∀ e ∈ l, s.sccId (s.graph.efrom e) ∈ Finset.Icc 1 k ∧ s.sccId (s.graph.eto e) ∈ Finset.Icc 1 k)
    (hc : c.graph.Stored capacity) (h : Condensing s k done c.graph.abs) (hl : Threads s.graph.getNextEdge e l)
    (hlen : (done ++ l).length ≤ capacity) (hfuel : l.length < fuel) :
    ∃ c', s.condenseEdges capacity fuel e c = some c' ∧ Condensing s k (done ++ l) c'.graph.abs := by
  induction l generalizing fuel e done c with
  | nil =>
    obtain ⟨fuel, rfl⟩ : ∃ n, fuel = n + 1 := ⟨fuel - 1, by rw [List.length_nil] at hfuel; omega⟩
    rw [List.append_nil]
    exact ⟨c, by rw [condenseEdges, if_pos (threads_nil.mp hl)], h⟩
  | cons x l ih =>
    obtain ⟨rfl, he0, hl⟩ := threads_cons.mp hl
    rw [List.length_cons] at hfuel
    obtain ⟨fuel, rfl⟩ : ∃ n, fuel = n + 1 := ⟨fuel - 1, by omega⟩
    obtain ⟨hide, hid⟩ := List.forall_mem_cons.mp hid
    have happend : done ++ e :: l = done ++ [e] ++ l := by rw [List.append_assoc, List.singleton_append]
    rw [happend] at hlen ⊢
    have hfuel' : l.length < fuel := by omega
    rw [condenseEdges, if_neg he0]
    by_cases hne : s.sccId (s.graph.efrom e) ≠ s.sccId (s.graph.eto e)
    · rw [← h.vertices] at hide
      obtain ⟨r, g', hrun, hg', hstep⟩ := hc.addUniqueEdge hcap (Graph16.mem_vertices.mp hide.1)
        (Graph16.mem_vertices.mp hide.2)
      have hlt : done.length < capacity := by
        rw [List.length_append, List.length_append, List.length_singleton] at hlen
        omega
      obtain ⟨c', hrun', h'⟩ := ih hid (c := { c.beforeAdd _ _ with graph := g' }) hg' (h.step hne hlt hstep) hl hlen
        hfuel'
      refine ⟨c', ?_, h'⟩
      rw [if_pos hne, Scc.addUniqueEdge, hrun]
      exact hrun'
    · obtain ⟨c', hrun, h'⟩ := ih hid hc (h.skip fun hne' => absurd hne' hne) hl hlen hfuel'
      exact ⟨c', by rw [if_neg hne]; exact hrun, h'⟩

/-- The condensation of a graph whose components are known. -/
theorem condensation_spec (hcap : capacity ≤ 0xfffe) (h : s.graph.Stored capacity) {s' : Scc}
    (hrun : s.findScc = some s') (hgraph : s'.graph = s.graph) (hlabel : s.graph.abs.Labelled s'.sccCnt s'.sccId)
    (memory : Scc) : ∃ c, s.acyclicCondensation capacity memory = some c ∧
      Condenses s.graph.abs s'.sccCnt s'.sccId c.graph.abs := by
  have hk : s'.sccCnt ≤ capacity := by
    have h1 := hlabel.cnt_le
    rw [← h.vcnt] at h1
    exact h1.trans h.vcnt_le
  obtain ⟨c, hvertices, hc, hlast, hcnt, hedges⟩ := condenseVertices_spec hk memory
  obtain ⟨l, hl, hmem⟩ := h.enumerated.edges
  have hlen : l.length < s.graph.elast + 1 := hl.length_lt (by omega) fun x hx => by
    have := (isLive_iff.mp ((hmem x).mp hx)).1
    omega
  have hle : ([] ++ l).length ≤ capacity := by
    have := h.elast
    rw [List.nil_append]
    omega
  have hid (e : Nat) (he : e ∈ l) : s'.sccId (s'.graph.efrom e) ∈ Finset.Icc 1 s'.sccCnt ∧
      s'.sccId (s'.graph.eto e) ∈ Finset.Icc 1 s'.sccCnt := by
    obtain ⟨hs, ht⟩ := h.ends e ((hmem e).mp he)
    rw [hgraph]
    exact ⟨Finset.mem_Icc.mpr (hlabel.range _ (Graph16.mem_vertices.mpr hs)),
      Finset.mem_Icc.mpr (hlabel.range _ (Graph16.mem_vertices.mpr ht))⟩
  have hstart : Condensing s' s'.sccCnt [] c.graph.abs := by
    refine ⟨?_, fun a b => ?_, fun e e' a b he => ?_, ?_⟩
    · rw [vertices_of_dense hc (hlast.trans hcnt.symm), hcnt]
    · refine iff_of_false (fun ⟨e, he⟩ => ?_) (by rintro ⟨-, e, he, -⟩; exact absurd he List.not_mem_nil)
      rw [hedges] at he
      exact absurd he (Finset.notMem_empty _)
    · rw [hedges] at he
      exact absurd he (Finset.notMem_empty _)
    · rw [hedges]
      exact Nat.le_refl 0
  rw [← hgraph] at hl
  obtain ⟨c', hrun', h'⟩ := condenseEdges_spec hcap hid hc hstart hl hle hlen
  rw [hgraph] at hrun'
  rw [List.nil_append] at h'
  have hedge (a b : Nat) : c'.graph.abs.Edge a b ↔ a ≠ b ∧ ∃ u v, s.graph.abs.Edge u v ∧ s'.sccId u = a ∧
      s'.sccId v = b := by
    rw [h'.edge, hgraph, Graph16.edge_abs]
    refine and_congr_right fun _ => ?_
    constructor
    · rintro ⟨e, he, hab⟩
      exact ⟨_, _, ⟨e, (hmem e).mp he, rfl, rfl⟩, hab⟩
    · rintro ⟨_, _, ⟨e, he, rfl, rfl⟩, hab⟩
      exact ⟨e, (hmem e).mpr he, hab⟩
  -- an edge goes to a smaller number
  have hless (a b : Nat) (hab : TransGen c'.graph.abs.Edge a b) : b < a := by
    have hone (a b : Nat) (hab : c'.graph.abs.Edge a b) : b < a := by
      obtain ⟨hne, u, v, huv, rfl, rfl⟩ := (hedge a b).mp hab
      exact Nat.lt_of_le_of_ne (hlabel.edge u v huv) hne.symm
    induction hab with
    | single hab => exact hone _ _ hab
    | tail _ hab ih => exact (hone _ _ hab).trans ih
  refine ⟨c', ?_, h'.vertices, hedge, h'.unique, fun v hv => Nat.lt_irrefl v (hless v v hv)⟩
  unfold acyclicCondensation
  rw [hrun, Option.bind_eq_bind, Option.bind_some, hvertices, Option.bind_some, hgraph]
  exact hrun'

/-! ## All of it -/

/-- The components, the condensation, and for an acyclic graph the levels and the order by levels. -/
structure Correct (capacity : Nat) (s : Scc) : Prop where
  find : ∃ s', s.findScc = some s' ∧ s.graph.abs.Labelled s'.sccCnt s'.sccId ∧
    ∀ memory, ∃ c, s.acyclicCondensation capacity memory = some c ∧
      Condenses s.graph.abs s'.sccCnt s'.sccId c.graph.abs
  level : s.graph.abs.Acyclic → ∀ level₀, ∃ maxLevel level, s.getLevel level₀ = some (maxLevel, level) ∧
    ∀ v ∈ s.graph.abs.vertices, Longest s.graph.abs.Edge v (level v)
  sort : s.graph.abs.Acyclic → ∃ (maxLevel : Nat) (queue : List Nat) (level : Nat → Nat),
    s.levelSort = some (maxLevel, queue) ∧ queue.Nodup ∧ (∀ v, v ∈ queue ↔ v ∈ s.graph.abs.vertices) ∧
      (queue.Pairwise fun a b => ¬s.graph.abs.Edge b a) ∧
      (∀ v ∈ queue, Longest s.graph.abs.Edge v (level v)) ∧ queue.Pairwise fun a b => level a ≤ level b

/-- Without deleted vertices all is right after any calls. -/
theorem built_correct (hcap : capacity ≤ 0xfffe) (hs : Built capacity s) : s.Correct capacity := by
  obtain ⟨hreach, hdense, hcur⟩ := hs.spec hcap
  have h := hreach.kept hcap
  have hc := compact_of_dense h.stored hdense
  constructor
  · obtain ⟨s', hrun, hgraph, -, hlabel, -⟩ := h.findScc hcap hc
    exact ⟨s', hrun, hlabel hcur, condensation_spec hcap h.stored hrun hgraph (hlabel hcur)⟩
  · intro hm level₀
    obtain ⟨q, hrun, hq, hmem⟩ := levels_spec hcap h hc hcur hm level₀
    refine ⟨q.maxLevel, q.level, by rw [getLevel, hrun, Option.map_some], fun v hv => hq.longest v ?_⟩
    exact (hmem v).mpr (Graph16.mem_vertices.mp hv)
  · intro hm
    obtain ⟨q, hrun, hq, hmem⟩ := levels_spec hcap h hc hcur hm fun _ => 0
    refine ⟨q.maxLevel, q.queue, q.level, by rw [levelSort, hrun, Option.map_some], hq.nodup,
      fun v => (hmem v).trans Graph16.mem_vertices.symm, ?_, hq.longest, hq.sorted⟩
    refine hq.sorted.imp_of_mem fun {a b} ha hb hle hba => ?_
    have := (hq.longest b hb).lt (hq.longest a ha) hba
    omega

/-- Two vertices in a cycle, and an edge from it to a third. -/
theorem built_correct_cycle : ∃ s : Scc, s.Correct 0xfffe ∧ s.graph.vcnt = 3 ∧ s.graph.ecnt = 3 := by
  have h : Built 0xfffe ((((twoVertices.addVertex 0xfffe).2.addEdge 0xfffe 1 2).2.addEdge 0xfffe 2 1).2.addEdge
      0xfffe 2 3).2 :=
    ((((((Built.construct _).call (c := .addVertex) (.inl rfl) trivial rfl).call (c := .addVertex) (.inl rfl) trivial
      rfl).call (c := .addVertex) (.inl rfl) trivial rfl).call (c := .addEdge 1 2) (.inl rfl) ⟨rfl, rfl⟩ rfl).call
      (c := .addEdge 2 1) (.inl rfl) ⟨rfl, rfl⟩ rfl).call (c := .addEdge 2 3) (.inl rfl) ⟨rfl, rfl⟩ rfl
  exact ⟨_, built_correct (le_refl _) h, rfl, rfl⟩

end Scc

end Path64.Graph

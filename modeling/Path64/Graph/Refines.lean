import Path64.Graph.Basic

/-!
# The graph store refines a multigraph

* `Stored.addVertex`, `Stored.addEdge`, `Stored.addUniqueEdge`, `Stored.deleteEdge`, `Stored.deleteVertex` : what each
  operation does to the arrays and to the multigraph;
* `Stored.enumerated` : the loops over the vertices and over the edges;
* `graph_refines` : every graph that calls lead to is stored properly, and every further call is a step.
-/

namespace Path64.Graph

open Lists

namespace Graph16

variable {capacity : Nat} {g g' : Graph16} {v e source sink : Nat}

theorem mem_vertices : v ∈ g.abs.vertices ↔ g.vertexIsInGraph v = true := mem_liveSlots

theorem mem_edges {x : Nat × Nat × Nat} :
    x ∈ g.abs.edges ↔ g.edgeIsInGraph x.1 = true ∧ x.2.1 = g.efrom x.1 ∧ x.2.2 = g.eto x.1 := by
  obtain ⟨e, s, t⟩ := x
  show (e, s, t) ∈ Finset.image _ _ ↔ _
  rw [Finset.mem_image]
  constructor
  · rintro ⟨e', he', heq⟩
    obtain ⟨rfl, rfl, rfl⟩ := by simpa only [Prod.mk.injEq] using heq
    exact ⟨mem_liveSlots.mp he', rfl, rfl⟩
  · rintro ⟨he, hs, ht⟩
    exact ⟨e, mem_liveSlots.mpr he, by rw [← hs, ← ht]⟩

theorem card_edges (g : Graph16) : g.abs.edges.card = (liveSlots g.elast g.edgeIsFree).card :=
  Finset.card_image_of_injective _ fun _ _ h => congrArg Prod.fst h

theorem card_edges_lt (g : Graph16) : g.abs.edges.card < g.elast + 1 := by
  rw [card_edges]
  exact Nat.lt_succ_of_le card_liveSlots_le

theorem vertexIsFree_update (hv : g.vertexIsInGraph v = true) (he : e ≠ invalid) :
    (fun x => Function.update g.vto v e x == invalid) = g.vertexIsFree := by
  funext x
  by_cases hx : x = v
  · rw [hx, Function.update_self, (isLive_iff.mp hv).2.2]
    exact beq_false_of_ne he
  · rw [Function.update_of_ne hx]
    rfl

namespace Stored

variable (h : g.Stored capacity) (hcap : capacity ≤ 0xfffe)

include h

theorem vcnt_le : g.vcnt ≤ capacity := by
  rw [h.vcnt]
  exact (card_liveSlots_le).trans h.vlast

theorem ecnt_le : g.ecnt ≤ capacity := by
  rw [h.ecnt, card_edges]
  exact (card_liveSlots_le).trans h.elast

include hcap

theorem vertex_ne_invalid (hv : g.vertexIsInGraph v = true) : v ≠ invalid := by
  have := (isLive_iff.mp hv).1
  have := h.vlast
  unfold invalid
  omega

theorem edge_ne_invalid (he : g.edgeIsInGraph e = true) : e ≠ invalid := by
  have := (isLive_iff.mp he).1
  have := h.elast
  unfold invalid
  omega

omit hcap

/-! ## Vertices -/

theorem addVertex : (g.addVertex capacity).2.Stored capacity ∧
    Multigraph.Step capacity g.abs .addVertex (g.addVertex capacity).1 (g.addVertex capacity).2.abs := by
  unfold Graph16.addVertex
  by_cases hfull : g.vcnt = capacity
  · rw [if_pos hfull]
    exact ⟨h, .vertexFull (h.vcnt ▸ hfull)⟩
  rw [if_neg hfull]
  have hle := h.vcnt_le
  rcases ha : alloc g.vlast g.vfree g.vfrom with ⟨v, vlast, vfree⟩
  obtain ⟨hpool, hv0, hnew, hlive, hlast⟩ : Pool vlast vfree (Function.update g.vfrom v 0)
      (fun x => Function.update g.vto v 0 x == invalid) ∧ _ :=
    h.freeVertices.alloc ha (fun x hx => Function.update_of_ne hx _ _)
      (by rw [Function.update_self]; rfl) (fun x hx => by rw [Function.update_of_ne hx]; rfl)
  have hends (e : Nat) (he : g.edgeIsInGraph e = true) : g.efrom e ≠ v ∧ g.eto e ≠ v := by
    obtain ⟨hs, ht⟩ := h.ends e he
    constructor
    · rintro rfl
      exact absurd hs (Bool.eq_false_iff.mp hnew)
    · rintro rfl
      exact absurd ht (Bool.eq_false_iff.mp hnew)
  have habs : liveSlots vlast (fun x => Function.update g.vto v 0 x == invalid) = insert v g.abs.vertices := by
    ext x
    rw [mem_liveSlots, Finset.mem_insert, mem_vertices, hlive, or_comm]
    rfl
  have hnotin : v ∉ g.abs.vertices := fun hv => absurd (mem_vertices.mp hv) (Bool.eq_false_iff.mp hnew)
  have hcnt : g.vcnt + 1 = (insert v g.abs.vertices).card := by rw [Finset.card_insert_of_notMem hnotin, h.vcnt]
  refine ⟨⟨?_, ?_, fun e he => ?_, hpool, h.freeEdges, ?_, h.ecnt, ?_, h.elast⟩, ?_⟩
  · exact (h.out.addOwner fun e he => (hends e he).1).congr (fun _ => Iff.rfl) (fun w => (hlive w).mp) (fun _ _ => rfl)
      (fun _ _ => rfl) fun _ _ => rfl
  · exact (h.into.addOwner fun e he => (hends e he).2).congr (fun _ => Iff.rfl) (fun w => (hlive w).mp) (fun _ _ => rfl)
      (fun _ _ => rfl) fun _ _ => rfl
  · exact ⟨(hlive _).mpr (.inl (h.ends e he).1), (hlive _).mpr (.inl (h.ends e he).2)⟩
  · exact hcnt.trans (congrArg Finset.card habs.symm)
  · rcases hlast with hlast | hlast
    · exact hlast ▸ h.vlast
    · have : vlast = g.vcnt + 1 := hlast.trans (by rw [h.vcnt]; rfl)
      show vlast ≤ capacity
      omega
  · have hstep : Multigraph.Step capacity g.abs .addVertex v ⟨insert v g.abs.vertices, g.abs.edges⟩ :=
      .vertex v (by rw [← h.vcnt]; omega) hv0 hnotin
    rw [← habs] at hstep
    exact hstep

/-! ## Edges -/

include hcap

theorem addEdge (hs : g.vertexIsInGraph source = true) (ht : g.vertexIsInGraph sink = true) :
    (g.addEdge capacity source sink).2.Stored capacity ∧ g.abs.AddsEdge capacity source sink
      (g.addEdge capacity source sink).1 (g.addEdge capacity source sink).2.abs := by
  unfold Graph16.addEdge
  by_cases hfull : g.ecnt = capacity
  · rw [if_pos hfull]
    exact ⟨h, .full (h.ecnt ▸ hfull)⟩
  rw [if_neg hfull]
  have hle := h.ecnt_le
  have hmark : (sink == invalid) = false := beq_false_of_ne (h.vertex_ne_invalid hcap ht)
  rcases ha : alloc g.elast g.efree g.efrom with ⟨e, elast, efree⟩
  obtain ⟨hpool, he0, hnew, hlive, hlast⟩ : Pool elast efree (Function.update g.efrom e source)
      (fun x => Function.update g.eto e sink x == invalid) ∧ _ :=
    h.freeEdges.alloc ha (fun x hx => Function.update_of_ne hx _ _)
      (by rw [Function.update_self]; exact hmark) (fun x hx => by rw [Function.update_of_ne hx]; rfl)
  have hfree : ¬g.edgeIsInGraph e = true := Bool.eq_false_iff.mp hnew
  have he : e ≤ capacity := by
    have hle' := (isLive_iff.mp ((hlive e).mpr (.inr rfl))).1
    rcases hlast with hlast | hlast
    · exact hle'.trans (hlast ▸ h.elast)
    · rw [← card_edges, ← h.ecnt] at hlast
      omega
  have hvertex := vertexIsFree_update ht (show e ≠ invalid by unfold invalid; omega)
  have howner (w : Nat) : isLive g.vlast (fun x => Function.update g.vto sink e x == invalid) w =
      g.vertexIsInGraph w := congrArg (isLive g.vlast · w) hvertex
  have hsame (x : Nat) (hx : g.edgeIsInGraph x = true) : x ≠ e := by
    rintro rfl
    exact hfree hx
  have habs : (liveSlots elast fun x => Function.update g.eto e sink x == invalid).image
      (fun x => (x, Function.update g.efrom e source x, Function.update g.eto e sink x)) =
      insert (e, source, sink) g.abs.edges := by
    ext ⟨x, s, t⟩
    rw [Finset.mem_insert, mem_edges, Finset.mem_image]
    constructor
    · rintro ⟨x', hx', heq⟩
      obtain ⟨rfl, rfl, rfl⟩ := by simpa only [Prod.mk.injEq] using heq
      rcases (hlive x').mp (mem_liveSlots.mp hx') with hx | rfl
      · rw [Function.update_of_ne (hsame x' hx), Function.update_of_ne (hsame x' hx)]
        exact .inr ⟨hx, rfl, rfl⟩
      · rw [Function.update_self, Function.update_self]
        exact .inl rfl
    · rintro (heq | ⟨hx, hxs, hxt⟩)
      · obtain ⟨rfl, rfl, rfl⟩ := by simpa only [Prod.mk.injEq] using heq
        refine ⟨x, mem_liveSlots.mpr ((hlive x).mpr (.inr rfl)), ?_⟩
        rw [Function.update_self, Function.update_self]
      · refine ⟨x, mem_liveSlots.mpr ((hlive x).mpr (.inl hx)), ?_⟩
        rw [Function.update_of_ne (hsame x hx), Function.update_of_ne (hsame x hx), ← hxs, ← hxt]
  have hnotin (s t : Nat) : (e, s, t) ∉ g.abs.edges := fun hmem => hfree (mem_edges.mp hmem).1
  refine ⟨⟨?_, ?_, fun x hx => ?_, ?_, hpool, ?_, ?_, h.vlast, ?_⟩, ?_⟩
  · refine (h.out.push he0 hfree source).congr (fun x => hlive x) (fun w hw => (howner w).symm.trans hw) ?_ ?_ ?_ <;>
      exact fun _ _ => rfl
  · refine (h.into.push he0 hfree sink).congr (fun x => hlive x) (fun w hw => (howner w).symm.trans hw) ?_ ?_ ?_ <;>
      exact fun _ _ => rfl
  · show isLive _ _ (Function.update g.efrom e source x) = true ∧ isLive _ _ (Function.update g.eto e sink x) = true
    rcases (hlive x).mp hx with hx | rfl
    · rw [Function.update_of_ne (hsame x hx), Function.update_of_ne (hsame x hx)]
      exact ⟨(howner _).trans (h.ends x hx).1, (howner _).trans (h.ends x hx).2⟩
    · rw [Function.update_self, Function.update_self]
      exact ⟨(howner _).trans hs, (howner _).trans ht⟩
  · refine h.freeVertices.congr (fun i _ _ => congrFun hvertex i) fun i hpos hle' hi => Function.update_of_ne ?_ _ _
    rintro rfl
    rw [(isLive_iff.mp hs).2.2] at hi
    exact Bool.false_ne_true hi
  · refine h.vcnt.trans (congrArg Finset.card ?_)
    exact congrArg (liveSlots g.vlast) hvertex.symm
  · refine Eq.trans ?_ (congrArg Finset.card habs.symm)
    rw [Finset.card_insert_of_notMem (hnotin _ _), h.ecnt]
  · rcases hlast with hlast | hlast
    · exact hlast ▸ h.elast
    · rw [← card_edges, ← h.ecnt] at hlast
      show elast ≤ capacity
      omega
  · have hstep : g.abs.AddsEdge capacity source sink e ⟨g.abs.vertices, insert (e, source, sink) g.abs.edges⟩ :=
      .new e (by rw [← h.ecnt]; omega) he0 hnotin
    have hvertices : liveSlots g.vlast (fun x => Function.update g.vto sink e x == invalid) = g.abs.vertices :=
      congrArg _ hvertex
    rw [← habs, ← hvertices] at hstep
    exact hstep

omit hcap

/-- `Get_Edge(from, to)` finds an edge if there is one. -/
theorem getEdgeBetween (hs : g.vertexIsInGraph source = true) (sink : Nat) : ∃ e, g.getEdgeBetween source sink = some e ∧
    (e ≠ 0 → (e, source, sink) ∈ g.abs.edges) ∧ (e = 0 → ∀ e, (e, source, sink) ∉ g.abs.edges) := by
  obtain ⟨l, hl, hmem⟩ := h.out source hs
  have hlen : l.length < g.elast + 1 := hl.length_lt (by omega) fun i hi => by
    have := (isLive_iff.mp ((hmem i).mp hi).1).1
    omega
  unfold Graph16.getEdgeBetween
  by_cases hex : ∃ e ∈ l, g.eto e = sink
  · -- the first edge of the list with that sink
    obtain ⟨e, he⟩ := Option.isSome_iff_exists.mp (List.find?_isSome.mpr
      (show ∃ x ∈ l, (g.eto x == sink) = true from hex.imp fun x hx => ⟨hx.1, beq_iff_eq.mpr hx.2⟩))
    obtain ⟨hsink, a, b, rfl, ha⟩ := List.find?_eq_some_iff_append.mp he
    have hin := (hmem e).mp (List.mem_append_right _ List.mem_cons_self)
    have hpos (x : Nat) (hx : x ∈ a) : (x == 0) = false :=
      beq_false_of_ne (hl.pos (List.mem_append_left _ hx))
    refine ⟨e, follow_of_split hl (fun x hx => ?_) ?_ ?_, fun _ => ?_, fun h0 => ?_⟩
    · rw [hpos x hx, Bool.false_or]
      simpa using ha x hx
    · rw [hsink, Bool.or_true]
    · rw [List.length_append] at hlen
      omega
    · exact mem_edges.mpr ⟨hin.1, hin.2.symm, (beq_iff_eq.mp hsink).symm⟩
    · exact absurd h0 (hl.pos (List.mem_append_right _ List.mem_cons_self))
  · refine ⟨0, follow_to_end hl (fun x hx => ?_) rfl hlen, fun h0 => absurd rfl h0, fun _ e he => hex ?_⟩
    · rw [beq_false_of_ne (hl.pos hx), Bool.false_or]
      exact beq_false_of_ne fun hx' => hex ⟨x, hx, hx'⟩
    · obtain ⟨hlive, hes, het⟩ := mem_edges.mp he
      exact ⟨e, (hmem e).mpr ⟨hlive, hes.symm⟩, het.symm⟩

include hcap

theorem addUniqueEdge (hs : g.vertexIsInGraph source = true) (ht : g.vertexIsInGraph sink = true) :
    ∃ r g', g.addUniqueEdge capacity source sink = some (r, g') ∧ g'.Stored capacity ∧
      Multigraph.Step capacity g.abs (.addUniqueEdge source sink) r g'.abs := by
  obtain ⟨e, he, hold, hnone⟩ : ∃ e, g.getEdgeBetween source sink = some e ∧ _ := h.getEdgeBetween hs sink
  unfold Graph16.addUniqueEdge
  rw [he, Option.bind_eq_bind, Option.bind_some]
  by_cases h0 : e = 0
  · rw [if_neg (not_not.mpr h0)]
    obtain ⟨hstored, hadds⟩ := h.addEdge hcap hs ht
    exact ⟨_, _, rfl, hstored, .newEdge (hnone h0) hadds⟩
  · rw [if_pos h0]
    exact ⟨e, g, rfl, h, .oldEdge (hold h0)⟩

/-! ## Deleting -/

theorem deleteEdge (he : g.edgeIsInGraph e = true) : ∃ g', g.deleteEdge e = some g' ∧ g'.Stored capacity ∧
    g'.abs = ⟨g.abs.vertices, {x ∈ g.abs.edges | x.1 ≠ e}⟩ ∧ g'.elast = g.elast := by
  obtain ⟨hs, ht⟩ := h.ends e he
  have hfuel (x : Nat) (hx : g.edgeIsInGraph x = true) : x < g.elast + 1 := by
    have := (isLive_iff.mp hx).1
    omega
  obtain ⟨out, nfrom, hout, hbout⟩ := h.out.unlink he hs hfuel
  obtain ⟨into, nto, hinto, hbinto⟩ := h.into.unlink he ht hfuel
  obtain ⟨hpool, hlive⟩ : Pool g.elast e (Function.update g.efrom e g.efree)
      (fun x => Function.update g.eto e invalid x == invalid) ∧ _ :=
    h.freeEdges.release he (by rw [Function.update_self]; rfl) (fun x hx => by rw [Function.update_of_ne hx]; rfl)
  have hmark : into ≠ invalid := by
    obtain ⟨l, hl, hmem⟩ := hbinto (g.eto e) ht
    rw [Function.update_self] at hl
    rcases hl.start_mem with h0 | hin
    · rw [h0]
      decide
    · exact h.edge_ne_invalid hcap ((hmem into).mp hin).1.1
  have hvertex := vertexIsFree_update ht hmark
  have howner (w : Nat) : isLive g.vlast (fun x => Function.update g.vto (g.eto e) into x == invalid) w =
      g.vertexIsInGraph w := congrArg (isLive g.vlast · w) hvertex
  have hvertices : liveSlots g.vlast (fun x => Function.update g.vto (g.eto e) into x == invalid) = g.abs.vertices :=
    congrArg _ hvertex
  have hedges : (liveSlots g.elast fun x => Function.update g.eto e invalid x == invalid).image
      (fun x => (x, Function.update g.efrom e g.efree x, Function.update g.eto e invalid x)) =
      ({x ∈ g.abs.edges | x.1 ≠ e} : Finset _) := by
    ext ⟨x, s, t⟩
    rw [Finset.mem_filter, mem_edges, Finset.mem_image]
    constructor
    · rintro ⟨x', hx', heq⟩
      obtain ⟨hx, hne⟩ := (hlive x').mp (mem_liveSlots.mp hx')
      rw [Function.update_of_ne hne, Function.update_of_ne hne] at heq
      obtain ⟨rfl, rfl, rfl⟩ := by simpa only [Prod.mk.injEq] using heq
      exact ⟨⟨hx, rfl, rfl⟩, hne⟩
    · rintro ⟨⟨hx, hxs, hxt⟩, hne⟩
      refine ⟨x, mem_liveSlots.mpr ((hlive x).mpr ⟨hx, hne⟩), ?_⟩
      rw [Function.update_of_ne hne, Function.update_of_ne hne, ← hxs, ← hxt]
  have hcard : g.ecnt - 1 = (liveSlots g.elast fun x => Function.update g.eto e invalid x == invalid).card := by
    have herase : liveSlots g.elast (fun x => Function.update g.eto e invalid x == invalid) =
        (liveSlots g.elast g.edgeIsFree).erase e := by
      ext x
      rw [mem_liveSlots, Finset.mem_erase, mem_liveSlots, hlive, and_comm]
    rw [herase, Finset.card_erase_of_mem (mem_liveSlots.mpr he), ← card_edges, h.ecnt]
  unfold Graph16.deleteEdge
  rw [hout, Option.bind_eq_bind, Option.bind_some, hinto]
  refine ⟨_, rfl, ⟨?_, ?_, fun x hx => ?_, ?_, hpool, ?_, ?_, h.vlast, h.elast⟩, ?_, rfl⟩
  · refine hbout.congr hlive (fun w hw => (howner w).symm.trans hw) (fun _ _ => rfl) (fun x hx => ?_) fun _ _ => rfl
    exact Function.update_of_ne hx.2 _ _
  · refine hbinto.congr hlive (fun w hw => (howner w).symm.trans hw) (fun _ _ => rfl) (fun x hx => ?_) fun _ _ => rfl
    exact Function.update_of_ne hx.2 _ _
  · obtain ⟨hx, hne⟩ := (hlive x).mp hx
    show isLive _ _ (Function.update g.efrom e g.efree x) = true ∧ isLive _ _ (Function.update g.eto e invalid x) = true
    rw [Function.update_of_ne hne, Function.update_of_ne hne]
    exact ⟨(howner _).trans (h.ends x hx).1, (howner _).trans (h.ends x hx).2⟩
  · refine h.freeVertices.congr (fun i _ _ => congrFun hvertex i) fun i hpos hle' hi => Function.update_of_ne ?_ _ _
    rintro rfl
    rw [(isLive_iff.mp hs).2.2] at hi
    exact Bool.false_ne_true hi
  · exact h.vcnt.trans (congrArg Finset.card hvertices.symm)
  · rw [card_edges]
    exact hcard
  · rw [← hvertices, ← hedges]
    rfl

/-- The loop deletes the edges with the end that `first` looks at. -/
theorem deleteEdges {first : Graph16 → Nat} {side : Nat × Nat × Nat → Nat}
    (hnone : ∀ g, g.Stored capacity → g.vertexIsInGraph v = true → first g = 0 → ∀ x ∈ g.abs.edges, side x ≠ v)
    (hsome : ∀ g, g.Stored capacity → g.vertexIsInGraph v = true → first g ≠ 0 →
      ∃ x ∈ g.abs.edges, x.1 = first g ∧ side x = v)
    {fuel : Nat} (hv : g.vertexIsInGraph v = true) (hfuel : g.abs.edges.card < fuel) :
    ∃ g', deleteEdges first fuel g = some g' ∧ g'.Stored capacity ∧
      g'.abs = ⟨g.abs.vertices, {x ∈ g.abs.edges | side x ≠ v}⟩ ∧ g'.elast = g.elast := by
  induction fuel generalizing g with
  | zero => cases hfuel
  | succ fuel ih =>
    rw [Graph16.deleteEdges]
    by_cases h0 : first g = 0
    · rw [if_pos h0]
      refine ⟨g, rfl, h, ?_, rfl⟩
      rw [Finset.filter_true_of_mem (hnone g h hv h0)]
    · rw [if_neg h0]
      obtain ⟨⟨e, s, t⟩, hx, rfl, hside⟩ := hsome g h hv h0
      obtain ⟨g₁, hrun, h₁, habs, hlast⟩ := h.deleteEdge hcap (mem_edges.mp hx).1
      have hv₁ : g₁.vertexIsInGraph v = true := by
        rw [← mem_vertices, habs]
        exact mem_vertices.mpr hv
      have hcard : g₁.abs.edges.card < g.abs.edges.card := by
        rw [habs]
        exact Finset.card_lt_card (Finset.filter_ssubset.mpr ⟨_, hx, fun hne => hne rfl⟩)
      obtain ⟨g', hrun', h', habs', hlast'⟩ := ih h₁ hv₁ (by omega)
      refine ⟨g', ?_, h', ?_, hlast'.trans hlast⟩
      · rw [hrun]
        exact hrun'
      · rw [habs', habs, Multigraph.mk.injEq]
        refine ⟨rfl, ?_⟩
        rw [Finset.filter_filter]
        refine Finset.filter_congr fun y hy => and_iff_right_of_imp fun hne heq => hne ?_
        have hye : y = (first g, s, t) := by
          obtain ⟨-, hs, ht⟩ := mem_edges.mp hx
          obtain ⟨-, hys, hyt⟩ := mem_edges.mp hy
          rw [heq] at hys hyt
          exact Prod.ext heq (Prod.ext (hys.trans hs.symm) (hyt.trans ht.symm))
        rw [hye, hside]

theorem deleteInEdges (hv : g.vertexIsInGraph v = true) :
    ∃ g', Graph16.deleteEdges (fun g => g.vto v) (g.elast + 1) g = some g' ∧ g'.Stored capacity ∧
      g'.abs = ⟨g.abs.vertices, {x ∈ g.abs.edges | x.2.2 ≠ v}⟩ ∧ g'.elast = g.elast := by
  refine h.deleteEdges hcap (fun g h hv h0 x hx => ?_) (fun g h hv h0 => ?_) hv (card_edges_lt g)
  · obtain ⟨hlive, -, ht⟩ := mem_edges.mp hx
    exact ht ▸ h.into.key_ne hv h0 hlive
  · obtain ⟨hlive, hkey⟩ := h.into.head_live hv h0
    exact ⟨(g.vto v, g.efrom (g.vto v), g.eto (g.vto v)), mem_edges.mpr ⟨hlive, rfl, rfl⟩, rfl, hkey⟩

theorem deleteOutEdges (hv : g.vertexIsInGraph v = true) :
    ∃ g', Graph16.deleteEdges (fun g => g.vfrom v) (g.elast + 1) g = some g' ∧ g'.Stored capacity ∧
      g'.abs = ⟨g.abs.vertices, {x ∈ g.abs.edges | x.2.1 ≠ v}⟩ ∧ g'.elast = g.elast := by
  refine h.deleteEdges hcap (fun g h hv h0 x hx => ?_) (fun g h hv h0 => ?_) hv (card_edges_lt g)
  · obtain ⟨hlive, hs, -⟩ := mem_edges.mp hx
    exact hs ▸ h.out.key_ne hv h0 hlive
  · obtain ⟨hlive, hkey⟩ := h.out.head_live hv h0
    exact ⟨(g.vfrom v, g.efrom (g.vfrom v), g.eto (g.vfrom v)), mem_edges.mpr ⟨hlive, rfl, rfl⟩, rfl, hkey⟩

omit hcap

/-- A vertex without edges becomes a free one. -/
theorem releaseVertex (hv : g.vertexIsInGraph v = true) (hno : ∀ x ∈ g.abs.edges, x.2.1 ≠ v ∧ x.2.2 ≠ v)
    (hg' : g' = { g with
      vfrom := Function.update g.vfrom v g.vfree
      vto := Function.update g.vto v invalid
      vfree := v
      vcnt := g.vcnt - 1 }) : g'.Stored capacity ∧ g'.abs = ⟨g.abs.vertices.erase v, g.abs.edges⟩ := by
  obtain ⟨hpool, hlive⟩ : Pool g.vlast v (Function.update g.vfrom v g.vfree)
      (fun x => Function.update g.vto v invalid x == invalid) ∧ _ :=
    h.freeVertices.release hv (by rw [Function.update_self]; rfl) (fun x hx => by rw [Function.update_of_ne hx]; rfl)
  have hvertices : liveSlots g.vlast (fun x => Function.update g.vto v invalid x == invalid) =
      g.abs.vertices.erase v := by
    ext x
    rw [mem_liveSlots, Finset.mem_erase, mem_vertices, hlive, and_comm]
    rfl
  subst hg'
  refine ⟨⟨?_, ?_, fun e he => ?_, hpool, h.freeEdges, ?_, h.ecnt, h.vlast, h.elast⟩, ?_⟩
  · refine h.out.congr (fun _ => Iff.rfl) (fun w hw => ((hlive w).mp hw).1) (fun w hw => ?_) (fun _ _ => rfl)
      fun _ _ => rfl
    exact Function.update_of_ne ((hlive w).mp hw).2 _ _
  · refine h.into.congr (fun _ => Iff.rfl) (fun w hw => ((hlive w).mp hw).1) (fun w hw => ?_) (fun _ _ => rfl)
      fun _ _ => rfl
    exact Function.update_of_ne ((hlive w).mp hw).2 _ _
  · obtain ⟨hs, ht⟩ := hno (e, g.efrom e, g.eto e) (mem_edges.mpr ⟨he, rfl, rfl⟩)
    exact ⟨(hlive _).mpr ⟨(h.ends e he).1, hs⟩, (hlive _).mpr ⟨(h.ends e he).2, ht⟩⟩
  · refine Eq.trans ?_ (congrArg Finset.card hvertices.symm)
    rw [Finset.card_erase_of_mem (mem_vertices.mpr hv), h.vcnt]
  · rw [← hvertices]
    rfl

include hcap

theorem deleteVertex (hv : g.vertexIsInGraph v = true) : ∃ g', g.deleteVertex v = some g' ∧ g'.Stored capacity ∧
    Multigraph.Step capacity g.abs (.deleteVertex v) 0 g'.abs := by
  obtain ⟨g₁, hrun₁, h₁, habs₁, hlast₁⟩ := h.deleteInEdges hcap hv
  have hv₁ : g₁.vertexIsInGraph v = true := by
    rw [← mem_vertices, habs₁]
    exact mem_vertices.mpr hv
  obtain ⟨g₂, hrun₂, h₂, habs₂, -⟩ := h₁.deleteOutEdges hcap hv₁
  have hv₂ : g₂.vertexIsInGraph v = true := by
    rw [← mem_vertices, habs₂]
    exact mem_vertices.mpr hv₁
  have hedges : g₂.abs.edges = g.abs.without v := by
    rw [habs₂, habs₁, Multigraph.without]
    simp only [Finset.filter_filter, and_comm]
  have hno (x : Nat × Nat × Nat) (hx : x ∈ g₂.abs.edges) : x.2.1 ≠ v ∧ x.2.2 ≠ v := by
    rw [hedges] at hx
    exact (Finset.mem_filter.mp hx).2
  obtain ⟨h₃, habs₃⟩ := h₂.releaseVertex hv₂ hno rfl
  unfold Graph16.deleteVertex
  rw [hrun₁, Option.bind_eq_bind, Option.bind_some, hrun₂]
  refine ⟨_, rfl, h₃, ?_⟩
  have hstep : Multigraph.Step capacity g.abs (.deleteVertex v) 0 ⟨g.abs.vertices.erase v, g.abs.without v⟩ :=
    .deleteVertex v
  rw [habs₃, hedges, habs₂, habs₁]
  exact hstep

end Stored

/-! ## Runs -/

theorem stored_eraseGraph (capacity : Nat) (g : Graph16) : g.eraseGraph.Stored capacity ∧ g.eraseGraph.abs = ⟨∅, ∅⟩ := by
  have hnone (isFree : Nat → Bool) (i : Nat) : ¬isLive 0 isFree i = true := fun hi => by
    have := isLive_iff.mp hi
    omega
  have hempty (isFree : Nat → Bool) : liveSlots 0 isFree = ∅ :=
    Finset.eq_empty_of_forall_notMem fun i hi => hnone isFree i (mem_liveSlots.mp hi)
  have habs : g.eraseGraph.abs = ⟨∅, ∅⟩ := by
    have hedges : (liveSlots 0 g.edgeIsFree).image (fun e => (e, g.efrom e, g.eto e)) = ∅ := by
      rw [hempty, Finset.image_empty]
    rw [Multigraph.mk.injEq]
    exact ⟨hempty _, hedges⟩
  refine ⟨⟨fun v hv => absurd hv (hnone _ v), fun v hv => absurd hv (hnone _ v), fun e he => absurd he (hnone _ e),
    .init _ _, .init _ _, ?_, ?_, Nat.zero_le _, Nat.zero_le _⟩, habs⟩
  · rw [habs]
    rfl
  · rw [habs]
    rfl

theorem Stored.perform (h : g.Stored capacity) (hcap : capacity ≤ 0xfffe) (c : Call) (hc : g.Valid c) :
    ∃ r g', g.perform capacity c = some (r, g') ∧ g'.Stored capacity ∧ Multigraph.Step capacity g.abs c r g'.abs := by
  cases c with
  | addVertex => exact ⟨_, _, rfl, h.addVertex⟩
  | addEdge source sink =>
    obtain ⟨h', hadds⟩ := h.addEdge hcap hc.1 hc.2
    exact ⟨_, _, rfl, h', .edge hadds⟩
  | addUniqueEdge source sink => exact h.addUniqueEdge hcap hc.1 hc.2
  | deleteEdge e =>
    obtain ⟨g', hrun, h', habs, -⟩ := h.deleteEdge hcap hc
    refine ⟨0, g', ?_, h', ?_⟩
    · rw [Graph16.perform, hrun]
      rfl
    · rw [habs]
      exact .deleteEdge e
  | deleteVertex v =>
    obtain ⟨g', hrun, h', hstep⟩ := h.deleteVertex hcap hc
    refine ⟨0, g', ?_, h', hstep⟩
    rw [Graph16.perform, hrun]
    rfl
  | eraseGraph =>
    obtain ⟨h', habs⟩ := stored_eraseGraph capacity g
    refine ⟨0, g.eraseGraph, rfl, h', ?_⟩
    rw [habs]
    exact .eraseGraph

theorem Reachable.stored (hcap : capacity ≤ 0xfffe) (hg : Reachable capacity g) : g.Stored capacity := by
  induction hg with
  | construct memory => exact (stored_eraseGraph _ memory).1
  | call hg hc hrun ih =>
    obtain ⟨r, g', hrun', h', -⟩ := ih.perform hcap _ hc
    obtain ⟨-, rfl⟩ := Prod.mk.inj (Option.some.inj (hrun.symm.trans hrun'))
    exact h'

theorem Stored.enumerated (h : g.Stored capacity) : g.Enumerated := by
  have hnone (last : Nat) (isFree : Nat → Bool) (h0 : (liveSlots last isFree).card = 0) (i : Nat) :
      ¬isLive last isFree i = true := fun hi =>
    Finset.notMem_empty i (Finset.card_eq_zero.mp h0 ▸ mem_liveSlots.mpr hi)
  constructor
  · unfold getVertex
    by_cases h0 : g.vcnt = 0
    · rw [if_pos h0]
      exact ⟨[], threads_nil.mpr rfl, fun v => iff_of_false List.not_mem_nil (hnone _ _ (h.vcnt ▸ h0) v)⟩
    · rw [if_neg h0]
      exact skipFree_threads g.vertexIsFree g.vlast
  · unfold getEdge
    by_cases h0 : g.ecnt = 0
    · rw [if_pos h0]
      exact ⟨[], threads_nil.mpr rfl, fun e => iff_of_false List.not_mem_nil
        (hnone _ _ (card_edges g ▸ h.ecnt ▸ h0) e)⟩
    · rw [if_neg h0]
      exact skipFree_threads g.edgeIsFree g.elast

theorem addEdge_zero (h : (g.addEdge capacity source sink).1 = 0) : (g.addEdge capacity source sink).2 = g := by
  unfold addEdge at h ⊢
  by_cases hfull : g.ecnt = capacity
  · rw [if_pos hfull]
  · rw [if_neg hfull] at h
    exact absurd h (alloc_ne_zero g.elast g.efree g.efrom)

theorem addVertex_zero (h : (g.addVertex capacity).1 = 0) : (g.addVertex capacity).2 = g := by
  unfold addVertex at h ⊢
  by_cases hfull : g.vcnt = capacity
  · rw [if_pos hfull]
  · rw [if_neg hfull] at h
    exact absurd h (alloc_ne_zero g.vlast g.vfree g.vfrom)

theorem perform_zero {c : Call} (hc : c.isAdd = true) (h : g.perform capacity c = some (0, g')) : g' = g := by
  cases c with
  | addVertex =>
    have heq : g.addVertex capacity = (0, g') := Option.some.inj h
    have := addVertex_zero (congrArg Prod.fst heq)
    rwa [heq] at this
  | addEdge source sink =>
    have heq : g.addEdge capacity source sink = (0, g') := Option.some.inj h
    have := addEdge_zero (congrArg Prod.fst heq)
    rwa [heq] at this
  | addUniqueEdge source sink =>
    rw [perform, addUniqueEdge, Option.bind_eq_bind, Option.bind_eq_some_iff] at h
    obtain ⟨e, -, h⟩ := h
    split_ifs at h with he
    · exact (congrArg Prod.snd (Option.some.inj h)).symm
    · have := addEdge_zero (congrArg Prod.fst (Option.some.inj h))
      rwa [Option.some.inj h] at this
  | deleteEdge e => exact absurd hc Bool.false_ne_true
  | deleteVertex v => exact absurd hc Bool.false_ne_true
  | eraseGraph => exact absurd hc Bool.false_ne_true

/-- Every graph that calls lead to is stored properly, its loops visit what is in it, and every further call returns and
is a step of the multigraph. -/
theorem graph_refines (hcap : capacity ≤ 0xfffe) (hg : Reachable capacity g) :
    g.Stored capacity ∧ g.Enumerated ∧ ∀ c, g.Valid c → ∃ r g', g.perform capacity c = some (r, g') ∧
      Multigraph.Step capacity g.abs c r g'.abs ∧ (c.isAdd = true → r = 0 → g' = g) := by
  have h := hg.stored hcap
  refine ⟨h, h.enumerated, fun c hc => ?_⟩
  obtain ⟨r, g', hrun, -, hstep⟩ := h.perform hcap c hc
  exact ⟨r, g', hrun, hstep, fun hadd h0 => perform_zero hadd (h0 ▸ hrun)⟩

/-- A loop at vertex 1 and an edge to vertex 2. -/
def loopAndEdge : Graph16 :=
  let memory : Graph16 := ⟨fun _ => 0, fun _ => 0, 0, 0, 0, fun _ => 0, fun _ => 0, fun _ => 0, fun _ => 0, 0, 0, 0⟩
  let g := ((memory.eraseGraph.addVertex 0xfffe).2.addVertex 0xfffe).2
  ((g.addEdge 0xfffe 1 1).2.addEdge 0xfffe 1 2).2

theorem graph_refines_loop : ∃ r g', loopAndEdge.perform 0xfffe (.deleteVertex 1) = some (r, g') ∧
    Multigraph.Step 0xfffe loopAndEdge.abs (.deleteVertex 1) r g'.abs := by
  have hg : Reachable 0xfffe loopAndEdge :=
    (((((Reachable.construct _).call (c := .addVertex) trivial rfl).call (c := .addVertex) trivial rfl).call
      (c := .addEdge 1 1) ⟨rfl, rfl⟩ rfl).call (c := .addEdge 1 2) ⟨rfl, rfl⟩ rfl)
  obtain ⟨r, g', hrun, hstep, -⟩ := (graph_refines (le_refl _) hg).2.2 (.deleteVertex 1) rfl
  exact ⟨r, g', hrun, hstep⟩

end Graph16

end Path64.Graph

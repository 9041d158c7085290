import Path64.Graph.Cached
import Path64.Lib.LongestPath
import Mathlib.Data.Finset.Max

/-!
# Levels of an acyclic graph

* `Acyclic` : no vertex reaches itself again; `Labelled.cnt_eq` : then there are as many components as vertices;
* `Queued` : what holds of the queue and of the levels; `Queued.push` : for one more vertex;
* `Leveling` : what holds in the loop over the queue; `Leveling.turn`, `levelEdges_spec`, `levelLoop_spec`;
* `levels_spec` : the levels of all vertices are found, and they are the lengths of the longest paths.
-/

namespace Path64.Graph

open Lists Relation

variable {capacity : Nat} {level₀ : Nat → Nat}

/-! ## Acyclic graphs -/

namespace Multigraph

variable {m : Multigraph} {cnt u v : Nat} {id : Nat → Nat}

/-- No vertex reaches itself again. -/
def Acyclic (m : Multigraph) : Prop := ∀ v, ¬TransGen m.Edge v v

theorem Acyclic.eq (h : m.Acyclic) (huv : ReflTransGen m.Edge u v) (hvu : ReflTransGen m.Edge v u) : u = v := by
  rcases reflTransGen_iff_eq_or_transGen.mp huv with heq | huv
  · exact heq.symm
  · exact absurd (huv.trans_left hvu) (h u)

namespace Labelled

theorem injOn (h : m.Labelled cnt id) (hm : m.Acyclic) : Set.InjOn id m.vertices := by
  intro u hu v hv hid
  obtain ⟨huv, hvu⟩ := (h.iff u hu v hv).mp hid
  exact hm.eq huv hvu

/-- Every vertex of an acyclic graph is a component. -/
theorem cnt_eq (h : m.Labelled cnt id) (hm : m.Acyclic) : cnt = m.vertices.card := by
  refine Nat.le_antisymm h.cnt_le ?_
  rw [← Finset.card_image_of_injOn (h.injOn hm)]
  have hsub : m.vertices.image id ⊆ Finset.Icc 1 cnt := by
    intro i hi
    obtain ⟨v, hv, rfl⟩ := Finset.mem_image.mp hi
    exact Finset.mem_Icc.mpr (h.range v hv)
  simpa using Finset.card_le_card hsub

theorem exists_first (h : m.Labelled cnt id) (hm : m.Acyclic) {S : Finset Nat} (hsub : S ⊆ m.vertices)
    (hS : S.Nonempty) : ∃ v ∈ S, ∀ u ∈ S, ¬m.Edge u v := by
  -- an edge goes to a smaller number
  obtain ⟨v, hv, hmax⟩ := Finset.exists_max_image S id hS
  refine ⟨v, hv, fun u hu huv => hm v ?_⟩
  have hid : id u = id v := Nat.le_antisymm (hmax u hu) (h.edge u v huv)
  obtain rfl := h.injOn hm (hsub hu) (hsub hv) hid
  exact .single huv

end Labelled

end Multigraph

/-! ## The queue -/

variable {m : Multigraph} {spent tail : List Nat} {q : Scc.Levels} {j v : Nat}

/-- What holds of the queue, of which `spent` is done. -/
structure Queued (m : Multigraph) (level₀ : Nat → Nat) (spent : List Nat) (q : Scc.Levels) : Prop where
  nodup : q.queue.Nodup
  subset : ∀ v ∈ q.queue, v ∈ m.vertices
  longest : ∀ v ∈ q.queue, Longest m.Edge v (q.level v)
  sorted : q.queue.Pairwise fun a b => q.level a ≤ q.level b
  near : ∀ a ∈ q.queue, a ∉ spent → ∀ b ∈ q.queue, q.level b ≤ q.level a + 1
  le_max : ∀ v ∈ q.queue, q.level v ≤ q.maxLevel
  max_eq : q.maxLevel = 0 ∨ ∃ v ∈ q.queue, q.level v = q.maxLevel
  others : ∀ v, v ∉ q.queue → q.level v = level₀ v

theorem Queued.length_le (h : Queued m level₀ spent q) : q.queue.length ≤ m.vertices.card := by
  rw [← List.toFinset_card_of_nodup h.nodup]
  exact Finset.card_le_card fun v hv => h.subset v (List.mem_toFinset.mp hv)

theorem Queued.length_lt (h : Queued m level₀ spent q) (hv : v ∈ m.vertices) (hnew : v ∉ q.queue) :
    q.queue.length < m.vertices.card := by
  rw [← List.toFinset_card_of_nodup h.nodup]
  refine Finset.card_lt_card ((Finset.ssubset_iff_of_subset fun v hv => h.subset v (List.mem_toFinset.mp hv)).mpr ?_)
  exact ⟨v, hv, fun hv' => hnew (List.mem_toFinset.mp hv')⟩

/-- The last predecessor of `v` is `j`. -/
theorem Queued.push (h : Queued m level₀ spent q) (hq : q.queue = spent ++ j :: tail) (hv : v ∈ m.vertices)
    (hnew : v ∉ q.queue) (hjv : m.Edge j v) (hpred : ∀ u, m.Edge u v → u ∈ spent ++ [j]) : Queued m level₀ spent
      ⟨q.queue ++ [v], Function.update q.level v (q.level j + 1), max q.maxLevel (q.level j + 1)⟩ := by
  have hj : j ∈ q.queue := hq ▸ List.mem_append_right _ List.mem_cons_self
  have hnodup := h.nodup
  have hsorted := h.sorted
  rw [hq] at hnodup hsorted
  obtain ⟨-, hbelow, habove⟩ := List.pairwise_append.mp hsorted
  have hjs : j ∉ spent := fun hjs => (List.nodup_append.mp hnodup).2.2 j hjs j List.mem_cons_self rfl
  -- the levels up to `j` and those after it
  have hbefore (u : Nat) (hu : u ∈ spent ++ [j]) : u ∈ q.queue ∧ q.level u ≤ q.level j := by
    rcases List.mem_append.mp hu with hu | hu
    · exact ⟨hq ▸ List.mem_append_left _ hu, habove u hu j List.mem_cons_self⟩
    · rw [List.mem_singleton.mp hu]
      exact ⟨hj, Nat.le_refl _⟩
  have hafter (a : Nat) (ha : a ∈ q.queue) (has : a ∉ spent) : q.level j ≤ q.level a := by
    rw [hq, List.mem_append, List.mem_cons] at ha
    rcases ha with ha | rfl | ha
    · exact absurd ha has
    · exact Nat.le_refl _
    · exact (List.pairwise_cons.mp hbelow).1 a ha
  have hself : Function.update q.level v (q.level j + 1) v = q.level j + 1 := Function.update_self ..
  have hold (u : Nat) (hu : u ∈ q.queue) : Function.update q.level v (q.level j + 1) u = q.level u :=
    Function.update_of_ne (by rintro rfl; exact hnew hu) _ _
  have hmem (u : Nat) : u ∈ q.queue ++ [v] ↔ u ∈ q.queue ∨ u = v := by rw [List.mem_append, List.mem_singleton]
  constructor
  · refine List.nodup_append.mpr ⟨h.nodup, List.nodup_singleton v, fun a ha b hb => ?_⟩
    rintro rfl
    exact hnew (List.mem_singleton.mp hb ▸ ha)
  · intro u hu
    rcases (hmem u).mp hu with hu | rfl
    · exact h.subset u hu
    · exact hv
  · intro u hu
    rcases (hmem u).mp hu with hu | rfl
    · show Longest m.Edge u (Function.update q.level v _ u)
      rw [hold u hu]
      exact h.longest u hu
    · show Longest m.Edge u (Function.update q.level u _ u)
      rw [hself]
      refine longest_succ hjv (h.longest j hj) fun w hw => ?_
      obtain ⟨hwq, hle⟩ := hbefore w (hpred w hw)
      exact ⟨_, hle, h.longest w hwq⟩
  · refine List.pairwise_append.mpr ⟨h.sorted.imp_of_mem fun {a b} ha hb hab => ?_, List.pairwise_singleton _ _,
      fun a ha b hb => ?_⟩
    · show Function.update q.level v _ a ≤ Function.update q.level v _ b
      rwa [hold a ha, hold b hb]
    · show Function.update q.level v _ a ≤ Function.update q.level v _ b
      rw [List.mem_singleton.mp hb, hself, hold a ha]
      exact h.near j hj hjs a ha
  · intro a ha has b hb
    show Function.update q.level v _ b ≤ Function.update q.level v _ a + 1
    rcases (hmem a).mp ha with ha' | rfl <;> rcases (hmem b).mp hb with hb' | rfl
    · rw [hold a ha', hold b hb']
      exact h.near a ha' has b hb'
    · rw [hself, hold a ha']
      exact Nat.succ_le_succ (hafter a ha' has)
    · rw [hself, hold b hb']
      exact (h.near j hj hjs b hb').trans (Nat.le_succ _)
    · exact Nat.le_succ _
  · intro u hu
    show Function.update q.level v _ u ≤ max _ _
    rcases (hmem u).mp hu with hu | rfl
    · rw [hold u hu]
      exact (h.le_max u hu).trans (Nat.le_max_left _ _)
    · rw [hself]
      exact Nat.le_max_right _ _
  · rcases Nat.le_total (q.level j + 1) q.maxLevel with hle | hle
    · refine h.max_eq.imp (fun h0 => by omega) ?_
      rintro ⟨u, hu, hmax⟩
      refine ⟨u, (hmem u).mpr (.inl hu), ?_⟩
      show Function.update q.level v _ u = max _ _
      rw [hold u hu, hmax, Nat.max_eq_left hle]
    · refine .inr ⟨v, (hmem v).mpr (.inr rfl), ?_⟩
      show Function.update q.level v _ v = max _ _
      rw [hself, Nat.max_eq_right hle]
  · intro u hu
    obtain ⟨hu, huv⟩ := not_or.mp ((hmem u).not.mp hu)
    exact (Function.update_of_ne huv _ _).trans (h.others u hu)

/-! ## The loops -/

namespace Scc

variable {g₀ g g' : Graph16} {gone : List Nat} {e vcnt fuel : Nat}

theorem Levels.enqueue_eq {l : Nat} (hlen : q.queue.length < vcnt) (hv : v ≤ vcnt) :
    q.enqueue vcnt v l = some { q with queue := q.queue ++ [v], level := Function.update q.level v l } := by
  unfold Levels.enqueue
  rw [if_pos ⟨hlen, hv⟩]

/-- In the loop over the queue: only edges out of `gone` are deleted, and those out of `spent` are. -/
structure Leveling (capacity : Nat) (g₀ : Graph16) (level₀ : Nat → Nat) (gone spent : List Nat) (g : Graph16)
    (q : Levels) : Prop where
  stored : g.Stored capacity
  vertices : g.abs.vertices = g₀.abs.vertices
  sub : ∀ x ∈ g.abs.edges, x ∈ g₀.abs.edges
  left : ∀ x ∈ g₀.abs.edges, x.2.1 ∉ gone → x ∈ g.abs.edges
  emptied : ∀ x ∈ g.abs.edges, x.2.1 ∉ spent
  queued : Queued g₀.abs level₀ spent q
  ready : ∀ v, v ∈ q.queue ↔ v ∈ g₀.abs.vertices ∧ ∀ u, ¬g.abs.Edge u v

theorem deleteEdge_vfrom (h : g.deleteEdge e = some g') (he : g.vfrom (g.efrom e) = e) :
    g'.vfrom (g.efrom e) = g.nfrom e := by
  unfold Graph16.deleteEdge unlink at h
  rw [if_pos he, Option.bind_eq_bind, Option.bind_some] at h
  obtain ⟨into, -, h⟩ := Option.bind_eq_some_iff.mp h
  rw [← Option.some.inj h]
  exact Function.update_self ..

theorem vto_eq_zero_iff (hg : g.Stored capacity) (hv : g.vertexIsInGraph v = true) :
    g.vto v = 0 ↔ ∀ u, ¬g.abs.Edge u v := by
  constructor
  · rintro h0 u ⟨e, he⟩
    obtain ⟨hlive, -, hsink⟩ := Graph16.mem_edges.mp he
    exact hg.into.key_ne hv h0 hlive hsink.symm
  · intro h
    by_contra h0
    obtain ⟨hlive, hsink⟩ := hg.into.head_live hv h0
    exact h (g.efrom (g.vto v)) ⟨_, Graph16.mem_edges.mpr ⟨hlive, rfl, hsink.symm⟩⟩

/-- One turn of the loop that removes the out edges of `j`. -/
theorem Leveling.turn (hcap : capacity ≤ 0xfffe) (hg₀ : g₀.Stored capacity) (hc : g₀.abs.Compact)
    (h : Leveling capacity g₀ level₀ (spent ++ [j]) spent g q) (hq : q.queue = spent ++ j :: tail)
    (hj : g.vfrom j ≠ 0) : ∃ g' q' tail', g.deleteEdge (g.vfrom j) = some g' ∧ g'.vfrom j = g.nfrom (g.vfrom j) ∧
      g'.abs.edges.card < g.abs.edges.card ∧
      (if g'.vto (g.eto (g.vfrom j)) = 0 then do
        let q ← q.enqueue g₀.vcnt (g.eto (g.vfrom j)) (q.level j + 1)
        some { q with maxLevel := max q.maxLevel (q.level (g.eto (g.vfrom j))) }
      else some q) = some q' ∧
      Leveling capacity g₀ level₀ (spent ++ [j]) spent g' q' ∧ q'.queue = spent ++ j :: tail' := by
  have hjq : j ∈ q.queue := hq ▸ List.mem_append_right _ List.mem_cons_self
  have hjlive : g.vertexIsInGraph j = true := by
    rw [← Graph16.mem_vertices, h.vertices]
    exact ((h.ready j).mp hjq).1
  obtain ⟨hlive, hsource⟩ := h.stored.out.head_live hjlive hj
  obtain ⟨e, he⟩ : ∃ e, e = g.vfrom j := ⟨_, rfl⟩
  rw [← he] at hlive hsource hj ⊢
  obtain ⟨g', hrun, hg', habs, -⟩ := h.stored.deleteEdge hcap hlive
  have hhead := deleteEdge_vfrom hrun (by rw [hsource, he])
  rw [hsource] at hhead
  have hmem : (e, j, g.eto e) ∈ g.abs.edges := Graph16.mem_edges.mpr ⟨hlive, hsource.symm, rfl⟩
  have hcard : g'.abs.edges.card < g.abs.edges.card := by
    rw [habs]
    exact Finset.card_lt_card (Finset.filter_ssubset.mpr ⟨_, hmem, fun hne => hne rfl⟩)
  have hedge (x : Nat × Nat × Nat) : x ∈ g'.abs.edges ↔ x ∈ g.abs.edges ∧ x.1 ≠ e := by
    rw [habs]
    exact Finset.mem_filter
  -- of the in edges, only one to the sink of `e` is deleted
  have hother (u v : Nat) (hv : v ≠ g.eto e) : g'.abs.Edge u v ↔ g.abs.Edge u v := by
    constructor
    · rintro ⟨x, hx⟩
      exact ⟨x, ((hedge _).mp hx).1⟩
    · rintro ⟨x, hx⟩
      refine ⟨x, (hedge _).mpr ⟨hx, ?_⟩⟩
      rintro rfl
      exact hv (Graph16.mem_edges.mp hx).2.2
  have hsink : g.vertexIsInGraph (g.eto e) = true := (h.stored.ends e hlive).2
  have hsinkv : g.eto e ∈ g₀.abs.vertices := h.vertices ▸ Graph16.mem_vertices.mpr hsink
  have hnew : g.eto e ∉ q.queue := fun hq' => ((h.ready _).mp hq').2 j ⟨e, hmem⟩
  have hsub (x : Nat × Nat × Nat) (hx : x ∈ g'.abs.edges) : x ∈ g₀.abs.edges := h.sub x ((hedge x).mp hx).1
  have hleft (x : Nat × Nat × Nat) (hx : x ∈ g₀.abs.edges) (hgone : x.2.1 ∉ spent ++ [j]) : x ∈ g'.abs.edges := by
    have hxg := h.left x hx hgone
    refine (hedge x).mpr ⟨hxg, ?_⟩
    rintro rfl
    have hxj : x.2.1 = j := (Graph16.mem_edges.mp hxg).2.1.trans hsource
    exact hgone (List.mem_append_right _ (List.mem_singleton.mpr hxj))
  have hspent (x : Nat × Nat × Nat) (hx : x ∈ g'.abs.edges) : x.2.1 ∉ spent := h.emptied x ((hedge x).mp hx).1
  have hvertices : g'.abs.vertices = g₀.abs.vertices := by rw [habs, h.vertices]
  have hzero : g'.vto (g.eto e) = 0 ↔ ∀ u, ¬g'.abs.Edge u (g.eto e) :=
    vto_eq_zero_iff hg' (by rw [← Graph16.mem_vertices, hvertices]; exact hsinkv)
  by_cases h0 : g'.vto (g.eto e) = 0
  · have hlen := h.queued.length_lt hsinkv hnew
    rw [← hg₀.vcnt] at hlen
    have hle : g.eto e ≤ g₀.vcnt := by
      rw [hg₀.vcnt]
      exact ((hc _).mp hsinkv).2
    have hjv : g₀.abs.Edge j (g.eto e) := ⟨e, h.sub _ hmem⟩
    have hpred (u : Nat) (hu : g₀.abs.Edge u (g.eto e)) : u ∈ spent ++ [j] := by
      obtain ⟨x, hx⟩ := hu
      by_contra hgone
      exact hzero.mp h0 u ⟨x, hleft _ hx hgone⟩
    refine ⟨g', _, tail ++ [g.eto e], hrun, hhead, hcard, ?_, ⟨hg', hvertices, hsub, hleft, hspent,
      h.queued.push hq hsinkv hnew hjv hpred, fun v => ?_⟩, ?_⟩
    · rw [if_pos h0, Levels.enqueue_eq hlen hle, Option.bind_eq_bind, Option.bind_some]
      simp only [Function.update_self]
    · rw [List.mem_append, List.mem_singleton, h.ready v]
      by_cases hv : v = g.eto e
      · rw [hv]
        exact iff_of_true (.inr rfl) ⟨hsinkv, hzero.mp h0⟩
      · simp only [or_iff_left hv, hother _ v hv]
    · rw [hq, List.append_assoc, List.cons_append]
  · refine ⟨g', q, tail, hrun, hhead, hcard, if_neg h0, ⟨hg', hvertices, hsub, hleft, hspent, h.queued, fun v => ?_⟩, hq⟩
    by_cases hv : v = g.eto e
    · rw [hv]
      exact iff_of_false hnew fun h' => h0 (hzero.mpr h'.2)
    · simp only [h.ready v, hother _ v hv]

/-- The out edges of `j` are removed. -/
theorem levelEdges_spec (hcap : capacity ≤ 0xfffe) (hg₀ : g₀.Stored capacity) (hc : g₀.abs.Compact)
    (h : Leveling capacity g₀ level₀ (spent ++ [j]) spent g q) (hq : q.queue = spent ++ j :: tail)
    (hfuel : g.abs.edges.card < fuel) : ∃ g' q' tail', levelEdges g₀.vcnt j fuel (g.vfrom j) g q = some (g', q') ∧
      Leveling capacity g₀ level₀ (spent ++ [j]) (spent ++ [j]) g' q' ∧ q'.queue = spent ++ j :: tail' := by
  induction fuel generalizing g q tail with
  | zero => omega
  | succ fuel ih =>
    by_cases h0 : g.vfrom j = 0
    · have hjlive : g.vertexIsInGraph j = true := by
        rw [← Graph16.mem_vertices, h.vertices]
        exact ((h.ready j).mp (hq ▸ List.mem_append_right _ List.mem_cons_self)).1
      refine ⟨g, q, tail, by rw [levelEdges, if_pos h0], { h with emptied := fun x hx hmem => ?_, queued := ?_ }, hq⟩
      · rcases List.mem_append.mp hmem with hmem | hmem
        · exact h.emptied x hx hmem
        · obtain ⟨hlive, hsource, -⟩ := Graph16.mem_edges.mp hx
          exact h.stored.out.key_ne hjlive h0 hlive (hsource.symm.trans (List.mem_singleton.mp hmem))
      · exact { h.queued with
          near := fun a ha has => h.queued.near a ha fun hs => has (List.mem_append_left _ hs) }
    · obtain ⟨g₁, q₁, tail₁, hrun, hhead, hcard, hqueue, h₁, hq₁⟩ := h.turn hcap hg₀ hc hq h0
      obtain ⟨g', q', tail', hrun', h', hq'⟩ := ih h₁ hq₁ (by omega)
      refine ⟨g', q', tail', ?_, h', hq'⟩
      rw [hhead] at hrun'
      rw [levelEdges, if_neg h0, hrun, Option.bind_eq_bind, Option.bind_some]
      split_ifs at hqueue ⊢ with hz
      · obtain ⟨q₂, hq₂, hmax⟩ := Option.bind_eq_some_iff.mp hqueue
        rw [← Option.some.inj hmax] at hrun'
        rw [hq₂]
        exact hrun'
      · rwa [Option.some.inj hqueue]

/-- The loop goes on to the end of the queue. -/
theorem levelLoop_spec (fuel : Nat) (hcap : capacity ≤ 0xfffe) (hg₀ : g₀.Stored capacity) (hc : g₀.abs.Compact)
    (h : Leveling capacity g₀ level₀ spent spent g q) (hq : q.queue = spent ++ tail)
    (hfuel : g₀.vcnt < fuel + spent.length) : ∃ g' q', levelLoop g₀.vcnt fuel spent.length g q = some q' ∧
      Leveling capacity g₀ level₀ q'.queue q'.queue g' q' := by
  have hlen := h.queued.length_le
  rw [hq, List.length_append, ← hg₀.vcnt] at hlen
  induction fuel generalizing g q spent tail with
  | zero => omega
  | succ fuel ih =>
    rw [levelLoop, hq, List.getElem?_append_right (Nat.le_refl _), Nat.sub_self]
    cases tail with
    | nil =>
      rw [List.append_nil] at hq
      exact ⟨g, q, rfl, hq.symm ▸ h⟩
    | cons j tail =>
      have hgone : Leveling capacity g₀ level₀ (spent ++ [j]) spent g q :=
        { h with left := fun x hx hx' => h.left x hx fun hs => hx' (List.mem_append_left _ hs) }
      obtain ⟨g₁, q₁, tail₁, hrun, h₁, hq₁⟩ := levelEdges_spec hcap hg₀ hc hgone hq (Graph16.card_edges_lt g)
      rw [← List.singleton_append, ← List.append_assoc] at hq₁
      have hlen₁ := h₁.queued.length_le
      rw [hq₁, List.length_append, ← hg₀.vcnt] at hlen₁
      have hnext : (spent ++ [j]).length = spent.length + 1 := by rw [List.length_append, List.length_singleton]
      obtain ⟨g', q', hrun', h'⟩ := ih h₁ hq₁ (by omega) hlen₁
      rw [hnext] at hrun'
      refine ⟨g', q', ?_, h'⟩
      show (levelEdges g₀.vcnt j (g.elast + 1) (g.vfrom j) g q >>= fun r => levelLoop g₀.vcnt fuel (spent.length + 1)
        r.1 r.2) = some q'
      rw [hrun]
      exact hrun'

/-! ## The roots -/

variable {s s' : Scc}

/-- The vertices of a list that have no predecessors are put into the queue with the level 0. -/
theorem levelRoots_spec (hg : s.graph.Stored capacity) (hc : s.graph.abs.Compact)
    (hloop : ∀ v, ¬s.graph.abs.Edge v v) {is : List Nat} (his : ∀ i ∈ is, s.graph.vertexIsInGraph i = true)
    (hlen : q.queue.length + is.length ≤ s.graph.vcnt) : s.levelRoots is q = some { q with
      queue := q.queue ++ is.filter fun i => s.graph.vto i == 0
      level := fun v => if v ∈ is.filter fun i => s.graph.vto i == 0 then 0 else q.level v } := by
  induction is generalizing q with
  | nil =>
    simp only [levelRoots, List.filter_nil, List.append_nil, List.not_mem_nil, if_false]
  | cons i is ih =>
    obtain ⟨hi, his⟩ := List.forall_mem_cons.mp his
    rw [List.length_cons] at hlen
    rw [levelRoots]
    by_cases h0 : s.graph.vto i = 0
    · have hle : i ≤ s.graph.vcnt := by
        rw [hg.vcnt]
        exact ((hc i).mp (Graph16.mem_vertices.mpr hi)).2
      have hfirst : (i :: is).filter (fun i => s.graph.vto i == 0) = i :: is.filter fun i => s.graph.vto i == 0 :=
        List.filter_cons_of_pos (beq_iff_eq.mpr h0)
      rw [if_pos h0, Levels.enqueue_eq (by omega) hle, Option.bind_eq_bind, Option.bind_some,
        ih his (by rw [List.length_append, List.length_singleton]; omega), hfirst, ← ite_update,
        List.append_assoc, List.singleton_append]
    · obtain ⟨e, he, hedge, -⟩ := hg.getEdgeBetween hi i
      have hnone : e = 0 := by
        by_contra hne
        exact hloop i ⟨e, hedge hne⟩
      have hrest : (i :: is).filter (fun i => s.graph.vto i == 0) = is.filter fun i => s.graph.vto i == 0 :=
        List.filter_cons_of_neg fun h => h0 (beq_iff_eq.mp h)
      rw [if_neg h0, he, hnone, hrest]
      exact ih his (by omega)

theorem leveling_start (level₀ : Nat → Nat) (hg : g.Stored capacity) {is : List Nat} (hnodup : is.Nodup)
    (his : ∀ i, i ∈ is ↔ g.vertexIsInGraph i = true) : Leveling capacity g level₀ [] [] g
      ⟨is.filter fun i => g.vto i == 0, fun v => if v ∈ is.filter fun i => g.vto i == 0 then 0 else level₀ v, 0⟩ := by
  have hmem (v : Nat) : v ∈ is.filter (fun i => g.vto i == 0) ↔ v ∈ g.abs.vertices ∧ ∀ u, ¬g.abs.Edge u v := by
    rw [List.mem_filter, beq_iff_eq, his, Graph16.mem_vertices]
    exact and_congr_right fun hv => vto_eq_zero_iff hg hv
  refine ⟨hg, rfl, fun _ h => h, fun _ h _ => h, fun _ _ => List.not_mem_nil, ?_, hmem⟩
  constructor
  · exact hnodup.filter _
  · exact fun v hv => ((hmem v).mp hv).1
  · intro v hv
    show Longest _ v (ite _ _ _)
    rw [if_pos hv]
    exact longest_zero ((hmem v).mp hv).2
  · refine List.pairwise_of_forall_mem_list fun a ha b hb => ?_
    show ite _ _ _ ≤ ite _ _ _
    rw [if_pos ha, if_pos hb]
  · intro a ha _ b hb
    show ite _ _ _ ≤ ite _ _ _ + 1
    rw [if_pos ha, if_pos hb]
    exact Nat.zero_le _
  · intro v hv
    show ite _ _ _ ≤ 0
    rw [if_pos hv]
  · exact .inl rfl
  · exact fun v hv => if_neg hv

/-! ## The whole -/

theorem Leveling.all_queued {cnt : Nat} {id : Nat → Nat} (h : Leveling capacity g₀ level₀ q.queue q.queue g q)
    (hlabel : g₀.abs.Labelled cnt id) (hm : g₀.abs.Acyclic) (hv : v ∈ g₀.abs.vertices) : v ∈ q.queue := by
  by_contra hout
  obtain ⟨v, hv, hfirst⟩ := hlabel.exists_first hm (Finset.filter_subset (fun v => v ∉ q.queue) _)
    ⟨v, Finset.mem_filter.mpr ⟨hv, hout⟩⟩
  obtain ⟨hv, hout⟩ := Finset.mem_filter.mp hv
  refine hout ((h.ready v).mpr ⟨hv, fun u ⟨e, he⟩ => ?_⟩)
  have hu : u ∈ g₀.abs.vertices := by
    obtain ⟨hlive, hsource, -⟩ := Graph16.mem_edges.mp he
    rw [← h.vertices, show u = _ from hsource]
    exact Graph16.mem_vertices.mpr (h.stored.ends e hlive).1
  exact hfirst u (Finset.mem_filter.mpr ⟨hu, h.emptied _ he⟩) ⟨e, h.sub _ he⟩

/-- The queue of an acyclic graph whose vertices are those up to their number. -/
theorem levels_spec (hcap : capacity ≤ 0xfffe) (h : s.Kept capacity) (hc : s.graph.abs.Compact) (hcur : s.Current)
    (hm : s.graph.abs.Acyclic) (level₀ : Nat → Nat) : ∃ q, s.levels level₀ = some q ∧
      Queued s.graph.abs level₀ q.queue q ∧ ∀ v, v ∈ q.queue ↔ s.graph.vertexIsInGraph v = true := by
  obtain ⟨s', hrun, hgraph, -, hlabel, -⟩ := h.findScc hcap hc
  have hcnt := (hlabel hcur).cnt_eq hm
  rw [← h.stored.vcnt] at hcnt
  have hlive (v : Nat) : v ∈ List.range' 1 s.graph.vcnt ↔ s.graph.vertexIsInGraph v = true := by
    rw [← Graph16.mem_vertices, hc v, ← h.stored.vcnt, List.mem_range'_1]
    omega
  have hroots := levelRoots_spec (q := ⟨[], level₀, 0⟩) h.stored hc (fun v hv => hm v (.single hv))
    (fun i hi => (hlive i).mp hi) (by rw [List.length_nil, List.length_range']; omega)
  obtain ⟨g', q, hloop, hq⟩ := levelLoop_spec (s.graph.vcnt + 1) hcap h.stored hc
    (leveling_start level₀ h.stored (List.nodup_range' ..) hlive) (List.nil_append _).symm
    (by rw [List.length_nil]; omega)
  refine ⟨q, ?_, hq.queued, fun v => ⟨fun hv => Graph16.mem_vertices.mp (hq.queued.subset v hv), fun hv => ?_⟩⟩
  · unfold levels
    rw [hrun, Option.bind_eq_bind, Option.bind_some, if_pos hcnt, hroots, Option.bind_eq_bind, Option.bind_some]
    exact hloop
  · exact hq.all_queued (hlabel hcur) hm (Graph16.mem_vertices.mpr hv)

end Scc

end Path64.Graph

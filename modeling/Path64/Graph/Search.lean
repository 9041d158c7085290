import Path64.Graph.Scc
import Path64.Graph.Refines
import Path64.Lib.Components

/-!
# The depth-first search finds the components

* `Work.env` : the work arrays as a state of the search; `Work.Right` : the invariant between two steps;
* `Scanning` : what holds in the loop over the out edges of a vertex; `Scanning.child`, `Scanning.old` : its turns;
* `Visits` : what the visit of a vertex does; `visits_of_scanned` : how it ends;
* `sccDfs_spec` : the search from a vertex returns and does this;
* `search_spec` : the search of a graph whose vertices are `1`, …, `n` visits each of them and finds the components.
-/

namespace Path64.Graph

open Lists Components Relation

variable {g : Graph16} {gray gray' : Nat → Prop} {n e j x : Nat} {l : List Nat} {w w' : Work}

/-- There is an edge from `a` to `b`. -/
def Graph16.Edge (g : Graph16) (a b : Nat) : Prop := ∃ e, g.edgeIsInGraph e = true ∧ g.efrom e = a ∧ g.eto e = b

namespace Multigraph

def Edge (m : Multigraph) (a b : Nat) : Prop := ∃ e, (e, a, b) ∈ m.edges

/-- Numbers `1`, …, `cnt` of the components; an edge between two components goes to the smaller number. -/
structure Labelled (m : Multigraph) (cnt : Nat) (id : Nat → Nat) : Prop where
  range : ∀ v ∈ m.vertices, 0 < id v ∧ id v ≤ cnt
  used : ∀ i, 0 < i → i ≤ cnt → ∃ v ∈ m.vertices, id v = i
  iff : ∀ u ∈ m.vertices, ∀ v ∈ m.vertices, id u = id v ↔ ReflTransGen m.Edge u v ∧ ReflTransGen m.Edge v u
  edge : ∀ u v, m.Edge u v → id v ≤ id u

theorem Labelled.cnt_le {m : Multigraph} {cnt : Nat} {id : Nat → Nat} (h : m.Labelled cnt id) :
    cnt ≤ m.vertices.card := by
  have hsub : Finset.Icc 1 cnt ⊆ m.vertices.image id := by
    intro i hi
    obtain ⟨h1, h2⟩ := Finset.mem_Icc.mp hi
    obtain ⟨v, hv, hvi⟩ := h.used i h1 h2
    exact Finset.mem_image.mpr ⟨v, hv, hvi⟩
  have := (Finset.card_le_card hsub).trans Finset.card_image_le
  rwa [Nat.card_Icc, Nat.add_sub_cancel] at this

end Multigraph

theorem Graph16.edge_abs (g : Graph16) : g.abs.Edge = g.Edge := by
  funext a b
  refine propext ⟨?_, ?_⟩
  · rintro ⟨e, he⟩
    obtain ⟨hlive, ha, hb⟩ := Graph16.mem_edges.mp he
    exact ⟨e, hlive, ha.symm, hb.symm⟩
  · rintro ⟨e, hlive, rfl, rfl⟩
    exact ⟨e, Graph16.mem_edges.mpr ⟨hlive, rfl, rfl⟩⟩

namespace Work

def env (w : Work) : Env Nat := ⟨fun v => w.visited v = true, w.stack, w.dfn, w.sccId, w.dfCount, w.sccCnt⟩

/-- The invariant between two steps. -/
structure Right (g : Graph16) (gray : Nat → Prop) (w : Work) : Prop where
  env : w.env.Valid g.Edge gray
  inStack : ∀ v, w.inStack v = true ↔ v ∈ w.stack
  live : ∀ v, w.visited v = true → g.vertexIsInGraph v = true

theorem right_start (g : Graph16) (sccId : Nat → Nat) : (start sccId).Right g fun _ => False where
  env := Env.Valid.init _ (fun _ => Bool.false_ne_true) rfl rfl
  inStack _ := iff_of_false Bool.false_ne_true List.not_mem_nil
  live _ h := absurd h Bool.false_ne_true

/-- The vertices that were not visited. -/
def unvisited (g : Graph16) (w : Work) : Nat := {v ∈ g.abs.vertices | w.visited v = false}.card

theorem enter_env (w : Work) (n : Nat) : (w.enter n).env = w.env.push n := by
  have hvisited : (fun v => Function.update w.visited n true v = true) = fun v => w.visited v = true ∨ v = n := by
    funext v
    by_cases hv : v = n
    · rw [hv, Function.update_self]
      exact propext (iff_of_true rfl (.inr rfl))
    · rw [Function.update_of_ne hv]
      exact propext (or_iff_left hv).symm
  unfold env enter Env.push
  rw [Env.mk.injEq]
  exact ⟨hvisited, rfl, rfl, rfl, rfl, rfl⟩

theorem lower_env (w : Work) (n x : Nat) : (w.lower n x).env = w.env := by
  unfold lower
  split_ifs <;> rfl

theorem lower_inStack (w : Work) (n x : Nat) : (w.lower n x).inStack = w.inStack := by
  unfold lower
  split_ifs <;> rfl

theorem lower_link_self (w : Work) (n x : Nat) : (w.lower n x).link n = min (w.link n) x := by
  unfold lower
  split_ifs with h
  · show Function.update w.link n x n = _
    rw [Function.update_self]
    omega
  · omega

theorem lower_link_of_ne (w : Work) (x : Nat) {v : Nat} (h : v ≠ n) : (w.lower n x).link v = w.link v := by
  unfold lower
  split_ifs
  · exact Function.update_of_ne h _ _
  · rfl

theorem lower_self (w : Work) (n : Nat) : w.lower n (w.link n) = w := by
  unfold lower
  rw [if_neg (Nat.lt_irrefl _)]

theorem lower_stack (w : Work) (n x : Nat) : (w.lower n x).stack = w.stack := congrArg Env.stack (lower_env w n x)

theorem lower_dfn (w : Work) (n x : Nat) : (w.lower n x).dfn = w.dfn := congrArg Env.num (lower_env w n x)

theorem lower_visited (w : Work) (n x : Nat) : (w.lower n x).visited = w.visited := by
  unfold lower
  split_ifs <;> rfl

theorem Right.lower (h : w.Right g gray) (n x : Nat) : (w.lower n x).Right g gray where
  env := by
    rw [lower_env]
    exact h.env
  inStack v := by
    rw [lower_inStack, lower_stack]
    exact h.inStack v
  live v hv := h.live v (by rwa [lower_visited] at hv)

theorem Right.enter (h : w.Right g gray) (hnew : w.visited n = false) (hlive : g.vertexIsInGraph n = true)
    (hn : ∀ v, gray v → ReflTransGen g.Edge v n) : (w.enter n).Right g fun v => gray v ∨ v = n where
  env := by
    rw [enter_env]
    exact h.env.push (Bool.eq_false_iff.mp hnew) hn
  inStack v := by
    show Function.update w.inStack n true v = true ↔ v ∈ n :: w.stack
    rw [List.mem_cons]
    by_cases hv : v = n
    · rw [hv, Function.update_self]
      exact iff_of_true rfl (.inl rfl)
    · rw [Function.update_of_ne hv, or_iff_right hv]
      exact h.inStack v
  live v hv := by
    by_cases hvn : v = n
    · rw [hvn]
      exact hlive
    · exact h.live v ((Function.update_of_ne hvn _ _).symm.trans hv)

theorem unvisited_subset (h : ∀ v, w.visited v = true → w'.visited v = true) :
    {v ∈ g.abs.vertices | w'.visited v = false} ⊆ {v ∈ g.abs.vertices | w.visited v = false} := by
  intro v hv
  obtain ⟨hmem, hv⟩ := Finset.mem_filter.mp hv
  refine Finset.mem_filter.mpr ⟨hmem, Bool.eq_false_iff.mpr fun h' => ?_⟩
  rw [h v h'] at hv
  exact absurd hv.symm Bool.false_ne_true

theorem visited_enter (w : Work) (n : Nat) {v : Nat} (h : w.visited v = true) : (w.enter n).visited v = true := by
  show Function.update w.visited n true v = true
  by_cases hv : v = n
  · rw [hv, Function.update_self]
  · rwa [Function.update_of_ne hv]

theorem unvisited_enter (hnew : w.visited n = false) (hlive : g.vertexIsInGraph n = true) :
    (w.enter n).unvisited g < w.unvisited g := by
  refine Finset.card_lt_card ((Finset.ssubset_iff_of_subset (unvisited_subset fun v => w.visited_enter n)).mpr ?_)
  refine ⟨n, Finset.mem_filter.mpr ⟨Graph16.mem_vertices.mpr hlive, hnew⟩, fun hn => ?_⟩
  have hself : (w.enter n).visited n = true := Function.update_self ..
  exact absurd (hself.symm.trans (Finset.mem_filter.mp hn).2) (by decide)

end Work

/-! ## The loop over the edges -/

/-- What the visit of `n` that began in `w` does. -/
structure Visits (g : Graph16) (n : Nat) (w w' : Work) : Prop where
  grows : ∃ s, Grows w.env w'.env s ∧ ∀ x ∈ s, ∀ y ∈ w.stack, g.Edge x y → w'.link n ≤ w.dfn y
  self : w'.visited n = true
  link : ∀ v, w.visited v = true → w'.link v = w.link v
  later : w.dfCount ≤ w'.dfn n
  low : w'.link n ≤ w'.dfn n
  attained : ∃ y, (y = n ∨ y ∈ w'.stack) ∧ w'.dfn y = w'.link n ∧ ReflTransGen g.Edge n y

/-- In the loop over the out edges of `n`, whose visit began in `w₀`; the edges `l` are left. -/
structure Scanning (g : Graph16) (n : Nat) (w₀ : Work) (l : List Nat) (w : Work) : Prop where
  grows : ∃ s, Grows (w₀.enter n).env w.env s ∧ ∀ x ∈ s, ∀ y ∈ w₀.stack, g.Edge x y → w.link n ≤ w₀.dfn y
  link : ∀ v, w₀.visited v = true → w.link v = w₀.link v
  low : w.link n ≤ w.dfn n
  attained : ∃ y ∈ w.stack, w.dfn y = w.link n ∧ ReflTransGen g.Edge n y
  scanned : ∀ e, g.edgeIsInGraph e = true → g.efrom e = n → e ∉ l →
    w.visited (g.eto e) = true ∧ (g.eto e ∈ w₀.stack → w.link n ≤ w₀.dfn (g.eto e))

variable {w₀ : Work}

theorem scanning_enter (hl : ∀ e, g.edgeIsInGraph e = true → g.efrom e = n → e ∈ l)
    (hnew : w₀.visited n = false) : Scanning g n w₀ l (w₀.enter n) where
  grows := ⟨[], Grows.refl _, fun _ h => absurd h List.not_mem_nil⟩
  link v hv := Function.update_of_ne (by rintro rfl; exact absurd (hv.symm.trans hnew) (by decide)) _ _
  low := by
    show Function.update w₀.link n w₀.dfCount n ≤ Function.update w₀.dfn n w₀.dfCount n
    rw [Function.update_self, Function.update_self]
  attained := by
    refine ⟨n, List.mem_cons_self, ?_, .refl⟩
    show Function.update w₀.dfn n w₀.dfCount n = Function.update w₀.link n w₀.dfCount n
    rw [Function.update_self, Function.update_self]
  scanned e he hen hel := absurd (hl e he hen) hel

namespace Scanning

theorem self (h : Scanning g n w₀ l w) : w.visited n = true := by
  obtain ⟨s, hs, -⟩ := h.grows
  exact hs.visited n (show Function.update w₀.visited n true n = true from Function.update_self ..)

theorem dfn (h : Scanning g n w₀ l w) (hnew : w₀.visited n = false) {v : Nat} (hv : w₀.visited v = true) :
    w.dfn v = w₀.dfn v := by
  obtain ⟨s, hs, -⟩ := h.grows
  refine (hs.num v (w₀.visited_enter n hv)).trans (Function.update_of_ne ?_ _ _)
  rintro rfl
  exact absurd (hv.symm.trans hnew) (by decide)

theorem stack_subset (h : Scanning g n w₀ l w) {v : Nat} (hv : v ∈ w₀.stack) : v ∈ w.stack := by
  obtain ⟨s, hs, -⟩ := h.grows
  rw [show w.stack = s ++ n :: w₀.stack from hs.stack]
  exact List.mem_append_right _ (List.mem_cons_of_mem _ hv)

theorem dfn_lt (h : Scanning g n w₀ l w) (hw : w.Right g gray) {v : Nat} (hv : v ∈ w₀.stack) : w.dfn v < w.dfn n := by
  obtain ⟨s, hs, -⟩ := h.grows
  have hsorted := hw.env.sorted
  rw [show w.env.stack = s ++ n :: w₀.stack from hs.stack] at hsorted
  exact (List.pairwise_cons.mp (List.pairwise_append.mp hsorted).2.1).1 v hv

/-- The next edge is done, and the low link of `n` may become `x`. -/
theorem lower (h : Scanning g n w₀ (e :: l) w) (hnew : w₀.visited n = false)
    (hx : x < w.link n → ∃ y ∈ w.stack, w.dfn y = x ∧ ReflTransGen g.Edge n y)
    (hvisited : w.visited (g.eto e) = true) (hbound : g.eto e ∈ w₀.stack → min (w.link n) x ≤ w₀.dfn (g.eto e)) :
    Scanning g n w₀ l (w.lower n x) where
  grows := by
    obtain ⟨s, hs, hedges⟩ := h.grows
    rw [Work.lower_env, Work.lower_link_self]
    exact ⟨s, hs, fun v hv y hy hvy => (Nat.min_le_left _ _).trans (hedges v hv y hy hvy)⟩
  link v hv := by
    rw [Work.lower_link_of_ne _ _ (by rintro rfl; exact absurd (hv.symm.trans hnew) (by decide))]
    exact h.link v hv
  low := by
    rw [Work.lower_link_self, Work.lower_dfn]
    exact (Nat.min_le_left _ _).trans h.low
  attained := by
    rw [Work.lower_link_self, Work.lower_dfn, Work.lower_stack]
    rcases Nat.lt_or_ge x (w.link n) with hlt | hge
    · rw [Nat.min_eq_right (Nat.le_of_lt hlt)]
      exact hx hlt
    · rw [Nat.min_eq_left hge]
      exact h.attained
  scanned e' he' hen' hel := by
    rw [Work.lower_link_self, Work.lower_visited]
    by_cases hee : e' = e
    · rw [hee]
      exact ⟨hvisited, hbound⟩
    · obtain ⟨hvis, hle⟩ := h.scanned e' he' hen' (by rw [List.mem_cons]; exact not_or.mpr ⟨hee, hel⟩)
      exact ⟨hvis, fun hmem => (Nat.min_le_left _ _).trans (hle hmem)⟩

/-- The next edge leads to a vertex that was visited before. -/
theorem old (h : Scanning g n w₀ (e :: l) w) (hw : w.Right g gray) (hw₀ : w₀.env.Valid g.Edge gray')
    (hnew : w₀.visited n = false) (he : g.edgeIsInGraph e = true) (hen : g.efrom e = n)
    (hold : w.visited (g.eto e) = true) : Scanning g n w₀ l
      (if w.dfn (g.eto e) < w.dfn n ∧ w.inStack (g.eto e) = true then w.lower n (w.dfn (g.eto e)) else w) := by
  have hdfn (hmem : g.eto e ∈ w₀.stack) : w.dfn (g.eto e) = w₀.dfn (g.eto e) := h.dfn hnew (hw₀.stack_visited _ hmem)
  split_ifs with hc
  · refine h.lower hnew (fun _ => ?_) hold fun hmem => ?_
    · exact ⟨g.eto e, (hw.inStack _).mp hc.2, rfl, .single ⟨e, he, hen, rfl⟩⟩
    · exact (Nat.min_le_right _ _).trans (Nat.le_of_eq (hdfn hmem))
  · rw [← w.lower_self n]
    refine h.lower hnew (fun hlt => absurd hlt (Nat.lt_irrefl _)) hold fun hmem => absurd ⟨?_, ?_⟩ hc
    · exact h.dfn_lt hw hmem
    · exact (hw.inStack _).mpr (h.stack_subset hmem)

/-- The next edge leads to a vertex that is visited now. -/
theorem child (h : Scanning g n w₀ (e :: l) w) (hw : w.Right g gray) (hw₀ : w₀.env.Valid g.Edge gray')
    (hnew : w₀.visited n = false) (he : g.edgeIsInGraph e = true) (hen : g.efrom e = n)
    (hchild : w.visited (g.eto e) = false) (hv : Visits g (g.eto e) w w') :
    Scanning g n w₀ l (w'.lower n (w'.link (g.eto e))) := by
  obtain ⟨s, hs, hedges⟩ := h.grows
  obtain ⟨s', hs', hedges'⟩ := hv.grows
  have hn : w'.link n = w.link n := hv.link n h.self
  have hdfn (v : Nat) (hv' : w.visited v = true) : w'.dfn v = w.dfn v := hs'.num v hv'
  have hmono (v : Nat) (hv' : w.visited v = true) : w'.visited v = true := hs'.visited v hv'
  have hvis₀ (v : Nat) (hv' : w₀.visited v = true) : w.visited v = true := hs.visited v (w₀.visited_enter n hv')
  constructor
  · rw [Work.lower_env, Work.lower_link_self, hn]
    refine ⟨s' ++ s, hs.trans hs', fun v hv' y hy hvy => ?_⟩
    rcases List.mem_append.mp hv' with hv' | hv'
    · have := hedges' v hv' y (h.stack_subset hy) hvy
      rw [h.dfn hnew (hw₀.stack_visited y hy)] at this
      exact (Nat.min_le_right _ _).trans this
    · exact (Nat.min_le_left _ _).trans (hedges v hv' y hy hvy)
  · intro v hv'
    rw [Work.lower_link_of_ne _ _ (by rintro rfl; exact absurd (hv'.symm.trans hnew) (by decide))]
    exact (hv.link v (hvis₀ v hv')).trans (h.link v hv')
  · rw [Work.lower_link_self, Work.lower_dfn, hn, hdfn n h.self]
    exact (Nat.min_le_left _ _).trans h.low
  · rw [Work.lower_link_self, Work.lower_dfn, Work.lower_stack, hn]
    have hstack : w'.stack = s' ++ w.stack := hs'.stack
    rcases Nat.lt_or_ge (w'.link (g.eto e)) (w.link n) with hlt | hge
    · rw [Nat.min_eq_right (Nat.le_of_lt hlt)]
      obtain ⟨y, hy, hydfn, hreach⟩ := hv.attained
      refine ⟨y, hy.resolve_left ?_, hydfn, .head ⟨e, he, hen, rfl⟩ hreach⟩
      -- the child itself was visited after `n`
      rintro rfl
      have h1 := hv.later
      have h2 : w.dfn n < w.dfCount := hw.env.num_lt n h.self
      have h3 := h.low
      omega
    · rw [Nat.min_eq_left hge]
      obtain ⟨y, hy, hydfn, hreach⟩ := h.attained
      refine ⟨y, ?_, ?_, hreach⟩
      · rw [hstack]
        exact List.mem_append_right _ hy
      · rw [hdfn y (hw.env.stack_visited y hy), hydfn]
  · intro e' he' hen' hel
    rw [Work.lower_link_self, Work.lower_visited, hn]
    by_cases hee : e' = e
    · rw [hee]
      refine ⟨hv.self, fun hmem => ?_⟩
      exact absurd ((hvis₀ _ (hw₀.stack_visited _ hmem)).symm.trans hchild) (by decide)
    · obtain ⟨hvis, hle⟩ := h.scanned e' he' hen' (by rw [List.mem_cons]; exact not_or.mpr ⟨hee, hel⟩)
      exact ⟨hmono _ hvis, fun hmem => (Nat.min_le_left _ _).trans (hle hmem)⟩

end Scanning

/-! ## The end of a visit -/

theorem ite_update {α : Type} (f : Nat → α) (j : Nat) (x : α) (t : List Nat) :
    (fun v => if v ∈ t then x else Function.update f j x v) = fun v => if v ∈ j :: t then x else f v := by
  funext v
  by_cases hv : v = j
  · rw [hv, Function.update_self, if_pos List.mem_cons_self, ite_self]
  · simp only [Function.update_of_ne hv, List.mem_cons, or_iff_right hv]

theorem popTo_spec {s rest : List Nat} (hn : n ∉ s) (w : Work) : Work.popTo n (s ++ n :: rest) w = some
    { w with
      stack := rest
      inStack := fun v => if v ∈ s ++ [n] then false else w.inStack v
      sccId := fun v => if v ∈ s ++ [n] then w.sccCnt else w.sccId v
      sccCnt := w.sccCnt + 1 } := by
  induction s generalizing w with
  | nil =>
    rw [List.nil_append, Work.popTo, if_pos rfl, List.nil_append, ← ite_update, ← ite_update]
    rfl
  | cons j s ih =>
    obtain ⟨hjn, hns⟩ := not_or.mp (List.mem_cons.not.mp hn)
    rw [List.cons_append, Work.popTo, if_neg (Ne.symm hjn), ih hns, List.cons_append, ← ite_update, ← ite_update]

theorem grows_enter (hnew : w.visited n = false) : Grows w.env (w.enter n).env [n] where
  stack := rfl
  new v hv := by
    rw [List.mem_singleton.mp hv]
    exact Bool.eq_false_iff.mp hnew
  visited v hv := w.visited_enter n hv
  num v hv := Function.update_of_ne (by rintro rfl; exact absurd (hv.symm.trans hnew) (by decide)) _ _

/-- The visit of a vertex ends when its edges are scanned. -/
theorem visits_of_scanned (hw₀ : w₀.Right g gray) (hnew : w₀.visited n = false) (h : Scanning g n w₀ [] w)
    (hw : w.Right g fun v => gray v ∨ v = n) :
    ∃ w', (if w.link n = w.dfn n then Work.popTo n w.stack w else some w) = some w' ∧ w'.Right g gray ∧
      Visits g n w₀ w' := by
  obtain ⟨s, hs, hedges⟩ := h.grows
  have hstack : w.stack = s ++ n :: w₀.stack := hs.stack
  have hdfn {v : Nat} (hv : v ∈ w₀.stack) : w.dfn v = w₀.dfn v := h.dfn hnew (hw₀.env.stack_visited v hv)
  have hsucc (v : Nat) (hv : g.Edge n v) : w.visited v = true ∧ (v ∈ w₀.stack → w.link n ≤ w₀.dfn v) := by
    obtain ⟨e, he, hen, rfl⟩ := hv
    exact h.scanned e he hen List.not_mem_nil
  have hout (v : Nat) (hv : v ∈ s ++ [n]) (y : Nat) (hy : y ∈ w₀.stack) (hvy : g.Edge v y) : w.link n ≤ w₀.dfn y := by
    rcases List.mem_append.mp hv with hv | hv
    · exact hedges v hv y hy hvy
    · rw [List.mem_singleton.mp hv] at hvy
      exact (hsucc y hvy).2 hy
  have hlater : w₀.dfCount ≤ w.dfn n := Nat.le_of_eq <| by
    refine (Eq.trans (hs.num n (Function.update_self ..)) ?_).symm
    exact Function.update_self ..
  have hgrows := (grows_enter hnew).trans hs
  by_cases hroot : w.link n = w.dfn n
  · rw [if_pos hroot, hstack]
    have hsorted := hw.env.sorted
    rw [show w.env.stack = s ++ n :: w₀.stack from hstack] at hsorted
    obtain ⟨-, hbelow, habove⟩ := List.pairwise_append.mp hsorted
    have hns : n ∉ s := fun hn => Nat.lt_irrefl _ (habove n hn n List.mem_cons_self)
    have hpop : (w.env.pop (s ++ [n]) w₀.stack).Valid g.Edge gray := by
      refine hw.env.pop ?_ (List.mem_append_right _ List.mem_cons_self) hw₀.env.gray_mem (fun v hv => ?_)
        (fun v hv => (hsucc v hv).1) fun v hv y hy hvy => ?_
      · rw [List.append_assoc, List.singleton_append]
        exact hstack
      · rcases List.mem_append.mp hv with hv | hv
        · exact Nat.le_of_lt (habove v hv n List.mem_cons_self)
        · rw [List.mem_singleton.mp hv]
      · have h1 := hout v hv y hy hvy
        have h2 := h.dfn_lt hw hy
        rw [hdfn hy] at h2
        omega
    refine ⟨_, popTo_spec hns w, ⟨hpop, fun v => ?_, hw.live⟩, ⟨⟨[], ⟨rfl, ?_, hgrows.visited, hgrows.num⟩, ?_⟩, h.self,
      h.link, hlater, h.low, n, .inl rfl, hroot.symm, .refl⟩⟩
    · show (if v ∈ s ++ [n] then false else w.inStack v) = true ↔ v ∈ w₀.stack
      by_cases hv : v ∈ s ++ [n]
      · rw [if_pos hv]
        refine iff_of_false Bool.false_ne_true fun hv' => ?_
        rcases List.mem_append.mp hv with hv | hv
        · exact Nat.lt_irrefl _ (habove v hv v (List.mem_cons_of_mem _ hv'))
        · rw [List.mem_singleton.mp hv] at hv'
          exact Nat.lt_irrefl _ ((List.pairwise_cons.mp hbelow).1 n hv')
      · rw [if_neg hv, hw.inStack, hstack, ← List.singleton_append, ← List.append_assoc, List.mem_append, or_iff_right hv]
    · exact fun v hv => absurd hv List.not_mem_nil
    · exact fun v hv => absurd hv List.not_mem_nil
  · rw [if_neg hroot]
    refine ⟨w, rfl, ⟨hw.env.finish (fun v hv => (hsucc v hv).1) ?_, hw.inStack, hw.live⟩,
      ⟨⟨s ++ [n], hgrows, hout⟩, h.self, h.link, hlater, h.low, ?_⟩⟩
    · obtain ⟨y, hy, hydfn, hreach⟩ := h.attained
      refine ⟨y, hy, ?_, hreach⟩
      have := h.low
      show w.dfn y < w.dfn n
      omega
    · obtain ⟨y, hy, hydfn, hreach⟩ := h.attained
      exact ⟨y, .inr hy, hydfn, hreach⟩

/-! ## The whole search -/

/-- With enough turns a visit returns, and so does the loop over the edges. -/
theorem sccDfs_spec {capacity size : Nat} (hg : g.Stored capacity)
    (hsize : ∀ v, g.vertexIsInGraph v = true → v < size) (fuel : Nat) :
    (∀ (gray : Nat → Prop) (n : Nat) (w : Work), w.Right g gray → w.visited n = false → g.vertexIsInGraph n = true →
      (∀ v, gray v → ReflTransGen g.Edge v n) → w.unvisited g * (g.elast + 3) ≤ fuel →
      ∃ w', sccDfs g size fuel n w = some w' ∧ w'.Right g gray ∧ Visits g n w w') ∧
    ∀ (gray : Nat → Prop) (n e : Nat) (l : List Nat) (w₀ w : Work), Threads g.nfrom e l →
      (∀ x ∈ l, g.edgeIsInGraph x = true ∧ g.efrom x = n) → w₀.Right g gray → w₀.visited n = false →
      (w.Right g fun v => gray v ∨ v = n) → Scanning g n w₀ l w → (∀ v, gray v ∨ v = n → ReflTransGen g.Edge v n) →
      w.unvisited g * (g.elast + 3) + l.length + 1 ≤ fuel →
      ∃ w', sccLoop g size fuel n e w = some w' ∧ (w'.Right g fun v => gray v ∨ v = n) ∧ Scanning g n w₀ [] w' := by
  induction fuel with
  | zero =>
    refine ⟨fun gray n w hw hnew hlive hreach hfuel => ?_, fun gray n e l w₀ w _ _ _ _ _ _ _ hfuel => ?_⟩
    · have := Work.unvisited_enter hnew hlive
      have := Nat.mul_pos (Nat.lt_of_le_of_lt (Nat.zero_le _) this) (show 0 < g.elast + 3 by omega)
      omega
    · omega
  | succ fuel ih =>
    obtain ⟨ihDfs, ihLoop⟩ := ih
    refine ⟨fun gray n w hw hnew hlive hreach hfuel => ?_,
      fun gray n e l w₀ w hl hmem hw₀ hnew hw hscan hreach hfuel => ?_⟩
    · obtain ⟨l, hl, hmem⟩ := hg.out n hlive
      have hlen : l.length < g.elast + 1 := hl.length_lt (by omega) fun x hx => by
        have := (isLive_iff.mp ((hmem x).mp hx).1).1
        omega
      have hless := Nat.mul_le_mul_right (g.elast + 3) (Nat.succ_le_of_lt (Work.unvisited_enter hnew hlive))
      rw [Nat.succ_mul] at hless
      have hgray (v : Nat) (hv : gray v ∨ v = n) : ReflTransGen g.Edge v n := by
        rcases hv with hv | rfl
        · exact hreach v hv
        · exact .refl
      obtain ⟨w₁, hrun, hw₁, hscan⟩ := ihLoop gray n (g.vfrom n) l w (w.enter n) hl (fun x hx => (hmem x).mp hx) hw hnew
        (hw.enter hnew hlive hreach) (scanning_enter (fun x hx hxn => (hmem x).mpr ⟨hx, hxn⟩) hnew) hgray (by omega)
      obtain ⟨w', hend, hw', hvisits⟩ := visits_of_scanned hw hnew hscan hw₁
      refine ⟨w', ?_, hw', hvisits⟩
      rw [sccDfs, if_pos (hsize n hlive), hrun]
      exact hend
    · cases l with
      | nil =>
        refine ⟨w, ?_, hw, hscan⟩
        rw [sccLoop, if_pos (threads_nil.mp hl)]
      | cons x l =>
        obtain ⟨rfl, he0, hl⟩ := threads_cons.mp hl
        obtain ⟨he, hen⟩ := hmem e List.mem_cons_self
        have hsink := (hg.ends e he).2
        rw [sccLoop, if_neg he0, if_pos (hsize _ hsink)]
        have hrest (x : Nat) (hx : x ∈ l) := hmem x (List.mem_cons_of_mem _ hx)
        rw [List.length_cons] at hfuel
        by_cases hvis : w.visited (g.eto e) = false
        · obtain ⟨w₁, hrun, hw₁, hvisits⟩ := ihDfs _ (g.eto e) w hw hvis hsink
            (fun v hv => (hreach v hv).tail ⟨e, he, hen, rfl⟩) (by omega)
          obtain ⟨s, hs, -⟩ := hvisits.grows
          have hless : (w₁.lower n (w₁.link (g.eto e))).unvisited g ≤ w.unvisited g := by
            refine Finset.card_le_card (Work.unvisited_subset fun v hv => ?_)
            rw [Work.lower_visited]
            exact hs.visited v hv
          have hmul := Nat.mul_le_mul_right (g.elast + 3) hless
          obtain ⟨w', hrun', hw', hscan'⟩ := ihLoop gray n (g.nfrom e) l w₀ (w₁.lower n (w₁.link (g.eto e))) hl hrest hw₀
            hnew (hw₁.lower n _) (hscan.child hw hw₀.env hnew he hen hvis hvisits) hreach (by omega)
          refine ⟨w', ?_, hw', hscan'⟩
          rw [if_pos hvis, hrun]
          exact hrun'
        · have hstep := hscan.old hw hw₀.env hnew he hen (by simpa using hvis)
          have hright : (if w.dfn (g.eto e) < w.dfn n ∧ w.inStack (g.eto e) = true then w.lower n (w.dfn (g.eto e))
              else w).Right g fun v => gray v ∨ v = n := by
            split_ifs
            · exact hw.lower n _
            · exact hw
          have hsame : (if w.dfn (g.eto e) < w.dfn n ∧ w.inStack (g.eto e) = true then w.lower n (w.dfn (g.eto e))
              else w).unvisited g = w.unvisited g := by
            unfold Work.unvisited
            split_ifs
            · rw [Work.lower_visited]
            · rfl
          obtain ⟨w', hrun', hw', hscan'⟩ := ihLoop gray n (g.nfrom e) l w₀ _ hl hrest hw₀ hnew hright hstep hreach
            (by rw [hsame]; omega)
          refine ⟨w', ?_, hw', hscan'⟩
          rw [if_neg hvis]
          exact hrun'

theorem roots_spec {capacity size fuel : Nat} (hg : g.Stored capacity)
    (hsize : ∀ v, g.vertexIsInGraph v = true → v < size) (hfuel : g.vcnt * (g.elast + 3) ≤ fuel) {is : List Nat}
    (his : ∀ i ∈ is, g.vertexIsInGraph i = true) (hw : w.Right g fun _ => False) :
    ∃ w', is.foldlM (fun w i => if w.visited i = false then sccDfs g size fuel i w else some w) w = some w' ∧
      (w'.Right g fun _ => False) ∧ (∀ v, w.visited v = true → w'.visited v = true) ∧ ∀ i ∈ is, w'.visited i = true := by
  induction is generalizing w with
  | nil => exact ⟨w, rfl, hw, fun _ h => h, fun _ h => absurd h List.not_mem_nil⟩
  | cons i is ih =>
    obtain ⟨hi, his⟩ := List.forall_mem_cons.mp his
    obtain ⟨w₁, hrun, hw₁, hmono, hvis⟩ : ∃ w₁, (if w.visited i = false then sccDfs g size fuel i w else some w) =
        some w₁ ∧ (w₁.Right g fun _ => False) ∧ (∀ v, w.visited v = true → w₁.visited v = true) ∧
        w₁.visited i = true := by
      by_cases hnew : w.visited i = false
      · have hle : w.unvisited g ≤ g.vcnt := by
          rw [hg.vcnt]
          exact Finset.card_filter_le _ _
        have hmul := Nat.mul_le_mul_right (g.elast + 3) hle
        obtain ⟨w₁, hrun, hw₁, hvisits⟩ := (sccDfs_spec hg hsize fuel).1 _ i w hw hnew hi
          (fun v hv => hv.elim) (by omega)
        obtain ⟨s, hs, -⟩ := hvisits.grows
        exact ⟨w₁, by rw [if_pos hnew, hrun], hw₁, hs.visited, hvisits.self⟩
      · exact ⟨w, if_neg hnew, hw, fun _ h => h, by simpa using hnew⟩
    obtain ⟨w', hrun', hw', hmono', hvis'⟩ := ih his hw₁
    refine ⟨w', ?_, hw', fun v hv => hmono' v (hmono v hv), ?_⟩
    · rw [List.foldlM_cons, hrun]
      exact hrun'
    · exact List.forall_mem_cons.mpr ⟨hmono' i hvis, hvis'⟩

/-- The search visits the vertices and finds the components. -/
theorem search_spec {capacity : Nat} {s : Scc} (hg : s.graph.Stored capacity) (hc : s.graph.abs.Compact) :
    ∃ w, s.search = some w ∧ (∀ v, w.visited v = true ↔ s.graph.vertexIsInGraph v = true) ∧
      s.graph.abs.Labelled (w.sccCnt - 1) w.sccId := by
  have hlive (v : Nat) : s.graph.vertexIsInGraph v = true ↔ 0 < v ∧ v ≤ s.graph.vcnt := by
    rw [← Graph16.mem_vertices, hc v, hg.vcnt]
  have hroots (i : Nat) (hi : i ∈ List.range' 1 s.graph.vcnt) : s.graph.vertexIsInGraph i = true := by
    have := List.mem_range'_1.mp hi
    exact (hlive i).mpr ⟨by omega, by omega⟩
  have hfuel : s.graph.vcnt * (s.graph.elast + 3) ≤ s.fuel := Nat.mul_le_mul_right _ (Nat.le_succ _)
  obtain ⟨w, hrun, hw, -, hvis⟩ := roots_spec hg (fun v hv => Nat.lt_succ_of_le ((hlive v).mp hv).2) hfuel hroots
    (Work.right_start s.graph s.sccId)
  have hvisited (v : Nat) : w.visited v = true ↔ s.graph.vertexIsInGraph v = true := by
    refine ⟨hw.live v, fun hv => hvis v ?_⟩
    have := (hlive v).mp hv
    exact List.mem_range'_1.mpr ⟨by omega, by omega⟩
  have hdone (v : Nat) : w.env.done v ↔ v ∈ s.graph.abs.vertices := by
    rw [hw.env.done_iff, Graph16.mem_vertices]
    exact hvisited v
  have hpos : 0 < w.sccCnt := hw.env.comp_pos
  refine ⟨w, hrun, hvisited, fun v hv => ?_, fun i h0 h1 => ?_, fun u hu v hv => ?_, fun u v huv => ?_⟩
  · obtain ⟨h0, h1⟩ : 0 < w.sccId v ∧ w.sccId v < w.sccCnt := hw.env.comp_range v ((hdone v).mpr hv)
    exact ⟨h0, by omega⟩
  · obtain ⟨v, hv, hvi⟩ := hw.env.comp_used i h0 (show i < w.sccCnt by omega)
    exact ⟨v, (hdone v).mp hv, hvi⟩
  · rw [Graph16.edge_abs]
    exact hw.env.comp_iff u v ((hdone u).mpr hu) ((hdone v).mpr hv)
  · rw [Graph16.edge_abs] at huv
    have hu : u ∈ s.graph.abs.vertices := by
      obtain ⟨e, he, rfl, -⟩ := huv
      exact Graph16.mem_vertices.mpr (hg.ends e he).1
    exact (hw.env.comp_edge u v ((hdone u).mpr hu) huv).2

end Path64.Graph

import Mathlib.Data.List.Basic
import Mathlib.Logic.Relation

/-!
# Dominance in a rooted directed graph

* `Walk E u v l` : a walk along edges that visits the vertices of `l`;
* `Reaches`, `Dominates`, `StrictlyDominates`, `ImmediateDominator`;
* `Dominates.trans`, `Dominates.antisymm`, `Dominates.comparable`, `Dominates.of_edge`;
* `Frontier E r x y` : `x` dominates the source of an edge to `y` but does not strictly dominate `y`;
* `frontier_iff` : the frontier of a vertex by its edges and the frontiers of the vertices it immediately
  dominates.
-/

namespace Path64.Flow

variable {V : Type*} {E : V → V → Prop}

/-! ## Walks -/

/-- A walk along edges, with the vertices it visits. -/
inductive Walk (E : V → V → Prop) : V → V → List V → Prop
  | refl (u : V) : Walk E u u [u]
  | cons {u w v : V} {l : List V} : E u w → Walk E w v l → Walk E u v (u :: l)

namespace Walk

variable {u v w : V} {l l' : List V}

theorem start_mem (h : Walk E u v l) : u ∈ l := by
  cases h with
  | refl => exact List.mem_cons_self ..
  | cons => exact List.mem_cons_self ..

theorem end_mem (h : Walk E u v l) : v ∈ l := by
  induction h with
  | refl => exact List.mem_cons_self ..
  | cons _ _ ih => exact List.mem_cons_of_mem _ ih

theorem snoc (h : Walk E u v l) (he : E v w) : Walk E u w (l ++ [w]) := by
  induction h with
  | refl u => exact cons he (refl w)
  | cons hE _ ih => exact cons hE (ih he)

theorem trans (h : Walk E u v l) (h' : Walk E v w l') : ∃ m, Walk E u w m ∧ ∀ x, x ∈ m ↔ x ∈ l ∨ x ∈ l' := by
  induction h with
  | refl u =>
    refine ⟨l', h', fun x => ⟨Or.inr, ?_⟩⟩
    intro hx
    rcases hx with hx | hx
    · rw [List.mem_singleton.mp hx]
      exact h'.start_mem
    · exact hx
  | @cons u w' v l hE _ ih =>
    obtain ⟨m, hm, hmem⟩ := ih h'
    refine ⟨u :: m, cons hE hm, fun x => ?_⟩
    rw [List.mem_cons, List.mem_cons, hmem x, or_assoc]

theorem reverse (h : Walk E u v l) : ∃ m, Walk (fun a b => E b a) v u m ∧ ∀ x, x ∈ m ↔ x ∈ l := by
  induction h with
  | refl u => exact ⟨[u], refl u, fun _ => Iff.rfl⟩
  | @cons u w v l hE _ ih =>
    obtain ⟨m, hm, hmem⟩ := ih
    refine ⟨m ++ [u], hm.snoc hE, fun x => ?_⟩
    rw [List.mem_append, List.mem_singleton, List.mem_cons, hmem x, or_comm]

theorem suffix_of_mem (h : Walk E u v l) {a : V} (ha : a ∈ l) (hne : a ≠ u) :
    ∃ l₂, Walk E a v l₂ ∧ l₂.length < l.length := by
  induction h with
  | refl u => exact absurd (List.mem_singleton.mp ha) hne
  | @cons u w v l hE hrest ih =>
    have hal : a ∈ l := (List.mem_cons.mp ha).resolve_left hne
    by_cases haw : a = w
    · rw [haw]
      exact ⟨l, hrest, by simp⟩
    · obtain ⟨l₂, h₂, hlt⟩ := ih hal haw
      exact ⟨l₂, h₂, by rw [List.length_cons]; omega⟩

theorem cut (h : Walk E u v l) {a : V} (ha : a ∈ l) :
    ∃ l₁ l₂, Walk E u a l₁ ∧ Walk E a v l₂ ∧ (∀ x ∈ l₁, x ∈ l) ∧ (∀ x ∈ l₂, x ∈ l) ∧
      (a ≠ v → l₁.length < l.length) := by
  induction h with
  | refl u =>
    rw [List.mem_singleton.mp ha]
    exact ⟨[u], [u], refl u, refl u, fun _ hx => hx, fun _ hx => hx, fun hne => absurd rfl hne⟩
  | @cons u w v l hE hrest ih =>
    rcases List.mem_cons.mp ha with heq | ha
    · rw [heq]
      refine ⟨[u], u :: l, refl u, cons hE hrest, ?_, fun _ hx => hx, ?_⟩
      · intro x hx
        rw [List.mem_singleton.mp hx]
        exact List.mem_cons_self ..
      · intro _
        have := List.length_pos_of_mem hrest.end_mem
        simpa using this
    · obtain ⟨l₁, l₂, h₁, h₂, hs₁, hs₂, hlen⟩ := ih ha
      refine ⟨u :: l₁, l₂, cons hE h₁, h₂, ?_, fun x hx => List.mem_cons_of_mem _ (hs₂ x hx), ?_⟩
      · intro x hx
        rcases List.mem_cons.mp hx with rfl | hx
        · exact List.mem_cons_self ..
        · exact List.mem_cons_of_mem _ (hs₁ x hx)
      · intro hne
        have := hlen hne
        simpa using this

end Walk

/-- Some walk leads from `u` to `v`. -/
def Reaches (E : V → V → Prop) (u v : V) : Prop := ∃ l, Walk E u v l

theorem Reaches.refl (u : V) : Reaches E u u := ⟨[u], Walk.refl u⟩

theorem Reaches.snoc {u v w : V} (h : Reaches E u v) (he : E v w) : Reaches E u w := by
  obtain ⟨l, hl⟩ := h
  exact ⟨_, hl.snoc he⟩

theorem Reaches.mem_of_closed {S : V → Prop} {u v : V} (h : Reaches E u v) (hu : S u)
    (hclosed : ∀ a b, S a → E a b → S b) : S v := by
  obtain ⟨l, hl⟩ := h
  induction hl with
  | refl => exact hu
  | cons he _ ih => exact ih (hclosed _ _ hu he)

/-! ## Dominance -/

/-- Every walk from the root to `b` visits `a`, and there is one. -/
def Dominates (E : V → V → Prop) (r a b : V) : Prop := Reaches E r b ∧ ∀ l, Walk E r b l → a ∈ l

def StrictlyDominates (E : V → V → Prop) (r a b : V) : Prop := Dominates E r a b ∧ a ≠ b

/-- The strict dominator that every other strict dominator dominates. -/
structure ImmediateDominator (E : V → V → Prop) (r a b : V) : Prop where
  strict : StrictlyDominates E r a b
  closest : ∀ c, StrictlyDominates E r c b → Dominates E r c a

variable {r a b c x y z p : V}

namespace Dominates

theorem refl (h : Reaches E r a) : Dominates E r a a := ⟨h, fun _ hl => hl.end_mem⟩

theorem reaches_left (h : Dominates E r a b) : Reaches E r a := by
  obtain ⟨⟨l, hl⟩, hall⟩ := h
  obtain ⟨l₁, -, h₁, -⟩ := hl.cut (hall l hl)
  exact ⟨l₁, h₁⟩

theorem trans (h : Dominates E r a b) (h' : Dominates E r b c) : Dominates E r a c := by
  refine ⟨h'.1, ?_⟩
  intro l hl
  obtain ⟨l₁, -, h₁, -, hs₁, -⟩ := hl.cut (h'.2 l hl)
  exact hs₁ a (h.2 l₁ h₁)

theorem exists_shorter (h : Dominates E r a b) (hne : a ≠ b) {l : List V} (hl : Walk E r b l) :
    ∃ l', Walk E r a l' ∧ l'.length < l.length := by
  obtain ⟨l₁, -, h₁, -, -, -, hlen⟩ := hl.cut (h.2 l hl)
  exact ⟨l₁, h₁, hlen hne⟩

theorem antisymm (h : Dominates E r a b) (h' : Dominates E r b a) : a = b := by
  by_contra hne
  -- no walk to `b` is the shortest
  have hlong : ∀ n, ∀ l, Walk E r b l → n ≤ l.length := by
    intro n
    induction n with
    | zero => exact fun l _ => Nat.zero_le _
    | succ n ih =>
      intro l hl
      obtain ⟨l', hl', hlt⟩ := h.exists_shorter hne hl
      obtain ⟨l'', hl'', hlt'⟩ := h'.exists_shorter (Ne.symm hne) hl'
      have := ih l'' hl''
      omega
  obtain ⟨l, hl⟩ := h.1
  have := hlong (l.length + 1) l hl
  omega

/-- Two dominators of one vertex are comparable. -/
theorem comparable (h : Dominates E r a c) (h' : Dominates E r b c) : Dominates E r a b ∨ Dominates E r b a := by
  by_contra hnone
  rw [not_or] at hnone
  obtain ⟨hab, hba⟩ := hnone
  -- a walk to `b` without `a`, and one to `a` without `b`
  have hwalk : ∀ {u v : V}, Reaches E r v → ¬ Dominates E r u v → ∃ l, Walk E r v l ∧ u ∉ l := by
    intro u v hv hnot
    by_contra hall
    push Not at hall
    exact hnot ⟨hv, hall⟩
  obtain ⟨l, hl, hal⟩ := hwalk h'.reaches_left hab
  obtain ⟨m, hm, hbm⟩ := hwalk h.reaches_left hba
  -- no walk from `a` to `c` is the shortest: it visits `b`, and the rest visits `a` again
  have hlong : ∀ n, (∀ k, Walk E a c k → n ≤ k.length) ∧ ∀ k, Walk E b c k → n ≤ k.length := by
    intro n
    induction n with
    | zero => exact ⟨fun _ _ => Nat.zero_le _, fun _ _ => Nat.zero_le _⟩
    | succ n ih =>
      have hstep : ∀ {u v : V} {q k : List V}, Walk E r u q → v ∉ q → Dominates E r v c → Walk E u c k →
          ∃ k', Walk E v c k' ∧ k'.length < k.length := by
        intro u v q k hq hvq hv hk
        obtain ⟨s, hs, hmem⟩ := hq.trans hk
        have hvk : v ∈ k := ((hmem v).mp (hv.2 s hs)).resolve_left hvq
        have hne : v ≠ u := fun heq => hvq (heq ▸ hq.end_mem)
        exact hk.suffix_of_mem hvk hne
      constructor
      · intro k hk
        obtain ⟨k', hk', hlt⟩ := hstep hm hbm h' hk
        have := ih.2 k' hk'
        omega
      · intro k hk
        obtain ⟨k', hk', hlt⟩ := hstep hl hal h hk
        have := ih.1 k' hk'
        omega
  obtain ⟨q, hq⟩ := h.1
  obtain ⟨-, k, -, hk, -⟩ := hq.cut (h.2 q hq)
  have := (hlong (k.length + 1)).1 k hk
  omega

/-- A dominator of the target of an edge, other than the target, dominates the source. -/
theorem of_edge (h : Dominates E r a y) (hp : Reaches E r p) (he : E p y) (hne : a ≠ y) : Dominates E r a p := by
  refine ⟨hp, ?_⟩
  intro l hl
  rcases List.mem_append.mp (h.2 _ (hl.snoc he)) with ha | ha
  · exact ha
  · exact absurd (List.mem_singleton.mp ha) hne

end Dominates

theorem StrictlyDominates.trans_dominates (h : StrictlyDominates E r a b) (h' : Dominates E r b c) :
    StrictlyDominates E r a c := by
  refine ⟨h.1.trans h', ?_⟩
  intro heq
  rw [← heq] at h'
  exact h.2 (h.1.antisymm h')

theorem exists_child (hidom : ∀ b, Reaches E r b → b ≠ r → ∃ a, ImmediateDominator E r a b)
    (h : StrictlyDominates E r x p) : ∃ z, ImmediateDominator E r x z ∧ Dominates E r z p := by
  have hstep : ∀ n, ∀ p l, Walk E r p l → l.length ≤ n → StrictlyDominates E r x p →
      ∃ z, ImmediateDominator E r x z ∧ Dominates E r z p := by
    intro n
    induction n with
    | zero =>
      intro p l hl hlen _
      have := List.length_pos_of_mem hl.end_mem
      omega
    | succ n ih =>
      intro p l hl hlen hx
      have hpr : p ≠ r := by
        rintro rfl
        exact hx.2 (List.mem_singleton.mp (hx.1.2 [p] (Walk.refl p)))
      obtain ⟨w, hw⟩ := hidom p hx.1.1 hpr
      by_cases hxw : x = w
      · rw [hxw]
        exact ⟨p, hw, Dominates.refl hx.1.1⟩
      · obtain ⟨l', hl', hlt⟩ := hw.strict.1.exists_shorter hw.strict.2 hl
        obtain ⟨z, hz, hzw⟩ := ih w l' hl' (by omega) ⟨hw.closest x hx, hxw⟩
        exact ⟨z, hz, hzw.trans hw.strict.1⟩
  obtain ⟨l, hl⟩ := h.1.1
  exact hstep l.length p l hl (Nat.le_refl _) h

/-! ## Dominance frontiers -/

/-- `x` dominates the source of an edge to `y`, but does not strictly dominate `y`. -/
def Frontier (E : V → V → Prop) (r x y : V) : Prop :=
  (∃ p, E p y ∧ Dominates E r x p) ∧ ¬ StrictlyDominates E r x y

theorem ImmediateDominator.unique (h : ImmediateDominator E r a b) (h' : ImmediateDominator E r c b) : a = c :=
  (h'.closest a h.strict).antisymm (h.closest c h'.strict)

theorem frontier_of_edge (hidom : ∀ b, Reaches E r b → b ≠ r → ∃ a, ImmediateDominator E r a b)
    (hx : Reaches E r x) (he : E x y) (hnot : ¬ ImmediateDominator E r x y) : Frontier E r x y := by
  refine ⟨⟨x, he, Dominates.refl hx⟩, ?_⟩
  intro hxy
  have hyr : y ≠ r := by
    rintro rfl
    exact hxy.2 (List.mem_singleton.mp (hxy.1.2 [y] (Walk.refl y)))
  obtain ⟨w, hw⟩ := hidom y hxy.1.1 hyr
  have hwx : w = x := (hw.strict.1.of_edge hx he hw.strict.2).antisymm (hw.closest x hxy)
  exact hnot (hwx ▸ hw)

theorem frontier_of_child (hidom : ∀ b, Reaches E r b → b ≠ r → ∃ a, ImmediateDominator E r a b)
    (hz : ImmediateDominator E r x z) (hy : Frontier E r z y) (hnot : ¬ ImmediateDominator E r x y) :
    Frontier E r x y := by
  obtain ⟨⟨p, he, hp⟩, hzy⟩ := hy
  refine ⟨⟨p, he, hz.strict.1.trans hp⟩, ?_⟩
  intro hxy
  have hyr : y ≠ r := by
    rintro rfl
    exact hxy.2 (List.mem_singleton.mp (hxy.1.2 [y] (Walk.refl y)))
  obtain ⟨w, hw⟩ := hidom y hxy.1.1 hyr
  have hxw : StrictlyDominates E r x w := ⟨hw.closest x hxy, fun heq => hnot (heq ▸ hw)⟩
  -- both `z` and the immediate dominator of `y` dominate `p`
  rcases hp.comparable (hw.strict.1.of_edge hp.1 he hw.strict.2) with hzw | hwz
  · refine hzy ⟨hzw.trans hw.strict.1, ?_⟩
    intro heq
    rw [heq] at hzw
    exact hw.strict.2 (hw.strict.1.antisymm hzw)
  · by_cases heq : w = z
    · rw [heq] at hw
      exact hzy hw.strict
    · exact hxw.2 (hxw.1.antisymm (hz.closest w ⟨hwz, heq⟩))

theorem immediateDominator_of_edge (h : StrictlyDominates E r a b) (he : E a b) : ImmediateDominator E r a b :=
  ⟨h, fun _ hc => hc.1.of_edge h.1.reaches_left he hc.2⟩

/-- The frontier of a vertex by its edges and the frontiers of the vertices below it in the dominator tree. -/
theorem frontier_iff (hidom : ∀ b, Reaches E r b → b ≠ r → ∃ a, ImmediateDominator E r a b) (hx : Reaches E r x) :
    Frontier E r x y ↔ ¬ ImmediateDominator E r x y ∧
      (E x y ∨ ∃ z, ImmediateDominator E r x z ∧ Frontier E r z y) := by
  constructor
  · rintro ⟨⟨p, he, hp⟩, hnot⟩
    refine ⟨fun h => hnot h.strict, ?_⟩
    by_cases hxp : x = p
    · rw [hxp]
      exact Or.inl he
    · obtain ⟨z, hz, hzp⟩ := exists_child hidom ⟨hp, hxp⟩
      exact Or.inr ⟨z, hz, ⟨p, he, hzp⟩, fun hzy => hnot (hz.strict.trans_dominates hzy.1)⟩
  · rintro ⟨hnot, he | ⟨z, hz, hy⟩⟩
    · exact frontier_of_edge hidom hx he hnot
    · exact frontier_of_child hidom hz hy hnot

end Path64.Flow

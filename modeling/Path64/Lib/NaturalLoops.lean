import Mathlib.Data.Option.Basic
import Path64.Lib.Dominance

/-!
# Natural loops

* `Rooted`, `DominatesFrom` : dominance in a graph with several entries, as dominance from one root before them;
* `BackEdge`, `NaturalLoop` : an edge to a dominator of its source, and what reaches the source without the target;
* `LoopPart` : a union of natural loops with one head;
* `LoopPart.head_not_mem`, `LoopPart.subset` : two unions with different heads are nested when one has the other's head;
* `LoopPart.head_of_common` : it has when they meet in a vertex that can be reached.
-/

namespace Path64.Flow

variable {V : Type*} {E : V → V → Prop} {S : V → Prop} {a b c x : V}

/-! ## Several entries -/

/-- The graph with one vertex before all entries. -/
inductive Rooted (E : V → V → Prop) (S : V → Prop) : Option V → Option V → Prop
  | enter {e : V} : S e → Rooted E S none (some e)
  | edge {a b : V} : E a b → Rooted E S (some a) (some b)

/-- Some entry reaches `b`. -/
def Reached (E : V → V → Prop) (S : V → Prop) (b : V) : Prop := ∃ e, S e ∧ Reaches E e b

/-- Every walk from an entry to `b` visits `a`, and there is one. -/
structure DominatesFrom (E : V → V → Prop) (S : V → Prop) (a b : V) : Prop where
  reached : Reached E S b
  visits : ∀ e l, S e → Walk E e b l → a ∈ l

theorem Walk.rooted {l : List V} (h : Walk E a b l) : Walk (Rooted E S) (some a) (some b) (l.map some) := by
  induction h with
  | refl => exact Walk.refl _
  | cons he _ ih => exact Walk.cons (.edge he) ih

theorem Walk.of_rooted {v : Option V} {l : List (Option V)} (h : Walk (Rooted E S) (some a) v l) :
    ∃ b l', v = some b ∧ l = l'.map some ∧ Walk E a b l' := by
  generalize hu : some a = u at h
  induction h generalizing a with
  | refl =>
    rw [← hu]
    exact ⟨a, [a], rfl, rfl, Walk.refl a⟩
  | cons he _ ih =>
    cases he with
    | enter => cases hu
    | edge he =>
      obtain rfl := Option.some_inj.mp hu
      obtain ⟨b, l', rfl, rfl, hw⟩ := ih rfl
      exact ⟨b, a :: l', rfl, rfl, Walk.cons he hw⟩

theorem dominates_rooted : Dominates (Rooted E S) none (some a) (some b) ↔ DominatesFrom E S a b := by
  have hwalk : ∀ l, Walk (Rooted E S) none (some b) l → ∃ e l', S e ∧ Walk E e b l' ∧ l = none :: l'.map some := by
    intro l hl
    cases hl with
    | cons he hrest =>
      cases he with
      | enter he =>
        obtain ⟨b', l', hb, rfl, hw⟩ := hrest.of_rooted
        obtain rfl := Option.some_inj.mp hb
        exact ⟨_, l', he, hw, rfl⟩
  have hmem : ∀ l : List V, some a ∈ none :: l.map some ↔ a ∈ l := by
    intro l
    rw [List.mem_cons, or_iff_right (Option.some_ne_none a), List.mem_map_of_injective (Option.some_injective V)]
  constructor
  · rintro ⟨⟨l, hl⟩, hall⟩
    obtain ⟨e, l', he, hw, -⟩ := hwalk l hl
    exact ⟨⟨e, he, l', hw⟩, fun e l he hw => (hmem l).mp (hall _ (Walk.cons (.enter he) hw.rooted))⟩
  · rintro ⟨⟨e, he, l, hw⟩, hall⟩
    refine ⟨⟨_, Walk.cons (.enter he) hw.rooted⟩, fun m hm => ?_⟩
    obtain ⟨e', l', he', hw', rfl⟩ := hwalk m hm
    exact (hmem l').mpr (hall e' l' he' hw')

theorem Reached.snoc (h : Reached E S a) (he : E a b) : Reached E S b := by
  obtain ⟨e, hS, hr⟩ := h
  exact ⟨e, hS, hr.snoc he⟩

namespace DominatesFrom

theorem refl (h : Reached E S a) : DominatesFrom E S a a := ⟨h, fun _ _ _ hl => hl.end_mem⟩

theorem reached_left (h : DominatesFrom E S a b) : Reached E S a := by
  obtain ⟨⟨e, he, l, hl⟩, hall⟩ := h
  obtain ⟨l₁, -, h₁, -⟩ := hl.cut (hall e l he hl)
  exact ⟨e, he, l₁, h₁⟩

theorem antisymm (h : DominatesFrom E S a b) (h' : DominatesFrom E S b a) : a = b :=
  Option.some_inj.mp ((dominates_rooted.mpr h).antisymm (dominates_rooted.mpr h'))

theorem comparable (h : DominatesFrom E S a c) (h' : DominatesFrom E S b c) :
    DominatesFrom E S a b ∨ DominatesFrom E S b a := by
  rcases (dominates_rooted.mpr h).comparable (dominates_rooted.mpr h') with hab | hba
  · exact .inl (dominates_rooted.mp hab)
  · exact .inr (dominates_rooted.mp hba)

theorem of_walk (h : DominatesFrom E S a b) (hx : Reached E S x) {l : List V} (hl : Walk E x b l) (ha : a ∉ l) :
    DominatesFrom E S a x := by
  refine ⟨hx, fun e m he hm => ?_⟩
  obtain ⟨k, hk, hmem⟩ := hm.trans hl
  exact ((hmem a).mp (h.visits e k he hk)).resolve_right ha

/-- Between two dominators a walk goes on from the second without the first. -/
theorem exists_walk (hah : DominatesFrom E S a b) (hne : a ≠ b) (hbx : DominatesFrom E S b x) :
    ∃ l, Walk E b x l ∧ a ∉ l := by
  -- to `a` without `b`
  have hnot : ¬DominatesFrom E S b a := fun hba => hne (hah.antisymm hba)
  have hwalk : ∃ e m, S e ∧ Walk E e a m ∧ b ∉ m := by
    by_contra hall
    push Not at hall
    exact hnot ⟨hah.reached_left, hall⟩
  obtain ⟨e, m, he, hm, hbm⟩ := hwalk
  have hshort : ∀ n, ∀ l, Walk E b x l → l.length ≤ n → ∃ l, Walk E b x l ∧ a ∉ l := by
    intro n
    induction n with
    | zero =>
      intro l hl hlen
      have := List.length_pos_of_mem hl.end_mem
      omega
    | succ n ih =>
      intro l hl hlen
      by_cases hal : a ∈ l
      · obtain ⟨l₂, h₂, hlt⟩ := hl.suffix_of_mem hal hne
        obtain ⟨k, hk, hmem⟩ := hm.trans h₂
        have hb₂ := ((hmem b).mp (hbx.visits e k he hk)).resolve_left hbm
        obtain ⟨l₃, h₃, hlt'⟩ := h₂.suffix_of_mem hb₂ (Ne.symm hne)
        exact ih l₃ h₃ (by omega)
      · exact ⟨l, hl, hal⟩
  obtain ⟨e', he', l, hl⟩ := hbx.reached
  obtain ⟨-, l₂, -, h₂, -⟩ := hl.cut (hbx.visits e' l he' hl)
  exact hshort _ l₂ h₂ (Nat.le_refl _)

end DominatesFrom

/-! ## Natural loops -/

/-- An edge to a dominator of its source. -/
structure BackEdge (E : V → V → Prop) (S : V → Prop) (t h : V) : Prop where
  edge : E t h
  dominates : DominatesFrom E S h t

/-- The head, and what reaches the tail without it. -/
def NaturalLoop (E : V → V → Prop) (h t x : V) : Prop := x = h ∨ ∃ l, Walk E x t l ∧ h ∉ l

/-- A union of natural loops with the head `h`, at least one. -/
structure LoopPart (E : V → V → Prop) (S : V → Prop) (h : V) (L : V → Prop) : Prop where
  head : L h
  tails : ∀ x, L x → ∃ t, BackEdge E S t h ∧ NaturalLoop E h t x ∧ ∀ y, NaturalLoop E h t y → L y

variable {h t : V} {A H : V → Prop}

theorem BackEdge.reached (hb : BackEdge E S t h) : Reached E S h := hb.dominates.reached_left

theorem BackEdge.dominates_of_mem (hb : BackEdge E S t h) (hx : NaturalLoop E h t x) (hr : Reached E S x) :
    DominatesFrom E S h x := by
  rcases hx with rfl | ⟨l, hl, hh⟩
  · exact .refl hr
  · exact hb.dominates.of_walk hr hl hh

theorem naturalLoop_part (hb : BackEdge E S t h) : LoopPart E S h (NaturalLoop E h t) :=
  ⟨.inl rfl, fun _ hx => ⟨t, hb, hx, fun _ hy => hy⟩⟩

namespace LoopPart

theorem union {L L' : V → Prop} (hL : LoopPart E S h L) (hL' : LoopPart E S h L') :
    LoopPart E S h fun x => L x ∨ L' x := by
  refine ⟨.inl hL.head, fun x hx => ?_⟩
  rcases hx with hx | hx
  · obtain ⟨t, hb, hmem, hall⟩ := hL.tails x hx
    exact ⟨t, hb, hmem, fun y hy => .inl (hall y hy)⟩
  · obtain ⟨t, hb, hmem, hall⟩ := hL'.tails x hx
    exact ⟨t, hb, hmem, fun y hy => .inr (hall y hy)⟩

theorem reached (hH : LoopPart E S h H) : Reached E S h := by
  obtain ⟨t, hb, -⟩ := hH.tails h hH.head
  exact hb.reached

theorem dominates (hA : LoopPart E S a A) (hx : A x) (hr : Reached E S x) : DominatesFrom E S a x := by
  obtain ⟨t, hb, hmem, -⟩ := hA.tails x hx
  exact hb.dominates_of_mem hmem hr

/-- Of two loops only one has the other's head. -/
theorem head_not_mem (hA : LoopPart E S a A) (hH : LoopPart E S h H) (hne : a ≠ h) (hmem : A h) : ¬H a :=
  fun hback => hne ((hA.dominates hmem hH.reached).antisymm (hH.dominates hback hA.reached))

/-- A loop that has the head of another has all of it. -/
theorem subset (hA : LoopPart E S a A) (hH : LoopPart E S h H) (hne : a ≠ h) (hmem : A h) (hx : H x) : A x := by
  obtain ⟨t, -, hnat, hall⟩ := hA.tails h hmem
  obtain ⟨k, hk, hak⟩ := hnat.resolve_left (Ne.symm hne)
  obtain ⟨t', hb', hnat', hall'⟩ := hH.tails x hx
  rcases hnat' with rfl | ⟨l, hl, hhl⟩
  · exact hmem
  · -- without `a` on the way, which would be in the inner loop
    have hal : a ∉ l := by
      intro hal
      obtain ⟨-, l₂, -, h₂, -, hs₂, -⟩ := hl.cut hal
      exact hA.head_not_mem hH hne hmem (hall' a (.inr ⟨l₂, h₂, fun hh => hhl (hs₂ h hh)⟩))
    obtain ⟨m, hm, hmemm⟩ := hl.trans (Walk.cons hb'.edge hk)
    refine hall x (.inr ⟨m, hm, fun ham => ?_⟩)
    rcases (hmemm a).mp ham with ham | ham
    · exact hal ham
    · rcases List.mem_cons.mp ham with rfl | ham
      · exact hal hl.end_mem
      · exact hak ham

/-- Of two loops that meet in a vertex that can be reached one has the other's head. -/
theorem head_of_common (hA : LoopPart E S a A) (hH : LoopPart E S h H) (hne : a ≠ h) (hr : Reached E S x) (hAx : A x)
    (hHx : H x) : A h ∨ H a := by
  have hstep : ∀ {a h : V} {A H : V → Prop}, LoopPart E S a A → LoopPart E S h H → a ≠ h → A x → H x →
      DominatesFrom E S a h → A h := by
    intro a h A H hA hH hne hAx hHx hah
    obtain ⟨t, -, hnat, hall⟩ := hA.tails x hAx
    have hhx := hH.dominates hHx hr
    rcases hnat with rfl | ⟨k, hk, hak⟩
    · exact absurd (hah.antisymm hhx) hne
    · obtain ⟨l, hl, hal⟩ := hah.exists_walk hne hhx
      obtain ⟨m, hm, hmemm⟩ := hl.trans hk
      exact hall h (.inr ⟨m, hm, fun ham => ((hmemm a).mp ham).elim hal hak⟩)
  rcases (hA.dominates hAx hr).comparable (hH.dominates hHx hr) with hah | hha
  · exact .inl (hstep hA hH hne hAx hHx hah)
  · exact .inr (hstep hH hA (Ne.symm hne) hHx hAx hha)

end LoopPart

end Path64.Flow

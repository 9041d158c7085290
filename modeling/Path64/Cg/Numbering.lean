import Path64.Cg.LoopList

/-!
# The depth-first numbers

`BB_Depth_First_Map` numbers the blocks that can be reached from the entries, each after the block it was met from.

* `Numbering` : what holds of the numbers given so far;
* `Visited`, `mapDepthFirst_spec` : what the visit of a block has done;
* `depthFirstMap_numbered` : the numbers are as the detection of loops relies on.
-/

namespace Path64.Cg

open Flow Lib

variable {g : Cfg}

/-- The numbers given so far. -/
structure Numbering (g : Cfg) (s : (Nat → Nat) × Nat) : Prop where
  reached : ∀ b, s.1 b ≠ 0 → Reached g.Edge g.Entry b
  le : ∀ b, s.1 b ≤ s.2
  parent : ∀ b, s.1 b ≠ 0 → g.Entry b ∨ ∃ p, g.Edge p b ∧ s.1 p ≠ 0 ∧ s.1 p < s.1 b

/-- What a visit of `bb` has done. -/
structure Visited (g : Cfg) (bb : Nat) (s s' : (Nat → Nat) × Nat) : Prop where
  numbering : Numbering g s'
  keep : ∀ x, s.1 x ≠ 0 → s'.1 x = s.1 x
  self : s'.1 bb ≠ 0
  closed : ∀ x, s'.1 x ≠ 0 → s.1 x = 0 → x ≠ bb → ∀ y ∈ g.succs x, s'.1 y ≠ 0

theorem Visited.trans {bb succ : Nat} {s s₁ s₂ : (Nat → Nat) × Nat} (h : Visited g bb s s₁)
    (h' : Visited g succ s₁ s₂) (hall : ∀ y ∈ g.succs succ, s₂.1 y ≠ 0) : Visited g bb s s₂ where
  numbering := h'.numbering
  keep := by
    intro x hx
    have hx₁ := h.keep x hx
    rw [← hx₁] at hx
    rw [h'.keep x hx, hx₁]
  self := by
    rw [h'.keep bb h.self]
    exact h.self
  closed := by
    intro x hx hxs hxb y hy
    by_cases hx₁ : s₁.1 x = 0
    · by_cases hxsucc : x = succ
      · rw [hxsucc] at hy
        exact hall y hy
      · exact h'.closed x hx hx₁ hxsucc y hy
    · have hy₁ := h.closed x hx₁ hxs hxb y hy
      rw [h'.keep y hy₁]
      exact hy₁

/-- The blocks without a number. -/
def unnumbered (g : Cfg) (s : (Nat → Nat) × Nat) : Finset Nat := {x ∈ g.order.toFinset | s.1 x = 0}

/-- The visit of a block starts with its number. -/
theorem visited_enter {s : (Nat → Nat) × Nat} {bb : Nat} (h : Numbering g s) (hzero : s.1 bb = 0)
    (hr : Reached g.Edge g.Entry bb) (hparent : g.Entry bb ∨ ∃ p, g.Edge p bb ∧ s.1 p ≠ 0) :
    Visited g bb s (Function.update s.1 bb (s.2 + 1), s.2 + 1) := by
  have hother : ∀ x, s.1 x ≠ 0 → Function.update s.1 bb (s.2 + 1) x = s.1 x := by
    intro x hx
    refine Function.update_of_ne ?_ _ _
    rintro rfl
    exact hx hzero
  have hcases : ∀ x, Function.update s.1 bb (s.2 + 1) x ≠ 0 → x = bb ∨ s.1 x ≠ 0 := by
    intro x hx
    by_cases hxb : x = bb
    · exact .inl hxb
    · rw [Function.update_of_ne hxb] at hx
      exact .inr hx
  refine ⟨⟨fun x hx => ?_, fun x => ?_, fun x hx => ?_⟩, hother, ?_, fun x hx hxs hxb => ?_⟩
  · rcases hcases x hx with rfl | hx
    · exact hr
    · exact h.reached x hx
  · show Function.update s.1 bb (s.2 + 1) x ≤ s.2 + 1
    by_cases hxb : x = bb
    · rw [hxb, Function.update_self]
    · rw [Function.update_of_ne hxb]
      exact (h.le x).trans (Nat.le_succ _)
  · show _ ∨ ∃ p, _ ∧ Function.update s.1 bb (s.2 + 1) p ≠ 0 ∧ Function.update s.1 bb (s.2 + 1) p < _
    rcases hcases x hx with rfl | hx
    · refine hparent.imp_right fun ⟨p, he, hp⟩ => ⟨p, he, ?_, ?_⟩
      · rw [hother p hp]
        exact hp
      · show Function.update s.1 x (s.2 + 1) p < Function.update s.1 x (s.2 + 1) x
        rw [hother p hp, Function.update_self]
        exact Nat.lt_succ_of_le (h.le p)
    · refine (h.parent x hx).imp_right fun ⟨p, he, hp, hlt⟩ => ⟨p, he, ?_, ?_⟩
      · rw [hother p hp]
        exact hp
      · show Function.update s.1 bb (s.2 + 1) p < Function.update s.1 bb (s.2 + 1) x
        rw [hother p hp, hother x hx]
        exact hlt
  · show Function.update s.1 bb (s.2 + 1) bb ≠ 0
    rw [Function.update_self]
    exact Nat.succ_ne_zero _
  · exact absurd ((hcases x hx).resolve_left hxb) (not_not.mpr hxs)

/-- A visit ends, and numbers what it has met and all successors. -/
theorem mapDepthFirst_spec : ∀ (fuel : Nat) (s : (Nat → Nat) × Nat) (bb : Nat), Numbering g s → s.1 bb = 0 →
    Reached g.Edge g.Entry bb → (g.Entry bb ∨ ∃ p, g.Edge p bb ∧ s.1 p ≠ 0) → (unnumbered g s).card ≤ fuel →
    ∃ s', g.mapDepthFirst fuel s bb = some s' ∧ Visited g bb s s' ∧ ∀ y ∈ g.succs bb, s'.1 y ≠ 0 := by
  intro fuel
  induction fuel with
  | zero =>
    intro s bb _ hzero hr _ hfuel
    have hmem : bb ∈ unnumbered g s := Finset.mem_filter.mpr ⟨List.mem_toFinset.mpr (Cfg.reached_mem hr), hzero⟩
    have := Finset.card_pos.mpr ⟨bb, hmem⟩
    omega
  | succ fuel ih =>
    intro s bb hs hzero hr hparent hfuel
    have hb := Cfg.reached_mem hr
    have hfold : ∀ (ss : List Nat) (s₁ : (Nat → Nat) × Nat), (∀ y ∈ ss, y ∈ g.succs bb) → Visited g bb s s₁ →
        ∃ s₂, ss.foldlM (fun s succ => if s.1 succ = 0 then g.mapDepthFirst fuel s succ else some s) s₁ = some s₂ ∧
          Visited g bb s s₂ ∧ (∀ x, s₁.1 x ≠ 0 → s₂.1 x ≠ 0) ∧ ∀ y ∈ ss, s₂.1 y ≠ 0 := by
      intro ss
      induction ss with
      | nil => exact fun s₁ _ h => ⟨s₁, rfl, h, fun _ hx => hx, fun y hy => absurd hy List.not_mem_nil⟩
      | cons succ ss ihss =>
        intro s₁ hss h
        have he : g.Edge bb succ := ⟨hb, hss succ List.mem_cons_self⟩
        have hss' : ∀ y ∈ ss, y ∈ g.succs bb := fun y hy => hss y (List.mem_cons_of_mem _ hy)
        rw [List.foldlM_cons]
        by_cases hnew : s₁.1 succ = 0
        · rw [if_pos hnew]
          have hcard : (unnumbered g s₁).card ≤ fuel := by
            have hlt : (unnumbered g s₁).card < (unnumbered g s).card := by
              refine Finset.card_lt_card ⟨fun x hx => ?_, fun hle => ?_⟩
              · obtain ⟨hx, hx₁⟩ := Finset.mem_filter.mp hx
                refine Finset.mem_filter.mpr ⟨hx, ?_⟩
                by_contra hne
                exact hne ((h.keep x hne).symm.trans hx₁)
              · have hbb := hle (Finset.mem_filter.mpr ⟨List.mem_toFinset.mpr hb, hzero⟩)
                exact h.self (Finset.mem_filter.mp hbb).2
            omega
          obtain ⟨s', hrun', h', hall'⟩ := ih s₁ succ h.numbering hnew (hr.snoc he) (.inr ⟨bb, he, h.self⟩) hcard
          rw [hrun', Option.bind_eq_bind, Option.bind_some]
          obtain ⟨s₂, hrun, h₂, hkeep, hall⟩ := ihss s' hss' (h.trans h' hall')
          refine ⟨s₂, hrun, h₂, fun x hx => hkeep x ?_, List.forall_mem_cons.mpr ⟨hkeep succ h'.self, hall⟩⟩
          rw [h'.keep x hx]
          exact hx
        · rw [if_neg hnew]
          obtain ⟨s₂, hrun, h₂, hkeep, hall⟩ := ihss s₁ hss' h
          exact ⟨s₂, hrun, h₂, hkeep, List.forall_mem_cons.mpr ⟨hkeep succ hnew, hall⟩⟩
    obtain ⟨s', hrun, h, -, hall⟩ := hfold (g.succs bb) _ (fun _ hy => hy) (visited_enter hs hzero hr hparent)
    exact ⟨s', hrun, h, hall⟩

/-- `BB_Depth_First_Map` from the entries. -/
theorem depthFirstMap_numbered {entries : List Nat} (hentries : ∀ e, e ∈ entries ↔ g.Entry e) {fuel : Nat}
    (hfuel : g.order.length ≤ fuel) : ∃ dfo, g.depthFirstMap entries fuel = some dfo ∧ g.Numbered dfo := by
  have hfold : ∀ (es : List Nat) (s : (Nat → Nat) × Nat), (∀ e ∈ es, g.Entry e) → Numbering g s →
      (∀ x, s.1 x ≠ 0 → ∀ y ∈ g.succs x, s.1 y ≠ 0) →
      ∃ s', es.foldlM (fun s bb => if s.1 bb ≠ 0 then some s else g.mapDepthFirst fuel s bb) s = some s' ∧
        Numbering g s' ∧ (∀ x, s'.1 x ≠ 0 → ∀ y ∈ g.succs x, s'.1 y ≠ 0) ∧ (∀ x, s.1 x ≠ 0 → s'.1 x ≠ 0) ∧
        ∀ e ∈ es, s'.1 e ≠ 0 := by
    intro es
    induction es with
    | nil => exact fun s _ hs hclosed => ⟨s, rfl, hs, hclosed, fun _ hx => hx, fun e he => absurd he List.not_mem_nil⟩
    | cons e es ih =>
      intro s hes hs hclosed
      have hentry := hes e List.mem_cons_self
      have hes' : ∀ e ∈ es, g.Entry e := fun e he => hes e (List.mem_cons_of_mem _ he)
      rw [List.foldlM_cons]
      by_cases hnew : s.1 e = 0
      · rw [if_neg (not_not.mpr hnew)]
        have hcard : (unnumbered g s).card ≤ fuel :=
          ((Finset.card_filter_le _ _).trans (List.toFinset_card_le _)).trans hfuel
        obtain ⟨s₁, hrun₁, h₁, hall₁⟩ :=
          mapDepthFirst_spec fuel s e hs hnew ⟨e, hentry, Reaches.refl e⟩ (.inl hentry) hcard
        have hkeep₁ : ∀ x, s.1 x ≠ 0 → s₁.1 x ≠ 0 := by
          intro x hx
          rw [h₁.keep x hx]
          exact hx
        have hclosed₁ : ∀ x, s₁.1 x ≠ 0 → ∀ y ∈ g.succs x, s₁.1 y ≠ 0 := by
          intro x hx y hy
          by_cases hxs : s.1 x = 0
          · by_cases hxe : x = e
            · rw [hxe] at hy
              exact hall₁ y hy
            · exact h₁.closed x hx hxs hxe y hy
          · exact hkeep₁ y (hclosed x hxs y hy)
        rw [hrun₁, Option.bind_eq_bind, Option.bind_some]
        obtain ⟨s', hrun, h', hclosed', hkeep, hall⟩ := ih s₁ hes' h₁.numbering hclosed₁
        exact ⟨s', hrun, h', hclosed', fun x hx => hkeep x (hkeep₁ x hx),
          List.forall_mem_cons.mpr ⟨hkeep e h₁.self, hall⟩⟩
      · rw [if_pos hnew]
        obtain ⟨s', hrun, h', hclosed', hkeep, hall⟩ := ih s hes' hs hclosed
        exact ⟨s', hrun, h', hclosed', hkeep, List.forall_mem_cons.mpr ⟨hkeep e hnew, hall⟩⟩
  have hstart : Numbering g (fun _ => 0, 0) :=
    ⟨fun b hb => absurd rfl hb, fun _ => Nat.le_refl 0, fun b hb => absurd rfl hb⟩
  obtain ⟨s, hrun, hs, hclosed, -, hall⟩ := hfold entries _ (fun e he => (hentries e).mp he) hstart
    fun x hx => absurd rfl hx
  refine ⟨s.1, ?_, ⟨fun b hb => ⟨fun hzero hr => ?_, fun hnot => ?_⟩, fun b _ => hs.parent b⟩⟩
  · unfold Cfg.depthFirstMap
    rw [hrun]
    rfl
  · obtain ⟨e, he, hreach⟩ := hr
    exact hreach.mem_of_closed (hall e ((hentries e).mpr he)) (fun a c ha hac => hclosed a ha c hac.2) hzero
  · by_contra hne
    exact hnot (hs.reached b hne)

end Path64.Cg

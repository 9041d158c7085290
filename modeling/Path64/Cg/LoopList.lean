import Path64.Cg.FindLoops
import Path64.Lib.NaturalLoops

/-!
# The list of loops

* `addAncestors_spec`, `newLoop_spec` : the block set of a new loop is its natural loop;
* `Listed`, `place_listed` : loops with one descriptor per head, contained ones first, also while they grow;
* `Covers`, `covers_place` : what the descriptors for a head contain;
* `Numbered`, `le_of_dominates` : a dominator has a smaller number;
* `scan_spec` : the list after the scan of all blocks.
-/

namespace Path64.Cg

open Flow Lib

variable {g : Cfg}

/-! ## One natural loop -/

/-- What a call for `bb` has added to a set. -/
structure Added (l : List Nat) (preds : Nat → List Nat) (bb : Nat) (set set' : Finset Nat) : Prop where
  le : set ⊆ set'
  self : bb ∈ set'
  reached : ∀ x ∈ set', x ∉ set → ∃ w, Walk (Link l preds) bb x w ∧ ∀ y ∈ w, y ∉ set
  closed : ∀ x ∈ set', x ∉ set → x ≠ bb → ∀ p ∈ preds x, p ∈ set'

theorem Added.trans {l : List Nat} {preds : Nat → List Nat} {bb pred : Nat} {set set₁ set₂ : Finset Nat} (h : Added l preds bb set set₁) (hb : bb ∈ l)
    (hnew : bb ∉ set) (hp : pred ∈ preds bb) (h' : Added l preds pred set₁ set₂)
    (hall : ∀ p ∈ preds pred, p ∈ set₂) : Added l preds bb set set₂ where
  le := h.le.trans h'.le
  self := h'.le h.self
  reached := by
    intro x hx hxset
    by_cases hx₁ : x ∈ set₁
    · exact h.reached x hx₁ hxset
    · obtain ⟨w, hw, havoid⟩ := h'.reached x hx hx₁
      refine ⟨bb :: w, Walk.cons ⟨hb, hp⟩ hw, fun y hy => ?_⟩
      rcases List.mem_cons.mp hy with rfl | hy
      · exact hnew
      · exact fun hyset => havoid y hy (h.le hyset)
  closed := by
    intro x hx hxset hxb p hpx
    by_cases hx₁ : x ∈ set₁
    · exact h'.le (h.closed x hx₁ hxset hxb p hpx)
    · by_cases hxp : x = pred
      · rw [hxp] at hpx
        exact hall p hpx
      · exact h'.closed x hx hx₁ hxp p hpx

section Ancestors

variable {l : List Nat} {preds : Nat → List Nat} (hpreds : ∀ b ∈ l, ∀ p ∈ preds b, p ∈ l)
include hpreds

/-- `BB_Add_Ancestors` ends, and adds what is reached against the edges outside the set. -/
theorem addAncestors_spec : ∀ (fuel : Nat) (set : Finset Nat) (bb : Nat), bb ∈ l → bb ∉ set →
    (l.toFinset \ set).card ≤ fuel → ∃ set', addAncestors preds fuel set bb = some set' ∧
      Added l preds bb set set' ∧ ∀ p ∈ preds bb, p ∈ set' := by
  intro fuel
  induction fuel with
  | zero =>
    intro set bb hb hnew hfuel
    have hmem : bb ∈ l.toFinset \ set := Finset.mem_sdiff.mpr ⟨List.mem_toFinset.mpr hb, hnew⟩
    have := Finset.card_pos.mpr ⟨bb, hmem⟩
    omega
  | succ fuel ih =>
    intro set bb hb hnew hfuel
    have hfold : ∀ (ps : List Nat) (set₁ : Finset Nat), (∀ p ∈ ps, p ∈ preds bb) → Added l preds bb set set₁ →
        ∃ set₂, ps.foldlM (fun set pred => if pred ∈ set then some set else addAncestors preds fuel set pred) set₁ =
          some set₂ ∧ Added l preds bb set set₂ ∧ set₁ ⊆ set₂ ∧ ∀ p ∈ ps, p ∈ set₂ := by
      intro ps
      induction ps with
      | nil => exact fun set₁ _ h => ⟨set₁, rfl, h, Finset.Subset.refl _, fun p hp => absurd hp List.not_mem_nil⟩
      | cons pred ps ihps =>
        intro set₁ hps h
        have hp := hps pred List.mem_cons_self
        rw [List.foldlM_cons]
        by_cases hmem : pred ∈ set₁
        · rw [if_pos hmem]
          obtain ⟨set₂, hrun, h₂, hle, hall⟩ := ihps set₁ (fun p hp => hps p (List.mem_cons_of_mem _ hp)) h
          exact ⟨set₂, hrun, h₂, hle, List.forall_mem_cons.mpr ⟨hle hmem, hall⟩⟩
        · rw [if_neg hmem]
          have hcard : (l.toFinset \ set₁).card ≤ fuel := by
            have hlt : (l.toFinset \ set₁).card < (l.toFinset \ set).card := by
              refine Finset.card_lt_card ⟨Finset.sdiff_subset_sdiff (Finset.Subset.refl _) h.le, fun hle => ?_⟩
              have hbb := hle (Finset.mem_sdiff.mpr ⟨List.mem_toFinset.mpr hb, hnew⟩)
              exact (Finset.mem_sdiff.mp hbb).2 h.self
            omega
          obtain ⟨set', hrun', h', hall'⟩ := ih set₁ pred (hpreds bb hb pred hp) hmem hcard
          rw [hrun', Option.bind_eq_bind, Option.bind_some]
          obtain ⟨set₂, hrun, h₂, hle, hall⟩ := ihps set' (fun p hp => hps p (List.mem_cons_of_mem _ hp))
            (h.trans hb hnew hp h' hall')
          exact ⟨set₂, hrun, h₂, h'.le.trans hle, List.forall_mem_cons.mpr ⟨hle h'.self, hall⟩⟩
    have hstart : Added l preds bb set (insert bb set) := by
      refine ⟨Finset.subset_insert _ _, Finset.mem_insert_self _ _, fun x hx hxset => ?_, fun x hx hxset hxb => ?_⟩
      · rw [(Finset.mem_insert.mp hx).resolve_right hxset]
        refine ⟨[bb], Walk.refl bb, fun y hy => ?_⟩
        rw [List.mem_singleton.mp hy]
        exact hnew
      · exact absurd ((Finset.mem_insert.mp hx).resolve_right hxset) hxb
    obtain ⟨set', hrun, h, -, hall⟩ := hfold (preds bb) (insert bb set) (fun _ hp => hp) hstart
    exact ⟨set', hrun, h, hall⟩

end Ancestors

/-- The entries of the graph. -/
def Cfg.Entry (g : Cfg) (e : Nat) : Prop := e ∈ g.order ∧ g.entry e = true

/-- The block set of a new loop. -/
theorem newLoop_spec {fuel bb : Nat} (succ : Nat) (hb : bb ∈ g.order) (hfuel : g.order.length ≤ fuel) :
    ∃ newloop, g.newLoop fuel bb succ = some newloop ∧ newloop.loophead = succ ∧ newloop.nestlevel = 1 ∧
      ∀ x, x ∈ newloop.bbset ↔ NaturalLoop g.Edge succ bb x := by
  unfold Cfg.newLoop
  split_ifs with heq
  · refine ⟨_, rfl, rfl, rfl, fun x => Finset.mem_singleton.trans ⟨Or.inl, ?_⟩⟩
    rintro (hx | ⟨l, hl, hmem⟩)
    · exact hx
    · rw [heq] at hl
      exact absurd hl.end_mem hmem
  · have hcard : (g.order.toFinset \ {succ}).card ≤ fuel :=
      ((Finset.card_le_card Finset.sdiff_subset).trans (List.toFinset_card_le _)).trans hfuel
    obtain ⟨set, hrun, h, hall⟩ := addAncestors_spec g.preds_mem fuel {succ} bb hb
      (fun hmem => heq (Finset.mem_singleton.mp hmem)) hcard
    rw [hrun]
    refine ⟨_, rfl, rfl, rfl, fun x => ⟨fun hx => ?_, ?_⟩⟩
    · by_cases hxs : x = succ
      · exact .inl hxs
      · obtain ⟨w, hw, havoid⟩ := h.reached x hx fun hmem => hxs (Finset.mem_singleton.mp hmem)
        rw [Cfg.link_preds] at hw
        obtain ⟨l, hl, hmem⟩ := hw.reverse
        exact .inr ⟨l, hl, fun hs => havoid succ ((hmem succ).mp hs) (Finset.mem_singleton_self succ)⟩
    · have hback : ∀ {x t : Nat} {l : List Nat}, Walk g.Edge x t l → t = bb → succ ∉ l → x ∈ set := by
        intro x t l hl ht
        induction hl with
        | refl =>
          intro _
          rw [ht]
          exact h.self
        | @cons x y t l he hl ih =>
          intro hs
          rw [List.mem_cons, not_or] at hs
          have hy := ih ht hs.2
          have hx := (Cfg.edge_iff_preds he.mem).mp he
          by_cases hyb : y = bb
          · exact hall x (hyb ▸ hx)
          · exact h.closed y hy (fun hmem => hs.2 (Finset.mem_singleton.mp hmem ▸ hl.start_mem)) hyb x hx
      rintro (rfl | ⟨l, hl, hs⟩)
      · exact h.le (Finset.mem_singleton_self x)
      · exact hback hl rfl hs

/-! ## The list while it grows -/

/-- The blocks of a descriptor are a union of natural loops with its head. -/
def LoopDescr.Part (g : Cfg) (c : LoopDescr) : Prop := LoopPart g.Edge g.Entry c.loophead (· ∈ c.bbset)

/-- One descriptor per head, and none that is contained in one before it. -/
structure Listed (g : Cfg) (loops : List LoopDescr) : Prop where
  part : ∀ c ∈ loops, c.Part g
  sorted : loops.Pairwise fun c d => c.loophead ≠ d.loophead ∧ ¬d.bbset ⊆ c.bbset

theorem LoopDescr.Part.subset_of_head {c d : LoopDescr} (hc : c.Part g) (hd : d.Part g) (hne : c.loophead ≠ d.loophead)
    (h : d.loophead ∈ c.bbset) : d.bbset ⊆ c.bbset :=
  fun _ hx => LoopPart.subset hc hd hne h hx

theorem mem_place {newloop d : LoopDescr} {loops : List LoopDescr} (h : d ∈ place newloop loops) :
    d ∈ loops ∨ d.loophead = newloop.loophead ∧ (newloop.nestlevel = 1 → d.nestlevel = 1) := by
  induction loops generalizing newloop with
  | nil =>
    rw [List.mem_singleton.mp h]
    exact .inr ⟨rfl, id⟩
  | cons cloop rest ih =>
    unfold place at h
    split_ifs at h with hhead hle
    · rcases ih h with h | h
      · exact .inl (List.mem_cons_of_mem _ h)
      · exact .inr h
    · rcases List.mem_cons.mp h with rfl | h
      · exact .inr ⟨rfl, id⟩
      · exact .inl h
    · rcases List.mem_cons.mp h with rfl | h
      · exact .inl List.mem_cons_self
      · exact (ih h).imp (List.mem_cons_of_mem _) id

/-- Entering a new loop keeps the order, whatever it is merged with on the way. -/
theorem place_listed {newloop : LoopDescr} {loops : List LoopDescr} (h : Listed g loops) (hnew : newloop.Part g) :
    Listed g (place newloop loops) := by
  induction loops generalizing newloop with
  | nil =>
    refine ⟨fun c hc => ?_, List.pairwise_singleton _ _⟩
    rw [List.mem_singleton.mp hc]
    exact hnew
  | cons cloop rest ih =>
    obtain ⟨hfirst, hsorted⟩ := List.pairwise_cons.mp h.sorted
    have hcloop := h.part cloop List.mem_cons_self
    have hrest : Listed g rest := ⟨fun c hc => h.part c (List.mem_cons_of_mem _ hc), hsorted⟩
    unfold place
    split_ifs with hhead hle
    · refine ih hrest ?_
      unfold LoopDescr.Part at hcloop
      rw [hhead] at hcloop
      have hunion := LoopPart.union hnew hcloop
      unfold LoopDescr.Part
      simp only [Finset.mem_union]
      exact hunion
    · -- the new loop is inside `cloop`, and so would be another loop with its head
      have hin : newloop.loophead ∈ cloop.bbset := hle hnew.head
      refine ⟨List.forall_mem_cons.mpr ⟨hnew, h.part⟩, List.pairwise_cons.mpr ⟨fun d hd => ?_, h.sorted⟩⟩
      rcases List.mem_cons.mp hd with rfl | hd
      · exact ⟨Ne.symm hhead, fun hback => LoopPart.head_not_mem hcloop hnew hhead hin (hback hcloop.head)⟩
      · obtain ⟨hne, hnot⟩ := hfirst d hd
        refine ⟨fun heq => hnot ?_, fun hback => hnot (hback.trans hle)⟩
        rw [heq] at hin
        exact hcloop.subset_of_head (hrest.part d hd) hne hin
    · have hplaced := ih hrest hnew
      refine ⟨List.forall_mem_cons.mpr ⟨hcloop, hplaced.part⟩, List.pairwise_cons.mpr ⟨fun d hd => ?_, hplaced.sorted⟩⟩
      rcases mem_place hd with hd' | ⟨heq, -⟩
      · exact hfirst d hd'
      · rw [heq]
        refine ⟨hhead, fun hsub => hle (hcloop.subset_of_head hnew hhead ?_)⟩
        rw [← heq]
        exact hsub (hplaced.part d hd).head

/-- Some descriptor with the head `h` has the block. -/
def Covers (loops : List LoopDescr) (h x : Nat) : Prop := ∃ c ∈ loops, c.loophead = h ∧ x ∈ c.bbset

theorem covers_cons {c : LoopDescr} {loops : List LoopDescr} {h x : Nat} :
    Covers (c :: loops) h x ↔ (c.loophead = h ∧ x ∈ c.bbset) ∨ Covers loops h x := List.exists_mem_cons_iff ..

theorem covers_place {newloop : LoopDescr} {loops : List LoopDescr} {h x : Nat} :
    Covers (place newloop loops) h x ↔ Covers loops h x ∨ newloop.loophead = h ∧ x ∈ newloop.bbset := by
  induction loops generalizing newloop with
  | nil =>
    unfold place
    rw [covers_cons, or_comm]
  | cons cloop rest ih =>
    unfold place
    split_ifs with hhead hle
    · rw [ih, covers_cons, Finset.mem_union, hhead]
      tauto
    · rw [covers_cons, or_comm]
    · rw [covers_cons, covers_cons, ih, or_assoc]

/-! ## The scan -/

namespace Cfg

/-- The dominator sets are right for the blocks that can be reached. -/
def DomsRight (g : Cfg) (dom : Sets) : Prop :=
  ∀ b ∈ g.order, Reached g.Edge g.Entry b → ∀ x, x ∈ dom b ↔ g.FromEntries x b

/-- Numbers as a depth-first search gives them: a block is an entry or was met from a block with a smaller number. -/
structure Numbered (g : Cfg) (dfo : Nat → Nat) : Prop where
  zero_iff : ∀ b ∈ g.order, dfo b = 0 ↔ ¬Reached g.Edge g.Entry b
  parent : ∀ b ∈ g.order, dfo b ≠ 0 → g.Entry b ∨ ∃ p, g.Edge p b ∧ dfo p ≠ 0 ∧ dfo p < dfo b

theorem reached_mem {b : Nat} (h : Reached g.Edge g.Entry b) : b ∈ g.order := by
  obtain ⟨e, he, l, hl⟩ := h
  exact walk_mem hl he.1 b hl.end_mem

theorem dominatesFrom_iff {a b : Nat} (hr : Reached g.Edge g.Entry b) :
    DominatesFrom g.Edge g.Entry a b ↔ g.FromEntries a b := by
  constructor
  · exact fun h e he hentry l hl => h.visits e l ⟨he, hentry⟩ hl
  · exact fun h => ⟨hr, fun e l he hl => h e he.1 he.2 l hl⟩

/-- A dominator has no larger number. -/
theorem Numbered.le_of_dominates {dfo : Nat → Nat} (h : g.Numbered dfo) {a b : Nat}
    (hdom : DominatesFrom g.Edge g.Entry a b) : dfo a ≤ dfo b := by
  generalize hn : dfo b = n
  induction n using Nat.strongRecOn generalizing b with
  | ind n ih =>
    by_cases hab : a = b
    · rw [hab, hn]
    · have hb := reached_mem hdom.reached
      have hne : dfo b ≠ 0 := fun hzero => (h.zero_iff b hb).mp hzero hdom.reached
      rcases h.parent b hb hne with hentry | ⟨p, he, hp, hlt⟩
      · exact absurd (List.mem_singleton.mp (hdom.visits b [b] hentry (Walk.refl b))) hab
      · have hpr : Reached g.Edge g.Entry p := by
          by_contra hnot
          exact hp ((h.zero_iff p he.1).mpr hnot)
        have hap : DominatesFrom g.Edge g.Entry a p := by
          refine ⟨hpr, fun e l hentry hl => ?_⟩
          exact (List.mem_append.mp (hdom.visits e _ hentry (hl.snoc he))).resolve_right fun hmem =>
            hab (List.mem_singleton.mp hmem)
        exact (ih _ (hn ▸ hlt) hap rfl).trans (hn ▸ hlt.le)

end Cfg

/-- The list after the edges of `D`. -/
structure Scanned (g : Cfg) (D : Nat → Nat → Prop) (loops : List LoopDescr) : Prop where
  listed : Listed g loops
  level : ∀ c ∈ loops, c.nestlevel = 1
  covers : ∀ h x, Covers loops h x ↔ ∃ t, D t h ∧ BackEdge g.Edge g.Entry t h ∧ NaturalLoop g.Edge h t x

theorem Scanned.congr {D D' : Nat → Nat → Prop} {loops : List LoopDescr} (hs : Scanned g D loops)
    (h : ∀ t h, BackEdge g.Edge g.Entry t h → (D t h ↔ D' t h)) : Scanned g D' loops := by
  refine ⟨hs.listed, hs.level, fun a x => (hs.covers a x).trans (exists_congr fun t => ?_)⟩
  constructor
  · rintro ⟨hD, hb, hx⟩
    exact ⟨(h t a hb).mp hD, hb, hx⟩
  · rintro ⟨hD, hb, hx⟩
    exact ⟨(h t a hb).mpr hD, hb, hx⟩

section Scan

variable {dom : Sets} {dfo : Nat → Nat} {fuel : Nat} (hdom : g.DomsRight dom) (hdfo : g.Numbered dfo)
  (hfuel : g.order.length ≤ fuel)
include hdom hdfo hfuel

/-- One edge. -/
theorem scanSucc_spec {D : Nat → Nat → Prop} {loops : List LoopDescr} {bb succ : Nat} (hs : Scanned g D loops)
    (hb : bb ∈ g.order) (hne : dfo bb ≠ 0) (he : succ ∈ g.succs bb) :
    ∃ loops', g.scanSucc dom dfo fuel bb loops succ = some loops' ∧
      Scanned g (fun t h => D t h ∨ t = bb ∧ h = succ) loops' := by
  have hr : Reached g.Edge g.Entry bb := by
    by_contra hnot
    exact hne ((hdfo.zero_iff bb hb).mpr hnot)
  have hskip : ¬BackEdge g.Edge g.Entry bb succ → Scanned g (fun t h => D t h ∨ t = bb ∧ h = succ) loops := by
    intro hnot
    refine hs.congr fun t h hback => (or_iff_left ?_).symm
    rintro ⟨rfl, rfl⟩
    exact hnot hback
  unfold Cfg.scanSucc
  split_ifs with hlt hmem
  · refine ⟨loops, rfl, hskip fun hback => ?_⟩
    have := hdfo.le_of_dominates hback.dominates
    omega
  · have hback : BackEdge g.Edge g.Entry bb succ :=
      ⟨⟨hb, he⟩, (Cfg.dominatesFrom_iff hr).mpr ((hdom bb hb hr succ).mp hmem)⟩
    obtain ⟨newloop, hrun, hhead, hlevel, hset⟩ := newLoop_spec succ hb hfuel
    have hpart : newloop.Part g := by
      unfold LoopDescr.Part
      rw [hhead]
      simp only [hset]
      exact naturalLoop_part hback
    rw [hrun]
    refine ⟨_, rfl, place_listed hs.listed hpart, fun c hc => ?_, fun h x => ?_⟩
    · rcases mem_place hc with hc | ⟨-, hc⟩
      · exact hs.level c hc
      · exact hc hlevel
    · rw [covers_place, hs.covers, hset, hhead]
      constructor
      · rintro (⟨t, hD, ht, hx⟩ | ⟨rfl, hx⟩)
        · exact ⟨t, .inl hD, ht, hx⟩
        · exact ⟨bb, .inr ⟨rfl, rfl⟩, hback, hx⟩
      · rintro ⟨t, hD | ⟨rfl, rfl⟩, ht, hx⟩
        · exact .inl ⟨t, hD, ht, hx⟩
        · exact .inr ⟨rfl, hx⟩
  · refine ⟨loops, rfl, hskip fun hback => hmem ?_⟩
    exact (hdom bb hb hr succ).mpr ((Cfg.dominatesFrom_iff hr).mp hback.dominates)

theorem scanSuccs_spec {bb : Nat} (hb : bb ∈ g.order) (hne : dfo bb ≠ 0) : ∀ (succs : List Nat)
    {D : Nat → Nat → Prop} {loops : List LoopDescr}, (∀ s ∈ succs, s ∈ g.succs bb) → Scanned g D loops →
    ∃ loops', succs.foldlM (g.scanSucc dom dfo fuel bb) loops = some loops' ∧
      Scanned g (fun t h => D t h ∨ t = bb ∧ h ∈ succs) loops' := by
  intro succs
  induction succs with
  | nil => exact fun _ hs => ⟨_, rfl, hs.congr fun t h _ => by simp⟩
  | cons succ succs ih =>
    intro D loops hsuccs hs
    obtain ⟨loops₁, hrun₁, hs₁⟩ := scanSucc_spec hdom hdfo hfuel hs hb hne (hsuccs succ List.mem_cons_self)
    obtain ⟨loops₂, hrun₂, hs₂⟩ := ih (fun s hmem => hsuccs s (List.mem_cons_of_mem _ hmem)) hs₁
    refine ⟨loops₂, ?_, hs₂.congr fun t h _ => ?_⟩
    · rw [List.foldlM_cons, hrun₁]
      exact hrun₂
    · rw [List.mem_cons]
      tauto

theorem scanBlock_spec {D : Nat → Nat → Prop} {loops : List LoopDescr} {bb : Nat} (hs : Scanned g D loops)
    (hb : bb ∈ g.order) : ∃ loops', g.scanBlock dom dfo fuel loops bb = some loops' ∧
      Scanned g (fun t h => D t h ∨ t = bb ∧ h ∈ g.succs bb) loops' := by
  unfold Cfg.scanBlock
  split_ifs with hzero
  · refine ⟨loops, rfl, hs.congr fun t h hback => (or_iff_left ?_).symm⟩
    rintro ⟨rfl, -⟩
    exact (hdfo.zero_iff t hb).mp hzero hback.dominates.reached
  · exact scanSuccs_spec hdom hdfo hfuel hb hzero (g.succs bb) (fun _ h => h) hs

/-- The list after the scan covers just the natural loops of the back edges. -/
theorem scan_spec : ∃ loops, g.order.foldlM (g.scanBlock dom dfo fuel) [] = some loops ∧
    Scanned g (fun _ _ => True) loops := by
  have hfold : ∀ (bs : List Nat) {D : Nat → Nat → Prop} {loops : List LoopDescr}, (∀ b ∈ bs, b ∈ g.order) →
      Scanned g D loops → ∃ loops', bs.foldlM (g.scanBlock dom dfo fuel) loops = some loops' ∧
        Scanned g (fun t h => D t h ∨ t ∈ bs ∧ h ∈ g.succs t) loops' := by
    intro bs
    induction bs with
    | nil => exact fun _ hs => ⟨_, rfl, hs.congr fun t h _ => by simp⟩
    | cons b bs ih =>
      intro D loops hbs hs
      obtain ⟨loops₁, hrun₁, hs₁⟩ := scanBlock_spec hdom hdfo hfuel hs (hbs b List.mem_cons_self)
      obtain ⟨loops₂, hrun₂, hs₂⟩ := ih (fun b hmem => hbs b (List.mem_cons_of_mem _ hmem)) hs₁
      refine ⟨loops₂, ?_, hs₂.congr fun t h _ => ?_⟩
      · rw [List.foldlM_cons, hrun₁]
        exact hrun₂
      · rw [List.mem_cons, or_and_right, or_assoc]
        refine or_congr_right (or_congr_left ⟨?_, ?_⟩)
        · rintro ⟨rfl, hmem⟩
          exact ⟨rfl, hmem⟩
        · rintro ⟨rfl, hmem⟩
          exact ⟨rfl, hmem⟩
  have hempty : Scanned g (fun _ _ => False) [] := by
    refine ⟨⟨fun c hc => absurd hc List.not_mem_nil, List.Pairwise.nil⟩, fun c hc => absurd hc List.not_mem_nil,
      fun h x => ⟨?_, ?_⟩⟩
    · rintro ⟨c, hc, -⟩
      exact absurd hc List.not_mem_nil
    · rintro ⟨t, hfalse, -⟩
      exact hfalse.elim
  obtain ⟨loops, hrun, hs⟩ := hfold g.order (fun _ hb => hb) hempty
  exact ⟨loops, hrun, hs.congr fun t h hback => ⟨fun _ => trivial, fun _ => .inr hback.edge⟩⟩

end Scan

end Path64.Cg

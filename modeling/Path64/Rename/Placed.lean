import Path64.Rename.Clear
import Path64.Rename.Insert
import Path64.Rename.Relink

/-!
# Exactly the needed phis

* `Prog.Exact` : exact dominance frontiers, in blocks with phi lists;
* `IteratedFrontier` : where a variable needs a phi;
* `Placed` : what `Insert_delete_phi` is to leave;
* `NoStaleZero`, `SmallDegrees` : the deletions of its first loop fit, and so do the new phis into their size;
* `placed_iff` : it leaves it exactly when both hold.
-/

namespace Path64.Rename

open Path64.Flow (Frontier Walk Dominates)
open Path64.Lists (Links)
open Path64.Lib (Marks)

/-! ## What is to be left -/

/-- `Pred ()` holds the sources of the edges. -/
def Prog.Edge (P : Prog) (a b : Nat) : Prop := a ∈ P.preds b

/-- The dominance frontiers are exact, and the blocks of a frontier have phi lists. -/
structure Prog.Exact (P : Prog) : Prop where
  nodup : P.blocks.Nodup
  blocks : ∀ b, P.hasPhiList b = true → b ∈ P.blocks
  frontier : ∀ x y, y ∈ P.domFrontier x ↔ Frontier P.Edge P.entry x y
  phiList : ∀ x y, Frontier P.Edge P.entry x y → P.hasPhiList y = true

/-- The iterated dominance frontier of the blocks that define the variable. -/
inductive IteratedFrontier (P : Prog) (v : Nat) : Nat → Prop
  | base {b y : Nat} : b ∈ P.blocks → P.Defines b v → Frontier P.Edge P.entry b y → IteratedFrontier P v y
  | step {x y : Nat} : IteratedFrontier P v x → Frontier P.Edge P.entry x y → IteratedFrontier P v y

/-- The blocks have exactly the phis that are needed, in well-formed lists. -/
structure Placed (P : Prog) (s : State) (lists : Nat → List Nat) : Prop where
  links : ∀ b, Links s.next (s.head b) (lists b)
  tail : ∀ b, P.hasPhiList b = true → s.tail b = lastPhi (lists b)
  bb : ∀ b, ∀ p ∈ lists b, (s.node p).bb = b
  needed : ∀ b v, (∃ p ∈ lists b, (s.node p).auxId = v) ↔ IteratedFrontier P v b
  one : ∀ b, ∀ p ∈ lists b, ∀ q ∈ lists b, (s.node p).auxId = (s.node q).auxId → p = q
  size : ∀ b, ∀ p ∈ lists b, (s.node p).size = (P.preds b).length
  visited : ∀ b, ∀ p ∈ lists b, s.visited p = false
  hash : ∀ b v p, s.hash b v = some p ↔ p ∈ lists b ∧ (s.node p).auxId = v

/-! ## When it is -/

/-- The phis that the first loop deletes fit. -/
def NoStaleZero (P : Prog) (σ : State) (lists : Nat → List Nat) : Prop :=
  ∀ x ∈ deletions P σ lists [] P.blocks, Fits P σ (deletions P σ lists [] P.blocks) x.2

/-- The number of predecessors fits into `Size ()` wherever a phi is needed. -/
def SmallDegrees (P : Prog) : Prop := ∀ b v, IteratedFrontier P v b → (P.preds b).length < 2 ^ 15

variable {P : Prog} {σ s : State} {lists : Nat → List Nat}

theorem iteratedFrontier_iff (hP : P.Exact) (v b : Nat) :
    (∃ r ∈ {x : Nat × Nat | ∃ b ∈ P.blocks, P.Defines b x.1 ∧ x.2 ∈ P.domFrontier b},
      Relation.ReflTransGen P.Next r (v, b)) ↔ IteratedFrontier P v b := by
  constructor
  · rintro ⟨⟨w, y⟩, ⟨c, hc, hdef, hy⟩, hreach⟩
    -- all steps keep the variable
    have hall : ∀ z, Relation.ReflTransGen P.Next (w, y) z → z.1 = w ∧ IteratedFrontier P w z.2 := by
      intro z hz
      induction hz with
      | refl => exact ⟨rfl, .base hc hdef ((hP.frontier c y).mp hy)⟩
      | tail _ hnext ih => exact ⟨hnext.1.trans ih.1, ih.2.step ((hP.frontier _ _).mp hnext.2)⟩
    obtain ⟨rfl, h⟩ := hall _ hreach
    exact h
  · intro h
    induction h with
    | @base c y hc hdef hy => exact ⟨(v, y), ⟨c, hc, hdef, (hP.frontier c y).mpr hy⟩, .refl⟩
    | @step x y _ hy ih =>
      obtain ⟨r, hr, hreach⟩ := ih
      exact ⟨r, hr, hreach.tail ⟨rfl, (hP.frontier x y).mpr hy⟩⟩

theorem placed_of_marked (hP : P.Exact) (h : Placing P s) (hmarked : ∀ v b, (v, b) ∈ marked s ↔ IteratedFrontier P v b) :
    ∃ s', P.blocks.foldlM (relink P) s = some s' ∧ ∃ lists, Placed P s' lists := by
  obtain ⟨⟨lists, hlisted⟩, hdegree⟩ := h
  obtain ⟨s', hrun, hlisted', hnode, hdegree', hvis⟩ := relinkBlocks_spec hlisted hdegree hP.nodup
  have hmem : ∀ b p, p ∈ (if b ∈ P.blocks then (lists b).filter s.visited else lists b) ↔
      p ∈ lists b ∧ s.visited p = true := by
    intro b p
    by_cases hb : b ∈ P.blocks
    · rw [if_pos hb, List.mem_filter]
    · rw [if_neg hb]
      exact (and_iff_left_of_imp fun hp => absurd (hP.blocks b (hlisted.hasPhiList hp)) hb).symm
  refine ⟨s', hrun, _, hlisted'.links, hlisted'.tail, hlisted'.bb, fun b v => ?_, fun b p hp q hq => hlisted'.eq_of_aux hp hq,
    fun b p hp => ?_, fun b p hp => ?_, hlisted'.hash⟩
  · rw [← hmarked]
    constructor
    · rintro ⟨p, hp, hv⟩
      obtain ⟨hp, hvisited⟩ := (hmem b p).mp hp
      rw [hnode] at hv
      exact ⟨p, (hlisted.hash b v p).mpr ⟨hp, hv⟩, hvisited⟩
    · rintro ⟨p, hp, hvisited⟩
      obtain ⟨hp, hv⟩ := (hlisted.hash b v p).mp hp
      exact ⟨p, (hmem b p).mpr ⟨hp, hvisited⟩, hnode ▸ hv⟩
  · rw [(hlisted'.size b p hp).1, hdegree']
    exact hdegree b (hlisted'.hasPhiList hp)
  · have hb := hP.blocks b (hlisted'.hasPhiList hp)
    refine eq_false_of_ne_true fun hvisited => ?_
    exact ((hvis p).mp hvisited).2 b hb ((hmem b p).mp hp).1

/-- `Insert_delete_phi` leaves exactly the needed phis when the first loop can fix all zero versions of the phis that
it deletes and every new phi has the operands it needs. -/
theorem placed_iff (P : Prog) (σ : State) (lists : Nat → List Nat) (hP : P.Exact) (h : Listed P σ lists) :
    (∃ s, insertDeletePhi P σ = some s ∧ ∃ lists', Placed P s lists') ↔ NoStaleZero P σ lists ∧ SmallDegrees P := by
  have hlist : ∀ x y, y ∈ P.domFrontier x → P.hasPhiList y = true := fun x y hy =>
    hP.phiList x y ((hP.frontier x y).mp hy)
  have hclear := clear_spec hP.nodup hP.blocks h
  unfold insertDeletePhi
  by_cases hstale : NoStaleZero P σ lists
  · obtain ⟨s₁, hrun₁, hplacing₁, hvisited₁⟩ := hclear.of_ok hstale
    have hnone : marked s₁ = ∅ := Set.eq_empty_of_forall_notMem fun x ⟨p, hp, hvisited⟩ => by
      rw [hvisited₁ _ _ p hp] at hvisited
      exact Bool.false_ne_true hvisited
    rw [hrun₁, Option.bind_eq_bind, Option.bind_some, and_iff_right hstale]
    rcases markBlocks_places hlist hP.blocks hplacing₁ with ⟨s₂, hrun₂, hplacing₂, hmarks⟩ | ⟨hrun₂, r, hr, y, hreach, hbig⟩
    · have hmarked : ∀ v b, (v, b) ∈ marked s₂ ↔ IteratedFrontier P v b := fun v b => by
        rw [hnone] at hmarks
        rw [hmarks.mem_iff]
        exact iteratedFrontier_iff hP v b
      obtain ⟨s₃, hrun₃, hplaced⟩ := placed_of_marked hP hplacing₂ hmarked
      rw [hrun₂, Option.bind_some]
      refine iff_of_true ⟨s₃, hrun₃, hplaced⟩ fun b v hb => ?_
      -- the phi that is there has a size that fits
      obtain ⟨p, hp, -⟩ := (hmarked v b).mpr hb
      obtain ⟨lists₂, hlisted₂⟩ := hplacing₂.listed
      have hp := ((hlisted₂.hash b v p).mp hp).1
      rw [← hplacing₂.inDegree b (hlisted₂.hasPhiList hp)]
      exact (hlisted₂.size b p hp).2
    · rw [hrun₂]
      refine iff_of_false (fun ⟨s, hs, _⟩ => absurd hs.symm (Option.some_ne_none s)) fun hsmall => ?_
      have := hsmall y.2 y.1 ((iteratedFrontier_iff hP y.1 y.2).mp ⟨r, hr, hreach⟩)
      omega
  · rw [hclear.of_not hstale]
    exact iff_of_false (fun ⟨s, hs, _⟩ => absurd hs.symm (Option.some_ne_none s)) fun h => hstale h.1

/-! ## A loop that has lost an edge -/

/-- A loop of one block after the entry, which stores to the variable 7. -/
def selfLoop : Prog where
  entry := 0
  blocks := [0, 1]
  preds b := if b = 1 then [0, 1] else []
  idom b := if b = 1 then some 0 else none
  depth b := if b = 1 then 1 else 0
  idom_lt := fun b a h => by
    by_cases hb : b = 1
    · rw [if_pos hb] at h ⊢
      rw [← Option.some_inj.mp h]
      decide
    · rw [if_neg hb] at h
      exact absurd h.symm (Option.some_ne_none a)
  domFrontier b := if b = 1 then [1] else []
  hasPhiList b := b == 1
  stmts b := if b = 1 then [⟨some 7, []⟩] else []
  volatile _ := false

/-- The loop has a live phi for the variable, whose operand at the index 2 is a zero version, and `size` predecessors. -/
def onePhi (size : Nat) : State where
  fresh := 1
  node _ := ⟨7, 1, size⟩
  next _ := -1
  head b := if b = 1 then 0 else -1
  tail b := if b = 1 then 0 else -1
  inDegree b := if b = 1 then size else 0
  live _ := true
  dead _ := false
  visited _ := true
  opndZero _ k := k == 2
  resultZero _ := false
  hash b v := if b = 1 ∧ v = 7 then some 0 else none

theorem selfLoop_edge {a b : Nat} : selfLoop.Edge a b ↔ b = 1 ∧ (a = 0 ∨ a = 1) := by
  unfold Prog.Edge selfLoop
  dsimp only
  by_cases hb : b = 1
  · rw [if_pos hb, and_iff_right hb, List.mem_cons, List.mem_singleton]
  · rw [if_neg hb]
    exact iff_of_false List.not_mem_nil fun h => hb h.1

theorem selfLoop_exact : selfLoop.Exact := by
  have hwalk : Walk selfLoop.Edge 0 1 [0, 1] := .cons (selfLoop_edge.mpr ⟨rfl, .inl rfl⟩) (.refl 1)
  have hentry : Flow.StrictlyDominates selfLoop.Edge 0 0 1 := ⟨⟨⟨_, hwalk⟩, fun l hl => hl.start_mem⟩, by decide⟩
  have hfrontier : ∀ x y, Frontier selfLoop.Edge 0 x y ↔ x = 1 ∧ y = 1 := by
    intro x y
    constructor
    · rintro ⟨⟨p, hp, hdom⟩, hnot⟩
      obtain ⟨rfl, hsource⟩ := selfLoop_edge.mp hp
      have hx : x = 0 ∨ x = 1 := by
        rcases hsource with rfl | rfl
        · exact .inl (List.mem_singleton.mp (hdom.2 _ (.refl 0)))
        · exact List.mem_pair.mp (hdom.2 _ hwalk)
      rcases hx with rfl | rfl
      · exact absurd hentry hnot
      · exact ⟨rfl, rfl⟩
    · rintro ⟨rfl, rfl⟩
      exact ⟨⟨1, selfLoop_edge.mpr ⟨rfl, .inr rfl⟩, Dominates.refl ⟨_, hwalk⟩⟩, fun h => h.2 rfl⟩
  refine ⟨by decide, fun b hb => ?_, fun x y => ?_, fun x y hy => ?_⟩
  · have hb : b = 1 := beq_iff_eq.mp hb
    subst hb
    decide
  · refine Iff.trans ?_ (hfrontier x y).symm
    show y ∈ (if x = 1 then [1] else []) ↔ _
    by_cases hx : x = 1
    · rw [if_pos hx, and_iff_right hx, List.mem_singleton]
    · rw [if_neg hx]
      exact iff_of_false List.not_mem_nil fun h => hx h.1
  · rw [((hfrontier x y).mp hy).2]
    rfl

theorem onePhi_listed {size : Nat} (hsize : size < 2 ^ 15) :
    Listed selfLoop (onePhi size) fun b => if b = 1 then [0] else [] := by
  have hmem : ∀ b p, p ∈ (if b = 1 then [0] else []) ↔ b = 1 ∧ p = 0 := by
    intro b p
    by_cases hb : b = 1
    · rw [if_pos hb, List.mem_singleton, and_iff_right hb]
    · rw [if_neg hb]
      exact iff_of_false List.not_mem_nil fun h => hb h.1
  refine ⟨fun b => ?_, fun b hb => ?_, fun b hb => ?_, fun b p hp => ?_, fun b p hp => ?_, fun b p hp => ?_,
    fun b v p => ?_⟩
  · unfold onePhi
    dsimp only
    split_ifs
    · exact ⟨rfl, rfl⟩
    · rfl
  · rw [show b = 1 from beq_iff_eq.mp hb]
    rfl
  · exact if_neg (beq_eq_false_iff_ne.mp hb)
  · rw [((hmem b p).mp hp).2]
    exact Nat.one_pos
  · exact ((hmem b p).mp hp).1.symm
  · rw [((hmem b p).mp hp).1]
    exact ⟨rfl, hsize⟩
  · rw [hmem]
    unfold onePhi
    dsimp only
    by_cases hbv : b = 1 ∧ v = 7
    · rw [if_pos hbv, Option.some_inj]
      exact ⟨fun h => ⟨⟨hbv.1, h.symm⟩, hbv.2.symm⟩, fun h => h.1.2.symm⟩
    · rw [if_neg hbv]
      exact ⟨fun h => absurd h.symm (Option.some_ne_none p), fun h => absurd ⟨h.1.1, h.2.symm⟩ hbv⟩

/-- The phi of the loop is kept. -/
theorem placed_iff_selfLoop :
    ∃ s, insertDeletePhi selfLoop (onePhi 2) = some s ∧ ∃ lists, Placed selfLoop s lists := by
  refine (placed_iff selfLoop (onePhi 2) (fun b => if b = 1 then [0] else []) selfLoop_exact
    (onePhi_listed (by decide))).mpr ⟨fun x hx => ?_, fun b v _ => ?_⟩
  · exact absurd hx List.not_mem_nil
  · show (if b = 1 then [0, 1] else []).length < 2 ^ 15
    split_ifs <;> decide

/-- When the loop has lost an edge, the deletion of its phi asks for the third predecessor. -/
theorem not_placed_lostEdge : selfLoop.Exact ∧
    (Listed selfLoop (onePhi 3) fun b => if b = 1 then [0] else []) ∧
    ¬∃ s, insertDeletePhi selfLoop (onePhi 3) = some s ∧ ∃ lists, Placed selfLoop s lists := by
  refine ⟨selfLoop_exact, onePhi_listed (by decide), ?_⟩
  rintro ⟨s, hs, -⟩
  have hnone : insertDeletePhi selfLoop (onePhi 3) = none := rfl
  exact absurd (hs.symm.trans hnone) (Option.some_ne_none s)

end Path64.Rename

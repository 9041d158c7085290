import Path64.Lib.Dominance
import Mathlib.Data.Finset.Sort

/-!
# Dominance frontiers of a control-flow graph

* `Cfg` : the blocks with their successors, predecessors and the fields of the dominator and postdominator
  trees;
* `unionNotIdom` : the inner loops of both functions;
* `domComputeDomFrontier`, `domComputeRcfgDomFrontier` : the two recursive functions, which store the set of a
  block after those of the blocks below it;
* `Tree` : a correct dominator tree of a graph;
* `frontiers_exact` : the stored sets are the dominance frontiers of the graph and of the reversed graph.
-/

namespace Path64.Dom

open Path64.Flow

/-- A `CFG`; blocks are given by their ids. -/
structure Cfg where
  entryBb : Nat
  exitBb : Nat
  lastBbId : Nat
  succ : Nat → List Nat
  pred : Nat → List Nat
  idom : Nat → Option Nat
  ipdom : Nat → Option Nat
  domBbs : Nat → List Nat
  pdomBbs : Nat → List Nat
  entry_le : entryBb ≤ lastBbId
  exit_le : exitBb ≤ lastBbId
  succ_le : ∀ b, ∀ s ∈ succ b, s ≤ lastBbId
  pred_le : ∀ b, ∀ s ∈ pred b, s ≤ lastBbId
  mem_pred : ∀ b p, p ∈ pred b ↔ b ∈ succ p

/-- The sets stored in the blocks; a block that was not visited has none. -/
abbrev Sets := Nat → Option (Finset Nat)

/-- Adds the blocks of a list whose immediate dominator is not `bbx`. -/
def unionNotIdom (idom : Nat → Option Nat) (bbx : Nat) (ys : List Nat) (dfx : Finset Nat) : Finset Nat :=
  ys.foldl (fun dfx bby => if idom bby ≠ some bbx then insert bby dfx else dfx) dfx

/-- `Dom_compute_dom_frontier`. -/
def domComputeDomFrontier (cfg : Cfg) : Nat → Sets → Nat → Option Sets
  | 0, _, _ => none
  | fuel + 1, df, bbx => do
    let df ← (cfg.domBbs bbx).foldlM (domComputeDomFrontier cfg fuel) df
    let dfx := unionNotIdom cfg.idom bbx (cfg.succ bbx) ∅
    let dfx ← (cfg.domBbs bbx).foldlM (fun dfx bbz => do
      let dfz ← df bbz
      pure (unionNotIdom cfg.idom bbx (dfz.sort (· ≤ ·)) dfx)) dfx
    pure (Function.update df bbx (some dfx))

/-- `Dom_compute_rcfg_dom_frontier`, which changes the set of the block in place. -/
def domComputeRcfgDomFrontier (cfg : Cfg) : Nat → Sets → Nat → Option Sets
  | 0, _, _ => none
  | fuel + 1, df, block => do
    let df ← (cfg.pdomBbs block).foldlM (domComputeRcfgDomFrontier cfg fuel) df
    let df := Function.update df block (some (unionNotIdom cfg.ipdom block (cfg.pred block) ∅))
    (cfg.pdomBbs block).foldlM (fun df z => do
      let dfz ← df z
      let own ← df block
      pure (Function.update df block (some (unionNotIdom cfg.ipdom block (dfz.sort (· ≤ ·)) own)))) df

/-- `CFG::Compute_dom_frontier`. -/
def computeDomFrontier (cfg : Cfg) : Option Sets :=
  if cfg.domBbs cfg.entryBb = [] then none
  else domComputeDomFrontier cfg (cfg.lastBbId + 1) (fun _ => none) cfg.entryBb

/-- `CFG::Compute_control_dependence`. -/
def computeControlDependence (cfg : Cfg) : Option Sets :=
  if cfg.domBbs cfg.entryBb = [] then none
  else domComputeRcfgDomFrontier cfg (cfg.lastBbId + 1) (fun _ => none) cfg.exitBb

theorem mem_unionNotIdom {idom : Nat → Option Nat} {bbx : Nat} {ys : List Nat} {dfx : Finset Nat} {y : Nat} :
    y ∈ unionNotIdom idom bbx ys dfx ↔ y ∈ dfx ∨ y ∈ ys ∧ idom y ≠ some bbx := by
  induction ys generalizing dfx with
  | nil => simp [unionNotIdom]
  | cons v ys ih =>
    have hstep : unionNotIdom idom bbx (v :: ys) dfx =
        unionNotIdom idom bbx ys (if idom v ≠ some bbx then insert v dfx else dfx) := rfl
    rw [hstep, ih, List.mem_cons]
    by_cases hv : idom v ≠ some bbx
    · rw [if_pos hv, Finset.mem_insert]
      constructor
      · rintro ((rfl | h) | h)
        · exact Or.inr ⟨Or.inl rfl, hv⟩
        · exact Or.inl h
        · exact Or.inr ⟨Or.inr h.1, h.2⟩
      · rintro (h | ⟨rfl | h, hy⟩)
        · exact Or.inl (Or.inr h)
        · exact Or.inl (Or.inl rfl)
        · exact Or.inr ⟨h, hy⟩
    · rw [if_neg hv]
      constructor
      · rintro (h | h)
        · exact Or.inl h
        · exact Or.inr ⟨Or.inr h.1, h.2⟩
      · rintro (h | ⟨rfl | h, hy⟩)
        · exact Or.inl h
        · exact absurd hy hv
        · exact Or.inr ⟨h, hy⟩

/-! ## Correct dominator trees -/

/-- The edges that a list of successors gives. -/
def Edge (next : Nat → List Nat) (u v : Nat) : Prop := v ∈ next u

/-- The fields of the blocks hold the dominator tree of the graph. -/
structure Tree (next : Nat → List Nat) (root : Nat) (idom : Nat → Option Nat) (domBbs : Nat → List Nat) : Prop where
  root_idom : idom root = none
  idom_correct : ∀ b, Reaches (Edge next) root b → b ≠ root →
    ∃ a, idom b = some a ∧ ImmediateDominator (Edge next) root a b
  domBbs_iff : ∀ a b, Reaches (Edge next) root a →
    (b ∈ domBbs a ↔ Reaches (Edge next) root b ∧ idom b = some a)

namespace Tree

variable {next : Nat → List Nat} {root : Nat} {idom : Nat → Option Nat} {domBbs : Nat → List Nat} {x y z : Nat}

theorem exists_idom (h : Tree next root idom domBbs) (b : Nat) (hb : Reaches (Edge next) root b) (hne : b ≠ root) :
    ∃ a, ImmediateDominator (Edge next) root a b := by
  obtain ⟨a, -, ha⟩ := h.idom_correct b hb hne
  exact ⟨a, ha⟩

theorem idom_eq_iff (h : Tree next root idom domBbs) (hy : Reaches (Edge next) root y) :
    idom y = some x ↔ ImmediateDominator (Edge next) root x y := by
  by_cases hroot : y = root
  · rw [hroot, h.root_idom]
    constructor
    · intro heq
      cases heq
    · intro himm
      exact absurd (List.mem_singleton.mp (himm.strict.1.2 [root] (Walk.refl root))) himm.strict.2
  · obtain ⟨a, ha, himm⟩ := h.idom_correct y hy hroot
    rw [ha, Option.some.injEq]
    constructor
    · rintro rfl
      exact himm
    · exact fun hx => himm.unique hx

theorem mem_domBbs (h : Tree next root idom domBbs) (hx : Reaches (Edge next) root x) :
    z ∈ domBbs x ↔ ImmediateDominator (Edge next) root x z := by
  rw [h.domBbs_iff x z hx]
  constructor
  · rintro ⟨hz, heq⟩
    exact (h.idom_eq_iff hz).mp heq
  · intro himm
    exact ⟨himm.strict.1.1, (h.idom_eq_iff himm.strict.1.1).mpr himm⟩

end Tree

/-! ## The loops of one block -/

/-- The set stored for the block is its frontier. -/
def Stored (E : Nat → Nat → Prop) (r : Nat) (df : Sets) (x : Nat) : Prop :=
  ∃ s, df x = some s ∧ ∀ y, y ∈ s ↔ Frontier E r x y

/-- A visit of `x` stores the sets of all blocks that `x` dominates and changes no other one. -/
def Visits (E : Nat → Nat → Prop) (r : Nat) (visit : Sets → Nat → Option Sets) (x : Nat) : Prop :=
  ∀ df, ∃ df', visit df x = some df' ∧
    ∀ d, (Dominates E r x d → Stored E r df' d) ∧ (¬ Dominates E r x d → df' d = df d)

section

variable {E : Nat → Nat → Prop} {r : Nat} {visit : Sets → Nat → Option Sets}

theorem visits_all (zs : List Nat) : ∀ (df : Sets), (∀ z ∈ zs, Visits E r visit z) →
    ∃ df', zs.foldlM visit df = some df' ∧ (∀ z ∈ zs, ∀ d, Dominates E r z d → Stored E r df' d) ∧
      ∀ d, (∀ z ∈ zs, ¬ Dominates E r z d) → df' d = df d := by
  induction zs with
  | nil => exact fun df _ => ⟨df, rfl, fun z hz => absurd hz List.not_mem_nil, fun _ _ => rfl⟩
  | cons z zs ih =>
    intro df hzs
    obtain ⟨df₁, hrun₁, h₁⟩ := hzs z (List.mem_cons_self ..) df
    obtain ⟨df', hrun', hstored, hsame⟩ := ih df₁ fun q hq => hzs q (List.mem_cons_of_mem _ hq)
    refine ⟨df', ?_, ?_, ?_⟩
    · rw [List.foldlM_cons, hrun₁]
      exact hrun'
    · intro q hq d hd
      by_cases hlater : ∃ z' ∈ zs, Dominates E r z' d
      · obtain ⟨z', hz', hd'⟩ := hlater
        exact hstored z' hz' d hd'
      · push Not at hlater
        rcases List.mem_cons.mp hq with rfl | hq
        · rw [Stored, hsame d hlater]
          exact (h₁ d).1 hd
        · exact absurd hd (hlater q hq)
    · intro d hd
      rw [hsame d fun q hq => hd q (List.mem_cons_of_mem _ hq), (h₁ d).2 (hd z (List.mem_cons_self ..))]

/-- The loop over the sets of the blocks below. -/
theorem union_all (idom : Nat → Option Nat) (x : Nat) {df : Sets} (zs : List Nat) : ∀ (dfx : Finset Nat),
    (∀ z ∈ zs, Stored E r df z) →
    ∃ dfx', zs.foldlM (fun dfx bbz => do
        let dfz ← df bbz
        pure (unionNotIdom idom x (dfz.sort (· ≤ ·)) dfx)) dfx = some dfx' ∧
      ∀ y, y ∈ dfx' ↔ y ∈ dfx ∨ (∃ z ∈ zs, Frontier E r z y) ∧ idom y ≠ some x := by
  induction zs with
  | nil =>
    intro dfx _
    refine ⟨dfx, rfl, ?_⟩
    intro y
    simp
  | cons z zs ih =>
    intro dfx hzs
    obtain ⟨dfz, hz, hmem⟩ := hzs z (List.mem_cons_self ..)
    obtain ⟨dfx', hrun, hmem'⟩ := ih (unionNotIdom idom x (dfz.sort (· ≤ ·)) dfx)
      fun q hq => hzs q (List.mem_cons_of_mem _ hq)
    refine ⟨dfx', ?_, ?_⟩
    · rw [List.foldlM_cons, hz]
      exact hrun
    · intro y
      rw [hmem' y, mem_unionNotIdom, Finset.mem_sort, hmem y]
      constructor
      · rintro ((h | h) | ⟨⟨q, hq, hy⟩, hne⟩)
        · exact Or.inl h
        · exact Or.inr ⟨⟨z, List.mem_cons_self .., h.1⟩, h.2⟩
        · exact Or.inr ⟨⟨q, List.mem_cons_of_mem _ hq, hy⟩, hne⟩
      · rintro (h | ⟨⟨q, hq, hy⟩, hne⟩)
        · exact Or.inl (Or.inl h)
        · rcases List.mem_cons.mp hq with rfl | hq
          · exact Or.inl (Or.inr ⟨hy, hne⟩)
          · exact Or.inr ⟨⟨q, hq, hy⟩, hne⟩

theorem union_in_place (idom : Nat → Option Nat) {x : Nat} (df : Sets) (zs : List Nat) : ∀ (own : Finset Nat),
    x ∉ zs →
    zs.foldlM (fun df z => do
        let dfz ← df z
        let own ← df x
        pure (Function.update df x (some (unionNotIdom idom x (dfz.sort (· ≤ ·)) own))))
      (Function.update df x (some own)) =
    (zs.foldlM (fun dfx bbz => do
        let dfz ← df bbz
        pure (unionNotIdom idom x (dfz.sort (· ≤ ·)) dfx)) own).map fun own => Function.update df x (some own) := by
  induction zs with
  | nil => exact fun own _ => rfl
  | cons z zs ih =>
    intro own hx
    have hzx : z ≠ x := fun heq => hx (heq ▸ List.mem_cons_self ..)
    have hxs : x ∉ zs := fun hmem => hx (List.mem_cons_of_mem _ hmem)
    rw [List.foldlM_cons, List.foldlM_cons, Function.update_of_ne hzx, Function.update_self]
    cases hz : df z with
    | none => rfl
    | some dfz =>
      simp only [Option.bind_eq_bind, Option.bind_some, Option.pure_def]
      rw [Function.update_idem]
      exact ih (unionNotIdom idom x (dfz.sort (· ≤ ·)) own) hxs

end

section

variable {next : Nat → List Nat} {root : Nat} {idom : Nat → Option Nat} {domBbs : Nat → List Nat} {x : Nat}

/-- The blocks that are dominated by `x`, up to the largest id. -/
noncomputable def dominated (next : Nat → List Nat) (root last x : Nat) : Finset Nat :=
  open Classical in (Finset.range (last + 1)).filter (Dominates (Edge next) root x)

theorem mem_dominated {last d : Nat} :
    d ∈ dominated next root last x ↔ d ≤ last ∧ Dominates (Edge next) root x d := by
  simp [dominated, Nat.lt_succ_iff]

theorem reaches_le {last : Nat} (hroot : root ≤ last) (hnext : ∀ b, ∀ s ∈ next b, s ≤ last) {b : Nat}
    (h : Reaches (Edge next) root b) : b ≤ last := by
  obtain ⟨l, hl⟩ := h
  induction hl with
  | refl => exact hroot
  | cons he _ ih => exact ih (hnext _ _ he)

theorem card_dominated_lt {last z : Nat} (hx : x ≤ last) (h : ImmediateDominator (Edge next) root x z) :
    (dominated next root last z).card < (dominated next root last x).card := by
  refine Finset.card_lt_card ⟨?_, ?_⟩
  · intro d hd
    rw [mem_dominated] at hd ⊢
    exact ⟨hd.1, h.strict.1.trans hd.2⟩
  · intro hsub
    have hmem : x ∈ dominated next root last x := mem_dominated.mpr ⟨hx, Dominates.refl h.strict.1.reaches_left⟩
    have hzx := (mem_dominated.mp (hsub hmem)).2
    exact h.strict.2 (h.strict.1.antisymm hzx)

theorem visit_block (h : Tree next root idom domBbs) (hx : Reaches (Edge next) root x) (df : Sets)
    (hkids : ∀ z ∈ domBbs x, Stored (Edge next) root df z) :
    ∃ dfx, (domBbs x).foldlM (fun dfx bbz => do
        let dfz ← df bbz
        pure (unionNotIdom idom x (dfz.sort (· ≤ ·)) dfx)) (unionNotIdom idom x (next x) ∅) = some dfx ∧
      ∀ y, y ∈ dfx ↔ Frontier (Edge next) root x y := by
  obtain ⟨dfx, hrun, hmem⟩ := union_all idom x (domBbs x) (unionNotIdom idom x (next x) ∅) hkids
  refine ⟨dfx, hrun, ?_⟩
  intro y
  rw [hmem y, mem_unionNotIdom, frontier_iff h.exists_idom hx]
  constructor
  · rintro ((hy | ⟨hy, hne⟩) | ⟨⟨z, hz, hy⟩, hne⟩)
    · exact absurd hy (Finset.notMem_empty y)
    · exact ⟨fun himm => hne ((h.idom_eq_iff (hx.snoc hy)).mpr himm), Or.inl hy⟩
    · exact ⟨fun himm => hne ((h.idom_eq_iff himm.strict.1.1).mpr himm), Or.inr ⟨z, (h.mem_domBbs hx).mp hz, hy⟩⟩
  · rintro ⟨hnot, hy | ⟨z, hz, hy⟩⟩
    · exact Or.inl (Or.inr ⟨hy, fun heq => hnot ((h.idom_eq_iff (hx.snoc hy)).mp heq)⟩)
    · have hyr : Reaches (Edge next) root y := by
        obtain ⟨⟨p, he, hp⟩, -⟩ := hy
        exact hp.1.snoc he
      exact Or.inr ⟨⟨z, (h.mem_domBbs hx).mpr hz, hy⟩, fun heq => hnot ((h.idom_eq_iff hyr).mp heq)⟩

theorem stored_update (h : Tree next root idom domBbs) (hx : Reaches (Edge next) root x) {df df₁ : Sets}
    {dfx : Finset Nat} (hmem : ∀ y, y ∈ dfx ↔ Frontier (Edge next) root x y)
    (hstored : ∀ z ∈ domBbs x, ∀ d, Dominates (Edge next) root z d → Stored (Edge next) root df₁ d)
    (hsame : ∀ d, (∀ z ∈ domBbs x, ¬ Dominates (Edge next) root z d) → df₁ d = df d) (d : Nat) :
    (Dominates (Edge next) root x d → Stored (Edge next) root (Function.update df₁ x (some dfx)) d) ∧
      (¬ Dominates (Edge next) root x d → Function.update df₁ x (some dfx) d = df d) := by
  constructor
  · intro hd
    by_cases hdx : d = x
    · rw [hdx]
      exact ⟨dfx, Function.update_self .., hmem⟩
    · obtain ⟨z, hz, hzd⟩ := exists_child h.exists_idom ⟨hd, fun heq => hdx heq.symm⟩
      rw [Stored, Function.update_of_ne hdx]
      exact hstored z ((h.mem_domBbs hx).mpr hz) d hzd
  · intro hd
    have hdx : d ≠ x := by
      rintro rfl
      exact hd (Dominates.refl hx)
    rw [Function.update_of_ne hdx]
    refine hsame d ?_
    intro z hz hzd
    exact hd (((h.mem_domBbs hx).mp hz).strict.1.trans hzd)

end

/-! ## The recursion -/

variable {cfg : Cfg}

theorem domComputeDomFrontier_visits (h : Tree cfg.succ cfg.entryBb cfg.idom cfg.domBbs) : ∀ (fuel x : Nat),
    Reaches (Edge cfg.succ) cfg.entryBb x → (dominated cfg.succ cfg.entryBb cfg.lastBbId x).card ≤ fuel →
    Visits (Edge cfg.succ) cfg.entryBb (domComputeDomFrontier cfg fuel) x := by
  intro fuel
  induction fuel with
  | zero =>
    intro x hx hfuel
    have hmem : x ∈ dominated cfg.succ cfg.entryBb cfg.lastBbId x :=
      mem_dominated.mpr ⟨reaches_le cfg.entry_le cfg.succ_le hx, Dominates.refl hx⟩
    have := Finset.card_pos.mpr ⟨x, hmem⟩
    omega
  | succ fuel ih =>
    intro x hx hfuel df
    have hkids : ∀ z ∈ cfg.domBbs x, Visits (Edge cfg.succ) cfg.entryBb (domComputeDomFrontier cfg fuel) z := by
      intro z hz
      have himm := (h.mem_domBbs hx).mp hz
      have hlt := card_dominated_lt (reaches_le cfg.entry_le cfg.succ_le hx) himm
      exact ih z himm.strict.1.1 (by omega)
    obtain ⟨df₁, hrun₁, hstored, hsame⟩ := visits_all (cfg.domBbs x) df hkids
    obtain ⟨dfx, hrun, hmem⟩ := visit_block h hx df₁ fun z hz =>
      hstored z hz z (Dominates.refl ((h.mem_domBbs hx).mp hz).strict.1.1)
    refine ⟨Function.update df₁ x (some dfx), ?_, stored_update h hx hmem hstored hsame⟩
    rw [domComputeDomFrontier, hrun₁]
    simp only [Option.bind_eq_bind, Option.bind_some] at hrun ⊢
    rw [hrun]
    rfl

/-- The recursion on the reversed graph. -/
theorem domComputeRcfgDomFrontier_visits (h : Tree cfg.pred cfg.exitBb cfg.ipdom cfg.pdomBbs) : ∀ (fuel x : Nat),
    Reaches (Edge cfg.pred) cfg.exitBb x → (dominated cfg.pred cfg.exitBb cfg.lastBbId x).card ≤ fuel →
    Visits (Edge cfg.pred) cfg.exitBb (domComputeRcfgDomFrontier cfg fuel) x := by
  intro fuel
  induction fuel with
  | zero =>
    intro x hx hfuel
    have hmem : x ∈ dominated cfg.pred cfg.exitBb cfg.lastBbId x :=
      mem_dominated.mpr ⟨reaches_le cfg.exit_le cfg.pred_le hx, Dominates.refl hx⟩
    have := Finset.card_pos.mpr ⟨x, hmem⟩
    omega
  | succ fuel ih =>
    intro x hx hfuel df
    have hkids : ∀ z ∈ cfg.pdomBbs x, Visits (Edge cfg.pred) cfg.exitBb (domComputeRcfgDomFrontier cfg fuel) z := by
      intro z hz
      have himm := (h.mem_domBbs hx).mp hz
      have hlt := card_dominated_lt (reaches_le cfg.exit_le cfg.pred_le hx) himm
      exact ih z himm.strict.1.1 (by omega)
    obtain ⟨df₁, hrun₁, hstored, hsame⟩ := visits_all (cfg.pdomBbs x) df hkids
    obtain ⟨dfx, hrun, hmem⟩ := visit_block h hx df₁ fun z hz =>
      hstored z hz z (Dominates.refl ((h.mem_domBbs hx).mp hz).strict.1.1)
    have hself : x ∉ cfg.pdomBbs x := fun hmem => ((h.mem_domBbs hx).mp hmem).strict.2 rfl
    refine ⟨Function.update df₁ x (some dfx), ?_, stored_update h hx hmem hstored hsame⟩
    rw [domComputeRcfgDomFrontier, hrun₁]
    have hplace := union_in_place cfg.ipdom df₁ (cfg.pdomBbs x)
      (unionNotIdom cfg.ipdom x (cfg.pred x) ∅) hself
    rw [hrun] at hplace
    exact hplace

theorem card_dominated_le (next : Nat → List Nat) (root last x : Nat) : (dominated next root last x).card ≤ last + 1 := by
  have hsub : dominated next root last x ⊆ Finset.range (last + 1) := by
    intro d hd
    rw [Finset.mem_range]
    have := (mem_dominated.mp hd).1
    omega
  have hle := Finset.card_le_card hsub
  rwa [Finset.card_range] at hle

/-- With correct trees, both functions end; the sets stored for the blocks that the entry reaches are their
dominance frontiers, and those stored for the blocks that reach the exit are their frontiers in the reversed
graph. -/
theorem frontiers_exact (cfg : Cfg) (hdom : Tree cfg.succ cfg.entryBb cfg.idom cfg.domBbs)
    (hpdom : Tree cfg.pred cfg.exitBb cfg.ipdom cfg.pdomBbs) :
    (∃ df, domComputeDomFrontier cfg (cfg.lastBbId + 1) (fun _ => none) cfg.entryBb = some df ∧
      (cfg.domBbs cfg.entryBb ≠ [] → computeDomFrontier cfg = some df) ∧
      ∀ x, Reaches (fun u v => v ∈ cfg.succ u) cfg.entryBb x → ∃ dfx, df x = some dfx ∧
        ∀ y, y ∈ dfx ↔ (∃ p, y ∈ cfg.succ p ∧ Dominates (fun u v => v ∈ cfg.succ u) cfg.entryBb x p) ∧
          ¬ StrictlyDominates (fun u v => v ∈ cfg.succ u) cfg.entryBb x y) ∧
    ∃ df, domComputeRcfgDomFrontier cfg (cfg.lastBbId + 1) (fun _ => none) cfg.exitBb = some df ∧
      (cfg.domBbs cfg.entryBb ≠ [] → computeControlDependence cfg = some df) ∧
      ∀ x, Reaches (fun u v => u ∈ cfg.succ v) cfg.exitBb x → ∃ dfx, df x = some dfx ∧
        ∀ y, y ∈ dfx ↔ (∃ p, p ∈ cfg.succ y ∧ Dominates (fun u v => u ∈ cfg.succ v) cfg.exitBb x p) ∧
          ¬ StrictlyDominates (fun u v => u ∈ cfg.succ v) cfg.exitBb x y := by
  have hrev : (fun u v => u ∈ cfg.succ v) = Edge cfg.pred := by
    funext u v
    exact propext (cfg.mem_pred u v).symm
  constructor
  · have hroot : Reaches (Edge cfg.succ) cfg.entryBb cfg.entryBb := Reaches.refl _
    obtain ⟨df, hrun, hdf⟩ := domComputeDomFrontier_visits hdom (cfg.lastBbId + 1) cfg.entryBb hroot
      (card_dominated_le ..) fun _ => none
    refine ⟨df, hrun, fun hne => (if_neg hne).trans hrun, ?_⟩
    intro x hx
    exact (hdf x).1 ⟨hx, fun l hl => hl.start_mem⟩
  · have hroot : Reaches (Edge cfg.pred) cfg.exitBb cfg.exitBb := Reaches.refl _
    obtain ⟨df, hrun, hdf⟩ := domComputeRcfgDomFrontier_visits hpdom (cfg.lastBbId + 1) cfg.exitBb hroot
      (card_dominated_le ..) fun _ => none
    refine ⟨df, hrun, fun hne => (if_neg hne).trans hrun, ?_⟩
    intro x hx
    rw [hrev] at hx ⊢
    obtain ⟨dfx, hx', hmem⟩ := (hdf x).1 ⟨hx, fun l hl => hl.start_mem⟩
    refine ⟨dfx, hx', ?_⟩
    intro y
    rw [hmem y, Frontier]
    simp only [Edge, cfg.mem_pred]

/-- A block that branches to itself between the entry and the exit. -/
def selfLoop : Cfg where
  entryBb := 1
  exitBb := 3
  lastBbId := 3
  succ := fun b => if b = 1 then [2] else if b = 2 then [2, 3] else []
  pred := fun b => if b = 2 then [1, 2] else if b = 3 then [2] else []
  idom := fun b => if b = 2 then some 1 else if b = 3 then some 2 else none
  ipdom := fun b => if b = 1 then some 2 else if b = 2 then some 3 else none
  domBbs := fun b => if b = 1 then [2] else if b = 2 then [3] else []
  pdomBbs := fun b => if b = 3 then [2] else if b = 2 then [1] else []
  entry_le := by decide
  exit_le := by decide
  succ_le := by
    intro b s hs
    split_ifs at hs <;> simp at hs <;> omega
  pred_le := by
    intro b s hs
    split_ifs at hs <;> simp at hs <;> omega
  mem_pred := by
    intro b p
    split_ifs <;> simp <;> omega

/-- Three blocks, of which the middle one may branch to itself. -/
theorem chain_tree {next : Nat → List Nat} {idom : Nat → Option Nat} {domBbs : Nat → List Nat} {r a b : Nat}
    (hra : r ≠ a) (hrb : r ≠ b) (hab : a ≠ b) (hr : ∀ v, v ∈ next r ↔ v = a) (ha : ∀ v, v ∈ next a ↔ v = a ∨ v = b)
    (hb : next b = []) (hidom : idom r = none ∧ idom a = some r ∧ idom b = some a)
    (hdom : domBbs r = [a] ∧ domBbs a = [b] ∧ domBbs b = []) : Tree next r idom domBbs := by
  have hra' : Reaches (Edge next) r a := (Reaches.refl r).snoc ((hr a).mpr rfl)
  have hrb' : Reaches (Edge next) r b := hra'.snoc ((ha b).mpr (Or.inr rfl))
  have hreach : ∀ v, Reaches (Edge next) r v → v = r ∨ v = a ∨ v = b := by
    intro v hv
    refine hv.mem_of_closed (S := fun v => v = r ∨ v = a ∨ v = b) (Or.inl rfl) ?_
    intro u w hu he
    have hw : w ∈ next u := he
    rcases hu with rfl | rfl | rfl
    · exact Or.inr (Or.inl ((hr w).mp hw))
    · exact Or.inr ((ha w).mp hw)
    · rw [hb] at hw
      exact absurd hw List.not_mem_nil
  have himm_a : ImmediateDominator (Edge next) r r a :=
    immediateDominator_of_edge ⟨⟨hra', fun l hl => hl.start_mem⟩, hra⟩ ((hr a).mpr rfl)
  have himm_b : ImmediateDominator (Edge next) r a b := by
    refine immediateDominator_of_edge ⟨⟨hrb', ?_⟩, hab⟩ ((ha b).mpr (Or.inr rfl))
    intro l hl
    cases hl with
    | refl => exact absurd rfl hrb
    | @cons _ w _ l he hrest =>
      rw [← (hr w).mp he]
      exact List.mem_cons_of_mem _ hrest.start_mem
  refine ⟨hidom.1, ?_, ?_⟩
  · intro v hv hne
    rcases hreach v hv with rfl | rfl | rfl
    · exact absurd rfl hne
    · exact ⟨r, hidom.2.1, himm_a⟩
    · exact ⟨a, hidom.2.2, himm_b⟩
  · intro u v hu
    have hv : v ∈ domBbs u ↔ (v = a ∧ u = r) ∨ (v = b ∧ u = a) := by
      rcases hreach u hu with rfl | rfl | rfl
      · simp [hdom.1, hra]
      · simp [hdom.2.1, hra.symm]
      · simp [hdom.2.2, hrb.symm, hab.symm]
    rw [hv]
    constructor
    · rintro (⟨rfl, rfl⟩ | ⟨rfl, rfl⟩)
      · exact ⟨hra', hidom.2.1⟩
      · exact ⟨hrb', hidom.2.2⟩
    · rintro ⟨hrv, heq⟩
      rcases hreach v hrv with rfl | rfl | rfl
      · rw [hidom.1] at heq
        cases heq
      · rw [hidom.2.1, Option.some.injEq] at heq
        exact Or.inl ⟨rfl, heq.symm⟩
      · rw [hidom.2.2, Option.some.injEq] at heq
        exact Or.inr ⟨rfl, heq.symm⟩

theorem frontiers_exact_selfLoop : ∃ df, computeDomFrontier selfLoop = some df ∧ ∃ dfx, df 2 = some dfx ∧
    (2 ∈ dfx ↔ (∃ p, 2 ∈ selfLoop.succ p ∧ Dominates (fun u v => v ∈ selfLoop.succ u) 1 2 p) ∧
      ¬ StrictlyDominates (fun u v => v ∈ selfLoop.succ u) 1 2 2) := by
  have hdom : Tree selfLoop.succ 1 selfLoop.idom selfLoop.domBbs := by
    refine chain_tree (a := 2) (b := 3) (by decide) (by decide) (by decide) ?_ ?_ rfl ⟨rfl, rfl, rfl⟩ ⟨rfl, rfl, rfl⟩
    · intro v
      simp [selfLoop]
    · intro v
      simp [selfLoop]
  have hpdom : Tree selfLoop.pred 3 selfLoop.ipdom selfLoop.pdomBbs := by
    refine chain_tree (a := 2) (b := 1) (by decide) (by decide) (by decide) ?_ ?_ rfl ⟨rfl, rfl, rfl⟩ ⟨rfl, rfl, rfl⟩
    · intro v
      simp [selfLoop]
    · intro v
      simp [selfLoop, or_comm]
  obtain ⟨⟨df, -, hrun, hdf⟩, -⟩ := frontiers_exact selfLoop hdom hpdom
  have hreach : Reaches (fun u v => v ∈ selfLoop.succ u) 1 2 := (Reaches.refl 1).snoc (by decide)
  obtain ⟨dfx, hx, hmem⟩ := hdf 2 hreach
  exact ⟨df, hrun (by decide), dfx, hx, hmem 2⟩

end Path64.Dom

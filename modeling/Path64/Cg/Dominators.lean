import Mathlib.Algebra.BigOperators.Group.Finset.Basic
import Mathlib.Algebra.Order.BigOperators.Group.Finset
import Mathlib.Data.Finset.Card
import Path64.Cg.Basic
import Path64.Lib.Rounds

/-!
# Dominators in the code generator

`Calculate_Dominators` shrinks the dominator sets from all blocks, and the post-dominator sets from the blocks that can
be reached, until nothing changes. The sets of exits are to start from the exit and the block after all exits, but the
sweeps that collect the blocks that can be reached go over exits with successors too.

* `meetBlock`, `joinBlock`, `calculateDominators` : the sweeps, in place;
* `meet_spec`, `join_spec` : where they end;
* `calculateDominators_spec` : the dominator sets are exact, the post-dominator sets keep what is always reached;
* `sets_exact_iff` : the latter are exact just when no exit with successors always reaches another block.
-/

namespace Path64.Cg

open Flow Lib

/-- A bit vector for each block. -/
abbrev Sets := Nat → Finset Nat

/-! ## The sweeps -/

/-- The set of a block is intersected with those of its neighbours, and keeps the block; none when nothing changes. -/
def meetBlock (next : Nat → List Nat) (sets : Sets) (b : Nat) : Option Sets :=
  if next b = [] then none
  else
    let isect := insert b ((next b).foldl (fun src p => src ∩ sets p) (sets b))
    if isect = sets b then none else some (Function.update sets b isect)

/-- The set of a block is joined with those of its neighbours. -/
def joinBlock (next : Nat → List Nat) (sets : Sets) (b : Nat) : Option Sets :=
  if next b = [] then none
  else
    let isect := (next b).foldl (fun src p => src ∪ sets p) (sets b)
    if isect = sets b then none else some (Function.update sets b isect)

namespace Cfg

/-- The blocks of the list and the one before all entries. -/
def domInit (g : Cfg) : Finset Nat := insert preEntry g.order.toFinset

/-- The dominator sets of `Init_BB_Dom_Info`. -/
def initDom (g : Cfg) : Sets := fun b => if g.entry b then {preEntry, b} else g.domInit

/-- The post-dominator sets of `Init_BB_Dom_Info`. -/
def initPdom (g : Cfg) : Sets := fun b => if g.exit b then {b, g.postExit} else {b}

/-- `Calculate_Dominators`: the dominator and the post-dominator sets; none when the sweeps do not end in `fuel` sweeps
each. -/
def calculateDominators (g : Cfg) (fuel : Nat) : Option (Sets × Sets) := do
  let dom ← updateRounds (meetBlock g.preds) g.order fuel g.initDom
  -- all blocks that can be reached, also for exits
  let reached ← updateRounds (joinBlock g.succs) g.order.reverse fuel g.initPdom
  let pdom ← updateRounds (meetBlock g.succs) g.order.reverse fuel reached
  return (fun b => (dom b).erase preEntry, fun b => (pdom b).erase g.postExit)

end Cfg

/-! ## Where the sweeps end -/

/-- The edges that a sweep over `l` follows. -/
def Link (l : List Nat) (next : Nat → List Nat) (b p : Nat) : Prop := b ∈ l ∧ p ∈ next b

theorem mem_foldl_inter {sets : Sets} {l : List Nat} {init : Finset Nat} {x : Nat} :
    x ∈ l.foldl (fun src p => src ∩ sets p) init ↔ x ∈ init ∧ ∀ p ∈ l, x ∈ sets p := by
  induction l generalizing init with
  | nil => simp
  | cons p l ih =>
    rw [List.foldl_cons, ih, Finset.mem_inter, List.forall_mem_cons, and_assoc]

theorem mem_foldl_union {sets : Sets} {l : List Nat} {init : Finset Nat} {x : Nat} :
    x ∈ l.foldl (fun src p => src ∪ sets p) init ↔ x ∈ init ∨ ∃ p ∈ l, x ∈ sets p := by
  induction l generalizing init with
  | nil => simp
  | cons p l ih =>
    rw [List.foldl_cons, ih, Finset.mem_union, List.exists_mem_cons_iff, or_assoc]

theorem meetBlock_some {next : Nat → List Nat} {sets sets' : Sets} {b : Nat} (h : meetBlock next sets b = some sets') :
    insert b ((next b).foldl (fun src p => src ∩ sets p) (sets b)) ≠ sets b ∧
      sets' = Function.update sets b (insert b ((next b).foldl (fun src p => src ∩ sets p) (sets b))) := by
  unfold meetBlock at h
  dsimp only at h
  split_ifs at h with hempty hsame
  exact ⟨hsame, (Option.some_inj.mp h).symm⟩

theorem meetBlock_none {next : Nat → List Nat} {sets : Sets} {b p : Nat} (h : meetBlock next sets b = none)
    (hp : p ∈ next b) : insert b ((next b).foldl (fun src p => src ∩ sets p) (sets b)) = sets b := by
  unfold meetBlock at h
  dsimp only at h
  split_ifs at h with hempty hsame
  · rw [hempty] at hp
    exact absurd hp List.not_mem_nil
  · exact hsame

theorem joinBlock_some {next : Nat → List Nat} {sets sets' : Sets} {b : Nat} (h : joinBlock next sets b = some sets') :
    (next b).foldl (fun src p => src ∪ sets p) (sets b) ≠ sets b ∧
      sets' = Function.update sets b ((next b).foldl (fun src p => src ∪ sets p) (sets b)) := by
  unfold joinBlock at h
  dsimp only at h
  split_ifs at h with hempty hsame
  exact ⟨hsame, (Option.some_inj.mp h).symm⟩

theorem joinBlock_none {next : Nat → List Nat} {sets : Sets} {b p : Nat} (h : joinBlock next sets b = none)
    (hp : p ∈ next b) : (next b).foldl (fun src p => src ∪ sets p) (sets b) = sets b := by
  unfold joinBlock at h
  dsimp only at h
  split_ifs at h with hempty hsame
  · rw [hempty] at hp
    exact absurd hp List.not_mem_nil
  · exact hsame

theorem sum_update_lt {l : List Nat} {sets : Sets} {b : Nat} {new : Finset Nat} {z : Finset Nat → Nat} (hb : b ∈ l)
    (h : z new < z (sets b)) :
    ∑ c ∈ l.toFinset, z (Function.update sets b new c) < ∑ c ∈ l.toFinset, z (sets c) := by
  refine Finset.sum_lt_sum (fun c _ => ?_) ⟨b, List.mem_toFinset.mpr hb, ?_⟩
  · by_cases hcb : c = b
    · rw [hcb, Function.update_self]
      exact h.le
    · rw [Function.update_of_ne hcb]
  · rw [Function.update_self]
    exact h

section Spec

variable {l : List Nat} {next : Nat → List Nat} (hnext : ∀ b ∈ l, ∀ p ∈ next b, p ∈ l)
include hnext

theorem Link.walk_mem {b y : Nat} {w : List Nat} (h : Walk (Link l next) b y w) (hb : b ∈ l) : y ∈ l := by
  induction h with
  | refl => exact hb
  | cons he _ ih => exact ih (hnext _ he.1 _ he.2)

/-- Everything that can be reached from `b` without `x` has `x` in its first set. -/
def Lasting (l : List Nat) (next : Nat → List Nat) (init : Sets) (x b : Nat) : Prop :=
  ∀ y w, Walk (Link l next) b y w → x ∉ w → x ∈ init y

/-- What holds of the sets while they shrink. -/
structure Shrinking (l : List Nat) (next : Nat → List Nat) (init sets : Sets) : Prop where
  self : ∀ b ∈ l, b ∈ sets b
  le : ∀ b ∈ l, sets b ⊆ init b
  lasting : ∀ b ∈ l, ∀ x, Lasting l next init x b → x ∈ sets b

theorem Shrinking.step {init sets sets' : Sets} (h : Shrinking l next init sets) {b : Nat} (hb : b ∈ l)
    (hrun : meetBlock next sets b = some sets') :
    Shrinking l next init sets' ∧ ∑ c ∈ l.toFinset, (sets' c).card < ∑ c ∈ l.toFinset, (sets c).card := by
  obtain ⟨hsame, rfl⟩ := meetBlock_some hrun
  have hsub : insert b ((next b).foldl (fun src p => src ∩ sets p) (sets b)) ⊆ sets b := by
    intro x hx
    rcases Finset.mem_insert.mp hx with rfl | hx
    · exact h.self x hb
    · exact (mem_foldl_inter.mp hx).1
  refine ⟨⟨fun c hc => ?_, fun c hc => ?_, fun c hc x hx => ?_⟩, ?_⟩
  · by_cases hcb : c = b
    · rw [hcb, Function.update_self]
      exact Finset.mem_insert_self ..
    · rw [Function.update_of_ne hcb]
      exact h.self c hc
  · by_cases hcb : c = b
    · rw [hcb, Function.update_self]
      exact hsub.trans (h.le b hb)
    · rw [Function.update_of_ne hcb]
      exact h.le c hc
  · by_cases hcb : c = b
    · rw [hcb] at hx
      rw [hcb, Function.update_self]
      by_cases hxb : x = b
      · rw [hxb]
        exact Finset.mem_insert_self ..
      · refine Finset.mem_insert_of_mem (mem_foldl_inter.mpr ⟨h.lasting b hb x hx, fun p hp => ?_⟩)
        refine h.lasting p (hnext b hb p hp) x fun y w hw hxw => hx y (b :: w) (Walk.cons ⟨hb, hp⟩ hw) ?_
        rw [List.mem_cons, not_or]
        exact ⟨hxb, hxw⟩
    · rw [Function.update_of_ne hcb]
      exact h.lasting c hc x hx
  · exact sum_update_lt hb (Finset.card_lt_card (hsub.ssubset_of_ne hsame))

/-- The shrinking sets end with what lasts. -/
theorem meet_spec (init : Sets) (hself : ∀ b ∈ l, b ∈ init b) :
    ∃ n sets, (∀ fuel ≥ n, updateRounds (meetBlock next) l fuel init = some sets) ∧
      ∀ b ∈ l, ∀ x, x ∈ sets b ↔ Lasting l next init x b := by
  have hinit : Shrinking l next init init := by
    refine ⟨hself, fun _ _ => Finset.Subset.refl _, fun b _ x hx => ?_⟩
    by_cases hxb : x = b
    · rw [hxb]
      exact hself b ‹_›
    · exact hx b [b] (Walk.refl b) fun h => hxb (List.mem_singleton.mp h)
  obtain ⟨n, sets, hrun, hsets, hnone⟩ := exists_updateRounds
    (fun s hs b hb s' h => Shrinking.step hnext hs hb h) hinit
  refine ⟨n, sets, hrun, fun b hb x => ⟨fun hx y w hw => ?_, hsets.lasting b hb x⟩⟩
  induction hw with
  | refl b => exact fun _ => hsets.le b hb hx
  | @cons b p y w he hw ih =>
    intro hxw
    rw [List.mem_cons, not_or] at hxw
    refine ih (hnext b hb p he.2) ?_ hxw.2
    rw [← meetBlock_none (hnone b hb) he.2] at hx
    exact (mem_foldl_inter.mp (Finset.mem_of_mem_insert_of_ne hx hxw.1)).2 p he.2

/-- What holds of the sets while they grow. -/
structure Growing (l : List Nat) (next : Nat → List Nat) (init sets : Sets) : Prop where
  le : ∀ b ∈ l, init b ⊆ sets b
  reached : ∀ b ∈ l, ∀ x ∈ sets b, ∃ y, Reaches (Link l next) b y ∧ x ∈ init y

theorem Growing.step {init sets sets' : Sets} {all : Finset Nat} (hall : ∀ b ∈ l, init b ⊆ all)
    (h : Growing l next init sets) {b : Nat} (hb : b ∈ l) (hrun : joinBlock next sets b = some sets') :
    Growing l next init sets' ∧
      ∑ c ∈ l.toFinset, (all \ sets' c).card < ∑ c ∈ l.toFinset, (all \ sets c).card := by
  obtain ⟨hsame, rfl⟩ := joinBlock_some hrun
  have hsub : sets b ⊆ (next b).foldl (fun src p => src ∪ sets p) (sets b) :=
    fun x hx => mem_foldl_union.mpr (.inl hx)
  have hreached : ∀ x ∈ (next b).foldl (fun src p => src ∪ sets p) (sets b),
      ∃ y, Reaches (Link l next) b y ∧ x ∈ init y := by
    intro x hx
    rcases mem_foldl_union.mp hx with hx | ⟨p, hp, hx⟩
    · exact h.reached b hb x hx
    · obtain ⟨y, ⟨w, hw⟩, hy⟩ := h.reached p (hnext b hb p hp) x hx
      exact ⟨y, ⟨b :: w, Walk.cons ⟨hb, hp⟩ hw⟩, hy⟩
  refine ⟨⟨fun c hc => ?_, fun c hc x hx => ?_⟩, ?_⟩
  · by_cases hcb : c = b
    · rw [hcb, Function.update_self]
      exact (h.le b hb).trans hsub
    · rw [Function.update_of_ne hcb]
      exact h.le c hc
  · by_cases hcb : c = b
    · rw [hcb, Function.update_self] at hx
      rw [hcb]
      exact hreached x hx
    · rw [Function.update_of_ne hcb] at hx
      exact h.reached c hc x hx
  · refine sum_update_lt (z := fun s => (all \ s).card) hb (Finset.card_lt_card ?_)
    obtain ⟨x, hx, hnot⟩ := Finset.exists_of_ssubset (hsub.ssubset_of_ne (Ne.symm hsame))
    obtain ⟨y, ⟨w, hw⟩, hy⟩ := hreached x hx
    have hmem := hall y (Link.walk_mem hnext hw hb) hy
    refine ⟨Finset.sdiff_subset_sdiff (Finset.Subset.refl _) hsub, fun hle => ?_⟩
    exact (Finset.mem_sdiff.mp (hle (Finset.mem_sdiff.mpr ⟨hmem, hnot⟩))).2 hx

/-- The growing sets end with what is in the set of a block that can be reached. -/
theorem join_spec (init : Sets) :
    ∃ n sets, (∀ fuel ≥ n, updateRounds (joinBlock next) l fuel init = some sets) ∧
      ∀ b ∈ l, ∀ x, x ∈ sets b ↔ ∃ y, Reaches (Link l next) b y ∧ x ∈ init y := by
  have hinit : Growing l next init init :=
    ⟨fun _ _ => Finset.Subset.refl _, fun b _ x hx => ⟨b, Reaches.refl b, hx⟩⟩
  have hall : ∀ b ∈ l, init b ⊆ l.toFinset.biUnion init :=
    fun b hb => Finset.subset_biUnion_of_mem init (List.mem_toFinset.mpr hb)
  obtain ⟨n, sets, hrun, hsets, hnone⟩ := exists_updateRounds
    (fun s hs b hb s' h => Growing.step hnext hall hs hb h) hinit
  refine ⟨n, sets, hrun, fun b hb x => ⟨hsets.reached b hb x, ?_⟩⟩
  rintro ⟨y, ⟨w, hw⟩, hx⟩
  induction hw with
  | refl b => exact hsets.le b hb hx
  | @cons b p y w he hw ih =>
    rw [← joinBlock_none (hnone b hb) he.2]
    exact mem_foldl_union.mpr (.inr ⟨p, he.2, ih (hnext b hb p he.2) hx⟩)

end Spec

/-! ## The result -/

namespace Cfg

variable (g : Cfg)

/-- `x` lies on every path from an entry to `b`. -/
def FromEntries (x b : Nat) : Prop := ∀ e ∈ g.order, g.entry e = true → ∀ l, Walk g.Edge e b l → x ∈ l

/-- `x` lies on every path from `b` to an exit. -/
def ToExits (x b : Nat) : Prop := ∀ e ∈ g.order, g.exit e = true → ∀ l, Walk g.Edge b e l → x ∈ l

/-- Whatever can be reached from `b` without `x` can reach `x`. -/
def AlwaysReached (x b : Nat) : Prop := ∀ y l, Walk g.Edge b y l → x ∉ l → Reaches g.Edge y x

/-- Every block can be reached from an entry and reaches an exit. -/
structure Connected : Prop where
  entry : ∀ b ∈ g.order, ∃ e ∈ g.order, g.entry e = true ∧ Reaches g.Edge e b
  exit : ∀ b ∈ g.order, ∃ e ∈ g.order, g.exit e = true ∧ Reaches g.Edge b e

/-- The sweeps end, with the exact sets. -/
def Exact : Prop :=
  ∃ n dom pdom, (∀ fuel ≥ n, g.calculateDominators fuel = some (dom, pdom)) ∧
    ∀ b ∈ g.order, ∀ x, (x ∈ dom b ↔ g.FromEntries x b) ∧ (x ∈ pdom b ↔ g.ToExits x b)

/-- No exit with successors always reaches another block. -/
def ExitsSettled : Prop :=
  ∀ e ∈ g.order, g.exit e = true → g.succs e ≠ [] → ∀ c ≠ e,
    ∃ y l, Walk g.Edge e y l ∧ c ∉ l ∧ ¬Reaches g.Edge y c

variable {g} {b x y : Nat} {l : List Nat}

theorem walk_mem (h : Walk g.Edge b y l) (hb : b ∈ g.order) : ∀ x ∈ l, x ∈ g.order := by
  induction h with
  | refl b =>
    intro x hx
    rw [List.mem_singleton.mp hx]
    exact hb
  | cons he _ ih =>
    intro x hx
    rcases List.mem_cons.mp hx with rfl | hx
    · exact hb
    · exact ih he.mem x hx

theorem link_preds : Link g.order g.preds = fun b p => g.Edge p b := by
  funext b p
  refine propext ⟨fun h => (edge_iff_preds h.1).mpr h.2, fun h => ⟨h.mem, (edge_iff_preds h.mem).mp h⟩⟩

theorem link_succs : Link g.order.reverse g.succs = g.Edge := by
  funext b p
  exact propext (and_congr_left' List.mem_reverse)

/-- What lasts from the first dominator sets. -/
theorem lasting_initDom (hc : g.Connected) (hb : b ∈ g.order) :
    x ≠ preEntry ∧ Lasting g.order g.preds g.initDom x b ↔ g.FromEntries x b := by
  unfold Lasting
  rw [link_preds]
  constructor
  · rintro ⟨hx, hlast⟩ e _ hentry l hl
    by_contra hxl
    obtain ⟨m, hm, hmem⟩ := hl.reverse
    have hxe := hlast e m hm fun h => hxl ((hmem x).mp h)
    rw [initDom, if_pos hentry, Finset.mem_insert, Finset.mem_singleton] at hxe
    rcases hxe with hxe | rfl
    · exact hx hxe
    · exact hxl hl.start_mem
  · intro hall
    have hxorder : x ∈ g.order := by
      obtain ⟨e, he, hentry, l, hl⟩ := hc.entry b hb
      exact walk_mem hl he x (hall e he hentry l hl)
    refine ⟨ne_preEntry hxorder, fun y m hm hxm => ?_⟩
    unfold initDom
    obtain ⟨l, hl, hmem⟩ := hm.reverse
    split_ifs with hentry
    · have hy : y ∈ g.order := by
        have hlink : Walk (Link g.order g.preds) b y m := by
          rw [link_preds]
          exact hm
        exact Link.walk_mem g.preds_mem hlink hb
      exact absurd ((hmem x).mp (hall y hy hentry l hl)) hxm
    · exact Finset.mem_insert_of_mem (List.mem_toFinset.mpr hxorder)

theorem reached_iff (hx : x ≠ g.postExit) : (∃ y, Reaches g.Edge b y ∧ x ∈ g.initPdom y) ↔ Reaches g.Edge b x := by
  have hinit : ∀ y, x ∈ g.initPdom y ↔ x = y := by
    intro y
    unfold initPdom
    split_ifs
    · rw [Finset.mem_insert, Finset.mem_singleton, or_iff_left hx]
    · exact Finset.mem_singleton
  simp only [hinit, exists_eq_right']

/-- Where `Calculate_Dominators` ends. -/
theorem calculateDominators_spec (hc : g.Connected) :
    ∃ n dom pdom, (∀ fuel ≥ n, g.calculateDominators fuel = some (dom, pdom)) ∧
      ∀ b ∈ g.order, ∀ x, (x ∈ dom b ↔ g.FromEntries x b) ∧ (x ∈ pdom b ↔ g.AlwaysReached x b) := by
  have hsuccs : ∀ b ∈ g.order.reverse, ∀ s ∈ g.succs b, s ∈ g.order.reverse := by
    intro b hb s hs
    exact List.mem_reverse.mpr (g.succs_mem b (List.mem_reverse.mp hb) s hs)
  obtain ⟨n1, dom, hrun1, hdom⟩ := meet_spec g.preds_mem g.initDom fun b hb => by
    unfold initDom domInit
    split_ifs
    · exact Finset.mem_insert_of_mem (Finset.mem_singleton_self b)
    · exact Finset.mem_insert_of_mem (List.mem_toFinset.mpr hb)
  obtain ⟨n2, reached, hrun2, hreached⟩ := join_spec hsuccs g.initPdom
  have hself : ∀ b ∈ g.order.reverse, b ∈ reached b := by
    intro b hb
    refine (hreached b hb b).mpr ⟨b, Reaches.refl b, ?_⟩
    unfold initPdom
    split_ifs
    · exact Finset.mem_insert_self ..
    · exact Finset.mem_singleton_self b
  obtain ⟨n3, pdom, hrun3, hpdom⟩ := meet_spec hsuccs reached hself
  refine ⟨max n1 (max n2 n3), fun b => (dom b).erase preEntry, fun b => (pdom b).erase g.postExit,
    fun fuel hfuel => ?_, fun b hb x => ⟨?_, ?_⟩⟩
  · unfold calculateDominators
    rw [hrun1 fuel (by omega), Option.bind_eq_bind, Option.bind_some, hrun2 fuel (by omega)]
    dsimp only [Option.bind_eq_bind, Option.bind_some]
    rw [hrun3 fuel (by omega)]
    rfl
  · rw [Finset.mem_erase, hdom b hb]
    exact lasting_initDom hc hb
  · have hb' := List.mem_reverse.mpr hb
    rw [Finset.mem_erase, hpdom b hb']
    unfold Lasting
    rw [link_succs]
    rw [link_succs] at hreached
    constructor
    · rintro ⟨hx, hlast⟩ y l hl hxl
      have hy := List.mem_reverse.mpr (walk_mem hl hb y hl.end_mem)
      exact (reached_iff hx).mp ((hreached y hy x).mp (hlast y l hl hxl))
    · intro halways
      have hx : x ≠ g.postExit := by
        rintro rfl
        obtain ⟨l, hl⟩ := halways b [b] (Walk.refl b) fun h => ne_postExit hb (List.mem_singleton.mp h).symm
        exact ne_postExit (walk_mem hl hb _ hl.end_mem) rfl
      refine ⟨hx, fun y l hl hxl => ?_⟩
      have hy := List.mem_reverse.mpr (walk_mem hl hb y hl.end_mem)
      exact (hreached y hy x).mpr ((reached_iff hx).mpr (halways y l hl hxl))

theorem Exact.not_alwaysReached (hc : g.Connected) (h : g.Exact) {e c : Nat} (he : e ∈ g.order)
    (hexit : g.exit e = true) (hce : c ≠ e) : ¬g.AlwaysReached c e := by
  intro halways
  obtain ⟨n, dom, pdom, hrun, hspec⟩ := calculateDominators_spec hc
  obtain ⟨n', dom', pdom', hrun', hspec'⟩ := h
  have heq := (hrun (max n n') (le_max_left _ _)).symm.trans (hrun' (max n n') (le_max_right _ _))
  obtain ⟨-, hpdom⟩ := Prod.mk.inj (Option.some_inj.mp heq)
  have hmem := ((hspec e he c).2).mpr halways
  rw [hpdom, (hspec' e he c).2] at hmem
  exact hce (List.mem_singleton.mp (hmem e he hexit [e] (Walk.refl e)))

theorem ToExits.alwaysReached (hc : g.Connected) (hb : b ∈ g.order) (h : g.ToExits x b) : g.AlwaysReached x b := by
  intro y l hl hxl
  obtain ⟨e, he, hexit, k, hk⟩ := hc.exit y (walk_mem hl hb y hl.end_mem)
  obtain ⟨m, hm, hmem⟩ := hl.trans hk
  have hxk := ((hmem x).mp (h e he hexit m hm)).resolve_left hxl
  obtain ⟨k₁, -, hk₁, -⟩ := hk.cut hxk
  exact ⟨k₁, hk₁⟩

theorem AlwaysReached.toExits (hsettled : g.ExitsSettled) (h : g.AlwaysReached x b) : g.ToExits x b := by
  intro e he hexit l hl
  by_contra hxl
  by_cases hsuccs : g.succs e = []
  · obtain ⟨k, hk⟩ := h e l hl hxl
    cases hk with
    | refl => exact hxl hl.end_mem
    | cons hedge _ =>
      have hmem := hedge.2
      rw [hsuccs] at hmem
      exact absurd hmem List.not_mem_nil
  · have hxe : x ≠ e := by
      rintro rfl
      exact hxl hl.end_mem
    obtain ⟨y, k, hk, hxk, hnot⟩ := hsettled e he hexit hsuccs x hxe
    obtain ⟨m, hm, hmem⟩ := hl.trans hk
    exact hnot (h y m hm fun hxm => ((hmem x).mp hxm).elim hxl hxk)

/-- The dominator and post-dominator sets are exact just when no exit with successors always reaches another block. -/
theorem sets_exact_iff (hc : g.Connected) : g.Exact ↔ g.ExitsSettled := by
  constructor
  · intro h e he hexit _ c hce
    have hnot := h.not_alwaysReached hc he hexit hce
    unfold AlwaysReached at hnot
    push Not at hnot
    exact hnot
  · intro hsettled
    obtain ⟨n, dom, pdom, hrun, hspec⟩ := calculateDominators_spec hc
    refine ⟨n, dom, pdom, hrun, fun b hb x => ⟨(hspec b hb x).1, (hspec b hb x).2.trans ?_⟩⟩
    exact ⟨fun h => h.toExits hsettled, fun h => h.alwaysReached hc hb⟩

/-- Three exits, the first of which leads to the two others. -/
def exitFork : Cfg where
  count := 3
  order := [1, 2, 3]
  preds b := if b = 1 then [] else [1]
  succs b := if b = 1 then [2, 3] else []
  entry b := b = 1
  exit _ := true
  nonempty := by decide
  nodup := by decide
  ids := by decide
  preds_mem := by decide
  succs_mem := by decide
  preds_iff := by decide

theorem sets_exact_iff_exitFork : exitFork.Exact := by
  have hedge : ∀ b : Nat, b = 2 ∨ b = 3 → exitFork.Edge 1 b := by
    rintro b (rfl | rfl) <;> exact ⟨by decide, by decide⟩
  have hend : ∀ b c : Nat, b ≠ 1 → Reaches exitFork.Edge b c → c = b := by
    rintro b c hb ⟨l, hl⟩
    cases hl with
    | refl => rfl
    | cons he _ =>
      have hmem : _ ∈ (if b = 1 then [2, 3] else []) := he.2
      rw [if_neg hb] at hmem
      exact absurd hmem List.not_mem_nil
  refine (sets_exact_iff ⟨fun b hb => ⟨1, by decide, rfl, ?_⟩, fun b hb => ⟨b, hb, rfl, Reaches.refl b⟩⟩).mpr ?_
  · by_cases hb1 : b = 1
    · rw [hb1]
      exact Reaches.refl 1
    · have hb' : b ∈ [1, 2, 3] := hb
      simp only [List.mem_cons, List.not_mem_nil, or_false] at hb'
      exact (Reaches.refl 1).snoc (hedge b (hb'.resolve_left hb1))
  · intro e _ _ hsuccs c hce
    have he : e = 1 := by
      by_contra hne
      exact hsuccs (if_neg hne)
    rw [he] at hce ⊢
    by_cases hc : c = 2
    · refine ⟨3, [1, 3], Walk.cons (hedge 3 (.inr rfl)) (Walk.refl 3), ?_, fun h => ?_⟩
      · rw [hc]
        decide
      · have := hend 3 c (by decide) h
        omega
    · refine ⟨2, [1, 2], Walk.cons (hedge 2 (.inl rfl)) (Walk.refl 2), ?_, fun h => hc (hend 2 c (by decide) h)⟩
      simp only [List.mem_cons, List.not_mem_nil, or_false, not_or]
      exact ⟨hce, hc⟩

/-- A loop that is left from its head. -/
def exitLoop : Cfg where
  count := 2
  order := [1, 2]
  preds b := if b = 1 then [2] else [1]
  succs b := if b = 1 then [2] else [1]
  entry b := b = 1
  exit b := b = 1
  nonempty := by decide
  nodup := by decide
  ids := by decide
  preds_mem := by decide
  succs_mem := by decide
  preds_iff := by decide

theorem exitLoop_reaches : ∀ b ∈ exitLoop.order, ∀ c ∈ exitLoop.order, Reaches exitLoop.Edge b c := by
  have hbody : exitLoop.Edge 1 2 := ⟨by decide, by decide⟩
  have hback : exitLoop.Edge 2 1 := ⟨by decide, by decide⟩
  have hall : ∀ b ∈ exitLoop.order, b = 1 ∨ b = 2 := by decide
  intro b hb c hc
  rcases hall b hb with rfl | rfl <;> rcases hall c hc with rfl | rfl
  · exact Reaches.refl 1
  · exact (Reaches.refl 1).snoc hbody
  · exact (Reaches.refl 2).snoc hback
  · exact Reaches.refl 2

theorem exitLoop_connected : exitLoop.Connected :=
  ⟨fun b hb => ⟨1, by decide, rfl, exitLoop_reaches 1 (by decide) b hb⟩,
    fun b hb => ⟨1, by decide, rfl, exitLoop_reaches b hb 1 (by decide)⟩⟩

/-- The body of the loop is taken to be on every path from its head to the exit. -/
theorem not_exact_exitLoop : ¬∀ g : Cfg, g.Connected → g.Exact := by
  intro h
  refine (h exitLoop exitLoop_connected).not_alwaysReached exitLoop_connected (e := 1) (c := 2) (by decide) rfl
    (by decide) fun y l hl _ => ?_
  exact exitLoop_reaches y (walk_mem hl (by decide) y hl.end_mem) 2 (by decide)

end Cfg

end Path64.Cg

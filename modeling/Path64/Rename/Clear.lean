import Path64.Rename.Listed

/-!
# Blocks whose number of predecessors has changed

* `deletions` : the phis that the first loop deletes, in order;
* `BecomesReal` : the result of a phi is no zero version, or an earlier deletion gives it a version of its own;
* `Fits` : every zero version that is fixed when the phi is deleted is the operand of a predecessor;
* `Clearing` : the state between two deletions;
* `clear_spec` : the first loop succeeds when all its deletions fit, and leaves no phi of another size.
-/

namespace Path64.Rename

open Path64.Lists (Links)

/-! ## Which deletions fit -/

section Deletions

variable (P : Prog) (σ : State) (lists : Nat → List Nat)

/-- The lists after the blocks `before`. -/
def cleared (s : PhiLists) (before : List Nat) : PhiLists :=
  { s with
    head := fun b => if b ∈ before ∧ stale P s b = true then -1 else s.head b
    tail := fun b => if b ∈ before ∧ stale P s b = true then -1 else s.tail b
    inDegree := fun b => if b ∈ before ∧ stale P s b = true then (P.preds b).length else s.inDegree b }

/-- The phis that are deleted in a block, with the blocks before it. -/
def deletionsAt (before : List Nat) (b : Nat) : List (List Nat × Nat) :=
  if stale P σ.toPhiLists b then (lists b).map fun p => (before, p) else []

/-- The phis that the first loop deletes, each with the blocks before its own. -/
def deletions : (before : List Nat) → List Nat → List (List Nat × Nat)
  | _, [] => []
  | before, b :: bs => deletionsAt P σ lists before b ++ deletions (before ++ [b]) bs

/-- The result of the phi is no zero version, or it is the definition of a zero version that is fixed by a deletion
before its own. -/
inductive BecomesReal (dels : List (List Nat × Nat)) : Nat → Prop
  | own {p : Nat} : σ.resultZero (.phi p) = false → BecomesReal dels p
  | fixed {a c : List (List Nat × Nat)} {before : List Nat} {q p k : Nat} : dels = a ++ (before, q) :: c →
    p ∈ c.map Prod.snd → σ.live q = true → BecomesReal dels q → k < (σ.node q).size → σ.opndZero q k = true →
    (cleared P σ.toPhiLists before).Finds P q k (.phi p) → BecomesReal dels p

/-- Every zero version that is fixed when the phi is deleted is the operand of a predecessor. -/
def Fits (dels : List (List Nat × Nat)) (p : Nat) : Prop :=
  σ.live p = true → BecomesReal P σ dels p → ∀ k, k < (σ.node p).size → σ.opndZero p k = true →
    k < (P.preds (σ.node p).bb).length

/-- A deletion fixes a zero version with the phi `p`. -/
def FixedBy (dels : List (List Nat × Nat)) (x : List Nat × Nat) (p : Nat) : Prop :=
  (σ.live x.2 = true ∧ BecomesReal P σ dels x.2) ∧ ∃ k, k < (σ.node x.2).size ∧ σ.opndZero x.2 k = true ∧
    (cleared P σ.toPhiLists x.1).Finds P x.2 k (.phi p)

end Deletions

variable {P : Prog} {σ : State} {lists : Nat → List Nat} {dels : List (List Nat × Nat)}

theorem deletions_snd (before bs : List Nat) :
    (deletions P σ lists before bs).map Prod.snd = (bs.filter (stale P σ.toPhiLists)).flatMap lists := by
  induction bs generalizing before with
  | nil => rfl
  | cons b bs ih =>
    rw [deletions, List.map_append, ih, deletionsAt, List.filter_cons]
    split_ifs
    · rw [List.flatMap_cons, List.map_map]
      congr 1
      exact List.map_id _
    · rfl

theorem nodup_deletions (hlisted : Listed P σ lists) {bs : List Nat} (hbs : bs.Nodup) :
    ((deletions P σ lists [] bs).map Prod.snd).Nodup := by
  rw [deletions_snd, List.nodup_flatMap]
  refine ⟨fun b _ => (hlisted.links b).nodup, (hbs.filter _).imp fun hne => ?_⟩
  intro p hp hp'
  exact hne (hlisted.eq_of_mem hp hp')

theorem mem_of_split {α : Type*} {f : α → Nat} {l a c d t : List α} {x y : α} (hnodup : (l.map f).Nodup)
    (hx : l = a ++ x :: c) (hy : l = d ++ y :: t) (hmem : f y ∈ c.map f) : x ∈ d := by
  have hnotc : f x ∉ c.map f := by
    rw [hx, List.map_append, List.map_cons] at hnodup
    exact (List.nodup_cons.mp hnodup.of_append_right).1
  have hnott : f y ∉ t.map f := by
    rw [hy, List.map_append, List.map_cons] at hnodup
    exact (List.nodup_cons.mp hnodup.of_append_right).1
  rcases List.append_eq_append_iff.mp (hx.symm.trans hy) with ⟨e, rfl, he⟩ | ⟨e, rfl, he⟩
  · rcases e with _ | ⟨z, e⟩
    · rw [List.nil_append, List.cons.injEq] at he
      rw [he.1] at hnotc
      exact absurd hmem hnotc
    · rw [List.cons_append, List.cons.injEq] at he
      rw [he.1]
      exact List.mem_append_right _ (List.mem_cons_self ..)
  · rcases e with _ | ⟨z, e⟩
    · rw [List.nil_append, List.cons.injEq] at he
      rw [← he.1] at hnotc
      exact absurd hmem hnotc
    · rw [List.cons_append, List.cons.injEq] at he
      refine absurd ?_ hnott
      rw [he.2, List.map_append, List.map_cons]
      exact List.mem_append_right _ (List.mem_cons_of_mem _ hmem)

theorem becomesReal_iff {done todo : List (List Nat × Nat)} {x : List Nat × Nat} (hnodup : (dels.map Prod.snd).Nodup)
    (hdels : dels = done ++ x :: todo) :
    (σ.resultZero (.phi x.2) = false ∨ ∃ y ∈ done, FixedBy P σ dels y x.2) ↔ BecomesReal P σ dels x.2 := by
  constructor
  · rintro (hown | ⟨y, hy, ⟨hlive, hreal⟩, k, hk, hzero, hfinds⟩)
    · exact .own hown
    · obtain ⟨a, c, rfl⟩ := List.append_of_mem hy
      refine .fixed (a := a) (c := c ++ x :: todo) ?_ ?_ hlive hreal hk hzero hfinds
      · rw [hdels, List.append_assoc, List.cons_append]
      · rw [List.map_append, List.map_cons]
        exact List.mem_append_right _ (List.mem_cons_self ..)
  · intro h
    cases h with
    | own h => exact .inl h
    | fixed hsplit hlater hlive hreal hk hzero hfinds =>
      exact .inr ⟨_, mem_of_split hnodup hsplit hdels hlater, ⟨hlive, hreal⟩, _, hk, hzero, hfinds⟩

theorem cleared_append_of_not {s : PhiLists} {before : List Nat} {b : Nat} (hnot : stale P s b = false) :
    cleared P s (before ++ [b]) = cleared P s before := by
  have hiff : ∀ c, (c ∈ before ++ [b] ∧ stale P s c = true) ↔ (c ∈ before ∧ stale P s c = true) := by
    intro c
    rw [List.mem_append, List.mem_singleton, or_and_right, or_iff_left]
    rintro ⟨rfl, hc⟩
    rw [hnot] at hc
    exact Bool.false_ne_true hc
  simp only [cleared, hiff]

theorem ite_append {α : Type*} {f a : Nat → α} {s : PhiLists} {before : List Nat} {b : Nat} (hst : stale P s b = true) :
    (fun c => if c ∈ before ++ [b] ∧ stale P s c = true then a c else f c) =
      Function.update (fun c => if c ∈ before ∧ stale P s c = true then a c else f c) b (a b) := by
  funext c
  by_cases hc : c = b
  · subst hc
    rw [Function.update_self, if_pos ⟨List.mem_append_right _ (List.mem_singleton_self c), hst⟩]
  · rw [Function.update_of_ne hc]
    simp only [List.mem_append, List.mem_singleton, hc, or_false]

theorem cleared_append {s : PhiLists} {before : List Nat} {b : Nat} (hst : stale P s b = true) :
    cleared P s (before ++ [b]) = { cleared P s before with
      head := Function.update (cleared P s before).head b (-1)
      tail := Function.update (cleared P s before).tail b (-1)
      inDegree := Function.update (cleared P s before).inDegree b (P.preds b).length } := by
  unfold cleared
  rw [ite_append (a := fun _ => -1) hst, ite_append (a := fun _ => -1) hst,
    ite_append (a := fun c => (P.preds c).length) hst]

/-! ## Between two deletions -/

/-- The state after the blocks `before` and the deletions `done`. -/
structure Clearing (P : Prog) (σ : State) (lists : Nat → List Nat) (dels : List (List Nat × Nat)) (before : List Nat)
    (done todo : List (List Nat × Nat)) (s : State) : Prop where
  phiLists : s.toPhiLists = cleared P σ.toPhiLists before
  live : s.live = σ.live
  opnds : ∀ x ∈ todo, s.opndZero x.2 = σ.opndZero x.2
  result : ∀ x ∈ todo, s.resultZero (.phi x.2) = false ↔
    σ.resultZero (.phi x.2) = false ∨ ∃ y ∈ done, FixedBy P σ dels y x.2
  hash : ∀ b v p, s.hash b v = some p ↔ σ.hash b v = some p ∧ p ∉ done.map Prod.snd
  visited : ∀ b ∈ before, stale P σ.toPhiLists b = false → ∀ p ∈ lists b, s.visited p = false

theorem Clearing.same {before : List Nat} {done todo : List (List Nat × Nat)} {s : State}
    (h : Clearing P σ lists dels before done todo s) : s.node = σ.node ∧ s.next = σ.next ∧ s.fresh = σ.fresh := by
  rw [h.phiLists]
  exact ⟨rfl, rfl, rfl⟩

/-- A run that succeeds exactly when `ok`. -/
structure Succeeds (r : Option State) (ok : Prop) (post : State → Prop) : Prop where
  of_ok : ok → ∃ s, r = some s ∧ post s
  of_not : ¬ok → r = none

theorem Succeeds.bind {r : Option State} {f : State → Option State} {ok ok' : Prop} {post post' : State → Prop}
    (h : Succeeds r ok post) (h' : ∀ s, post s → Succeeds (f s) ok' post') :
    Succeeds (r.bind f) (ok ∧ ok') post' where
  of_ok := fun ⟨hok, hok'⟩ => by
    obtain ⟨s, hs, hpost⟩ := h.of_ok hok
    rw [hs]
    exact (h' s hpost).of_ok hok'
  of_not := fun hnot => by
    by_cases hok : ok
    · obtain ⟨s, hs, hpost⟩ := h.of_ok hok
      rw [hs]
      exact (h' s hpost).of_not fun hok' => hnot ⟨hok, hok'⟩
    · rw [h.of_not hok]
      rfl

theorem Succeeds.mono {r : Option State} {ok ok' : Prop} {post post' : State → Prop} (h : Succeeds r ok post)
    (hok : ok ↔ ok') (hpost : ∀ s, post s → post' s) : Succeeds r ok' post' where
  of_ok := fun h' => by
    obtain ⟨s, hs, hp⟩ := h.of_ok (hok.mpr h')
    exact ⟨s, hs, hpost s hp⟩
  of_not h' := h.of_not fun h'' => h' (hok.mp h'')

theorem Succeeds.of_eq_some {r : Option State} {s : State} {post : State → Prop} (hr : r = some s) (hs : post s) :
    Succeeds r True post where
  of_ok _ := ⟨s, hr, hs⟩
  of_not h := absurd trivial h

section Run

variable (hlisted : Listed P σ lists) (hnodup : (dels.map Prod.snd).Nodup) {before : List Nat}
  {done todo : List (List Nat × Nat)} {s : State} {p : Nat}
include hlisted

theorem chained_cleared (before : List Nat) : (cleared P σ.toPhiLists before).Chained := by
  intro b
  unfold cleared
  dsimp only
  split_ifs
  · exact ⟨[], rfl, fun p hp => absurd hp List.not_mem_nil⟩
  · exact ⟨lists b, hlisted.links b, hlisted.made b⟩

include hnodup

/-- One deletion. -/
theorem Clearing.delete (h : Clearing P σ lists dels before done ((before, p) :: todo) s)
    (hdels : dels = done ++ (before, p) :: todo) (hp : ∃ b, p ∈ lists b) :
    Succeeds (deleteVarPhi P s p) (Fits P σ dels p)
      (Clearing P σ lists dels before (done ++ [(before, p)]) todo) := by
  have hchain : s.Chained := h.phiLists ▸ chained_cleared hlisted before
  have hnode := h.same.1
  have hfixing : s.Fixing p ↔ σ.live p = true ∧ BecomesReal P σ dels p := by
    rw [State.Fixing, h.live, ← becomesReal_iff hnodup hdels, h.result _ (List.mem_cons_self ..)]
  have hopnd : s.opndZero p = σ.opndZero p := h.opnds _ (List.mem_cons_self ..)
  have hnot : ∀ x ∈ todo, x.2 ≠ p := by
    intro x hx heq
    rw [hdels, List.map_append, List.map_cons] at hnodup
    exact (List.nodup_cons.mp hnodup.of_append_right).1 (List.mem_map.mpr ⟨x, hx, heq⟩)
  constructor
  · intro hfits
    obtain ⟨o, z, hrun, hothers, hresult⟩ := deleteVarPhi_spec (P := P) (s := s) (p := p) hchain fun hfix => by
      rw [hnode, hopnd]
      exact hfits (hfixing.mp hfix).1 (hfixing.mp hfix).2
    refine ⟨_, hrun, h.phiLists, h.live, fun x hx => ?_, fun x hx => ?_, fun b v q => ?_, h.visited⟩
    · exact (hothers _ (hnot x hx)).trans (h.opnds x (List.mem_cons_of_mem _ hx))
    · refine (hresult _).trans ?_
      rw [h.result x (List.mem_cons_of_mem _ hx), or_assoc]
      refine or_congr_right ?_
      simp only [List.mem_append, List.mem_singleton, or_and_right, exists_or, exists_eq_left]
      refine or_congr_right ?_
      rw [FixedBy, hfixing, hnode, hopnd, h.phiLists]
    · obtain ⟨b₀, hp⟩ := hp
      have hhash := (hlisted.hash b₀ _ p).mpr ⟨hp, rfl⟩
      have hbb := hlisted.bb b₀ p hp
      refine (removed_iff (p := p) (fun q hq => ?_) (fun b v hb => ?_) b v q).trans ?_
      · rw [hnode, hbb] at hq
        exact Option.some_inj.mp (((h.hash _ _ q).mp hq).1.symm.trans hhash)
      · obtain ⟨hmem, hv⟩ := (hlisted.hash b v p).mp ((h.hash b v p).mp hb).1
        rw [hnode, hlisted.bb b p hmem]
        exact ⟨rfl, hv.symm⟩
      · rw [h.hash, List.map_append, List.mem_append, not_or, and_assoc, List.map_singleton, List.mem_singleton]
  · intro hfits
    unfold Fits at hfits
    simp only [Classical.not_imp] at hfits
    obtain ⟨hlive, hreal, hlen⟩ := hfits
    refine deleteVarPhi_none hchain (hfixing.mpr ⟨hlive, hreal⟩) ?_
    rw [hnode, hopnd]
    exact hlen

theorem Clearing.deleteList {fuel : Nat} {phi : Int} {l : List Nat} (hlinks : Links σ.next phi l)
    (hfuel : l.length < fuel) (hmem : ∃ b, ∀ p ∈ l, p ∈ lists b)
    (h : Clearing P σ lists dels before done (l.map (fun p => (before, p)) ++ todo) s)
    (hdels : dels = done ++ (l.map (fun p => (before, p)) ++ todo)) :
    Succeeds (deleteList P fuel s phi) (∀ p ∈ l, Fits P σ dels p)
      (Clearing P σ lists dels before (done ++ l.map fun p => (before, p)) todo) := by
  induction l generalizing fuel s phi done with
  | nil =>
    obtain ⟨n, rfl⟩ := Nat.exists_eq_add_one_of_ne_zero (Nat.ne_of_gt hfuel)
    have hend : phi = -1 := hlinks
    rw [Rename.deleteList, if_pos hend, List.map_nil, List.append_nil]
    refine (Succeeds.of_eq_some rfl h).mono ?_ fun _ hs => hs
    exact ⟨fun _ p hp => absurd hp List.not_mem_nil, fun _ => trivial⟩
  | cons p l ih =>
    obtain ⟨n, rfl⟩ := Nat.exists_eq_add_one_of_ne_zero (Nat.ne_of_gt (Nat.zero_lt_of_lt hfuel))
    obtain ⟨rfl, hlinks⟩ := hlinks
    obtain ⟨b, hb⟩ := hmem
    rw [Rename.deleteList, if_neg (by omega), Int.toNat_natCast, h.same.2.1]
    refine (Succeeds.bind (h.delete hlisted hnodup hdels ⟨b, hb p (List.mem_cons_self ..)⟩)
      fun s' hs' => ih hlinks (by rw [List.length_cons] at hfuel; omega)
        ⟨b, fun q hq => hb q (List.mem_cons_of_mem _ hq)⟩ hs' ?_).mono ?_ fun s' hs' => ?_
    · rw [hdels, List.append_assoc, List.singleton_append]
      rfl
    · exact List.forall_mem_cons.symm
    · rw [List.append_assoc, List.singleton_append] at hs'
      exact hs'

/-- One block of the first loop. -/
theorem Clearing.clearStale {b : Nat} (hb : b ∉ before)
    (h : Clearing P σ lists dels before done (deletionsAt P σ lists before b ++ todo) s)
    (hdels : dels = done ++ (deletionsAt P σ lists before b ++ todo)) :
    Succeeds (clearStale P s b) (∀ x ∈ deletionsAt P σ lists before b, Fits P σ dels x.2)
      (Clearing P σ lists dels (before ++ [b]) (done ++ deletionsAt P σ lists before b) todo) := by
  obtain ⟨-, hnext, hfresh⟩ := h.same
  have hhead : s.head b = σ.head b := by
    rw [h.phiLists]
    exact if_neg fun hmem => hb hmem.1
  have hstale : stale P s.toPhiLists b = stale P σ.toPhiLists b := by
    rw [h.phiLists]
    unfold stale cleared
    dsimp only
    rw [if_neg fun hmem => hb hmem.1]
  have hnone : stale P σ.toPhiLists b = false → deletionsAt P σ lists before b = [] := fun hnot => by
    rw [deletionsAt, hnot]
    rfl
  -- nothing is deleted, and the phis of the block are not visited afterwards
  have hkeep : ∀ u, stale P σ.toPhiLists b = false → (∀ p ∈ lists b, u p = false) →
      (∀ p, s.visited p = false → u p = false) → Clearing P σ lists dels (before ++ [b])
        (done ++ deletionsAt P σ lists before b) todo { s with visited := u } := by
    intro u hnot hall hmono
    rw [hnone hnot] at h ⊢
    rw [List.append_nil]
    refine ⟨h.phiLists.trans (cleared_append_of_not hnot).symm, h.live, h.opnds, h.result, h.hash, fun c hc hnotc p hp => ?_⟩
    rcases List.mem_append.mp hc with hc | hc
    · exact hmono p (h.visited c hc hnotc p hp)
    · rw [List.mem_singleton.mp hc] at hp
      exact hall p hp
  have hok : stale P σ.toPhiLists b = false → (True ↔ ∀ x ∈ deletionsAt P σ lists before b, Fits P σ dels x.2) := by
    intro hnot
    rw [hnone hnot]
    exact ⟨fun _ x hx => absurd hx List.not_mem_nil, fun _ => trivial⟩
  unfold Rename.clearStale
  by_cases hlist : P.hasPhiList b = true
  · rw [if_neg (by rw [hlist]; exact Bool.false_ne_true), hstale]
    by_cases hst : stale P σ.toPhiLists b = true
    · rw [if_pos hst]
      have hat : deletionsAt P σ lists before b = (lists b).map fun p => (before, p) := if_pos hst
      rw [hat] at h hdels ⊢
      refine (Succeeds.bind (h.deleteList hlisted hnodup (hhead ▸ hlisted.links b) (hfresh ▸ hlisted.length_le b)
        ⟨b, fun p hp => hp⟩ hdels) fun s' hs' => Succeeds.of_eq_some rfl ?_).mono ?_ fun _ hs => hs
      · refine ⟨?_, hs'.live, hs'.opnds, hs'.result, hs'.hash, fun c hc hnotc p hp => ?_⟩
        · rw [cleared_append hst, ← hs'.phiLists]
        · rcases List.mem_append.mp hc with hc | hc
          · exact hs'.visited c hc hnotc p hp
          · rw [List.mem_singleton.mp hc, hst] at hnotc
            exact absurd hnotc.symm Bool.false_ne_true
      · rw [and_true]
        constructor
        · rintro hall x hx
          obtain ⟨p, hp, rfl⟩ := List.mem_map.mp hx
          exact hall p hp
        · exact fun hall p hp => hall (before, p) (List.mem_map_of_mem hp)
    · have hnot := eq_false_of_ne_true hst
      rw [if_neg hst]
      refine (Succeeds.of_eq_some (resetList_eq (l := lists b) ?_ (hfresh ▸ hlisted.length_le b))
        (hkeep _ hnot (fun p hp => ?_) fun p hp => ?_)).mono (hok hnot) fun _ hs => hs
      · rw [hhead, hnext]
        exact hlisted.links b
      · rw [decide_eq_true hp]
        rfl
      · rw [hp, Bool.and_false]
  · have hnot : stale P σ.toPhiLists b = false := by
      unfold stale
      rw [eq_false_of_ne_true hlist]
      rfl
    rw [if_pos (by rw [eq_false_of_ne_true hlist]; rfl)]
    refine (Succeeds.of_eq_some rfl (hkeep s.visited hnot (fun p hp => ?_) fun _ hp => hp)).mono (hok hnot) fun _ hs => hs
    rw [hlisted.noList b (eq_false_of_ne_true hlist)] at hp
    exact absurd hp List.not_mem_nil

theorem Clearing.run {bs : List Nat} (hbs : (before ++ bs).Nodup)
    (h : Clearing P σ lists dels before done (deletions P σ lists before bs) s)
    (hdels : dels = done ++ deletions P σ lists before bs) :
    Succeeds (bs.foldlM (Rename.clearStale P) s) (∀ x ∈ deletions P σ lists before bs, Fits P σ dels x.2)
      (Clearing P σ lists dels (before ++ bs) dels []) := by
  induction bs generalizing before done s with
  | nil =>
    rw [deletions, List.append_nil] at hdels
    rw [List.append_nil, List.foldlM_nil, hdels]
    rw [deletions] at h ⊢
    refine (Succeeds.of_eq_some rfl (hdels ▸ h)).mono ?_ fun _ hs => hdels ▸ hs
    exact ⟨fun _ x hx => absurd hx List.not_mem_nil, fun _ => trivial⟩
  | cons b bs ih =>
    have hb : b ∉ before := fun hb => (List.nodup_append.mp hbs).2.2 b hb b (List.mem_cons_self ..) rfl
    rw [deletions] at h hdels ⊢
    rw [List.foldlM_cons]
    refine (Succeeds.bind (h.clearStale hlisted hnodup hb hdels) fun s' hs' => ih ?_ hs' ?_).mono ?_ fun s' hs' => ?_
    · rw [List.append_assoc, List.singleton_append]
      exact hbs
    · rw [List.append_assoc]
      exact hdels
    · exact List.forall_mem_append.symm
    · rw [List.append_assoc, List.singleton_append] at hs'
      exact hs'

end Run

/-! ## The first loop -/

theorem mem_deletions_iff (hblocks : ∀ b, P.hasPhiList b = true → b ∈ P.blocks) (h : Listed P σ lists) {b p : Nat}
    (hp : p ∈ lists b) : p ∈ (deletions P σ lists [] P.blocks).map Prod.snd ↔ stale P σ.toPhiLists b = true := by
  rw [deletions_snd, List.mem_flatMap]
  constructor
  · rintro ⟨c, hc, hpc⟩
    rw [h.eq_of_mem hp hpc]
    exact (List.mem_filter.mp hc).2
  · exact fun hst => ⟨b, List.mem_filter.mpr ⟨hblocks b (h.hasPhiList hp), hst⟩, hp⟩

/-- The first loop succeeds when its deletions fit. It leaves phis with an operand for each predecessor, none of them
visited. -/
theorem clear_spec (hnodup : P.blocks.Nodup) (hblocks : ∀ b, P.hasPhiList b = true → b ∈ P.blocks)
    (h : Listed P σ lists) : Succeeds (P.blocks.foldlM (clearStale P) σ)
      (∀ x ∈ deletions P σ lists [] P.blocks, Fits P σ (deletions P σ lists [] P.blocks) x.2)
      fun s => Placing P s ∧ ∀ b v p, s.hash b v = some p → s.visited p = false := by
  have hstart : Clearing P σ lists (deletions P σ lists [] P.blocks) [] [] (deletions P σ lists [] P.blocks) σ := by
    refine ⟨?_, rfl, fun _ _ => rfl, fun x _ => ?_, fun b v p => ?_, fun b hb => absurd hb List.not_mem_nil⟩
    · unfold cleared
      simp only [List.not_mem_nil, false_and, if_false]
    · simp only [List.not_mem_nil, false_and, exists_false, or_false]
    · rw [List.map_nil, and_iff_left List.not_mem_nil]
  refine (Clearing.run h (nodup_deletions h hnodup) (by rwa [List.nil_append]) hstart rfl).mono Iff.rfl fun s hs => ?_
  rw [List.nil_append] at hs
  obtain ⟨hnode, hnext, hfresh⟩ := hs.same
  have hmem : ∀ b, b ∈ P.blocks ∧ stale P σ.toPhiLists b = true ↔ stale P σ.toPhiLists b = true := by
    intro b
    refine and_iff_right_of_imp fun hst => hblocks b ?_
    exact (Bool.and_eq_true_iff.mp hst).1
  have hcleared : ∀ b p, p ∈ (if stale P σ.toPhiLists b then [] else lists b) ↔
      p ∈ lists b ∧ stale P σ.toPhiLists b = false := by
    intro b p
    by_cases hst : stale P σ.toPhiLists b = true
    · rw [if_pos hst, hst]
      exact iff_of_false List.not_mem_nil fun h => absurd h.2.symm Bool.false_ne_true
    · rw [if_neg hst]
      exact (and_iff_left (eq_false_of_ne_true hst)).symm
  have hdegree : ∀ b, s.inDegree b = if stale P σ.toPhiLists b then (P.preds b).length else σ.inDegree b := fun b => by
    rw [hs.phiLists]
    exact if_congr (hmem b) rfl rfl
  have hlisted : Listed P s fun b => if stale P σ.toPhiLists b then [] else lists b := by
    refine ⟨fun b => ?_, fun b hb => ?_, fun b hb => ?_, fun b p hp => ?_, fun b p hp => ?_, fun b p hp => ?_,
      fun b v p => ?_⟩
    · rw [hnext, hs.phiLists]
      unfold cleared
      dsimp only
      rw [if_congr (hmem b) rfl rfl]
      split_ifs
      · rfl
      · exact h.links b
    · rw [hs.phiLists]
      unfold cleared
      dsimp only
      rw [if_congr (hmem b) rfl rfl]
      split_ifs
      · rfl
      · exact h.tail b hb
    · rw [h.noList b hb, ite_self]
    · rw [hfresh]
      exact h.made b p ((hcleared b p).mp hp).1
    · rw [hnode]
      exact h.bb b p ((hcleared b p).mp hp).1
    · obtain ⟨hp, hst⟩ := (hcleared b p).mp hp
      rw [hnode, hdegree, hst]
      exact h.size b p hp
    · rw [hs.hash, hcleared, h.hash, hnode, and_right_comm]
      refine and_congr_left fun _ => and_congr_right fun hp => ?_
      rw [mem_deletions_iff hblocks h hp, Bool.not_eq_true]
  refine ⟨⟨⟨_, hlisted⟩, fun b hb => ?_⟩, fun b v p hp => ?_⟩
  · rw [hdegree]
    by_cases hst : stale P σ.toPhiLists b = true
    · rw [if_pos hst]
    · rw [if_neg hst]
      unfold stale at hst
      rw [hb, Bool.true_and, bne_iff_ne, not_not] at hst
      exact hst
  · obtain ⟨hp, -⟩ := (hlisted.hash b v p).mp hp
    exact hs.visited b (hblocks b (hlisted.hasPhiList hp)) ((hcleared b p).mp hp).2 p ((hcleared b p).mp hp).1

end Path64.Rename

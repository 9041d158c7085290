import Path64.Lib.Marking
import Path64.Rename.Listed

/-!
# Marking the phis that are needed

* `marked s` : the variables and blocks with a phi that is visited, `Prog.Next` : a phi needs those at its frontier;
* `Placing.newPhi`, `Placing.visit` : a new phi, and an old one that is visited;
* `Places P T s r` : the run marks what the frontiers lead to from `T`, or it meets a block with too many predecessors;
* `insertVarPhi_places`, `markBlocks_places` : `Insert_var_phi`, and the second loop.
-/

namespace Path64.Rename

open Path64.Lists (Links)
open Path64.Lib (Marks)

/-! ## Marked phis -/

/-- The variables and blocks with a phi that is visited. -/
def marked (s : State) : Set (Nat × Nat) := {x | ∃ p, s.hash x.2 x.1 = some p ∧ s.visited p = true}

/-- A phi for the variable at `x` makes one at `y` necessary. -/
def Prog.Next (P : Prog) (x y : Nat × Nat) : Prop := y.1 = x.1 ∧ y.2 ∈ P.domFrontier x.2

/-- The blocks without a visited phi for the variable. -/
def unmarked (P : Prog) (s : State) (aux : Nat) : Nat :=
  (P.blocks.filter fun y => !(s.hash y aux).any s.visited).length

variable {P : Prog} {s s' : State} {lists : Nat → List Nat} {aux b v : Nat}

theorem mem_marked_iff : (aux, b) ∈ marked s ↔ (s.hash b aux).any s.visited = true :=
  (Option.any_eq_true ..).symm

theorem unmarked_le (h : marked s ⊆ marked s') (aux : Nat) : unmarked P s' aux ≤ unmarked P s aux := by
  refine (List.monotone_filter_right P.blocks fun y hy => ?_).length_le
  rw [Bool.not_eq_true', ← Bool.not_eq_true, ← mem_marked_iff] at hy ⊢
  exact fun hmem => hy (h hmem)

theorem unmarked_lt (h : insert (aux, b) (marked s) ⊆ marked s') (hb : b ∈ P.blocks) (hnot : (aux, b) ∉ marked s) :
    unmarked P s' aux < unmarked P s aux := by
  have hle := (Set.subset_insert (aux, b) (marked s)).trans h
  have hsame : (P.blocks.filter fun y => !(s'.hash y aux).any s'.visited) =
      (P.blocks.filter fun y => !(s.hash y aux).any s.visited).filter fun y => !(s'.hash y aux).any s'.visited := by
    rw [List.filter_filter]
    refine List.filter_congr fun y _ => ?_
    rw [Bool.eq_iff_iff, Bool.and_eq_true]
    refine (and_iff_left_of_imp fun hy => ?_).symm
    rw [Bool.not_eq_true', ← Bool.not_eq_true, ← mem_marked_iff] at hy ⊢
    exact fun hmem => hy (hle hmem)
  unfold unmarked
  rw [hsame, List.length_filter_lt_length_iff_exists]
  refine ⟨b, List.mem_filter.mpr ⟨hb, ?_⟩, ?_⟩
  · rw [Bool.not_eq_true', ← Bool.not_eq_true, ← mem_marked_iff]
    exact hnot
  · rw [Bool.not_eq_true', ← Bool.not_eq_true, ← mem_marked_iff, not_not]
    exact h (Set.mem_insert _ _)

theorem Listed.of_eq (h : Listed P s lists) (hlists : s'.toPhiLists = s.toPhiLists) (hhash : s'.hash = s.hash) :
    Listed P s' lists := by
  obtain ⟨l, live, dead, visited, o, z, hash⟩ := s'
  dsimp only at hlists hhash
  subst hlists hhash
  exact ⟨h.links, h.tail, h.noList, h.made, h.bb, h.size, h.hash⟩

/-- A visited phi. -/
theorem Placing.visit {phi : Nat} (h : Placing P s) (hphi : s.hash b aux = some phi) :
    Placing P { s with visited := Function.update s.visited phi true } ∧
      marked { s with visited := Function.update s.visited phi true } = insert (aux, b) (marked s) := by
  obtain ⟨⟨lists, hlisted⟩, hdegree⟩ := h
  refine ⟨⟨⟨lists, hlisted.of_eq rfl rfl⟩, hdegree⟩, ?_⟩
  ext ⟨w, y⟩
  rw [Set.mem_insert_iff, Prod.mk.injEq]
  constructor
  · rintro ⟨q, hq, hvisited⟩
    by_cases hqphi : q = phi
    · -- a phi is entered for its own block and variable only
      obtain ⟨hmem, hw⟩ := (hlisted.hash y w q).mp hq
      obtain ⟨hmem', hw'⟩ := (hlisted.hash b aux phi).mp hphi
      subst hqphi
      exact .inl ⟨hw.symm.trans hw', hlisted.eq_of_mem hmem hmem'⟩
    · dsimp only at hvisited
      rw [Function.update_of_ne hqphi] at hvisited
      exact .inr ⟨q, hq, hvisited⟩
  · rintro (⟨rfl, rfl⟩ | ⟨q, hq, hvisited⟩)
    · exact ⟨phi, hphi, Function.update_self ..⟩
    · refine ⟨q, hq, ?_⟩
      dsimp only
      by_cases hqphi : q = phi
      · rw [hqphi, Function.update_self]
      · rw [Function.update_of_ne hqphi]
        exact hvisited

/-! ## A new phi -/

theorem append_node (t : PhiLists) (b p : Nat) : (t.append b p).node = t.node ∧ (t.append b p).fresh = t.fresh ∧
    (t.append b p).inDegree = t.inDegree ∧ (t.append b p).tail = Function.update t.tail b p := by
  unfold PhiLists.append
  split_ifs <;> exact ⟨rfl, rfl, rfl, rfl⟩

/-- `Append` puts the phi at the end of its list and leaves the others. -/
theorem append_links {t : PhiLists} {p : Nat} (hlinks : ∀ c, Links t.next (t.head c) (lists c))
    (hdisj : ∀ c, c ≠ b → ∀ q ∈ lists c, q ∉ lists b) (htail : t.tail b = lastPhi (lists b))
    (hp : ∀ c, p ∉ lists c) (hnext : t.next p = -1) (c : Nat) :
    Links (t.append b p).next ((t.append b p).head c) (Function.update lists b (lists b ++ [p]) c) := by
  unfold PhiLists.append
  have hstart := (hlinks b).start_eq_neg_one_iff
  by_cases hempty : t.head b = -1
  · rw [if_pos hempty]
    by_cases hc : c = b
    · subst hc
      rw [Function.update_self, hstart.mp hempty]
      dsimp only
      rw [Function.update_self]
      exact ⟨rfl, hnext⟩
    · rw [Function.update_of_ne hc]
      dsimp only
      rw [Function.update_of_ne hc]
      exact hlinks c
  · rw [if_neg hempty]
    obtain ⟨a, q, hlast⟩ := (List.eq_nil_or_concat (lists b)).resolve_left fun h => hempty (hstart.mpr h)
    rw [List.concat_eq_append] at hlast
    have htq : t.tail b = q := by rw [htail, hlast, lastPhi_append]
    have hqb : q ∈ lists b := hlast ▸ List.mem_append_right a (List.mem_singleton_self q)
    have hqp : q ≠ p := fun h => hp b (h ▸ hqb)
    have hqend : t.next q = -1 := Links.next_of_split (l := []) (hlast ▸ hlinks b)
    dsimp only
    rw [htq, Int.toNat_natCast, hqend]
    by_cases hc : c = b
    · subst hc
      have hnodup : (a ++ [q]).Nodup := hlast ▸ (hlinks c).nodup
      rw [Function.update_self, hlast, List.append_assoc, List.singleton_append]
      refine Links.splice (l := []) (hlast ▸ hlinks c) (fun i hi => ?_) ?_
      · have hiq : i ≠ q := fun h => by
          rw [List.nodup_append] at hnodup
          exact hnodup.2.2 i hi q (List.mem_singleton_self q) h
        have hip : i ≠ p := fun h => hp c (h ▸ hlast ▸ List.mem_append_left _ hi)
        rw [Function.update_of_ne hiq, Function.update_of_ne hip]
      · rw [Function.update_self]
        refine ⟨rfl, ?_⟩
        show _ = _
        rw [Function.update_of_ne hqp.symm, Function.update_self]
    · rw [Function.update_of_ne hc]
      refine (hlinks c).congr fun i hi => ?_
      have hiq : i ≠ q := fun h => hdisj c hc i hi (h ▸ hqb)
      have hip : i ≠ p := fun h => hp c (h ▸ hi)
      rw [Function.update_of_ne hiq, Function.update_of_ne hip]

theorem newPhiNode_none (h : 2 ^ 15 ≤ s.inDegree b) : newPhiNode s b aux = none := if_pos h

theorem entered_iff {hash : Nat → Nat → Option Nat} {p : Nat} (hnone : hash b aux = none) (c w q : Nat) :
    Function.update hash b (Function.update (hash b) aux (some p)) c w = some q ↔
      hash c w = some q ∨ q = p ∧ c = b ∧ w = aux := by
  by_cases hc : c = b
  · subst hc
    rw [Function.update_self]
    by_cases hw : w = aux
    · subst hw
      rw [Function.update_self, hnone, Option.some_inj]
      exact ⟨fun h => .inr ⟨h.symm, rfl, rfl⟩, fun h => (h.resolve_left (Option.some_ne_none q).symm).1.symm⟩
    · rw [Function.update_of_ne hw]
      exact (or_iff_left fun h => hw h.2.2).symm
  · rw [Function.update_of_ne hc]
    exact (or_iff_left fun h => hc h.2.1).symm

section NewPhi

variable (hlisted : Listed P s lists)
include hlisted

theorem Listed.not_mem_fresh (c : Nat) : s.fresh ∉ lists c := fun h => Nat.lt_irrefl _ (hlisted.made c _ h)

/-- The lists after `New_phi_node` and `Enter_var_phi_hash`. -/
theorem Listed.newPhi (hlist : P.hasPhiList b = true) (hnone : s.hash b aux = none) (hsmall : s.inDegree b < 2 ^ 15)
    {t : PhiLists} (ht : t = { s.toPhiLists with
      fresh := s.fresh + 1
      node := Function.update s.node s.fresh ⟨aux, b, s.inDegree b⟩
      next := Function.update s.next s.fresh (-1) })
    (hs' : s'.toPhiLists = t.append b s.fresh)
    (hhash : s'.hash = Function.update s.hash b (Function.update (s.hash b) aux (some s.fresh))) :
    Listed P s' (Function.update lists b (lists b ++ [s.fresh])) := by
  obtain ⟨hnode, hfresh, hdegree, htail⟩ := append_node t b s.fresh
  rw [← hs', ht] at hnode hfresh hdegree htail
  have hmem : ∀ c p, p ∈ Function.update lists b (lists b ++ [s.fresh]) c ↔ p ∈ lists c ∨ p = s.fresh ∧ c = b := by
    intro c p
    by_cases hc : c = b
    · subst hc
      rw [Function.update_self, List.mem_append, List.mem_singleton, and_iff_left rfl]
    · rw [Function.update_of_ne hc]
      exact (or_iff_left fun h => hc h.2).symm
  have hne : ∀ c, ∀ p ∈ lists c, p ≠ s.fresh := fun c p hp h => hlisted.not_mem_fresh c (h ▸ hp)
  have hold : ∀ c, ∀ p ∈ lists c, s'.node p = s.node p := fun c p hp => by
    rw [hnode]
    exact Function.update_of_ne (hne c p hp) _ _
  have hnew : s'.node s.fresh = ⟨aux, b, s.inDegree b⟩ := by
    rw [hnode]
    exact Function.update_self ..
  refine ⟨fun c => ?_, fun c hc => ?_, fun c hc => ?_, fun c p hp => ?_, fun c p hp => ?_, fun c p hp => ?_,
    fun c w p => ?_⟩
  · rw [hs']
    refine append_links (fun c => ?_) (fun c hc q hq hqb => hc (hlisted.eq_of_mem hq hqb)) ?_ hlisted.not_mem_fresh ?_ c
    · rw [ht]
      exact (hlisted.links c).congr fun i hi => Function.update_of_ne (hne c i hi) _ _
    · rw [ht]
      exact hlisted.tail b hlist
    · rw [ht]
      exact Function.update_self ..
  · rw [htail]
    by_cases hcb : c = b
    · subst hcb
      rw [Function.update_self, Function.update_self, lastPhi_append]
    · rw [Function.update_of_ne hcb, Function.update_of_ne hcb]
      exact hlisted.tail c hc
  · have hcb : c ≠ b := fun h => by
      rw [h, hlist] at hc
      exact Bool.false_ne_true hc.symm
    rw [Function.update_of_ne hcb]
    exact hlisted.noList c hc
  · rw [hfresh]
    rcases (hmem c p).mp hp with hp | ⟨rfl, -⟩
    · exact Nat.lt_succ_of_lt (hlisted.made c p hp)
    · exact Nat.lt_succ_self _
  · rcases (hmem c p).mp hp with hp | ⟨rfl, rfl⟩
    · rw [hold c p hp]
      exact hlisted.bb c p hp
    · rw [hnew]
  · rw [hdegree]
    rcases (hmem c p).mp hp with hp | ⟨rfl, rfl⟩
    · rw [hold c p hp]
      exact hlisted.size c p hp
    · rw [hnew]
      exact ⟨rfl, hsmall⟩
  · rw [hhash, entered_iff hnone, hmem, hlisted.hash]
    by_cases hp : p = s.fresh
    · subst hp
      rw [hnew]
      have hnot := hlisted.not_mem_fresh c
      constructor
      · rintro (h | ⟨-, rfl, rfl⟩)
        · exact absurd h.1 hnot
        · exact ⟨.inr ⟨rfl, rfl⟩, rfl⟩
      · rintro ⟨h | ⟨-, rfl⟩, rfl⟩
        · exact absurd h hnot
        · exact .inr ⟨rfl, rfl, rfl⟩
    · rw [or_iff_left fun h => hp h.1, or_iff_left fun h => hp h.1]
      exact and_congr_right fun hmem => by rw [hold c p hmem]

end NewPhi

/-- A new phi is listed, and it is marked. -/
theorem Placing.newPhi (h : Placing P s) (hlist : P.hasPhiList b = true) (hnone : s.hash b aux = none)
    (hsmall : s.inDegree b < 2 ^ 15) : ∃ s₁, newPhiNode s b aux = some s₁ ∧
      Placing P (enterPhi P s₁ b aux s.fresh) ∧
      marked (enterPhi P s₁ b aux s.fresh) = insert (aux, b) (marked s) := by
  obtain ⟨⟨lists, hlisted⟩, hdegree⟩ := h
  refine ⟨_, if_neg (Nat.not_le_of_lt hsmall), ⟨⟨_, hlisted.newPhi hlist hnone hsmall rfl rfl rfl⟩, fun c hc => ?_⟩, ?_⟩
  · refine Eq.trans ?_ (hdegree c hc)
    exact congrFun (append_node _ b s.fresh).2.2.1 c
  · ext ⟨w, y⟩
    rw [Set.mem_insert_iff, Prod.mk.injEq]
    have hold : ∀ q, s.hash y w = some q → q ≠ s.fresh := fun q hq heq =>
      hlisted.not_mem_fresh y (heq ▸ ((hlisted.hash y w q).mp hq).1)
    constructor
    · rintro ⟨q, hq, hvisited⟩
      rcases (entered_iff hnone y w q).mp hq with hq | ⟨-, rfl, rfl⟩
      · refine .inr ⟨q, hq, ?_⟩
        unfold enterPhi at hvisited
        dsimp only at hvisited
        rw [Function.update_of_ne (hold q hq), Function.update_of_ne (hold q hq)] at hvisited
        exact hvisited
      · exact .inl ⟨rfl, rfl⟩
    · rintro (⟨rfl, rfl⟩ | ⟨q, hq, hvisited⟩)
      · exact ⟨s.fresh, (entered_iff hnone y w _).mpr (.inr ⟨rfl, rfl, rfl⟩), Function.update_self ..⟩
      · refine ⟨q, (entered_iff hnone y w q).mpr (.inl hq), ?_⟩
        unfold enterPhi
        dsimp only
        rw [Function.update_of_ne (hold q hq), Function.update_of_ne (hold q hq)]
        exact hvisited

/-! ## Searches -/

/-- A run marks what the frontiers lead to from `T`, or it meets a block with too many predecessors for a phi. -/
def Places (P : Prog) (T : Set (Nat × Nat)) (s : State) (r : Option State) : Prop :=
  (∃ s', r = some s' ∧ Placing P s' ∧ Marks P.Next T (marked s) (marked s')) ∨
    r = none ∧ ∃ x ∈ T, ∃ y, Relation.ReflTransGen P.Next x y ∧ 2 ^ 15 ≤ (P.preds y.2).length

namespace Places

variable {T T' : Set (Nat × Nat)} {r : Option State} {f : State → Option State}

theorem nil (h : Placing P s) : Places P ∅ s (some s) := .inl ⟨s, rfl, h, Marks.refl P.Next (marked s)⟩

theorem congr (h : Places P T s r) (hT : T = T') : Places P T' s r := hT ▸ h

theorem bind (h : Places P T s r)
    (h' : ∀ s', Placing P s' → marked s ⊆ marked s' → Places P T' s' (f s')) : Places P (T ∪ T') s (r.bind f) := by
  rcases h with ⟨s', rfl, hs', hmarks⟩ | ⟨rfl, x, hx, y, hreach, hbig⟩
  · rcases h' s' hs' hmarks.mono with ⟨s'', hrun, hs'', hmarks'⟩ | ⟨hrun, x, hx, y, hreach, hbig⟩
    · exact .inl ⟨s'', hrun, hs'', hmarks.trans hmarks'⟩
    · exact .inr ⟨hrun, x, .inr hx, y, hreach, hbig⟩
  · exact .inr ⟨rfl, x, .inl hx, y, hreach, hbig⟩

theorem foldlM {α : Type*} {f : State → α → Option State} {T : α → Set (Nat × Nat)} {l : List α} (h : Placing P s)
    (hf : ∀ a ∈ l, ∀ s', Placing P s' → marked s ⊆ marked s' → Places P (T a) s' (f s' a)) :
    Places P {x | ∃ a ∈ l, x ∈ T a} s (l.foldlM f s) := by
  induction l generalizing s with
  | nil =>
    refine (nil h).congr ?_
    simp only [List.not_mem_nil, false_and, exists_false, Set.ofPred_false]
  | cons a l ih =>
    rw [List.foldlM_cons]
    refine (bind (hf a (List.mem_cons_self ..) s h subset_rfl) fun s' hs' hle =>
      ih hs' fun c hc s'' hs'' hle' => hf c (List.mem_cons_of_mem _ hc) s'' hs'' (hle.trans hle')).congr ?_
    ext x
    simp only [Set.mem_union, Set.mem_ofPred_eq, List.mem_cons, exists_eq_or_imp]

end Places

/-- What `Insert_var_phi` does at one block of the frontier. -/
def visitPhi (P : Prog) (fuel aux : Nat) (s : State) (bb_phi : Nat) : Option State :=
  match s.hash bb_phi aux with
  | none => do
    let s' ← newPhiNode s bb_phi aux
    insertVarPhi P fuel (enterPhi P s' bb_phi aux s.fresh) aux bb_phi
  | some phi =>
    if s.visited phi then some s
    else insertVarPhi P fuel { s with visited := Function.update s.visited phi true } aux bb_phi

theorem insertVarPhi_succ (P : Prog) (fuel : Nat) (s : State) (aux b : Nat) :
    insertVarPhi P (fuel + 1) s aux b = (P.domFrontier b).foldlM (visitPhi P fuel aux) s := rfl

/-- A search that begins where nothing was marked. -/
theorem Places.visit {s₁ : State} {r : Option State} (hmarked : marked s₁ = insert (aux, b) (marked s))
    (h : Places P {y | P.Next (aux, b) y} s₁ r) : Places P {(aux, b)} s r := by
  rcases h with ⟨s', hrun, hs', hmarks⟩ | ⟨hrun, x, hx, y, hreach, hbig⟩
  · exact .inl ⟨s', hrun, hs', Marks.visit (hmarked ▸ hmarks)⟩
  · exact .inr ⟨hrun, _, rfl, y, .head hx hreach, hbig⟩

/-- `Insert_var_phi` marks what the frontier of its block leads to, when it may call itself for every block. -/
theorem insertVarPhi_places (hlist : ∀ x y, y ∈ P.domFrontier x → P.hasPhiList y = true)
    (hblocks : ∀ y, P.hasPhiList y = true → y ∈ P.blocks) {fuel : Nat} (h : Placing P s)
    (hfuel : unmarked P s aux < fuel) : Places P {y | P.Next (aux, b) y} s (insertVarPhi P fuel s aux b) := by
  induction fuel generalizing s b with
  | zero => exact absurd hfuel (Nat.not_lt_zero _)
  | succ fuel ih =>
    rw [insertVarPhi_succ]
    refine (Places.foldlM (T := fun y => {(aux, y)}) h fun y hy s' hs' hle => ?_).congr ?_
    · -- the search goes on where it marks a block, of which there are fewer left
      have hlisty := hlist b y hy
      have hsearch : ∀ s₁, Placing P s₁ → marked s₁ = insert (aux, y) (marked s') → (aux, y) ∉ marked s' →
          Places P {(aux, y)} s' (insertVarPhi P fuel s₁ aux y) := fun s₁ hs₁ hmarked hnot => by
        refine Places.visit hmarked (ih hs₁ ?_)
        have hlt := unmarked_lt (le_of_eq hmarked.symm) (hblocks y hlisty) hnot
        have := unmarked_le (P := P) hle aux
        omega
      unfold visitPhi
      rcases hhash : s'.hash y aux with _ | phi
      · have hnot : (aux, y) ∉ marked s' := fun ⟨q, hq, _⟩ => by
          rw [hhash] at hq
          exact absurd hq.symm (Option.some_ne_none q)
        dsimp only
        by_cases hbig : 2 ^ 15 ≤ s'.inDegree y
        · rw [newPhiNode_none hbig]
          rw [hs'.inDegree y hlisty] at hbig
          exact .inr ⟨rfl, _, rfl, _, .refl, hbig⟩
        · obtain ⟨s₁, hnew, hs₁, hmarked⟩ := hs'.newPhi hlisty hhash (Nat.lt_of_not_le hbig)
          rw [hnew]
          exact hsearch _ hs₁ hmarked hnot
      · dsimp only
        by_cases hvisited : s'.visited phi = true
        · rw [if_pos hvisited]
          exact .inl ⟨s', rfl, hs', Marks.visited ⟨phi, hhash, hvisited⟩⟩
        · rw [if_neg hvisited]
          obtain ⟨hs₁, hmarked⟩ := hs'.visit hhash
          refine hsearch _ hs₁ hmarked fun ⟨q, hq, hqv⟩ => hvisited ?_
          rw [Option.some_inj.mp (hhash.symm.trans hq)]
          exact hqv
    · ext ⟨w, y⟩
      simp only [Set.mem_singleton_iff, Set.mem_ofPred_eq, Prog.Next, Prod.mk.injEq]
      constructor
      · rintro ⟨a, ha, rfl, rfl⟩
        exact ⟨rfl, ha⟩
      · rintro ⟨rfl, hy⟩
        exact ⟨y, hy, rfl, rfl⟩

/-! ## The second loop -/

/-- The block defines the variable, by a scalar store or a chi. -/
def Prog.Defines (P : Prog) (b v : Nat) : Prop :=
  P.volatile v = false ∧ ∃ stmt ∈ P.stmts b, stmt.store = some v ∨ ∃ chi ∈ stmt.chis, chi.1 = v

section Blocks

variable (hlist : ∀ x y, y ∈ P.domFrontier x → P.hasPhiList y = true)
  (hblocks : ∀ y, P.hasPhiList y = true → y ∈ P.blocks)
include hlist hblocks

theorem insertFor_places (h : Placing P s) : Places P {x | P.volatile v = false ∧ P.Next (v, b) x} s (insertFor P b s v) := by
  unfold insertFor
  by_cases hvolatile : P.volatile v = true
  · rw [if_pos hvolatile]
    refine (Places.nil h).congr ?_
    simp only [hvolatile, Bool.true_eq_false, false_and, Set.ofPred_false]
  · rw [if_neg hvolatile]
    refine (insertVarPhi_places hlist hblocks h ?_).congr ?_
    · exact Nat.lt_succ_of_le (List.length_filter_le ..)
    · simp only [eq_false_of_ne_true hvolatile, true_and]

theorem markStmt_places (h : Placing P s) (stmt : Stmt) : Places P
    {x | P.volatile x.1 = false ∧ (stmt.store = some x.1 ∨ ∃ chi ∈ stmt.chis, chi.1 = x.1) ∧ x.2 ∈ P.domFrontier b} s
    (markStmt P b s stmt) := by
  have hstore : Places P {x | P.volatile x.1 = false ∧ stmt.store = some x.1 ∧ x.2 ∈ P.domFrontier b} s
      (stmt.store.elim (some s) (insertFor P b s)) := by
    rcases stmt.store with _ | v
    · refine (Places.nil h).congr ?_
      simp only [reduceCtorEq, false_and, and_false, Set.ofPred_false]
    · refine (insertFor_places hlist hblocks h).congr ?_
      ext ⟨w, y⟩
      simp only [Set.mem_ofPred_eq, Prog.Next, Option.some_inj]
      constructor
      · rintro ⟨hv, rfl, hy⟩
        exact ⟨hv, rfl, hy⟩
      · rintro ⟨hv, rfl, hy⟩
        exact ⟨hv, rfl, hy⟩
  refine (Places.bind hstore fun s' hs' _ => Places.foldlM (T := fun chi : Nat × Bool =>
    {x | P.volatile chi.1 = false ∧ P.Next (chi.1, b) x}) hs' fun chi _ s'' hs'' _ =>
      insertFor_places hlist hblocks hs'').congr ?_
  ext ⟨w, y⟩
  simp only [Set.mem_union, Set.mem_ofPred_eq, Prog.Next]
  constructor
  · rintro (⟨hv, hst, hy⟩ | ⟨chi, hchi, hv, rfl, hy⟩)
    · exact ⟨hv, .inl hst, hy⟩
    · exact ⟨hv, .inr ⟨chi, hchi, rfl⟩, hy⟩
  · rintro ⟨hv, hst | ⟨chi, hchi, rfl⟩, hy⟩
    · exact .inl ⟨hv, hst, hy⟩
    · exact .inr ⟨chi, hchi, hv, rfl, hy⟩

/-- The second loop marks what the frontiers of the definitions lead to. -/
theorem markBlocks_places (h : Placing P s) :
    Places P {x | ∃ b ∈ P.blocks, P.Defines b x.1 ∧ x.2 ∈ P.domFrontier b} s (P.blocks.foldlM (markBlock P) s) := by
  refine (Places.foldlM h fun b _ s' hs' _ => Places.foldlM hs' fun stmt _ s'' hs'' _ =>
    markStmt_places hlist hblocks hs'' stmt).congr ?_
  ext ⟨w, y⟩
  simp only [Set.mem_ofPred_eq, Prog.Defines]
  constructor
  · rintro ⟨b, hb, stmt, hstmt, hv, hdef, hy⟩
    exact ⟨b, hb, ⟨hv, stmt, hstmt, hdef⟩, hy⟩
  · rintro ⟨b, hb, ⟨hv, stmt, hstmt, hdef⟩, hy⟩
    exact ⟨b, hb, stmt, hstmt, hv, hdef, hy⟩

end Blocks

end Path64.Rename

import Path64.Bdce.Closure

/-!
# Bitwise dead code elimination: the fixed point

* `mark_invariant` : what the changes of every single call preserve, the recursion preserves;
* `Reach` : the states of runs that mark a copy between pseudo-registers as a statement only when the
  copied version is live as a whole;
* `Closed`, `marking_closed` : in these states nothing is waiting any more;
* `endlessLoop` : a block marked from its last statement to its first, where a copy is marked too early.
-/

namespace Path64.Bdce

open Path64.Bits

section

variable {p : Program} {st : State}

/-! ## The live bits of a version are bits of its variable -/

/-- What every call's own changes preserve, the recursion preserves. -/
theorem mark_invariant {I : State → Prop} (hentry : ∀ c a, I a → I (p.expand c a).entry)
    (hfinish : ∀ c a b, I b → I ((p.expand c a).finish b)) :
    ∀ (fuel : Nat) (c : Call) (a b : State), p.mark fuel c a = some b → I a → I b := by
  intro fuel
  induction fuel with
  | zero =>
    intro c a b h
    cases h
  | succ fuel ih =>
    intro c a b h ha
    obtain ⟨b', hb', rfl⟩ := Option.map_eq_some_iff.mp h
    refine hfinish c a b' ?_
    have hrun : ∀ (ks : List (State → Call)) (x y : State), I x →
        ks.foldlM (fun st k => p.mark fuel (k st) st) x = some y → I y := by
      intro ks
      induction ks with
      | nil =>
        intro x y hx hy
        obtain rfl := Option.some.inj hy
        exact hx
      | cons k ks ihks =>
        intro x y hx hy
        rw [List.foldlM_cons] at hy
        obtain ⟨z, hz, hrest⟩ := Option.bind_eq_some_iff.mp hy
        exact ihks z y (ih _ x z hz hx) hrest
    exact hrun _ _ _ (hentry c a ha) hb'

/-- No bit beyond the size of its variable is live. -/
def InBits (p : Program) (st : State) : Prop :=
  ∀ id v, p.cr id = .var v → Covers v.bitsInVar (st.livebits id)

theorem InBits.of_livebits_eq {a b : State} (h : InBits p a) (heq : b.livebits = a.livebits) : InBits p b := by
  intro id v hc
  rw [heq]
  exact h id v hc

theorem InBits.union {a : State} (h : InBits p a) {id : Nat} {m : Mask}
    (hm : ∀ v, p.cr id = .var v → Covers v.bitsInVar m) : InBits p (a.unionLivebits id m) := by
  intro id' v hc
  by_cases heq : id' = id
  · subst heq
    rw [livebits_union_self]
    exact Covers.or (h id' v hc) (hm v hc)
  · rw [livebits_union_of_ne _ _ heq]
    exact h id' v hc

theorem InBits.incUsecnt {a : State} (h : InBits p a) (sv : Bool) (id : Nat) :
    InBits p (if sv then a.incUsecnt id else a) := h.of_livebits_eq (livebits_incUsecnt_ite sv a id)

theorem InBits.union_of_ne {a : State} (h : InBits p a) {id : Nat} {c : Coderep} (hc : p.cr id = c)
    (hne : ∀ v, c ≠ .var v) (m : Mask) : InBits p (a.unionLivebits id m) := by
  apply h.union
  intro v hv
  rw [hc] at hv
  exact absurd hv (hne v)

theorem InBits.entry {c : Call} {a : State} (h : InBits p a) : InBits p (p.expand c a).entry := by
  unfold Program.expand
  cases c with
  | stmt s =>
    dsimp only
    unfold Program.expandStmt
    split
    · exact h
    · exact h.of_livebits_eq rfl
  | entire id sv =>
    dsimp only
    cases hc : p.cr id with
    | var v =>
      dsimp only
      have hst := h.incUsecnt sv id
      unfold Program.expandEntire
      dsimp only
      generalize (if sv = true then a.incUsecnt id else a) = st at hst
      split
      · exact hst
      · refine hst.union fun v' hv' => ?_
        obtain rfl := Coderep.var.inj (hc.symm.trans hv')
        exact Covers.refl _
    | _ => exact h
  | varBits id live sv =>
    dsimp only
    cases hc : p.cr id with
    | var v =>
      dsimp only
      have hst := h.incUsecnt sv id
      unfold Program.expandVarBits
      dsimp only
      generalize (if sv = true then a.incUsecnt id else a) = st at hst
      split
      · exact hst
      · refine hst.union fun v' hv' => ?_
        obtain rfl := Coderep.var.inj (hc.symm.trans hv')
        rw [BitVec.and_comm]
        exact covers_and_left _ _
    | _ => exact h
  | tree id live sv =>
    dsimp only
    have hst := h.incUsecnt (sv && decide (a.usecnt id < 2)) id
    unfold Program.expandTree
    cases hc : p.cr id with
    | var v => exact h
    | load _ _ _ _ _ => exact hst
    | leaf _ _ => exact hst.union_of_ne hc (fun _ => Coderep.noConfusion) _
    | parm _ _ _ =>
      dsimp only
      generalize (if (sv && decide (a.usecnt id < 2)) = true then a.incUsecnt id else a) = st at hst
      split
      · exact hst
      · exact hst.union_of_ne hc (fun _ => Coderep.noConfusion) _
    | op n kids =>
      dsimp only
      generalize (if (sv && decide (a.usecnt id < 2)) = true then a.incUsecnt id else a) = st at hst
      split
      · exact hst
      · exact hst.union_of_ne hc (fun _ => Coderep.noConfusion) _

theorem InBits.finish {c : Call} {a b : State} (h : InBits p b) : InBits p ((p.expand c a).finish b) := by
  unfold Program.expand
  cases c with
  | stmt s =>
    dsimp only
    rw [expandStmt_finish]
    exact h
  | entire id sv =>
    dsimp only
    cases hc : p.cr id with
    | var v =>
      dsimp only
      rw [expandEntire_finish]
      exact h
    | _ => exact h
  | varBits id live sv =>
    dsimp only
    cases hc : p.cr id with
    | var v =>
      dsimp only
      rw [expandVarBits_finish]
      exact h
    | _ => exact h
  | tree id live sv =>
    dsimp only
    by_cases hload : ∃ t dsctyp base second mu, p.cr id = .load t dsctyp base second mu
    · obtain ⟨t, dsctyp, base, second, mu, hc⟩ := hload
      unfold Program.expandTree
      rw [hc]
      exact h.union_of_ne hc (fun _ => Coderep.noConfusion) _
    · rw [expandTree_finish _ _ _ _ fun t dsctyp base second mu hc => hload ⟨t, dsctyp, base, second, mu, hc⟩]
      exact h

/-! ## Runs -/

/-- The states of the pass: calls of the marking functions in any order, where a copy between
pseudo-registers that is not yet live is marked as a statement only when its version is live as a whole. -/
inductive Reach (p : Program) : State → Prop
  | init : Reach p State.init
  | step {st st' : State} (fuel : Nat) (c : Call) : Reach p st → Ready p st c →
      p.mark fuel c st = some st' → Reach p st'

/-- A fixed point of the marking rules. -/
structure Closed (p : Program) (st : State) : Prop where
  stid : ∀ id v s rhs, p.cr id = .var v → v.defn = .stid s → (p.stmt s).kind = .stid id rhs →
    Covers (st.livebits rhs) (p.needs rhs (st.livebits id &&& p.stidBits id rhs))
  phi : ∀ id v os, p.cr id = .var v → v.defn = .phi os → ∀ o ∈ p.nonzero os,
    Covers (st.livebits o) (st.livebits id)
  op : ∀ id n kids, p.cr id = .op n kids → st.livebits id ≠ 0 →
    ∀ j m, (j, m) ∈ n.passes p.target (p.opnds kids) true (st.livebits id) (st.livebits id) →
      Covers (st.livebits (kids.getD j id)) (p.needs (kids.getD j id) m)
  load : ∀ id t dsctyp base second mu, p.cr id = .load t dsctyp base second mu → st.livebits id ≠ 0 →
    Covers (st.livebits base) (p.needs base (bitsInType p.target.pointerType)) ∧
    (∀ k ∈ second.toList, Covers (st.livebits k) (p.needs k (p.cr k).bitsInResult)) ∧
    EntireLive p st (p.nonzero mu.toList)
  parm : ∀ id t base mu, p.cr id = .parm t base mu → st.livebits id ≠ 0 →
    Covers (st.livebits base) (p.needs base (st.livebits id)) ∧ EntireLive p st (p.nonzero mu.toList)
  stmt : ∀ s, st.liveStmt s = true → StmtDone p st s
  defined : ∀ id v s, p.cr id = .var v → st.livebits id ≠ 0 →
    (v.defn = .stid s ∨ v.defn = .chi s ∧ v.isZeroVersion = false) → p.survives st s = true

/-- What the states of a run have in common: everything live since the start is delivered. -/
theorem Reach.post (hp : WellFormed p) (h : Reach p st) : Post p State.init st ∧ InBits p st := by
  induction h with
  | init => exact ⟨Post.refl p _, fun id v _ => covers_zero _⟩
  | step fuel c _ hready hmark ih =>
    refine ⟨ih.1.trans hp (mark_post hp fuel c _ _ hmark hready).1, ?_⟩
    exact mark_invariant (fun _ _ h => h.entry) (fun _ _ _ h => h.finish) fuel c _ _ hmark ih.2

theorem and_not_zero_mask (l : Mask) : l &&& ~~~(0 : Mask) = l := by
  rw [show ~~~(0 : Mask) = BitVec.allOnes 64 from rfl, BitVec.and_allOnes]

theorem Post.defDelivered (h : Post p State.init st) {id : Nat} {v : Version} (hc : p.cr id = .var v) :
    DefDelivered p st v (st.livebits id) := by
  have hnode : Delivered p st id 0 (st.livebits id) := h.nodes id
  rw [Delivered, hc] at hnode
  dsimp only at hnode
  rwa [and_not_zero_mask] at hnode

theorem Post.stmtDone (h : Post p State.init st) {s : Nat} (hs : st.liveStmt s = true) : StmtDone p st s :=
  (h.stmts s hs).resolve_left Bool.false_ne_true

theorem Post.stid_closed (h : Post p State.init st) {id s rhs : Nat} {v : Version} (hc : p.cr id = .var v)
    (hd : v.defn = .stid s) (hk : (p.stmt s).kind = .stid id rhs) :
    Covers (st.livebits rhs) (p.needs rhs (st.livebits id &&& p.stidBits id rhs)) := by
  have hnode := h.defDelivered hc
  rw [DefDelivered, hd] at hnode
  rcases hnode id rhs hk with hlive | hcov
  · -- the statement as a whole is live and has marked all of its right-hand side
    have hmem : (rhs, p.stidBits id rhs) ∈ p.stmtNeeds (p.stmt s).kind := by
      rw [hk]
      exact List.mem_singleton.mpr rfl
    refine ((h.stmtDone hlive).1 _ hmem).trans (p.needs_mono rhs ?_)
    rw [BitVec.and_comm]
    exact covers_and_left _ _
  · exact hcov

theorem Post.phi_closed (hp : WellFormed p) (h : Post p State.init st) (hin : InBits p st) {id : Nat}
    {v : Version} {os : List Nat} (hc : p.cr id = .var v) (hd : v.defn = .phi os) {o : Nat}
    (ho : o ∈ p.nonzero os) : Covers (st.livebits o) (st.livebits id) := by
  have hnode := h.defDelivered hc
  rw [DefDelivered, hd] at hnode
  have hcov := hnode o ho
  rwa [hp.phi id v os hc hd o ho, and_eq_of_covers (hin id v hc)] at hcov

theorem Post.survives (hp : WellFormed p) (h : Post p State.init st) {id s : Nat} {v : Version}
    (hc : p.cr id = .var v) (hlive : st.livebits id ≠ 0)
    (hd : v.defn = .stid s ∨ v.defn = .chi s ∧ v.isZeroVersion = false) : p.survives st s = true := by
  rw [Program.survives, Bool.or_eq_true]
  rcases hd with hd | ⟨hd, hz⟩
  · right
    obtain ⟨rhs, hk⟩ := hp.stid id v s hc hd
    rw [hk]
    exact decide_eq_true hlive
  · left
    have hnode := h.defDelivered hc
    rw [DefDelivered, hd] at hnode
    exact hnode hz hlive

end

/-- In every run that marks a copy between pseudo-registers as a statement only when its version is live
as a whole, every state between two calls is a fixed point of the marking rules. -/
theorem marking_closed {p : Program} (hp : WellFormed p) {st : State} (h : Reach p st) : Closed p st := by
  obtain ⟨hpost, hin⟩ := h.post hp
  have hnodes : ∀ id, Delivered p st id 0 (st.livebits id) := hpost.nodes
  refine ⟨?_, ?_, ?_, ?_, ?_, fun s => hpost.stmtDone, ?_⟩
  · exact fun id v s rhs hc hd hk => hpost.stid_closed hc hd hk
  · exact fun id v os hc hd o ho => hpost.phi_closed hp hin hc hd ho
  · intro id n kids hc hl j m hm
    have hnode := hnodes id
    rw [Delivered, hc] at hnode
    refine hnode hl (fun _ => rfl) j m ?_
    rwa [and_not_zero_mask]
  · intro id t dsctyp base second mu hc hl
    have hnode := hnodes id
    rw [Delivered, hc] at hnode
    exact hnode rfl hl
  · intro id t base mu hc hl
    have hnode := hnodes id
    rw [Delivered, hc] at hnode
    dsimp only at hnode
    rw [and_not_zero_mask] at hnode
    exact ⟨hnode.1, hnode.2 hl⟩
  · exact fun id v s hc hl hd => hpost.survives hp hc hl hd

/-! ## An endless loop -/

/-- A version of a 64-bit pseudo-register. -/
def pregVersion (defn : Def) : Version := ⟨.i8, .i8, BitVec.allOnes 64, true, false, defn⟩

/-- The block `p2 = phi (p1, p3); p4 = p2 + 1; p3 = p4` that branches to itself: statement 1 is the
addition and statement 0 the copy. -/
def endlessLoop : Program where
  target := plainTarget
  copyPropagate := true
  cr
    | 1 => .var (pregVersion .none)
    | 2 => .var (pregVersion (.phi [1, 3]))
    | 3 => .var (pregVersion (.stid 0))
    | 4 => .var (pregVersion (.stid 1))
    | 5 => .op ⟨.add, .i8, .v, 0, 0, 0⟩ [2, 6]
    | _ => .leaf .i8 (some 1)
  stmt
    | 0 => ⟨.stid 3 4, [], []⟩
    | 1 => ⟨.stid 4 5, [], []⟩
    | _ => ⟨.plain none, [], []⟩

/-- The calls of `Mark_willnotexit_stmts_live` for the statements of a block, in the order given. -/
def Program.markStmts (p : Program) (fuel : Nat) (stmts : List Nat) : Option State :=
  stmts.foldlM (fun st s => p.mark fuel (.stmt s) st) State.init

theorem endlessLoop_versions {id : Nat} {v : Version} (h : endlessLoop.cr id = .var v) :
    (id = 1 ∧ v = pregVersion .none) ∨ (id = 2 ∧ v = pregVersion (.phi [1, 3])) ∨
      (id = 3 ∧ v = pregVersion (.stid 0)) ∨ (id = 4 ∧ v = pregVersion (.stid 1)) := by
  match id, h with
  | 1, h => exact Or.inl ⟨rfl, (Coderep.var.inj h).symm⟩
  | 2, h => exact Or.inr (Or.inl ⟨rfl, (Coderep.var.inj h).symm⟩)
  | 3, h => exact Or.inr (Or.inr (Or.inl ⟨rfl, (Coderep.var.inj h).symm⟩))
  | 4, h => exact Or.inr (Or.inr (Or.inr ⟨rfl, (Coderep.var.inj h).symm⟩))
  | 0, h => cases h
  | 5, h => cases h
  | n + 6, h => cases h

theorem endlessLoop_wellFormed : WellFormed endlessLoop where
  stid := by
    intro id v s hc hd
    rcases endlessLoop_versions hc with ⟨rfl, rfl⟩ | ⟨rfl, rfl⟩ | ⟨rfl, rfl⟩ | ⟨rfl, rfl⟩
    · cases hd
    · cases hd
    · obtain rfl := Def.stid.inj hd
      exact ⟨4, rfl⟩
    · obtain rfl := Def.stid.inj hd
      exact ⟨5, rfl⟩
  chi := by
    intro id v s hc hd
    rcases endlessLoop_versions hc with ⟨rfl, rfl⟩ | ⟨rfl, rfl⟩ | ⟨rfl, rfl⟩ | ⟨rfl, rfl⟩ <;> cases hd
  phi := by
    intro id v os hc hd o ho
    rcases endlessLoop_versions hc with ⟨rfl, rfl⟩ | ⟨rfl, rfl⟩ | ⟨rfl, rfl⟩ | ⟨rfl, rfl⟩
    · cases hd
    · obtain rfl := Def.phi.inj hd
      rcases List.mem_cons.mp ((List.mem_filter.mp ho).1) with rfl | ho
      · rfl
      · obtain rfl := List.mem_singleton.mp ho
        rfl
    · cases hd
    · cases hd
  shifts := ⟨fun _ _ _ => rfl, fun _ _ _ => rfl⟩

/-- The addition marked first makes the loop live as a whole. -/
theorem marking_closed_endlessLoop : ∃ st, endlessLoop.markStmts 20 [1] = some st ∧
    st.livebits 4 = BitVec.allOnes 64 ∧ Closed endlessLoop st := by
  have hrun : ((endlessLoop.markStmts 20 [1]).map fun st => st.livebits 4) = some (BitVec.allOnes 64) := by
    decide
  obtain ⟨st, hst, hlive⟩ := Option.map_eq_some_iff.mp hrun
  refine ⟨st, hst, hlive, marking_closed endlessLoop_wellFormed (.step 20 (.stmt 1) .init ?_ ?_)⟩
  · intro lhs rhs _ hmove
    exact absurd hmove (by decide)
  · simpa [Program.markStmts] using hst

/-- Marked from the last statement to the first, the copy passes on the bits its version has before the
loop makes it live, which are none: `p3` ends live as a whole and its right-hand side `p4` dead. -/
theorem copy_marked_too_early : WellFormed endlessLoop ∧
    ∃ st, endlessLoop.markStmts 20 [0, 1] = some st ∧ st.livebits 3 = BitVec.allOnes 64 ∧
      st.livebits 4 = 0 ∧ ¬ Closed endlessLoop st := by
  have hrun : ((endlessLoop.markStmts 20 [0, 1]).map fun st => (st.livebits 3, st.livebits 4)) =
      some (BitVec.allOnes 64, 0) := by
    decide
  obtain ⟨st, hst, hlive⟩ := Option.map_eq_some_iff.mp hrun
  obtain ⟨h3, h4⟩ := Prod.mk.inj hlive
  refine ⟨endlessLoop_wellFormed, st, hst, h3, h4, ?_⟩
  intro hclosed
  have hcov := hclosed.stid 3 _ 0 4 rfl rfl rfl
  rw [h3, h4] at hcov
  have hbit := hcov 0 (by decide)
  exact absurd hbit (by decide)

end Path64.Bdce

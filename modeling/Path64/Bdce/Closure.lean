import Path64.Bdce.Obligations

/-!
# Bitwise dead code elimination: what the marking recursion guarantees

* `Post p st st'` : what every call guarantees. Nodes on the recursion stack may still be waiting for
  some of their operands, so a call answers for the bits and statements it made live itself;
* `Ready` : a copy between pseudo-registers is marked as a statement only when the copied version is
  live as a whole;
* `expand_post`, `expand_ready` : one call of each marking function;
* `mark_post` : the recursion guarantees `Post` and that its call was absorbed.
-/

namespace Path64.Bdce

open Path64.Bits

section

variable {p : Program} {st st' : State}

/-! ## What a call guarantees -/

/-- A call makes more live, and answers for the bits and the statements it made live. -/
structure Post (p : Program) (st st' : State) : Prop where
  le : st.Le st'
  nodes : ∀ id, Delivered p st' id (st.livebits id) (st'.livebits id)
  stmts : ∀ s, st'.liveStmt s = true → st.liveStmt s = true ∨ StmtDone p st' s

theorem Post.refl (p : Program) (st : State) : Post p st st :=
  ⟨State.Le.refl st, fun id => Delivered.refl st id _, fun _ h => Or.inl h⟩

theorem Post.trans (hp : WellFormed p) {a b c : State} (h₁ : Post p a b) (h₂ : Post p b c) : Post p a c := by
  refine ⟨h₁.le.trans h₂.le, ?_, ?_⟩
  · intro id
    exact ((h₁.nodes id).mono h₂.le).trans hp (h₁.le.bits id) (h₂.le.bits id) (h₂.nodes id)
  · intro s hs
    rcases h₂.stmts s hs with hb | hdone
    · rcases h₁.stmts s hb with ha | hdone
      · exact Or.inl ha
      · exact Or.inr (hdone.mono h₂.le)
    · exact Or.inr hdone

/-- A copy between pseudo-registers is marked as a statement only when the copied version is live as a
whole (or it was marked before). -/
def Ready (p : Program) (st : State) : Call → Prop
  | .stmt s => ∀ lhs rhs, (p.stmt s).kind = .stid lhs rhs → p.isMove s = true →
      st.liveStmt s = true ∨ Covers (st.livebits lhs) (p.cr lhs).bitsInVar
  | _ => True

/-- The node or statement of the call has what the call asked for. -/
def Absorbed (p : Program) (st : State) : Call → Prop
  | .entire v _ => Covers (st.livebits v) (p.cr v).bitsInVar
  | .varBits v live _ => Covers (st.livebits v) (live &&& (p.cr v).bitsInVar)
  | .tree id live _ => Covers (st.livebits id) (p.needs id live)
  | .stmt s => st.liveStmt s = true

theorem Absorbed.mono {c : Call} (h : Absorbed p st c) (hle : st.Le st') : Absorbed p st' c := by
  cases c with
  | entire v _ => exact (hle.bits v).trans h
  | varBits v live _ => exact (hle.bits v).trans h
  | tree id live _ => exact (hle.bits id).trans h
  | stmt s => exact hle.stmts s h

theorem foldlM_post (hp : WellFormed p) {fuel : Nat}
    (ih : ∀ c a b, p.mark fuel c a = some b → Ready p a c → Post p a b ∧ Absorbed p b c)
    (ks : List (State → Call)) : ∀ a b : State, (∀ k ∈ ks, ∀ t, a.Le t → Ready p t (k t)) →
      ks.foldlM (fun st k => p.mark fuel (k st) st) a = some b →
      Post p a b ∧ ∀ k ∈ ks, ∃ t, a.Le t ∧ t.Le b ∧ Absorbed p b (k t) := by
  induction ks with
  | nil =>
    intro a b _ h
    obtain rfl := Option.some.inj h
    exact ⟨Post.refl p a, fun k hk => absurd hk List.not_mem_nil⟩
  | cons k ks ihks =>
    intro a b hready h
    rw [List.foldlM_cons] at h
    obtain ⟨c, hc, hrest⟩ := Option.bind_eq_some_iff.mp h
    obtain ⟨hpost, habs⟩ := ih _ a c hc (hready k (List.mem_cons_self ..) a (State.Le.refl a))
    obtain ⟨hpost', habs'⟩ := ihks c b
      (fun k' hk' t ht => hready k' (List.mem_cons_of_mem _ hk') t (hpost.le.trans ht)) hrest
    refine ⟨hpost.trans hp hpost', ?_⟩
    intro k' hk'
    rcases List.mem_cons.mp hk' with rfl | hk'
    · exact ⟨a, State.Le.refl a, hpost.le.trans hpost'.le, habs.mono hpost'.le⟩
    · obtain ⟨t, hct, htb, ht⟩ := habs' k' hk'
      exact ⟨t, hpost.le.trans hct, htb, ht⟩

/-! ## Raising one node -/

@[simp] theorem livebits_incUsecnt_ite (b : Bool) (st : State) (id : Nat) :
    (if b then st.incUsecnt id else st).livebits = st.livebits := by
  split <;> rfl

@[simp] theorem liveStmt_incUsecnt_ite (b : Bool) (st : State) (id : Nat) :
    (if b then st.incUsecnt id else st).liveStmt = st.liveStmt := by
  split <;> rfl

theorem livebits_union_self (st : State) (id : Nat) (m : Mask) :
    (st.unionLivebits id m).livebits id = st.livebits id ||| m := if_pos rfl

theorem livebits_union_of_ne (st : State) {id id' : Nat} (m : Mask) (h : id' ≠ id) :
    (st.unionLivebits id m).livebits id' = st.livebits id' := if_neg h

theorem le_union (st : State) (id : Nat) (m : Mask) : st.Le (st.unionLivebits id m) := by
  refine ⟨?_, fun _ h => h⟩
  intro id'
  by_cases h : id' = id
  · subst h
    rw [livebits_union_self]
    exact Covers.or_left _ _
  · rw [livebits_union_of_ne _ _ h]
    exact Covers.refl _

/-- After the bits `m` of a node were added, calls that answer for the rest leave the node to answer
for. -/
theorem Post.of_union {a b : State} {id : Nat} {m : Mask} (h : Post p (a.unionLivebits id m) b)
    (hd : Delivered p b id (a.livebits id) (b.livebits id)) : Post p a b := by
  refine ⟨(le_union a id m).trans h.le, ?_, h.stmts⟩
  intro id'
  by_cases heq : id' = id
  · subst heq
    exact hd
  · have := h.nodes id'
    rwa [livebits_union_of_ne _ _ heq] at this

theorem Post.delivered_union (hp : WellFormed p) {a b : State} {id : Nat} {m : Mask}
    (h : Post p (a.unionLivebits id m) b)
    (hd : Delivered p b id (a.livebits id) (a.livebits id ||| m)) :
    Delivered p b id (a.livebits id) (b.livebits id) := by
  have hnode := h.nodes id
  have hle := h.le.bits id
  rw [livebits_union_self] at hnode hle
  exact hd.trans hp (Covers.or_left _ _) hle hnode

theorem covers_of_not_moreBitsLive {id : Nat} {m : Mask} (h : ¬ st.moreBitsLive id m = true) :
    Covers (st.livebits id) m := by
  unfold State.moreBitsLive at h
  exact covers_of_and_not_eq_zero (by simpa using h)

theorem new_bits_of_union (l m : Mask) : Covers m ((l ||| m) &&& ~~~l) := by
  intro i hi
  rw [BitVec.getLsbD_and, BitVec.getLsbD_or, BitVec.getLsbD_not] at hi
  simp only [Bool.and_eq_true, Bool.or_eq_true, Bool.not_eq_true', decide_eq_true_eq] at hi
  rcases hi with ⟨hl | hm, -, hnl⟩
  · rw [hl] at hnl
    cases hnl
  · exact hm

/-! ## The operands of an operator node -/

theorem rereads_not_passesNew {n : OpNode} (h : n.opr.rereads = true) : n.opr.passesNew = false := by
  revert h
  cases n.opr <;> simp [Operator.rereads, Operator.passesNew]

theorem rereads_not_visitsAll {n : OpNode} {target : Target} (h : n.opr.rereads = true) :
    n.visitsAll target = false := by
  unfold OpNode.visitsAll
  revert h
  cases n.opr <;> simp [Operator.rereads]

/-- The calls on the operands have delivered the masks of `L`, unless they were computed from other live
bits. -/
theorem opCalls_absorbed {a b : State} {id : Nat} {n : OpNode} {kids : List Nat} {visitAll stmtVisit : Bool}
    {l live : Mask}
    (habs : ∀ k ∈ p.opCalls id n kids visitAll l live stmtVisit, ∃ t, a.Le t ∧ t.Le b ∧ Absorbed p b (k t))
    (hl : n.opr.rereads = true → ∀ t, a.Le t → t.Le b → t.livebits id = l) {j : Nat} {m : Mask}
    (hm : (j, m) ∈ n.passes p.target (p.opnds kids) visitAll l live) :
    Covers (b.livebits (kids.getD j id)) (p.needs (kids.getD j id) m) := by
  obtain ⟨i, hi, hget⟩ := List.getElem_of_mem hm
  obtain ⟨t, hat, htb, ht⟩ := habs _ (List.mem_map.mpr ⟨i, List.mem_range.mpr hi, rfl⟩)
  have hmask : (if n.opr.rereads then t.livebits id else l) = l := by
    split_ifs with hr
    · exact hl hr t hat htb
    · rfl
  have hpass : (n.passes p.target (p.opnds kids) visitAll l live).getD i (0, 0) = (j, m) := by
    rw [List.getD_eq_getElem?_getD, List.getElem?_eq_getElem hi, hget]
    rfl
  dsimp only at ht
  rw [hmask, ← Program.opnds, hpass] at ht
  exact ht

/-- Raising an operator node and visiting its operands delivers what the raise asks for. -/
theorem delivered_op (hp : WellFormed p) {a b : State} {id : Nat} {n : OpNode} {kids : List Nat}
    {visitAll stmtVisit : Bool} {live : Mask} (hc : p.cr id = .op n kids)
    (hall : a.livebits id = 0 → visitAll = true) (hpost : Post p (a.unionLivebits id live) b)
    (habs : ∀ k ∈ p.opCalls id n kids visitAll (a.livebits id ||| live) live stmtVisit,
      ∃ t, (a.unionLivebits id live).Le t ∧ t.Le b ∧ Absorbed p b (k t)) :
    Delivered p b id (a.livebits id) (b.livebits id) := by
  have hself := livebits_union_self a id live
  by_cases hmore : n.opr.rereads = true ∧ b.livebits id ≠ a.livebits id ||| live
  · -- a nested call raised the node again and has delivered all its bits
    have hnode := hpost.nodes id
    rw [hself] at hnode
    unfold Delivered at hnode ⊢
    rw [hc] at hnode ⊢
    intro _ _ j m hm
    rw [passes_of_not_passesNew (rereads_not_passesNew hmore.1) _ _ _
      (b.livebits id &&& ~~~(a.livebits id ||| live))] at hm
    refine hnode hmore.2 ?_ j m hm
    intro hv
    rw [rereads_not_visitsAll hmore.1] at hv
    exact absurd hv Bool.false_ne_true
  · apply hpost.delivered_union hp
    have hkids : ∀ {j : Nat} {m : Mask},
        (j, m) ∈ n.passes p.target (p.opnds kids) visitAll (a.livebits id ||| live) live →
        Covers (b.livebits (kids.getD j id)) (p.needs (kids.getD j id) m) := by
      intro j m hm
      refine opCalls_absorbed habs ?_ hm
      intro hr t hat htb
      have hb : b.livebits id = a.livebits id ||| live := by
        by_contra hne
        exact hmore ⟨hr, hne⟩
      have hlow := hat.bits id
      have hhigh := htb.bits id
      rw [hself] at hlow
      rw [hb] at hhigh
      exact hlow.antisymm hhigh
    unfold Delivered
    rw [hc]
    intro _ hv j m hm
    have hvisit : n.passes p.target (p.opnds kids) true (a.livebits id ||| live) live =
        n.passes p.target (p.opnds kids) visitAll (a.livebits id ||| live) live := by
      cases hvis : n.visitsAll p.target with
      | true => rw [hall (hv hvis)]
      | false => exact (passes_of_not_reads_all hvis _ visitAll _ _).symm
    by_cases hpn : n.opr.passesNew = true
    · have hmono := @shiftedMask_mono n p.target (p.opnds kids) hp.shifts hpn _ _
        (new_bits_of_union (a.livebits id) live)
      rw [passes_of_passesNew hpn] at hm hkids
      rcases List.mem_cons.mp hm with hcount | hm
      · exact hkids (hcount ▸ List.mem_cons_self ..)
      · obtain ⟨rfl, rfl⟩ := Prod.mk.inj (List.mem_singleton.mp hm)
        have hzero := hkids (List.mem_cons_of_mem _ (List.mem_singleton.mpr rfl))
        exact hzero.trans (p.needs_mono _ hmono)
    · rw [Bool.not_eq_true] at hpn
      rw [passes_of_not_passesNew hpn _ _ _ live, hvisit] at hm
      exact hkids hm

/-! ## Each marking function -/

/-- The calls of an expansion have been made, and each of them answers for what it made live. -/
structure Answered (p : Program) (e : Expansion) (b : State) : Prop where
  post : Post p e.entry b
  calls : ∀ k ∈ e.calls, ∃ t, e.entry.Le t ∧ t.Le b ∧ Absorbed p b (k t)

/-- A call whose argument does not depend on the state is absorbed as it stands. -/
theorem Answered.call {e : Expansion} {b : State} (h : Answered p e b) {cs : List Call}
    (he : e.calls = cs.map fun c _ => c) {c : Call} (hc : c ∈ cs) : Absorbed p b c := by
  have hmem : (fun _ => c) ∈ e.calls := by
    rw [he]
    exact List.mem_map.mpr ⟨c, hc, rfl⟩
  obtain ⟨t, -, -, ht⟩ := h.calls _ hmem
  exact ht

theorem Post.of_incUsecnt {a b : State} {sv : Bool} {id : Nat}
    (h : Post p (if sv then a.incUsecnt id else a) b) : Post p a b := by
  cases sv with
  | false => exact h
  | true => exact ⟨⟨h.le.bits, h.le.stmts⟩, h.nodes, h.stmts⟩

theorem DefDelivered.anti {b : State} {v : Version} {m m' : Mask} (h : DefDelivered p b v m)
    (hm : Covers m m') : DefDelivered p b v m' := by
  unfold DefDelivered at h ⊢
  cases hd : v.defn with
  | none => trivial
  | phi os =>
    rw [hd] at h
    exact fun o ho => (h o ho).trans (hm.and_right _)
  | chi s =>
    rw [hd] at h
    intro hz hne
    refine h hz ?_
    rintro rfl
    obtain ⟨i, hi⟩ := ne_zero_iff_bit.mp hne
    have := hm i hi
    simp at this
  | stid s =>
    rw [hd] at h
    intro lhs rhs hk
    rcases h lhs rhs hk with hlive | hcov
    · exact Or.inl hlive
    · exact Or.inr (hcov.trans (p.needs_mono rhs (hm.and_right _)))

theorem Post.of_raise_var (hp : WellFormed p) {a b : State} {id : Nat} {v : Version} {m : Mask}
    (hc : p.cr id = .var v) (h : Post p (a.unionLivebits id m) b) (hd : DefDelivered p b v m) :
    Post p a b := by
  refine h.of_union (h.delivered_union hp ?_)
  unfold Delivered
  rw [hc]
  exact hd.anti (new_bits_of_union _ _)

theorem expandEntire_post (hp : WellFormed p) {a b : State} {id : Nat} {v : Version} {sv : Bool}
    (hc : p.cr id = .var v) (h : Answered p (p.expandEntire id v sv a) b) :
    Post p a b ∧ Covers (b.livebits id) v.bitsInVar := by
  unfold Program.expandEntire at h
  dsimp only at h
  by_cases hmore : (if sv then a.incUsecnt id else a).moreBitsLive id v.bitsInVar = true
  · rw [if_neg (by rw [hmore]; simp)] at h
    have hself := h.post.le.bits id
    rw [livebits_union_self] at hself
    refine ⟨?_, hself.trans (Covers.or_right _ _)⟩
    refine Post.of_incUsecnt (Post.of_raise_var hp hc h.post ?_)
    unfold DefDelivered
    cases hd : v.defn with
    | none => trivial
    | phi os =>
      intro o ho
      have hcall := h.call rfl (by
        rw [hd]
        exact List.mem_map.mpr ⟨o, ho, rfl⟩)
      exact Covers.trans hcall (by rw [BitVec.and_comm]; exact covers_and_left _ _)
    | chi s =>
      intro _ _
      exact h.call rfl (by rw [hd]; exact List.mem_singleton.mpr rfl)
    | stid s =>
      intro lhs rhs _
      left
      exact h.call rfl (by rw [hd]; exact List.mem_singleton.mpr rfl)
  · rw [if_pos (by rw [Bool.not_eq_true] at hmore; rw [hmore]; rfl)] at h
    have hcov := covers_of_not_moreBitsLive hmore
    exact ⟨h.post.of_incUsecnt, (h.post.le.bits id).trans hcov⟩

theorem expandVarBits_post (hp : WellFormed p) {a b : State} {id : Nat} {v : Version} {live : Mask} {sv : Bool}
    (hc : p.cr id = .var v) (h : Answered p (p.expandVarBits id v live sv a) b) :
    Post p a b ∧ Covers (b.livebits id) (live &&& v.bitsInVar) := by
  unfold Program.expandVarBits at h
  dsimp only at h
  by_cases hmore : (if sv then a.incUsecnt id else a).moreBitsLive id (live &&& v.bitsInVar) = true
  · rw [if_neg (by rw [hmore]; simp)] at h
    have hself := h.post.le.bits id
    rw [livebits_union_self] at hself
    refine ⟨?_, hself.trans (Covers.or_right _ _)⟩
    refine Post.of_incUsecnt (Post.of_raise_var hp hc h.post ?_)
    unfold DefDelivered
    cases hd : v.defn with
    | none => trivial
    | phi os =>
      intro o ho
      exact h.call rfl (by
        rw [hd]
        exact List.mem_map.mpr ⟨o, ho, rfl⟩)
    | chi s =>
      intro hz _
      exact h.call rfl (by
        rw [hd, hz]
        exact List.mem_singleton.mpr rfl)
    | stid s =>
      intro lhs rhs hk
      right
      have hcall := h.call rfl (by
        rw [hd]
        dsimp only
        rw [show p.rhsOf s = some rhs by rw [Program.rhsOf, hk]]
        exact List.mem_singleton.mpr rfl)
      exact Covers.trans hcall (p.needs_mono rhs (covers_and_left _ _))
  · rw [if_pos (by rw [Bool.not_eq_true] at hmore; rw [hmore]; rfl)] at h
    have hcov := covers_of_not_moreBitsLive hmore
    exact ⟨h.post.of_incUsecnt, (h.post.le.bits id).trans hcov⟩

theorem expandTree_var_post {a b : State} {id : Nat} {v : Version} {live : Mask} {sv : Bool}
    (hc : p.cr id = .var v) (h : Answered p (p.expandTree id live sv a) b) :
    Post p a b ∧ Covers (b.livebits id) (p.needs id live) := by
  unfold Program.expandTree at h
  rw [hc] at h
  refine ⟨h.post, ?_⟩
  obtain ⟨t, -, -, ht⟩ := h.calls _ (List.mem_singleton.mpr rfl)
  have hload := loadLive_covers p.target v.dsctyp v.bitsInVar live
  rw [Program.needs, hc]
  dsimp only at ht ⊢
  by_cases hall : v.bitsInVar = p.target.loadLive v.dsctyp v.bitsInVar live
  · rw [if_pos hall] at ht
    have hentire : Covers (b.livebits id) (p.cr id).bitsInVar := ht
    rw [hc] at hentire
    refine Covers.trans hentire ?_
    rw [BitVec.and_comm]
    exact covers_and_left _ _
  · rw [if_neg hall] at ht
    have hbits : Covers (b.livebits id) (p.target.loadLive v.dsctyp v.bitsInVar live &&& (p.cr id).bitsInVar) := ht
    rw [hc] at hbits
    exact Covers.trans hbits (hload.and_right _)

theorem expandTree_load_post (hp : WellFormed p) {a b : State} {id : Nat} {t dsctyp : Mtype} {base : Nat}
    {second mu : Option Nat} {live : Mask} {sv : Bool} (hc : p.cr id = .load t dsctyp base second mu)
    (h : Answered p (p.expandTree id live sv a) b) :
    Post p a ((p.expandTree id live sv a).finish b) ∧
      Covers (((p.expandTree id live sv a).finish b).livebits id) (p.needs id live) := by
  unfold Program.expandTree at h ⊢
  rw [hc] at h ⊢
  dsimp only at h ⊢
  have hpost := h.post.of_incUsecnt
  have hle := le_union b id (p.target.loadLive dsctyp (bitsInType dsctyp) live)
  constructor
  · refine hpost.trans hp (Post.of_union (Post.refl p _) ?_)
    rw [livebits_union_self]
    unfold Delivered
    rw [hc]
    intro hb _
    -- the node had no live bit when the call was made either, so that all operands were visited
    have ha : a.livebits id = 0 := by
      have hcov := hpost.le.bits id
      rw [hb] at hcov
      exact (Covers.antisymm hcov (covers_zero _)).symm
    have hcall := fun c hc => (h.call rfl (c := c) hc).mono hle
    rw [livebits_incUsecnt_ite, ha] at hcall
    simp only [decide_true, Bool.or_true, if_true] at hcall
    refine ⟨hcall _ (List.mem_cons_self ..), ?_, ?_⟩
    · intro k hk
      refine hcall (.tree k _ (sv && decide (a.usecnt id < 2))) (List.mem_cons_of_mem _
        (List.mem_append_left _ ?_))
      exact List.mem_map.mpr ⟨k, hk, rfl⟩
    · intro o ho
      refine hcall (.entire o (sv && decide (a.usecnt id < 2))) (List.mem_cons_of_mem _
        (List.mem_append_right _ ?_))
      exact List.mem_map.mpr ⟨o, ho, rfl⟩
  · rw [livebits_union_self, Program.needs, hc]
    exact (Covers.or_right _ _).trans (loadLive_covers _ _ _ _)

theorem expandTree_parm_post (hp : WellFormed p) {a b : State} {id : Nat} {t : Mtype} {base : Nat}
    {mu : Option Nat} {live : Mask} {sv : Bool} (hc : p.cr id = .parm t base mu)
    (h : Answered p (p.expandTree id live sv a) b) :
    Post p a b ∧ Covers (b.livebits id) (p.needs id live) := by
  rw [Program.needs, hc]
  unfold Program.expandTree at h
  rw [hc] at h
  dsimp only at h ⊢
  generalize (sv && decide (a.usecnt id < 2)) = visit at h
  by_cases hmore : (!visit && !(if visit then a.incUsecnt id else a).moreBitsLive id (live &&& bitsInType t)) = true
  · rw [if_pos hmore] at h
    rw [Bool.and_eq_true, Bool.not_eq_true', Bool.not_eq_true'] at hmore
    have hcov := covers_of_not_moreBitsLive (Bool.not_eq_true _ ▸ hmore.2)
    exact ⟨h.post.of_incUsecnt, (h.post.le.bits id).trans hcov⟩
  · rw [if_neg hmore] at h
    have hself := h.post.le.bits id
    rw [livebits_union_self] at hself
    refine ⟨Post.of_incUsecnt (h.post.of_union (h.post.delivered_union hp ?_)),
      hself.trans (Covers.or_right _ _)⟩
    unfold Delivered
    rw [hc]
    refine ⟨?_, ?_⟩
    · have hbase := h.call rfl (List.mem_cons_self ..)
      exact Covers.trans hbase (p.needs_mono base (new_bits_of_union _ _))
    · intro _ o ho
      have hmu := h.call rfl (List.mem_cons_of_mem _ (List.mem_map.mpr ⟨o, ho, rfl⟩))
      exact hmu

theorem expandTree_op_post (hp : WellFormed p) {a b : State} {id : Nat} {n : OpNode} {kids : List Nat}
    {live : Mask} {sv : Bool} (hc : p.cr id = .op n kids) (h : Answered p (p.expandTree id live sv a) b) :
    Post p a b ∧ Covers (b.livebits id) (p.needs id live) := by
  rw [Program.needs, hc]
  unfold Program.expandTree at h
  rw [hc] at h
  dsimp only at h ⊢
  generalize (sv && decide (a.usecnt id < 2)) = visit at h
  by_cases hmore : (!visit && !(if visit then a.incUsecnt id else a).moreBitsLive id (n.trimmed live)) = true
  · rw [if_pos hmore] at h
    rw [Bool.and_eq_true, Bool.not_eq_true', Bool.not_eq_true'] at hmore
    have hcov := covers_of_not_moreBitsLive (Bool.not_eq_true _ ▸ hmore.2)
    exact ⟨h.post.of_incUsecnt, (h.post.le.bits id).trans hcov⟩
  · rw [if_neg hmore] at h
    have hself := h.post.le.bits id
    rw [livebits_union_self] at hself
    refine ⟨Post.of_incUsecnt (h.post.of_union ?_), hself.trans (Covers.or_right _ _)⟩
    refine delivered_op hp hc ?_ h.post h.calls
    intro hzero
    rw [hzero]
    simp

theorem expandTree_leaf_post {a b : State} {id : Nat} {t : Mtype} {c : Option (BitVec 64)} {live : Mask}
    {sv : Bool} (hc : p.cr id = .leaf t c) (h : Answered p (p.expandTree id live sv a) b) :
    Post p a b ∧ Covers (b.livebits id) (p.needs id live) := by
  rw [Program.needs, hc]
  unfold Program.expandTree at h
  rw [hc] at h
  dsimp only [Expansion.done] at h ⊢
  have hself := h.post.le.bits id
  rw [livebits_union_self] at hself
  refine ⟨Post.of_incUsecnt (h.post.of_union ?_), hself.trans (Covers.or_right _ _)⟩
  unfold Delivered
  rw [hc]
  trivial

theorem stidMask_of_not_move {lhs rhs : Nat} (h : ((p.cr lhs).isPreg && (p.cr rhs).isPreg) = false)
    (t : State) : p.stidMask lhs rhs t = p.stidBits lhs rhs := by
  unfold Program.stidBits
  rw [h, if_neg Bool.false_ne_true]
  unfold Program.stidMask
  cases hl : (p.cr lhs).isPreg with
  | false => rfl
  | true =>
    rw [hl, Bool.true_and] at h
    rw [h]
    rfl

/-- The calls of a statement deliver its masks; a copy between pseudo-registers delivers those of the
whole version when this is live as a whole. -/
theorem stmtCalls_absorbed {a b : State} {s : Nat}
    (hready : ∀ lhs rhs, (p.stmt s).kind = .stid lhs rhs → p.isMove s = true →
      Covers (a.livebits lhs) (p.cr lhs).bitsInVar)
    (habs : ∀ k ∈ p.stmtCalls (p.stmt s).kind, ∃ t, a.Le t ∧ t.Le b ∧ Absorbed p b (k t)) :
    ∀ q ∈ p.stmtNeeds (p.stmt s).kind, Covers (b.livebits q.1) (p.needs q.1 q.2) := by
  have hsame : ∀ {id : Nat} {m : Mask},
      (fun _ => Call.tree id m p.copyPropagate) ∈ p.stmtCalls (p.stmt s).kind →
      Covers (b.livebits id) (p.needs id m) := by
    intro id m hmem
    obtain ⟨t, -, -, ht⟩ := habs _ hmem
    exact ht
  intro q hq
  cases hk : (p.stmt s).kind with
  | stid lhs rhs =>
    rw [hk] at hq habs
    obtain rfl := List.mem_singleton.mp hq
    obtain ⟨t, hat, -, ht⟩ := habs _ (List.mem_singleton.mpr rfl)
    refine Covers.trans ht (p.needs_mono rhs ?_)
    cases hmove : (p.cr lhs).isPreg && (p.cr rhs).isPreg with
    | false =>
      rw [stidMask_of_not_move hmove]
      exact Covers.refl _
    | true =>
      have hlive := hready lhs rhs hk (by rw [Program.isMove, hk]; exact hmove)
      rw [Program.stidBits, if_pos hmove]
      rw [Bool.and_eq_true] at hmove
      rw [Program.stidMask, if_pos hmove.1, if_pos hmove.2]
      exact (hat.bits lhs).trans hlive
  | plain rhs =>
    rw [hk] at hq hsame
    obtain ⟨r, hr, rfl⟩ := List.mem_map.mp hq
    exact hsame (List.mem_map.mpr ⟨r, hr, rfl⟩)
  | prefetch base =>
    rw [hk] at hq hsame
    obtain rfl := List.mem_singleton.mp hq
    exact hsame (List.mem_singleton.mpr rfl)
  | returnVal rtype rhs =>
    rw [hk] at hq hsame
    obtain rfl := List.mem_singleton.mp hq
    exact hsame (List.mem_singleton.mpr rfl)
  | istore base rhs dsctyp =>
    rw [hk] at hq hsame
    rcases List.mem_cons.mp hq with rfl | hq
    · exact hsame (List.mem_cons_self ..)
    · obtain rfl := List.mem_singleton.mp hq
      exact hsame (List.mem_cons_of_mem _ (List.mem_singleton.mpr rfl))
  | istorex index base rhs dsctyp =>
    rw [hk] at hq hsame
    simp only [Program.stmtNeeds, List.mem_cons, List.not_mem_nil, or_false] at hq
    rcases hq with rfl | rfl | rfl
    · exact hsame (List.mem_cons_self ..)
    · exact hsame (List.mem_cons_of_mem _ (List.mem_cons_self ..))
    · exact hsame (List.mem_cons_of_mem _ (List.mem_cons_of_mem _ (List.mem_singleton.mpr rfl)))
  | mstore size base rhs =>
    rw [hk] at hq hsame
    simp only [Program.stmtNeeds, List.mem_cons, List.not_mem_nil, or_false] at hq
    rcases hq with rfl | rfl | rfl
    · exact hsame (List.mem_cons_self ..)
    · exact hsame (List.mem_cons_of_mem _ (List.mem_cons_self ..))
    · exact hsame (List.mem_cons_of_mem _ (List.mem_cons_of_mem _ (List.mem_singleton.mpr rfl)))

theorem expandStmt_post {a b : State} {s : Nat} (hready : Ready p a (.stmt s))
    (h : Answered p (p.expandStmt s a) b) : Post p a b ∧ b.liveStmt s = true := by
  unfold Program.expandStmt at h
  by_cases hlive : a.liveStmt s = true
  · rw [if_pos hlive] at h
    exact ⟨h.post, h.post.le.stmts s hlive⟩
  · rw [if_neg hlive] at h
    have hself : (a.setLiveStmt s).liveStmt s = true := if_pos rfl
    refine ⟨?_, h.post.le.stmts s hself⟩
    have hstmts : ∀ s', a.liveStmt s' = true → (a.setLiveStmt s).liveStmt s' = true := by
      intro s' hs'
      show (if s' = s then true else a.liveStmt s') = true
      rw [hs', ite_self]
    refine ⟨⟨h.post.le.bits, fun s' hs' => h.post.le.stmts s' (hstmts s' hs')⟩, h.post.nodes, ?_⟩
    intro s' hs'
    rcases h.post.stmts s' hs' with hentry | hdone
    · by_cases heq : s' = s
      · subst heq
        right
        refine ⟨stmtCalls_absorbed (a := a.setLiveStmt s') ?_ ?_, ?_⟩
        · intro lhs rhs hk hmove
          exact (hready lhs rhs hk hmove).resolve_left hlive
        · exact fun k hk => h.calls k (List.mem_append_left _ hk)
        · intro o ho
          obtain ⟨t, -, -, ht⟩ := h.calls _ (List.mem_append_right _ (List.mem_map.mpr ⟨o, ho, rfl⟩))
          exact ht
      · left
        have hold : (if s' = s then true else a.liveStmt s') = true := hentry
        rwa [if_neg heq] at hold
    · exact Or.inr hdone

/-- The call is none of `Mark_stmt_live`. -/
def Call.NotStmt : Call → Prop
  | .stmt _ => False
  | _ => True

theorem Call.NotStmt.ready {c : Call} (h : c.NotStmt) (t : State) : Ready p t c := by
  cases c with
  | stmt s => exact h.elim
  | _ => trivial

theorem notStmt_muCalls {mu : Option Nat} {sv : Bool} : ∀ c ∈ p.muCalls mu sv, c.NotStmt := by
  intro c hc
  obtain ⟨o, -, rfl⟩ := List.mem_map.mp hc
  trivial

theorem notStmt_const {cs : List Call} (h : ∀ c ∈ cs, c.NotStmt) :
    ∀ k ∈ cs.map (fun c (_ : State) => c), ∀ t, (k t).NotStmt := by
  intro k hk t
  obtain ⟨c, hc, rfl⟩ := List.mem_map.mp hk
  exact h c hc

theorem notStmt_expandTree (id : Nat) (live : Mask) (sv : Bool) (a : State) :
    ∀ k ∈ (p.expandTree id live sv a).calls, ∀ t, (k t).NotStmt := by
  unfold Program.expandTree
  cases p.cr id with
  | leaf _ _ =>
    intro k hk
    exact absurd hk List.not_mem_nil
  | var v =>
    intro k hk t
    obtain rfl := List.mem_singleton.mp hk
    split_ifs <;> trivial
  | load _ dsctyp base second mu =>
    apply notStmt_const
    intro c hc
    generalize (if (sv && decide (a.usecnt id < 2)) = true then a.incUsecnt id else a) = st at hc
    split_ifs at hc
    · rcases List.mem_append.mp hc with hc | hc
      · rcases List.mem_cons.mp hc with rfl | hc
        · trivial
        · obtain ⟨k, -, rfl⟩ := List.mem_map.mp hc
          trivial
      · exact notStmt_muCalls c hc
    · exact absurd hc List.not_mem_nil
  | parm _ base mu =>
    dsimp only
    generalize (if (sv && decide (a.usecnt id < 2)) = true then a.incUsecnt id else a) = st
    split
    · intro k hk
      exact absurd hk List.not_mem_nil
    · apply notStmt_const
      intro c hc
      rcases List.mem_cons.mp hc with rfl | hc
      · trivial
      · exact notStmt_muCalls c hc
  | op n kids =>
    dsimp only
    generalize (if (sv && decide (a.usecnt id < 2)) = true then a.incUsecnt id else a) = st
    split
    · intro k hk
      exact absurd hk List.not_mem_nil
    · intro k hk t
      obtain ⟨j, -, rfl⟩ := List.mem_map.mp hk
      trivial

theorem notStmt_expandStmt (s : Nat) (a : State) :
    ∀ k ∈ (p.expandStmt s a).calls, ∀ t, (k t).NotStmt := by
  unfold Program.expandStmt
  split_ifs
  · intro k hk
    exact absurd hk List.not_mem_nil
  · intro k hk t
    rcases List.mem_append.mp hk with hk | hk
    · cases hkind : (p.stmt s).kind with
      | plain rhs =>
        rw [hkind] at hk
        obtain ⟨r, -, rfl⟩ := List.mem_map.mp hk
        trivial
      | _ =>
        rw [hkind] at hk
        simp only [Program.stmtCalls, List.mem_cons, List.not_mem_nil, or_false] at hk
        rcases hk with rfl | rfl | rfl <;> trivial
    · obtain ⟨o, -, rfl⟩ := List.mem_map.mp hk
      trivial

/-- A statement reached from a version it defines is no copy between pseudo-registers, or that version
is live as a whole. -/
theorem ready_of_defn (hp : WellFormed p) {id s : Nat} {v : Version} (hc : p.cr id = .var v) {t : State}
    (hd : v.defn = .chi s ∨ v.defn = .stid s ∧ Covers (t.livebits id) v.bitsInVar) :
    Ready p t (.stmt s) := by
  intro lhs rhs hk hmove
  rcases hd with hd | ⟨hd, hcov⟩
  · rw [hp.chi id v s hc hd] at hmove
    exact absurd hmove Bool.false_ne_true
  · obtain ⟨rhs', hk'⟩ := hp.stid id v s hc hd
    rw [hk] at hk'
    obtain ⟨rfl, -⟩ := StmtKind.stid.inj hk'
    right
    rw [hc]
    exact hcov

theorem expandEntire_ready (hp : WellFormed p) {id : Nat} {v : Version} (hc : p.cr id = .var v) (sv : Bool)
    (a : State) : ∀ k ∈ (p.expandEntire id v sv a).calls, ∀ t, (p.expandEntire id v sv a).entry.Le t →
      Ready p t (k t) := by
  unfold Program.expandEntire
  dsimp only
  generalize (if sv = true then a.incUsecnt id else a) = st
  split
  · exact fun k hk => absurd hk List.not_mem_nil
  · intro k hk t hle
    have hcov := hle.bits id
    rw [livebits_union_self] at hcov
    obtain ⟨c, hcs, rfl⟩ := List.mem_map.mp hk
    cases hd : v.defn with
    | none =>
      rw [hd] at hcs
      exact absurd hcs List.not_mem_nil
    | phi os =>
      rw [hd] at hcs
      obtain ⟨o, -, rfl⟩ := List.mem_map.mp hcs
      trivial
    | chi s =>
      rw [hd] at hcs
      obtain rfl := List.mem_singleton.mp hcs
      exact ready_of_defn hp hc (Or.inl hd)
    | stid s =>
      rw [hd] at hcs
      obtain rfl := List.mem_singleton.mp hcs
      exact ready_of_defn hp hc (Or.inr ⟨hd, hcov.trans (Covers.or_right _ _)⟩)

theorem expandVarBits_ready (hp : WellFormed p) {id : Nat} {v : Version} (hc : p.cr id = .var v) (live : Mask)
    (sv : Bool) (a : State) : ∀ k ∈ (p.expandVarBits id v live sv a).calls, ∀ t, Ready p t (k t) := by
  unfold Program.expandVarBits
  dsimp only
  generalize (if sv = true then a.incUsecnt id else a) = st
  split
  · exact fun k hk => absurd hk List.not_mem_nil
  · intro k hk t
    obtain ⟨c, hcs, rfl⟩ := List.mem_map.mp hk
    cases hd : v.defn with
    | none =>
      rw [hd] at hcs
      exact absurd hcs List.not_mem_nil
    | phi os =>
      rw [hd] at hcs
      obtain ⟨o, -, rfl⟩ := List.mem_map.mp hcs
      trivial
    | chi s =>
      rw [hd] at hcs
      dsimp only at hcs
      split_ifs at hcs
      · exact absurd hcs List.not_mem_nil
      · obtain rfl := List.mem_singleton.mp hcs
        exact ready_of_defn hp hc (Or.inl hd)
    | stid s =>
      rw [hd] at hcs
      dsimp only at hcs
      cases hr : p.rhsOf s with
      | none =>
        rw [hr] at hcs
        exact absurd hcs List.not_mem_nil
      | some rhs =>
        rw [hr] at hcs
        obtain rfl := List.mem_singleton.mp hcs
        trivial

/-- Whatever a call does, the calls it makes mark a copy between pseudo-registers as a statement only
when the copied version is live as a whole. -/
theorem expand_ready (hp : WellFormed p) (c : Call) (a : State) :
    ∀ k ∈ (p.expand c a).calls, ∀ t, (p.expand c a).entry.Le t → Ready p t (k t) := by
  intro k hk t hle
  unfold Program.expand at hk hle
  cases c with
  | tree id live sv => exact (notStmt_expandTree id live sv a k hk t).ready t
  | stmt s => exact (notStmt_expandStmt s a k hk t).ready t
  | entire id sv =>
    dsimp only at hk hle
    cases hc : p.cr id with
    | var v =>
      rw [hc] at hk hle
      exact expandEntire_ready hp hc sv a k hk t hle
    | _ =>
      rw [hc] at hk
      exact absurd hk List.not_mem_nil
  | varBits id live sv =>
    dsimp only at hk
    cases hc : p.cr id with
    | var v =>
      rw [hc] at hk
      exact expandVarBits_ready hp hc live sv a k hk t
    | _ =>
      rw [hc] at hk
      exact absurd hk List.not_mem_nil

theorem expandEntire_finish (id : Nat) (v : Version) (sv : Bool) (a b : State) :
    (p.expandEntire id v sv a).finish b = b := by
  unfold Program.expandEntire
  dsimp only
  generalize (if sv = true then a.incUsecnt id else a) = st
  split <;> rfl

theorem expandVarBits_finish (id : Nat) (v : Version) (live : Mask) (sv : Bool) (a b : State) :
    (p.expandVarBits id v live sv a).finish b = b := by
  unfold Program.expandVarBits
  dsimp only
  generalize (if sv = true then a.incUsecnt id else a) = st
  split <;> rfl

theorem expandStmt_finish (s : Nat) (a b : State) : (p.expandStmt s a).finish b = b := by
  unfold Program.expandStmt
  split <;> rfl

theorem expandTree_finish {id : Nat} (live : Mask) (sv : Bool) (a b : State)
    (h : ∀ t dsctyp base second mu, p.cr id ≠ .load t dsctyp base second mu) :
    (p.expandTree id live sv a).finish b = b := by
  unfold Program.expandTree
  cases hc : p.cr id with
  | load t dsctyp base second mu => exact absurd hc (h t dsctyp base second mu)
  | leaf _ _ => rfl
  | var v => rfl
  | parm _ _ _ =>
    dsimp only
    generalize (if (sv && decide (a.usecnt id < 2)) = true then a.incUsecnt id else a) = st
    split <;> rfl
  | op n kids =>
    dsimp only
    generalize (if (sv && decide (a.usecnt id < 2)) = true then a.incUsecnt id else a) = st
    split <;> rfl

/-- What one call guarantees when the calls it makes do. -/
theorem expand_post (hp : WellFormed p) {c : Call} {a b : State} (hready : Ready p a c)
    (h : Answered p (p.expand c a) b) :
    Post p a ((p.expand c a).finish b) ∧ Absorbed p ((p.expand c a).finish b) c := by
  unfold Program.expand at h ⊢
  unfold Absorbed
  cases c with
  | stmt s =>
    dsimp only at h ⊢
    rw [expandStmt_finish]
    exact expandStmt_post hready h
  | tree id live sv =>
    dsimp only at h ⊢
    cases hc : p.cr id with
    | load t dsctyp base second mu => exact expandTree_load_post hp hc h
    | leaf _ _ =>
      rw [expandTree_finish _ _ _ _ (by rw [hc]; exact fun _ _ _ _ _ => Coderep.noConfusion)]
      exact expandTree_leaf_post hc h
    | var v =>
      rw [expandTree_finish _ _ _ _ (by rw [hc]; exact fun _ _ _ _ _ => Coderep.noConfusion)]
      exact expandTree_var_post hc h
    | parm _ _ _ =>
      rw [expandTree_finish _ _ _ _ (by rw [hc]; exact fun _ _ _ _ _ => Coderep.noConfusion)]
      exact expandTree_parm_post hp hc h
    | op n kids =>
      rw [expandTree_finish _ _ _ _ (by rw [hc]; exact fun _ _ _ _ _ => Coderep.noConfusion)]
      exact expandTree_op_post hp hc h
  | entire id sv =>
    dsimp only at h ⊢
    cases hc : p.cr id with
    | var v =>
      rw [hc] at h
      dsimp only at h ⊢
      rw [expandEntire_finish]
      exact expandEntire_post hp hc h
    | _ =>
      rw [hc] at h
      exact ⟨h.post, covers_zero _⟩
  | varBits id live sv =>
    dsimp only at h ⊢
    cases hc : p.cr id with
    | var v =>
      rw [hc] at h
      dsimp only at h ⊢
      rw [expandVarBits_finish]
      exact expandVarBits_post hp hc h
    | _ =>
      rw [hc] at h
      refine ⟨h.post, ?_⟩
      rw [show (live &&& Coderep.bitsInVar _) = 0#64 from BitVec.and_zero]
      exact covers_zero _

/-- The marking recursion answers for everything it makes live, and absorbs its call. -/
theorem mark_post (hp : WellFormed p) : ∀ (fuel : Nat) (c : Call) (a b : State),
    p.mark fuel c a = some b → Ready p a c → Post p a b ∧ Absorbed p b c := by
  intro fuel
  induction fuel with
  | zero =>
    intro c a b h
    cases h
  | succ fuel ih =>
    intro c a b h hready
    obtain ⟨b', hb', rfl⟩ := Option.map_eq_some_iff.mp h
    obtain ⟨hpost, hcalls⟩ := foldlM_post hp ih _ _ _ (expand_ready hp c a) hb'
    exact expand_post hp hready ⟨hpost, hcalls⟩

end

end Path64.Bdce

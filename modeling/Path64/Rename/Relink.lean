import Path64.Rename.Listed

/-!
# Keeping the visited phis

* `Relinking` : the phis of a block that were kept and that are left, while its list is relinked;
* `Relinking.keep`, `Relinking.delete` : one phi;
* `relinkList_spec`, `relink_spec` : a block keeps the phis that were visited;
* `relinkBlocks_spec` : the third loop.
-/

namespace Path64.Rename

open Path64.Lists (Links)

variable {P : Prog} {s s' : State} {lists : Nat → List Nat} {b : Nat} {first last phi : Int} {k l : List Nat}

/-- The phis `k` of the block were kept, `l` are left. -/
structure Relinking (P : Prog) (b : Nat) (k l : List Nat) (s : State) (first last phi : Int) : Prop where
  /-- The list from the head is that of the kept phis and the rest, or it holds none of them. -/
  chains : ∀ c, ∃ m, Links s.next (s.head c) m ∧ (∀ q ∈ m, q < s.fresh) ∧ (m = k ++ l ∨ ∀ q ∈ m, q ∉ k ++ l)
  rest : Links s.next phi l
  kept : if k = [] then first = -1 else Links s.next first (k ++ l)
  last_eq : last = lastPhi k
  nodup : (k ++ l).Nodup
  own : ∀ p ∈ l, ∀ q, s.hash (s.node p).bb (s.node p).auxId = some q → q = p
  only : ∀ p ∈ l, ∀ c v, s.hash c v = some p → c = (s.node p).bb ∧ v = (s.node p).auxId
  size : ∀ p ∈ l, (s.node p).size = (P.preds (s.node p).bb).length

theorem Relinking.chained (h : Relinking P b k l s first last phi) : s.Chained := fun c => by
  obtain ⟨m, hm, hlt, -⟩ := h.chains c
  exact ⟨m, hm, hlt⟩

/-- A visited phi is kept. -/
theorem Relinking.keep {p : Nat} (h : Relinking P b k (p :: l) s first last phi) :
    Relinking P b (k ++ [p]) l { s with visited := Function.update s.visited p false }
      (if first = -1 then phi else first) phi (s.next p) := by
  have hphi : phi = p := h.rest.1
  have hsplit : (k ++ [p]) ++ l = k ++ p :: l := by rw [List.append_assoc, List.singleton_append]
  refine ⟨?_, h.rest.2, ?_, ?_, ?_, fun q hq => h.own q (List.mem_cons_of_mem _ hq),
    fun q hq => h.only q (List.mem_cons_of_mem _ hq), fun q hq => h.size q (List.mem_cons_of_mem _ hq)⟩
  · rw [hsplit]
    exact h.chains
  · rw [if_neg (List.append_ne_nil_of_right_ne_nil k (List.cons_ne_nil p [])), hsplit]
    have hkept := h.kept
    by_cases hk : k = []
    · rw [if_pos hk] at hkept
      rw [if_pos hkept, hk]
      exact h.rest
    · rw [if_neg hk] at hkept
      have hne : first ≠ -1 := fun h => by
        have := hkept.start_eq_neg_one_iff.mp h
        exact hk (List.append_eq_nil_iff.mp this).1
      rw [if_neg hne]
      exact hkept
  · rw [hphi, lastPhi_append]
  · rw [hsplit]
    exact h.nodup

theorem links_unlink {next : Nat → Int} {h : Int} {p : Nat} (hlinks : Links next h (k ++ p :: l)) (hk : k ≠ []) :
    Links (Function.update (Function.update next (lastPhi k).toNat (next p)) p (-1)) h (k ++ l) := by
  have hrest : Links next (next p) l := Links.next_of_split hlinks
  obtain ⟨a, t, rfl⟩ := (List.eq_nil_or_concat k).resolve_left hk
  rw [List.concat_eq_append] at hlinks ⊢
  have hnodup := hlinks.nodup
  rw [lastPhi_append, Int.toNat_natCast]
  rw [List.append_assoc, List.singleton_append] at hlinks hnodup ⊢
  have htp : t ≠ p ∧ t ∉ l := by
    have := (List.nodup_cons.mp hnodup.of_append_right).1
    rw [List.mem_cons, not_or] at this
    exact this
  have hpl : p ∉ l := (List.nodup_cons.mp (List.nodup_cons.mp hnodup.of_append_right).2).1
  refine Links.splice hlinks (fun i hi => ?_) ?_
  · have hne : ∀ j ∈ t :: p :: l, i ≠ j := fun j hj => (List.nodup_append.mp hnodup).2.2 i hi j hj
    rw [Function.update_of_ne (hne p (List.mem_cons_of_mem _ (List.mem_cons_self ..))),
      Function.update_of_ne (hne t (List.mem_cons_self ..))]
  · rw [Function.update_of_ne htp.1, Function.update_self]
    refine hrest.congr fun i hi => ?_
    have hip : i ≠ p := fun h => hpl (h ▸ hi)
    have hit : i ≠ t := fun h => htp.2 (h ▸ hi)
    rw [Function.update_of_ne hip, Function.update_of_ne hit]

/-- The pointers after the phi `p` was unlinked. -/
def unlinked (next : Nat → Int) (last : Int) (p : Nat) : Nat → Int :=
  Function.update (if last ≠ -1 then Function.update next last.toNat (next p) else next) p (-1)

theorem unlinked_of_not_mem {next : Nat → Int} {p i : Nat} (hi : i ∉ k) (hip : i ≠ p) :
    unlinked next (lastPhi k) p i = next i := by
  unfold unlinked
  rw [Function.update_of_ne hip]
  by_cases hk : k = []
  · rw [if_neg (by rw [hk]; exact not_not_intro rfl)]
  · obtain ⟨a, t, rfl⟩ := (List.eq_nil_or_concat k).resolve_left hk
    rw [List.concat_eq_append] at hi ⊢
    have hit : i ≠ t := fun h => hi (List.mem_append_right a (List.mem_singleton.mpr h))
    rw [lastPhi_append]
    split_ifs
    · exact Function.update_of_ne hit _ _
    · rfl

theorem lastPhi_ne (hk : k ≠ []) : lastPhi k ≠ -1 := by
  obtain ⟨a, t, rfl⟩ := (List.eq_nil_or_concat k).resolve_left hk
  rw [List.concat_eq_append, lastPhi_append]
  omega

/-- A phi that was not visited is deleted. -/
theorem Relinking.delete {p : Nat} (h : Relinking P b k (p :: l) s first last phi) :
    ∃ o z, deleteVarPhi P s p = some { s with
        opndZero := o
        resultZero := z
        hash := Function.update s.hash (s.node p).bb (Function.update (s.hash (s.node p).bb) (s.node p).auxId none) } ∧
      Relinking P b k l { s with
        next := unlinked s.next last p
        opndZero := o
        resultZero := z
        hash := Function.update s.hash (s.node p).bb (Function.update (s.hash (s.node p).bb) (s.node p).auxId none) }
        first last (s.next p) := by
  have hmem : p ∈ p :: l := List.mem_cons_self ..
  obtain ⟨o, z, hrun, -, -⟩ := deleteVarPhi_spec (P := P) h.chained fun _ k hk _ => h.size p hmem ▸ hk
  have hremoved := removed_iff (h.own p hmem) (h.only p hmem)
  have hpk : p ∉ k ++ l := (List.nodup_middle.mp h.nodup |> List.nodup_cons.mp).1
  have hrest : Links (unlinked s.next last p) (s.next p) l := by
    rw [h.last_eq]
    refine h.rest.2.congr fun i hi => unlinked_of_not_mem (fun hik => ?_) fun hip => ?_
    · exact (List.nodup_append.mp h.nodup).2.2 i hik i (List.mem_cons_of_mem _ hi) rfl
    · exact hpk (List.mem_append_right _ (hip ▸ hi))
  -- a list that goes through the kept phis and the rest
  have hthrough : ∀ t, k ≠ [] → Links s.next t (k ++ p :: l) → Links (unlinked s.next last p) t (k ++ l) := by
    intro t hk ht
    unfold unlinked
    rw [h.last_eq, if_pos (lastPhi_ne hk)]
    exact links_unlink ht hk
  refine ⟨o, z, hrun, fun c => ?_, hrest, ?_, h.last_eq, ?_, fun q hq q' hq' => ?_, fun q hq c v hqv => ?_,
    fun q hq => h.size q (List.mem_cons_of_mem _ hq)⟩
  · obtain ⟨m, hm, hlt, hor⟩ := h.chains c
    rcases hor with rfl | hor
    · by_cases hk : k = []
      · -- the head is the deleted phi
        subst hk
        refine ⟨[p], ⟨hm.1, Function.update_self ..⟩, fun q hq => ?_, .inr fun q hq => ?_⟩
        · rw [List.mem_singleton.mp hq]
          exact hlt p hmem
        · rw [List.mem_singleton.mp hq]
          exact hpk
      · refine ⟨k ++ l, hthrough _ hk hm, fun q hq => hlt q ?_, .inl rfl⟩
        rcases List.mem_append.mp hq with hq | hq
        · exact List.mem_append_left _ hq
        · exact List.mem_append_right _ (List.mem_cons_of_mem _ hq)
    · refine ⟨m, hm.congr fun i hi => ?_, hlt, .inr fun q hq hqkl => hor q hq ?_⟩
      · have hnot := hor i hi
        rw [List.mem_append, List.mem_cons, not_or, not_or] at hnot
        show unlinked s.next last p i = s.next i
        rw [h.last_eq]
        exact unlinked_of_not_mem hnot.1 hnot.2.1
      · rcases List.mem_append.mp hqkl with hq | hq
        · exact List.mem_append_left _ hq
        · exact List.mem_append_right _ (List.mem_cons_of_mem _ hq)
  · have hkept := h.kept
    split_ifs at hkept ⊢ with hk
    · exact hkept
    · exact hthrough _ hk hkept
  · exact (List.nodup_cons.mp (List.nodup_middle.mp h.nodup)).2
  · exact h.own q (List.mem_cons_of_mem _ hq) q' ((hremoved _ _ _).mp hq').1
  · exact h.only q (List.mem_cons_of_mem _ hq) c v ((hremoved _ _ _).mp hqv).1

/-- The block keeps the phis that were visited, which are marked not visited. -/
theorem relinkList_spec {fuel : Nat} (h : Relinking P b k l s first last phi) (hfuel : l.length < fuel) :
    ∃ s' first' last', relinkList P fuel s first last phi = some (s', first', last') ∧
      (s'.node = s.node ∧ s'.fresh = s.fresh ∧ s'.inDegree = s.inDegree ∧ s'.head = s.head ∧ s'.tail = s.tail) ∧
      Links s'.next first' (k ++ l.filter s.visited) ∧ last' = lastPhi (k ++ l.filter s.visited) ∧
      (∀ q, q ∉ k ++ l → s'.next q = s.next q) ∧
      (∀ c v q, s'.hash c v = some q ↔ s.hash c v = some q ∧ (q ∈ l → s.visited q = true)) ∧
      ∀ q, s'.visited q = true ↔ s.visited q = true ∧ q ∉ l := by
  induction l generalizing fuel s first last phi k with
  | nil =>
    obtain ⟨n, rfl⟩ := Nat.exists_eq_add_one_of_ne_zero (Nat.ne_of_gt hfuel)
    have hend : phi = -1 := h.rest
    refine ⟨s, first, last, by rw [relinkList, if_pos hend], ⟨rfl, rfl, rfl, rfl, rfl⟩, ?_, ?_, fun _ _ => rfl,
      fun c v q => ?_, fun q => ?_⟩
    · rw [List.filter_nil]
      have hkept := h.kept
      split_ifs at hkept with hk
      · subst hk
        exact hkept
      · exact hkept
    · rw [List.filter_nil, List.append_nil]
      exact h.last_eq
    · exact (and_iff_left fun hq => absurd hq List.not_mem_nil).symm
    · exact (and_iff_left List.not_mem_nil).symm
  | cons p l ih =>
    obtain ⟨n, rfl⟩ := Nat.exists_eq_add_one_of_ne_zero (Nat.ne_of_gt (Nat.zero_lt_of_lt hfuel))
    have hphi : phi = p := h.rest.1
    have hlen : l.length < n := by
      rw [List.length_cons] at hfuel
      omega
    have hpl : p ∉ l := (List.nodup_cons.mp (List.nodup_append.mp h.nodup).2.1).1
    rw [relinkList, if_neg (by omega)]
    dsimp only
    rw [hphi, Int.toNat_natCast]
    by_cases hvisited : s.visited p = true
    · rw [if_pos hvisited, List.filter_cons_of_pos hvisited]
      obtain ⟨s', first', last', hrun, hsame, hlinks, hlast, hnext, hhash, hvis⟩ := ih (hphi ▸ h.keep) hlen
      -- the mark of `p` does not matter for the rest
      have hfilter : l.filter (Function.update s.visited p false) = l.filter s.visited :=
        List.filter_congr fun q hq => by
          have hqp : q ≠ p := fun h => hpl (h ▸ hq)
          rw [Function.update_of_ne hqp]
      dsimp only at hlinks hlast hnext hhash hvis hsame
      rw [hfilter, List.append_assoc, List.singleton_append] at hlinks hlast
      refine ⟨s', first', last', hrun, hsame, hlinks, hlast, fun q hq => hnext q ?_, fun c v q => ?_, fun q => ?_⟩
      · rw [List.append_assoc, List.singleton_append]
        exact hq
      · rw [hhash]
        refine and_congr_right fun _ => ?_
        by_cases hqp : q = p
        · subst hqp
          exact ⟨fun _ _ => hvisited, fun _ hq => absurd hq hpl⟩
        · rw [Function.update_of_ne hqp, List.mem_cons, or_iff_right hqp]
      · rw [hvis]
        by_cases hqp : q = p
        · subst hqp
          rw [Function.update_self]
          exact ⟨fun h => absurd h.1 Bool.false_ne_true, fun h => absurd (List.mem_cons_self ..) h.2⟩
        · rw [Function.update_of_ne hqp, List.mem_cons, not_or, and_iff_right hqp]
    · rw [if_neg hvisited, List.filter_cons_of_neg hvisited]
      obtain ⟨o, z, hrun, hrel⟩ := h.delete
      obtain ⟨s', first', last', hrun', hsame, hlinks, hlast, hnext, hhash, hvis⟩ := ih hrel hlen
      refine ⟨s', first', last', ?_, hsame, hlinks, hlast, fun q hq => ?_, fun c v q => ?_, fun q => ?_⟩
      · rw [hrun, Option.bind_eq_bind, Option.bind_some]
        exact hrun'
      · rw [List.mem_append, List.mem_cons, not_or, not_or] at hq
        refine (hnext q ?_).trans ?_
        · rw [List.mem_append, not_or]
          exact ⟨hq.1, hq.2.2⟩
        · show unlinked s.next last p q = s.next q
          rw [h.last_eq]
          exact unlinked_of_not_mem hq.1 hq.2.1
      · rw [hhash]
        have hmem : p ∈ p :: l := List.mem_cons_self ..
        refine Iff.trans (and_congr_left' (removed_iff (h.own p hmem) (h.only p hmem) c v q)) ?_
        rw [and_assoc]
        refine and_congr_right fun _ => ?_
        by_cases hqp : q = p
        · subst hqp
          exact ⟨fun h => absurd rfl h.1, fun h => absurd (h hmem) hvisited⟩
        · rw [List.mem_cons, or_iff_right hqp, and_iff_right hqp]
      · rw [hvis]
        refine and_congr_right fun hq => ?_
        have hqp : q ≠ p := fun h => hvisited (h ▸ hq)
        rw [List.mem_cons, not_or, and_iff_right hqp]

/-! ## One block -/

/-- A block keeps the phis that were visited. -/
theorem relink_spec (h : Listed P s lists) (hsize : ∀ b, P.hasPhiList b = true → s.inDegree b = (P.preds b).length) :
    ∃ s', relink P s b = some s' ∧ Listed P s' (Function.update lists b ((lists b).filter s.visited)) ∧
      s'.node = s.node ∧ s'.inDegree = s.inDegree ∧ ∀ q, s'.visited q = true ↔ s.visited q = true ∧ q ∉ lists b := by
  unfold relink
  by_cases hlist : P.hasPhiList b = true
  · rw [if_neg (by rw [hlist]; exact Bool.false_ne_true)]
    have hrel : Relinking P b [] (lists b) s (-1) (-1) (s.head b) := by
      refine ⟨fun c => ⟨lists c, h.links c, h.made c, ?_⟩, h.links b, ?_, rfl, (h.links b).nodup,
        fun p hp q hq => ?_, fun p hp c v hpv => ?_, fun p hp => ?_⟩
      · by_cases hc : c = b
        · subst hc
          exact .inl rfl
        · exact .inr fun q hq hqb => hc (h.eq_of_mem hq hqb)
      · rw [if_pos rfl]
      · rw [h.bb b p hp] at hq
        obtain ⟨hqb, haux⟩ := (h.hash _ _ q).mp hq
        exact h.eq_of_aux hqb hp haux
      · obtain ⟨hmem, haux⟩ := (h.hash c v p).mp hpv
        rw [h.bb c p hmem]
        exact ⟨rfl, haux.symm⟩
      · rw [(h.size b p hp).1, h.bb b p hp, hsize b hlist]
    obtain ⟨s', first', last', hrun, ⟨hnode, hfresh, hdegree, hhead, htail⟩, hlinks, hlast, hnext, hhash, hvis⟩ :=
      relinkList_spec hrel (h.length_le b)
    rw [hrun, Option.bind_eq_bind, Option.bind_some]
    have hmem : ∀ c p, p ∈ Function.update lists b ((lists b).filter s.visited) c ↔
        p ∈ lists c ∧ (p ∈ lists b → s.visited p = true) := by
      intro c p
      by_cases hc : c = b
      · subst hc
        rw [Function.update_self, List.mem_filter]
        exact and_congr_right fun hp => ⟨fun h _ => h, fun h => h hp⟩
      · rw [Function.update_of_ne hc]
        exact (and_iff_left_of_imp fun hp hpb => absurd (h.eq_of_mem hp hpb) hc).symm
    refine ⟨_, rfl, ⟨fun c => ?_, fun c hc => ?_, fun c hc => ?_, fun c p hp => ?_, fun c p hp => ?_, fun c p hp => ?_,
      fun c v p => ?_⟩, hnode, hdegree, hvis⟩
    · by_cases hc : c = b
      · subst hc
        dsimp only
        rw [Function.update_self, Function.update_self]
        exact hlinks
      · dsimp only
        rw [Function.update_of_ne hc, Function.update_of_ne hc, hhead]
        exact (h.links c).congr fun i hi => hnext i fun hib => hc (h.eq_of_mem hi hib)
    · by_cases hcb : c = b
      · subst hcb
        dsimp only
        rw [Function.update_self, Function.update_self]
        exact hlast
      · dsimp only
        rw [Function.update_of_ne hcb, Function.update_of_ne hcb, htail]
        exact h.tail c hc
    · refine List.eq_nil_iff_forall_not_mem.mpr fun p hp => ?_
      have := ((hmem c p).mp hp).1
      rw [h.noList c hc] at this
      exact List.not_mem_nil this
    · dsimp only
      rw [hfresh]
      exact h.made c p ((hmem c p).mp hp).1
    · dsimp only
      rw [hnode]
      exact h.bb c p ((hmem c p).mp hp).1
    · dsimp only
      rw [hnode, hdegree]
      exact h.size c p ((hmem c p).mp hp).1
    · dsimp only
      rw [hhash, hmem, hnode, h.hash]
      exact and_right_comm
  · rw [if_pos (by rw [eq_false_of_ne_true hlist]; rfl)]
    have hnil := h.noList b (eq_false_of_ne_true hlist)
    have hsame : Function.update lists b ((lists b).filter s.visited) = lists := by
      rw [hnil, List.filter_nil, ← hnil, Function.update_eq_self]
    rw [hsame]
    refine ⟨s, rfl, h, rfl, rfl, fun q => (and_iff_left ?_).symm⟩
    rw [hnil]
    exact List.not_mem_nil

/-- The third loop keeps the phis that were visited. -/
theorem relinkBlocks_spec {bs : List Nat} (h : Listed P s lists)
    (hsize : ∀ b, P.hasPhiList b = true → s.inDegree b = (P.preds b).length) (hbs : bs.Nodup) :
    ∃ s', bs.foldlM (relink P) s = some s' ∧
      Listed P s' (fun b => if b ∈ bs then (lists b).filter s.visited else lists b) ∧ s'.node = s.node ∧
      s'.inDegree = s.inDegree ∧ ∀ q, s'.visited q = true ↔ s.visited q = true ∧ ∀ b ∈ bs, q ∉ lists b := by
  induction bs generalizing s lists with
  | nil =>
    refine ⟨s, rfl, ?_, rfl, rfl, fun q => (and_iff_left fun b hb => absurd hb List.not_mem_nil).symm⟩
    simp only [List.not_mem_nil, if_false]
    exact h
  | cons b bs ih =>
    obtain ⟨s₁, hrun, hlisted, hnode, hdegree, hvis⟩ := relink_spec (b := b) h hsize
    obtain ⟨hb, hbs⟩ := List.nodup_cons.mp hbs
    obtain ⟨s', hrun', hlisted', hnode', hdegree', hvis'⟩ := ih hlisted (hdegree ▸ hsize) hbs
    refine ⟨s', by rw [List.foldlM_cons, hrun]; exact hrun', ?_, hnode'.trans hnode, hdegree'.trans hdegree, fun q => ?_⟩
    · have hsame : (fun c => if c ∈ bs then (Function.update lists b ((lists b).filter s.visited) c).filter s₁.visited
          else Function.update lists b ((lists b).filter s.visited) c) =
          fun c => if c ∈ b :: bs then (lists c).filter s.visited else lists c := by
        funext c
        by_cases hc : c = b
        · subst hc
          rw [if_neg hb, if_pos (List.mem_cons_self ..), Function.update_self]
        · rw [Function.update_of_ne hc]
          simp only [List.mem_cons, hc, false_or]
          refine if_congr Iff.rfl (List.filter_congr fun q hq => ?_) rfl
          rw [Bool.eq_iff_iff, hvis]
          exact and_iff_left fun hqb => hc (h.eq_of_mem hq hqb)
      rw [← hsame]
      exact hlisted'
    · rw [hvis', hvis, List.forall_mem_cons, and_assoc]
      refine and_congr_right fun _ => and_congr_right fun hqb => forall₂_congr fun c hc => ?_
      have hcb : c ≠ b := fun h => hb (h ▸ hc)
      rw [Function.update_of_ne hcb]

end Path64.Rename

import Path64.Cg.Numbering

/-!
# The loops that are detected

* `Detected` : the list after the scan and the nest levels, `Detected.map` : counting exits does not matter;
* `Detected.nested` : loops that meet in a block that can be reached are nested;
* `findLoop_cases`, `isExitEdge_cases` : what the queries return;
* `LoopsRight` : heads, block sets, order, nest levels and queries;
* `detectLoops_right`, `detectLoops_of_graph` : the result of `LOOP_DESCR_Detect_Loops`.
-/

namespace Path64.Cg

open Flow Lib

variable {g : Cfg} {loops : List LoopDescr}

/-! ## Nest levels -/

/-- The parts of a descriptor that the scan has fixed. -/
def LoopDescr.key (c : LoopDescr) : Nat × Finset Nat := (c.loophead, c.bbset)

theorem keys_setNestlevels (loops : List LoopDescr) :
    (setNestlevels loops).map LoopDescr.key = loops.map LoopDescr.key := by
  induction loops with
  | nil => rfl
  | cons c rest ih =>
    rw [setNestlevels, List.map_cons, List.map_cons, ih]
    rfl

theorem listed_iff : Listed g loops ↔ (∀ k ∈ loops.map LoopDescr.key, LoopPart g.Edge g.Entry k.1 (· ∈ k.2)) ∧
    (loops.map LoopDescr.key).Pairwise fun k k' => k.1 ≠ k'.1 ∧ ¬k'.2 ⊆ k.2 := by
  rw [List.forall_mem_map, List.pairwise_map]
  exact ⟨fun h => ⟨h.part, h.sorted⟩, fun h => ⟨h.1, h.2⟩⟩

theorem covers_iff {h x : Nat} : Covers loops h x ↔ ∃ k ∈ loops.map LoopDescr.key, k.1 = h ∧ x ∈ k.2 := by
  constructor
  · rintro ⟨c, hc, hx⟩
    exact ⟨c.key, List.mem_map_of_mem hc, hx⟩
  · rintro ⟨k, hk, hx⟩
    obtain ⟨c, hc, rfl⟩ := List.mem_map.mp hk
    exact ⟨c, hc, hx⟩

theorem Listed.nodup_heads (h : Listed g loops) : (loops.map LoopDescr.loophead).Nodup :=
  List.pairwise_map.mpr (h.sorted.imp And.left)

theorem Listed.eq_of_head (h : Listed g loops) {c d : LoopDescr} (hc : c ∈ loops) (hd : d ∈ loops)
    (heq : c.loophead = d.loophead) : c = d := List.inj_on_of_nodup_map h.nodup_heads hc hd heq

/-- How many loops contain the blocks. -/
def enclosing (loops : List LoopDescr) (set : Finset Nat) : Nat := loops.countP fun d => set ⊆ d.bbset

theorem enclosing_eq (set : Finset Nat) :
    enclosing loops set = (loops.map LoopDescr.key).countP fun k => set ⊆ k.2 := by
  rw [List.countP_map]
  rfl

theorem nestlevel_setNestlevels (h : Listed g loops) (hlevel : ∀ c ∈ loops, c.nestlevel = 1) :
    ∀ d ∈ setNestlevels loops, d.nestlevel = enclosing loops d.bbset := by
  induction loops with
  | nil => exact fun d hd => absurd hd List.not_mem_nil
  | cons c rest ih =>
    obtain ⟨hfirst, hsorted⟩ := List.pairwise_cons.mp h.sorted
    intro d hd
    rcases List.mem_cons.mp hd with rfl | hd
    · show c.nestlevel + _ = List.countP _ (c :: rest)
      rw [List.countP_cons_of_pos (by simp), hlevel c List.mem_cons_self, Nat.add_comm]
    · have hrest := ih ⟨fun c hc => h.part c (List.mem_cons_of_mem _ hc), hsorted⟩
        (fun c hc => hlevel c (List.mem_cons_of_mem _ hc)) d hd
      have hkey : d.key ∈ rest.map LoopDescr.key := by
        rw [← keys_setNestlevels]
        exact List.mem_map_of_mem hd
      obtain ⟨c', hc', heq⟩ := List.mem_map.mp hkey
      have hset : c'.bbset = d.bbset := congrArg Prod.snd heq
      rw [hrest]
      refine (List.countP_cons_of_neg ?_).symm
      rw [← hset]
      simpa using (hfirst c' hc').2

/-- The list of all natural loops with their nest levels. -/
structure Detected (g : Cfg) (loops : List LoopDescr) : Prop where
  listed : Listed g loops
  covers : ∀ h x, Covers loops h x ↔ ∃ t, BackEdge g.Edge g.Entry t h ∧ NaturalLoop g.Edge h t x
  level : ∀ c ∈ loops, c.nestlevel = enclosing loops c.bbset

theorem detected_setNestlevels (hs : Scanned g (fun _ _ => True) loops) : Detected g (setNestlevels loops) where
  listed := listed_iff.mpr (keys_setNestlevels loops ▸ listed_iff.mp hs.listed)
  covers := by
    intro h x
    rw [covers_iff, keys_setNestlevels, ← covers_iff, hs.covers]
    simp only [true_and]
  level := by
    intro c hc
    rw [nestlevel_setNestlevels hs.listed hs.level c hc, enclosing_eq, enclosing_eq, keys_setNestlevels]

/-- What the exits count does not change. -/
theorem Detected.map (h : Detected g loops) {f : LoopDescr → LoopDescr}
    (hf : ∀ c, (f c).key = c.key ∧ (f c).nestlevel = c.nestlevel) : Detected g (loops.map f) := by
  have hkeys : (loops.map f).map LoopDescr.key = loops.map LoopDescr.key := by
    rw [List.map_map]
    exact List.map_congr_left fun c _ => (hf c).1
  refine ⟨listed_iff.mpr (hkeys ▸ listed_iff.mp h.listed), fun a x => ?_, fun d hd => ?_⟩
  · rw [covers_iff, hkeys, ← covers_iff, h.covers]
  · obtain ⟨c, hc, rfl⟩ := List.mem_map.mp hd
    have hset : (f c).bbset = c.bbset := congrArg Prod.snd (hf c).1
    rw [(hf c).2, h.level c hc, enclosing_eq, enclosing_eq, hkeys, hset]

theorem Detected.countExit (h : Detected g loops) (bb succ : Nat) : Detected g (countExit bb loops succ) := by
  unfold Cg.countExit
  split
  · exact h
  · refine h.map fun c => ?_
    split_ifs <;> exact ⟨rfl, rfl⟩

theorem Detected.countExits (h : Detected g loops) (dfo : Nat → Nat) : Detected g (g.countExits dfo loops) := by
  unfold Cfg.countExits
  refine List.foldlRecOn g.order _ h fun loops h bb _ => ?_
  split_ifs
  · exact h
  · exact List.foldlRecOn (g.succs bb) _ h fun loops h succ _ => h.countExit bb succ

namespace Detected

/-- Of two loops that share a block that can be reached one contains the other. -/
theorem nested (h : Detected g loops) {c d : LoopDescr} (hc : c ∈ loops) (hd : d ∈ loops) {b : Nat}
    (hr : Reached g.Edge g.Entry b) (hbc : b ∈ c.bbset) (hbd : b ∈ d.bbset) : c.bbset ⊆ d.bbset ∨ d.bbset ⊆ c.bbset := by
  have hpc := h.listed.part c hc
  have hpd := h.listed.part d hd
  by_cases hne : c.loophead = d.loophead
  · rw [h.listed.eq_of_head hc hd hne]
    exact .inl (Finset.Subset.refl _)
  · rcases LoopPart.head_of_common hpc hpd hne hr hbc hbd with hmem | hmem
    · exact .inr (hpc.subset_of_head hpd hne hmem)
    · exact .inl (hpd.subset_of_head hpc (Ne.symm hne) hmem)

/-- A loop that is contained in another comes before it. -/
theorem after (h : Detected g loops) {pre rest : List LoopDescr} {c d : LoopDescr} (hloops : loops = pre ++ c :: rest)
    (hd : d ∈ loops) (hsub : c.bbset ⊆ d.bbset) (hne : d ≠ c) : d ∈ rest := by
  have hsorted := h.listed.sorted
  rw [hloops] at hd hsorted
  rcases List.mem_append.mp hd with hd | hd
  · exact absurd hsub ((List.pairwise_append.mp hsorted).2.2 d hd c List.mem_cons_self).2
  · exact (List.mem_cons.mp hd).resolve_left hne

theorem not_subset_of_rest (h : Detected g loops) {pre rest : List LoopDescr} {c d : LoopDescr}
    (hloops : loops = pre ++ c :: rest) (hd : d ∈ rest) : ¬d.bbset ⊆ c.bbset := by
  have hsorted := h.listed.sorted
  rw [hloops] at hsorted
  exact ((List.pairwise_cons.mp (List.pairwise_append.mp hsorted).2.1).1 d hd).2

theorem mem_bbset (h : Detected g loops) {c : LoopDescr} (hc : c ∈ loops) (x : Nat) :
    x ∈ c.bbset ↔ ∃ t, BackEdge g.Edge g.Entry t c.loophead ∧ NaturalLoop g.Edge c.loophead t x := by
  rw [← h.covers]
  constructor
  · exact fun hx => ⟨c, hc, rfl, hx⟩
  · rintro ⟨d, hd, heq, hx⟩
    rwa [h.listed.eq_of_head hc hd heq.symm]

theorem mem_heads (h : Detected g loops) (a : Nat) :
    a ∈ loops.map LoopDescr.loophead ↔ ∃ t, BackEdge g.Edge g.Entry t a := by
  constructor
  · intro ha
    obtain ⟨c, hc, rfl⟩ := List.mem_map.mp ha
    obtain ⟨t, hb, -⟩ := (h.mem_bbset hc c.loophead).mp (h.listed.part c hc).head
    exact ⟨t, hb⟩
  · rintro ⟨t, hb⟩
    obtain ⟨c, hc, rfl, -⟩ := (h.covers a a).mpr ⟨t, hb, .inl rfl⟩
    exact List.mem_map_of_mem hc

theorem not_ssubset_of_level (h : Detected g loops) {pre rest : List LoopDescr} {c d : LoopDescr}
    (hloops : loops = pre ++ c :: rest) (hlevel : c.nestlevel = 1) (hd : d ∈ rest) : ¬c.bbset ⊆ d.bbset := by
  intro hsub
  have hcount := h.level c (by simp [hloops])
  have hpos : 0 < rest.countP fun d => c.bbset ⊆ d.bbset := List.countP_pos_iff.mpr ⟨d, hd, by simpa using hsub⟩
  rw [hlevel, enclosing, hloops, List.countP_append, List.countP_cons_of_pos (by simp)] at hcount
  omega

end Detected

/-! ## Queries -/

theorem fromMap_cases (loops : List LoopDescr) (bb : Nat) : ((∀ c ∈ loops, bb ∉ c.bbset) ∧ fromMap loops bb = []) ∨
    ∃ pre c rest, loops = pre ++ c :: rest ∧ (∀ d ∈ pre, bb ∉ d.bbset) ∧ bb ∈ c.bbset ∧ fromMap loops bb = c :: rest := by
  induction loops with
  | nil => exact .inl ⟨fun c hc => absurd hc List.not_mem_nil, rfl⟩
  | cons c rest ih =>
    by_cases hmem : bb ∈ c.bbset
    · exact .inr ⟨[], c, rest, rfl, fun d hd => absurd hd List.not_mem_nil, hmem,
        List.dropWhile_cons_of_neg (by simpa using hmem)⟩
    · have hdrop : fromMap (c :: rest) bb = fromMap rest bb := List.dropWhile_cons_of_pos (by simpa using hmem)
      rw [hdrop]
      rcases ih with ⟨hnone, hnil⟩ | ⟨pre, d, rest', heq, hpre, hd, hrun⟩
      · exact .inl ⟨List.forall_mem_cons.mpr ⟨hmem, hnone⟩, hnil⟩
      · exact .inr ⟨c :: pre, d, rest', by rw [heq]; rfl, List.forall_mem_cons.mpr ⟨hmem, hpre⟩, hd, hrun⟩

/-- The loop is left along the edge. -/
def LoopDescr.Left (bb succ : Nat) (c : LoopDescr) : Prop := bb ∈ c.bbset ∧ succ ∉ c.bbset

theorem exitScan_cases (bb succ : Nat) : ∀ (loops : List LoopDescr) (e : Option LoopDescr),
    ((∀ c ∈ loops, ¬c.Left bb succ) ∧ exitScan bb succ e loops = e) ∨
      ∃ pre c rest, loops = pre ++ c :: rest ∧ c.Left bb succ ∧ exitScan bb succ e loops = some c ∧
        (c.nestlevel = 1 ∨ ∀ d ∈ rest, ¬d.Left bb succ) := by
  intro loops
  induction loops with
  | nil => exact fun e => .inl ⟨fun c hc => absurd hc List.not_mem_nil, rfl⟩
  | cons c rest ih =>
    intro e
    unfold exitScan
    split_ifs with hleft hlevel
    · exact .inr ⟨[], c, rest, rfl, hleft, rfl, .inl hlevel⟩
    · rcases ih (some c) with ⟨hnone, hrun⟩ | ⟨pre, d, rest', heq, hd, hrun, hlast⟩
      · exact .inr ⟨[], c, rest, rfl, hleft, hrun, .inr hnone⟩
      · exact .inr ⟨c :: pre, d, rest', by rw [heq]; rfl, hd, hrun, hlast⟩
    · rcases ih e with ⟨hnone, hrun⟩ | ⟨pre, d, rest', heq, hd, hrun, hlast⟩
      · exact .inl ⟨List.forall_mem_cons.mpr ⟨hleft, hnone⟩, hrun⟩
      · exact .inr ⟨c :: pre, d, rest', by rw [heq]; rfl, hd, hrun, hlast⟩

theorem isExitEdge_cases (loops : List LoopDescr) (bb succ : Nat) :
    ((∀ c ∈ loops, ¬c.Left bb succ) ∧ isExitEdge loops bb succ = none) ∨
      ∃ pre c rest, loops = pre ++ c :: rest ∧ c.Left bb succ ∧ isExitEdge loops bb succ = some c ∧
        (c.nestlevel = 1 ∨ ∀ d ∈ rest, ¬d.Left bb succ) := by
  unfold isExitEdge
  rcases fromMap_cases loops bb with ⟨hnone, hnil⟩ | ⟨pre, c, rest, heq, hpre, hc, hrun⟩
  · rw [hnil]
    exact .inl ⟨fun c hc hleft => hnone c hc hleft.1, rfl⟩
  · rw [hrun]
    rcases exitScan_cases bb succ (c :: rest) none with ⟨hnone, hscan⟩ | ⟨pre', d, rest', heq', hd, hscan, hlast⟩
    · refine .inl ⟨fun d hd hleft => ?_, hscan⟩
      rw [heq] at hd
      rcases List.mem_append.mp hd with hd | hd
      · exact hpre d hd hleft.1
      · exact hnone d hd hleft
    · exact .inr ⟨pre ++ pre', d, rest', by rw [heq, heq', List.append_assoc], hd, hscan, hlast⟩

/-- The smallest loop with the block. -/
structure Innermost (g : Cfg) (loops : List LoopDescr) (b : Nat) (c : LoopDescr) : Prop where
  mem : c ∈ loops
  has : b ∈ c.bbset
  minimal : ∀ d ∈ loops, b ∈ d.bbset → ¬d.bbset ⊂ c.bbset
  least : Reached g.Edge g.Entry b → ∀ d ∈ loops, b ∈ d.bbset → c.bbset ⊆ d.bbset

/-- The largest loop that is left along the edge. -/
structure Outermost (g : Cfg) (loops : List LoopDescr) (bb succ : Nat) (c : LoopDescr) : Prop where
  mem : c ∈ loops
  left : c.Left bb succ
  maximal : ∀ d ∈ loops, d.Left bb succ → ¬c.bbset ⊂ d.bbset
  greatest : Reached g.Edge g.Entry bb → ∀ d ∈ loops, d.Left bb succ → d.bbset ⊆ c.bbset

/-- The smallest loop around another. -/
structure Encloses (loops : List LoopDescr) (c d : LoopDescr) : Prop where
  mem : d ∈ loops
  larger : c.bbset ⊂ d.bbset
  least : ∀ e ∈ loops, c.bbset ⊂ e.bbset → d.bbset ⊆ e.bbset

namespace Detected

theorem findLoop_spec (h : Detected g loops) (b : Nat) :
    ((∀ c ∈ loops, b ∉ c.bbset) ∧ findLoop loops b = none) ∨ ∃ c, findLoop loops b = some c ∧ Innermost g loops b c := by
  unfold findLoop
  rcases fromMap_cases loops b with ⟨hnone, hnil⟩ | ⟨pre, c, rest, heq, hpre, hc, hrun⟩
  · exact .inl ⟨hnone, by rw [hnil]; rfl⟩
  · have hmem : c ∈ loops := by simp [heq]
    have hafter : ∀ d ∈ loops, b ∈ d.bbset → d = c ∨ d ∈ rest := by
      intro d hd hbd
      rw [heq] at hd
      rcases List.mem_append.mp hd with hd | hd
      · exact absurd hbd (hpre d hd)
      · exact List.mem_cons.mp hd
    refine .inr ⟨c, by rw [hrun]; rfl, hmem, hc, fun d hd hbd hlt => ?_, fun hr d hd hbd => ?_⟩
    · rcases hafter d hd hbd with rfl | hd'
      · exact hlt.2 hlt.1
      · exact h.not_subset_of_rest heq hd' hlt.1
    · rcases hafter d hd hbd with rfl | hd'
      · exact Finset.Subset.refl _
      · exact (h.nested hmem hd hr hc hbd).resolve_right (h.not_subset_of_rest heq hd')

theorem isExitEdge_spec (h : Detected g loops) (bb succ : Nat) :
    ((∀ c ∈ loops, ¬c.Left bb succ) ∧ isExitEdge loops bb succ = none) ∨
      ∃ c, isExitEdge loops bb succ = some c ∧ Outermost g loops bb succ c := by
  rcases isExitEdge_cases loops bb succ with hnone | ⟨pre, c, rest, heq, hleft, hrun, hlast⟩
  · exact .inl hnone
  · have hmem : c ∈ loops := by simp [heq]
    have hmax : ∀ d ∈ loops, d.Left bb succ → c.bbset ⊆ d.bbset → d = c := by
      intro d hd hd' hsub
      by_contra hne
      have hrest := h.after heq hd hsub hne
      rcases hlast with hlevel | hlast
      · exact h.not_ssubset_of_level heq hlevel hrest hsub
      · exact hlast d hrest hd'
    refine .inr ⟨c, hrun, hmem, hleft, fun d hd hd' hlt => ?_, fun hr d hd hd' => ?_⟩
    · obtain rfl := hmax d hd hd' hlt.1
      exact hlt.2 hlt.1
    · rcases h.nested hmem hd hr hleft.1 hd'.1 with hsub | hsub
      · rw [hmax d hd hd' hsub]
      · exact hsub

theorem level_lt (h : Detected g loops) {pre rest : List LoopDescr} {c d : LoopDescr} (heq : loops = pre ++ c :: rest)
    (hd : d ∈ rest) (hsub : c.bbset ⊆ d.bbset) : d.nestlevel < c.nestlevel := by
  have hmem : d ∈ loops := by simp [heq, hd]
  have hnot := h.not_subset_of_rest heq hd
  have hle : ∀ l : List LoopDescr, l.countP (fun e => d.bbset ⊆ e.bbset) ≤ l.countP fun e => c.bbset ⊆ e.bbset :=
    fun l => List.countP_mono_left fun e _ he => by simpa using hsub.trans (of_decide_eq_true he)
  rw [h.level d hmem, h.level c (by simp [heq]), enclosing, enclosing, heq, List.countP_append, List.countP_append,
    List.countP_cons_of_neg (by simpa using hnot), List.countP_cons_of_pos (by simp)]
  have := hle pre
  have := hle rest
  omega

theorem nextEnclosingLoop_spec (h : Detected g loops) {pre rest : List LoopDescr} {c : LoopDescr}
    (heq : loops = pre ++ c :: rest) :
    ((∀ d ∈ loops, ¬c.bbset ⊂ d.bbset) ∧ nextEnclosingLoop c rest = none) ∨
      ∃ d, nextEnclosingLoop c rest = some d ∧ Encloses loops c d := by
  have hmem : c ∈ loops := by simp [heq]
  have hrest : ∀ d ∈ loops, c.bbset ⊂ d.bbset → d ∈ rest := by
    intro d hd hlt
    refine h.after heq hd hlt.1 ?_
    rintro rfl
    exact hlt.2 hlt.1
  unfold nextEnclosingLoop
  split_ifs with hlevel
  · rcases hfind : rest.find? fun e => e.nestlevel < c.nestlevel ∧ c.bbset ⊆ e.bbset with _ | d
    · refine .inl ⟨fun d hd hlt => ?_, hfind⟩
      have hnot := List.find?_eq_none.mp hfind d (hrest d hd hlt)
      rw [decide_eq_true_eq] at hnot
      exact hnot ⟨h.level_lt heq (hrest d hd hlt) hlt.1, hlt.1⟩
    · obtain ⟨hd, pre', rest', hsplit, hbefore⟩ := List.find?_eq_some_iff_append.mp hfind
      rw [decide_eq_true_eq] at hd
      have hdrest : d ∈ rest := by simp [hsplit]
      have hdmem : d ∈ loops := by simp [heq, hdrest]
      refine .inr ⟨d, hfind, hdmem, ⟨hd.2, h.not_subset_of_rest heq hdrest⟩, fun e he hlt => ?_⟩
      have heq' : loops = (pre ++ c :: pre') ++ d :: rest' := by rw [heq, hsplit, List.append_assoc, List.cons_append]
      have hpart := h.listed.part c hmem
      rcases h.nested hdmem he hpart.reached (hd.2 hpart.head) (hlt.1 hpart.head) with hsub | hsub
      · exact hsub
      · have herest := hrest e he hlt
        rw [hsplit] at herest
        rcases List.mem_append.mp herest with hebefore | heafter
        · have hnot := hbefore e hebefore
          rw [Bool.not_eq_true', decide_eq_false_iff_not] at hnot
          exact absurd ⟨h.level_lt heq (hrest e he hlt) hlt.1, hlt.1⟩ hnot
        · rcases List.mem_cons.mp heafter with rfl | heafter
          · exact Finset.Subset.refl _
          · exact absurd hsub (h.not_subset_of_rest heq' heafter)
  · refine .inl ⟨fun d hd hlt => hlevel ?_, rfl⟩
    have hlow := h.level_lt heq (hrest d hd hlt) hlt.1
    have hpos : 0 < d.nestlevel := by
      rw [h.level d hd]
      exact List.countP_pos_iff.mpr ⟨d, hd, by simp⟩
    omega

end Detected

/-! ## The result -/

/-- The loops of the graph, with the order, the nest levels and the queries. -/
structure LoopsRight (g : Cfg) (loops : List LoopDescr) : Prop where
  nodup : (loops.map LoopDescr.loophead).Nodup
  heads : ∀ h, h ∈ loops.map LoopDescr.loophead ↔ ∃ t, BackEdge g.Edge g.Entry t h
  bbset : ∀ c ∈ loops, ∀ x, x ∈ c.bbset ↔
    ∃ t, BackEdge g.Edge g.Entry t c.loophead ∧ NaturalLoop g.Edge c.loophead t x
  innerFirst : ∀ i j : Fin loops.length, (loops.get i).bbset ⊂ (loops.get j).bbset → i < j
  nestlevel : ∀ c ∈ loops, c.nestlevel = loops.countP fun d => c.bbset ⊆ d.bbset
  map : ∀ b, ((∀ c ∈ loops, b ∉ c.bbset) ∧ findLoop loops b = none) ∨
    ∃ c, findLoop loops b = some c ∧ Innermost g loops b c
  exitEdge : ∀ bb succ, ((∀ c ∈ loops, ¬c.Left bb succ) ∧ isExitEdge loops bb succ = none) ∨
    ∃ c, isExitEdge loops bb succ = some c ∧ Outermost g loops bb succ c
  nextEnclosing : ∀ pre c rest, loops = pre ++ c :: rest →
    ((∀ d ∈ loops, ¬c.bbset ⊂ d.bbset) ∧ nextEnclosingLoop c rest = none) ∨
      ∃ d, nextEnclosingLoop c rest = some d ∧ Encloses loops c d

theorem Detected.right (h : Detected g loops) : LoopsRight g loops where
  nodup := h.listed.nodup_heads
  heads := h.mem_heads
  bbset := fun _ hc => h.mem_bbset hc
  innerFirst := by
    intro i j hlt
    by_contra hle
    rcases (not_lt.mp hle).eq_or_lt with rfl | hji
    · exact hlt.2 hlt.1
    · exact (List.pairwise_iff_get.mp h.listed.sorted j i hji).2 hlt.1
  nestlevel := h.level
  map := h.findLoop_spec
  exitEdge := h.isExitEdge_spec
  nextEnclosing := fun _ _ _ heq => h.nextEnclosingLoop_spec heq

/-! ## The whole function -/

/-- `LOOP_DESCR_Detect_Loops` finds the natural loops. -/
theorem detectLoops_right {dom : Sets} {dfo : Nat → Nat} (hdom : g.DomsRight dom) (hdfo : g.Numbered dfo) :
    ∃ n, ∀ fuel ≥ n, ∃ loops, g.detectLoops dom dfo fuel = some loops ∧ LoopsRight g loops := by
  refine ⟨g.order.length, fun fuel hfuel => ?_⟩
  obtain ⟨loops, hrun, hs⟩ := scan_spec hdom hdfo hfuel
  refine ⟨g.countExits dfo (setNestlevels loops), ?_, ((detected_setNestlevels hs).countExits dfo).right⟩
  unfold Cfg.detectLoops
  rw [hrun]
  rfl

theorem detectLoops_right_exitLoop : ∃ n dom pdom dfo, Cfg.exitLoop.calculateDominators n = some (dom, pdom) ∧
    Cfg.exitLoop.depthFirstMap [1] n = some dfo ∧
    ∃ k, ∀ fuel ≥ k, ∃ loops, Cfg.exitLoop.detectLoops dom dfo fuel = some loops ∧ LoopsRight Cfg.exitLoop loops := by
  obtain ⟨n, dom, pdom, hrun, hspec⟩ := Cfg.calculateDominators_spec Cfg.exitLoop_connected
  have hentries : ∀ e, e ∈ [1] ↔ Cfg.exitLoop.Entry e := by
    intro e
    constructor
    · intro he
      rw [List.mem_singleton.mp he]
      exact ⟨by decide, rfl⟩
    · exact fun he => List.mem_singleton.mpr (of_decide_eq_true he.2)
  obtain ⟨dfo, hmap, hdfo⟩ := depthFirstMap_numbered hentries (le_max_right n Cfg.exitLoop.order.length)
  exact ⟨max n Cfg.exitLoop.order.length, dom, pdom, dfo, hrun _ (le_max_left _ _), hmap,
    detectLoops_right (fun b hb _ x => (hspec b hb x).1) hdfo⟩

/-- On what `Calculate_Dominators` and `BB_Depth_First_Map` compute, the natural loops of a graph are found. -/
theorem detectLoops_of_graph (hc : g.Connected) {entries : List Nat} (hentries : ∀ e, e ∈ entries ↔ g.Entry e) :
    ∃ n, ∀ fuel ≥ n, ∃ dom pdom dfo loops, g.calculateDominators fuel = some (dom, pdom) ∧
      g.depthFirstMap entries fuel = some dfo ∧ g.detectLoops dom dfo fuel = some loops ∧ LoopsRight g loops := by
  obtain ⟨n, dom, pdom, hrun, hspec⟩ := Cfg.calculateDominators_spec hc
  refine ⟨max n g.order.length, fun fuel hfuel => ?_⟩
  obtain ⟨dfo, hmap, hdfo⟩ := depthFirstMap_numbered hentries (le_trans (le_max_right _ _) hfuel)
  obtain ⟨loops, hscan, hs⟩ := scan_spec (fun b hb _ x => (hspec b hb x).1) hdfo (le_trans (le_max_right _ _) hfuel)
  refine ⟨dom, pdom, dfo, g.countExits dfo (setNestlevels loops), hrun _ (le_trans (le_max_left _ _) hfuel), hmap, ?_,
    ((detected_setNestlevels hs).countExits dfo).right⟩
  unfold Cfg.detectLoops
  rw [hscan]
  rfl

theorem detectLoops_of_graph_exitLoop : ∃ n, ∀ fuel ≥ n, ∃ dom pdom dfo loops,
    Cfg.exitLoop.calculateDominators fuel = some (dom, pdom) ∧ Cfg.exitLoop.depthFirstMap [1] fuel = some dfo ∧
      Cfg.exitLoop.detectLoops dom dfo fuel = some loops ∧ LoopsRight Cfg.exitLoop loops :=
  detectLoops_of_graph Cfg.exitLoop_connected fun e =>
    ⟨fun he => List.mem_singleton.mp he ▸ ⟨by decide, rfl⟩, fun he => List.mem_singleton.mpr (of_decide_eq_true he.2)⟩

end Path64.Cg

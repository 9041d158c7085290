import Path64.Swp.Mve
import Mathlib.Data.List.NodupEquivFin

/-!
# Software pipelining: what the emitted code reads

The kernel that `SWP_MVE` unrolls and renames, run as `SWP_CODE_GEN` peels it into prologues, kernels and epilogues.

* `At`, `Before` : the places of a run;
* `RunKeepsDataFlow` : every use of a renamed register reads what its definition wrote in the iteration it names;
* `exists_places` : the operations of a step are those of one copy of the loop, in their order;
* `pipeline_right` : each run executes every operation instance once and keeps the data flow.
-/

namespace Path64.Swp

open CodeGen

/-! ## The places of a run -/

/-- Operation `c` is executed at place `i` of step `s`. -/
def At (steps : List (List (SwpOp NewTn))) (s i : Nat) (c : SwpOp NewTn) : Prop :=
  ∃ here, steps[s]? = some here ∧ here[i]? = some c

/-- An earlier step, or an earlier place in the same step. -/
def Before (s i s' i' : Nat) : Prop := s < s' ∨ s = s' ∧ i < i'

/-- A use of a renamed register, `p'` in the copy `c` of `o`, names the version that the definition `od` wrote in the
iteration `p.originalOmega` before, and nothing has written this version since; where that iteration comes before the
first one, nothing has written the version at all. -/
def RunKeepsDataFlow (ops : List (SwpOp Tn)) (steps : List (List (SwpOp NewTn))) : Prop :=
  ∀ (s i : Nat) (c : SwpOp NewTn), At steps s i c → ∀ o ∈ ops, c.tag = o.tag → o.isPointerUpdate = false →
    ∀ (j : Nat) (p : Opnd Tn) (p' : Opnd NewTn), o.opnds[j]? = some p → c.opnds[j]? = some p' → p.tn.Renamed →
    0 ≤ p.originalOmega → ∀ od ∈ ops, od.isPointerUpdate = false → ∀ r : Nat, od.results[r]? = some p.tn →
      if (o.stage : Int) + p.originalOmega ≤ s then
        ∃ (s' i' : Nat) (c' : SwpOp NewTn), At steps s' i' c' ∧ c'.tag = od.tag ∧
          (s' : Int) - od.stage = s - o.stage - p.originalOmega ∧ c'.results[r]? = some p'.tn ∧ Before s' i' s i ∧
          ∀ (s'' i'' : Nat) (c'' : SwpOp NewTn), At steps s'' i'' c'' → Before s' i' s'' i'' → Before s'' i'' s i →
            p'.tn ∉ c''.results
      else ∀ (s' i' : Nat) (c' : SwpOp NewTn), At steps s' i' c' → Before s' i' s i → p'.tn ∉ c'.results

/-! ## The operations of a step -/

section Run

variable {T : Type} (cg : CodeGen T)

theorem fill_sublist (b : Block) : (cg.fill b).Sublist cg.ops := by
  cases b with
  | prolog | kernel => exact List.filter_sublist
  | epilog | oldProlog | oldEpilog => exact List.nil_sublist _

/-- Each step of a run is made of operations of the kernel, in their order. -/
theorem run_sublist {n : Nat} (fuel : Nat) : ∀ (b : Block) (count : Nat) (steps : List (List (SwpOp T))),
    cg.run n fuel b count = some steps → ∀ here ∈ steps, here.Sublist cg.ops := by
  induction fuel with
  | zero =>
    intro b count steps h
    cases h
  | succ fuel ih =>
    intro b count steps h
    cases b with
    | epilog e =>
      cases h
      intro here hmem
      obtain ⟨j, -, rfl⟩ := List.mem_map.mp hmem
      exact List.filter_sublist
    | oldEpilog =>
      cases h
      exact fun here hmem => absurd hmem List.not_mem_nil
    | oldProlog =>
      rw [run] at h
      obtain ⟨b', -, h⟩ := Option.bind_eq_some_iff.mp h
      exact ih _ _ _ h
    | prolog | kernel =>
      simp only [run] at h
      split at h
      all_goals
        obtain ⟨b', -, h⟩ := Option.bind_eq_some_iff.mp h
        obtain ⟨rest, hrest, h⟩ := Option.bind_eq_some_iff.mp h
        cases h
        exact List.forall_mem_cons.mpr ⟨fill_sublist cg _, ih _ _ _ hrest⟩

end Run

section Places

variable {m : Renaming} {ii : Nat} {ops : List (SwpOp Tn)} {raw : List (SwpOp NewTn)}

theorem length_unrollKernel (h : unrollKernel m ii ops = some raw) :
    (mveUpdateOmega m.kMin raw).length = m.kMin * ops.length := by
  rw [mveUpdateOmega, List.length_map, length_of_mapM h]
  simp

/-- The places in the loop of operations that all stand in copy `u`. -/
theorem exists_places (hraw : unrollKernel m ii ops = some raw) {here : List (SwpOp NewTn)}
    (hsub : here.Sublist (mveUpdateOmega m.kMin raw)) {u : Nat} (hver : ∀ c ∈ here, c.unrolling = u) :
    ∃ place : Nat → Nat, (∀ i c, here[i]? = some c → u < m.kMin ∧ ∃ o, ops[place i]? = some o ∧
      (mveUpdateOmega m.kMin raw)[u * ops.length + place i]? = some c ∧ IsCopy m u o c) ∧
      ∀ i i', i < here.length → i' < here.length → (place i < place i' ↔ i < i') := by
  obtain ⟨f, hf⟩ := List.sublist_iff_exists_orderEmbedding_getElem?_eq.mp hsub
  have hplace : ∀ i c, here[i]? = some c → u < m.kMin ∧ u * ops.length + f i % ops.length = f i ∧
      ∃ o, ops[f i % ops.length]? = some o ∧ IsCopy m u o c := by
    intro i c hc
    have hget := (hf i).symm.trans hc
    have hlt := (List.getElem?_eq_some_iff.mp hget).1
    rw [length_unrollKernel hraw] at hlt
    have hpos : 0 < ops.length := Nat.pos_of_mul_pos_left (Nat.zero_lt_of_lt hlt)
    have hdiv := Nat.div_add_mod' (f i) ops.length
    obtain ⟨c', hc', hcopy⟩ := unrollKernel_copy hraw (Nat.div_lt_of_lt_mul (Nat.mul_comm .. ▸ hlt))
      (List.getElem?_eq_getElem (Nat.mod_lt (f i) hpos))
    rw [hdiv, hget, Option.some_inj] at hc'
    subst hc'
    have hu : f i / ops.length = u := hcopy.unrolling_eq.symm.trans (hver c (List.mem_of_getElem? hc))
    rw [hu] at hdiv hcopy
    exact ⟨hu ▸ Nat.div_lt_of_lt_mul (Nat.mul_comm .. ▸ hlt), hdiv, _, List.getElem?_eq_getElem _, hcopy⟩
  refine ⟨fun i => f i % ops.length, fun i c hc => ?_, fun i i' hi hi' => ?_⟩
  · obtain ⟨hu, heq, o, ho, hcopy⟩ := hplace i c hc
    exact ⟨hu, o, ho, by rw [heq, ← hf, hc], hcopy⟩
  · have h := (hplace i _ (List.getElem?_eq_getElem hi)).2.1
    have h' := (hplace i' _ (List.getElem?_eq_getElem hi')).2.1
    have hlt : f i < f i' ↔ i < i' := f.lt_iff_lt
    dsimp only
    omega

/-- Where the operations that a run executes stand in the repeated kernel, and that they follow one another as there. -/
theorem run_places {loop : SwpLoop} {body : List (SwpOp Tn)} {n : Nat} {steps : List (List (SwpOp NewTn))}
    (hraw : unrollKernel m ii ops = some raw) (hkernels : loop.kernelUnrollings = m.kMin) (hk : 0 < m.kMin)
    (hsub : ∀ here ∈ steps, here.Sublist (mveUpdateOmega m.kMin raw))
    (hexact : (CodeGen.mk (mveUpdateOmega m.kMin raw) loop).ExactRun body n steps) :
    ∃ place : Nat → Nat → Nat,
      (∀ s i c, At steps s i c → ∃ (q : Int) (u : Nat) (o : SwpOp Tn), u < m.kMin ∧ q * m.kMin + u = s - loop.ps ∧
        ops[place s i]? = some o ∧ (mveUpdateOmega m.kMin raw)[u * ops.length + place s i]? = some c ∧ IsCopy m u o c) ∧
      ∀ s i c s' i' c', At steps s i c → At steps s' i' c' →
        (Before s i s' i' ↔ ((s : Int) - loop.ps) * ops.length + place s i <
          ((s' : Int) - loop.ps) * ops.length + place s' i') := by
  have hstep : ∀ s : Nat, ∃ place : Nat → Nat, ∀ here, steps[s]? = some here → ∃ u : Nat,
      (u : Int) = ((s : Int) - loop.ps) % m.kMin ∧ (∀ i c, here[i]? = some c → u < m.kMin ∧ ∃ o, ops[place i]? = some o ∧
        (mveUpdateOmega m.kMin raw)[u * ops.length + place i]? = some c ∧ IsCopy m u o c) ∧
      ∀ i i', i < here.length → i' < here.length → (place i < place i' ↔ i < i') := by
    intro s
    cases hs : steps[s]? with
    | none => exact ⟨id, fun here h => absurd h.symm (Option.some_ne_none here)⟩
    | some here =>
      obtain ⟨hlt, hget⟩ := List.getElem?_eq_some_iff.mp hs
      have hserves := hget ▸ hexact.serves s hlt
      have hver := hserves.version
      dsimp only at hver
      rw [hkernels] at hver
      obtain ⟨u, hu⟩ := Int.eq_ofNat_of_zero_le (Int.emod_nonneg ((s : Int) - loop.ps) (by omega : (m.kMin : Int) ≠ 0))
      obtain ⟨place, hplace⟩ := exists_places hraw (hsub here (List.mem_of_getElem? hs)) (u := u)
        fun c hc => by exact_mod_cast (hver c hc).trans hu
      refine ⟨place, fun here' h => ?_⟩
      obtain rfl := Option.some.inj h
      exact ⟨u, hu.symm, hplace⟩
  choose place hplace using hstep
  refine ⟨place, ?_, ?_⟩
  · rintro s i c ⟨here, hs, hi⟩
    obtain ⟨u, hu, hall, -⟩ := hplace s here hs
    obtain ⟨hlt, o, ho, hget, hcopy⟩ := hall i c hi
    exact ⟨_, u, o, hlt, by rw [hu]; exact Int.ediv_mul_add_emod _ _, ho, hget, hcopy⟩
  · rintro s i c s' i' c' ⟨here, hs, hi⟩ ⟨here', hs', hi'⟩
    obtain ⟨u, -, hall, hmono⟩ := hplace s here hs
    obtain ⟨u', -, hall', -⟩ := hplace s' here' hs'
    obtain ⟨-, o, ho, -⟩ := hall i c hi
    obtain ⟨-, o', ho', -⟩ := hall' i' c' hi'
    rw [step_lt_iff (List.getElem?_eq_some_iff.mp ho).1 (List.getElem?_eq_some_iff.mp ho').1, Before]
    refine or_congr (by omega) ⟨?_, ?_⟩
    · rintro ⟨rfl, hlt⟩
      obtain rfl := Option.some.inj (hs.symm.trans hs')
      exact ⟨rfl, (hmono i i' (List.getElem?_eq_some_iff.mp hi).1 (List.getElem?_eq_some_iff.mp hi').1).mpr hlt⟩
    · rintro ⟨heq, hlt⟩
      obtain rfl : s = s' := by omega
      obtain rfl := Option.some.inj (hs.symm.trans hs')
      exact ⟨rfl, (hmono i i' (List.getElem?_eq_some_iff.mp hi).1 (List.getElem?_eq_some_iff.mp hi').1).mp hlt⟩

/-- An operation that a step executes is under way there. -/
theorem At.underWay {cg : CodeGen NewTn} {n : Nat} {steps : List (List (SwpOp NewTn))} (hexact : cg.ExactRun ops n steps)
    {s i : Nat} {c : SwpOp NewTn} (hat : At steps s i c) (hpu : c.tag.isPointerUpdate = false) :
    c.stage ≤ s ∧ s < c.stage + n := by
  obtain ⟨here, hs, hi⟩ := hat
  obtain ⟨hlt, rfl⟩ := List.getElem?_eq_some_iff.mp hs
  have hmem : c.tag ∈ (steps[s].map SwpOp.tag).filter fun g => !g.isPointerUpdate :=
    List.mem_filter.mpr ⟨List.mem_map_of_mem (List.mem_of_getElem? hi), by rw [hpu]; rfl⟩
  rw [(hexact.serves s hlt).tags] at hmem
  have hunder := (Bool.and_eq_true_iff.mp (List.mem_filter.mp hmem).2).2
  rw [CodeGen.underWay, Bool.and_eq_true, decide_eq_true_eq, decide_eq_true_eq] at hunder
  exact hunder

/-- An operation of an iteration that is run is executed in its step. -/
theorem exists_at {cg : CodeGen NewTn} {n : Nat} {steps : List (List (SwpOp NewTn))} (hexact : cg.ExactRun ops n steps)
    {o : SwpOp Tn} (ho : o ∈ ops) (hpu : o.isPointerUpdate = false) (hes : o.stage ≤ cg.loop.es) {s : Nat}
    (hge : o.stage ≤ s) (hlt : s < o.stage + n) : ∃ i c, At steps s i c ∧ c.tag = o.tag := by
  have hs : s < steps.length := by
    rw [hexact.length_eq]
    omega
  have hmem : o.tag ∈ (steps[s].map SwpOp.tag).filter fun g => !g.isPointerUpdate := by
    rw [(hexact.serves s hs).tags]
    refine List.mem_filter.mpr ⟨List.mem_map_of_mem ho, ?_⟩
    simp [CodeGen.underWay, SwpOp.tag, hpu, hge, hlt]
  obtain ⟨c, hc, htag⟩ := List.mem_map.mp (List.mem_filter.mp hmem).1
  obtain ⟨i, hi⟩ := List.getElem?_of_mem hc
  exact ⟨i, c, ⟨_, List.getElem?_eq_getElem hs, hi⟩, htag⟩

/-- One operation has a tag. -/
theorem place_of_tag (hnodup : (ops.map SwpOp.op).Nodup) {a b : Nat} {o o' : SwpOp Tn} (ha : ops[a]? = some o)
    (hb : ops[b]? = some o') (htag : o.tag = o'.tag) : a = b := by
  have hlt : a < (ops.map SwpOp.op).length := by
    rw [List.length_map]
    exact (List.getElem?_eq_some_iff.mp ha).1
  refine (List.getElem?_inj hlt hnodup).mp ?_
  rw [List.getElem?_map, List.getElem?_map, ha, hb]
  exact congrArg (fun g => some g.op) htag

/-- A use and its definition are near enough for the versions that there are. -/
def Near (m : Renaming) (ops : List (SwpOp Tn)) : Prop :=
  ∀ (a d : Nat) (o od : SwpOp Tn) (p : Opnd Tn), ops[a]? = some o → ops[d]? = some od → p ∈ o.opnds → p.tn.Renamed →
    p.tn ∈ od.results → p.tn ∉ m.invariants ∧ (0 < stepsBehind p o od ∨ (stepsBehind p o od = 0 ∧ d < a)) ∧
      stepsBehind p o od ≤ 127 ∧ (stepsBehind p o od < m.kMin ∨ (stepsBehind p o od = m.kMin ∧ a ≤ d))

theorem run_keepsDataFlow {loop : SwpLoop} {n : Nat} {steps : List (List (SwpOp NewTn))}
    (hraw : unrollKernel m ii ops = some raw) (hkernels : loop.kernelUnrollings = m.kMin) (hk : 0 < m.kMin)
    (hone : ((ops.flatMap SwpOp.results).filter Tn.isRenamed).Nodup) (hnodup : (ops.map SwpOp.op).Nodup)
    (hnear : Near m ops) (hes : ∀ o ∈ ops, o.stage ≤ loop.es)
    (hsub : ∀ here ∈ steps, here.Sublist (mveUpdateOmega m.kMin raw))
    (hexact : (CodeGen.mk (mveUpdateOmega m.kMin raw) loop).ExactRun ops n steps) : RunKeepsDataFlow ops steps := by
  obtain ⟨place, hplace, hbefore⟩ := run_places hraw hkernels hk hsub hexact
  intro s i c hat o ho htag hpu j p p' hp hp' hren homega od hod hpud r hr
  obtain ⟨q, u, o1, hu, hq, ha, -, hcopy⟩ := hplace s i c hat
  obtain ⟨b, hb⟩ := List.getElem?_of_mem ho
  obtain rfl : o1 = o := by
    have hab := place_of_tag hnodup ha hb (hcopy.tag_eq.symm.trans htag)
    exact Option.some.inj (ha.symm.trans (hab ▸ hb))
  obtain ⟨d, hd⟩ := List.getElem?_of_mem hod
  obtain ⟨hvar, hdep, hmax, hcov⟩ := hnear _ d _ od p ha hd (List.mem_of_getElem? hp) hren (List.mem_of_getElem? hr)
  obtain ⟨q', u', c', hu', hc', hiter, hres, htime, hbetween, -⟩ :=
    reads_definition hraw hk hone hu ha hd hr hren hvar hdep hmax hcov q
  obtain ⟨y, hy, hyget⟩ := hcopy.operand j p hp
  obtain rfl := Option.some.inj (hp'.symm.trans hyget)
  obtain ⟨-, rfl⟩ := (getOperandTn_renamed hren hk hy).resolve_right hvar
  have hstep : q' * m.kMin + u' = (s : Int) - o1.stage - p.originalOmega + od.stage - loop.ps := by
    unfold iteration at hiter
    omega
  simp only [execTime_eq, hq, hstep] at htime hbetween
  have hpu' : c.tag.isPointerUpdate = false := htag ▸ hpu
  have huse := hat.underWay hexact hpu'
  have hstage : c.stage = o1.stage := congrArg OpTag.stage htag
  -- what stands between the definition and the use in the repeated kernel does not write the version
  have hwrites : ∀ (s'' i'' : Nat) (c'' : SwpOp NewTn), At steps s'' i'' c'' → Before s'' i'' s i →
      .version p.tn (((u : Int) - o1.stage - p.originalOmega) % m.kMin) ∈ c''.results →
      ¬ ((s : Int) - o1.stage - p.originalOmega + od.stage - loop.ps) * ops.length + d <
        ((s'' : Int) - loop.ps) * ops.length + place s'' i'' := by
    intro s'' i'' c'' hat'' hb hmem hlt
    obtain ⟨q'', u'', o'', hu'', hq'', ha'', hget'', -⟩ := hplace s'' i'' c'' hat''
    have hle := hbetween q'' u'' _ c'' hu'' (List.getElem?_eq_some_iff.mp ha'').1 hget'' hmem (by rw [hq'']; exact hlt)
    rw [hq''] at hle
    exact absurd ((hbefore _ _ _ _ _ _ hat'' hat).mp hb) (not_lt.mpr hle)
  split_ifs with hin
  · obtain ⟨s', hs'⟩ := Int.eq_ofNat_of_zero_le (show 0 ≤ (s : Int) - o1.stage - p.originalOmega + od.stage by omega)
    obtain ⟨i', c1, hat', htag'⟩ := exists_at hexact hod hpud (hes od hod) (s := s') (by omega) (by omega)
    obtain ⟨q1, u1, o2, hu1, hq1, ha1, hget1, hcopy1⟩ := hplace s' i' c1 hat'
    obtain rfl := place_of_tag hnodup ha1 hd (hcopy1.tag_eq.symm.trans htag')
    have hsame : (u1 : Int) = u' := by
      have hmod := congrArg (· % (m.kMin : Int)) (show q1 * m.kMin + u1 = q' * m.kMin + u' by omega)
      rwa [Int.mul_comm q1, Int.mul_comm q', Int.mul_add_emod_self_left, Int.mul_add_emod_self_left,
        Int.emod_eq_of_lt (by omega) (by omega), Int.emod_eq_of_lt (by omega) (by omega)] at hmod
    obtain rfl : u1 = u' := by omega
    obtain rfl := Option.some.inj (hget1.symm.trans hc')
    rw [hs'] at htime hwrites
    refine ⟨s', i', c1, hat', htag', by omega, hres, (hbefore _ _ _ _ _ _ hat' hat).mpr htime, ?_⟩
    exact fun s'' i'' c'' hat'' hb hb' hmem => hwrites s'' i'' c'' hat'' hb' hmem ((hbefore _ _ _ _ _ _ hat' hat'').mp hb)
  · -- a write of the version before the use would be one of an iteration before the first
    intro s' i' c'' hat' hb hmem
    have hnot := hwrites s' i' c'' hat' hb hmem
    obtain ⟨q'', u'', o'', hu'', hq'', ha'', hget'', hcopy''⟩ := hplace s' i' c'' hat'
    obtain ⟨x, hx, hxy⟩ := hcopy''.result_of _ hmem
    obtain ⟨rfl, -⟩ := getResultTn_version hk hxy
    have hed := defs_unique hone hren ha'' hd hx (List.mem_of_getElem? hr)
    obtain rfl : o'' = od := Option.some.inj (ha''.symm.trans (hed ▸ hd))
    have hwrite := hat'.underWay hexact (hcopy''.tag_eq ▸ hpud)
    have hstage' : c''.stage = o''.stage := congrArg OpTag.stage hcopy''.tag_eq
    have hlen := (List.getElem?_eq_some_iff.mp hd).1
    rw [hed, step_lt_iff hlen hlen] at hnot
    omega

end Places

/-! ## From the scheduled loop to the emitted code -/

theorem ScheduledLoop.near {ii : Nat} {ops₀ ops : List (SwpOp Tn)} (h : ScheduledLoop ii ops₀ ops)
    {bps : List (Tn × Nat)} (hfits : Fits ii ops₀ ops bps) {lts : List (TnLifetime Tn)}
    (hlts : swpLifetime ii ops bps = some lts) :
    Near (generateRenamingTns (determineUnrollFactor ii lts) ops lts) ops := by
  intro a d o od p ha hd hp hren hdef
  refine ⟨fun hin => ?_, h.respects a d o od p ha hd hp hren hdef, hfits.omegas o (List.mem_of_getElem? ha) od
    (List.mem_of_getElem? hd) p hp hren hdef, h.unroll_covers hfits hlts ha hd hp hren hdef⟩
  have hloop := isLoopDefined_of hren (List.mem_of_getElem? hd) hdef
  have hfree := (List.mem_filter.mp hin).2
  simp [hloop] at hfree

/-- The kernel of a scheduled loop is unrolled, renamed and peeled into code that, for every trip count, executes each
operation of each iteration once and reads there what the loop reads. -/
theorem pipeline_right {ii k n : Nat} {ops₀ ops : List (SwpOp Tn)} {bps : List (Tn × Nat)} {mve_ops : List (SwpOp NewTn)}
    (lt : List (TnLifetime Tn)) (h : ScheduledLoop ii ops₀ ops) (hfits : Fits ii ops₀ ops bps)
    (hmve : swpMve ii ops bps = some (k, mve_ops)) (hk : 1 ≤ k) (hnodup : (ops.map SwpOp.op).Nodup)
    (hbranch : ∃ o ∈ ops, o.isBr) (hstage : ∀ o ∈ ops, o.isBr → o.stage = 0)
    (hps : (calculatePrologEpilogStages ii k ops lt).ps = (calculatePrologEpilogStages ii k ops lt).sc - 1)
    (hes : (calculatePrologEpilogStages ii k ops lt).es = (calculatePrologEpilogStages ii k ops lt).sc - 1)
    (hn : 1 ≤ n) : (CodeGen.mk mve_ops (calculatePrologEpilogStages ii k ops lt)).ExactFlow ∧ ∃ steps,
      (CodeGen.mk mve_ops (calculatePrologEpilogStages ii k ops lt)).run n (n + 2) .oldProlog 0 = some steps ∧
      (CodeGen.mk mve_ops (calculatePrologEpilogStages ii k ops lt)).ExactRun ops n steps ∧
      RunKeepsDataFlow ops steps := by
  have hpipe := swpMve_pipelined hmve hk hbranch hstage hps hes
  obtain ⟨steps, hrun, hexact⟩ := hpipe.run_exact hnodup hn
  refine ⟨hpipe.exactFlow, steps, hrun, hexact, ?_⟩
  have hsub := run_sublist _ _ _ _ _ hrun
  unfold swpMve at hmve
  split at hmve
  · exact absurd hmve (Option.some_ne_none _).symm
  rename_i lts hlts
  obtain ⟨raw, hraw, heq⟩ := Option.map_eq_some_iff.mp hmve
  obtain ⟨rfl, rfl⟩ := Prod.mk.inj heq
  exact run_keepsDataFlow hraw rfl hk h.one_def hnodup (h.near hfits hlts)
    (fun o ho => by rw [hes]; exact CodeGen.le_maxStage ho) hsub hexact

/-- A value, its use one stage later, and the loop branch. -/
def branchLoop : List (SwpOp Tn) :=
  [{ op := 0, results := [{ number := 10 }] },
   { op := 1, opnds := [{ tn := { number := 10 } }], stage := 1 },
   { op := 2, isBr := true }]

theorem branchLoop_fits : Fits 1 branchLoop (updateOmega branchLoop) [] := by
  have hsubs : ∀ subs, opSubCycles (updateOmega branchLoop) = some subs → subs = [0, 1, 2] := fun subs h =>
    Option.some.inj (h.symm.trans (by decide))
  refine ⟨fun d o before after x ho hres _ _ cur hcur => ?_, by decide, by decide, fun subs h => ?_, fun subs h => ?_,
    nofun, trivial, trivial⟩
  · have hlen : ∀ o ∈ branchLoop, o.results.length ≤ 1 := by decide
    exact absurd hcur (not_mem_before (hlen o (List.mem_of_getElem? ho)) hres)
  · rw [hsubs subs h]
    decide
  · rw [hsubs subs h]
    decide

/-- Five iterations of the loop, in two copies of the kernel. -/
theorem pipeline_right_branchLoop : ∃ mve_ops steps, swpMve 1 (updateOmega branchLoop) [] = some (2, mve_ops) ∧
    (CodeGen.mk mve_ops (calculatePrologEpilogStages 1 2 (updateOmega branchLoop) [])).run 5 7 .oldProlog 0 = some steps ∧
    RunKeepsDataFlow (updateOmega branchLoop) steps := by
  have hk : (swpMve 1 (updateOmega branchLoop) []).map Prod.fst = some 2 := by decide
  obtain ⟨⟨k, mve_ops⟩, h, rfl⟩ := Option.map_eq_some_iff.mp hk
  have hloop : ScheduledLoop 1 branchLoop (updateOmega branchLoop) :=
    scheduledLoop_of (by decide) (by decide) (by decide) (by decide) (by decide)
  obtain ⟨-, steps, hrun, -, hflow⟩ := pipeline_right [] (n := 5) hloop branchLoop_fits h (by decide) (by decide)
    (by decide) (by decide) (by decide) (by decide) (by decide)
  exact ⟨mve_ops, steps, h, hrun, hflow⟩

end Path64.Swp

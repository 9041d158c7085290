import Path64.Swp.CodeGen
import Path64.Swp.Intervals
import Path64.Swp.Omega

/-!
# Software pipelining: modulo variable expansion

`SWP_MVE` unrolls the kernel until no value outlives the next write of its register, and gives each copy of an
operation the versions of its registers: a definition in iteration `t` writes version `t mod K`, a use of the value of
iteration `t - w` reads version `(t - w) mod K`.

* `determineUnrollFactor`, `unrollKernel`, `mveUpdateOmega` : the three steps of the constructor;
* `determineUnrollFactor_covers` : the unrolled kernel is as long as every lifetime;
* `KeepsDataFlow` : in the repeated kernel every use reads what its definition wrote;
* `swpMve_pipelined` : the kernel is one that the code generator peels into exactly one run of each instance;
* `mve_keepsDataFlow` : this holds when sub-cycles and omegas fit their fields;
* `mve_uniqResult` : it fails for a unique result defined in the first sub-cycle.
-/

namespace Path64.Swp

open Intervals

/-! ## The unroll factor -/

/-- The loop before unrolling, all its register classes together. -/
def originalLoop (ii : Nat) (ops : List (SwpOp Tn)) (bps : List (Tn × Nat)) : Loop := { ops, ii, backpatches := bps }

/-- The lifetimes that `SWP_LIFETIME` finds for the loop before unrolling. -/
def swpLifetime (ii : Nat) (ops : List (SwpOp Tn)) (bps : List (Tn × Nat)) : Option (List (TnLifetime Tn)) :=
  (kernelLifetime (originalLoop ii ops bps)).map LifetimeState.lt

/-- `Get_TN_Lifetime`: the lifetime in cycles, rounded up. -/
def getTnLifetime (lt : TnLifetime Tn) : Nat :=
  (lt.endSubCycle - lt.startSubCycle + (subcyclesPerCycle - 1)) / subcyclesPerCycle

/-- `Determine_Unroll_Factor`. -/
def determineUnrollFactor (ii : Nat) (lts : List (TnLifetime Tn)) : Nat :=
  let max_lt := lts.foldl (fun m lt => if getTnLifetime lt > m then getTnLifetime lt else m) 0
  (max_lt + (ii - 1)) / ii

/-! ## Versions -/

/-- A register of the unrolled kernel: a version of a loop variant, the copy of an invariant, or the old register. -/
inductive NewTn where
  | version (tn : Tn) (idx : Int)
  | invariant (tn : Tn)
  | old (tn : Tn)
deriving DecidableEq, Repr

/-- `_k_min` and the registers in `_renamed_tns`. -/
structure Renaming where
  kMin : Nat
  variants : List Tn
  invariants : List Tn

/-- `Generate_Renaming_TNs`: a dedicated register ends the renaming of the lifetime it stands in. -/
def generateRenamingTns (kMin : Nat) (ops : List (SwpOp Tn)) (lts : List (TnLifetime Tn)) : Renaming where
  kMin := kMin
  variants := lts.flatMap fun lt => lt.tns.takeWhile fun tn => !tn.isDedicated
  invariants := (ops.flatMap fun o => o.opnds.map Opnd.tn).filter fun tn =>
    tn.isRegister && !tn.isDedicated && !isLoopDefined ops tn

variable (m : Renaming)

/-- `Get_Renamed_TN`; none when the register is unknown. -/
def getRenamedTn (tn : Tn) (omega unroll : Int) : Option NewTn :=
  if tn.isDedicated then some (.old tn)
  else if tn ∈ m.variants then some (.version tn (wrapVersion (unroll - omega + m.kMin) m.kMin))
  else if tn ∈ m.invariants then some (.invariant tn)
  else none

/-- The version of the iteration that copy `unroll` of an operation of stage `stage` works for. -/
def iterationVersion (unroll stage : Nat) : Int := wrapVersion ((unroll : Int) - stage) m.kMin

/-- `Get_Result_TN`. -/
def getResultTn (unroll stage : Nat) (tn : Tn) : Option NewTn :=
  if !tn.isRegister then some (.old tn) else getRenamedTn m tn 0 (iterationVersion m unroll stage)

/-- `Get_Operand_TN`. -/
def getOperandTn (unroll stage : Nat) (p : Opnd Tn) : Option NewTn :=
  if !p.tn.isRegister then some (.old p.tn)
  else getRenamedTn m p.tn p.originalOmega (iterationVersion m unroll stage)

/-- `Duplicate_OP`. There are at most 256 copies, since an omega of a lifetime is a `mUINT8`. -/
def duplicateOp (ii unroll : Nat) (o : SwpOp Tn) : Option (SwpOp NewTn) := do
  let results ← o.results.mapM (getResultTn m unroll o.stage)
  let opnds ← o.opnds.mapM fun p => (getOperandTn m unroll o.stage p).map fun tn =>
    { tn, omega := p.omega, originalOmega := p.originalOmega : Opnd NewTn }
  some
    { op := o.op
      results
      opnds
      startCycle := o.startCycle + unroll * ii
      stage := o.stage
      unrolling := unroll
      isPointerUpdate := o.isPointerUpdate
      isBr := o.isBr
      sameRes := o.sameRes
      uniqRes := o.uniqRes }

/-- `Unroll_Kernel`. -/
def unrollKernel (ii : Nat) (ops : List (SwpOp Tn)) : Option (List (SwpOp NewTn)) :=
  ((List.range m.kMin).flatMap fun unroll => ops.map fun o => (unroll, o)).mapM fun c => duplicateOp m ii c.1 c.2

/-- `SWP_MVE::Update_Omega` for one operand. -/
def mveOmega (kMin unrolling : Nat) (omega : Int) : Int :=
  int8 ((omega + ((kMin : Int) - unrolling - 1)).tdiv kMin)

/-- `SWP_MVE::Update_Omega`. -/
def mveUpdateOmega (kMin : Nat) (ops : List (SwpOp NewTn)) : List (SwpOp NewTn) :=
  ops.map fun o => { o with opnds := o.opnds.map fun p => { p with omega := mveOmega kMin o.unrolling p.omega } }

/-- `SWP_MVE::SWP_MVE`, after the lifetimes of the loop have been measured: `_k_min` and `_mve_ops`. -/
def swpMve (ii : Nat) (ops : List (SwpOp Tn)) (bps : List (Tn × Nat)) : Option (Nat × List (SwpOp NewTn)) :=
  match swpLifetime ii ops bps with
  | none => none
  | some lts =>
    let k := determineUnrollFactor ii lts
    (unrollKernel (generateRenamingTns k ops lts) ii ops).map fun mve_ops => (k, mveUpdateOmega k mve_ops)

/-! ## The unrolled kernel is long enough -/

/-- No lifetime is longer than the unrolled kernel. -/
theorem determineUnrollFactor_covers {ii : Nat} (hii : 0 < ii) {lts : List (TnLifetime Tn)} {lt : TnLifetime Tn}
    (hlt : lt ∈ lts) :
    lt.endSubCycle ≤ lt.startSubCycle + determineUnrollFactor ii lts * ii * subcyclesPerCycle := by
  have hmax := (le_foldl_greatest getTnLifetime lts 0).2 lt hlt
  unfold determineUnrollFactor
  dsimp only
  generalize lts.foldl (fun m lt => if getTnLifetime lt > m then getTnLifetime lt else m) 0 = max_lt at hmax ⊢
  have hceil : max_lt ≤ (max_lt + (ii - 1)) / ii * ii := by
    have hdiv := Nat.div_add_mod (max_lt + (ii - 1)) ii
    have hmod := Nat.mod_lt (max_lt + (ii - 1)) hii
    rw [Nat.mul_comm] at hdiv
    omega
  unfold getTnLifetime subcyclesPerCycle at *
  omega

/-! ## The copies -/

theorem getElem?_copies {ops : List (SwpOp Tn)} {o : SwpOp Tn} {a : Nat} (ha : ops[a]? = some o) :
    ∀ {k s u : Nat}, u < k →
      ((List.range' s k).flatMap fun unroll => ops.map fun o => (unroll, o))[u * ops.length + a]? = some (s + u, o) := by
  intro k
  induction k with
  | zero => exact fun hu => absurd hu (Nat.not_lt_zero _)
  | succ k ih =>
    intro s u hu
    have hlt : a < ops.length := (List.getElem?_eq_some_iff.mp ha).1
    rw [List.range'_succ, List.flatMap_cons]
    cases u with
    | zero =>
      rw [Nat.zero_mul, Nat.zero_add, List.getElem?_append_left (by rw [List.length_map]; exact hlt),
        List.getElem?_map, ha]
      rfl
    | succ u =>
      rw [List.getElem?_append_right (by rw [List.length_map, Nat.succ_mul]; omega), List.length_map,
        show (u + 1) * ops.length + a - ops.length = u * ops.length + a by rw [Nat.succ_mul]; omega,
        ih (Nat.lt_of_succ_lt_succ hu), show s + 1 + u = s + (u + 1) by omega]

/-- What copy `u` of an operation is in the finished kernel. -/
structure IsCopy (u : Nat) (o : SwpOp Tn) (c : SwpOp NewTn) : Prop where
  unrolling_eq : c.unrolling = u
  tag_eq : c.tag = o.tag
  result : ∀ (r : Nat) (x : Tn), o.results[r]? = some x → ∃ y, getResultTn m u o.stage x = some y ∧ c.results[r]? = some y
  result_of : ∀ y ∈ c.results, ∃ x ∈ o.results, getResultTn m u o.stage x = some y
  operand : ∀ (j : Nat) (p : Opnd Tn), o.opnds[j]? = some p → ∃ y, getOperandTn m u o.stage p = some y ∧
    c.opnds[j]? = some { tn := y, omega := mveOmega m.kMin u p.omega, originalOmega := p.originalOmega }

variable {m}

theorem unrollKernel_copy {ii : Nat} {ops : List (SwpOp Tn)} {mve_ops : List (SwpOp NewTn)}
    (h : unrollKernel m ii ops = some mve_ops) {u a : Nat} (hu : u < m.kMin) {o : SwpOp Tn} (ha : ops[a]? = some o) :
    ∃ c, (mveUpdateOmega m.kMin mve_ops)[u * ops.length + a]? = some c ∧ IsCopy m u o c := by
  have hcopy := getElem?_copies ha (s := 0) hu
  rw [← List.range_eq_range', Nat.zero_add] at hcopy
  obtain ⟨c, hc, hget⟩ := getElem?_of_mapM h hcopy
  unfold duplicateOp at hc
  simp only [Option.bind_eq_bind, Option.bind_eq_some_iff, Option.some_inj] at hc
  obtain ⟨results, hresults, opnds, hopnds, rfl⟩ := hc
  refine ⟨_, by rw [mveUpdateOmega, List.getElem?_map, hget]; rfl, rfl, rfl, fun r x hx => ?_, fun y hy => ?_,
    fun j p hp => ?_⟩
  · exact getElem?_of_mapM hresults hx
  · exact mem_of_mapM hresults hy
  · obtain ⟨p', hp', hget'⟩ := getElem?_of_mapM hopnds hp
    obtain ⟨y, hy, rfl⟩ := Option.map_eq_some_iff.mp hp'
    refine ⟨y, hy, ?_⟩
    rw [List.getElem?_map, hget']
    rfl

theorem mapM_block {ii u : Nat} {ops : List (SwpOp Tn)} {block : List (SwpOp NewTn)}
    (h : (ops.map fun o => (u, o)).mapM (fun c => duplicateOp m ii c.1 c.2) = some block) :
    block.map SwpOp.tag = ops.map SwpOp.tag ∧ ∀ c ∈ block, c.unrolling = u := by
  induction ops generalizing block with
  | nil =>
    rw [List.map_nil, List.mapM_nil, Option.pure_def, Option.some_inj] at h
    subst h
    exact ⟨rfl, by simp⟩
  | cons o ops ih =>
    rw [List.map_cons, List.mapM_cons] at h
    simp only [Option.bind_eq_bind, Option.bind_eq_some_iff, Option.pure_def, Option.some_inj] at h
    obtain ⟨c, hc, rest, hrest, rfl⟩ := h
    obtain ⟨htag, hunroll⟩ := ih hrest
    unfold duplicateOp at hc
    simp only [Option.bind_eq_bind, Option.bind_eq_some_iff, Option.some_inj] at hc
    obtain ⟨_, -, _, -, rfl⟩ := hc
    refine ⟨by rw [List.map_cons, List.map_cons, htag]; rfl, fun c' hc' => ?_⟩
    rcases List.mem_cons.mp hc' with rfl | hc'
    · rfl
    · exact hunroll c' hc'

/-- Each copy of the unrolled kernel holds the operations of the loop, in their order. -/
theorem unrollKernel_tags {ii : Nat} {ops : List (SwpOp Tn)} {raw : List (SwpOp NewTn)}
    (h : unrollKernel m ii ops = some raw) {u : Nat} (hu : u < m.kMin) :
    ((mveUpdateOmega m.kMin raw).filter fun c => c.unrolling = u).map SwpOp.tag = ops.map SwpOp.tag := by
  have hblocks : ∀ {k s : Nat} {raw : List (SwpOp NewTn)},
      ((List.range' s k).flatMap fun unroll => ops.map fun o => (unroll, o)).mapM
        (fun c => duplicateOp m ii c.1 c.2) = some raw →
      (raw.filter fun c => c.unrolling = u).map SwpOp.tag =
        if s ≤ u ∧ u < s + k then ops.map SwpOp.tag else [] := by
    intro k
    induction k with
    | zero =>
      intro s raw hraw
      rw [List.range'_zero, List.flatMap_nil, List.mapM_nil, Option.pure_def, Option.some_inj] at hraw
      rw [← hraw, if_neg (by omega)]
      rfl
    | succ k ih =>
      intro s raw hraw
      rw [List.range'_succ, List.flatMap_cons, List.mapM_append] at hraw
      simp only [Option.bind_eq_bind, Option.bind_eq_some_iff, Option.pure_def, Option.some_inj] at hraw
      obtain ⟨block, hblock, rest, hrest, rfl⟩ := hraw
      obtain ⟨htag, hunroll⟩ := mapM_block hblock
      rw [List.filter_append, List.map_append, ih hrest]
      by_cases hs : s = u
      · rw [List.filter_eq_self.mpr fun c hc => by simp [hunroll c hc, hs], htag, if_neg (by omega), if_pos (by omega),
          List.append_nil]
      · rw [List.filter_eq_nil_iff.mpr fun c hc => by simp [hunroll c hc, hs], List.map_nil, List.nil_append]
        refine if_congr ?_ rfl rfl
        omega
  unfold unrollKernel at h
  rw [List.range_eq_range'] at h
  have hfilter := hblocks h
  rw [if_pos ⟨Nat.zero_le u, by omega⟩] at hfilter
  rw [mveUpdateOmega, List.filter_map, List.map_map, ← hfilter]
  rfl

/-- The unrolled kernel is what the code generator expects. -/
theorem swpMve_pipelined {ii k : Nat} {ops : List (SwpOp Tn)} {bps : List (Tn × Nat)} {lt : List (TnLifetime Tn)}
    {mve_ops : List (SwpOp NewTn)} (h : swpMve ii ops bps = some (k, mve_ops)) (hk : 1 ≤ k)
    (hbranch : ∃ o ∈ ops, o.isBr) (hstage : ∀ o ∈ ops, o.isBr → o.stage = 0)
    (hps : (calculatePrologEpilogStages ii k ops lt).ps = (calculatePrologEpilogStages ii k ops lt).sc - 1)
    (hes : (calculatePrologEpilogStages ii k ops lt).es = (calculatePrologEpilogStages ii k ops lt).sc - 1) :
    (CodeGen.mk mve_ops (calculatePrologEpilogStages ii k ops lt)).Pipelined ops := by
  unfold swpMve at h
  split at h
  · exact absurd h (by simp)
  · rename_i lts _
    obtain ⟨raw, hraw, heq⟩ := Option.map_eq_some_iff.mp h
    obtain ⟨rfl, rfl⟩ := Prod.mk.inj heq
    exact
      { kernels_pos := hk
        copies := fun u hu => unrollKernel_tags hraw hu
        stage_lt := fun o ho => Nat.lt_succ_of_le (CodeGen.le_maxStage ho)
        branch := hbranch
        branch_stage := hstage
        ps_eq := hps
        es_eq := hes }

/-! ## The repeated kernel -/

/-- The place of copy `u` of operation `a`, in pass `q` of the unrolled kernel, in the kernel repeated forever. -/
def execTime (k n : Nat) (q : Int) (u a : Nat) : Int := q * (k * n : Nat) + (u * n + a : Nat)

/-- The iteration that copy `u` of an operation of stage `stage` works for in pass `q`. -/
def iteration (k : Nat) (q : Int) (u stage : Nat) : Int := q * k + u - stage

/-- In the repeated kernel every use of a renamed register names the version that the definition wrote `w` iterations
before, no other definition writes it in between, and the stored omega counts the passes between the two. -/
def KeepsDataFlow (k : Nat) (ops : List (SwpOp Tn)) (mve_ops : List (SwpOp NewTn)) : Prop :=
  ∀ (u a : Nat) (o : SwpOp Tn) (c : SwpOp NewTn), u < k → ops[a]? = some o →
    mve_ops[u * ops.length + a]? = some c →
    ∀ (j : Nat) (p : Opnd Tn) (p' : Opnd NewTn), o.opnds[j]? = some p → c.opnds[j]? = some p' → p.tn.Renamed →
    ∀ (d r : Nat) (od : SwpOp Tn), ops[d]? = some od → od.results[r]? = some p.tn → ∀ q : Int,
    ∃ (q' : Int) (u' : Nat) (c' : SwpOp NewTn), u' < k ∧ mve_ops[u' * ops.length + d]? = some c' ∧
      iteration k q' u' od.stage = iteration k q u o.stage - p.originalOmega ∧
      c'.results[r]? = some p'.tn ∧
      execTime k ops.length q' u' d < execTime k ops.length q u a ∧
      (∀ (q'' : Int) (u'' e : Nat) (c'' : SwpOp NewTn), u'' < k → e < ops.length →
        mve_ops[u'' * ops.length + e]? = some c'' → p'.tn ∈ c''.results →
        execTime k ops.length q' u' d < execTime k ops.length q'' u'' e →
        execTime k ops.length q u a ≤ execTime k ops.length q'' u'' e) ∧
      p'.omega = q - q'

theorem execTime_eq (k n : Nat) (q : Int) (u a : Nat) : execTime k n q u a = (q * k + u) * n + a := by
  unfold execTime
  push_cast
  ring

theorem step_lt_iff {n a b : Nat} (ha : a < n) (hb : b < n) (s t : Int) :
    s * n + a < t * n + b ↔ s < t ∨ (s = t ∧ a < b) := by
  rcases lt_trichotomy s t with h | rfl | h
  · have hmul : (s + 1) * (n : Int) ≤ t * n := mul_le_mul_of_nonneg_right (by omega) (by omega)
    rw [add_mul, one_mul] at hmul
    constructor <;> intro <;> omega
  · constructor <;> intro <;> omega
  · have hmul : (t + 1) * (n : Int) ≤ s * n := mul_le_mul_of_nonneg_right (by omega) (by omega)
    rw [add_mul, one_mul] at hmul
    constructor <;> intro <;> omega

theorem getResultTn_renamed {u stage : Nat} {x : Tn} (hx : x.Renamed) {y : NewTn} (hk : 0 < m.kMin)
    (h : getResultTn m u stage x = some y) :
    (x ∈ m.variants ∧ y = .version x (((u : Int) - stage) % m.kMin)) ∨ x ∈ m.invariants := by
  have hk' : (0 : Int) < m.kMin := by exact_mod_cast hk
  unfold getResultTn getRenamedTn iterationVersion at h
  rw [hx.1, hx.2] at h
  simp only [Bool.not_true, Bool.false_eq_true, if_false] at h
  split_ifs at h with hvar hinv
  · refine .inl ⟨hvar, ?_⟩
    rw [← Option.some_inj.mp h, wrapVersion_eq _ hk', wrapVersion_eq _ hk', Int.sub_zero, Int.add_emod_right,
      Int.emod_emod]
  · exact .inr hinv

theorem getOperandTn_renamed {u stage : Nat} {p : Opnd Tn} (hp : p.tn.Renamed) {y : NewTn} (hk : 0 < m.kMin)
    (h : getOperandTn m u stage p = some y) :
    (p.tn ∈ m.variants ∧ y = .version p.tn (((u : Int) - stage - p.originalOmega) % m.kMin)) ∨
      p.tn ∈ m.invariants := by
  have hk' : (0 : Int) < m.kMin := by exact_mod_cast hk
  unfold getOperandTn getRenamedTn iterationVersion at h
  rw [hp.1, hp.2] at h
  simp only [Bool.not_true, Bool.false_eq_true, if_false] at h
  split_ifs at h with hvar hinv
  · refine .inl ⟨hvar, ?_⟩
    rw [← Option.some_inj.mp h, wrapVersion_eq _ hk', wrapVersion_eq _ hk', Int.add_emod_right, Int.emod_sub_emod]
  · exact .inr hinv

theorem getResultTn_version {u stage : Nat} {x x' : Tn} {idx : Int} (hk : 0 < m.kMin)
    (h : getResultTn m u stage x' = some (.version x idx)) : x' = x ∧ idx = ((u : Int) - stage) % m.kMin := by
  have hk' : (0 : Int) < m.kMin := by exact_mod_cast hk
  unfold getResultTn getRenamedTn at h
  split_ifs at h with hreg hded hvar hinv
  · cases h
  · cases h
  · obtain ⟨rfl, rfl⟩ := NewTn.version.inj (Option.some_inj.mp h)
    refine ⟨rfl, ?_⟩
    rw [iterationVersion, wrapVersion_eq _ hk', wrapVersion_eq _ hk', Int.sub_zero, Int.add_emod_right, Int.emod_emod]
  · cases h

/-! ## Every use reads its definition -/

/-- The stages, and so the kernel steps, by which a use is behind its definition. -/
def stepsBehind (p : Opnd Tn) (o od : SwpOp Tn) : Int := p.originalOmega + ((o.stage : Int) - od.stage)

def Tn.isRenamed (x : Tn) : Bool := x.isRegister && !x.isDedicated

theorem Tn.isRenamed_iff (x : Tn) : x.isRenamed = true ↔ x.Renamed := by
  unfold Tn.isRenamed Tn.Renamed
  simp

/-- The operations of a scheduled loop, sorted by their modulo cycles, with the omegas of `ops₀` updated: each renamed
register has one definition, and a definition comes before its uses. -/
structure ScheduledLoop (ii : Nat) (ops₀ ops : List (SwpOp Tn)) : Prop where
  perm : ops.Perm (updateOmega ops₀)
  init : ∀ o ∈ ops₀, ∀ p ∈ o.opnds, p.omega = p.originalOmega
  sorted : ops.Pairwise fun o o' => o.startCycle ≤ o'.startCycle
  cycle_lt : ∀ o ∈ ops, o.startCycle < ii
  one_def : ((ops.flatMap SwpOp.results).filter Tn.isRenamed).Nodup
  respects : ∀ (a d : Nat) (o od : SwpOp Tn) (p : Opnd Tn), ops[a]? = some o → ops[d]? = some od → p ∈ o.opnds →
    p.tn.Renamed → p.tn ∈ od.results → 0 < stepsBehind p o od ∨ (stepsBehind p o od = 0 ∧ d < a)

theorem defs_unique {ops : List (SwpOp Tn)}
    (h : ((ops.flatMap SwpOp.results).filter Tn.isRenamed).Nodup) {x : Tn} (hx : x.Renamed)
    {a b : Nat} {oa ob : SwpOp Tn} (ha : ops[a]? = some oa) (hb : ops[b]? = some ob) (hxa : x ∈ oa.results)
    (hxb : x ∈ ob.results) : a = b := by
  rw [List.filter_flatMap, List.nodup_flatMap] at h
  have hpair := List.pairwise_iff_getElem.mp h.2
  obtain ⟨hla, rfl⟩ := List.getElem?_eq_some_iff.mp ha
  obtain ⟨hlb, rfl⟩ := List.getElem?_eq_some_iff.mp hb
  have hfa : x ∈ (ops[a].results).filter Tn.isRenamed :=
    List.mem_filter.mpr ⟨hxa, (Tn.isRenamed_iff x).mpr hx⟩
  have hfb : x ∈ (ops[b].results).filter Tn.isRenamed :=
    List.mem_filter.mpr ⟨hxb, (Tn.isRenamed_iff x).mpr hx⟩
  rcases lt_trichotomy a b with hlt | heq | hlt
  · exact absurd hfb (hpair a b hla hlb hlt hfa)
  · exact heq
  · exact absurd hfa (hpair b a hlb hla hlt hfb)

/-- The values that the passes keep fit their fields, and ties are clean. -/
structure Fits (ii : Nat) (ops₀ ops : List (SwpOp Tn)) (bps : List (Tn × Nat)) : Prop where
  /-- No result that stands before a renamed one with a use in another stage is defined by another operation. -/
  results_before : ∀ (d : Nat) (o : SwpOp Tn) (before after : List Tn) (x : Tn), ops₀[d]? = some o →
    o.results = before ++ x :: after → x.Renamed →
    (∃ o' ∈ ops₀, o'.stage ≠ o.stage ∧ ∃ p ∈ o'.opnds, p.tn = x) → DefinedOnlyBy ops₀ d before
  /-- Sub-cycles fit a `mUINT16`. -/
  cycles : ∀ o ∈ ops, o.startCycle < 8192
  /-- Omegas fit an `INT8`. -/
  omegas : ∀ o ∈ ops, ∀ od ∈ ops, ∀ p ∈ o.opnds, p.tn.Renamed → p.tn ∈ od.results → stepsBehind p o od ≤ 127
  /-- A unique result is not defined in sub-cycle 0, whose predecessor wraps around. -/
  uniq : ∀ subs, opSubCycles ops = some subs → ∀ q ∈ ops.zip subs, q.1.uniqRes = true →
    (∃ x ∈ q.1.results, x.Renamed) → q.2 ≠ 0
  /-- The ends of the uses fit a `mUINT16`. -/
  ends : ∀ subs, opSubCycles ops = some subs → ∀ q ∈ ops.zip subs, ∀ od ∈ ops, ∀ p ∈ q.1.opnds, p.tn.Renamed →
    p.tn ∈ od.results → (q.2 : Int) + stepsBehind p q.1 od * ii * subcyclesPerCycle < 65536
  /-- So do the ends of the reads of the epilogue. -/
  reads : ∀ bp ∈ bps, isLoopDefined ops bp.1 = true →
    uint16 (ii * subcyclesPerCycle : Nat) + uint8 bp.2 * ii * subcyclesPerCycle < 65536
  /-- No same-result operation ties registers that have different lifetimes already. -/
  ties : TiesClean (originalLoop ii ops bps)

/-- Nothing stands before a result of an operation that has one. -/
theorem not_mem_before {o : SwpOp Tn} {before after : List Tn} {x y : Tn} (hlen : o.results.length ≤ 1)
    (hres : o.results = before ++ x :: after) : y ∉ before := by
  intro hy
  have hpos := List.length_pos_of_mem hy
  rw [hres, List.length_append, List.length_cons] at hlen
  omega

section Kernel

variable {ii : Nat} {ops₀ ops : List (SwpOp Tn)} {bps : List (Tn × Nat)}

theorem mem_updateOmega {o : SwpOp Tn} {idx : Nat} (ho : (updateOmega ops₀)[idx]? = some o) :
    ∃ o₀, ops₀[idx]? = some o₀ ∧ o₀.results = o.results ∧ o₀.stage = o.stage ∧
      ∀ p ∈ o.opnds, ∃ p₀ ∈ o₀.opnds, p₀.tn = p.tn := by
  obtain ⟨o₀, ho₀, heq⟩ := (sameUses_updateOmega ops₀).getElem? ho
  refine ⟨o₀, ho₀, (congrArg (fun o => o.results) heq).symm, (congrArg (fun o => o.stage) heq).symm, fun p hp => ?_⟩
  have hkeep : ({ p with omega := 0 } : Opnd Tn) ∈ (keepOmega (fun _ => false) o₀).opnds := by
    rw [← heq]
    exact List.mem_map.mpr ⟨p, hp, rfl⟩
  obtain ⟨p₀, hp₀, heq₀⟩ := List.mem_map.mp hkeep
  exact ⟨p₀, hp₀, by simpa using congrArg Opnd.tn heq₀⟩

theorem results_updateOmega : (updateOmega ops₀).map SwpOp.results = ops₀.map SwpOp.results := by
  apply List.ext_getElem?
  intro idx
  have hidx := congrArg (Option.map SwpOp.results) (sameUses_updateOmega ops₀ idx)
  rw [Option.map_map, Option.map_map] at hidx
  rw [List.getElem?_map, List.getElem?_map]
  exact hidx

theorem ScheduledLoop.one_def₀ (h : ScheduledLoop ii ops₀ ops) :
    ((ops₀.flatMap SwpOp.results).filter Tn.isRenamed).Nodup := by
  have hflat : ops₀.flatMap SwpOp.results = (updateOmega ops₀).flatMap SwpOp.results := by
    rw [List.flatMap_def, List.flatMap_def, results_updateOmega]
  rw [hflat]
  exact ((h.perm.flatMap_right SwpOp.results).filter _).nodup_iff.mp h.one_def

theorem ScheduledLoop.stepsBehind_nonneg (h : ScheduledLoop ii ops₀ ops) {o od : SwpOp Tn} (ho : o ∈ ops)
    (hod : od ∈ ops) {p : Opnd Tn} (hp : p ∈ o.opnds) (hren : p.tn.Renamed) (hdef : p.tn ∈ od.results) :
    0 ≤ stepsBehind p o od := by
  obtain ⟨a, ha⟩ := List.getElem?_of_mem ho
  obtain ⟨d, hd⟩ := List.getElem?_of_mem hod
  rcases h.respects a d o od p ha hd hp hren hdef with hpos | ⟨hzero, -⟩ <;> omega

theorem ScheduledLoop.omega_eq (h : ScheduledLoop ii ops₀ ops) (hfits : Fits ii ops₀ ops bps) {o od : SwpOp Tn}
    (ho : o ∈ ops) (hod : od ∈ ops) {p : Opnd Tn} (hp : p ∈ o.opnds) (hren : p.tn.Renamed)
    (hdef : p.tn ∈ od.results) : p.omega = stepsBehind p o od := by
  have hnonneg := h.stepsBehind_nonneg ho hod hp hren hdef
  have hmax := hfits.omegas o ho od hod p hp hren hdef
  obtain ⟨idx, hidx⟩ := List.getElem?_of_mem (h.perm.mem_iff.mp ho)
  obtain ⟨d, hd⟩ := List.getElem?_of_mem (h.perm.mem_iff.mp hod)
  obtain ⟨o₀, ho₀, -, hstageUse, huses⟩ := mem_updateOmega hidx
  obtain ⟨od₀, hod₀, hresults, hstage, -⟩ := mem_updateOmega hd
  rw [← hresults] at hdef
  obtain ⟨before, after, hsplit⟩ := List.append_of_mem hdef
  have hone := h.one_def₀
  have hnodup : (od₀.results.filter Tn.isRenamed).Nodup := by
    rw [List.filter_flatMap, List.nodup_flatMap] at hone
    exact hone.1 od₀ (List.mem_of_getElem? hod₀)
  rw [hsplit, List.filter_append, List.filter_cons_of_pos ((Tn.isRenamed_iff _).mpr hren), List.nodup_append] at hnodup
  have hsole : SoleResult ops₀ d p.tn before after := by
    refine ⟨⟨od₀, hod₀, hsplit⟩, ⟨fun hin => ?_, fun hin => ?_⟩, fun cur hcur e o' hne ho' hin => hne ?_⟩
    · exact hnodup.2.2 p.tn (List.mem_filter.mpr ⟨hin, (Tn.isRenamed_iff _).mpr hren⟩) p.tn List.mem_cons_self rfl
    · exact (List.nodup_cons.mp hnodup.2.1).1 (List.mem_filter.mpr ⟨hin, (Tn.isRenamed_iff _).mpr hren⟩)
    · rw [List.mem_singleton.mp hcur] at hin
      exact defs_unique hone hren ho' hod₀ hin hdef
  have hreached : o.stage ≠ od₀.stage → DefinedOnlyBy ops₀ d before := fun hne =>
    hfits.results_before d od₀ before after p.tn hod₀ hsplit hren
      ⟨o₀, List.mem_of_getElem? ho₀, hstageUse.trans_ne hne, huses p hp⟩
  unfold stepsBehind at *
  have huse := updateOmega_use hsole hod₀ h.init hidx hp rfl (by omega) (by omega) hreached
  rwa [hstage] at huse

theorem ScheduledLoop.subCycles (h : ScheduledLoop ii ops₀ ops) (hcycles : ∀ o ∈ ops, o.startCycle < 8192)
    {subs : List Nat} (hsubs : opSubCycles ops = some subs) : subs.length = ops.length ∧
      ((ops.zip subs).Pairwise fun q q' => q.2 < q'.2) ∧ ∀ q ∈ ops.zip subs, q.2 < ii * subcyclesPerCycle := by
  obtain ⟨hlen, hsorted, hspec⟩ := opSubCyclesFrom_spec hcycles h.sorted (by simp) hsubs
  refine ⟨hlen, hsorted, fun q hq => ?_⟩
  have hcycle := h.cycle_lt q.1 (List.of_mem_zip hq).1
  have hdiv := (hspec q hq).1
  unfold subcyclesPerCycle at *
  omega

theorem isLoopDefined_of {x : Tn} (hx : x.Renamed) {o : SwpOp Tn} (ho : o ∈ ops) (hmem : x ∈ o.results) :
    isLoopDefined ops x = true := by
  simp only [isLoopDefined, hx.1, Bool.true_and, List.any_eq_true]
  exact ⟨o, ho, by simpa using hmem⟩

theorem counted_iff {x : Tn} : (originalLoop ii ops bps).Counted x ↔ x.Renamed ∧ isLoopDefined ops x = true :=
  ⟨fun h => ⟨h.renamed, h.defined⟩, fun h => ⟨h.1, rfl, h.2⟩⟩

theorem exists_def {x : Tn} (h : isLoopDefined ops x = true) : ∃ o ∈ ops, x ∈ o.results := by
  simp only [isLoopDefined, Bool.and_eq_true, List.any_eq_true, decide_eq_true_eq] at h
  exact h.2

/-- The end of a use, as the second pass computes it. -/
theorem ScheduledLoop.useEnd_eq (h : ScheduledLoop ii ops₀ ops) (hfits : Fits ii ops₀ ops bps) {q : SwpOp Tn × Nat}
    (hq : q.1 ∈ ops) {od : SwpOp Tn} (hod : od ∈ ops) {p : Opnd Tn} (hp : p ∈ q.1.opnds) (hren : p.tn.Renamed)
    (hdef : p.tn ∈ od.results) :
    (useEnd ii q p : Int) = q.2 + stepsBehind p q.1 od * ii * subcyclesPerCycle := by
  have hnonneg := h.stepsBehind_nonneg hq hod hp hren hdef
  have hle := hfits.omegas q.1 hq od hod p hp hren hdef
  have homega := h.omega_eq hfits hq hod hp hren hdef
  have hu8 := uint8_eq hnonneg (by omega)
  rw [← homega] at hu8 ⊢
  rw [useEnd, Nat.cast_add, Nat.cast_mul, Nat.cast_mul, hu8]

theorem ScheduledLoop.endsFit (h : ScheduledLoop ii ops₀ ops) (hfits : Fits ii ops₀ ops bps) {subs : List Nat}
    (hsubs : opSubCycles ops = some subs) : EndsFit (originalLoop ii ops bps) subs where
  early q hq hu x hx hc := hfits.uniq subs hsubs q hq hu ⟨x, hx, hc.renamed⟩
  ends q hq p hp hc := by
    obtain ⟨od, hod, hdef⟩ := exists_def hc.defined
    have hmem : q.1 ∈ ops := (List.of_mem_zip hq).1
    have hend := hfits.ends subs hsubs q hq od hod p hp hc.renamed hdef
    rw [← h.useEnd_eq hfits hmem hod hp hc.renamed hdef] at hend
    exact_mod_cast hend
  reads bp hbp r hr := by
    obtain ⟨-, hdef, reads, hreads, hmem⟩ := hr
    obtain rfl := Option.some.inj hreads
    rw [List.mem_singleton.mp hmem] at hdef ⊢
    exact hfits.reads bp hbp hdef

/-- The kernel steps and places of a definition and its use: the next write of the version comes no earlier than the
read. -/
theorem ScheduledLoop.unroll_covers (h : ScheduledLoop ii ops₀ ops) (hfits : Fits ii ops₀ ops bps)
    {lts : List (TnLifetime Tn)} (hlts : swpLifetime ii ops bps = some lts) {a d : Nat} {o od : SwpOp Tn}
    (ha : ops[a]? = some o) (hd : ops[d]? = some od) {p : Opnd Tn} (hp : p ∈ o.opnds) (hren : p.tn.Renamed)
    (hdef : p.tn ∈ od.results) : stepsBehind p o od < determineUnrollFactor ii lts ∨
      (stepsBehind p o od = determineUnrollFactor ii lts ∧ a ≤ d) := by
  obtain ⟨st, hst, rfl⟩ := Option.map_eq_some_iff.mp hlts
  obtain ⟨subs, hsubs⟩ := exists_subCycles hst
  obtain ⟨hlen, hsorted, hbound⟩ := h.subCycles hfits.cycles hsubs
  obtain ⟨hpassed, -⟩ := kernelLifetime_spec hsubs hfits.ties (h.endsFit hfits hsubs) hst
  obtain ⟨hla, rfl⟩ := List.getElem?_eq_some_iff.mp ha
  obtain ⟨hld, rfl⟩ := List.getElem?_eq_some_iff.mp hd
  have hzip : ∀ (i : Nat) (hi : i < ops.length), (ops[i], subs[i]) ∈ ops.zip subs := fun i hi =>
    List.mem_iff_getElem.mpr ⟨i, by rw [List.length_zip]; omega, List.getElem_zip⟩
  have hcounted : (originalLoop ii ops bps).Counted p.tn :=
    counted_iff.mpr ⟨hren, isLoopDefined_of hren (List.getElem_mem hld) hdef⟩
  -- the lifetime of the register reaches from the definition to the use
  obtain ⟨L, hL, hstart⟩ := (hpassed.starts _ (hzip d hld) p.tn hdef hcounted).1
  obtain ⟨L', hL', hreach⟩ := hpassed.ends _ (hzip a hla) p hp hcounted
  obtain rfl := Option.some.inj (hL.symm.trans hL')
  obtain ⟨i, -, hget⟩ := Option.bind_eq_some_iff.mp hL
  have hii : 0 < ii := lt_of_le_of_lt (Nat.zero_le _) (h.cycle_lt _ (List.getElem_mem hla))
  have hcovers := determineUnrollFactor_covers hii (List.mem_of_getElem? hget)
  have hd' := hbound _ (hzip d hld)
  have hend := h.useEnd_eq hfits (q := (ops[a], subs[a])) (List.getElem_mem hla) (List.getElem_mem hld) hp hren hdef
  obtain ⟨w, hw⟩ := Int.eq_ofNat_of_zero_le
    (h.stepsBehind_nonneg (List.getElem_mem hla) (List.getElem_mem hld) hp hren hdef)
  rw [hw] at hend ⊢
  dsimp only at hstart hreach hd' hend
  generalize determineUnrollFactor ii st.lt = k at hcovers ⊢
  have hle : subs[a] + w * (ii * subcyclesPerCycle) ≤ subs[d] + k * (ii * subcyclesPerCycle) := by
    have hnat : useEnd ii (ops[a], subs[a]) p = subs[a] + w * ii * subcyclesPerCycle := by exact_mod_cast hend
    rw [show (originalLoop ii ops bps).ii = ii from rfl, hnat] at hreach
    rw [← Nat.mul_assoc, ← Nat.mul_assoc]
    omega
  rcases lt_trichotomy w k with hlt | heq | hgt
  · exact .inl (by exact_mod_cast hlt)
  · refine .inr ⟨by exact_mod_cast heq, ?_⟩
    subst heq
    by_contra hda
    have hsub := List.pairwise_iff_getElem.mp hsorted d a (by rw [List.length_zip]; omega)
      (by rw [List.length_zip]; omega) (by omega)
    rw [List.getElem_zip, List.getElem_zip] at hsub
    dsimp only at hsub
    omega
  · have hmul : (k + 1) * (ii * subcyclesPerCycle) ≤ w * (ii * subcyclesPerCycle) := Nat.mul_le_mul_right _ hgt
    rw [Nat.succ_mul] at hmul
    omega

/-- `Update_Omega` rounds the distance of a use to whole passes. -/
theorem mveOmega_eq {k u : Nat} (hu : u < k) {w q q' : Int} (hw : 0 ≤ w) (hw' : w ≤ 127)
    (hlow : q' * k ≤ q * k + u - w) (hhigh : q * k + u - w < q' * k + k) : mveOmega k u w = q - q' := by
  have hk : (0 : Int) < k := by omega
  have hmul : (q - q') * (k : Int) = q * k - q' * k := by ring
  have hdiv : (w + ((k : Int) - u - 1)) / k = q - q' := by
    apply le_antisymm
    · rw [← Int.lt_add_one_iff, Int.ediv_lt_iff_lt_mul hk, add_mul]
      omega
    · rw [Int.le_ediv_iff_mul_le hk]
      omega
  rw [mveOmega, Int.tdiv_eq_ediv_of_nonneg (by omega), hdiv]
  have hnonneg : 0 ≤ q - q' := by
    rw [← hdiv]
    exact Int.ediv_nonneg (by omega) hk.le
  refine int8_eq (by omega) ?_
  by_contra hbig
  have h128 : 128 * (k : Int) ≤ (q - q') * k := mul_le_mul_of_nonneg_right (by omega) hk.le
  omega

end Kernel

section Versions

variable {ii : Nat} {ops : List (SwpOp Tn)} {raw : List (SwpOp NewTn)}

theorem next_write {k : Nat} (hk : 0 < k) {stage : Nat} {q q' : Int} {u u' : Nat} (hu : u < k) (hu' : u' < k)
    (hver : ((u : Int) - stage) % k = ((u' : Int) - stage) % k) (hlt : q' * k + u' < q * k + u) :
    q' * k + u' + k ≤ q * k + u := by
  have hdiff : ((u : Int) - u') % k = 0 := by
    have hsub := Int.emod_eq_emod_iff_emod_sub_eq_zero.mp hver
    rwa [show (u : Int) - stage - ((u' : Int) - stage) = u - u' by ring] at hsub
  obtain ⟨z, hz⟩ := Int.dvd_of_emod_eq_zero hdiff
  have hzero : z = 0 := by
    rcases lt_trichotomy z 0 with hneg | hzero | hpos
    · have : (k : Int) * z ≤ k * (-1) := mul_le_mul_of_nonneg_left (by omega) (by omega)
      omega
    · exact hzero
    · have : (k : Int) * 1 ≤ k * z := mul_le_mul_of_nonneg_left (by omega) (by omega)
      omega
  rw [hzero, mul_zero] at hz
  have hqq : q' < q := by
    by_contra hge
    have : q * (k : Int) ≤ q' * k := mul_le_mul_of_nonneg_right (by omega) (by omega)
    omega
  have hmul : (q' + 1) * (k : Int) ≤ q * k := mul_le_mul_of_nonneg_right (by omega) (by omega)
  rw [add_mul, one_mul] at hmul
  omega

/-- The definition that a use reads, when the unrolled kernel covers the steps between them. -/
theorem reads_definition (hraw : unrollKernel m ii ops = some raw) (hk : 0 < m.kMin)
    (hone : ((ops.flatMap SwpOp.results).filter Tn.isRenamed).Nodup) {u a d r : Nat} {o od : SwpOp Tn} {p : Opnd Tn}
    (hu : u < m.kMin) (ha : ops[a]? = some o) (hd : ops[d]? = some od) (hr : od.results[r]? = some p.tn)
    (hren : p.tn.Renamed) (hvar : p.tn ∉ m.invariants)
    (hdep : 0 < stepsBehind p o od ∨ (stepsBehind p o od = 0 ∧ d < a)) (hmax : stepsBehind p o od ≤ 127)
    (hcov : stepsBehind p o od < m.kMin ∨ (stepsBehind p o od = m.kMin ∧ a ≤ d)) (q : Int) :
    ∃ (q' : Int) (u' : Nat) (c' : SwpOp NewTn), u' < m.kMin ∧
      (mveUpdateOmega m.kMin raw)[u' * ops.length + d]? = some c' ∧
      iteration m.kMin q' u' od.stage = iteration m.kMin q u o.stage - p.originalOmega ∧
      c'.results[r]? = some (.version p.tn (((u : Int) - o.stage - p.originalOmega) % m.kMin)) ∧
      execTime m.kMin ops.length q' u' d < execTime m.kMin ops.length q u a ∧
      (∀ (q'' : Int) (u'' e : Nat) (c'' : SwpOp NewTn), u'' < m.kMin → e < ops.length →
        (mveUpdateOmega m.kMin raw)[u'' * ops.length + e]? = some c'' →
        .version p.tn (((u : Int) - o.stage - p.originalOmega) % m.kMin) ∈ c''.results →
        execTime m.kMin ops.length q' u' d < execTime m.kMin ops.length q'' u'' e →
        execTime m.kMin ops.length q u a ≤ execTime m.kMin ops.length q'' u'' e) ∧
      mveOmega m.kMin u (stepsBehind p o od) = q - q' := by
  have hk' : (0 : Int) < m.kMin := by exact_mod_cast hk
  have hla : a < ops.length := (List.getElem?_eq_some_iff.mp ha).1
  have hld : d < ops.length := (List.getElem?_eq_some_iff.mp hd).1
  -- the step of the definition, as a pass and a copy of the unrolled kernel
  obtain ⟨q', u', hu', hstep⟩ : ∃ (q' : Int) (u' : Nat), u' < m.kMin ∧
      q' * m.kMin + u' = q * m.kMin + u - stepsBehind p o od := by
    refine ⟨(q * m.kMin + u - stepsBehind p o od) / m.kMin, ((q * m.kMin + u - stepsBehind p o od) % m.kMin).toNat, ?_, ?_⟩
    · have hlt := Int.emod_lt_of_pos (q * m.kMin + u - stepsBehind p o od) hk'
      have hge := Int.emod_nonneg (q * m.kMin + u - stepsBehind p o od) hk'.ne'
      omega
    · have hge := Int.emod_nonneg (q * m.kMin + u - stepsBehind p o od) hk'.ne'
      have hdiv := Int.ediv_mul_add_emod (q * m.kMin + u - stepsBehind p o od) m.kMin
      omega
  have hversion : ((u' : Int) - od.stage) % m.kMin = ((u : Int) - o.stage - p.originalOmega) % m.kMin := by
    have hshift : (u' : Int) - od.stage = ((u : Int) - o.stage - p.originalOmega) + m.kMin * (q - q') := by
      rw [mul_sub, mul_comm _ q, mul_comm _ q']
      unfold stepsBehind at hstep
      omega
    rw [hshift, Int.add_mul_emod_self_left]
  obtain ⟨c', hc', hcopy⟩ := unrollKernel_copy hraw hu' hd
  obtain ⟨y, hy, hyget⟩ := hcopy.result r p.tn hr
  obtain ⟨-, rfl⟩ := (getResultTn_renamed hren hk hy).resolve_right hvar
  rw [hversion] at hyget
  refine ⟨q', u', c', hu', hc', ?_, hyget, ?_, ?_, ?_⟩
  · unfold iteration
    unfold stepsBehind at hstep
    omega
  · rw [execTime_eq, execTime_eq, step_lt_iff hld hla, hstep]
    omega
  · intro q'' u'' e c'' hu'' he hc'' hmem hlater
    obtain ⟨c₁, hc₁, hcopy''⟩ := unrollKernel_copy hraw hu'' (List.getElem?_eq_getElem he)
    rw [hc'', Option.some_inj] at hc₁
    subst hc₁
    obtain ⟨x, hx, hxy⟩ := hcopy''.result_of _ hmem
    obtain ⟨rfl, hidx⟩ := getResultTn_version hk hxy
    have hed := defs_unique hone hren (List.getElem?_eq_getElem he) hd hx (List.mem_of_getElem? hr)
    subst hed
    obtain rfl : ops[e] = od := (List.getElem?_eq_some_iff.mp hd).2
    rw [← hversion] at hidx
    rw [execTime_eq, execTime_eq, step_lt_iff hld hld] at hlater
    have hafter : q' * m.kMin + u' < q'' * m.kMin + u'' := by omega
    have hnext := next_write hk hu'' hu' hidx.symm hafter
    rw [execTime_eq, execTime_eq, ← not_lt, step_lt_iff hld hla]
    omega
  · exact mveOmega_eq hu (by omega) hmax (by omega) (by omega)

end Versions

/-- Modulo variable expansion keeps the data flow of every scheduled loop whose values fit their fields. -/
theorem mve_keepsDataFlow {ii k : Nat} {ops₀ ops : List (SwpOp Tn)} {bps : List (Tn × Nat)}
    {mve_ops : List (SwpOp NewTn)} (h : ScheduledLoop ii ops₀ ops) (hfits : Fits ii ops₀ ops bps)
    (hmve : swpMve ii ops bps = some (k, mve_ops)) (hk : 1 ≤ k) : KeepsDataFlow k ops mve_ops := by
  unfold swpMve at hmve
  split at hmve
  · exact absurd hmve (by simp)
  rename_i lts hlts
  obtain ⟨raw, hraw, heq⟩ := Option.map_eq_some_iff.mp hmve
  obtain ⟨rfl, rfl⟩ := Prod.mk.inj heq
  intro u a o c hu ha hc j p p' hp hp' hren d r od hd hr q
  generalize hm : generateRenamingTns (determineUnrollFactor ii lts) ops lts = m at hraw
  have hkMin : m.kMin = determineUnrollFactor ii lts := by rw [← hm]; rfl
  have hcovers := h.unroll_covers hfits hlts ha hd (List.mem_of_getElem? hp) hren (List.mem_of_getElem? hr)
  rw [← hkMin] at hu hc hk hcovers ⊢
  have hpo := List.mem_of_getElem? hp
  have hdef := List.mem_of_getElem? hr
  -- the register is defined in the loop, so it is no invariant
  have hvar : p.tn ∉ m.invariants := by
    rw [← hm]
    intro hin
    have hfree := (List.mem_filter.mp hin).2
    have hloop := isLoopDefined_of hren (List.mem_of_getElem? hd) hdef
    simp [hloop] at hfree
  have hdep := h.respects a d o od p ha hd hpo hren hdef
  have homega := h.omega_eq hfits (List.mem_of_getElem? ha) (List.mem_of_getElem? hd) hpo hren hdef
  have hmax := hfits.omegas o (List.mem_of_getElem? ha) od (List.mem_of_getElem? hd) p hpo hren hdef
  obtain ⟨c₀, hc₀, hcopy⟩ := unrollKernel_copy hraw hu ha
  rw [hc, Option.some_inj] at hc₀
  subst hc₀
  obtain ⟨y, hy, hyget⟩ := hcopy.operand j p hp
  rw [hp', Option.some_inj] at hyget
  subst hyget
  obtain ⟨-, rfl⟩ := (getOperandTn_renamed hren hk hy).resolve_right hvar
  rw [homega]
  exact reads_definition hraw hk h.one_def hu ha hd hr hren hvar hdep hmax hcovers q

/-! ## A unique result in the first sub-cycle -/

/-- A value and its use one stage later. -/
def plainLoop : List (SwpOp Tn) :=
  [{ op := 0, results := [{ number := 10 }] },
   { op := 1, opnds := [{ tn := { number := 10 } }], stage := 1 }]

/-- An operation with a unique result, first in the kernel; its result is used two stages later by an operation whose
own result lives for two cycles. -/
def uniqLoop : List (SwpOp Tn) :=
  [{ op := 0, results := [{ number := 10 }], uniqRes := true },
   { op := 1, results := [{ number := 11 }], opnds := [{ tn := { number := 10 } }], stage := 2 },
   { op := 2, opnds := [{ tn := { number := 11 } }], stage := 3 }]

theorem scheduledLoop_of {ii : Nat} {ops₀ : List (SwpOp Tn)}
    (hinit : ∀ o ∈ ops₀, ∀ p ∈ o.opnds, p.omega = p.originalOmega)
    (hsorted : (updateOmega ops₀).Pairwise fun o o' => o.startCycle ≤ o'.startCycle)
    (hcycle : ∀ o ∈ updateOmega ops₀, o.startCycle < ii)
    (hone : (((updateOmega ops₀).flatMap SwpOp.results).filter Tn.isRenamed).Nodup)
    (hrespects : ∀ (a : Nat) (ha : a < (updateOmega ops₀).length) (d : Nat) (hd : d < (updateOmega ops₀).length),
      ∀ p ∈ (updateOmega ops₀)[a].opnds, p.tn.Renamed → p.tn ∈ (updateOmega ops₀)[d].results →
        0 < stepsBehind p (updateOmega ops₀)[a] (updateOmega ops₀)[d] ∨
          (stepsBehind p (updateOmega ops₀)[a] (updateOmega ops₀)[d] = 0 ∧ d < a)) :
    ScheduledLoop ii ops₀ (updateOmega ops₀) := by
  refine ⟨List.Perm.refl _, hinit, hsorted, hcycle, hone, fun a d o od p ha hd hp hren hdef => ?_⟩
  obtain ⟨hla, rfl⟩ := List.getElem?_eq_some_iff.mp ha
  obtain ⟨hld, rfl⟩ := List.getElem?_eq_some_iff.mp hd
  exact hrespects a hla d hld p hp hren hdef

theorem plainLoop_scheduled : ScheduledLoop 1 plainLoop (updateOmega plainLoop) :=
  scheduledLoop_of (by decide) (by decide) (by decide) (by decide) (by decide)

theorem uniqLoop_scheduled : ScheduledLoop 1 uniqLoop (updateOmega uniqLoop) :=
  scheduledLoop_of (by decide) (by decide) (by decide) (by decide) (by decide)

theorem plainLoop_fits : Fits 1 plainLoop (updateOmega plainLoop) [] := by
  have hsubs : ∀ subs, opSubCycles (updateOmega plainLoop) = some subs → subs = [0, 1] := by
    intro subs h
    rw [show opSubCycles (updateOmega plainLoop) = some [0, 1] by decide, Option.some_inj] at h
    exact h.symm
  refine ⟨fun d o before after x ho hres _ _ cur hcur => ?_, by decide, by decide, fun subs h => ?_, fun subs h => ?_,
    nofun, trivial, trivial⟩
  · have hlen : ∀ o ∈ plainLoop, o.results.length ≤ 1 := by decide
    exact absurd hcur (not_mem_before (hlen o (List.mem_of_getElem? ho)) hres)
  · rw [hsubs subs h]
    decide
  · rw [hsubs subs h]
    decide

/-- The plain loop is unrolled twice and keeps its data flow. -/
theorem mve_keepsDataFlow_plainLoop : ∃ mve_ops, swpMve 1 (updateOmega plainLoop) [] = some (2, mve_ops) ∧
    KeepsDataFlow 2 (updateOmega plainLoop) mve_ops := by
  have hk : (swpMve 1 (updateOmega plainLoop) []).map Prod.fst = some 2 := by decide
  obtain ⟨⟨k, mve_ops⟩, h, rfl⟩ := Option.map_eq_some_iff.mp hk
  exact ⟨mve_ops, h, mve_keepsDataFlow plainLoop_scheduled plainLoop_fits h (by decide)⟩

/-- The unique result is measured from sub-cycle 65535, so the kernel is unrolled only twice, and the value is
overwritten in the step in which it is read. -/
theorem mve_uniqResult : ScheduledLoop 1 uniqLoop (updateOmega uniqLoop) ∧
    ∃ k mve_ops, swpMve 1 (updateOmega uniqLoop) [] = some (k, mve_ops) ∧ 1 ≤ k ∧
      ¬ KeepsDataFlow k (updateOmega uniqLoop) mve_ops := by
  refine ⟨uniqLoop_scheduled, 2, _, rfl, by decide, fun h => ?_⟩
  obtain ⟨q', u', c', hu', -, hiter, -, -, hother, -⟩ := h 0 1 _ _ (by decide) rfl rfl 0 _ _ rfl rfl (by decide) 0 0 _
    rfl rfl 1
  have hfirst : q' = 0 ∧ u' = 0 := by
    replace hiter : q' * (2 : Nat) + u' - (0 : Nat) = (1 : Int) * (2 : Nat) + (0 : Nat) - (2 : Nat) - 0 := hiter
    omega
  obtain ⟨rfl, rfl⟩ := hfirst
  have hread := hother 1 0 0 _ (by decide) (by decide) rfl (by decide) (by decide)
  revert hread
  decide

end Path64.Swp

import Path64.Swp.Basic

/-!
# Software pipelining: prologues, kernels and epilogues

`SWP_CODE_GEN` peels the unrolled kernel: prologue `p` holds the stages up to `p`, kernel `k` every stage of copy `k`,
and each of the `ps + K` exits has an epilogue of its own, which finishes the iterations that are still under way.

* `fillPrologue`, `fillKernel`, `fillEpilogueStep` : the operations put into each block;
* `updateCFG` : the edges between the blocks, `next` the branch and the fall through that realise them;
* `run` : the operations executed for a trip count, one list for each step of `ii` cycles;
* `run_steps` : step `s` of a run holds the stage `s - t` part of each iteration `t`;
* `pipelined_exactly_once` : every operation instance is executed exactly once.
-/

namespace Path64.Swp

variable {S T : Type}

/-! ## The stage counts -/

/-- The fields of `SWP_LOOP` that the code generator reads. -/
structure SwpLoop where
  ii : Nat
  sc : Nat
  lps : Nat
  les : Nat
  ps : Nat
  es : Nat
  kernelUnrollings : Nat
deriving DecidableEq, Repr

/-- The greatest stage of the operations, START and STOP left out. -/
def maxStage (ops : List (SwpOp T)) : Nat := ops.foldl (fun m o => if o.stage > m then o.stage else m) 0

/-- `SWP_DRIVER::Calculate_Prolog_Epilog_Stages`. Both maxima start at `0`, so a negative bound counts as `0`. -/
def calculatePrologEpilogStages (ii kernelUnrollings : Nat) (ops : List (SwpOp T)) (lt : List (TnLifetime T)) :
    SwpLoop :=
  let sc := maxStage ops + 1
  let lps := lt.foldl (fun m l => if l.omega > 0 then max m ((l.startCycle + ii - 1) / ii - 1) else m) 0
  let les := lt.foldl (fun m l => if l.alpha > 0 then
    max m ((sc : Int) - (l.endCycle / ii : Nat) + l.alpha - 1).toNat else m) 0
  { ii, sc, lps, les, ps := max (sc - 1) lps, es := max (sc - 1) les, kernelUnrollings }

/-! ## The blocks -/

/-- `SWP_CODE_GEN`: the unrolled kernel and the numbers of blocks. -/
structure CodeGen (T : Type) where
  ops : List (SwpOp T)
  loop : SwpLoop

namespace CodeGen

variable (cg : CodeGen T)

def numPrologs : Nat := cg.loop.ps

def numKernels : Nat := cg.loop.kernelUnrollings

def numEpilogs : Nat := cg.loop.ps + cg.loop.kernelUnrollings

/-- `Fill_Prologues`: the operations of `_prolog[pro]`. -/
def fillPrologue (pro : Nat) : List (SwpOp T) :=
  let max_stage := min pro cg.loop.sc
  let version := wrapVersion (((cg.numKernels : Int) - 1) - ((cg.numPrologs : Int) - 1) + pro) cg.numKernels
  cg.ops.filter fun o => o.stage ≤ max_stage && (o.unrolling : Int) = version

/-- `Fill_Kernels`: the operations of `_kernel[k]`. -/
def fillKernel (k : Nat) : List (SwpOp T) := cg.ops.filter fun o => o.unrolling = k

/-- `Fill_Epilogues`: the operations that round `j` appends to `_epilog[epi]`. -/
def fillEpilogueStep (epi j : Nat) : List (SwpOp T) :=
  let min_stage := (j + 1) % cg.loop.sc
  let max_stage := min ((cg.loop.sc : Int) - 1) (j + 1 + ((cg.numEpilogs : Int) - 1) - epi)
  let version := wrapVersion ((j : Int) - epi + cg.numKernels) cg.numKernels
  cg.ops.filter fun o => !o.isBr &&
    ((o.stage ≥ min_stage && (o.stage : Int) ≤ max_stage) || (o.isPointerUpdate && (o.stage : Int) ≤ max_stage)) &&
    (o.unrolling : Int) = version

def fillEpilogue (epi : Nat) : List (List (SwpOp T)) := (List.range cg.loop.es).map (cg.fillEpilogueStep epi)

/-! ## The control flow -/

inductive Block where
  | prolog (i : Nat)
  | kernel (i : Nat)
  | epilog (i : Nat)
  | oldProlog
  | oldEpilog
deriving DecidableEq, Repr

/-- `_epilog[idx]`; nothing stands outside the array. -/
def epilogAt (idx : Int) : Option Block :=
  if 0 ≤ idx ∧ idx < cg.numEpilogs then some (.epilog idx.toNat) else none

def prologExit (i : Nat) : Option Block := cg.epilogAt ((cg.numEpilogs : Int) - i - 1)

def kernelExit (i : Nat) : Option Block := cg.epilogAt ((cg.numEpilogs : Int) - cg.numPrologs - i - 1)

/-- `Update_CFG`: the edges between blocks, in the order in which they are linked. -/
def updateCFG : List (Block × Option Block) :=
  (if cg.numPrologs > 0 then
    [(Block.oldProlog, some (Block.prolog 0)), (Block.prolog (cg.numPrologs - 1), some (Block.kernel 0))]
  else [(Block.oldProlog, some (Block.kernel 0))]) ++
  (List.range (cg.numPrologs - 1)).map (fun i => (Block.prolog i, some (Block.prolog (i + 1)))) ++
  (List.range cg.numPrologs).map (fun i => (Block.prolog i, cg.prologExit i)) ++
  (List.range (cg.numKernels - 1)).map (fun i => (Block.kernel i, some (Block.kernel (i + 1)))) ++
  [(Block.kernel (cg.numKernels - 1), some (Block.kernel 0))] ++
  (List.range cg.numKernels).map (fun i => (Block.kernel i, cg.kernelExit i)) ++
  (List.range cg.numEpilogs).map (fun i => (Block.epilog i, some Block.oldEpilog))

/-- The block laid out after `b`: `Chain_BBs` in `Create_Prologue_Kernel_Epilogue_BBs`. -/
def fallThrough : Block → Option Block
  | .oldProlog => some (if cg.numPrologs > 0 then .prolog 0 else .kernel 0)
  | .prolog i => some (if i + 1 < cg.numPrologs then .prolog (i + 1) else .kernel 0)
  | .kernel i => if i + 1 < cg.numKernels then some (.kernel (i + 1)) else cg.epilogAt 0
  | _ => some .oldEpilog

/-- The target that `Fill_Prologues` and `Fill_Kernels` give the loop branch of a block. -/
def branchTarget : Block → Option Block
  | .prolog i => cg.prologExit i
  | .kernel i => if i < cg.numKernels - 1 then cg.kernelExit i else some (.kernel 0)
  | _ => none

/-- Whether the loop branch of a block was inverted, to be taken when no iteration is left. -/
def inverted : Block → Bool
  | .prolog _ => true
  | .kernel i => i < cg.numKernels - 1
  | _ => false

/-- The block after `b` when its loop branch finds that `more` iterations are to be started or not. -/
def next (b : Block) (more : Bool) : Option Block :=
  if more != cg.inverted b then cg.branchTarget b else cg.fallThrough b

/-- The operations of a prologue or kernel block. -/
def fill : Block → List (SwpOp T)
  | .prolog i => cg.fillPrologue i
  | .kernel i => cg.fillKernel i
  | _ => []

/-- The run from block `b` for `n` iterations: the operations of each step, up to the old epilogue. `count` is the
number of loop branches executed before; the branch goes on while fewer than `n` iterations were started. -/
def run (n : Nat) : Nat → Block → Nat → Option (List (List (SwpOp T)))
  | 0, _, _ => none
  | _ + 1, .epilog e, _ => some (cg.fillEpilogue e)
  | _ + 1, .oldEpilog, _ => some []
  | fuel + 1, .oldProlog, count => do
    let b ← cg.fallThrough .oldProlog
    run n fuel b count
  | fuel + 1, b, count => do
    let here := cg.fill b
    let count' := if here.any (·.isBr) then count + 1 else count
    let b' ← if here.any (·.isBr) then cg.next b (count' < n) else cg.fallThrough b
    let rest ← run n fuel b' count'
    some (here :: rest)

/-! ## What each block holds -/

/-- The unrolled kernel of a pipelined `body`: every copy holds the operations of the body, the loop branch is in
stage `0`, and prologues and epilogues are as deep as the schedule. -/
structure Pipelined (body : List (SwpOp S)) : Prop where
  kernels_pos : 0 < cg.numKernels
  copies : ∀ u < cg.numKernels, (cg.ops.filter fun o => o.unrolling = u).map SwpOp.tag = body.map SwpOp.tag
  stage_lt : ∀ o ∈ body, o.stage < cg.loop.sc
  branch : ∃ o ∈ body, o.isBr
  branch_stage : ∀ o ∈ body, o.isBr → o.stage = 0
  ps_eq : cg.loop.ps = cg.loop.sc - 1
  es_eq : cg.loop.es = cg.loop.sc - 1

/-- The stage `s - t` part of each of the iterations `0 ≤ t < n`. -/
def underWay (n s : Nat) (g : OpTag) : Bool := g.stage ≤ s && s < g.stage + n

/-- `here` is step `s` of a run of `n` iterations: it uses the copy of version `s - ps`, and its operations other
than pointer updates are those under way. -/
structure Serves (body : List (SwpOp S)) (n s : Nat) (here : List (SwpOp T)) : Prop where
  version : ∀ o ∈ here, (o.unrolling : Int) = ((s : Int) - cg.loop.ps) % cg.loop.kernelUnrollings
  tags : (here.map SwpOp.tag).filter (fun g => !g.isPointerUpdate) =
    (body.map SwpOp.tag).filter (fun g => !g.isPointerUpdate && underWay n s g)
  mem : ∀ o ∈ here, o.tag ∈ body.map SwpOp.tag

variable {cg} {body : List (SwpOp S)}

namespace Pipelined

theorem filter_tags (h : cg.Pipelined body) (q : OpTag → Bool) {u : Nat} (hu : u < cg.numKernels) :
    (cg.ops.filter fun o => q o.tag && (o.unrolling : Int) = (u : Int)).map SwpOp.tag =
      (body.map SwpOp.tag).filter q := by
  rw [← h.copies u hu, List.filter_map, List.filter_filter]
  congr 1
  refine List.filter_congr fun o _ => ?_
  simp

theorem serves_of_filter (h : cg.Pipelined body) {n s u : Nat} (hu : u < cg.numKernels)
    (hver : (u : Int) = ((s : Int) - cg.loop.ps) % cg.loop.kernelUnrollings) (q : OpTag → Bool)
    (hq : ∀ g ∈ body.map SwpOp.tag, g.isPointerUpdate = false → q g = underWay n s g) :
    cg.Serves body n s (cg.ops.filter fun o => q o.tag && (o.unrolling : Int) = (u : Int)) := by
  refine ⟨fun o ho => ?_, ?_, fun o ho => ?_⟩
  · rw [List.mem_filter, Bool.and_eq_true, decide_eq_true_eq] at ho
    rw [ho.2.2, hver]
  · rw [h.filter_tags q hu, List.filter_filter]
    refine List.filter_congr fun g hg => ?_
    cases hpu : g.isPointerUpdate
    · simp [hq g hg hpu]
    · simp
  · have hmem : o.tag ∈ (body.map SwpOp.tag).filter q := by
      rw [← h.filter_tags q hu]
      exact List.mem_map_of_mem ho
    exact (List.mem_filter.mp hmem).1

theorem tag_stage_le (h : cg.Pipelined body) {g : OpTag} (hg : g ∈ body.map SwpOp.tag) :
    g.stage ≤ cg.loop.ps := by
  obtain ⟨o, ho, rfl⟩ := List.mem_map.mp hg
  have hlt := h.stage_lt o ho
  have hps := h.ps_eq
  show o.stage ≤ cg.loop.ps
  omega

theorem tag_branch (h : cg.Pipelined body) {g : OpTag} (hg : g ∈ body.map SwpOp.tag) (hbr : g.isBr = true) :
    g.stage = 0 := by
  obtain ⟨o, ho, rfl⟩ := List.mem_map.mp hg
  exact h.branch_stage o ho hbr

theorem exists_version (h : cg.Pipelined body) (x : Int) :
    ∃ u : Nat, u < cg.numKernels ∧ (u : Int) = x % cg.loop.kernelUnrollings := by
  have hK : (0 : Int) < cg.loop.kernelUnrollings := by exact_mod_cast h.kernels_pos
  have hlt := Int.emod_lt_of_pos x hK
  obtain ⟨u, hu⟩ := Int.eq_ofNat_of_zero_le (Int.emod_nonneg x hK.ne')
  refine ⟨u, ?_, hu.symm⟩
  rw [hu] at hlt
  exact_mod_cast hlt

theorem wrapVersion_numKernels (h : cg.Pipelined body) (x : Int) :
    wrapVersion x cg.numKernels = x % cg.loop.kernelUnrollings := by
  apply wrapVersion_eq
  exact_mod_cast h.kernels_pos

theorem fillPrologue_eq (h : cg.Pipelined body) {pro : Nat} (hpro : pro < cg.numPrologs) :
    cg.fillPrologue pro = cg.ops.filter fun o => o.stage ≤ pro &&
      (o.unrolling : Int) = ((pro : Int) - cg.loop.ps) % cg.loop.kernelUnrollings := by
  have hps : pro < cg.loop.ps := hpro
  have hsc := h.ps_eq
  rw [fillPrologue, h.wrapVersion_numKernels, min_eq_left (by omega : pro ≤ cg.loop.sc),
    show ((cg.numKernels : Int) - 1) - ((cg.numPrologs : Int) - 1) + pro =
      ((pro : Int) - cg.loop.ps) + cg.loop.kernelUnrollings by simp only [numKernels, numPrologs]; ring,
    Int.add_emod_right]

theorem serves_prologue (h : cg.Pipelined body) {n pro : Nat} (hpro : pro < cg.numPrologs) (hn : pro < n) :
    cg.Serves body n pro (cg.fillPrologue pro) := by
  obtain ⟨u, hu, hver⟩ := h.exists_version ((pro : Int) - cg.loop.ps)
  rw [h.fillPrologue_eq hpro, ← hver]
  refine h.serves_of_filter hu hver (fun g => decide (g.stage ≤ pro)) fun g _ _ => ?_
  rw [underWay]
  simp; omega

theorem serves_kernel (h : cg.Pipelined body) {n s : Nat} (hs : cg.numPrologs ≤ s) (hn : s < n) :
    cg.Serves body n s (cg.fillKernel ((s - cg.numPrologs) % cg.numKernels)) := by
  have hlt := Nat.mod_lt (s - cg.numPrologs) h.kernels_pos
  have hver : (((s - cg.numPrologs) % cg.numKernels : Nat) : Int) =
      ((s : Int) - cg.loop.ps) % cg.loop.kernelUnrollings := by
    rw [Int.natCast_mod, Nat.cast_sub hs]
    rfl
  have hall := h.serves_of_filter (n := n) hlt hver (fun _ => true) fun g hg _ => by
    have hle := h.tag_stage_le hg
    have hps : cg.loop.ps ≤ s := hs
    rw [underWay]
    simp; omega
  have hfill : cg.fillKernel ((s - cg.numPrologs) % cg.numKernels) = cg.ops.filter fun o =>
      (true && (o.unrolling : Int) = (((s - cg.numPrologs) % cg.numKernels : Nat) : Int)) := by
    refine List.filter_congr fun o _ => ?_
    rw [Bool.true_and]
    exact decide_eq_decide.mpr Int.ofNat_inj.symm
  rw [hfill]
  exact hall

/-- Round `j` of an epilogue is step `n + j`, when the epilogue's number agrees with the exit after step `n - 1`. -/
theorem serves_epilogue (h : cg.Pipelined body) {n epi j : Nat} (hj : j < cg.loop.es)
    (hver : ((j : Int) - epi) % cg.loop.kernelUnrollings =
      (((n + j : Nat) : Int) - cg.loop.ps) % cg.loop.kernelUnrollings)
    (hmax : ∀ stage : Nat, stage ≤ cg.loop.ps →
      ((stage : Int) ≤ j + 1 + ((cg.numEpilogs : Int) - 1) - epi ↔ stage ≤ n + j)) :
    cg.Serves body n (n + j) (cg.fillEpilogueStep epi j) := by
  have hsc := h.ps_eq
  have hes := h.es_eq
  obtain ⟨u, hu, hu'⟩ := h.exists_version (((n + j : Nat) : Int) - cg.loop.ps)
  have hwrap : wrapVersion ((j : Int) - epi + cg.numKernels) cg.numKernels = u := by
    rw [h.wrapVersion_numKernels, hu', ← hver]
    exact Int.add_emod_right _ _
  have hmin : (j + 1) % cg.loop.sc = j + 1 := Nat.mod_eq_of_lt (by omega)
  have hserves := h.serves_of_filter (n := n) (s := n + j) (u := u) hu hu'
    (fun g => !g.isBr && ((g.stage ≥ j + 1 &&
      (g.stage : Int) ≤ min ((cg.loop.sc : Int) - 1) (j + 1 + ((cg.numEpilogs : Int) - 1) - epi)) ||
      (g.isPointerUpdate &&
        (g.stage : Int) ≤ min ((cg.loop.sc : Int) - 1) (j + 1 + ((cg.numEpilogs : Int) - 1) - epi))))
    fun g hg hpu => by
      have hle := h.tag_stage_le hg
      have hiff := hmax g.stage hle
      rw [underWay, hpu]
      cases hbr : g.isBr
      · simp only [Bool.not_false, Bool.true_and, Bool.false_and, Bool.or_false, ge_iff_le, le_min_iff]
        rw [← Bool.decide_and, ← Bool.decide_and, decide_eq_decide]
        omega
      · have hzero := h.tag_branch hg hbr
        simp [hzero]
  rw [fillEpilogueStep, hwrap, hmin]
  exact hserves

end Pipelined

/-! ## Runs -/

/-- The block of step `s`, before the loop is left. -/
def blockAt (cg : CodeGen T) (s : Nat) : Block :=
  if s < cg.numPrologs then .prolog s else .kernel ((s - cg.numPrologs) % cg.numKernels)

/-- The lists of `steps` are the steps `s`, `s + 1`, … of a run of `n` iterations. -/
def ServesFrom (cg : CodeGen T) (body : List (SwpOp S)) (n : Nat) : Nat → List (List (SwpOp T)) → Prop
  | _, [] => True
  | s, here :: rest => cg.Serves body n s here ∧ cg.ServesFrom body n (s + 1) rest

theorem ServesFrom.getElem {n s : Nat} {steps : List (List (SwpOp T))} (h : cg.ServesFrom body n s steps) :
    ∀ {i : Nat} (hi : i < steps.length), cg.Serves body n (s + i) steps[i] := by
  induction steps generalizing s with
  | nil => exact fun hi => absurd hi (Nat.not_lt_zero _)
  | cons here rest ih =>
    rintro (_ | i) hi
    · exact h.1
    · have hrest := ih h.2 (Nat.lt_of_succ_lt_succ hi)
      rw [Nat.add_right_comm] at hrest
      exact hrest

theorem servesFrom_map {n s m : Nat} {f : Nat → List (SwpOp T)} (h : ∀ j < m, cg.Serves body n (s + j) (f j)) :
    cg.ServesFrom body n s ((List.range m).map f) := by
  induction m generalizing s f with
  | zero => exact trivial
  | succ m ih =>
    rw [List.range_succ_eq_map, List.map_cons, List.map_map]
    refine ⟨h 0 (Nat.succ_pos m), ih fun j hj => ?_⟩
    have hj' := h (j + 1) (Nat.succ_lt_succ hj)
    rwa [← Nat.add_assoc, Nat.add_right_comm] at hj'

namespace Pipelined

theorem serves_blockAt (h : cg.Pipelined body) {n s : Nat} (hn : s < n) :
    cg.Serves body n s (cg.fill (cg.blockAt s)) := by
  rw [blockAt]
  split_ifs with hs
  · exact h.serves_prologue hs hn
  · exact h.serves_kernel (Nat.le_of_not_lt hs) hn

theorem exists_copy (h : cg.Pipelined body) {b : SwpOp S} (hb : b ∈ body) {u : Nat} (hu : u < cg.numKernels) :
    ∃ o ∈ cg.ops, o.unrolling = u ∧ o.tag = b.tag := by
  have hmem : b.tag ∈ (cg.ops.filter fun o => o.unrolling = u).map SwpOp.tag := by
    rw [h.copies u hu]
    exact List.mem_map_of_mem hb
  obtain ⟨o, ho, htag⟩ := List.mem_map.mp hmem
  rw [List.mem_filter, decide_eq_true_eq] at ho
  exact ⟨o, ho.1, ho.2, htag⟩

theorem any_isBr_blockAt (h : cg.Pipelined body) (s : Nat) :
    (cg.fill (cg.blockAt s)).any (fun o => o.isBr) = true := by
  obtain ⟨b, hb, hbr⟩ := h.branch
  have hzero := h.branch_stage b hb hbr
  rw [blockAt, List.any_eq_true]
  split_ifs with hs
  · obtain ⟨u, hu, hver⟩ := h.exists_version ((s : Int) - cg.loop.ps)
    obtain ⟨o, ho, hou, htag⟩ := h.exists_copy hb hu
    have hstage : o.stage = 0 := (congrArg OpTag.stage htag).trans hzero
    refine ⟨o, ?_, (congrArg OpTag.isBr htag).trans hbr⟩
    show o ∈ cg.fillPrologue s
    rw [h.fillPrologue_eq hs, List.mem_filter]
    simp [ho, hou, hstage, hver]
  · obtain ⟨o, ho, hou, htag⟩ := h.exists_copy hb (Nat.mod_lt (s - cg.numPrologs) h.kernels_pos)
    refine ⟨o, ?_, (congrArg OpTag.isBr htag).trans hbr⟩
    show o ∈ cg.fillKernel ((s - cg.numPrologs) % cg.numKernels)
    rw [fillKernel, List.mem_filter]
    exact ⟨ho, decide_eq_true hou⟩

theorem prologExit_eq {i : Nat} (hi : i < cg.numPrologs) :
    cg.prologExit i = some (.epilog (cg.numEpilogs - 1 - i)) := by
  have hlt : i < cg.numEpilogs := Nat.lt_of_lt_of_le hi (Nat.le_add_right _ _)
  rw [prologExit, epilogAt, if_pos (by omega)]
  congr 2
  omega

theorem kernelExit_eq {i : Nat} (hi : i < cg.numKernels) :
    cg.kernelExit i = some (.epilog (cg.numKernels - 1 - i)) := by
  have hE : cg.numEpilogs = cg.numPrologs + cg.numKernels := rfl
  rw [kernelExit, epilogAt, if_pos (by omega)]
  congr 2
  omega

/-- Leaving a block means entering the epilogue that `Update_CFG` links it to. -/
theorem next_false_kernel {i : Nat} (hi : i < cg.numKernels) : cg.next (.kernel i) false = cg.kernelExit i := by
  rw [kernelExit_eq hi, next, inverted]
  by_cases hlast : i < cg.numKernels - 1
  · rw [decide_eq_true hlast, if_pos (by decide), branchTarget, if_pos hlast, kernelExit_eq hi]
  · rw [decide_eq_false hlast, if_neg (by decide), fallThrough, if_neg (by omega), epilogAt,
      if_pos ⟨le_rfl, by simp only [numEpilogs, numKernels] at *; omega⟩]
    congr 2
    omega

theorem next_true_kernel {i : Nat} (hi : i < cg.numKernels) :
    cg.next (.kernel i) true = some (.kernel ((i + 1) % cg.numKernels)) := by
  rw [next, inverted]
  by_cases hlast : i < cg.numKernels - 1
  · rw [decide_eq_true hlast, if_neg (by decide), fallThrough, if_pos (by omega), Nat.mod_eq_of_lt (by omega)]
  · rw [decide_eq_false hlast, if_pos (by decide), branchTarget, if_neg hlast,
      show i + 1 = cg.numKernels by omega, Nat.mod_self]

theorem serves_prologExit (h : cg.Pipelined body) {n : Nat} (hn : 0 < n) (hps : n - 1 < cg.numPrologs) :
    cg.ServesFrom body n n (cg.fillEpilogue (cg.numEpilogs - 1 - (n - 1))) := by
  have hE : cg.numEpilogs = cg.loop.ps + cg.loop.kernelUnrollings := rfl
  have hps' : n - 1 < cg.loop.ps := hps
  refine servesFrom_map fun j hj => h.serves_epilogue hj ?_ fun stage _ => ?_
  · rw [← Int.add_emod_right ((j : Int) - _)]
    congr 1
    omega
  · omega

theorem serves_kernelExit (h : cg.Pipelined body) {n : Nat} (hps : cg.numPrologs ≤ n - 1) (hn : 0 < n) :
    cg.ServesFrom body n n
      (cg.fillEpilogue (cg.numKernels - 1 - (n - 1 - cg.numPrologs) % cg.numKernels)) := by
  have hE : cg.numEpilogs = cg.loop.ps + cg.loop.kernelUnrollings := rfl
  have hps' : cg.loop.ps ≤ n - 1 := hps
  have hlt := Nat.mod_lt (n - 1 - cg.numPrologs) h.kernels_pos
  have hK : cg.numKernels = cg.loop.kernelUnrollings := rfl
  have hP : cg.numPrologs = cg.loop.ps := rfl
  have hdiv := Nat.div_add_mod (n - 1 - cg.numPrologs) cg.numKernels
  refine servesFrom_map fun j hj => h.serves_epilogue hj ?_ fun stage hstage => ?_
  · generalize (n - 1 - cg.numPrologs) % cg.numKernels = k at *
    generalize (n - 1 - cg.numPrologs) / cg.numKernels = q at *
    have hstep : ((n + j : Nat) : Int) - cg.loop.ps =
        ((j : Int) - ((cg.numKernels - 1 - k : Nat) : Int)) + cg.loop.kernelUnrollings * (q + 1) := by
      rw [hK] at *
      have hsub : ((cg.loop.kernelUnrollings - 1 - k : Nat) : Int) = cg.loop.kernelUnrollings - 1 - k := by omega
      have hdiv' : (cg.loop.kernelUnrollings : Int) * q + k = n - 1 - cg.loop.ps := by
        have hcast := congrArg (Nat.cast : Nat → Int) hdiv
        push_cast at hcast
        omega
      rw [hsub]
      push_cast
      linarith
    rw [hstep, Int.add_mul_emod_self_left]
  · omega

theorem exit_serves (h : cg.Pipelined body) {n : Nat} (hn : 0 < n) :
    ∃ e, cg.next (cg.blockAt (n - 1)) false = some (.epilog e) ∧ e < cg.numEpilogs ∧
      cg.ServesFrom body n n (cg.fillEpilogue e) := by
  have hE : cg.numEpilogs = cg.numPrologs + cg.numKernels := rfl
  have hK := h.kernels_pos
  rw [blockAt]
  split_ifs with hs
  · exact ⟨_, prologExit_eq hs, by omega, h.serves_prologExit hn hs⟩
  · have hlt := Nat.mod_lt (n - 1 - cg.numPrologs) hK
    refine ⟨_, ?_, ?_, h.serves_kernelExit (Nat.le_of_not_lt hs) hn⟩
    · rw [next_false_kernel hlt, kernelExit_eq hlt]
    · omega

theorem next_blockAt (h : cg.Pipelined body) (s : Nat) : cg.next (cg.blockAt s) true = some (cg.blockAt (s + 1)) := by
  have hK := h.kernels_pos
  rw [blockAt]
  split_ifs with hs
  · rw [next, inverted, if_neg (by decide), fallThrough, blockAt]
    split_ifs with hs'
    · rfl
    · rw [show s + 1 - cg.numPrologs = 0 by omega, Nat.zero_mod]
  · have hlt := Nat.mod_lt (s - cg.numPrologs) hK
    rw [next_true_kernel hlt, Nat.mod_add_mod, blockAt, if_neg (by omega),
      show s + 1 - cg.numPrologs = s - cg.numPrologs + 1 by omega]

theorem run_blockAt (h : cg.Pipelined body) (n fuel s : Nat) :
    cg.run n (fuel + 1) (cg.blockAt s) s = (do
      let b ← cg.next (cg.blockAt s) (s + 1 < n)
      let rest ← cg.run n fuel b (s + 1)
      some (cg.fill (cg.blockAt s) :: rest)) := by
  have hany := h.any_isBr_blockAt s
  rw [blockAt] at hany ⊢
  split_ifs at hany ⊢
  · simp only [run, hany, if_true]
  · simp only [run, hany, if_true]

theorem run_from (h : cg.Pipelined body) {n : Nat} : ∀ {m s : Nat}, s + m + 1 = n → ∀ fuel : Nat, m + 2 ≤ fuel →
    ∃ steps, cg.run n fuel (cg.blockAt s) s = some steps ∧ steps.length = m + 1 + cg.loop.es ∧
      cg.ServesFrom body n s steps := by
  intro m
  induction m with
  | zero =>
    intro s hs fuel hfuel
    obtain ⟨e, hnext, -, hserves⟩ := h.exit_serves (n := n) (by omega)
    obtain ⟨fuel, rfl⟩ := Nat.exists_eq_add_of_le' hfuel
    rw [show n - 1 = s by omega] at hnext
    refine ⟨cg.fill (cg.blockAt s) :: cg.fillEpilogue e, ?_, ?_, h.serves_blockAt (by omega), ?_⟩
    · rw [h.run_blockAt, decide_eq_false (by omega), hnext]
      rfl
    · rw [List.length_cons, fillEpilogue, List.length_map, List.length_range]
      omega
    · rwa [show s + 1 = n by omega]
  | succ m ih =>
    intro s hs fuel hfuel
    obtain ⟨fuel, rfl⟩ := Nat.exists_eq_add_of_le' (Nat.le_of_add_left_le hfuel : 1 ≤ fuel)
    obtain ⟨rest, hrun, hlen, hserves⟩ := ih (s := s + 1) (by omega) fuel (by omega)
    refine ⟨cg.fill (cg.blockAt s) :: rest, ?_, ?_, h.serves_blockAt (by omega), hserves⟩
    · rw [h.run_blockAt, decide_eq_true (by omega), h.next_blockAt]
      simp only [Option.bind_eq_bind, Option.bind_some, hrun]
    · rw [List.length_cons, hlen]
      omega

end Pipelined

/-! ## Operation instances -/

/-- The instances executed by the steps `s`, `s + 1`, …: an operation of stage `σ` in step `s` belongs to iteration
`s - σ`. -/
def instances : Nat → List (List (SwpOp T)) → List (SwpOp T × Int)
  | _, [] => []
  | s, here :: rest => here.map (fun o => (o, (s : Int) - o.stage)) ++ instances (s + 1) rest

/-- Instances of operation `op` in iteration `t`. -/
def isInstance (op : Nat) (t : Int) (x : SwpOp T × Int) : Bool := x.1.op = op && x.2 = t

theorem instances_step {s : Nat} {steps : List (List (SwpOp T))} {x : SwpOp T × Int} (hx : x ∈ instances s steps) :
    (s : Int) ≤ x.2 + x.1.stage := by
  induction steps generalizing s with
  | nil => exact absurd hx List.not_mem_nil
  | cons here rest ih =>
    rcases List.mem_append.mp hx with hmem | hmem
    · obtain ⟨o, -, rfl⟩ := List.mem_map.mp hmem
      show (s : Int) ≤ (s : Int) - o.stage + o.stage
      omega
    · have hrest := ih hmem
      push_cast at hrest
      omega

theorem instances_ordered (s : Nat) (steps : List (List (SwpOp T))) :
    (instances s steps).Pairwise fun x y => x.2 = y.2 → x.1.stage ≤ y.1.stage := by
  induction steps generalizing s with
  | nil => exact List.Pairwise.nil
  | cons here rest ih =>
    rw [instances, List.pairwise_append]
    refine ⟨?_, ih (s + 1), fun x hx y hy heq => ?_⟩
    · rw [List.pairwise_map]
      refine List.pairwise_of_forall fun o o' heq => ?_
      dsimp only at heq ⊢
      omega
    · obtain ⟨o, -, rfl⟩ := List.mem_map.mp hx
      have hstep := instances_step hy
      push_cast at hstep
      dsimp only at heq ⊢
      omega

theorem countP_op_eq (hnodup : (body.map SwpOp.op).Nodup) {b : SwpOp S} (hb : b ∈ body) (r : OpTag → Bool) :
    (body.map SwpOp.tag).countP (fun g => g.op = b.op && r g) = if r b.tag then 1 else 0 := by
  have htags : (body.map SwpOp.tag).Nodup := by
    refine List.Nodup.of_map OpTag.op ?_
    rw [List.map_map]
    exact hnodup
  have huniq : ∀ g ∈ body.map SwpOp.tag, (g.op = b.op && r g) = (g == b.tag && r b.tag) := by
    intro g hg
    obtain ⟨o, ho, rfl⟩ := List.mem_map.mp hg
    by_cases hop : o.op = b.op
    · have heq : o = b := List.inj_on_of_nodup_map hnodup ho hb hop
      subst heq
      simp [SwpOp.tag]
    · simp [SwpOp.tag, hop]
  rw [List.countP_congr (q := fun g => g == b.tag && r b.tag) fun g hg => by rw [huniq g hg]]
  cases hr : r b.tag
  · simp
  · simp only [Bool.and_true, if_true]
    exact List.count_eq_one_of_mem htags (List.mem_map_of_mem hb)

theorem Serves.countP_instances {n s : Nat} {here : List (SwpOp T)} (h : cg.Serves body n s here)
    (hnodup : (body.map SwpOp.op).Nodup) {b : SwpOp S} (hb : b ∈ body) (hpu : b.isPointerUpdate = false) (t : Int) :
    (here.map fun o => (o, (s : Int) - o.stage)).countP (isInstance b.op t) =
      if (s : Int) = t + b.stage ∧ 0 ≤ t ∧ t < n then 1 else 0 := by
  -- the count is one of tags, and no pointer update has the operation's tag
  have htag : (here.map fun o => (o, (s : Int) - o.stage)).countP (isInstance b.op t) =
      (here.map SwpOp.tag).countP (fun g => g.op = b.op && (s : Int) - g.stage = t) := by
    rw [List.countP_map, List.countP_map]
    rfl
  have hplain : (here.map SwpOp.tag).countP (fun g => g.op = b.op && (s : Int) - g.stage = t) =
      ((here.map SwpOp.tag).filter fun g => !g.isPointerUpdate).countP
        (fun g => g.op = b.op && (s : Int) - g.stage = t) := by
    rw [List.countP_filter]
    refine List.countP_congr fun g hg => ?_
    obtain ⟨o, ho, rfl⟩ := List.mem_map.mp hg
    obtain ⟨o', ho', htag'⟩ := List.mem_map.mp (h.mem o ho)
    by_cases hop : o.tag.op = b.op
    · have heq : o' = b := List.inj_on_of_nodup_map hnodup ho' hb ((congrArg OpTag.op htag').trans hop)
      have hplain : o.tag.isPointerUpdate = false := by
        rw [← htag', heq]
        exact hpu
      simp [hop, hplain]
    · simp [hop]
  rw [htag, hplain, h.tags, List.countP_filter]
  have hcount := countP_op_eq hnodup hb
    (fun g => decide ((s : Int) - g.stage = t) && (!g.isPointerUpdate && underWay n s g))
  simp only [Bool.and_assoc] at hcount ⊢
  rw [hcount]
  have hpu' : b.tag.isPointerUpdate = false := hpu
  have hiff : (decide ((s : Int) - b.tag.stage = t) && (!b.tag.isPointerUpdate && underWay n s b.tag)) = true ↔
      (s : Int) = t + b.stage ∧ 0 ≤ t ∧ t < n := by
    rw [hpu', underWay, show b.tag.stage = b.stage from rfl]
    simp only [Bool.not_false, Bool.true_and, Bool.and_eq_true, decide_eq_true_eq]
    omega
  exact if_congr hiff rfl rfl

theorem ServesFrom.countP_instances {n s : Nat} {steps : List (List (SwpOp T))} (h : cg.ServesFrom body n s steps)
    (hnodup : (body.map SwpOp.op).Nodup) {b : SwpOp S} (hb : b ∈ body) (hpu : b.isPointerUpdate = false) (t : Int) :
    (instances s steps).countP (isInstance b.op t) =
      if ((s : Int) ≤ t + b.stage ∧ t + b.stage < s + steps.length) ∧ 0 ≤ t ∧ t < n then 1 else 0 := by
  induction steps generalizing s with
  | nil =>
    rw [if_neg (by simp only [List.length_nil]; omega)]
    rfl
  | cons here rest ih =>
    rw [instances, List.countP_append, h.1.countP_instances hnodup hb hpu, ih h.2, List.length_cons]
    push_cast
    split_ifs <;> omega

/-! ## Every instance is executed exactly once -/

/-- `steps` is a run of the pipelined loop for `n` iterations. -/
structure ExactRun (cg : CodeGen T) (body : List (SwpOp S)) (n : Nat) (steps : List (List (SwpOp T))) : Prop where
  /-- One step for each iteration that is started, and `es` steps to drain the pipeline. -/
  length_eq : steps.length = n + cg.loop.es
  /-- Step `s` uses version `s - ps` and holds the stage `s - t` part of each iteration `t`. -/
  serves : ∀ (s : Nat) (hs : s < steps.length), cg.Serves body n s steps[s]
  /-- Each operation is executed once in each of the iterations `0 ≤ t < n` and in no other. -/
  once : ∀ b ∈ body, b.isBr = false → b.isPointerUpdate = false → ∀ t : Int,
    (instances 0 steps).countP (isInstance b.op t) = if 0 ≤ t ∧ t < n then 1 else 0
  ordered : (instances 0 steps).Pairwise fun x y => x.2 = y.2 → x.1.stage ≤ y.1.stage

/-- Every exit of the pipeline is an epilogue of the array, and every move of a run an edge of the flow graph. -/
structure ExactFlow (cg : CodeGen T) : Prop where
  prolog_exit : ∀ p < cg.numPrologs, ∃ e < cg.numEpilogs, cg.prologExit p = some (.epilog e)
  kernel_exit : ∀ k < cg.numKernels, ∃ e < cg.numEpilogs, cg.kernelExit k = some (.epilog e)
  follows : ∀ (s : Nat) (more : Bool), (cg.blockAt s, cg.next (cg.blockAt s) more) ∈ cg.updateCFG

theorem Pipelined.exactFlow (h : cg.Pipelined body) : cg.ExactFlow := by
  have hE : cg.numEpilogs = cg.numPrologs + cg.numKernels := rfl
  have hK := h.kernels_pos
  refine ⟨fun p hp => ⟨_, by omega, prologExit_eq hp⟩, fun k hk => ⟨_, by omega, kernelExit_eq hk⟩, fun s more => ?_⟩
  cases more with
  | true =>
    rw [h.next_blockAt, blockAt, blockAt]
    split_ifs with hs hs' hs'
    · simp [updateCFG]
      omega
    · have hlast : s = cg.numPrologs - 1 := by omega
      rw [show s + 1 - cg.numPrologs = 0 by omega, Nat.zero_mod, hlast]
      simp [updateCFG, show cg.numPrologs > 0 by omega]
    · omega
    · have hlt := Nat.mod_lt (s - cg.numPrologs) hK
      rw [show s + 1 - cg.numPrologs = s - cg.numPrologs + 1 by omega, ← Nat.mod_add_mod]
      generalize (s - cg.numPrologs) % cg.numKernels = k at hlt ⊢
      by_cases hlast : k + 1 < cg.numKernels
      · rw [Nat.mod_eq_of_lt hlast]
        simp [updateCFG]
        omega
      · rw [show k + 1 = cg.numKernels by omega, Nat.mod_self, show k = cg.numKernels - 1 by omega]
        simp [updateCFG]
  | false =>
    rw [blockAt]
    split_ifs with hs
    · have hmem : (Block.prolog s, cg.prologExit s) ∈ cg.updateCFG := by
        simp [updateCFG]
        omega
      exact hmem
    · have hlt := Nat.mod_lt (s - cg.numPrologs) hK
      rw [next_false_kernel hlt]
      simp [updateCFG]
      omega

theorem le_maxStage {ops : List (SwpOp S)} {o : SwpOp S} (ho : o ∈ ops) : o.stage ≤ maxStage ops :=
  (le_foldl_greatest SwpOp.stage ops 0).2 o ho

theorem Pipelined.run_exact (h : cg.Pipelined body) (hnodup : (body.map SwpOp.op).Nodup) {n : Nat} (hn : 1 ≤ n) :
    ∃ steps, cg.run n (n + 2) .oldProlog 0 = some steps ∧ cg.ExactRun body n steps := by
  obtain ⟨m, rfl⟩ := Nat.exists_eq_add_of_le' hn
  obtain ⟨steps, hrun, hlen, hserves⟩ := h.run_from (n := m + 1) (m := m) (s := 0) (by omega) (m + 2) le_rfl
  have hentry : cg.fallThrough .oldProlog = some (cg.blockAt 0) := by
    rw [fallThrough, blockAt]
    split_ifs
    · rfl
    · rw [Nat.zero_sub, Nat.zero_mod]
  refine ⟨steps, ?_, hlen, fun s hs => ?_, fun b hb _ hpu t => ?_, instances_ordered 0 steps⟩
  · rw [run, hentry]
    exact hrun
  · have hstep := hserves.getElem hs
    rwa [Nat.zero_add] at hstep
  · have hstage := h.stage_lt b hb
    have hes := h.es_eq
    rw [hserves.countP_instances hnodup hb hpu t, hlen]
    refine if_congr ?_ rfl rfl
    omega

end CodeGen

open CodeGen in
/-- For every trip count, the code made from the unrolled kernel of a schedule runs to the old epilogue and executes
every operation instance exactly once, each at its step and in its copy. -/
theorem pipelined_exactly_once {body : List (SwpOp S)} {lt : List (TnLifetime S)} {ops : List (SwpOp T)}
    {ii kernels n : Nat} (hnodup : (body.map SwpOp.op).Nodup) (hkernels : 1 ≤ kernels)
    (hcopies : ∀ u < kernels, (ops.filter fun o => o.unrolling = u).map SwpOp.tag = body.map SwpOp.tag)
    (hbranch : ∃ o ∈ body, o.isBr) (hstage : ∀ o ∈ body, o.isBr → o.stage = 0)
    (hps : (calculatePrologEpilogStages ii kernels body lt).ps =
      (calculatePrologEpilogStages ii kernels body lt).sc - 1)
    (hes : (calculatePrologEpilogStages ii kernels body lt).es =
      (calculatePrologEpilogStages ii kernels body lt).sc - 1) (hn : 1 ≤ n) :
    (CodeGen.mk ops (calculatePrologEpilogStages ii kernels body lt)).ExactFlow ∧
      ∃ steps, (CodeGen.mk ops (calculatePrologEpilogStages ii kernels body lt)).run n (n + 2) .oldProlog 0 =
        some steps ∧ (CodeGen.mk ops (calculatePrologEpilogStages ii kernels body lt)).ExactRun body n steps := by
  have h : (CodeGen.mk ops (calculatePrologEpilogStages ii kernels body lt)).Pipelined body :=
    { kernels_pos := hkernels
      copies := hcopies
      stage_lt := fun o ho => Nat.lt_succ_of_le (le_maxStage ho)
      branch := hbranch
      branch_stage := hstage
      ps_eq := hps
      es_eq := hes }
  exact ⟨h.exactFlow, h.run_exact hnodup hn⟩

/-- A load, the addition that uses it one stage later, and the loop branch. -/
def threeOps : List (SwpOp Tn) :=
  [{ op := 0 }, { op := 1, stage := 1 }, { op := 2, startCycle := 1, isBr := true }]

/-- `threeOps` unrolled twice, run for three iterations. -/
theorem pipelined_exactly_once_threeOps : ∃ steps,
    (CodeGen.mk (threeOps ++ threeOps.map fun o => { o with unrolling := 1 })
      (calculatePrologEpilogStages 2 2 threeOps [])).run 3 5 .oldProlog 0 = some steps ∧
    (CodeGen.mk (threeOps ++ threeOps.map fun o => { o with unrolling := 1 })
      (calculatePrologEpilogStages 2 2 threeOps [])).ExactRun threeOps 3 steps :=
  (pipelined_exactly_once (n := 3) (by decide) (by decide) (by decide) (by decide) (by decide) (by decide)
    (by decide) (by decide)).2

end Path64.Swp

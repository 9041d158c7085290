import Path64.Lib.Grouping
import Path64.Swp.Lifetime

/-!
# Software pipelining: what the lifetimes cover

`SWP_LIFETIME` again, now for any loop: before unrolling or after it, with epilogue backpatches, for one register class
or for all.

* `kernelLifetime` : the constructor;
* `Meets` : the lifetime of each register reaches from its definitions to its uses and to the reads of the epilogue;
* `Sizes` : the sub-cycles this takes fit in 16 bits, and no unique result is defined in the first sub-cycle;
* `TiesClean` : no same-result operation ties registers that have different lifetimes already;
* `meets_iff_sizes` : with clean ties, the lifetimes cover every read exactly when the sizes fit.
-/

namespace Path64.Swp.Intervals

open Lib (GroupEvent Names Moves Follows)

/-! ## The constructor -/

/-- What the constructor reads of a `SWP_MVE`: `Get_Kernel_Unrollings` and `Get_Renamed_TN`. -/
structure MveKernel where
  kernelUnrollings : Nat
  renamedTn : Tn → Nat → Nat → Option Tn

/-- The parameters of the constructor; `mve` is none for the original loop, `regClass` is none for
`ISA_REGISTER_CLASS_UNDEFINED`. -/
structure Loop where
  ops : List (SwpOp Tn)
  mve : Option MveKernel := none
  ii : Nat
  regClass : Option Nat := none
  /-- `CG_LOOP_BACKPATCH_body_tn` and `CG_LOOP_BACKPATCH_omega` of the backpatches of the epilogue. -/
  backpatches : List (Tn × Nat) := []

variable (lp : Loop)

/-- The register is of the class the lifetimes are for. -/
def Loop.inClass (tn : Tn) : Bool := lp.regClass.all (· = tn.registerClass)

/-- One result of an operation at sub-cycle `cycle`. -/
def startLifetime (uniq_res : Bool) (cycle : Nat) (st : LifetimeState) (tn : Tn) : LifetimeState :=
  if lp.inClass tn then resultLifetime lp.ii lp.ops uniq_res cycle st tn else st

/-- The first pass at one operation. -/
def startOp (st : LifetimeState) (q : SwpOp Tn × Nat) : LifetimeState :=
  q.1.results.foldl (startLifetime lp q.1.uniqRes q.2) (joinResult q.1 st)

/-- One operand of an operation at sub-cycle `cycle`. -/
def endLifetime (cycle : Nat) (st : LifetimeState) (p : Opnd Tn) : LifetimeState :=
  if lp.inClass p.tn then operandLifetime lp.ii lp.ops cycle st p else st

/-- The second pass at one operation. -/
def endOp (st : LifetimeState) (q : SwpOp Tn × Nat) : LifetimeState :=
  q.1.opnds.foldl (endLifetime lp q.2) (joinOperand q.1 st)

/-- `_tn2lt[tn]`, which puts a register that is not there into the first lifetime. -/
def subscript (st : LifetimeState) (tn : Tn) : LifetimeState × Nat :=
  match st.tn2lt tn with
  | some i => (st, i)
  | none => ({ st with tn2lt := st.map tn 0 }, 0)

/-- `Set_Alpha` for an epilogue backpatch of a loop variant register; none when there is no first lifetime. -/
def setAlpha (st : LifetimeState) (bp : Tn × Nat) : Option LifetimeState :=
  if isLoopVariant lp.ops bp.1 then
    let (st, i) := subscript st bp.1
    if i < st.lt.length then
      some { st with lt := st.lt.modify i fun lt => if lt.alpha < bp.2 then { lt with alpha := uint8 bp.2 } else lt }
    else none
  else some st

/-- A read of the epilogue: of `tn`, at `cycle`, `omega` passes later. -/
structure EpilogRead where
  tn : Tn
  cycle : Nat
  omega : Nat

/-- The reads of one copy of the loop body in the unrolled kernel. -/
def kernelRead (m : MveKernel) (bp : Tn × Nat) (kernel : Nat) : Option EpilogRead :=
  (m.renamedTn bp.1 bp.2 kernel).map fun kernel_tn =>
    let old_ii := lp.ii / m.kernelUnrollings
    let new_omega := (kernel + bp.2) / m.kernelUnrollings
    let end_kernel := kernel + bp.2 - m.kernelUnrollings * new_omega
    { tn := kernel_tn, cycle := (end_kernel + 1) * old_ii * subcyclesPerCycle, omega := new_omega }

/-- The reads of a backpatch; none when `Get_Renamed_TN` does not know the register. -/
def epilogReads (bp : Tn × Nat) : Option (List EpilogRead) :=
  match lp.mve with
  | none => some [{ tn := bp.1, cycle := lp.ii * subcyclesPerCycle, omega := bp.2 }]
  | some m => (List.range m.kernelUnrollings).mapM (kernelRead lp m bp)

def readLifetime (st : LifetimeState) (r : EpilogRead) : LifetimeState :=
  if isLoopDefined lp.ops r.tn then updateTnLifetime lp.ii (uint16 r.cycle) (uint8 r.omega) r.tn .operand st else st

/-- One epilogue backpatch. -/
def backpatchOp (st : LifetimeState) (bp : Tn × Nat) : Option LifetimeState :=
  if lp.inClass bp.1 then
    match setAlpha lp st bp, epilogReads lp bp with
    | some st, some reads => some (reads.foldl (readLifetime lp) st)
    | _, _ => none
  else some st

/-- The omegas of which `max_omega` is the greatest. -/
def omegas : List Nat :=
  (lp.ops.flatMap fun o => (o.opnds.filter fun p =>
    p.tn.isRegister && !p.tn.isDedicated && lp.inClass p.tn && isLoopVariant lp.ops p.tn).map fun p => uint8 p.omega) ++
  (lp.backpatches.filter fun bp => lp.inClass bp.1).flatMap fun bp =>
    match lp.mve with
    | none => [bp.2]
    | some _ => (((epilogReads lp bp).getD []).filter fun r => isLoopDefined lp.ops r.tn).map EpilogRead.omega

/-- The operations with their sub-cycles. -/
def Loop.pairs (subs : List Nat) : List (SwpOp Tn × Nat) := lp.ops.zip subs

/-- `SWP_LIFETIME::SWP_LIFETIME`: `_lt` and `_tn2lt`; none when an assertion fails. -/
def kernelLifetime : Option LifetimeState :=
  match opSubCycles lp.ops with
  | none => none
  | some subs =>
    let st := (lp.pairs subs).foldl (startOp lp) { lt := [], tn2lt := fun _ => none }
    let st := (lp.pairs subs).foldl (endOp lp) st
    match lp.backpatches.foldlM (backpatchOp lp) st with
    | none => none
    | some st => if (omegas lp).foldl max 0 * lp.ii < 65535 / subcyclesPerCycle then some st else none

/-! ## What the lifetimes are for -/

/-- The registers that get a lifetime: those the loop defines, but for the dedicated ones and those of other classes. -/
structure Loop.Counted (x : Tn) : Prop where
  renamed : x.Renamed
  inClass : lp.inClass x = true
  defined : isLoopDefined lp.ops x = true

instance (x : Tn) : Decidable (lp.Counted x) :=
  decidable_of_iff (x.Renamed ∧ lp.inClass x = true ∧ isLoopDefined lp.ops x = true)
    ⟨fun h => ⟨h.1, h.2.1, h.2.2⟩, fun h => ⟨h.1, h.2, h.3⟩⟩

/-- `operator () (tn)`. -/
def lifetimeOf (st : LifetimeState) (tn : Tn) : Option (TnLifetime Tn) := (st.tn2lt tn).bind fun i => st.lt[i]?

/-- The register has a lifetime that does `Q`. -/
def Has (st : LifetimeState) (x : Tn) (Q : TnLifetime Tn → Prop) : Prop := ∃ L, lifetimeOf st x = some L ∧ Q L

/-- The registers that an epilogue backpatch reads, each with the end of the pass of the kernel it is read in. -/
def passEnds (bp : Tn × Nat) : List (Tn × Nat) :=
  match lp.mve with
  | none => [(bp.1, (bp.2 + 1) * (lp.ii * subcyclesPerCycle))]
  | some m => (List.range m.kernelUnrollings).filterMap fun kernel =>
    (m.renamedTn bp.1 bp.2 kernel).map fun tn =>
      (tn, (kernel + bp.2 + 1) * (lp.ii / m.kernelUnrollings * subcyclesPerCycle))

/-- No value is changed by keeping it in 16 bits. -/
structure NoWrap (subs : List Nat) : Prop where
  cycles : ∀ q ∈ lp.pairs subs, q.1.startCycle * subcyclesPerCycle ≤ q.2
  early : ∀ q ∈ lp.pairs subs, q.1.uniqRes = true → ∀ x ∈ q.1.results, lp.Counted x →
    (uint16 ((q.2 : Int) - 1) : Int) = q.2 - 1
  ends : ∀ q ∈ lp.pairs subs, ∀ p ∈ q.1.opnds, lp.Counted p.tn →
    (uint16 (useEnd lp.ii q p) : Int) = q.2 + subcyclesPerCycle * p.omega * lp.ii
  reads : ∀ bp ∈ lp.backpatches, lp.inClass bp.1 = true → ∀ reads, epilogReads lp bp = some reads → ∀ r ∈ reads,
    isLoopDefined lp.ops r.tn = true →
      uint16 (uint16 r.cycle + r.omega * lp.ii * subcyclesPerCycle : Nat) =
        r.cycle + r.omega * lp.ii * subcyclesPerCycle

/-- The lifetimes cover every read. -/
structure Meets (subs : List Nat) (st : LifetimeState) : Prop where
  starts : ∀ q ∈ lp.pairs subs, ∀ x ∈ q.1.results, lp.Counted x → Has st x fun L => L.startSubCycle ≤ q.2
  ends : ∀ q ∈ lp.pairs subs, ∀ p ∈ q.1.opnds, lp.Counted p.tn →
    Has st p.tn fun L => q.2 + subcyclesPerCycle * p.omega * lp.ii ≤ L.endSubCycle
  reads : ∀ bp ∈ lp.backpatches, lp.inClass bp.1 = true → ∀ e ∈ passEnds lp bp, lp.Counted e.1 →
    Has st e.1 fun L => e.2 ≤ L.endSubCycle
  ordered : ∀ x, lp.Counted x → Has st x fun L => L.startSubCycle ≤ L.endSubCycle
  tied : ∀ o ∈ lp.ops, ∀ r y, sameResTns o = some (r, y) → y.isZeroReg = false → lp.Counted r →
    st.tn2lt y = st.tn2lt r
  noWrap : NoWrap lp subs

/-- The omegas are not negative, and of the widths of their fields. -/
structure Loop.OmegasOk : Prop where
  opnds : ∀ o ∈ lp.ops, ∀ p ∈ o.opnds, 0 ≤ p.omega ∧ p.omega < 128
  backpatches : ∀ bp ∈ lp.backpatches, bp.2 < 256

/-! ## When they do -/

/-- The sub-cycles fit in 16 bits. -/
structure Sizes (subs : List Nat) : Prop where
  cycles : ∀ o ∈ lp.ops, o.startCycle < 8192
  /-- A unique result is not defined in the first sub-cycle. -/
  early : ∀ q ∈ lp.pairs subs, q.1.uniqRes = true → ∀ x ∈ q.1.results, lp.Counted x → q.2 ≠ 0
  ends : ∀ q ∈ lp.pairs subs, ∀ p ∈ q.1.opnds, lp.Counted p.tn → q.2 + subcyclesPerCycle * p.omega * lp.ii < 65536
  reads : ∀ bp ∈ lp.backpatches, lp.inClass bp.1 = true → ∀ reads, epilogReads lp bp = some reads → ∀ r ∈ reads,
    isLoopDefined lp.ops r.tn = true → r.cycle + r.omega * lp.ii * subcyclesPerCycle < 65536

/-- The tie between the operand and the result of a same-result operation, entered with the operand first. -/
def tieEvents (o : SwpOp Tn) (mk : Tn → Tn → GroupEvent Tn) : List (GroupEvent Tn) :=
  match sameResTns o with
  | none => []
  | some (r, y) => if y.isZeroReg then [] else [mk r y]

def resultEvents (x : Tn) : List (GroupEvent Tn) := if lp.Counted x then [.name x] else []

/-- What the first pass does to the groups of registers that share a lifetime: the result enters the group of the
operand, then every result gets a group. -/
def startEvents (o : SwpOp Tn) : List (GroupEvent Tn) :=
  tieEvents o (fun r y => .join y r) ++ o.results.flatMap (resultEvents lp)

/-- What the second pass does: the operand enters the group of the result. -/
def endEvents (o : SwpOp Tn) : List (GroupEvent Tn) := tieEvents o fun r y => .join r y

/-- No same-result operation ties two registers that have different lifetimes already. -/
def TiesClean : Prop := Names.empty.AllowsAll (lp.ops.flatMap (startEvents lp) ++ lp.ops.flatMap endEvents)

/-! ## Lifetimes only grow -/

variable {lp} {st st' : LifetimeState}

theorem Has.extends {x : Tn} {Q : TnLifetime Tn → Prop} (h : Has st x Q) (hst : Extends st st')
    (hQ : ∀ L L', L'.startSubCycle ≤ L.startSubCycle → L.endSubCycle ≤ L'.endSubCycle → Q L → Q L') : Has st' x Q := by
  obtain ⟨L, hL, hq⟩ := h
  obtain ⟨i, hi, hget⟩ := Option.bind_eq_some_iff.mp hL
  obtain ⟨L', hget', hs, he⟩ := hst.grows i L hget
  exact ⟨L', Option.bind_eq_some_iff.mpr ⟨i, hst.kept x i hi, hget'⟩, hQ L L' hs he hq⟩

theorem Has.extends_start {x : Tn} {c : Nat} (h : Has st x fun L => L.startSubCycle ≤ c) (hst : Extends st st') :
    Has st' x fun L => L.startSubCycle ≤ c := h.extends hst fun _ _ hs _ hc => hs.trans hc

theorem Has.extends_end {x : Tn} {e : Nat} (h : Has st x fun L => e ≤ L.endSubCycle) (hst : Extends st st') :
    Has st' x fun L => e ≤ L.endSubCycle :=
  h.extends hst fun _ _ _ he hc => hc.trans he

theorem Has.extends_ordered {x : Tn} (h : Has st x fun L => L.startSubCycle ≤ L.endSubCycle) (hst : Extends st st') :
    Has st' x fun L => L.startSubCycle ≤ L.endSubCycle := h.extends hst fun _ _ hs he hc => hs.trans (hc.trans he)

theorem map_eq (st : LifetimeState) (tn : Tn) (i : Nat) : st.map tn i = Function.update st.tn2lt tn (some i) := by
  funext t
  exact (Function.update_apply st.tn2lt tn (some i) t).symm

theorem moves_update (ii cycle omega : Nat) (tn : Tn) (type : TnType) (st : LifetimeState) :
    Moves st.tn2lt (.name tn) (updateTnLifetime ii cycle omega tn type st).tn2lt := by
  unfold updateTnLifetime
  split
  · rename_i hnone
    show Moves _ _ (st.map tn st.lt.length)
    rw [map_eq]
    exact .fresh hnone _
  · rename_i i hi
    exact .known (by rw [hi]; exact Option.some_ne_none i)

theorem has_update_result (hwf : st.Wf) (ii cycle omega : Nat) (tn : Tn) :
    Has (updateTnLifetime ii cycle omega tn .result st) tn fun L => L.startSubCycle ≤ cycle := by
  unfold updateTnLifetime
  split
  · exact ⟨_, Option.bind_eq_some_iff.mpr ⟨st.lt.length, if_pos rfl, List.getElem?_concat_length⟩, le_rfl⟩
  · rename_i i hi
    have hget := List.getElem?_eq_getElem (hwf tn i hi)
    refine ⟨_, Option.bind_eq_some_iff.mpr ⟨i, hi, getElem?_modify_some hget i _⟩, ?_⟩
    rw [if_pos rfl]
    dsimp only
    split_ifs <;> (try dsimp only) <;> omega

theorem has_update_operand (hwf : st.Wf) {ii cycle omega : Nat}
    (hfit : cycle + omega * ii * subcyclesPerCycle < 65536) (tn : Tn) :
    Has (updateTnLifetime ii cycle omega tn .operand st) tn fun L =>
      cycle + omega * ii * subcyclesPerCycle ≤ L.endSubCycle := by
  have hend := uint16_eq hfit
  unfold updateTnLifetime
  split
  · exact ⟨_, Option.bind_eq_some_iff.mpr ⟨st.lt.length, if_pos rfl, List.getElem?_concat_length⟩, hend.ge⟩
  · rename_i i hi
    have hget := List.getElem?_eq_getElem (hwf tn i hi)
    refine ⟨_, Option.bind_eq_some_iff.mpr ⟨i, hi, getElem?_modify_some hget i _⟩, ?_⟩
    rw [if_pos rfl]
    dsimp only
    rw [uint32_eq (by omega), hend]
    split_ifs <;> (try dsimp only) <;> omega

/-- Every lifetime ends where it starts, or later. -/
def AllOrdered (st : LifetimeState) : Prop := ∀ L ∈ st.lt, L.startSubCycle ≤ L.endSubCycle

theorem AllOrdered.has (h : AllOrdered st) {x : Tn} (hx : Has st x fun _ => True) :
    Has st x fun L => L.startSubCycle ≤ L.endSubCycle := by
  obtain ⟨L, hL, -⟩ := hx
  obtain ⟨i, -, hget⟩ := Option.bind_eq_some_iff.mp hL
  exact ⟨L, hL, h L (List.mem_of_getElem? hget)⟩

theorem AllOrdered.modify (h : AllOrdered st) (i : Nat) (f : TnLifetime Tn → TnLifetime Tn) (tn2lt : Tn → Option Nat)
    (hf : ∀ L, L.startSubCycle ≤ L.endSubCycle → (f L).startSubCycle ≤ (f L).endSubCycle) :
    AllOrdered { lt := st.lt.modify i f, tn2lt } := by
  intro L hL
  obtain ⟨j, hj⟩ := List.getElem?_of_mem hL
  rw [List.getElem?_modify] at hj
  obtain ⟨L', hL', rfl⟩ := Option.map_eq_some_iff.mp hj
  have hord := h L' (List.mem_of_getElem? hL')
  split_ifs
  · exact hf L' hord
  · exact hord

theorem AllOrdered.update_result (h : AllOrdered st) (ii cycle omega : Nat) (tn : Tn) :
    AllOrdered (updateTnLifetime ii cycle omega tn .result st) := by
  unfold updateTnLifetime
  split
  · intro L hL
    rcases List.mem_append.mp hL with hL | hL
    · exact h L hL
    · rw [List.mem_singleton.mp hL]
  · refine h.modify _ _ _ fun L hord => ?_
    dsimp only
    split_ifs <;> (try dsimp only) <;> omega

theorem AllOrdered.update_operand (h : AllOrdered st) {ii cycle omega : Nat}
    (hfit : cycle + omega * ii * subcyclesPerCycle < 65536) {tn : Tn} (htn : st.tn2lt tn ≠ none) :
    AllOrdered (updateTnLifetime ii cycle omega tn .operand st) := by
  obtain ⟨i, hi⟩ := Option.ne_none_iff_exists'.mp htn
  unfold updateTnLifetime
  rw [hi]
  refine h.modify _ _ _ fun L hord => ?_
  dsimp only
  rw [uint32_eq (by omega), uint16_eq hfit]
  split_ifs <;> (try dsimp only) <;> omega

/-! ## Ties -/

/-- `b` joins the lifetime of `a`. -/
def tie (a b : Tn) (st : LifetimeState) : LifetimeState :=
  match st.tn2lt a with
  | none => st
  | some i => addTn i b st

theorem moves_tie (a b : Tn) (st : LifetimeState) : Moves st.tn2lt (.join a b) (tie a b st).tn2lt := by
  unfold tie
  split
  · rename_i hnone
    exact .single hnone
  · rename_i i hi
    show Moves _ _ (st.map b i)
    rw [map_eq]
    exact .joined hi

theorem grows_tie (a b : Tn) (st : LifetimeState) : Grows st.lt (tie a b st).lt := by
  unfold tie
  split
  · exact (Extends.refl st).grows
  · exact grows_addTn _ b st

theorem wf_tie (a b : Tn) (hwf : st.Wf) : (tie a b st).Wf := by
  unfold tie
  split
  · exact hwf
  · rename_i i hi
    exact wf_addTn hwf (hwf a i hi)

theorem AllOrdered.tie (h : AllOrdered st) (a b : Tn) : AllOrdered (tie a b st) := by
  unfold Intervals.tie
  split
  · exact h
  · refine AllOrdered.modify h _ _ _ fun L hord => ?_
    split_ifs <;> exact hord

theorem tie_step {g : Names Tn} {a b : Tn} (h : Follows g st.tn2lt) (hallow : g.Allows (.join a b)) :
    Follows (g.step (.join a b)) (tie a b st).tn2lt ∧ Extends st (tie a b st) := by
  obtain ⟨hfollows, hkept⟩ := h.step hallow (moves_tie a b st)
  exact ⟨hfollows, grows_tie a b st, hkept, wf_tie a b⟩

theorem joinResult_eq (o : SwpOp Tn) (st : LifetimeState) : joinResult o st =
    match sameResTns o with
    | none => st
    | some (r, y) => if y.isZeroReg then st else tie y r st := rfl

theorem joinOperand_eq (o : SwpOp Tn) (st : LifetimeState) : joinOperand o st =
    match sameResTns o with
    | none => st
    | some (r, y) => if y.isZeroReg then st else tie r y st := rfl

/-! ## The first pass -/

/-- What holds between two operations of the first pass. -/
structure StartInv (g : Names Tn) (st : LifetimeState) : Prop where
  follows : Follows g st.tn2lt
  wf : st.Wf
  ordered : AllOrdered st

theorem update_known {tn : Tn} (h : st.tn2lt tn ≠ none) (ii cycle omega : Nat) (type : TnType) :
    (updateTnLifetime ii cycle omega tn type st).tn2lt = st.tn2lt := by
  obtain ⟨i, hi⟩ := Option.ne_none_iff_exists'.mp h
  unfold updateTnLifetime
  rw [hi]

theorem StartInv.result {g : Names Tn} (h : StartInv g st) (ii cycle : Nat) (x : Tn) :
    StartInv (g.step (.name x)) (updateTnLifetime ii cycle 0 x .result st) :=
  ⟨(h.follows.step (e := .name x) trivial (moves_update ii cycle 0 x .result st)).1,
    (extends_updateTnLifetime x .result nofun st).wf h.wf, h.ordered.update_result ii cycle 0 x⟩

theorem zero_fits {cycle : Nat} (hcycle : cycle < 65536) (ii : Nat) : cycle + 0 * ii * subcyclesPerCycle < 65536 := by
  rwa [Nat.zero_mul, Nat.zero_mul]

theorem StartInv.operand {g : Names Tn} (h : StartInv g st) (ii : Nat) {cycle : Nat} (hcycle : cycle < 65536) {x : Tn}
    (hx : st.tn2lt x ≠ none) : StartInv g (updateTnLifetime ii cycle 0 x .operand st) := by
  have hfit := zero_fits hcycle ii
  refine ⟨?_, (extends_updateTnLifetime x .operand (fun _ => hfit) st).wf h.wf, h.ordered.update_operand hfit hx⟩
  rw [update_known hx]
  exact h.follows

theorem startLifetime_uncounted {x : Tn} (hx : ¬lp.Counted x) (u : Bool) (cycle : Nat) (st : LifetimeState) :
    startLifetime lp u cycle st x = st := by
  unfold startLifetime resultLifetime
  split_ifs with hclass hreg hded hdef
  all_goals first | rfl | skip
  all_goals exact absurd ⟨⟨by simpa using hreg, by simpa using hded⟩, hclass, hdef⟩ hx

theorem startLifetime_counted {x : Tn} (hx : lp.Counted x) (u : Bool) (cycle : Nat) (st : LifetimeState) :
    startLifetime lp u cycle st x =
      if u then updateTnLifetime lp.ii cycle 0 x .operand
        (updateTnLifetime lp.ii (uint16 ((cycle : Int) - 1)) 0 x .result st)
      else updateTnLifetime lp.ii cycle 0 x .result st := by
  rw [startLifetime, if_pos hx.inClass, resultLifetime, hx.renamed.1, hx.renamed.2, hx.defined]
  rfl

/-- A result with a lifetime starts at its definition or before. -/
theorem startLifetime_step {u : Bool} {cycle : Nat} {x : Tn} (hcycle : cycle < 65536)
    (hearly : u = true → lp.Counted x → cycle ≠ 0) {g : Names Tn} (h : StartInv g st) :
    StartInv (g.run (resultEvents lp x)) (startLifetime lp u cycle st x) ∧
      Extends st (startLifetime lp u cycle st x) ∧
      (lp.Counted x → Has (startLifetime lp u cycle st x) x (fun L => L.startSubCycle ≤ cycle) ∧
        Has (startLifetime lp u cycle st x) x fun L => L.startSubCycle ≤ L.endSubCycle) := by
  by_cases hx : lp.Counted x
  · rw [resultEvents, if_pos hx, startLifetime_counted hx]
    have hhas : ∀ c, Has (updateTnLifetime lp.ii c 0 x .result st) x fun L => L.startSubCycle ≤ c :=
      fun c => has_update_result h.wf lp.ii c 0 x
    have hany : ∀ {st : LifetimeState} {Q : TnLifetime Tn → Prop}, Has st x Q → Has st x fun _ => True :=
      fun ⟨L, hL, _⟩ => ⟨L, hL, trivial⟩
    split_ifs with hu
    · have hpred : uint16 ((cycle : Int) - 1) ≤ cycle := by
        have hne := hearly hu hx
        unfold uint16
        omega
      have hknown : (updateTnLifetime lp.ii (uint16 ((cycle : Int) - 1)) 0 x .result st).tn2lt x ≠ none := by
        obtain ⟨L, hL, -⟩ := hhas (uint16 ((cycle : Int) - 1))
        obtain ⟨i, hi, -⟩ := Option.bind_eq_some_iff.mp hL
        rw [hi]
        exact Option.some_ne_none i
      have hinv := (h.result lp.ii (uint16 ((cycle : Int) - 1)) x).operand lp.ii hcycle hknown
      have hext := extends_updateTnLifetime x .operand (fun _ => zero_fits hcycle lp.ii)
        (updateTnLifetime lp.ii (uint16 ((cycle : Int) - 1)) 0 x .result st)
      have hstart := (hhas (uint16 ((cycle : Int) - 1))).extends_start hext
      refine ⟨hinv, (extends_updateTnLifetime x .result nofun st).trans hext, fun _ => ⟨?_, hinv.ordered.has (hany hstart)⟩⟩
      obtain ⟨L, hL, hle⟩ := hstart
      exact ⟨L, hL, hle.trans hpred⟩
    · have hinv := h.result lp.ii cycle x
      exact ⟨hinv, extends_updateTnLifetime x .result nofun st, fun _ => ⟨hhas cycle, hinv.ordered.has (hany (hhas cycle))⟩⟩
  · rw [resultEvents, if_neg hx, startLifetime_uncounted hx]
    exact ⟨h, Extends.refl st, fun hx' => absurd hx' hx⟩

theorem joinResult_step (o : SwpOp Tn) {g : Names Tn} (h : StartInv g st)
    (hallow : g.AllowsAll (tieEvents o fun r y => .join y r)) :
    StartInv (g.run (tieEvents o fun r y => .join y r)) (joinResult o st) ∧ Extends st (joinResult o st) := by
  rw [joinResult_eq]
  unfold tieEvents at hallow ⊢
  generalize sameResTns o = tns at hallow ⊢
  rcases tns with _ | ⟨r, y⟩
  · exact ⟨h, Extends.refl st⟩
  · dsimp only at hallow ⊢
    split_ifs at hallow ⊢ with hzero
    · exact ⟨h, Extends.refl st⟩
    · obtain ⟨hfollows, hext⟩ := tie_step h.follows hallow.1
      exact ⟨⟨hfollows, hext.wf h.wf, h.ordered.tie y r⟩, hext⟩

theorem startOp_step {q : SwpOp Tn × Nat} (hcycle : q.2 < 65536)
    (hearly : q.1.uniqRes = true → ∀ x ∈ q.1.results, lp.Counted x → q.2 ≠ 0) {g : Names Tn} (h : StartInv g st)
    (hallow : g.AllowsAll (startEvents lp q.1)) :
    StartInv (g.run (startEvents lp q.1)) (startOp lp st q) ∧ Extends st (startOp lp st q) ∧
      ∀ x ∈ q.1.results, lp.Counted x → Has (startOp lp st q) x (fun L => L.startSubCycle ≤ q.2) ∧
        Has (startOp lp st q) x fun L => L.startSubCycle ≤ L.endSubCycle := by
  obtain ⟨htie, hresults⟩ := Names.allowsAll_append.mp hallow
  obtain ⟨hinv, hext⟩ := joinResult_step q.1 h htie
  rw [startEvents, Names.run_append]
  obtain ⟨hinv', hext', hall⟩ := Lib.foldl_follows Extends.refl Extends.trans (I := StartInv)
    (P := fun x st => lp.Counted x → Has st x (fun L => L.startSubCycle ≤ q.2) ∧
      Has st x fun L => L.startSubCycle ≤ L.endSubCycle)
    (fun hst hp hx => ⟨(hp hx).1.extends_start hst, (hp hx).2.extends_ordered hst⟩) q.1.results
    (fun x hx g st hinv _ => startLifetime_step hcycle (fun hu => hearly hu x hx) hinv) hinv hresults
  exact ⟨hinv', hext.trans hext', hall⟩

/-! ## The second pass -/

/-- What holds between two operations of the second pass. -/
structure EndInv (lp : Loop) (g : Names Tn) (st : LifetimeState) : Prop where
  follows : Follows g st.tn2lt
  wf : st.Wf
  counted : ∀ x, lp.Counted x → x ∈ g.named

theorem EndInv.known {g : Names Tn} (h : EndInv lp g st) {x : Tn} (hx : lp.Counted x) : st.tn2lt x ≠ none :=
  (h.follows.named x).mp (h.counted x hx)

theorem isLoopVariant_iff {ops : List (SwpOp Tn)} {tn : Tn} : isLoopVariant ops tn = true ↔
    isLoopDefined ops tn = true ∧ ∃ o ∈ ops, ∃ p ∈ o.opnds, p.tn = tn := by
  simp only [isLoopVariant, Bool.and_eq_true, List.any_eq_true, decide_eq_true_eq]

theorem endLifetime_uncounted {p : Opnd Tn} (hp : ¬lp.Counted p.tn) (cycle : Nat) (st : LifetimeState) :
    endLifetime lp cycle st p = st := by
  unfold endLifetime operandLifetime
  split_ifs with hclass hreg hded hvar
  all_goals first | rfl | skip
  all_goals exact absurd ⟨⟨by simpa using hreg, by simpa using hded⟩, hclass, (isLoopVariant_iff.mp hvar).1⟩ hp

theorem endLifetime_counted {o : SwpOp Tn} (ho : o ∈ lp.ops) {p : Opnd Tn} (hmem : p ∈ o.opnds) (hp : lp.Counted p.tn)
    (cycle : Nat) (st : LifetimeState) :
    endLifetime lp cycle st p = updateTnLifetime lp.ii cycle (uint8 p.omega) p.tn .operand st := by
  have hvar := isLoopVariant_iff.mpr ⟨hp.defined, o, ho, p, hmem, rfl⟩
  rw [endLifetime, if_pos hp.inClass, operandLifetime, hp.renamed.1, hp.renamed.2, hvar]
  rfl

theorem endLifetime_step {q : SwpOp Tn × Nat} (hq : q.1 ∈ lp.ops) {p : Opnd Tn} (hmem : p ∈ q.1.opnds)
    (hfit : lp.Counted p.tn → useEnd lp.ii q p < 65536) {g : Names Tn} (h : EndInv lp g st) :
    EndInv lp g (endLifetime lp q.2 st p) ∧ Extends st (endLifetime lp q.2 st p) ∧
      (lp.Counted p.tn → Has (endLifetime lp q.2 st p) p.tn fun L => useEnd lp.ii q p ≤ L.endSubCycle) := by
  by_cases hp : lp.Counted p.tn
  · rw [endLifetime_counted hq hmem hp]
    have hext := extends_updateTnLifetime p.tn .operand (fun _ => hfit hp) st
    refine ⟨⟨?_, hext.wf h.wf, h.counted⟩, hext, fun _ => has_update_operand h.wf (hfit hp) p.tn⟩
    rw [update_known (h.known hp)]
    exact h.follows
  · rw [endLifetime_uncounted hp]
    exact ⟨h, Extends.refl st, fun hp' => absurd hp' hp⟩

variable (lp) in
/-- The operand and the result of a same-result operation share a lifetime. -/
def Tied (st : LifetimeState) (o : SwpOp Tn) : Prop :=
  ∀ r y, sameResTns o = some (r, y) → y.isZeroReg = false → lp.Counted r →
    ∃ i, st.tn2lt y = some i ∧ st.tn2lt r = some i

theorem joinOperand_step (o : SwpOp Tn) {g : Names Tn} (h : EndInv lp g st) (hallow : g.AllowsAll (endEvents o)) :
    EndInv lp (g.run (endEvents o)) (joinOperand o st) ∧ Extends st (joinOperand o st) ∧
      Tied lp (joinOperand o st) o := by
  unfold Tied
  rw [joinOperand_eq]
  unfold endEvents tieEvents at hallow ⊢
  generalize sameResTns o = tns at hallow ⊢
  rcases tns with _ | ⟨r, y⟩
  · exact ⟨h, Extends.refl st, fun r y hry => by cases hry⟩
  · dsimp only at hallow ⊢
    split_ifs at hallow ⊢ with hzero
    · refine ⟨h, Extends.refl st, fun r' y' hry hzero' => ?_⟩
      cases hry
      rw [hzero] at hzero'
      cases hzero'
    · obtain ⟨hfollows, hext⟩ := tie_step h.follows hallow.1
      refine ⟨⟨hfollows, hext.wf h.wf, fun x hx => Names.named_run (h.counted x hx) _⟩, hext, fun r' y' hry _ hr => ?_⟩
      cases hry
      obtain ⟨i, hi⟩ := Option.ne_none_iff_exists'.mp (h.known hr)
      have hmem := h.counted r hr
      have hy := hfollows.shared r y (.inr ⟨rfl, rfl, hmem⟩)
      exact ⟨i, hy.symm.trans (hext.kept r i hi), hext.kept r i hi⟩

theorem endOp_step {q : SwpOp Tn × Nat} (hq : q.1 ∈ lp.ops)
    (hfit : ∀ p ∈ q.1.opnds, lp.Counted p.tn → useEnd lp.ii q p < 65536) {g : Names Tn} (h : EndInv lp g st)
    (hallow : g.AllowsAll (endEvents q.1)) :
    EndInv lp (g.run (endEvents q.1)) (endOp lp st q) ∧ Extends st (endOp lp st q) ∧
      (∀ p ∈ q.1.opnds, lp.Counted p.tn → Has (endOp lp st q) p.tn fun L => useEnd lp.ii q p ≤ L.endSubCycle) ∧ Tied lp (endOp lp st q) q.1 := by
  obtain ⟨hinv, hext, htied⟩ := joinOperand_step q.1 h hallow
  obtain ⟨hinv', hext', hall⟩ := Lib.foldl_keeps Extends.refl Extends.trans
    (P := fun (p : Opnd Tn) st => lp.Counted p.tn → Has st p.tn fun L => useEnd lp.ii q p ≤ L.endSubCycle)
    (fun hst hp hx => (hp hx).extends_end hst) (f := endLifetime lp q.2) (l := q.1.opnds)
    (fun p hp st hinv => endLifetime_step hq hp (hfit p hp) hinv) hinv
  refine ⟨hinv', hext.trans hext', hall, fun r y hry hzero hr => ?_⟩
  obtain ⟨i, hy, hr'⟩ := htied r y hry hzero hr
  exact ⟨i, hext'.kept y i hy, hext'.kept r i hr'⟩

/-! ## Epilogue backpatches -/

theorem extends_setAlpha {bp : Tn × Nat} (h : setAlpha lp st bp = some st') : Extends st st' := by
  unfold setAlpha subscript at h
  split_ifs at h with hvar
  · rcases hi : st.tn2lt bp.1 with _ | i <;> rw [hi] at h <;> dsimp only at h <;> split_ifs at h with hlt <;>
      obtain rfl := Option.some_inj.mp h
    · refine ⟨grows_modify st.lt 0 fun L => ?_, fun t i ht => (if_neg ?_).trans ht, fun hwf t i ht => ?_⟩
      · split_ifs <;> exact ⟨le_rfl, le_rfl⟩
      · rintro rfl
        exact absurd (hi.symm.trans ht) (by simp)
      · rw [List.length_modify]
        dsimp only [LifetimeState.map] at ht
        split_ifs at ht
        · cases ht
          exact hlt
        · exact hwf t i ht
    · refine extends_modify st i fun L => ?_
      split_ifs <;> exact ⟨le_rfl, le_rfl⟩
  · obtain rfl := Option.some_inj.mp h
    exact Extends.refl st

/-- The sub-cycle up to which a read of the epilogue keeps a register. -/
def EpilogRead.end_ (ii : Nat) (r : EpilogRead) : Nat := uint16 r.cycle + uint8 r.omega * ii * subcyclesPerCycle

variable (lp) in
/-- The reads of a backpatch that are measured. -/
def IsRead (bp : Tn × Nat) (r : EpilogRead) : Prop :=
  lp.inClass bp.1 = true ∧ isLoopDefined lp.ops r.tn = true ∧ ∃ reads, epilogReads lp bp = some reads ∧ r ∈ reads

theorem backpatchOp_step {bp : Tn × Nat} (hfit : ∀ r, IsRead lp bp r → r.end_ lp.ii < 65536) (hwf : st.Wf)
    (h : backpatchOp lp st bp = some st') : st'.Wf ∧ Extends st st' ∧
      ((lp.inClass bp.1 = true → ∃ reads, epilogReads lp bp = some reads) ∧
        ∀ r, IsRead lp bp r → Has st' r.tn fun L => r.end_ lp.ii ≤ L.endSubCycle) := by
  unfold backpatchOp at h
  split_ifs at h with hclass
  · split at h
    · rename_i st₁ reads halpha hreads
      obtain rfl := Option.some_inj.mp h
      have hext := extends_setAlpha halpha
      have hread : ∀ r ∈ reads, ∀ st : LifetimeState, st.Wf → (readLifetime lp st r).Wf ∧
          Extends st (readLifetime lp st r) ∧ (isLoopDefined lp.ops r.tn = true →
            Has (readLifetime lp st r) r.tn fun L => r.end_ lp.ii ≤ L.endSubCycle) := by
        intro r hr st hwf
        unfold readLifetime
        split_ifs with hdef
        · have hlt := hfit r ⟨hclass, hdef, reads, hreads, hr⟩
          have hext := extends_updateTnLifetime r.tn .operand (fun _ => hlt) st
          exact ⟨hext.wf hwf, hext, fun _ => has_update_operand hwf hlt r.tn⟩
        · exact ⟨hwf, Extends.refl st, fun hdef' => absurd hdef' hdef⟩
      obtain ⟨hwf', hext', hall⟩ := Lib.foldl_keeps (I := LifetimeState.Wf) Extends.refl Extends.trans
        (P := fun (r : EpilogRead) st => isLoopDefined lp.ops r.tn = true →
          Has st r.tn fun L => r.end_ lp.ii ≤ L.endSubCycle)
        (fun hst hr hdef => (hr hdef).extends_end hst) hread (hext.wf hwf)
      refine ⟨hwf', hext.trans hext', fun _ => ⟨reads, hreads⟩, fun r ⟨_, hdef, reads', hreads', hr⟩ => ?_⟩
      obtain rfl := Option.some_inj.mp (hreads.symm.trans hreads')
      exact hall r hr hdef
    · cases h
  · obtain rfl := Option.some_inj.mp h
    exact ⟨hwf, Extends.refl st, fun hclass' => absurd hclass' hclass, fun r hr => absurd hr.1 hclass⟩

theorem kernelRead_eq {m : MveKernel} {bp : Tn × Nat} {kernel : Nat} {r : EpilogRead}
    (h : kernelRead lp m bp kernel = some r) : m.renamedTn bp.1 bp.2 kernel = some r.tn ∧
      r.omega = (kernel + bp.2) / m.kernelUnrollings ∧
      r.cycle = (kernel + bp.2 - m.kernelUnrollings * r.omega + 1) * (lp.ii / m.kernelUnrollings) * subcyclesPerCycle := by
  obtain ⟨tn, htn, rfl⟩ := Option.map_eq_some_iff.mp h
  exact ⟨htn, rfl, rfl⟩

theorem passEnd_le (S k ii z : Nat) :
    (S + 1) * (ii / k * z) ≤ (S - k * (S / k) + 1) * (ii / k) * z + S / k * ii * z := by
  obtain ⟨d, hd⟩ := Nat.exists_eq_add_of_le (Nat.mul_div_le S k)
  have hii : k * (ii / k) ≤ ii := Nat.mul_div_le ii k
  generalize S / k = n at hd ⊢
  generalize ii / k = old_ii at hii ⊢
  subst hd
  rw [Nat.add_sub_cancel_left]
  calc (k * n + d + 1) * (old_ii * z) = (d + 1) * old_ii * z + n * (k * old_ii) * z := by ring
    _ ≤ (d + 1) * old_ii * z + n * ii * z :=
      Nat.add_le_add_left (Nat.mul_le_mul_right z (Nat.mul_le_mul_left n hii)) _

theorem passEnds_reads {bp : Tn × Nat} {reads : List EpilogRead} (h : epilogReads lp bp = some reads) :
    ∀ e ∈ passEnds lp bp, ∃ r ∈ reads, r.tn = e.1 ∧ e.2 ≤ r.cycle + r.omega * lp.ii * subcyclesPerCycle := by
  intro e he
  unfold epilogReads at h
  unfold passEnds at he
  split at h
  · rename_i hnone
    rw [hnone] at he
    obtain rfl := Option.some_inj.mp h
    rw [List.mem_singleton.mp he]
    refine ⟨_, List.mem_singleton_self _, rfl, le_of_eq ?_⟩
    dsimp only
    ring
  · rename_i m hm
    rw [hm] at he
    obtain ⟨kernel, hkernel, hmap⟩ := List.mem_filterMap.mp he
    obtain ⟨tn, htn, rfl⟩ := Option.map_eq_some_iff.mp hmap
    obtain ⟨r, hr, hget⟩ := getElem?_of_mapM h (List.getElem?_range (List.mem_range.mp hkernel))
    obtain ⟨hrtn, homega, hcycle⟩ := kernelRead_eq hr
    rw [htn, Option.some_inj] at hrtn
    refine ⟨r, List.mem_of_getElem? hget, hrtn.symm, ?_⟩
    rw [hcycle, homega]
    exact passEnd_le _ _ _ _

theorem reads_omega {bp : Tn × Nat} {reads : List EpilogRead} (h : epilogReads lp bp = some reads) :
    ∀ r ∈ reads, r.omega ≤ bp.2 := by
  intro r hr
  unfold epilogReads at h
  split at h
  · obtain rfl := Option.some_inj.mp h
    rw [List.mem_singleton.mp hr]
  · rename_i m hm
    obtain ⟨kernel, hkernel, hread⟩ := mem_of_mapM h hr
    rw [(kernelRead_eq hread).2.1]
    have hlt := List.mem_range.mp hkernel
    refine Nat.le_of_lt_succ (Nat.div_lt_of_lt_mul ?_)
    rw [Nat.mul_succ]
    have hle : bp.2 ≤ m.kernelUnrollings * bp.2 := Nat.le_mul_of_pos_left _ (by omega)
    omega

/-! ## Sub-cycles -/

theorem opSubCyclesFrom_wide {ops : List (SwpOp Tn)} {last : Option (Nat × Nat)} {subs : List Nat}
    (hlast : ∀ m c, last = some (m, c) → c < 65536 ∧ (m < 8192 → m * subcyclesPerCycle ≤ c))
    (h : opSubCyclesFrom last ops = some subs) : subs.length = ops.length ∧ ∀ q ∈ ops.zip subs, q.2 < 65536 ∧
      (q.1.startCycle < 8192 → q.1.startCycle * subcyclesPerCycle ≤ q.2) := by
  induction ops generalizing last subs with
  | nil =>
    rw [opSubCyclesFrom, Option.some_inj] at h
    subst h
    exact ⟨rfl, by simp⟩
  | cons o ops ih =>
    rw [opSubCyclesFrom] at h
    split at h
    · exact absurd h (by simp)
    · rename_i cycle hcycle
      obtain ⟨rest, hrest, rfl⟩ := Option.map_eq_some_iff.mp h
      have hhere : cycle < 65536 ∧ (o.startCycle < 8192 → o.startCycle * subcyclesPerCycle ≤ cycle) := by
        unfold nextSubCycle subcyclesPerCycle uint16 at *
        rcases last with _ | ⟨m, c⟩
        · rw [Option.some_inj] at hcycle
          omega
        · have hm := hlast m c rfl
          dsimp only at hcycle
          split_ifs at hcycle with heq hpos <;> rw [Option.some_inj] at hcycle <;> omega
      have hlast' : ∀ m c, some (o.startCycle, cycle) = some (m, c) →
          c < 65536 ∧ (m < 8192 → m * subcyclesPerCycle ≤ c) := fun m c hmc => by cases hmc; exact hhere
      obtain ⟨hlen, hall⟩ := ih hlast' hrest
      refine ⟨congrArg (· + 1) hlen, fun q hq => ?_⟩
      rcases List.mem_cons.mp hq with rfl | hq
      · exact hhere
      · exact hall q hq

theorem opSubCycles_wide {ops : List (SwpOp Tn)} {subs : List Nat} (h : opSubCycles ops = some subs) :
    subs.length = ops.length ∧ ∀ q ∈ ops.zip subs, q.2 < 65536 ∧
      (q.1.startCycle < 8192 → q.1.startCycle * subcyclesPerCycle ≤ q.2) :=
  opSubCyclesFrom_wide (fun m c hmc => by cases hmc) h

section Pairs

variable {subs : List Nat} (hlen : subs.length = lp.ops.length)
include hlen

theorem flatMap_pairs {β : Type} (f : SwpOp Tn → List β) : ((lp.pairs subs).flatMap fun q => f q.1) = lp.ops.flatMap f := by
  have hfst : (lp.pairs subs).map Prod.fst = lp.ops := List.map_fst_zip hlen.ge
  rw [← hfst, List.flatMap_map]

omit hlen in
theorem mem_ops {q : SwpOp Tn × Nat} (hq : q ∈ lp.pairs subs) : q.1 ∈ lp.ops := (List.of_mem_zip hq).1

theorem mem_pairs {o : SwpOp Tn} (ho : o ∈ lp.ops) : ∃ q ∈ lp.pairs subs, q.1 = o := by
  have hfst : (lp.pairs subs).map Prod.fst = lp.ops := List.map_fst_zip hlen.ge
  rw [← hfst] at ho
  exact List.mem_map.mp ho

theorem Loop.Counted.mem {x : Tn} (hx : lp.Counted x) : ∃ q ∈ lp.pairs subs, x ∈ q.1.results := by
  have hdef := hx.defined
  simp only [isLoopDefined, Bool.and_eq_true, List.any_eq_true, decide_eq_true_eq] at hdef
  obtain ⟨-, o, ho, hmem⟩ := hdef
  obtain ⟨q, hq, rfl⟩ := mem_pairs hlen ho
  exact ⟨q, hq, hmem⟩

end Pairs

/-! ## The whole constructor -/

/-- What the two passes over the operations leave behind. -/
structure Passed (lp : Loop) (subs : List Nat) (st : LifetimeState) : Prop where
  wf : st.Wf
  starts : ∀ q ∈ lp.pairs subs, ∀ x ∈ q.1.results, lp.Counted x → Has st x (fun L => L.startSubCycle ≤ q.2) ∧
    Has st x fun L => L.startSubCycle ≤ L.endSubCycle
  ends : ∀ q ∈ lp.pairs subs, ∀ p ∈ q.1.opnds, lp.Counted p.tn → Has st p.tn fun L => useEnd lp.ii q p ≤ L.endSubCycle
  tied : ∀ q ∈ lp.pairs subs, Tied lp st q.1

theorem Tied.extends {o : SwpOp Tn} (h : Tied lp st o) (hst : Extends st st') : Tied lp st' o := by
  intro r y hry hzero hr
  obtain ⟨i, hy, hr'⟩ := h r y hry hzero hr
  exact ⟨i, hst.kept y i hy, hst.kept r i hr'⟩

theorem Passed.extends {subs : List Nat} (h : Passed lp subs st) (hst : Extends st st') : Passed lp subs st' where
  wf := hst.wf h.wf
  starts q hq x hx hc := ⟨(h.starts q hq x hx hc).1.extends_start hst, (h.starts q hq x hx hc).2.extends_ordered hst⟩
  ends q hq p hp hc := (h.ends q hq p hp hc).extends_end hst
  tied q hq := (h.tied q hq).extends hst

variable (lp) in
/-- What the constructor is called with when nothing that it keeps in 16 bits wraps. -/
structure EndsFit (subs : List Nat) : Prop where
  early : ∀ q ∈ lp.pairs subs, q.1.uniqRes = true → ∀ x ∈ q.1.results, lp.Counted x → q.2 ≠ 0
  ends : ∀ q ∈ lp.pairs subs, ∀ p ∈ q.1.opnds, lp.Counted p.tn → useEnd lp.ii q p < 65536
  reads : ∀ bp ∈ lp.backpatches, ∀ r, IsRead lp bp r → r.end_ lp.ii < 65536

theorem passed {subs : List Nat} (hsubs : opSubCycles lp.ops = some subs) (hclean : TiesClean lp)
    (hfit : EndsFit lp subs) :
    Passed lp subs ((lp.pairs subs).foldl (endOp lp)
      ((lp.pairs subs).foldl (startOp lp) { lt := [], tn2lt := fun _ => none })) := by
  obtain ⟨hlen, hwide⟩ := opSubCycles_wide hsubs
  obtain ⟨hclean₁, hclean₂⟩ := Names.allowsAll_append.mp hclean
  rw [← flatMap_pairs hlen] at hclean₁ hclean₂
  rw [← flatMap_pairs hlen endEvents] at hclean₂
  obtain ⟨hinv₁, -, hall₁⟩ := Lib.foldl_follows Extends.refl Extends.trans (I := StartInv)
    (P := fun (q : SwpOp Tn × Nat) st => ∀ x ∈ q.1.results, lp.Counted x →
      Has st x (fun L => L.startSubCycle ≤ q.2) ∧ Has st x fun L => L.startSubCycle ≤ L.endSubCycle)
    (fun hst hp x hx hc => ⟨(hp x hx hc).1.extends_start hst, (hp x hx hc).2.extends_ordered hst⟩) (lp.pairs subs)
    (fun q hq g st hinv hg => startOp_step (hwide q hq).1 (hfit.early q hq) hinv hg)
    (s := { lt := [], tn2lt := fun _ => none }) ⟨Follows.start, fun t i hi => absurd hi (by simp), by simp [AllOrdered]⟩
    hclean₁
  have hinv : EndInv lp (Names.empty.run ((lp.pairs subs).flatMap fun q => startEvents lp q.1))
      ((lp.pairs subs).foldl (startOp lp) { lt := [], tn2lt := fun _ => none }) := by
    refine ⟨hinv₁.follows, hinv₁.wf, fun x hx => (hinv₁.follows.named x).mpr ?_⟩
    obtain ⟨q, hq, hmem⟩ := hx.mem hlen
    obtain ⟨L, hL, -⟩ := (hall₁ q hq x hmem hx).1
    obtain ⟨i, hi, -⟩ := Option.bind_eq_some_iff.mp hL
    rw [hi]
    exact Option.some_ne_none i
  obtain ⟨hinv₂, hext, hall₂⟩ := Lib.foldl_follows Extends.refl Extends.trans (I := EndInv lp)
    (P := fun (q : SwpOp Tn × Nat) st => (∀ p ∈ q.1.opnds, lp.Counted p.tn → Has st p.tn fun L =>
      useEnd lp.ii q p ≤ L.endSubCycle) ∧ Tied lp st q.1)
    (fun hst hp => ⟨fun p hmem hc => (hp.1 p hmem hc).extends_end hst, hp.2.extends hst⟩) (lp.pairs subs)
    (fun q hq g st hinv hg => endOp_step (mem_ops hq) (hfit.ends q hq) hinv hg) hinv hclean₂
  exact ⟨hinv₂.wf, fun q hq x hx hc => ⟨(hall₁ q hq x hx hc).1.extends_start hext,
    (hall₁ q hq x hx hc).2.extends_ordered hext⟩, fun q hq => (hall₂ q hq).1, fun q hq => (hall₂ q hq).2⟩

theorem kernelLifetime_spec {subs : List Nat} (hsubs : opSubCycles lp.ops = some subs) (hclean : TiesClean lp)
    (hfit : EndsFit lp subs) (h : kernelLifetime lp = some st) : Passed lp subs st ∧ ∀ bp ∈ lp.backpatches,
      (lp.inClass bp.1 = true → ∃ reads, epilogReads lp bp = some reads) ∧
        ∀ r, IsRead lp bp r → Has st r.tn fun L => r.end_ lp.ii ≤ L.endSubCycle := by
  have hpassed := passed hsubs hclean hfit
  unfold kernelLifetime at h
  rw [hsubs] at h
  dsimp only at h
  split at h
  · cases h
  · rename_i st₃ hrun
    split_ifs at h
    obtain rfl := Option.some_inj.mp h
    obtain ⟨-, hext, hall⟩ := Lib.foldlM_keeps (I := LifetimeState.Wf) Extends.refl Extends.trans
      (P := fun (bp : Tn × Nat) st => (lp.inClass bp.1 = true → ∃ reads, epilogReads lp bp = some reads) ∧
        ∀ r, IsRead lp bp r → Has st r.tn fun L => r.end_ lp.ii ≤ L.endSubCycle)
      (fun hst hbp => ⟨hbp.1, fun r hr => (hbp.2 r hr).extends_end hst⟩)
      (fun bp hbp st st' hwf hstep => backpatchOp_step (hfit.reads bp hbp) hwf hstep) hpassed.wf hrun
    exact ⟨hpassed.extends hext, hall⟩

theorem exists_subCycles (h : kernelLifetime lp = some st) : ∃ subs, opSubCycles lp.ops = some subs := by
  refine Option.ne_none_iff_exists'.mp fun hnone => ?_
  rw [kernelLifetime, hnone] at h
  cases h

theorem OmegasOk.useEnd_eq (homega : lp.OmegasOk) {subs : List Nat} {q : SwpOp Tn × Nat} (hq : q ∈ lp.pairs subs)
    {p : Opnd Tn} (hp : p ∈ q.1.opnds) : (useEnd lp.ii q p : Int) = q.2 + subcyclesPerCycle * p.omega * lp.ii := by
  obtain ⟨hnonneg, hlt⟩ := homega.opnds q.1 (mem_ops hq) p hp
  unfold useEnd
  push_cast
  rw [uint8_eq hnonneg (by omega)]
  ring

/-- The lifetimes of a loop with clean ties cover every read exactly when the sub-cycles fit. -/
theorem meets_iff_sizes (homega : lp.OmegasOk) (hclean : TiesClean lp) {subs : List Nat}
    (hsubs : opSubCycles lp.ops = some subs) (h : kernelLifetime lp = some st) : Meets lp subs st ↔ Sizes lp subs := by
  obtain ⟨hlen, hwide⟩ := opSubCycles_wide hsubs
  have hmax : ∀ x : Int, uint16 x < 65536 := fun x => by unfold uint16; omega
  constructor
  · intro hmeets
    refine ⟨fun o ho => ?_, fun q hq hu x hx hc hzero => ?_, fun q hq p hp hc => ?_,
      fun bp hbp hclass reads hreads r hr hdef => ?_⟩
    · obtain ⟨q, hq, rfl⟩ := mem_pairs hlen ho
      have hle := hmeets.noWrap.cycles q hq
      have hlt := (hwide q hq).1
      unfold subcyclesPerCycle at hle
      omega
    · have hsub := hmeets.noWrap.early q hq hu x hx hc
      rw [hzero] at hsub
      omega
    · have hend := hmeets.noWrap.ends q hq p hp hc
      have hlt := hmax (useEnd lp.ii q p)
      omega
    · have hend := hmeets.noWrap.reads bp hbp hclass reads hreads r hr hdef
      have hlt := hmax (uint16 r.cycle + r.omega * lp.ii * subcyclesPerCycle : Nat)
      omega
  · intro hsizes
    have homega8 : ∀ bp ∈ lp.backpatches, ∀ reads, epilogReads lp bp = some reads → ∀ r ∈ reads,
        uint8 r.omega = r.omega := by
      intro bp hbp reads hreads r hr
      have hle := reads_omega hreads r hr
      have hlt := homega.backpatches bp hbp
      unfold uint8
      omega
    have hreadEnd : ∀ bp ∈ lp.backpatches, ∀ r, IsRead lp bp r →
        r.end_ lp.ii = r.cycle + r.omega * lp.ii * subcyclesPerCycle ∧ r.end_ lp.ii < 65536 := by
      rintro bp hbp r ⟨hclass, hdef, reads, hreads, hr⟩
      have hlt := hsizes.reads bp hbp hclass reads hreads r hr hdef
      have heq : r.end_ lp.ii = r.cycle + r.omega * lp.ii * subcyclesPerCycle := by
        rw [EpilogRead.end_, homega8 bp hbp reads hreads r hr, uint16_eq (x := r.cycle) (by omega)]
      exact ⟨heq, heq ▸ hlt⟩
    have huse : ∀ q ∈ lp.pairs subs, ∀ p ∈ q.1.opnds, lp.Counted p.tn → useEnd lp.ii q p < 65536 := by
      intro q hq p hp hc
      have hlt := hsizes.ends q hq p hp hc
      have heq := OmegasOk.useEnd_eq homega hq hp
      omega
    obtain ⟨hpassed, hreads⟩ := kernelLifetime_spec hsubs hclean
      ⟨hsizes.early, huse, fun bp hbp r hr => (hreadEnd bp hbp r hr).2⟩ h
    have hend : ∀ q ∈ lp.pairs subs, ∀ p ∈ q.1.opnds, lp.Counted p.tn →
        (uint16 (useEnd lp.ii q p) : Int) = q.2 + subcyclesPerCycle * p.omega * lp.ii := by
      intro q hq p hp hc
      rw [uint16_eq (huse q hq p hp hc), OmegasOk.useEnd_eq homega hq hp]
    have hread : ∀ bp ∈ lp.backpatches, lp.inClass bp.1 = true → ∀ reads, epilogReads lp bp = some reads →
        ∀ r ∈ reads, isLoopDefined lp.ops r.tn = true →
          uint16 (uint16 r.cycle + r.omega * lp.ii * subcyclesPerCycle : Nat) =
            r.cycle + r.omega * lp.ii * subcyclesPerCycle := by
      intro bp hbp hclass reads hreads r hr hdef
      have hlt := hsizes.reads bp hbp hclass reads hreads r hr hdef
      rw [uint16_eq (x := r.cycle) (by omega)]
      exact uint16_eq hlt
    refine ⟨fun q hq x hx hc => (hpassed.starts q hq x hx hc).1, fun q hq p hp hc => ?_,
      fun bp hbp hclass e he hc => ?_, fun x hc => ?_, fun o ho r y hry hzero hr => ?_, ?_⟩
    · obtain ⟨L, hL, hle⟩ := hpassed.ends q hq p hp hc
      exact ⟨L, hL, by rw [← OmegasOk.useEnd_eq homega hq hp]; exact_mod_cast hle⟩
    · obtain ⟨reads, hsome⟩ := (hreads bp hbp).1 hclass
      obtain ⟨r, hr, htn, hle⟩ := passEnds_reads hsome e he
      have hdef : isLoopDefined lp.ops r.tn = true := htn ▸ hc.defined
      have his : IsRead lp bp r := ⟨hclass, hdef, reads, hsome, hr⟩
      obtain ⟨L, hL, hend'⟩ := htn ▸ (hreads bp hbp).2 r his
      exact ⟨L, hL, hle.trans ((hreadEnd bp hbp r his).1 ▸ hend')⟩
    · obtain ⟨q, hq, hmem⟩ := hc.mem hlen
      exact (hpassed.starts q hq x hmem hc).2
    · obtain ⟨q, hq, rfl⟩ := mem_pairs hlen ho
      obtain ⟨i, hy, hr'⟩ := hpassed.tied q hq r y hry hzero hr
      rw [hy, hr']
    · refine ⟨fun q hq => (hwide q hq).2 (hsizes.cycles q.1 (mem_ops hq)), fun q hq hu x hx hc => ?_, hend, hread⟩
      have hne := hsizes.early q hq hu x hx hc
      have hlt := (hwide q hq).1
      unfold uint16
      omega

/-- A value that the operation that defines it also updates, and a unique result that the epilogue reads. -/
def tiedLoop : Loop where
  ops :=
    [{ op := 0, results := [{ number := 10 }], opnds := [{ tn := { number := 10 }, omega := 1 }], sameRes := some 0 },
     { op := 1, results := [{ number := 11 }], opnds := [{ tn := { number := 10 } }], startCycle := 1, uniqRes := true }]
  ii := 2
  backpatches := [({ number := 11 }, 1)]

theorem tiedLoop_clean : TiesClean tiedLoop := by
  refine ⟨fun h => absurd h (Set.notMem_empty _), trivial, trivial, fun _ _ => Relation.EqvGen.refl _, trivial⟩

/-- The loop has lifetimes, and they cover every read. -/
theorem meets_iff_sizes_tiedLoop : ∃ st, kernelLifetime tiedLoop = some st ∧ Meets tiedLoop [0, 8] st := by
  refine ⟨_, rfl, (meets_iff_sizes ⟨by decide, by decide⟩ tiedLoop_clean rfl rfl).mpr
    ⟨by decide, by decide, by decide, fun bp hbp _ reads hreads r hr _ => ?_⟩⟩
  rw [List.mem_singleton.mp hbp] at hreads
  obtain rfl := Option.some_inj.mp hreads
  rw [List.mem_singleton.mp hr]
  decide

/-- A unique result that is defined first in the kernel. -/
def uniqFirst : Loop where
  ops := [{ op := 0, results := [{ number := 10 }], uniqRes := true }]
  ii := 1

/-- The lifetime of a unique result that is defined first in the kernel starts at sub-cycle 65535. -/
theorem not_meets_uniqFirst : ¬∀ (lp : Loop) (subs : List Nat) (st : LifetimeState), lp.OmegasOk →
    opSubCycles lp.ops = some subs → kernelLifetime lp = some st → Meets lp subs st := by
  intro h
  obtain ⟨L, hL, hstart⟩ := (h uniqFirst [0] _ ⟨by decide, by decide⟩ rfl rfl).starts _ (List.mem_singleton_self _)
    { number := 10 } (List.mem_singleton_self _) (by decide)
  obtain rfl := Option.some_inj.mp hL
  exact absurd hstart (by decide)

end Path64.Swp.Intervals

import Path64.Swp.Basic

/-!
# Software pipelining: the steps of measuring lifetimes

`SWP_LIFETIME` measures, in sub-cycles of the modulo schedule, from where to where each loop variant register is live:
a first pass over the operations sets the starts at the definitions, a second one the ends at the uses. The result and
the operand of an `OP_same_res` operation share a lifetime.

* `opSubCycles` : the place of each operation within the kernel;
* `updateTnLifetime`, `addTn` : what a definition, a use and a same-result operation do to the lifetimes;
* `Extends` : a definition makes lifetimes grow, and so does a use that ends before sub-cycle 65536;
* `opSubCyclesFrom_spec` : the sub-cycles of a sorted vector are in its order.
-/

namespace Path64.Swp

/-- A value kept in a `mUINT16`. -/
def uint16 (x : Int) : Nat := (x % 65536).toNat

/-- A value kept in a `UINT16`, which is an `unsigned int`. -/
def uint32 (x : Int) : Nat := (x % 4294967296).toNat

/-- A value kept in a `mUINT8`. -/
def uint8 (x : Int) : Nat := (x % 256).toNat

theorem uint16_eq {x : Nat} (h : x < 65536) : uint16 x = x := by
  unfold uint16
  omega

theorem uint32_eq {x : Nat} (h : x < 4294967296) : uint32 x = x := by
  unfold uint32
  omega

theorem uint8_eq {x : Int} (h : 0 ≤ x) (h' : x < 256) : (uint8 x : Int) = x := by
  unfold uint8
  omega

/-! ## Sub-cycles -/

/-- The sub-cycle of an operation after one of modulo cycle `last.1` that has sub-cycle `last.2`; none when the
assertion on the number of operations in a cycle fails. -/
def nextSubCycle (last : Option (Nat × Nat)) (modulo_cycle : Nat) : Option Nat :=
  match last with
  | some (last_modulo_cycle, last_cycle) =>
    if modulo_cycle = last_modulo_cycle then
      if uint16 (last_cycle + 1) % subcyclesPerCycle > 0 then some (uint16 (last_cycle + 1)) else none
    else some (uint16 (modulo_cycle * subcyclesPerCycle))
  | none => some (uint16 (modulo_cycle * subcyclesPerCycle))

def opSubCyclesFrom : Option (Nat × Nat) → List (SwpOp Tn) → Option (List Nat)
  | _, [] => some []
  | last, o :: ops =>
    match nextSubCycle last o.startCycle with
    | none => none
    | some cycle => (opSubCyclesFrom (some (o.startCycle, cycle)) ops).map (cycle :: ·)

/-- `_op_sub_cycle`. -/
def opSubCycles (ops : List (SwpOp Tn)) : Option (List Nat) := opSubCyclesFrom none ops

/-! ## Lifeness -/

/-- `Is_Loop_Defined`. -/
def isLoopDefined (ops : List (SwpOp Tn)) (tn : Tn) : Bool := tn.isRegister && ops.any fun o => tn ∈ o.results

/-- `Is_Loop_Variant`: defined and used in the loop. -/
def isLoopVariant (ops : List (SwpOp Tn)) (tn : Tn) : Bool :=
  isLoopDefined ops tn && ops.any fun o => o.opnds.any fun p => p.tn = tn

/-! ## The lifetime vector -/

/-- `_lt` and `_tn2lt`. -/
structure LifetimeState where
  lt : List (TnLifetime Tn)
  tn2lt : Tn → Option Nat

/-- `SWP_Result` or `SWP_Operand`. -/
inductive TnType where
  | result
  | operand
deriving DecidableEq, Repr

/-- `_tn2lt[tn] = i`. -/
def LifetimeState.map (st : LifetimeState) (tn : Tn) (i : Nat) : Tn → Option Nat :=
  fun t => if t = tn then some i else st.tn2lt t

/-- `Update_TN_Lifetime`. -/
def updateTnLifetime (ii cycle omega : Nat) (tn : Tn) (type : TnType) (st : LifetimeState) : LifetimeState :=
  match st.tn2lt tn with
  | none =>
    let lt : TnLifetime Tn := match type with
      | .result => { startSubCycle := cycle, endSubCycle := cycle, omega, tns := [tn] }
      | .operand =>
        { startSubCycle := 65535, endSubCycle := uint16 (cycle + omega * ii * subcyclesPerCycle : Nat), omega, tns := [tn] }
    { lt := st.lt ++ [lt], tn2lt := st.map tn st.lt.length }
  | some i =>
    { st with lt := st.lt.modify i fun lt =>
      let lt := match type with
        | .result => if lt.startSubCycle > cycle then { lt with startSubCycle := cycle } else lt
        | .operand =>
          -- the end is cut to 16 bits when it is stored, not when it is compared
          let end_ := uint32 (cycle + omega * ii * subcyclesPerCycle : Nat)
          if lt.endSubCycle < end_ then { lt with endSubCycle := uint16 end_ } else lt
      if lt.omega < omega then { lt with omega } else lt }

/-- `lt.Add_TN (tn)` and `_tn2lt[tn] = i`. -/
def addTn (i : Nat) (tn : Tn) (st : LifetimeState) : LifetimeState :=
  { lt := st.lt.modify i fun lt => if tn ∈ lt.tns then lt else { lt with tns := lt.tns ++ [tn] }
    tn2lt := st.map tn i }

/-- The result and the operand of an `OP_same_res` operation. -/
def sameResTns (o : SwpOp Tn) : Option (Tn × Tn) := do
  let idx ← o.sameRes
  let res_tn ← o.results.head?
  let opr ← o.opnds[idx]?
  some (res_tn, opr.tn)

/-- Before the results: `res_tn` joins the lifetime of `opr_tn`. -/
def joinResult (o : SwpOp Tn) (st : LifetimeState) : LifetimeState :=
  match sameResTns o with
  | none => st
  | some (res_tn, opr_tn) =>
    if opr_tn.isZeroReg then st
    else match st.tn2lt opr_tn with
      | none => st
      | some i => addTn i res_tn st

/-- One result of an operation at sub-cycle `cycle`. -/
def resultLifetime (ii : Nat) (ops : List (SwpOp Tn)) (uniq_res : Bool) (cycle : Nat) (st : LifetimeState) (tn : Tn) :
    LifetimeState :=
  if !tn.isRegister then st
  else if tn.isDedicated then st
  else if isLoopDefined ops tn then
    if uniq_res then
      updateTnLifetime ii cycle 0 tn .operand (updateTnLifetime ii (uint16 ((cycle : Int) - 1)) 0 tn .result st)
    else updateTnLifetime ii cycle 0 tn .result st
  else st

/-- Before the operands: `opr_tn` joins the lifetime of `res_tn`. -/
def joinOperand (o : SwpOp Tn) (st : LifetimeState) : LifetimeState :=
  match sameResTns o with
  | none => st
  | some (res_tn, opr_tn) =>
    if opr_tn.isZeroReg then st
    else match st.tn2lt res_tn with
      | none => st
      | some i => addTn i opr_tn st

/-- One operand of an operation at sub-cycle `cycle`. -/
def operandLifetime (ii : Nat) (ops : List (SwpOp Tn)) (cycle : Nat) (st : LifetimeState) (p : Opnd Tn) :
    LifetimeState :=
  if !p.tn.isRegister then st
  else if p.tn.isDedicated then st
  else if isLoopVariant ops p.tn then updateTnLifetime ii cycle (uint8 p.omega) p.tn .operand st
  else st

/-! ## Lifetimes grow -/

/-- Every lifetime is kept, and may start earlier and end later. -/
def Grows (a b : List (TnLifetime Tn)) : Prop :=
  ∀ (i : Nat) (L : TnLifetime Tn), a[i]? = some L →
    ∃ L', b[i]? = some L' ∧ L'.startSubCycle ≤ L.startSubCycle ∧ L.endSubCycle ≤ L'.endSubCycle

theorem Grows.trans {a b c : List (TnLifetime Tn)} (h : Grows a b) (h' : Grows b c) : Grows a c := by
  intro i L hL
  obtain ⟨L₁, h₁, hs₁, he₁⟩ := h i L hL
  obtain ⟨L₂, h₂, hs₂, he₂⟩ := h' i L₁ h₁
  exact ⟨L₂, h₂, hs₂.trans hs₁, he₁.trans he₂⟩

theorem getElem?_modify_some {a : List (TnLifetime Tn)} {j : Nat} {L : TnLifetime Tn} (hL : a[j]? = some L) (i : Nat)
    (f : TnLifetime Tn → TnLifetime Tn) : (a.modify i f)[j]? = some (if i = j then f L else L) := by
  rw [List.getElem?_modify, hL]
  rfl

theorem grows_modify (a : List (TnLifetime Tn)) (i : Nat) {f : TnLifetime Tn → TnLifetime Tn}
    (hf : ∀ L, (f L).startSubCycle ≤ L.startSubCycle ∧ L.endSubCycle ≤ (f L).endSubCycle) : Grows a (a.modify i f) := by
  intro j L hL
  refine ⟨_, getElem?_modify_some hL i f, ?_⟩
  split_ifs
  · exact hf L
  · exact ⟨le_rfl, le_rfl⟩

/-- Every index in `_tn2lt` is one of the vector. -/
def LifetimeState.Wf (st : LifetimeState) : Prop := ∀ t i, st.tn2lt t = some i → i < st.lt.length

/-- Lifetimes grow and the registers that have one keep it. -/
structure Extends (st st' : LifetimeState) : Prop where
  grows : Grows st.lt st'.lt
  kept : ∀ t i, st.tn2lt t = some i → st'.tn2lt t = some i
  wf : st.Wf → st'.Wf

theorem Extends.refl (st : LifetimeState) : Extends st st :=
  ⟨fun _ L hL => ⟨L, hL, le_rfl, le_rfl⟩, fun _ _ h => h, id⟩

theorem Extends.trans {a b c : LifetimeState} (h : Extends a b) (h' : Extends b c) : Extends a c :=
  ⟨h.grows.trans h'.grows, fun t i ht => h'.kept t i (h.kept t i ht), fun hwf => h'.wf (h.wf hwf)⟩

theorem extends_modify (st : LifetimeState) (i : Nat) {f : TnLifetime Tn → TnLifetime Tn}
    (hf : ∀ L, (f L).startSubCycle ≤ L.startSubCycle ∧ L.endSubCycle ≤ (f L).endSubCycle) :
    Extends st { st with lt := st.lt.modify i f } := by
  refine ⟨grows_modify st.lt i hf, fun _ _ h => h, fun hwf t j ht => ?_⟩
  rw [List.length_modify]
  exact hwf t j ht

/-- A definition makes lifetimes grow, and so does a use whose end fits in 16 bits. -/
theorem extends_updateTnLifetime {ii cycle omega : Nat} (tn : Tn) (type : TnType)
    (hfit : type = .operand → cycle + omega * ii * subcyclesPerCycle < 65536) (st : LifetimeState) :
    Extends st (updateTnLifetime ii cycle omega tn type st) := by
  unfold updateTnLifetime
  split
  · rename_i hnone
    refine ⟨fun i L hL => ⟨L, ?_, le_rfl, le_rfl⟩, fun t i ht => ?_, fun hwf t i ht => ?_⟩
    · rw [List.getElem?_append_left (List.getElem?_eq_some_iff.mp hL).1]
      exact hL
    · refine (if_neg ?_).trans ht
      rintro rfl
      rw [hnone] at ht
      exact absurd ht (by simp)
    · rw [List.length_append, List.length_singleton]
      dsimp only [LifetimeState.map] at ht
      split_ifs at ht
      · cases ht
        omega
      · have := hwf t i ht
        omega
  · refine extends_modify st _ fun L => ?_
    cases type with
    | result => dsimp only; split_ifs <;> (try dsimp only) <;> omega
    | operand =>
      have hlt := hfit rfl
      dsimp only
      rw [uint32_eq (by omega), uint16_eq hlt]
      split_ifs <;> (try dsimp only) <;> omega

/-- The registers that get versions: not constants, not dedicated. -/
def Tn.Renamed (x : Tn) : Prop := x.isRegister = true ∧ x.isDedicated = false

instance (x : Tn) : Decidable x.Renamed := inferInstanceAs (Decidable (_ ∧ _))

theorem grows_addTn (i : Nat) (tn : Tn) (st : LifetimeState) : Grows st.lt (addTn i tn st).lt := by
  refine grows_modify st.lt i fun L => ?_
  split_ifs <;> exact ⟨le_rfl, le_rfl⟩

theorem wf_addTn {i : Nat} {tn : Tn} {st : LifetimeState} (hwf : st.Wf) (hi : i < st.lt.length) : (addTn i tn st).Wf := by
  intro t j ht
  have hlen : (addTn i tn st).lt.length = st.lt.length := List.length_modify _ _ _
  rw [hlen]
  dsimp only [addTn, LifetimeState.map] at ht
  split_ifs at ht
  · cases ht
    exact hi
  · exact hwf t j ht

/-- The sub-cycle up to which operand `p` of the operation `q` keeps its value, counted from the pass of its
definition. -/
def useEnd (ii : Nat) (q : SwpOp Tn × Nat) (p : Opnd Tn) : Nat := q.2 + uint8 p.omega * ii * subcyclesPerCycle

/-! ## Sub-cycles are in order -/

theorem nextSubCycle_spec {last : Option (Nat × Nat)} {modulo_cycle cycle : Nat}
    (hmax : modulo_cycle * subcyclesPerCycle + subcyclesPerCycle ≤ 65536)
    (hlast : ∀ m c, last = some (m, c) → c / subcyclesPerCycle = m ∧ m ≤ modulo_cycle)
    (h : nextSubCycle last modulo_cycle = some cycle) :
    cycle / subcyclesPerCycle = modulo_cycle ∧ ∀ m c, last = some (m, c) → c < cycle := by
  unfold nextSubCycle subcyclesPerCycle uint16 at *
  rcases last with _ | ⟨m, c⟩
  · rw [Option.some_inj] at h
    exact ⟨by omega, by simp⟩
  · obtain ⟨hc, hm⟩ := hlast m c rfl
    dsimp only at h
    have hcycle : cycle / 8 = modulo_cycle ∧ c < cycle := by
      split_ifs at h with heq hpos <;> rw [Option.some_inj] at h <;> omega
    refine ⟨hcycle.1, fun m' c' heq => ?_⟩
    cases heq
    exact hcycle.2

theorem opSubCyclesFrom_spec {ops : List (SwpOp Tn)} {last : Option (Nat × Nat)} {subs : List Nat}
    (hlt : ∀ o ∈ ops, o.startCycle < 8192)
    (hsorted : ops.Pairwise fun o o' => o.startCycle ≤ o'.startCycle)
    (hlast : ∀ m c, last = some (m, c) → c / subcyclesPerCycle = m ∧ ∀ o ∈ ops, m ≤ o.startCycle)
    (h : opSubCyclesFrom last ops = some subs) :
    subs.length = ops.length ∧ ((ops.zip subs).Pairwise fun q q' => q.2 < q'.2) ∧
      ∀ q ∈ ops.zip subs, q.2 / subcyclesPerCycle = q.1.startCycle ∧ ∀ m c, last = some (m, c) → c < q.2 := by
  induction ops generalizing last subs with
  | nil =>
    rw [opSubCyclesFrom, Option.some_inj] at h
    subst h
    exact ⟨rfl, List.Pairwise.nil, by simp⟩
  | cons o ops ih =>
    rw [opSubCyclesFrom] at h
    split at h
    · exact absurd h (by simp)
    · rename_i cycle hcycle
      obtain ⟨rest, hrest, rfl⟩ := Option.map_eq_some_iff.mp h
      obtain ⟨hle, hsorted⟩ := List.pairwise_cons.mp hsorted
      have ho := hlt o List.mem_cons_self
      have hhere := nextSubCycle_spec (by unfold subcyclesPerCycle at *; omega)
        (fun m c hmc => ⟨(hlast m c hmc).1, (hlast m c hmc).2 o List.mem_cons_self⟩) hcycle
      obtain ⟨hlen, hpair, hspec⟩ := ih (fun o' ho' => hlt o' (List.mem_cons_of_mem _ ho')) hsorted
        (fun m c hmc => by cases hmc; exact ⟨hhere.1, hle⟩) hrest
      have hafter : ∀ q ∈ ops.zip rest, cycle < q.2 := fun q hq => (hspec q hq).2 _ _ rfl
      rw [List.zip_cons_cons]
      refine ⟨by rw [List.length_cons, List.length_cons, hlen], List.pairwise_cons.mpr ⟨hafter, hpair⟩, fun q hq => ?_⟩
      rcases List.mem_cons.mp hq with rfl | hq
      · exact hhere
      · exact ⟨(hspec q hq).1, fun m c hmc => (hhere.2 m c hmc).trans (hafter q hq)⟩

end Path64.Swp

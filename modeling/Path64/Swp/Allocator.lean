import Path64.Swp.Basic

/-!
# Software pipelining: registers for the unrolled kernel

`SWP_ALLOCATOR` gives each loop invariant a register of its own and then, in the order of their start, each lifetime
the first register that no interfering lifetime before it has taken. Lifetimes repeat every `8 * kii` sub-cycles.

* `interferes` : the comparison of `SWP_DIST`;
* `interferes_iff` : of two lifetimes that hold one sub-cycle, it misses those that touch;
* `interferes_of_overlaps` : it finds every other pair of lifetimes that overlap in the cyclic schedule;
* `allocateVariants_spec`, `allocateInvariants_spec` : what one register class is given;
* `allocate_sound` : a successful allocation has no clash, when no value dies where another is born beside it;
* `allocate_deadResult` : two results of one operation, one of them never read, share a register.
-/

namespace Path64.Swp

/-! ## Register sets -/

/-- The registers of the target, by register class. -/
structure RegisterFile where
  classCount : Nat
  allocatable : Nat → Finset Nat
  callerSaves : Nat → Finset Nat

/-- `FOR_ALL_ISA_REGISTER_CLASS`. -/
def RegisterFile.classes (rf : RegisterFile) : List Nat := List.range' 1 rf.classCount

/-- `REGISTER_SET_Choose`: the least register of a set, `REGISTER_UNDEFINED` when it is empty. -/
def registerSetChoose (s : Finset Nat) : Option Nat := if h : s.Nonempty then some (s.min' h) else none

/-- A caller saved register of the set if there is one, else any. -/
def chooseRegister (rf : RegisterFile) (rclass : Nat) (s : Finset Nat) : Option Nat :=
  (registerSetChoose (s ∩ rf.callerSaves rclass)).or (registerSetChoose s)

theorem registerSetChoose_mem {s : Finset Nat} {r : Nat} (h : registerSetChoose s = some r) : r ∈ s := by
  unfold registerSetChoose at h
  split_ifs at h with hne
  rw [← Option.some_inj.mp h]
  exact s.min'_mem hne

theorem chooseRegister_mem {rf : RegisterFile} {rclass : Nat} {s : Finset Nat} {r : Nat}
    (h : chooseRegister rf rclass s = some r) : r ∈ s := by
  rcases Option.or_eq_some_iff.mp h with hsave | ⟨-, hany⟩
  · exact (Finset.mem_inter.mp (registerSetChoose_mem hsave)).1
  · exact registerSetChoose_mem hany

/-! ## Interference -/

namespace TnLifetime

variable (a b : TnLifetime Tn)

/-- `TN_is_dedicated (lt.Get_TN (0))`. -/
def isDedicated : Bool := (a.tns.head?.map Tn.isDedicated).getD false

/-- `SORT_BY_LT_START_TIME`. -/
def startsBefore : Bool :=
  if a.startSubCycle < b.startSubCycle then true
  else if a.startSubCycle > b.startSubCycle then false
  else if a.endSubCycle < b.endSubCycle then true
  else false

/-- The entry that `SWP_DIST` computes for two lifetimes of a kernel of `kii` cycles. -/
def interferes (kii : Nat) : Bool :=
  let d1 := (a.endSubCycle : Int) - b.startSubCycle
  let d2 := (b.endSubCycle : Int) - a.startSubCycle
  let cycle := (kii : Int) * subcyclesPerCycle
  (d1 > 0 && d2 > 0) || d1 > cycle || d2 > cycle

/-- The sub-cycles at which the value is held: from its definition up to its last read, which may give the register
away; the defining sub-cycle counts even if the value is never read. -/
def LiveAt (x : Int) : Prop := (a.startSubCycle : Int) ≤ x ∧ (x < a.endSubCycle ∨ x = a.startSubCycle)

/-- Some instances of the two lifetimes, whole kernel passes apart, share a live point. -/
def Overlaps (kii : Nat) : Prop := ∃ m x : Int, a.LiveAt x ∧ b.LiveAt (x - m * (kii * subcyclesPerCycle : Nat))

/-- The range of a lifetime in a kernel of `kii` cycles. -/
structure InRange (kii : Nat) : Prop where
  start_lt : a.startSubCycle < kii * subcyclesPerCycle
  start_le : a.startSubCycle ≤ a.endSubCycle
  end_le : a.endSubCycle ≤ a.startSubCycle + kii * subcyclesPerCycle

/-- One lifetime ends where the other begins, and that one ends at most a kernel pass after the start of the first. -/
def Touches (kii : Nat) : Prop :=
  (a.endSubCycle = b.startSubCycle ∧ b.endSubCycle ≤ a.startSubCycle + kii * subcyclesPerCycle) ∨
    (b.endSubCycle = a.startSubCycle ∧ a.endSubCycle ≤ b.startSubCycle + kii * subcyclesPerCycle)

instance (kii : Nat) : Decidable (a.Touches b kii) := inferInstanceAs (Decidable (_ ∨ _))

variable {a b} {kii : Nat}

theorem interferes_comm : a.interferes b kii = b.interferes a kii := by
  simp only [interferes]
  rw [Bool.and_comm, Bool.or_assoc, Bool.or_assoc]
  congr 1
  exact Bool.or_comm _ _

/-- Two lifetimes that both hold a sub-cycle are found by `SWP_DIST` unless they touch. -/
theorem interferes_iff {t : Nat} (ha : a.startSubCycle ≤ t ∧ t ≤ a.endSubCycle)
    (hb : b.startSubCycle ≤ t ∧ t ≤ b.endSubCycle) : a.interferes b kii = true ↔ ¬ a.Touches b kii := by
  simp only [interferes, Touches, Bool.or_eq_true, Bool.and_eq_true, decide_eq_true_eq]
  rw [show (kii : Int) * subcyclesPerCycle = ((kii * subcyclesPerCycle : Nat) : Int) by push_cast; ring]
  omega

/-- The test of `SWP_DIST` finds every overlap of lifetimes that do not begin together, one of them ending there. -/
theorem interferes_of_overlaps (ha : a.InRange kii) (hb : b.InRange kii)
    (htouch : a.startSubCycle = b.startSubCycle → ¬ a.Touches b kii) (h : a.Overlaps b kii) :
    a.interferes b kii = true := by
  by_cases heq : a.startSubCycle = b.startSubCycle
  · exact (interferes_iff ⟨le_rfl, ha.start_le⟩ ⟨heq.ge, heq ▸ hb.start_le⟩).mpr (htouch heq)
  obtain ⟨m, x, ⟨hax, hax'⟩, hbx, hbx'⟩ := h
  obtain ⟨hsa, hsea, hea⟩ := ha
  obtain ⟨hsb, hseb, heb⟩ := hb
  simp only [interferes, Bool.or_eq_true, Bool.and_eq_true, decide_eq_true_eq]
  rw [show (kii : Int) * subcyclesPerCycle = ((kii * subcyclesPerCycle : Nat) : Int) by push_cast; ring]
  generalize kii * subcyclesPerCycle = cycle at *
  rcases lt_trichotomy m 0 with hm | rfl | hm
  · by_cases hm' : m = -1
    · subst hm'
      omega
    · have hle : m * (cycle : Int) ≤ -2 * cycle := by
        apply mul_le_mul_of_nonneg_right (by omega) (by omega)
      omega
  · omega
  · by_cases hm' : m = 1
    · subst hm'
      omega
    · have hle : 2 * (cycle : Int) ≤ m * cycle := by
        apply mul_le_mul_of_nonneg_right (by omega) (by omega)
      omega

end TnLifetime

/-! ## Loop invariants -/

/-- `_free_register`, `_reg_assign` and `_register_count`. -/
structure AllocState where
  freeRegister : Finset Nat
  regAssign : Tn → Option Nat
  registerCount : Nat → Nat

/-- `_reg_assign[tn] = reg` for each of `tns`. -/
def assignRegister (regAssign : Tn → Option Nat) (tns : List Tn) (reg : Nat) : Tn → Option Nat :=
  fun tn => if tn ∈ tns then some reg else regAssign tn

/-- The invariants that are given a register of class `rclass`. -/
def isAllocated (rclass : Nat) (tn : Tn) : Prop := tn.isDedicated = false ∧ tn.registerClass = rclass

instance (rclass : Nat) (tn : Tn) : Decidable (isAllocated rclass tn) := inferInstanceAs (Decidable (_ ∧ _))

/-- `Allocate_Loop_Invariant`, over the members of the set of invariants. -/
def allocateLoopInvariant (rf : RegisterFile) (rclass : Nat) : List Tn → AllocState → Option AllocState
  | [], st => some st
  | tn :: tns, st =>
    if tn.isDedicated then allocateLoopInvariant rf rclass tns st
    else if tn.registerClass ≠ rclass then allocateLoopInvariant rf rclass tns st
    else match chooseRegister rf rclass st.freeRegister with
      | none => none
      | some reg => allocateLoopInvariant rf rclass tns
          { st with
            regAssign := assignRegister st.regAssign [tn] reg
            freeRegister := st.freeRegister.erase reg }

/-- What the invariants of one class have been given between two states. -/
structure InvariantsAllocated (rclass : Nat) (tns : List Tn) (st st' : AllocState) : Prop where
  free_subset : st'.freeRegister ⊆ st.freeRegister
  given : ∀ tn ∈ tns, isAllocated rclass tn →
    ∃ r ∈ st.freeRegister, r ∉ st'.freeRegister ∧ st'.regAssign tn = some r
  distinct : ∀ tn ∈ tns, ∀ tn' ∈ tns, isAllocated rclass tn → isAllocated rclass tn' → tn ≠ tn' →
    st'.regAssign tn ≠ st'.regAssign tn'
  frame : ∀ tn, (tn ∈ tns → ¬ isAllocated rclass tn) → st'.regAssign tn = st.regAssign tn

theorem InvariantsAllocated.skip {rclass : Nat} {tn : Tn} {tns : List Tn} {st st' : AllocState}
    (h : InvariantsAllocated rclass tns st st') (hskip : ¬ isAllocated rclass tn) :
    InvariantsAllocated rclass (tn :: tns) st st' := by
  have hmem : ∀ t ∈ tn :: tns, isAllocated rclass t → t ∈ tns := by
    intro t ht hall
    rcases List.mem_cons.mp ht with rfl | ht
    · exact absurd hall hskip
    · exact ht
  refine ⟨h.free_subset, fun t ht hall => h.given t (hmem t ht hall) hall, ?_, fun t ht => ?_⟩
  · intro t ht t' ht' hall hall'
    exact h.distinct t (hmem t ht hall) t' (hmem t' ht' hall') hall hall'
  · exact h.frame t fun hin => ht (List.mem_cons_of_mem _ hin)

theorem InvariantsAllocated.cons {rclass reg : Nat} {tn : Tn} {tns : List Tn} {st st' : AllocState}
    (hreg : reg ∈ st.freeRegister) (htn : isAllocated rclass tn)
    (h : InvariantsAllocated rclass tns
      { st with
        regAssign := assignRegister st.regAssign [tn] reg
        freeRegister := st.freeRegister.erase reg } st') :
    InvariantsAllocated rclass (tn :: tns) st st' := by
  have hsub : st'.freeRegister ⊆ st.freeRegister.erase reg := h.free_subset
  have hkept : ∀ t ∈ tn :: tns, ¬ t ∈ tns → st'.regAssign t = some reg := by
    intro t ht hnot
    have heq : t = tn := (List.mem_cons.mp ht).resolve_right hnot
    rw [h.frame t fun hin => absurd hin hnot, heq]
    exact if_pos (List.mem_singleton.mpr rfl)
  have hother : ∀ t ∈ tns, isAllocated rclass t → st'.regAssign t ≠ some reg := by
    intro t ht hall heq
    obtain ⟨r, hr, -, hassign⟩ := h.given t ht hall
    rw [heq, Option.some_inj] at hassign
    exact (Finset.mem_erase.mp hr).1 hassign.symm
  refine ⟨hsub.trans (Finset.erase_subset _ _), fun t ht hall => ?_, ?_, fun t ht => ?_⟩
  · by_cases hin : t ∈ tns
    · obtain ⟨r, hr, hr', hassign⟩ := h.given t hin hall
      exact ⟨r, Finset.mem_of_mem_erase hr, hr', hassign⟩
    · exact ⟨reg, hreg, fun hin' => Finset.notMem_erase reg _ (hsub hin'), hkept t ht hin⟩
  · intro t ht t' ht' hall hall' hne
    by_cases hin : t ∈ tns <;> by_cases hin' : t' ∈ tns
    · exact h.distinct t hin t' hin' hall hall' hne
    · rw [hkept t' ht' hin']
      exact hother t hin hall
    · rw [hkept t ht hin]
      exact (hother t' hin' hall').symm
    · exact absurd (((List.mem_cons.mp ht).resolve_right hin).trans
        ((List.mem_cons.mp ht').resolve_right hin').symm) hne
  · rw [h.frame t fun hin => ht (List.mem_cons_of_mem _ hin)]
    refine if_neg fun hin => ?_
    rw [List.mem_singleton] at hin
    exact ht (hin ▸ List.mem_cons_self) (hin ▸ htn)

theorem allocateLoopInvariant_spec {rf : RegisterFile} {rclass : Nat} {tns : List Tn} {st st' : AllocState}
    (h : allocateLoopInvariant rf rclass tns st = some st') : InvariantsAllocated rclass tns st st' := by
  induction tns generalizing st with
  | nil =>
    rw [allocateLoopInvariant, Option.some_inj] at h
    subst h
    exact ⟨subset_rfl, by simp, by simp, fun _ _ => rfl⟩
  | cons tn tns ih =>
    rw [allocateLoopInvariant] at h
    split_ifs at h with hded hclass
    · exact (ih h).skip fun hall => by simp [isAllocated, hded] at hall
    · exact (ih h).skip fun hall => hclass hall.2
    · split at h
      · exact absurd h (by simp)
      · rename_i reg hreg
        exact (ih h).cons (chooseRegister_mem hreg) ⟨Bool.eq_false_of_not_eq_true hded, not_not.mp hclass⟩

/-! ## Loop variants -/

/-- `std::sort` by `SORT_BY_LT_START_TIME`: the order of lifetimes that start and end together is not determined. -/
structure StartTimeSort where
  sort : List (TnLifetime Tn) → List (TnLifetime Tn)
  perm : ∀ lts, (sort lts).Perm lts
  sorted : ∀ lts, (sort lts).Pairwise fun a b => b.startsBefore a = false

section Variants

variable (kii : Nat) (lts : List (TnLifetime Tn))

/-- The matrix of `SWP_DIST`: row `i` is filled to the right of the diagonal, and mirrored, unless lifetime `i` is
that of a dedicated register. -/
def swpDist (x y : Fin lts.length) : Bool :=
  if x < y then !(lts.get x).isDedicated && (lts.get x).interferes (lts.get y) kii
  else if y < x then !(lts.get y).isDedicated && (lts.get y).interferes (lts.get x) kii
  else false

/-- `_lt_register_set` beside the registers that are free and assigned. -/
structure VariantState where
  freeRegister : Finset Nat
  regAssign : Tn → Option Nat
  ltRegisterSet : Fin lts.length → Finset Nat

variable {lts}

/-- `Update_Free_Register_Set`. -/
def updateFreeRegisterSet (selected_lt : Fin lts.length) (selected_loc : Nat) (st : VariantState lts) :
    VariantState lts :=
  { st with
    ltRegisterSet := fun j =>
      if j = selected_lt then st.ltRegisterSet j ∩ {selected_loc}
      else if selected_lt < j ∧ swpDist kii lts selected_lt j = true then (st.ltRegisterSet j).erase selected_loc
      else st.ltRegisterSet j
    freeRegister := st.freeRegister.erase selected_loc }

/-- The loop of `Allocate_Loop_Variant` over the lifetimes still to be allocated. -/
def allocateVariants (rf : RegisterFile) (rclass : Nat) : List (Fin lts.length) → VariantState lts →
    Option (VariantState lts)
  | [], st => some st
  | selected_lt :: todo, st =>
    if (lts.get selected_lt).isDedicated then allocateVariants rf rclass todo st
    else match chooseRegister rf rclass (st.ltRegisterSet selected_lt) with
      | none => none
      | some selected_loc => allocateVariants rf rclass todo
          (updateFreeRegisterSet kii selected_lt selected_loc
            { st with regAssign := assignRegister st.regAssign (lts.get selected_lt).tns selected_loc })

/-- What the lifetimes `todo` have been given between two states. The location of a lifetime is the one register
left in its set. -/
structure VariantsAllocated (todo : List (Fin lts.length)) (st st' : VariantState lts) : Prop where
  subset : ∀ j, st'.ltRegisterSet j ⊆ st.ltRegisterSet j
  kept : ∀ j, (∀ i ∈ todo, j < i) → st'.ltRegisterSet j = st.ltRegisterSet j
  location : ∀ i ∈ todo, (lts.get i).isDedicated = false → ∃ loc, st'.ltRegisterSet i = {loc} ∧
    (∀ j, i < j → swpDist kii lts i j = true → loc ∉ st'.ltRegisterSet j) ∧
    ∀ tn ∈ (lts.get i).tns, (∀ j ∈ todo, (lts.get j).isDedicated = false → j ≠ i → tn ∉ (lts.get j).tns) →
      st'.regAssign tn = some loc
  frame : ∀ tn, (∀ i ∈ todo, (lts.get i).isDedicated = false → tn ∉ (lts.get i).tns) →
    st'.regAssign tn = st.regAssign tn

variable {kii}

theorem VariantsAllocated.skip {i : Fin lts.length} {todo : List (Fin lts.length)} {st st' : VariantState lts}
    (h : VariantsAllocated kii todo st st') (hded : (lts.get i).isDedicated = true) :
    VariantsAllocated kii (i :: todo) st st' := by
  refine ⟨h.subset, fun j hj => h.kept j fun k hk => hj k (List.mem_cons_of_mem _ hk), fun k hk hplain => ?_,
    fun tn htn => h.frame tn fun k hk => htn k (List.mem_cons_of_mem _ hk)⟩
  rcases List.mem_cons.mp hk with rfl | hk
  · rw [hded] at hplain
    exact absurd hplain (by decide)
  · obtain ⟨loc, hset, hout, hassign⟩ := h.location k hk hplain
    exact ⟨loc, hset, hout, fun tn htn hother =>
      hassign tn htn fun j hj => hother j (List.mem_cons_of_mem _ hj)⟩

theorem VariantsAllocated.cons {i : Fin lts.length} {todo : List (Fin lts.length)} {st st' : VariantState lts}
    {loc : Nat} (hi : (lts.get i).isDedicated = false) (hloc : loc ∈ st.ltRegisterSet i) (hlt : ∀ j ∈ todo, i < j)
    (h : VariantsAllocated kii todo (updateFreeRegisterSet kii i loc
      { st with regAssign := assignRegister st.regAssign (lts.get i).tns loc }) st') :
    VariantsAllocated kii (i :: todo) st st' := by
  have hupdate : ∀ j, (updateFreeRegisterSet kii i loc
      { st with regAssign := assignRegister st.regAssign (lts.get i).tns loc }).ltRegisterSet j ⊆
      st.ltRegisterSet j := by
    intro j
    simp only [updateFreeRegisterSet]
    split_ifs
    · exact Finset.inter_subset_left
    · exact Finset.erase_subset _ _
    · exact subset_rfl
  refine ⟨fun j => (h.subset j).trans (hupdate j), fun j hj => ?_, fun k hk hplain => ?_, fun tn htn => ?_⟩
  · have hji := hj i List.mem_cons_self
    rw [h.kept j fun k hk => hj k (List.mem_cons_of_mem _ hk)]
    simp only [updateFreeRegisterSet]
    rw [if_neg hji.ne, if_neg fun hc => absurd hc.1 (not_lt_of_gt hji)]
  · rcases List.mem_cons.mp hk with rfl | hk
    · refine ⟨loc, ?_, fun j hij hdist hin => ?_, fun tn htn hother => ?_⟩
      · rw [h.kept k hlt]
        simp only [updateFreeRegisterSet, if_true]
        exact Finset.inter_eq_right.mpr (Finset.singleton_subset_iff.mpr hloc)
      · have hmem := h.subset j hin
        simp only [updateFreeRegisterSet] at hmem
        rw [if_neg hij.ne', if_pos ⟨hij, hdist⟩] at hmem
        exact Finset.notMem_erase _ _ hmem
      · rw [h.frame tn fun j hj hplain => hother j (List.mem_cons_of_mem _ hj) hplain (hlt j hj).ne']
        exact if_pos htn
    · obtain ⟨loc', hset, hout, hassign⟩ := h.location k hk hplain
      exact ⟨loc', hset, hout, fun tn htn hother =>
        hassign tn htn fun j hj => hother j (List.mem_cons_of_mem _ hj)⟩
  · rw [h.frame tn fun k hk => htn k (List.mem_cons_of_mem _ hk)]
    exact if_neg (htn i List.mem_cons_self hi)

theorem allocateVariants_spec {rf : RegisterFile} {rclass : Nat} {todo : List (Fin lts.length)}
    {st st' : VariantState lts} (hsorted : todo.Pairwise (· < ·))
    (h : allocateVariants kii rf rclass todo st = some st') : VariantsAllocated kii todo st st' := by
  induction todo generalizing st with
  | nil =>
    rw [allocateVariants, Option.some_inj] at h
    subst h
    exact ⟨fun _ => subset_rfl, fun _ _ => rfl, by simp, fun _ _ => rfl⟩
  | cons i todo ih =>
    obtain ⟨hlt, hsorted⟩ := List.pairwise_cons.mp hsorted
    rw [allocateVariants] at h
    split_ifs at h with hded
    · exact (ih hsorted h).skip hded
    · split at h
      · exact absurd h (by simp)
      · rename_i loc hloc
        exact (ih hsorted h).cons (Bool.eq_false_of_not_eq_true hded) (chooseRegister_mem hloc) hlt

end Variants

/-- `Allocate_Loop_Variant`, by start time and first fit, which are the only order and fit implemented. -/
def allocateLoopVariant (sorter : StartTimeSort) (kii : Nat) (rf : RegisterFile) (rclass : Nat)
    (lts : List (TnLifetime Tn)) (st : AllocState) : Option AllocState :=
  (allocateVariants kii rf rclass (List.finRange (sorter.sort lts).length)
    { freeRegister := st.freeRegister
      regAssign := st.regAssign
      ltRegisterSet := fun _ => st.freeRegister }).map
    fun vs => { st with freeRegister := vs.freeRegister, regAssign := vs.regAssign }

/-- Lifetimes that interfere have different registers. -/
def GivenApart (kii : Nat) (regAssign : Tn → Option Nat) (x y : TnLifetime Tn) : Prop :=
  x.isDedicated = false → y.isDedicated = false → x.interferes y kii = true →
    ∀ tn ∈ x.tns, ∀ tn' ∈ y.tns, regAssign tn ≠ regAssign tn'

instance (kii : Nat) (regAssign : Tn → Option Nat) : Std.Symm (GivenApart kii regAssign) where
  symm x y h := by
    intro hdy hdx hinter tn htn tn' htn'
    rw [TnLifetime.interferes_comm] at hinter
    exact (h hdx hdy hinter tn' htn' tn htn).symm

/-- What the lifetimes of one class are given: one register each, of those that were free, and different ones if they
interfere. -/
structure LifetimesAllocated (kii : Nat) (lts : List (TnLifetime Tn)) (st st' : AllocState) : Prop where
  given : ∀ x ∈ lts, x.isDedicated = false → ∃ r ∈ st.freeRegister, ∀ tn ∈ x.tns, st'.regAssign tn = some r
  apart : lts.Pairwise (GivenApart kii st'.regAssign)
  frame : ∀ tn, (∀ x ∈ lts, x.isDedicated = false → tn ∉ x.tns) → st'.regAssign tn = st.regAssign tn

/-- No register stands in both of two lifetimes that are given registers. -/
def DisjointTns (x y : TnLifetime Tn) : Prop := x.isDedicated = false → y.isDedicated = false → x.tns.Disjoint y.tns

theorem allocateLoopVariant_spec {sorter : StartTimeSort} {kii : Nat} {rf : RegisterFile} {rclass : Nat}
    {lts : List (TnLifetime Tn)} {st st' : AllocState} (hdisjoint : lts.Pairwise DisjointTns)
    (h : allocateLoopVariant sorter kii rf rclass lts st = some st') : LifetimesAllocated kii lts st st' := by
  have hperm := sorter.perm lts
  obtain ⟨vs, hvs, rfl⟩ := Option.map_eq_some_iff.mp h
  have hspec := allocateVariants_spec (List.pairwise_lt_finRange _) hvs
  have hsym : ∀ {x y : TnLifetime Tn}, DisjointTns x y → DisjointTns y x := fun hxy hy hx => (hxy hx hy).symm
  rw [← hperm.pairwise_iff hsym, List.pairwise_iff_get] at hdisjoint
  -- the location of a lifetime is the register of all its registers, since no other lifetime lists them
  have hloc : ∀ i : Fin (sorter.sort lts).length, ((sorter.sort lts).get i).isDedicated = false →
      ∃ loc, vs.ltRegisterSet i = {loc} ∧
        (∀ j, i < j → swpDist kii (sorter.sort lts) i j = true → loc ∉ vs.ltRegisterSet j) ∧
        ∀ tn ∈ ((sorter.sort lts).get i).tns, vs.regAssign tn = some loc := by
    intro i hplain
    obtain ⟨loc, hset, hout, hassign⟩ := hspec.location i (List.mem_finRange i) hplain
    refine ⟨loc, hset, hout, fun tn htn => hassign tn htn fun j _ hplain' hne => ?_⟩
    rcases lt_or_gt_of_ne hne with hlt | hlt
    · exact fun hin => hdisjoint j i hlt hplain' hplain hin htn
    · exact fun hin => hdisjoint i j hlt hplain hplain' htn hin
  refine ⟨fun x hx hplain => ?_, ?_, fun tn htn => ?_⟩
  · obtain ⟨i, rfl⟩ := List.mem_iff_get.mp (hperm.mem_iff.mpr hx)
    obtain ⟨loc, hset, -, hassign⟩ := hloc i hplain
    refine ⟨loc, hspec.subset i ?_, hassign⟩
    rw [hset]
    exact Finset.mem_singleton_self loc
  · rw [← hperm.pairwise_iff (Std.Symm.symm _ _), List.pairwise_iff_get]
    intro i j hij hi hj hinter tn htn tn' htn' heq
    obtain ⟨loc, -, hout, hassign⟩ := hloc i hi
    obtain ⟨loc', hset', -, hassign'⟩ := hloc j hj
    replace heq : vs.regAssign tn = vs.regAssign tn' := heq
    rw [hassign tn htn, hassign' tn' htn', Option.some_inj] at heq
    refine hout j hij ?_ ?_
    · rw [swpDist, if_pos hij, hi, hinter]
      rfl
    · rw [hset', heq]
      exact Finset.mem_singleton_self loc'
  · exact hspec.frame tn fun i _ => htn _ (hperm.mem_iff.mp (List.get_mem _ i))

/-! ## All register classes -/

/-- The unrolled kernel as the allocator sees it. -/
structure Kernel where
  kii : Nat
  /-- The lifetimes that `SWP_LIFETIME` computes for a register class. -/
  lifetimes : Nat → List (TnLifetime Tn)
  invariants : List Tn
  /-- The results that are written, each with the sub-cycle of its operation. -/
  results : List (Nat × Tn)
  inRange : ∀ c, ∀ lt ∈ lifetimes c, lt.InRange kii
  /-- The lifetime of a result reaches over the operation that defines it. -/
  result_mem : ∀ r ∈ results, ∃ lt ∈ lifetimes r.2.registerClass,
    r.2 ∈ lt.tns ∧ lt.isDedicated = false ∧ lt.startSubCycle ≤ r.1 ∧ r.1 ≤ lt.endSubCycle

/-- The register classes of the constructor `SWP_ALLOCATOR::SWP_ALLOCATOR` that are still to be allocated. -/
def allocateClasses (sorter : StartTimeSort) (rf : RegisterFile) (k : Kernel) : List Nat → AllocState →
    Option AllocState
  | [], st => some st
  | rclass :: classes, st =>
    match allocateLoopInvariant rf rclass k.invariants { st with freeRegister := rf.allocatable rclass } with
    | none => none
    | some st => match allocateLoopVariant sorter k.kii rf rclass (k.lifetimes rclass) st with
      | none => none
      | some st => allocateClasses sorter rf k classes
          { st with
            registerCount := fun c =>
              if c = rclass then (rf.allocatable rclass \ st.freeRegister).card else st.registerCount c }

/-- `SWP_ALLOCATOR`: the register given to each `TN`, if the allocation succeeds. -/
def allocate (sorter : StartTimeSort) (rf : RegisterFile) (k : Kernel) : Option (Tn → Option Nat) :=
  (allocateClasses sorter rf k rf.classes
    { freeRegister := ∅, regAssign := fun _ => none, registerCount := fun _ => 0 }).map AllocState.regAssign

namespace Kernel

variable (k : Kernel)

/-- Two results of one operation. -/
def BornTogether (r r' : Nat × Tn) : Prop :=
  r ∈ k.results ∧ r' ∈ k.results ∧ r.1 = r'.1 ∧ r.2 ≠ r'.2 ∧ r.2.registerClass = r'.2.registerClass

/-- No value dies where another one is born beside it, and every `TN` that is given a register is given one once. -/
structure Clean (rf : RegisterFile) : Prop where
  starts : ∀ c ∈ rf.classes, (k.lifetimes c).Pairwise fun x y => x.isDedicated = false → y.isDedicated = false →
    x.startSubCycle = y.startSubCycle → ¬ x.Touches y k.kii
  results : ∀ r r', k.BornTogether r r' → r.2.registerClass ∈ rf.classes →
    ∀ x ∈ k.lifetimes r.2.registerClass, ∀ y ∈ k.lifetimes r.2.registerClass, x.isDedicated = false →
      y.isDedicated = false → r.2 ∈ x.tns → r'.2 ∈ y.tns → x ≠ y ∧ ¬ x.Touches y k.kii
  disjoint : ∀ c ∈ rf.classes, (k.lifetimes c).Pairwise DisjointTns
  class_disjoint : ∀ c ∈ rf.classes, ∀ c' ∈ rf.classes, c ≠ c' →
    ∀ x ∈ k.lifetimes c, ∀ y ∈ k.lifetimes c', DisjointTns x y
  invariant_disjoint : ∀ c ∈ rf.classes, ∀ x ∈ k.lifetimes c, x.isDedicated = false →
    ∀ tn ∈ x.tns, tn ∈ k.invariants → ∀ c' ∈ rf.classes, ¬ isAllocated c' tn

/-- The registers of one class have no clash. -/
structure ClassSound (c : Nat) (regAssign : Tn → Option Nat) : Prop where
  /-- All registers of one lifetime get one register. -/
  one_register : ∀ x ∈ k.lifetimes c, x.isDedicated = false → ∃ r, ∀ tn ∈ x.tns, regAssign tn = some r
  /-- Two lifetimes given the same register do not overlap in the cyclic schedule. -/
  no_clash : (k.lifetimes c).Pairwise fun x y => x.isDedicated = false → y.isDedicated = false →
    ∀ tn ∈ x.tns, ∀ tn' ∈ y.tns, regAssign tn = regAssign tn' → ¬ x.Overlaps y k.kii
  /-- Two results of one operation get different registers. -/
  results_differ : ∀ r r', k.BornTogether r r' → r.2.registerClass = c → regAssign r.2 ≠ regAssign r'.2
  /-- A loop invariant gets a register that nothing else of its class gets. -/
  invariant_alone : ∀ tn ∈ k.invariants, isAllocated c tn → ∃ r, regAssign tn = some r ∧
    (∀ tn' ∈ k.invariants, isAllocated c tn' → tn' ≠ tn → regAssign tn' ≠ some r) ∧
    ∀ x ∈ k.lifetimes c, x.isDedicated = false → ∀ tn' ∈ x.tns, regAssign tn' ≠ some r

variable {k}

/-- The registers that a class assigns: its lifetimes' and its invariants'. -/
def OwnedBy (k : Kernel) (c : Nat) (tn : Tn) : Prop :=
  (∃ x ∈ k.lifetimes c, x.isDedicated = false ∧ tn ∈ x.tns) ∨ (tn ∈ k.invariants ∧ isAllocated c tn)

theorem ClassSound.congr {c : Nat} {f g : Tn → Option Nat} (h : k.ClassSound c f)
    (hfg : ∀ tn, k.OwnedBy c tn → g tn = f tn) : k.ClassSound c g := by
  have hlt : ∀ x ∈ k.lifetimes c, x.isDedicated = false → ∀ tn ∈ x.tns, g tn = f tn := fun x hx hplain tn htn =>
    hfg tn (.inl ⟨x, hx, hplain, htn⟩)
  refine ⟨fun x hx hplain => ?_, ?_, fun r r' hborn hclass => ?_, fun tn htn hall => ?_⟩
  · obtain ⟨r, hr⟩ := h.one_register x hx hplain
    exact ⟨r, fun tn htn => (hlt x hx hplain tn htn).trans (hr tn htn)⟩
  · refine h.no_clash.imp_of_mem fun hx hy hxy hdx hdy tn htn tn' htn' heq => hxy hdx hdy tn htn tn' htn' ?_
    rwa [← hlt _ hx hdx tn htn, ← hlt _ hy hdy tn' htn']
  · have hown : ∀ q ∈ k.results, q.2.registerClass = c → g q.2 = f q.2 := by
      intro q hq hqc
      obtain ⟨x, hx, hin, hplain, -⟩ := k.result_mem q hq
      exact hlt x (hqc ▸ hx) hplain q.2 hin
    rw [hown r hborn.1 hclass, hown r' hborn.2.1 (hborn.2.2.2.2.symm.trans hclass)]
    exact h.results_differ r r' hborn hclass
  · obtain ⟨r, hr, hinv, hvar⟩ := h.invariant_alone tn htn hall
    refine ⟨r, (hfg tn (.inr ⟨htn, hall⟩)).trans hr, fun tn' htn' hall' hne => ?_, fun x hx hplain tn' htn' => ?_⟩
    · rw [hfg tn' (.inr ⟨htn', hall'⟩)]
      exact hinv tn' htn' hall' hne
    · rw [hlt x hx hplain tn' htn']
      exact hvar x hx hplain tn' htn'

/-- One class of a clean kernel. -/
theorem classSound_of_allocated {rf : RegisterFile} (hclean : k.Clean rf) {c : Nat} (hc : c ∈ rf.classes)
    {st st₁ st₂ : AllocState}
    (hinv : InvariantsAllocated c k.invariants st st₁) (hvar : LifetimesAllocated k.kii (k.lifetimes c) st₁ st₂) :
    k.ClassSound c st₂.regAssign := by
  have hkeep : ∀ tn ∈ k.invariants, isAllocated c tn → st₂.regAssign tn = st₁.regAssign tn := fun tn htn hall =>
    hvar.frame tn fun x hx hplain hin => hclean.invariant_disjoint c hc x hx hplain tn hin htn c hc hall
  refine ⟨fun x hx hplain => ?_, ?_, fun r r' hborn hclass => ?_, fun tn htn hall => ?_⟩
  · obtain ⟨r, -, hr⟩ := hvar.given x hx hplain
    exact ⟨r, hr⟩
  · refine (hvar.apart.and (hclean.starts c hc)).imp_of_mem fun hx hy hxy hdx hdy tn htn tn' htn' heq hov => ?_
    have hinter := TnLifetime.interferes_of_overlaps (k.inRange c _ hx) (k.inRange c _ hy) (hxy.2 hdx hdy) hov
    exact hxy.1 hdx hdy hinter tn htn tn' htn' heq
  · obtain ⟨x, hx, hin, hdx, hxs, hxe⟩ := k.result_mem r hborn.1
    obtain ⟨y, hy, hin', hdy, hys, hye⟩ := k.result_mem r' hborn.2.1
    rw [← hborn.2.2.2.2] at hy
    obtain ⟨hne, htouch⟩ := hclean.results r r' hborn (hclass ▸ hc) x hx y hy hdx hdy hin hin'
    rw [← hborn.2.2.1] at hys hye
    have hinter := (TnLifetime.interferes_iff ⟨hxs, hxe⟩ ⟨hys, hye⟩).mpr htouch
    rw [hclass] at hx hy
    exact hvar.apart.forall hx hy hne hdx hdy hinter r.2 hin r'.2 hin'
  · obtain ⟨r, -, hr, hassign⟩ := hinv.given tn htn hall
    refine ⟨r, (hkeep tn htn hall).trans hassign, fun tn' htn' hall' hne => ?_, fun x hx hplain tn' htn' heq => ?_⟩
    · rw [hkeep tn' htn' hall', ← hassign]
      exact hinv.distinct tn' htn' tn htn hall' hall hne
    · obtain ⟨r', hr', hassign'⟩ := hvar.given x hx hplain
      rw [hassign' tn' htn', Option.some_inj] at heq
      exact hr (heq ▸ hr')

theorem Clean.owner_unique {rf : RegisterFile} (hclean : k.Clean rf) {c c' : Nat} (hc : c ∈ rf.classes)
    (hc' : c' ∈ rf.classes) {tn : Tn} (h : k.OwnedBy c tn) (h' : k.OwnedBy c' tn) : c = c' := by
  by_contra hne
  rcases h with ⟨x, hx, hplain, hin⟩ | ⟨hinv, hall⟩
  · rcases h' with ⟨y, hy, hplain', hin'⟩ | ⟨hinv', hall'⟩
    · exact hclean.class_disjoint c hc c' hc' hne x hx y hy hplain hplain' hin hin'
    · exact hclean.invariant_disjoint c hc x hx hplain tn hin hinv' c' hc' hall'
  · rcases h' with ⟨y, hy, hplain', hin'⟩ | ⟨-, hall'⟩
    · exact hclean.invariant_disjoint c' hc' y hy hplain' tn hin' hinv c hc hall
    · exact hne (hall.2.symm.trans hall'.2)

theorem allocateClasses_sound {sorter : StartTimeSort} {rf : RegisterFile} (hclean : k.Clean rf) {classes : List Nat}
    (hsub : classes ⊆ rf.classes) (hnodup : classes.Nodup) {st st' : AllocState} (h : allocateClasses sorter rf k classes st = some st') :
    (∀ c ∈ classes, k.ClassSound c st'.regAssign) ∧
      ∀ tn, (∀ c ∈ classes, ¬ k.OwnedBy c tn) → st'.regAssign tn = st.regAssign tn := by
  induction classes generalizing st with
  | nil =>
    rw [allocateClasses, Option.some_inj] at h
    subst h
    exact ⟨by simp, fun _ _ => rfl⟩
  | cons c classes ih =>
    obtain ⟨hnot, hnodup⟩ := List.nodup_cons.mp hnodup
    have hc := hsub List.mem_cons_self
    replace hsub := fun c' hc' => hsub (List.mem_cons_of_mem c (a := c') hc')
    rw [allocateClasses] at h
    split at h
    · exact absurd h (by simp)
    · rename_i st₁ hst₁
      split at h
      · exact absurd h (by simp)
      · rename_i st₂ hst₂
        have hinv := allocateLoopInvariant_spec hst₁
        have hvar := allocateLoopVariant_spec (hclean.disjoint c hc) hst₂
        obtain ⟨hsound, hframe⟩ := ih hsub hnodup h
        refine ⟨fun c' hc' => ?_, fun tn htn => ?_⟩
        · rcases List.mem_cons.mp hc' with rfl | hc'
          · refine (classSound_of_allocated hclean hc hinv hvar).congr fun tn hown => ?_
            exact hframe tn fun d hd hown' => hnot (hclean.owner_unique hc (hsub d hd) hown hown' ▸ hd)
          · exact hsound c' hc'
        · have hfree := htn c List.mem_cons_self
          rw [hframe tn fun c' hc' => htn c' (List.mem_cons_of_mem _ hc')]
          exact (hvar.frame tn fun x hx hplain hin => hfree (.inl ⟨x, hx, hplain, hin⟩)).trans
            (hinv.frame tn fun hin hall => hfree (.inr ⟨hin, hall⟩))

end Kernel

/-- A successful allocation of a clean kernel has no clash in any register class. -/
theorem allocate_sound {sorter : StartTimeSort} {rf : RegisterFile} {k : Kernel} (hclean : k.Clean rf)
    {regAssign : Tn → Option Nat} (h : allocate sorter rf k = some regAssign) :
    ∀ c ∈ rf.classes, k.ClassSound c regAssign := by
  obtain ⟨st, hst, rfl⟩ := Option.map_eq_some_iff.mp h
  exact (Kernel.allocateClasses_sound hclean (List.Subset.refl _) List.nodup_range' hst).1

/-! ## A value that is never read -/

theorem startsBefore_eq_true {a b : TnLifetime Tn} : a.startsBefore b = true ↔
    a.startSubCycle < b.startSubCycle ∨ (a.startSubCycle = b.startSubCycle ∧ a.endSubCycle < b.endSubCycle) := by
  unfold TnLifetime.startsBefore
  split_ifs <;> simp <;> omega

/-- Insertion sort, one of the ways to sort by start time. -/
def insertionStartTimeSort : StartTimeSort where
  sort := List.insertionSort fun a b => b.startsBefore a = false
  perm := List.perm_insertionSort _
  sorted lts := by
    have htotal : Std.Total fun a b : TnLifetime Tn => b.startsBefore a = false := ⟨fun a b => by
      rw [← Bool.not_eq_true, ← Bool.not_eq_true, startsBefore_eq_true, startsBefore_eq_true]
      omega⟩
    have htrans : IsTrans (TnLifetime Tn) fun a b => b.startsBefore a = false := ⟨fun a b c hab hbc => by
      rw [← Bool.not_eq_true, startsBefore_eq_true] at *
      omega⟩
    exact List.pairwise_insertionSort _ lts

/-- Two registers, neither of them caller saved. -/
def twoRegisters : RegisterFile where
  classCount := 1
  allocatable _ := {1, 2}
  callerSaves _ := ∅

/-- Two values, one after the other, and a loop invariant. -/
def twoValues : Kernel where
  kii := 2
  lifetimes c := if c = 1 then
    [{ startSubCycle := 0, endSubCycle := 8, tns := [{ number := 10 }] },
     { startSubCycle := 8, endSubCycle := 16, tns := [{ number := 11 }] }] else []
  invariants := [{ number := 12 }]
  results := [(0, { number := 10 }), (8, { number := 11 })]
  inRange c lt hlt := by
    split_ifs at hlt
    · rcases List.mem_pair.mp hlt with rfl | rfl <;> exact ⟨by decide, by decide, by decide⟩
    · exact absurd hlt List.not_mem_nil
  result_mem := by decide

theorem twoValues_clean : twoValues.Clean twoRegisters := by
  have hone : ∀ c ∈ twoRegisters.classes, c = 1 := by decide
  refine ⟨fun c hc => ?_, fun r r' hborn => ?_, fun c hc => ?_, fun c hc c' hc' hne => ?_, fun c hc => ?_⟩
  · rw [hone c hc]
    simp [twoValues]
  · obtain ⟨hr, hr', ht, hne, -⟩ := hborn
    rcases List.mem_pair.mp hr with rfl | rfl <;> rcases List.mem_pair.mp hr' with rfl | rfl <;> simp at ht hne
  · rw [hone c hc]
    simp [twoValues, DisjointTns]
  · exact absurd ((hone c hc).trans (hone c' hc').symm) hne
  · rw [hone c hc]
    intro x hx
    rcases List.mem_pair.mp hx with rfl | rfl <;> simp [twoValues]

/-- The two values share register 2, the invariant has register 1 alone. -/
theorem allocate_sound_twoValues : ∃ regAssign, allocate insertionStartTimeSort twoRegisters twoValues = some regAssign ∧
    ∀ c ∈ twoRegisters.classes, twoValues.ClassSound c regAssign := by
  have hsome : (allocate insertionStartTimeSort twoRegisters twoValues).isSome = true := by decide
  obtain ⟨regAssign, h⟩ := Option.isSome_iff_exists.mp hsome
  exact ⟨regAssign, h, allocate_sound twoValues_clean h⟩

/-- One operation with two results: the first is read in the next cycle, the second never. -/
def deadResult : Kernel where
  kii := 1
  lifetimes c := if c = 1 then
    [{ startSubCycle := 0, endSubCycle := 8, tns := [{ number := 10 }] },
     { startSubCycle := 0, endSubCycle := 0, tns := [{ number := 11 }] }] else []
  invariants := []
  results := [(0, { number := 10 }), (0, { number := 11 })]
  inRange c lt hlt := by
    split_ifs at hlt
    · rcases List.mem_pair.mp hlt with rfl | rfl <;> exact ⟨by decide, by decide, by decide⟩
    · exact absurd hlt List.not_mem_nil
  result_mem := by decide

/-- Both results are given register 1. -/
theorem allocate_deadResult : ∃ regAssign, allocate insertionStartTimeSort twoRegisters deadResult = some regAssign ∧
    ¬ deadResult.ClassSound 1 regAssign := by
  refine ⟨_, rfl, fun h => h.results_differ (0, { number := 10 }) (0, { number := 11 }) ?_ rfl ?_⟩
  · exact ⟨by decide, by decide, rfl, by decide, rfl⟩
  · decide

end Path64.Swp

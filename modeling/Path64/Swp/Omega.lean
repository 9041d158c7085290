import Path64.Swp.Basic

/-!
# Software pipelining: omegas after scheduling

Moving an operation across the back edge changes how many kernel iterations lie between a definition and its uses.
`SWP_OP_VECTOR::Update_Omega` adds to each use the stages it is behind its definition: for every result it walks once
round the loop, from the operation after the definition, until the register is defined again.

* `updateOmega` : the walk for every result of every operation;
* `updateOmega_use` : a register with one definition has the stage difference added to each of its uses once, unless
  that difference matters and an earlier entry of the result list is defined somewhere else.
-/

namespace Path64.Swp

/-- A value kept in an `INT8`. -/
def int8 (x : Int) : Int := x.bmod 256

theorem int8_eq {x : Int} (h : -128 ≤ x) (h' : x ≤ 127) : int8 x = x := by
  apply Int.bmod_eq_of_le <;> omega

/-- `Set_Omega` of the operands that are `cur`. -/
def bumpOmega (cur : Tn) (diff : Int) (o : SwpOp Tn) : SwpOp Tn :=
  { o with opnds := o.opnds.map fun p => if p.tn = cur then { p with omega := int8 (p.omega + diff) } else p }

/-- The operations `idxs` after a definition of `cur` in stage `stage1`; false if `cur` is defined again. -/
def walkUses (cur : Tn) (stage1 : Nat) : List Nat → List (SwpOp Tn) → List (SwpOp Tn) × Bool
  | [], ops => (ops, true)
  | idx :: rest, ops =>
    match ops[idx]? with
    | none => walkUses cur stage1 rest ops
    | some op2 =>
      let ops := ops.set idx (bumpOmega cur ((op2.stage : Int) - stage1) op2)
      if cur ∈ op2.results then (ops, false) else walkUses cur stage1 rest ops

/-- The indices `i + 1`, …, `size + i - 1` modulo `size`. -/
def roundFrom (size i : Nat) : List Nat := (List.range (size - 1)).map fun j => (i + 1 + j) % size

/-- The results of operation `i`; the source leaves them all when one is found to be defined again. -/
def updateResults (i stage1 : Nat) : List Tn → List (SwpOp Tn) → List (SwpOp Tn)
  | [], ops => ops
  | cur :: results, ops =>
    if (walkUses cur stage1 (roundFrom ops.length i) ops).2 then
      updateResults i stage1 results (walkUses cur stage1 (roundFrom ops.length i) ops).1
    else (walkUses cur stage1 (roundFrom ops.length i) ops).1

def updateOp (ops : List (SwpOp Tn)) (i : Nat) : List (SwpOp Tn) :=
  match ops[i]? with
  | none => ops
  | some o => updateResults i o.stage o.results ops

/-- `SWP_OP_VECTOR::Update_Omega`. START and STOP, which have neither operands nor results, are left out. -/
def updateOmega (ops : List (SwpOp Tn)) : List (SwpOp Tn) := (List.range ops.length).foldl updateOp ops

/-! ## What a walk changes -/

/-- The operation with only the omegas of the registers in `P` kept. -/
def keepOmega (P : Tn → Bool) (o : SwpOp Tn) : SwpOp Tn :=
  { o with opnds := o.opnds.map fun p => if P p.tn then p else { p with omega := 0 } }

/-- Two vectors that differ at most in the omegas of registers outside `P`. -/
def SameUses (P : Tn → Bool) (ops ops' : List (SwpOp Tn)) : Prop :=
  ∀ idx : Nat, (ops'[idx]?).map (keepOmega P) = (ops[idx]?).map (keepOmega P)

theorem SameUses.trans {P : Tn → Bool} {a b c : List (SwpOp Tn)} (h : SameUses P a b) (h' : SameUses P b c) :
    SameUses P a c := fun idx => (h' idx).trans (h idx)

theorem SameUses.getElem? {P : Tn → Bool} {ops ops' : List (SwpOp Tn)} (h : SameUses P ops ops') {idx : Nat}
    {o' : SwpOp Tn} (ho' : ops'[idx]? = some o') : ∃ o, ops[idx]? = some o ∧ keepOmega P o' = keepOmega P o := by
  have hidx := h idx
  rw [ho', Option.map_some] at hidx
  obtain ⟨o, ho, heq⟩ := Option.map_eq_some_iff.mp hidx.symm
  exact ⟨o, ho, heq.symm⟩

theorem keepOmega_bumpOmega {P : Tn → Bool} {cur : Tn} (hcur : P cur = false) (diff : Int) (o : SwpOp Tn) :
    keepOmega P (bumpOmega cur diff o) = keepOmega P o := by
  unfold keepOmega bumpOmega
  simp only [List.map_map]
  congr 1
  refine List.map_congr_left fun p _ => ?_
  by_cases hp : p.tn = cur
  · simp [hp, hcur]
  · simp [hp]

theorem keepOmega_bumpOmega_self (x : Tn) (diff : Int) (o : SwpOp Tn) :
    keepOmega (· = x) (bumpOmega x diff o) = bumpOmega x diff (keepOmega (· = x) o) := by
  unfold keepOmega bumpOmega
  simp only [List.map_map]
  congr 1
  refine List.map_congr_left fun p _ => ?_
  by_cases hx : p.tn = x <;> simp [hx]

theorem length_walkUses (cur : Tn) (stage1 : Nat) (idxs : List Nat) (ops : List (SwpOp Tn)) :
    (walkUses cur stage1 idxs ops).1.length = ops.length := by
  induction idxs generalizing ops with
  | nil => rfl
  | cons idx rest ih =>
    rw [walkUses]
    split
    · exact ih ops
    · dsimp only
      split_ifs
      · exact List.length_set
      · rw [ih]
        exact List.length_set

theorem sameUses_set {P : Tn → Bool} {ops : List (SwpOp Tn)} {idx : Nat} {o o' : SwpOp Tn} (ho : ops[idx]? = some o)
    (heq : keepOmega P o' = keepOmega P o) : SameUses P ops (ops.set idx o') := by
  intro k
  rw [List.getElem?_set]
  split_ifs with hk hlt
  · subst hk
    rw [ho, Option.map_some, Option.map_some, heq]
  · subst hk
    rw [List.getElem?_eq_none (Nat.le_of_not_lt hlt)]
  · rfl

theorem sameUses_walkUses {P : Tn → Bool} {cur : Tn} (hcur : P cur = false) (stage1 : Nat) (idxs : List Nat)
    (ops : List (SwpOp Tn)) : SameUses P ops (walkUses cur stage1 idxs ops).1 := by
  induction idxs generalizing ops with
  | nil => exact fun _ => rfl
  | cons idx rest ih =>
    rw [walkUses]
    split
    · exact ih ops
    · rename_i op2 hop2
      have hset := sameUses_set hop2 (keepOmega_bumpOmega hcur ((op2.stage : Int) - stage1) op2)
      dsimp only
      split_ifs
      · exact hset
      · exact hset.trans (ih _)

/-- A walk that meets no other definition gets all the way round, and bumps each operation once. -/
theorem walkUses_all {x : Tn} (stage1 : Nat) {idxs : List Nat} (hnodup : idxs.Nodup) (ops : List (SwpOp Tn))
    (hdef : ∀ idx ∈ idxs, ∀ o, ops[idx]? = some o → x ∉ o.results) :
    (walkUses x stage1 idxs ops).2 = true ∧ ∀ k : Nat, (walkUses x stage1 idxs ops).1[k]? =
      if k ∈ idxs then (ops[k]?).map fun o => bumpOmega x ((o.stage : Int) - stage1) o else ops[k]? := by
  induction idxs generalizing ops with
  | nil => exact ⟨rfl, fun k => by simp [walkUses]⟩
  | cons idx rest ih =>
    obtain ⟨hnot, hnodup⟩ := List.nodup_cons.mp hnodup
    rw [walkUses]
    split
    · rename_i hnone
      obtain ⟨halive, hget⟩ := ih hnodup ops fun k hk => hdef k (List.mem_cons_of_mem _ hk)
      refine ⟨halive, fun k => ?_⟩
      rw [hget k]
      by_cases hk : k = idx
      · subst hk
        simp [hnot, hnone]
      · simp [hk]
    · rename_i op2 hop2
      have hfree := hdef idx List.mem_cons_self op2 hop2
      have hlt : idx < ops.length := (List.getElem?_eq_some_iff.mp hop2).1
      dsimp only
      rw [if_neg hfree]
      obtain ⟨halive, hget⟩ := ih hnodup
        (ops.set idx (bumpOmega x ((op2.stage : Int) - stage1) op2))
        fun k hk o ho => by
          have hne : idx ≠ k := by
            rintro rfl
            exact hnot hk
          rw [List.getElem?_set_ne hne] at ho
          exact hdef k (List.mem_cons_of_mem _ hk) o ho
      refine ⟨halive, fun k => ?_⟩
      rw [hget k]
      by_cases hk : k = idx
      · subst hk
        rw [if_neg hnot, if_pos List.mem_cons_self, List.getElem?_set_self hlt, hop2, Option.map_some]
      · rw [List.getElem?_set_ne fun heq => hk heq.symm]
        simp [hk]

/-! ## The whole update -/

theorem mem_roundFrom {size i idx : Nat} (hi : i < size) : idx ∈ roundFrom size i ↔ idx < size ∧ idx ≠ i := by
  rw [roundFrom, List.mem_map]
  constructor
  · rintro ⟨j, hj, rfl⟩
    rw [List.mem_range] at hj
    refine ⟨Nat.mod_lt _ (by omega), ?_⟩
    rcases Nat.lt_or_ge (i + 1 + j) size with hlt | hge
    · rw [Nat.mod_eq_of_lt hlt]
      omega
    · rw [Nat.mod_eq_sub_mod hge, Nat.mod_eq_of_lt (by omega)]
      omega
  · rintro ⟨hlt, hne⟩
    rcases Nat.lt_or_ge i idx with hbefore | hafter
    · exact ⟨idx - i - 1, List.mem_range.mpr (by omega), by
        rw [show i + 1 + (idx - i - 1) = idx by omega, Nat.mod_eq_of_lt hlt]⟩
    · exact ⟨size + idx - i - 1, List.mem_range.mpr (by omega), by
        rw [show i + 1 + (size + idx - i - 1) = idx + size by omega, Nat.add_mod_right, Nat.mod_eq_of_lt hlt]⟩

theorem nodup_roundFrom {size i : Nat} (hi : i < size) : (roundFrom size i).Nodup := by
  rw [roundFrom]
  refine List.Nodup.map_on (fun j hj j' hj' heq => ?_) List.nodup_range
  rw [List.mem_range] at hj hj'
  have hmod : ∀ j < size - 1, (i + 1 + j) % size = if i + 1 + j < size then i + 1 + j else i + 1 + j - size := by
    intro j hj
    split_ifs with hlt
    · exact Nat.mod_eq_of_lt hlt
    · rw [Nat.mod_eq_sub_mod (by omega), Nat.mod_eq_of_lt (by omega)]
  rw [hmod j hj, hmod j' hj'] at heq
  split_ifs at heq <;> omega

theorem sameUses_updateResults {P : Tn → Bool} (i stage1 : Nat) (results : List Tn)
    (hP : ∀ cur ∈ results, P cur = false) (ops : List (SwpOp Tn)) :
    SameUses P ops (updateResults i stage1 results ops) := by
  induction results generalizing ops with
  | nil => exact fun _ => rfl
  | cons cur results ih =>
    have hwalk := sameUses_walkUses (hP cur List.mem_cons_self) stage1 (roundFrom ops.length i) ops
    rw [updateResults]
    split_ifs
    · exact hwalk.trans (ih (fun c hc => hP c (List.mem_cons_of_mem _ hc)) _)
    · exact hwalk

theorem sameUses_foldl {P : Tn → Bool} {is : List Nat} {ops : List (SwpOp Tn)}
    (hP : ∀ i ∈ is, ∀ o, ops[i]? = some o → ∀ cur ∈ o.results, P cur = false) :
    SameUses P ops (is.foldl updateOp ops) := by
  induction is generalizing ops with
  | nil => exact fun _ => rfl
  | cons i is ih =>
    have hstep : SameUses P ops (updateOp ops i) := by
      rw [updateOp]
      split
      · exact fun _ => rfl
      · rename_i o ho
        exact sameUses_updateResults i o.stage _ (hP i List.mem_cons_self o ho) ops
    refine hstep.trans (ih fun k hk o' ho' => ?_)
    obtain ⟨o, ho, heq⟩ := hstep.getElem? ho'
    have hresults : o'.results = o.results := congrArg (fun o => o.results) heq
    rw [hresults]
    exact hP k (List.mem_cons_of_mem _ hk) o ho

theorem sameUses_updateOmega (ops : List (SwpOp Tn)) : SameUses (fun _ => false) ops (updateOmega ops) :=
  sameUses_foldl fun _ _ _ _ _ _ => rfl

/-- No operation but `d` defines one of the registers. -/
def DefinedOnlyBy (ops : List (SwpOp Tn)) (d : Nat) (tns : List Tn) : Prop :=
  ∀ cur ∈ tns, ∀ idx o, idx ≠ d → ops[idx]? = some o → cur ∉ o.results

theorem DefinedOnlyBy.of_sameUses {P : Tn → Bool} {ops ops' : List (SwpOp Tn)} {d : Nat} {tns : List Tn}
    (h : DefinedOnlyBy ops d tns) (hsame : SameUses P ops ops') : DefinedOnlyBy ops' d tns := by
  intro cur hcur idx o' hne ho'
  obtain ⟨o, ho, heq⟩ := hsame.getElem? ho'
  have hresults : o'.results = o.results := congrArg (fun o => o.results) heq
  rw [hresults]
  exact h cur hcur idx o hne ho

/-- `x` stands among the results of operation `d` and is defined nowhere else. -/
structure SoleResult (ops : List (SwpOp Tn)) (d : Nat) (x : Tn) (before after : List Tn) : Prop where
  results_eq : ∃ o, ops[d]? = some o ∧ o.results = before ++ x :: after
  notMem : x ∉ before ∧ x ∉ after
  sole : DefinedOnlyBy ops d [x]

theorem SoleResult.of_sameUses {P : Tn → Bool} {ops ops' : List (SwpOp Tn)} {d : Nat} {x : Tn} {before after : List Tn}
    (h : SoleResult ops d x before after) (hsame : SameUses P ops ops') : SoleResult ops' d x before after := by
  refine ⟨?_, h.notMem, h.sole.of_sameUses hsame⟩
  obtain ⟨o, ho, hres⟩ := h.results_eq
  have hidx := hsame d
  rw [ho, Option.map_some] at hidx
  obtain ⟨o', ho', heq⟩ := Option.map_eq_some_iff.mp hidx
  exact ⟨o', ho', (congrArg (fun o => o.results) heq).trans hres⟩

/-- Every use of `x` outside operation `d` has been bumped once by its stages behind `stage1`. -/
def UsesBumped (x : Tn) (d stage1 : Nat) (ops ops' : List (SwpOp Tn)) : Prop :=
  ∀ idx : Nat, (ops'[idx]?).map (keepOmega (· = x)) = ((ops[idx]?).map (keepOmega (· = x))).map fun o =>
    if idx = d then o else bumpOmega x ((o.stage : Int) - stage1) o

/-- The walks of operation `d` bump the uses of its result `x`, or leave them alone when they stop before `x`. -/
theorem updateResults_bump {ops : List (SwpOp Tn)} {d stage1 : Nat} {x : Tn} {before after : List Tn}
    (hd : d < ops.length) (hafter : x ∉ after) (hbefore : x ∉ before)
    (hsole : DefinedOnlyBy ops d [x]) :
    UsesBumped x d stage1 ops (updateResults d stage1 (before ++ x :: after) ops) ∨ (¬DefinedOnlyBy ops d before ∧
      SameUses (· = x) ops (updateResults d stage1 (before ++ x :: after) ops)) := by
  induction before generalizing ops with
  | nil =>
    refine .inl ?_
    have hround : ∀ idx ∈ roundFrom ops.length d, ∀ o, ops[idx]? = some o → x ∉ o.results := fun idx hidx o ho =>
      hsole x (List.mem_singleton_self x) idx o ((mem_roundFrom hd).mp hidx).2 ho
    obtain ⟨halive, hget⟩ := walkUses_all stage1 (nodup_roundFrom hd) ops hround
    rw [List.nil_append, updateResults, if_pos halive]
    have hsame : SameUses (· = x) (walkUses x stage1 (roundFrom ops.length d) ops).1
        (updateResults d stage1 after (walkUses x stage1 (roundFrom ops.length d) ops).1) :=
      sameUses_updateResults d stage1 _
        (fun cur hcur => decide_eq_false fun heq : cur = x => hafter (heq ▸ hcur)) _
    intro idx
    rw [hsame idx, hget idx]
    by_cases hidx : idx = d
    · rw [if_neg fun hmem => ((mem_roundFrom hd).mp hmem).2 hidx]
      simp only [hidx, if_true]
      exact (Option.map_id' ).symm
    · by_cases hlt : idx < ops.length
      · rw [if_pos ((mem_roundFrom hd).mpr ⟨hlt, hidx⟩), Option.map_map, Option.map_map]
        congr 1
        funext o
        rw [Function.comp_apply, Function.comp_apply, if_neg hidx, keepOmega_bumpOmega_self]
        rfl
      · rw [List.getElem?_eq_none (Nat.le_of_not_lt hlt)]
        simp
  | cons cur before ih =>
    obtain ⟨hne, hbefore⟩ := not_or.mp (mt List.mem_cons.mpr hbefore)
    have hsame : SameUses (· = x) ops (walkUses cur stage1 (roundFrom ops.length d) ops).1 :=
      sameUses_walkUses (decide_eq_false (Ne.symm hne)) stage1 _ ops
    have hlen : d < (walkUses cur stage1 (roundFrom ops.length d) ops).1.length := by
      rw [length_walkUses]
      exact hd
    rw [List.cons_append, updateResults]
    split_ifs with halive
    · refine (ih hlen hbefore (hsole.of_sameUses hsame)).imp (fun hrest idx => by rw [hrest idx, hsame idx]) ?_
      rintro ⟨hnot, hrest⟩
      exact ⟨fun hall => hnot fun c hc => (hall.of_sameUses hsame) c (List.mem_cons_of_mem _ hc), hsame.trans hrest⟩
    · refine .inr ⟨fun hall => halive ?_, hsame⟩
      exact (walkUses_all stage1 (nodup_roundFrom hd) ops fun idx hidx o ho =>
        hall cur List.mem_cons_self idx o ((mem_roundFrom hd).mp hidx).2 ho).1

/-- The update bumps every use of a sole result once, or leaves them alone. -/
theorem updateOmega_bump {ops : List (SwpOp Tn)} {d : Nat} {x : Tn} {before after : List Tn} {o : SwpOp Tn}
    (h : SoleResult ops d x before after) (ho : ops[d]? = some o) : UsesBumped x d o.stage ops (updateOmega ops) ∨
      (¬DefinedOnlyBy ops d before ∧ SameUses (· = x) ops (updateOmega ops)) := by
  have hd : d < ops.length := (List.getElem?_eq_some_iff.mp ho).1
  obtain ⟨s, t, hst⟩ := List.append_of_mem (List.mem_range.mpr hd)
  have hnodup : (s ++ d :: t).Nodup := hst ▸ List.nodup_range
  have hs : d ∉ s := fun hin => (List.nodup_append.mp hnodup).2.2 d hin d List.mem_cons_self rfl
  have ht : d ∉ t := (List.nodup_cons.mp (List.nodup_append.mp hnodup).2.1).1
  -- operations other than `d` do not define `x`, so they leave its uses alone
  have hother : ∀ {is : List Nat} {ops' : List (SwpOp Tn)}, d ∉ is → SameUses (fun _ => false) ops ops' →
      SameUses (· = x) ops' (is.foldl updateOp ops') := by
    intro is ops' his hsame
    refine sameUses_foldl fun i hi o' ho' cur hcur => decide_eq_false fun heq => ?_
    have hi' : i ≠ d := fun hid => his (hid ▸ hi)
    exact (h.of_sameUses hsame).sole cur (List.mem_singleton.mpr heq) i o' hi' ho' hcur
  have hbefore := hother hs fun _ => rfl
  have hshape : SameUses (fun _ => false) ops (s.foldl updateOp ops) := sameUses_foldl fun _ _ _ _ _ _ => rfl
  obtain ⟨hres, hmem, hsole⟩ := h.of_sameUses hshape
  obtain ⟨o', ho', hres'⟩ := hres
  have hstage : o'.stage = o.stage := by
    have hd' := hshape d
    rw [ho, ho', Option.map_some, Option.map_some, Option.some_inj] at hd'
    exact congrArg (fun o => o.stage) hd'
  have hbump := @updateResults_bump _ d o'.stage x before after (List.getElem?_eq_some_iff.mp ho').1 hmem.2 hmem.1 hsole
  have hafter := hother ht (hshape.trans
    (sameUses_updateResults d o'.stage (before ++ x :: after) (fun _ _ => rfl) (s.foldl updateOp ops)))
  rw [updateOmega, hst, List.foldl_append, List.foldl_cons, updateOp, ho']
  dsimp only
  rw [hres']
  refine hbump.imp (fun hbump idx => ?_) fun ⟨hnot, hsame⟩ =>
    ⟨fun hall => hnot (hall.of_sameUses hshape), (hbefore.trans hsame).trans hafter⟩
  rw [hafter idx, hbump idx, hbefore idx, hstage]

/-- After the update, a use of a sole result has its original omega plus its stages behind the definition, as long as
that fits an `INT8` and the update comes to the result or the two are in one stage. -/
theorem updateOmega_use {ops : List (SwpOp Tn)} {d : Nat} {x : Tn} {before after : List Tn} {od : SwpOp Tn}
    (h : SoleResult ops d x before after) (hd : ops[d]? = some od)
    (hinit : ∀ o ∈ ops, ∀ p ∈ o.opnds, p.omega = p.originalOmega) {idx : Nat} {o : SwpOp Tn}
    (ho : (updateOmega ops)[idx]? = some o) {p : Opnd Tn} (hp : p ∈ o.opnds) (hx : p.tn = x)
    (hlow : -128 ≤ p.originalOmega + ((o.stage : Int) - od.stage))
    (hhigh : p.originalOmega + ((o.stage : Int) - od.stage) ≤ 127)
    (hreached : o.stage ≠ od.stage → DefinedOnlyBy ops d before) :
    p.omega = p.originalOmega + ((o.stage : Int) - od.stage) := by
  have hkeep : p ∈ (keepOmega (· = x) o).opnds := List.mem_map.mpr ⟨p, hp, if_pos (by simpa using hx)⟩
  have horig : ∀ {o₀ : SwpOp Tn}, ops[idx]? = some o₀ → ∀ q ∈ (keepOmega (· = x) o₀).opnds, q.tn = x →
      q.omega = q.originalOmega := by
    intro o₀ ho₀ q hq hqx
    obtain ⟨q₀, hq₀, rfl⟩ := List.mem_map.mp hq
    have hq₀x : q₀.tn = x := by
      split_ifs at hqx <;> exact hqx
    rw [if_pos (by simpa using hq₀x)]
    exact hinit o₀ (List.mem_of_getElem? ho₀) q₀ hq₀
  rcases updateOmega_bump h hd with hbump | ⟨hnot, hsame⟩
  swap
  · obtain ⟨o₀, ho₀, heq⟩ := hsame.getElem? ho
    rw [heq] at hkeep
    have hzero : o.stage = od.stage := by_contra fun hne => hnot (hreached hne)
    rw [horig ho₀ p hkeep hx, hzero]
    omega
  have hidx := hbump idx
  rw [ho, Option.map_some] at hidx
  obtain ⟨v, hv, heq⟩ := Option.map_eq_some_iff.mp hidx.symm
  obtain ⟨o₀, ho₀, rfl⟩ := Option.map_eq_some_iff.mp hv
  rw [← heq] at hkeep
  have hstage : o.stage = o₀.stage := by
    have hs := congrArg SwpOp.stage heq
    split_ifs at hs <;> exact hs.symm
  replace horig := horig ho₀
  split_ifs at hkeep with hself
  · have hzero : o.stage = od.stage := by
      rw [hstage]
      rw [hself, hd] at ho₀
      rw [Option.some_inj.mp ho₀]
    rw [horig p hkeep hx, hzero]
    omega
  · obtain ⟨q, hq, hpq⟩ := List.mem_map.mp hkeep
    have hqx : q.tn = x := by
      rw [← hpq] at hx
      split_ifs at hx <;> assumption
    rw [if_pos hqx, horig q hq hqx] at hpq
    have hqo : p.originalOmega = q.originalOmega := by rw [← hpq]
    have hst : (keepOmega (· = x) o₀).stage = o.stage := hstage.symm
    rw [← hpq, hst]
    show int8 _ = _
    rw [hqo] at hlow hhigh
    exact int8_eq hlow hhigh

end Path64.Swp

import Mathlib.Data.List.Basic
import Mathlib.Logic.Function.Basic
import Mathlib.Order.Nat

/-!
# The predicate query system

`PQS_MANAGER` keeps a node for every instruction that sets predicates and answers whether two predicates can be true
together by walking from a predicate to those it can get its value from. Of the kinds of instructions `DIVSQRT` is left
out, and so are the lists of uses, which these queries do not read.

* `addInstruction`, `enter` : the nodes of a straight-line sequence;
* `truthInfo` : what a node may do to one of its outputs;
* `isDisjoint`, `isDisjointSets` : the two forms of the query;
* `output`, `Inst.exec`, `Exec` : what the instructions do.
-/

namespace Path64.Pqs

/-- A predicate TN; `p0` is the predicate that is always true. -/
abbrev Tn := Nat

def p0 : Tn := 0

/-- `PQS_ITYPE`. -/
inductive Itype where
  | noPredicates
  | norm
  | unc
  | or
  | and
  | orandcm
  | orcm
  | andcm
  | andorcm
deriving DecidableEq, Repr

/-- `PQS_NODE_IDX`: a node, or one of `PQS_IDX_NONE`, `PQS_IDX_TRUE`, `PQS_IDX_FALSE` and `PQS_IDX_INVALID`. -/
inductive Idx where
  | none
  | always
  | never
  | invalid
  | node (i : Nat)
deriving DecidableEq, Repr

/-- What `PQS_classify_instruction` reports: the kind, the qualifying predicate, the outputs and the two flags for a
condition that is known. -/
structure Inst where
  itype : Itype
  qual : Option Tn := some p0
  p1 : Option Tn := none
  p2 : Option Tn := none
  conditionTrue : Bool := false
  conditionFalse : Bool := false
deriving DecidableEq, Repr

/-- `PQS_NODE`. -/
structure Node where
  itype : Itype
  conditionTrue : Bool
  conditionFalse : Bool
  qualPred : Idx := .none
  qualTn : Option Tn := none
  outPred1 : Option Tn := none
  outPred2 : Option Tn := none
  inPred1 : Idx := .none
  inPred2 : Idx := .none
deriving DecidableEq, Repr

/-- `PQS_MANAGER` with the `PQS_TN_MAP_TYPE` of each TN. -/
structure Manager where
  data : List Node
  lastDef : Tn → Idx
  usedAsQualPred : Tn → Bool
  noQuery : Tn → Bool

/-- `PQS_MANAGER::PQS_MANAGER`. -/
def start : Manager where
  data := []
  lastDef := Function.update (fun _ => .invalid) p0 .always
  usedAsQualPred := fun _ => false
  noQuery := fun _ => false

/-! ## Entering instructions -/

/-- `PQS_ITYPE_sets_unconditionally`. -/
def Itype.setsUnconditionally (itype : Itype) : Bool := itype = .unc

/-- `p && p != PQS_TN_P0`. -/
def realOutput (p : Option Tn) : Option Tn := p.filter (· ≠ p0)

/-- The kind of the node: a `NORM` under the true predicate behaves like an `UNC`. -/
def Inst.nodeItype (inst : Inst) : Itype := if inst.qual = some p0 ∧ inst.itype = .norm then .unc else inst.itype

/-- The node the qualifying predicate was last set by. -/
def Manager.qualIdx (m : Manager) (qual : Option Tn) : Idx :=
  match qual with
  | none => .invalid
  | some q => if q = p0 then .always else m.lastDef q

/-- The previous instance of an output, for a kind that may keep it. -/
def Manager.inPred (m : Manager) (itype : Itype) (p : Option Tn) : Idx :=
  match p with
  | none => .none
  | some t => if itype.setsUnconditionally then .none else m.lastDef t

/-- An output is set by the node `i`. -/
def Manager.setOutput (m : Manager) (i : Nat) (p : Option Tn) : Manager :=
  match p with
  | none => m
  | some t =>
    { m with
      lastDef := Function.update m.lastDef t (.node i)
      noQuery := if m.usedAsQualPred t then Function.update m.noQuery t true else m.noQuery }

/-- `PQS_TN_set_used_as_qual_pred`. -/
def Manager.setUsedAsQual (m : Manager) (qual : Option Tn) : Manager :=
  match qual with
  | none => m
  | some q => { m with usedAsQualPred := Function.update m.usedAsQualPred q true }

/-- The node for an instruction that sets predicates. -/
def Manager.newNode (m : Manager) (inst : Inst) : Node where
  itype := inst.nodeItype
  conditionTrue := inst.conditionTrue
  conditionFalse := inst.conditionFalse
  qualPred := m.qualIdx inst.qual
  qualTn := inst.qual
  outPred1 := realOutput inst.p1
  outPred2 := realOutput inst.p2
  inPred1 := m.inPred inst.nodeItype (realOutput inst.p1)
  inPred2 := (m.setOutput m.data.length (realOutput inst.p1)).inPred inst.nodeItype (realOutput inst.p2)

/-- `PQS_Add_Instruction`. -/
def addInstruction (m : Manager) (inst : Inst) : Manager :=
  let m := m.setUsedAsQual inst.qual
  if inst.itype = .noPredicates then m
  else
    { (m.setOutput m.data.length (realOutput inst.p1)).setOutput m.data.length (realOutput inst.p2) with
      data := m.data ++ [m.newNode inst] }

/-- The instructions of a straight-line sequence, in order. -/
def enter (insts : List Inst) : Manager := insts.foldl addInstruction start

/-! ## What a node may do to an output -/

/-- The two places for an output, `PQS_NODE_get_1_2`. -/
inductive Slot where
  | one
  | two
deriving DecidableEq, Repr

def Node.out (n : Node) : Slot → Option Tn
  | .one => n.outPred1
  | .two => n.outPred2

/-- `PQS_NODE_get_1_2`; none when the assertion fails. -/
def Node.slotOf (n : Node) (tn : Tn) : Option Slot :=
  if n.outPred1 = some tn then some .one else if n.outPred2 = some tn then some .two else none

/-- `PQS_NODE_get_up_idx`. -/
def Node.upIdx (n : Node) (tn : Tn) : Idx :=
  if n.outPred1 = some tn then n.inPred1 else if n.outPred2 = some tn then n.inPred2 else .invalid

/-- The bits of `truth_val`. -/
structure Truth where
  maySetTrue : Bool := false
  maySetFalse : Bool := false
  alwaysSetTrue : Bool := false
  alwaysSetFalse : Bool := false
  neverSetTrue : Bool := false
  neverSetFalse : Bool := false
  qualPredTrue : Bool := false
deriving DecidableEq, Repr

/-- `get_truth_info` for the output in a slot. -/
def Node.truthInfo (n : Node) (slot : Slot) : Truth :=
  let qual_is_true := n.qualPred = .always
  let falseOnly : Truth := { neverSetTrue := true, maySetFalse := true, alwaysSetFalse := true }
  let trueOnly : Truth := { neverSetFalse := true, maySetTrue := true, alwaysSetTrue := true }
  let either : Truth := { maySetTrue := true, maySetFalse := true }
  let neither : Truth := { neverSetTrue := true, neverSetFalse := true }
  let orFalse : Truth := { neverSetTrue := true, maySetFalse := true }
  let orTrue : Truth := { neverSetFalse := true, maySetTrue := true }
  let byCondition (onFalse onTrue otherwise : Truth) : Truth :=
    if n.conditionFalse then onFalse else if n.conditionTrue then onTrue else otherwise
  let result : Truth := match n.itype, slot with
    | .unc, .one =>
      let r := byCondition falseOnly trueOnly either
      { r with maySetFalse := r.maySetFalse || !qual_is_true }
    | .unc, .two =>
      let r := byCondition trueOnly falseOnly either
      { r with maySetFalse := r.maySetFalse || !qual_is_true }
    | .norm, .one => byCondition falseOnly trueOnly either
    | .norm, .two => byCondition trueOnly falseOnly either
    | .and, _ => byCondition falseOnly neither orFalse
    | .andcm, _ => byCondition neither falseOnly orFalse
    | .or, _ => byCondition neither trueOnly orTrue
    | .orcm, _ => byCondition trueOnly neither orTrue
    | .andorcm, .one => byCondition falseOnly neither orFalse
    | .andorcm, .two => byCondition trueOnly neither orTrue
    | .orandcm, .one => byCondition neither trueOnly orTrue
    | .orandcm, .two => byCondition neither falseOnly orFalse
    | .noPredicates, _ => {}
  -- the test of the last fixup is an `or` with a constant, so the bit is always cleared
  { result with qualPredTrue := qual_is_true, neverSetFalse := false }

/-- `may_set_TRUE`; false when `tn` is not an output. -/
def Node.maySetTrue (n : Node) (tn : Tn) : Bool := (n.slotOf tn).any fun slot => (n.truthInfo slot).maySetTrue

/-- `always_set_FALSE`. -/
def Node.alwaysSetFalse (n : Node) (tn : Tn) : Bool := (n.slotOf tn).any fun slot => (n.truthInfo slot).alwaysSetFalse

/-! ## The queries -/

/-- `PQS_TRUTH`. -/
inductive PqsTruth where
  | never
  | always
  | possible
deriving DecidableEq, Repr

/-- `never_true_together`. The cases `OR` and `ORCM` of the switch fall through to that of `AND`. -/
def Node.neverTrueTogether (n : Node) (t1 t2 : Tn) : PqsTruth :=
  if t1 = t2 then .never
  else if n.qualPred = .always ∧ (n.alwaysSetFalse t1 || n.alwaysSetFalse t2) then .always
  else if n.itype = .unc then .always
  else .possible

/-- The outputs `PQS_Mark_TN_Parents_TRUE` marks; indices go down from node to node, so `fuel` above the first is
enough. -/
def Manager.parents (m : Manager) : (fuel : Nat) → Idx → Tn → List (Nat × Tn)
  | fuel + 1, .node i, tn =>
    match m.data[i]? with
    | none => []
    | some n =>
      (i, tn) :: (if n.maySetTrue tn then n.qualTn.elim [] (m.parents fuel n.qualPred) else []) ++
        m.parents fuel (n.upIdx tn) tn
  | _, _, _ => []

/-- Whether an output of a node is marked. -/
def markedAt (marks : List (Nat × Tn)) (i : Nat) (out : Option Tn) : Bool := out.any fun t => (i, t) ∈ marks

/-- What an output of the node says of `tn2` when it is marked; one that is not marked says nothing against it. -/
def verdictAt (marks : List (Nat × Tn)) (i : Nat) (n : Node) (out : Option Tn) (tn2 : Tn) : PqsTruth :=
  if markedAt marks i out then out.elim .always fun tnm => n.neverTrueTogether tnm tn2 else .always

/-- `PQS_is_disjoint_helper`. -/
def Manager.disjointHelper (m : Manager) (marks : List (Nat × Tn)) : (fuel : Nat) → Idx → Tn → Bool
  | fuel + 1, .node i, tn2 =>
    match m.data[i]? with
    | none => false
    | some n =>
      if markedAt marks i n.outPred1 || markedAt marks i n.outPred2 then
        let val_1 := verdictAt marks i n n.outPred1 tn2 ≠ .never
        let val_2 := verdictAt marks i n n.outPred2 tn2 ≠ .never
        let need_upwalk :=
          verdictAt marks i n n.outPred1 tn2 = .possible ∨ verdictAt marks i n n.outPred2 tn2 = .possible
        let up_value := if need_upwalk then m.disjointHelper marks fuel (n.upIdx tn2) tn2 else true
        up_value && val_1 && val_2
      else
        let up_value := match n.upIdx tn2 with
          | .node j => m.disjointHelper marks fuel (.node j) tn2
          | _ => true
        let qual_value :=
          if n.maySetTrue tn2 then n.qualTn.elim false (m.disjointHelper marks fuel n.qualPred) else true
        qual_value && up_value
  | _, _, _ => false

/-- The part of `PQS_is_disjoint_h` that marks the ancestors of `tn1` and searches those of `tn2`. -/
def Manager.searchDisjoint (m : Manager) (tni1 tni2 : Idx) (tn1 tn2 : Tn) : Bool :=
  m.disjointHelper (m.parents m.data.length tni1 tn1) m.data.length tni2 tn2

/-- `PQS_is_disjoint` between two instances; none when the two are one and no node. -/
def Manager.isDisjointAt (m : Manager) (tni1 tni2 : Idx) (tn1 tn2 : Tn) : Option Bool :=
  if tn1 = tn2 then some false
  else if tni1 = .never ∨ tni2 = .never then some true
  else if tni1 = .always ∨ tni2 = .always then some false
  else if tni1 = tni2 then
    match tni1 with
    | .node i =>
      (m.data[i]?).map fun n =>
        match n.neverTrueTogether tn1 tn2 with
        | .always => true
        | .never => false
        | .possible => m.searchDisjoint tni1 tni2 tn1 tn2
    | _ => none
  else some (m.searchDisjoint tni1 tni2 tn1 tn2)

/-- `PQS_is_disjoint (tn1, tn2)`. -/
def isDisjoint (m : Manager) (tn1 tn2 : Tn) : Option Bool :=
  if m.noQuery tn1 || m.noQuery tn2 then some false
  else m.isDisjointAt (m.lastDef tn1) (m.lastDef tn2) tn1 tn2

/-- `PQS_is_disjoint (tns1, tns2)`. The loop compares its result with each answer by `!=`, and does not change it. -/
def isDisjointSets (m : Manager) (tns1 tns2 : List Tn) : Option Bool :=
  if tns1.any m.noQuery || tns2.any m.noQuery then some false
  else tns1.foldlM (fun result p => tns2.foldlM (fun result q =>
    (m.isDisjointAt (m.lastDef p) (m.lastDef q) p q).map fun _ => result) result) true

/-! ## What the instructions do -/

/-- The new value of an output: `q` is the qualifying predicate, `c` the condition, `old` the value before. -/
def output (itype : Itype) (slot : Slot) (q c old : Bool) : Bool :=
  match itype, slot with
  | .noPredicates, _ => old
  | .norm, .one => if q then c else old
  | .norm, .two => if q then !c else old
  | .unc, .one => q && c
  | .unc, .two => q && !c
  | .or, _ => if q && c then true else old
  | .orcm, _ => if q && !c then true else old
  | .and, _ => if q && !c then false else old
  | .andcm, _ => if q && c then false else old
  | .orandcm, .one => if q && c then true else old
  | .orandcm, .two => if q && c then false else old
  | .andorcm, .one => if q && !c then false else old
  | .andorcm, .two => if q && !c then true else old

/-- The values of the predicates. -/
abbrev State := Tn → Bool

/-- The value of the qualifying predicate. -/
def Inst.qualValue (inst : Inst) (s : State) : Bool := inst.qual.any fun q => q = p0 || s q

/-- One instruction whose condition comes out as `c`. -/
def Inst.exec (inst : Inst) (c : Bool) (s : State) : State := fun t =>
  if realOutput inst.p1 = some t then output inst.itype .one (inst.qualValue s) c (s t)
  else if realOutput inst.p2 = some t then output inst.itype .two (inst.qualValue s) c (s t)
  else s t

/-- The condition is what is known of it. -/
def Inst.Allows (inst : Inst) (c : Bool) : Prop :=
  (inst.conditionTrue = true → c = true) ∧ (inst.conditionFalse = true → c = false)

/-- An execution of a sequence, from some values to those at its end. -/
inductive Exec : List Inst → State → State → Prop
  | nil (s : State) : Exec [] s s
  | snoc {insts : List Inst} {inst : Inst} {c : Bool} {s s' : State} (h : Exec insts s s') (hc : inst.Allows c) :
      Exec (insts ++ [inst]) s (inst.exec c s')

end Path64.Pqs

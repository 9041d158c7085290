import Path64.Lib.Dominance
import Path64.Lib.Links
import Mathlib.Algebra.Group.Nat.Defs
import Mathlib.Logic.Function.Basic

/-!
# Placing phis again

`Insert_delete_phi` drops the phis of blocks whose number of predecessors has changed, inserts phis at the dominance
frontiers of the definitions and marks those that are needed, and deletes all others from their lists. Pointers to phis
are numbers, `NULL` is -1. Of the versions of a variable only whether they are the zero version is kept.

* `Prog` : the blocks, with their statements, dominators and frontiers;
* `State` : the phis, their lists and the hash table;
* `findDef`, `fixZeroVersion` : the definition that reaches an operand, which gets a version of its own;
* `deleteVarPhi`, `insertVarPhi`, `relink`, `insertDeletePhi` : the function, none when an assertion fails.
-/

namespace Path64.Rename

/-- `STMTREP`: the variable of a scalar store, and the variables of the chis with `Live ()`. -/
structure Stmt where
  store : Option Nat
  chis : List (Nat × Bool)

/-- `DEFREP`: a statement of a block, a chi of a statement, or a phi. -/
inductive DefRep where
  | stmt (b i : Nat)
  | chi (b i j : Nat)
  | phi (p : Nat)
deriving DecidableEq

/-- The part of the program that does not change. -/
structure Prog where
  entry : Nat
  /-- The blocks in the order of `CFG_ITER`. -/
  blocks : List Nat
  preds : Nat → List Nat
  idom : Nat → Option Nat
  depth : Nat → Nat
  idom_lt : ∀ b a, idom b = some a → depth a < depth b
  domFrontier : Nat → List Nat
  /-- `Phi_list () != NULL`. -/
  hasPhiList : Nat → Bool
  stmts : Nat → List Stmt
  volatile : Nat → Bool

/-- `PHI_NODE`: its variable, block and `Size ()`. -/
structure PhiNode where
  auxId : Nat
  bb : Nat
  size : Nat

/-- The phis and their lists; new phis get the number `fresh`. -/
structure PhiLists where
  fresh : Nat
  node : Nat → PhiNode
  next : Nat → Int
  head : Nat → Int
  tail : Nat → Int
  inDegree : Nat → Nat

structure State extends PhiLists where
  live : Nat → Bool
  /-- `Dse_dead () || Dce_dead ()`. -/
  dead : Nat → Bool
  visited : Nat → Bool
  /-- The operand is a zero version. -/
  opndZero : Nat → Nat → Bool
  /-- The result of a definition is a zero version. -/
  resultZero : DefRep → Bool
  /-- `Lookup_var_phi`, by block and variable. -/
  hash : Nat → Nat → Option Nat

/-! ## The definition of a version -/

/-- The statements of a block from the last on, each with its store before its chis. -/
def Prog.findInStmts (P : Prog) (b aux : Nat) : Option DefRep :=
  (P.stmts b).zipIdx.reverse.findSome? fun (s, i) =>
    if s.store = some aux then some (.stmt b i)
    else (s.chis.findIdx? fun c => c.2 && c.1 = aux).map (.chi b i)

/-- The first phi of a list for the variable; there are no more steps than phis. -/
def PhiLists.findPhi (s : PhiLists) (aux : Nat) : (fuel : Nat) → Int → Option (Option Nat)
  | 0, _ => none
  | fuel + 1, phi =>
    if phi = -1 then some none
    else if (s.node phi.toNat).auxId = aux then some (some phi.toNat)
    else s.findPhi aux fuel (s.next phi.toNat)

/-- `DEFREP::Find_def_stmt`, with the blocks that are left of the way up the dominator tree. -/
def PhiLists.findDefFrom (P : Prog) (s : PhiLists) (aux : Nat) : (blocks : Nat) → Nat → Option (Option DefRep)
  | 0, _ => none
  | blocks + 1, b =>
    match P.findInStmts b aux with
    | some d => some (some d)
    | none => do
      match ← s.findPhi aux (s.fresh + 1) (s.head b) with
      | some p => some (some (.phi p))
      | none =>
        match P.idom b with
        | some a => s.findDefFrom P aux blocks a
        | none => some none

def PhiLists.findDef (P : Prog) (s : PhiLists) (aux b : Nat) : Option (Option DefRep) :=
  s.findDefFrom P aux (P.depth b + 1) b

/-- The definition is a phi that is not live. -/
def State.deadPhi (s : State) : DefRep → Bool
  | .phi p => !s.live p || s.dead p
  | _ => false

/-- `CODEMAP::Fix_zero_version`; `Nth_pred` asserts that there is such a predecessor. -/
def fixZeroVersion (P : Prog) (s : State) (p opnd_idx : Nat) : Option State := do
  let pred ← (P.preds (s.node p).bb)[opnd_idx]?
  match ← s.findDef P (s.node p).auxId pred with
  | none => some s
  | some d =>
    some { s with
      resultZero := if s.deadPhi d || s.resultZero d then Function.update s.resultZero d false else s.resultZero
      opndZero := Function.update s.opndZero p (Function.update (s.opndZero p) opnd_idx false) }

/-! ## Deleting -/

/-- `delete_var_phi`. -/
def deleteVarPhi (P : Prog) (s : State) (p : Nat) : Option State := do
  let s ←
    if s.live p && !s.resultZero (.phi p) then
      (List.range (s.node p).size).foldlM (fun s pkid =>
        if s.opndZero p pkid then fixZeroVersion P s p pkid else some s) s
    else some s
  -- `Remove_var_phi_hash`
  let n := s.node p
  some { s with hash := Function.update s.hash n.bb (Function.update (s.hash n.bb) n.auxId none) }

/-- The loop that deletes all phis of a list. -/
def deleteList (P : Prog) : (fuel : Nat) → State → Int → Option State
  | 0, _, _ => none
  | fuel + 1, s, phi =>
    if phi = -1 then some s
    else do
      let next_phi := s.next phi.toNat
      let s ← deleteVarPhi P s phi.toNat
      deleteList P fuel s next_phi

/-- The loop that marks the phis of a list not visited. -/
def resetList : (fuel : Nat) → State → Int → Option State
  | 0, _, _ => none
  | fuel + 1, s, phi =>
    if phi = -1 then some s
    else resetList fuel { s with visited := Function.update s.visited phi.toNat false } (s.next phi.toNat)

/-- The number of predecessors has changed. -/
def stale (P : Prog) (s : PhiLists) (b : Nat) : Bool := P.hasPhiList b && s.inDegree b != (P.preds b).length

/-- A block of the first loop. -/
def clearStale (P : Prog) (s : State) (b : Nat) : Option State :=
  if !P.hasPhiList b then some s
  else if stale P s.toPhiLists b then do
    let s ← deleteList P (s.fresh + 1) s (s.head b)
    some { s with
      head := Function.update s.head b (-1)
      tail := Function.update s.tail b (-1)
      inDegree := Function.update s.inDegree b (P.preds b).length }
  else resetList (s.fresh + 1) s (s.head b)

/-! ## Inserting -/

/-- `SLIST::Append`. -/
def PhiLists.append (s : PhiLists) (b p : Nat) : PhiLists :=
  if s.head b = -1 then { s with head := Function.update s.head b p, tail := Function.update s.tail b p }
  else
    { s with
      next := Function.update (Function.update s.next p (s.next (s.tail b).toNat)) (s.tail b).toNat p
      tail := Function.update s.tail b p }

/-- `PHI_LIST::New_phi_node`; the size is an `mINT16`, and none when it does not hold the number of operands. -/
def newPhiNode (s : State) (b aux : Nat) : Option State :=
  if 2 ^ 15 ≤ s.inDegree b then none
  else
    let lists : PhiLists := { s.toPhiLists with
      fresh := s.fresh + 1
      node := Function.update s.node s.fresh ⟨aux, b, s.inDegree b⟩
      next := Function.update s.next s.fresh (-1) }
    some { s with
      toPhiLists := lists.append b s.fresh
      live := Function.update s.live s.fresh false
      dead := Function.update s.dead s.fresh false
      visited := Function.update s.visited s.fresh false
      opndZero := Function.update s.opndZero s.fresh fun _ => false }

/-- The new phi `p` of a block: entered into the hash table, live and visited, with a result of its own and zero
versions as operands. -/
def enterPhi (P : Prog) (s : State) (b aux p : Nat) : State :=
  { s with
    hash := Function.update s.hash b (Function.update (s.hash b) aux (some p))
    live := Function.update s.live p true
    resultZero := Function.update s.resultZero (.phi p) false
    visited := Function.update s.visited p true
    opndZero := Function.update s.opndZero p fun opnd => opnd < (P.preds b).length || s.opndZero p opnd }

/-- `Insert_var_phi`; there are no more calls inside each other than blocks. -/
def insertVarPhi (P : Prog) : (fuel : Nat) → State → (aux b : Nat) → Option State
  | 0, _, _, _ => none
  | fuel + 1, s, aux, b =>
    (P.domFrontier b).foldlM (fun s bb_phi =>
      match s.hash bb_phi aux with
      | none => do
        let s' ← newPhiNode s bb_phi aux
        insertVarPhi P fuel (enterPhi P s' bb_phi aux s.fresh) aux bb_phi
      | some phi =>
        if s.visited phi then some s
        else insertVarPhi P fuel { s with visited := Function.update s.visited phi true } aux bb_phi) s

/-- A definition of the variable in the block. -/
def insertFor (P : Prog) (b : Nat) (s : State) (aux : Nat) : Option State :=
  if P.volatile aux then some s else insertVarPhi P (P.blocks.length + 1) s aux b

/-- A statement of the second loop; a chi that is not live counts with the zero version of its variable. -/
def markStmt (P : Prog) (b : Nat) (s : State) (stmt : Stmt) : Option State := do
  let s ← stmt.store.elim (some s) (insertFor P b s)
  stmt.chis.foldlM (fun s chi => insertFor P b s chi.1) s

/-- A block of the second loop. -/
def markBlock (P : Prog) (s : State) (b : Nat) : Option State := (P.stmts b).foldlM (markStmt P b) s

/-! ## Relinking -/

/-- The loop that keeps the visited phis of a list and deletes the others, with the first and the last that was kept. -/
def relinkList (P : Prog) : (fuel : Nat) → State → (first last phi : Int) → Option (State × Int × Int)
  | 0, _, _, _, _ => none
  | fuel + 1, s, first, last, phi =>
    if phi = -1 then some (s, first, last)
    else
      let next_phi := s.next phi.toNat
      if s.visited phi.toNat then
        relinkList P fuel { s with visited := Function.update s.visited phi.toNat false }
          (if first = -1 then phi else first) phi next_phi
      else do
        let s ← deleteVarPhi P s phi.toNat
        let next := if last ≠ -1 then Function.update s.next last.toNat next_phi else s.next
        relinkList P fuel { s with next := Function.update next phi.toNat (-1) } first last next_phi

/-- A block of the third loop. -/
def relink (P : Prog) (s : State) (b : Nat) : Option State :=
  if !P.hasPhiList b then some s
  else do
    let (s, first, last) ← relinkList P (s.fresh + 1) s (-1) (-1) (s.head b)
    some { s with head := Function.update s.head b first, tail := Function.update s.tail b last }

/-- `Insert_delete_phi`. -/
def insertDeletePhi (P : Prog) (s : State) : Option State := do
  let s ← P.blocks.foldlM (clearStale P) s
  let s ← P.blocks.foldlM (markBlock P) s
  P.blocks.foldlM (relink P) s

end Path64.Rename

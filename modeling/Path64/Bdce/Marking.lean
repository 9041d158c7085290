import Path64.Bdce.Sound

/-!
# Bitwise dead code elimination: marking a program in SSA form

* `Coderep`, `Stmt`, `Program` : the hashed expressions, the statements with their mu and chi lists and
  the definitions of the versions (by a statement, a chi or a phi);
* `State` : `_livebits`, `_usecnt` and the live flags of the statements;
* `Call` : a call of `Mark_entire_var_live`, `Mark_var_bits_live`, `Mark_tree_bits_live` or
  `Mark_stmt_live`;
* `Program.expand` : what one call does itself and the calls it makes, each computed when its turn
  comes, since a call made before may have made more bits of the same node live;
* `Program.mark` : the recursion, with a bound on its depth;
* `survives` : the statements `Delete_dead_nodes` keeps.
-/

namespace Path64.Bdce

open Path64.Bits

/-! ## Programs -/

/-- How a version of a variable is defined; `none` stands for a version without a defining statement
(of a volatile variable). -/
inductive Def
  | none
  | phi (opnds : List Nat)
  | chi (stmt : Nat)
  | stid (stmt : Nat)

/-- A version of a variable (`CK_VAR`). -/
structure Version where
  dtyp : Mtype
  dsctyp : Mtype
  bitsInVar : Mask
  isPreg : Bool
  isZeroVersion : Bool
  defn : Def

/-- A hashed expression; operands are given by their coderep ids. -/
inductive Coderep
  | leaf (dtyp : Mtype) (constVal : Option (BitVec 64))
  | var (v : Version)
  | load (dtyp dsctyp : Mtype) (base : Nat) (second : Option Nat) (mu : Option Nat)
  | parm (dtyp : Mtype) (base : Nat) (mu : Option Nat)
  | op (n : OpNode) (kids : List Nat)

/-- The statements by what `Mark_stmt_live` does with them; `plain` are those that store nothing. -/
inductive StmtKind
  | prefetch (base : Nat)
  | returnVal (rtype : Mtype) (rhs : Nat)
  | plain (rhs : Option Nat)
  | stid (lhs rhs : Nat)
  | istore (base rhs : Nat) (dsctyp : Mtype)
  | istorex (index base rhs : Nat) (dsctyp : Mtype)
  | mstore (size base rhs : Nat)

/-- A statement with the operands of its mu list and its chi list, these with their live flags. -/
structure Stmt where
  kind : StmtKind
  mus : List Nat
  chis : List (Bool × Nat)

/-- A program in SSA form, and whether the pass propagates copies. -/
structure Program where
  target : Target
  copyPropagate : Bool
  cr : Nat → Coderep
  stmt : Nat → Stmt

/-! ## The state of the pass -/

/-- `_livebits`, `_usecnt` and the live statements. -/
structure State where
  livebits : Nat → Mask
  usecnt : Nat → Nat
  liveStmt : Nat → Bool

namespace State

/-- Nothing is live. -/
def init : State := ⟨fun _ => 0, fun _ => 0, fun _ => false⟩

/-- `More_bits_live`. -/
def moreBitsLive (st : State) (id : Nat) (live : Mask) : Bool := decide (live &&& ~~~st.livebits id ≠ 0)

/-- `Union_livebits`. -/
def unionLivebits (st : State) (id : Nat) (live : Mask) : State :=
  { st with livebits := fun i => if i = id then st.livebits id ||| live else st.livebits i }

/-- `IncUsecnt`, which stops at 2. -/
def incUsecnt (st : State) (id : Nat) : State :=
  { st with usecnt := fun i => if i = id ∧ st.usecnt id < 2 then st.usecnt id + 1 else st.usecnt i }

/-- `Set_live_stmt`. -/
def setLiveStmt (st : State) (s : Nat) : State :=
  { st with liveStmt := fun i => if i = s then true else st.liveStmt i }

end State

/-! ## The marking functions -/

/-- A call of one of the marking functions. -/
inductive Call
  | entire (v : Nat) (stmtVisit : Bool)
  | varBits (v : Nat) (live : Mask) (stmtVisit : Bool)
  | tree (id : Nat) (live : Mask) (stmtVisit : Bool)
  | stmt (s : Nat)

/-- What a call does: the state before the calls it makes, these calls, and what it does after them. -/
structure Expansion where
  entry : State
  calls : List (State → Call)
  finish : State → State

/-- A call that only changes the state. -/
def Expansion.done (st : State) : Expansion := ⟨st, [], id⟩

namespace Coderep

/-- `Dtyp`. -/
def dtyp : Coderep → Mtype
  | leaf t _ => t
  | var v => v.dtyp
  | load t _ _ _ _ => t
  | parm t _ _ => t
  | op n _ => n.dtyp

/-- What a parent reads of the node. -/
def operand : Coderep → Operand
  | leaf t c => ⟨t, false, c⟩
  | op n _ => ⟨n.dtyp, n.opr.makesPair, none⟩
  | c => ⟨c.dtyp, false, none⟩

/-- `Bits_in_coderep_result`. -/
def bitsInResult : Coderep → Mask
  | op n _ =>
    if n.opr = .cvt then
      if n.dtyp.isIntegral ∧ n.dsctyp.isIntegral then
        bitmaskOfSize (Nat.max n.dtyp.bitSize n.dsctyp.bitSize)
      else bitmaskOfSize n.dtyp.bitSize
    else bitsInType n.dtyp
  | c => bitsInType c.dtyp

/-- The bits of a version (`Bits_in_var`). -/
def bitsInVar : Coderep → Mask
  | var v => v.bitsInVar
  | _ => 0

/-- `CF_IS_ZERO_VERSION`. -/
def isZeroVersion : Coderep → Bool
  | var v => v.isZeroVersion
  | _ => false

/-- A version of a pseudo-register. -/
def isPreg : Coderep → Bool
  | var v => v.isPreg
  | _ => false

end Coderep

/-- The operators whose masks are computed again from `Livebits (cr)` before each call. -/
def Operator.rereads : Operator → Bool
  | .add | .sub | .mpy | .rrotate | .composeBits | .select => true
  | _ => false

namespace Program

variable (p : Program)

/-- The right-hand side of an `STID`. -/
def rhsOf (s : Nat) : Option Nat :=
  match (p.stmt s).kind with
  | .stid _ rhs => some rhs
  | _ => none

/-- A copy between pseudo-registers. -/
def isMove (s : Nat) : Bool :=
  match (p.stmt s).kind with
  | .stid lhs rhs => (p.cr lhs).isPreg && (p.cr rhs).isPreg
  | _ => false

/-- Those of the operands that are no zero versions. -/
def nonzero (ids : List Nat) : List Nat := ids.filter fun o => !(p.cr o).isZeroVersion

/-- `Mark_entire_var_live`. -/
def expandEntire (id : Nat) (v : Version) (stmtVisit : Bool) (st₀ : State) : Expansion :=
  let st := if stmtVisit then st₀.incUsecnt id else st₀
  if !st.moreBitsLive id v.bitsInVar then .done st
  else
    let stmtVisit := p.copyPropagate && decide (st.livebits id = 0)
    let calls : List Call := match v.defn with
      | .none => []
      | .phi opnds => (p.nonzero opnds).map fun o => .entire o stmtVisit
      | .chi s | .stid s => [.stmt s]
    ⟨st.unionLivebits id v.bitsInVar, calls.map fun c _ => c, fun st => st⟩

/-- `Mark_var_bits_live`. -/
def expandVarBits (id : Nat) (v : Version) (live₀ : Mask) (stmtVisit : Bool) (st₀ : State) : Expansion :=
  let live := live₀ &&& v.bitsInVar
  let st := if stmtVisit then st₀.incUsecnt id else st₀
  if !st.moreBitsLive id live then .done st
  else
    let stmtVisit := p.copyPropagate && decide (st.livebits id = 0)
    let calls : List Call := match v.defn with
      | .none => []
      | .phi opnds => (p.nonzero opnds).map fun o => .varBits o live stmtVisit
      | .chi s => if v.isZeroVersion then [] else [.stmt s]
      | .stid s => (p.rhsOf s).elim [] fun rhs => [.tree rhs live stmtVisit]
    ⟨st.unionLivebits id live, calls.map fun c _ => c, fun st => st⟩

/-- The mu operand of a load or parameter, unless it is a zero version. -/
def muCalls (mu : Option Nat) (stmtVisit : Bool) : List Call :=
  (p.nonzero mu.toList).map fun o => .entire o stmtVisit

/-- The calls of an operator node on its operands. -/
def opCalls (id : Nat) (n : OpNode) (kids : List Nat) (visitAll : Bool) (livebits live : Mask)
    (stmtVisit : Bool) : List (State → Call) :=
  let opnds := kids.map fun k => (p.cr k).operand
  let masks (l : Mask) := n.passes p.target opnds visitAll l live
  (List.range (masks livebits).length).map fun j st =>
    let pass := (masks (if n.opr.rereads then st.livebits id else livebits)).getD j (0, 0)
    .tree (kids.getD pass.1 id) pass.2 stmtVisit

/-- `Mark_tree_bits_live`. -/
def expandTree (id : Nat) (live : Mask) (stmtVisit₀ : Bool) (st₀ : State) : Expansion :=
  match p.cr id with
  | .var v =>
    let newLivebits := p.target.loadLive v.dsctyp v.bitsInVar live
    ⟨st₀, [fun _ => if v.bitsInVar = newLivebits then .entire id stmtVisit₀
      else .varBits id newLivebits stmtVisit₀], fun st => st⟩
  | c =>
    let stmtVisit := stmtVisit₀ && decide (st₀.usecnt id < 2)
    let st := if stmtVisit then st₀.incUsecnt id else st₀
    let visitAll := stmtVisit || decide (st.livebits id = 0)
    match c with
    | .load _ dsctyp base second mu =>
      let calls : List Call :=
        .tree base (bitsInType p.target.pointerType) stmtVisit ::
          (second.toList.map fun k => .tree k (p.cr k).bitsInResult stmtVisit) ++ p.muCalls mu stmtVisit
      ⟨st, (if visitAll then calls else []).map fun c _ => c,
        fun st => st.unionLivebits id (p.target.loadLive dsctyp (bitsInType dsctyp) live)⟩
    | .parm t base mu =>
      let live := live &&& bitsInType t
      if !stmtVisit && !st.moreBitsLive id live then .done st
      else ⟨st.unionLivebits id live,
        (Call.tree base live stmtVisit :: p.muCalls mu stmtVisit).map fun c _ => c, fun st => st⟩
    | .op n kids =>
      let live := n.trimmed live
      if !stmtVisit && !st.moreBitsLive id live then .done st
      else ⟨st.unionLivebits id live,
        p.opCalls id n kids visitAll (st.livebits id ||| live) live stmtVisit, fun st => st⟩
    | _ => .done (st.unionLivebits id live)

/-- The mask `Mark_stmt_live` marks the right-hand side of an `STID` with: for a copy between
pseudo-registers `Livebits` of the left-hand side, else the bits of the right-hand side, cut to the
memory type for a store to memory. -/
def stidMask (lhs rhs : Nat) (st : State) : Mask :=
  if (p.cr lhs).isPreg then
    if (p.cr rhs).isPreg then st.livebits lhs else (p.cr rhs).bitsInResult
  else
    match p.cr lhs with
    | .var v => (p.cr rhs).bitsInResult &&& bitsInType v.dsctyp
    | _ => (p.cr rhs).bitsInResult

/-- The calls of `Mark_stmt_live` on the expressions of a statement. -/
def stmtCalls (k : StmtKind) : List (State → Call) :=
  let tree (id : Nat) (m : Mask) : State → Call := fun _ => .tree id m p.copyPropagate
  match k with
  | .prefetch base => [tree base (bitsInType p.target.pointerType)]
  | .returnVal rtype rhs => [tree rhs (bitsInType rtype)]
  | .plain rhs => rhs.toList.map fun r => tree r (p.cr r).bitsInResult
  | .stid lhs rhs => [fun st => .tree rhs (p.stidMask lhs rhs st) p.copyPropagate]
  | .istore base rhs dsctyp =>
    [tree base (bitsInType p.target.pointerType), tree rhs ((p.cr rhs).bitsInResult &&& bitsInType dsctyp)]
  | .istorex index base rhs dsctyp =>
    [tree index (p.cr index).bitsInResult, tree base (bitsInType p.target.pointerType),
      tree rhs ((p.cr rhs).bitsInResult &&& bitsInType dsctyp)]
  | .mstore size base rhs =>
    [tree size (p.cr size).bitsInResult, tree base (bitsInType p.target.pointerType),
      tree rhs (BitVec.allOnes 64)]

/-- `Mark_stmt_live`. -/
def expandStmt (s : Nat) (st : State) : Expansion :=
  if st.liveStmt s then .done st
  else
    let stmt := p.stmt s
    let others := stmt.mus ++ (stmt.chis.filter (·.1)).map (·.2)
    ⟨st.setLiveStmt s,
      p.stmtCalls stmt.kind ++ ((p.nonzero others).map fun o _ => .entire o p.copyPropagate),
      fun st => st⟩

/-- What a call does and the calls it makes. -/
def expand (c : Call) (st : State) : Expansion :=
  match c with
  | .entire id stmtVisit =>
    match p.cr id with
    | .var v => p.expandEntire id v stmtVisit st
    | _ => .done st
  | .varBits id live stmtVisit =>
    match p.cr id with
    | .var v => p.expandVarBits id v live stmtVisit st
    | _ => .done st
  | .tree id live stmtVisit => p.expandTree id live stmtVisit st
  | .stmt s => p.expandStmt s st

/-- The marking recursion; `none` when it is deeper than the bound. -/
def mark : Nat → Call → State → Option State
  | 0, _, _ => none
  | fuel + 1, c, st =>
    let e := p.expand c st
    (e.calls.foldlM (fun st k => mark fuel (k st) st) e.entry).map e.finish

/-- `Delete_dead_nodes` keeps a statement that is live and an `STID` whose version has a live bit. -/
def survives (st : State) (s : Nat) : Bool :=
  st.liveStmt s ||
    match (p.stmt s).kind with
    | .stid lhs _ => decide (st.livebits lhs ≠ 0)
    | _ => false

end Program

end Path64.Bdce

import Path64.Graph.Basic

/-!
# Strongly connected components of a graph

`SCC_DIRECTED_GRAPH16` (`lno_scc.cxx`, `lno_scc.h`).

* `Scc` : a graph with the components that were found last; its operations drop them where they may change;
* `sccDfs`, `sccLoop`, `popTo`, `search`, `findScc` : the search, without a result where it leaves its work arrays;
* `getSccSize`, `getLevel`, `levelSort` : the queries that go over all vertices;
* `Call`, `perform`, `Reachable` : calls on valid arguments, and what they lead to.
-/

namespace Path64.Graph

open Lists

/-- The vertices are those up to the number of vertices. -/
def Multigraph.Compact (m : Multigraph) : Prop := ∀ v, v ∈ m.vertices ↔ 0 < v ∧ v ≤ m.vertices.card

/-! ## The search -/

/-- The work arrays of a search, which are as long as the number of vertices and one. -/
structure Work where
  link : Nat → Nat
  dfn : Nat → Nat
  visited : Nat → Bool
  inStack : Nat → Bool
  /-- `_dfs_stack`, from the top on. -/
  stack : List Nat
  dfCount : Nat
  sccId : Nat → Nat
  sccCnt : Nat

namespace Work

/-- Nothing is visited yet. `link` and `dfn` are written before they are read. -/
def start (sccId : Nat → Nat) : Work where
  link := fun _ => 0
  dfn := fun _ => 0
  visited := fun _ => false
  inStack := fun _ => false
  stack := []
  dfCount := 1
  sccId := sccId
  sccCnt := 1

/-- A visit begins. -/
def enter (w : Work) (n : Nat) : Work :=
  { w with
    visited := Function.update w.visited n true
    dfn := Function.update w.dfn n w.dfCount
    link := Function.update w.link n w.dfCount
    dfCount := w.dfCount + 1
    stack := n :: w.stack
    inStack := Function.update w.inStack n true }

/-- `if (x < _link[n]) _link[n] = x;` -/
def lower (w : Work) (n x : Nat) : Work := if x < w.link n then { w with link := Function.update w.link n x } else w

/-- The stack is popped down to `n`, and what was popped is a component. -/
def popTo (n : Nat) : List Nat → Work → Option Work
  | [], _ => none
  | j :: stack, w =>
    let w : Work := { w with
      stack
      inStack := Function.update w.inStack j false
      sccId := Function.update w.sccId j w.sccCnt }
    if j = n then some { w with sccCnt := w.sccCnt + 1 } else popTo n stack w

end Work

mutual

/-- `Scc_Dfs`, with work arrays of `size` elements. -/
def sccDfs (g : Graph16) (size : Nat) : (fuel n : Nat) → Work → Option Work
  | 0, _, _ => none
  | fuel + 1, n, w =>
    if n < size then do
      let w ← sccLoop g size fuel n (g.vfrom n) (w.enter n)
      if w.link n = w.dfn n then Work.popTo n w.stack w else some w
    else none

/-- The loop over the out edges of `n`. -/
def sccLoop (g : Graph16) (size : Nat) : (fuel n e : Nat) → Work → Option Work
  | 0, _, _, _ => none
  | fuel + 1, n, e, w =>
    if e = 0 then some w
    else if g.eto e < size then do
      let w ←
        if w.visited (g.eto e) = false then do
          let w ← sccDfs g size fuel (g.eto e) w
          some (w.lower n (w.link (g.eto e)))
        else some (if w.dfn (g.eto e) < w.dfn n ∧ w.inStack (g.eto e) = true then w.lower n (w.dfn (g.eto e)) else w)
      sccLoop g size fuel n (g.nfrom e) w
    else none

end

/-! ## The class -/

structure Scc where
  graph : Graph16
  sccCnt : Nat
  sccId : Nat → Nat

namespace Scc

variable (capacity : Nat) (s : Scc)

/-- `Scc_Is_Valid`. -/
def isValid : Bool := s.sccCnt != invalid

/-- `Invalidate_Scc`. -/
def invalidate : Scc := { s with sccCnt := invalid }

/-- The constructor, on the memory it is given. -/
def construct (memory : Scc) : Scc := { memory with graph := memory.graph.eraseGraph, sccCnt := invalid }

/-- As many turns as a search of the graph can take, one within the other. -/
def fuel : Nat := (s.graph.vcnt + 1) * (s.graph.elast + 3)

/-- The search of `Find_Scc`. -/
def search : Option Work :=
  (List.range' 1 s.graph.vcnt).foldlM
    (fun w i => if w.visited i = false then sccDfs s.graph (s.graph.vcnt + 1) s.fuel i w else some w)
    (Work.start s.sccId)

/-- `Find_Scc`. -/
def findScc : Option Scc :=
  if s.isValid = true then some s
  else s.search.map fun w => { s with sccId := w.sccId, sccCnt := w.sccCnt - 1 }

/-- `Get_Scc_Size`. -/
def getSccSize (i : Nat) : Option Nat :=
  s.findScc.map fun s' => ((List.range' 1 s.graph.vcnt).filter fun j => s'.sccId j == i).length

/-- `Add_Vertex`. -/
def addVertex : Nat × Scc :=
  let (v, graph) := s.graph.addVertex capacity
  (v, { s.invalidate with graph })

/-- The test of `Add_Edge` and `Add_Unique_Edge`. -/
def beforeAdd (source sink : Nat) : Scc :=
  if s.isValid = true ∧ s.sccId source ≠ s.sccId sink then s.invalidate else s

/-- `Add_Edge`. -/
def addEdge (source sink : Nat) : Nat × Scc :=
  let (e, graph) := s.graph.addEdge capacity source sink
  (e, { s.beforeAdd source sink with graph })

/-- `Add_Unique_Edge`. -/
def addUniqueEdge (source sink : Nat) : Option (Nat × Scc) :=
  (s.graph.addUniqueEdge capacity source sink).map fun (e, graph) => (e, { s.beforeAdd source sink with graph })

/-- `Delete_Vertex`. -/
def deleteVertex (v : Nat) : Option Scc := (s.graph.deleteVertex v).map fun graph => { s.invalidate with graph }

/-- `Delete_Edge`. -/
def deleteEdge (e : Nat) : Option Scc :=
  let s' := if s.isValid = true ∧ s.sccId (s.graph.efrom e) = s.sccId (s.graph.eto e) then s.invalidate else s
  (s.graph.deleteEdge e).map fun graph => { s' with graph }

/-- `Erase_Graph` is the one of the base class. -/
def eraseGraph : Scc := { s with graph := s.graph.eraseGraph }

/-! ## Levels -/

/-- `queue`, `level` and `max_level`. -/
structure Levels where
  queue : List Nat
  level : Nat → Nat
  maxLevel : Nat

/-- `queue` holds `vcnt` vertices and `level` one more element. -/
def Levels.enqueue (vcnt : Nat) (q : Levels) (v level : Nat) : Option Levels :=
  if q.queue.length < vcnt ∧ v ≤ vcnt then
    some { q with queue := q.queue ++ [v], level := Function.update q.level v level }
  else none

/-- The vertices without predecessors; the others may have no edge to themselves. -/
def levelRoots : List Nat → Levels → Option Levels
  | [], q => some q
  | i :: is, q =>
    if s.graph.vto i = 0 then q.enqueue s.graph.vcnt i 0 >>= levelRoots is
    else
      match s.graph.getEdgeBetween i i with
      | some 0 => levelRoots is q
      | _ => none

/-- The loop that removes the out edges of `j`, from `e` on. -/
def levelEdges (vcnt j : Nat) : (fuel e : Nat) → Graph16 → Levels → Option (Graph16 × Levels)
  | 0, _, _, _ => none
  | fuel + 1, e, g, q =>
    if e = 0 then some (g, q)
    else do
      let g' ← g.deleteEdge e
      let q ←
        if g'.vto (g.eto e) = 0 then do
          let q ← q.enqueue vcnt (g.eto e) (q.level j + 1)
          some { q with maxLevel := max q.maxLevel (q.level (g.eto e)) }
        else some q
      levelEdges vcnt j fuel (g.nfrom e) g' q

/-- The loop over the queue, from position `i` on. -/
def levelLoop (vcnt : Nat) : (fuel i : Nat) → Graph16 → Levels → Option Levels
  | 0, _, _, _ => none
  | fuel + 1, i, g, q =>
    match q.queue[i]? with
    | none => some q
    | some j => do
      let (g, q) ← levelEdges vcnt j (g.elast + 1) (g.vfrom j) g q
      levelLoop vcnt fuel (i + 1) g q

/-- What `Get_Level` and `Level_Sort` compute; a graph with a cycle is an assertion failure. -/
def levels (level : Nat → Nat) : Option Levels := do
  let s' ← s.findScc
  if s'.sccCnt = s.graph.vcnt then do
    let q ← s.levelRoots (List.range' 1 s.graph.vcnt) ⟨[], level, 0⟩
    levelLoop s.graph.vcnt (s.graph.vcnt + 1) 0 s.graph q
  else none

/-- `Get_Level`: the maximal level, and the levels. -/
def getLevel (level : Nat → Nat) : Option (Nat × (Nat → Nat)) := (s.levels level).map fun q => (q.maxLevel, q.level)

/-- `Level_Sort`: the maximal level, and the queue. -/
def levelSort : Option (Nat × List Nat) := (s.levels fun _ => 0).map fun q => (q.maxLevel, q.queue)

/-! ## Runs -/

/-- A call, with the result of an operation of the graph or 0; any query may search. -/
def perform : Call → Option (Nat × Scc)
  | .addVertex => some (s.addVertex capacity)
  | .addEdge source sink => some (s.addEdge capacity source sink)
  | .addUniqueEdge source sink => s.addUniqueEdge capacity source sink
  | .deleteEdge e => s.deleteEdge e |>.map ((0, ·))
  | .deleteVertex v => s.deleteVertex v |>.map ((0, ·))
  | .eraseGraph => some (0, s.eraseGraph)

/-- What calls on valid arguments lead to, whatever the memory held, and queries between them when the vertices are
those up to their number. -/
inductive Reachable (capacity : Nat) : Scc → Prop
  | construct (memory : Scc) : Reachable capacity memory.construct
  | call {s s' : Scc} {c : Call} {r : Nat} (h : Reachable capacity s) (hc : s.graph.Valid c)
    (hrun : s.perform capacity c = some (r, s')) : Reachable capacity s'
  | query {s s' : Scc} (h : Reachable capacity s) (hc : s.graph.abs.Compact) (hrun : s.findScc = some s') :
    Reachable capacity s'

end Scc

end Path64.Graph

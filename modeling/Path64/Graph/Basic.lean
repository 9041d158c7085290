import Path64.Lib.Pool
import Mathlib.Data.Finset.Image
import Mathlib.Data.Finset.Union

/-!
# Directed graphs in two arrays

`DIRECTED_GRAPH16` (`graph_template.h`, `cxx_graph.h`).

* `Graph16` : the fields of the vertices and of the edges, the last slots, the counters and the first free slots;
* `addVertex`, `addEdge`, `addUniqueEdge`, `deleteEdge`, `deleteVertex`, `eraseGraph` : the operations;
* `Call`, `perform`, `Reachable` : calls on valid arguments, and the graphs that they lead to;
* `Multigraph`, `Multigraph.Step` : what the operations are for; `Graph16.abs` : the multigraph that is stored.

The loops stop after as many turns as there are slots, without a result.
-/

namespace Path64.Graph

open Lists

/-- `INVALID_VINDEX16`, which marks what is free. -/
def invalid : Nat := 0xffff

/-- The arrays `_v` and `_e`, field by field. A free vertex or edge is linked by `_from` and marked by `_to`. -/
structure Graph16 where
  /-- `_from` of a vertex: its first out edge. -/
  vfrom : Nat → Nat
  /-- `_to` of a vertex: its first in edge. -/
  vto : Nat → Nat
  /-- `_v.Lastidx()`. -/
  vlast : Nat
  vcnt : Nat
  vfree : Nat
  /-- `_from` of an edge: its source. -/
  efrom : Nat → Nat
  /-- `_to` of an edge: its sink. -/
  eto : Nat → Nat
  /-- `_nfrom`: the next edge of the same source. -/
  nfrom : Nat → Nat
  /-- `_nto`: the next edge of the same sink. -/
  nto : Nat → Nat
  /-- `_e.Lastidx()`. -/
  elast : Nat
  ecnt : Nat
  efree : Nat

namespace Graph16

variable (capacity : Nat) (g : Graph16)

/-- `VERTEX16::Is_Free`. -/
def vertexIsFree (v : Nat) : Bool := g.vto v == invalid

/-- `EDGE16::Is_Free`. -/
def edgeIsFree (e : Nat) : Bool := g.eto e == invalid

/-- `Vertex_Is_In_Graph`. -/
def vertexIsInGraph (v : Nat) : Bool := isLive g.vlast g.vertexIsFree v

/-- `Edge_Is_In_Graph`. -/
def edgeIsInGraph (e : Nat) : Bool := isLive g.elast g.edgeIsFree e

/-- `Erase_Graph`; also what the constructor makes of the memory it is given. -/
def eraseGraph : Graph16 := { g with vlast := 0, vcnt := 0, vfree := 0, elast := 0, ecnt := 0, efree := 0 }

/-- `Add_Vertex`: 0 when there are too many. -/
def addVertex : Nat × Graph16 :=
  if g.vcnt = capacity then (0, g)
  else
    let (v, vlast, vfree) := alloc g.vlast g.vfree g.vfrom
    (v, { g with
      vfrom := Function.update g.vfrom v 0
      vto := Function.update g.vto v 0
      vlast, vfree
      vcnt := g.vcnt + 1 })

/-- `Add_Edge`: 0 when there are too many. -/
def addEdge (source sink : Nat) : Nat × Graph16 :=
  if g.ecnt = capacity then (0, g)
  else
    let (e, elast, efree) := alloc g.elast g.efree g.efrom
    (e, { g with
      efrom := Function.update g.efrom e source
      eto := Function.update g.eto e sink
      nfrom := Function.update g.nfrom e (g.vfrom source)
      vfrom := Function.update g.vfrom source e
      nto := Function.update g.nto e (g.vto sink)
      vto := Function.update g.vto sink e
      elast, efree
      ecnt := g.ecnt + 1 })

/-- `Get_Edge(from, to)`: 0 when there is none. -/
def getEdgeBetween (source sink : Nat) : Option Nat :=
  follow (fun e => e == 0 || g.eto e == sink) g.nfrom (g.elast + 1) (g.vfrom source)

/-- `Add_Unique_Edge`. -/
def addUniqueEdge (source sink : Nat) : Option (Nat × Graph16) := do
  let e ← g.getEdgeBetween source sink
  if e ≠ 0 then some (e, g) else some (g.addEdge capacity source sink)

/-- `Delete_Edge`. -/
def deleteEdge (e : Nat) : Option Graph16 := do
  let (out, nfrom) ← unlink (g.elast + 1) (g.vfrom (g.efrom e)) g.nfrom e
  let (into, nto) ← unlink (g.elast + 1) (g.vto (g.eto e)) g.nto e
  some { g with
    vfrom := Function.update g.vfrom (g.efrom e) out
    vto := Function.update g.vto (g.eto e) into
    efrom := Function.update g.efrom e g.efree
    eto := Function.update g.eto e invalid
    nfrom, nto
    efree := e
    ecnt := g.ecnt - 1 }

/-- `while (e = first()) Delete_Edge(e);` -/
def deleteEdges (first : Graph16 → Nat) : Nat → Graph16 → Option Graph16
  | 0, _ => none
  | fuel + 1, g => if first g = 0 then some g else g.deleteEdge (first g) >>= deleteEdges first fuel

/-- `Delete_Vertex`. -/
def deleteVertex (v : Nat) : Option Graph16 := do
  let g ← deleteEdges (fun g => g.vto v) (g.elast + 1) g
  let g ← deleteEdges (fun g => g.vfrom v) (g.elast + 1) g
  some { g with
    vfrom := Function.update g.vfrom v g.vfree
    vto := Function.update g.vto v invalid
    vfree := v
    vcnt := g.vcnt - 1 }

/-- `Get_Vertex`. -/
def getVertex : Nat := if g.vcnt = 0 then 0 else skipFree g.vertexIsFree g.vlast

/-- `Get_Next_Vertex`. -/
def getNextVertex (v : Nat) : Nat := skipFree g.vertexIsFree (v - 1)

/-- `Get_Edge`. -/
def getEdge : Nat := if g.ecnt = 0 then 0 else skipFree g.edgeIsFree g.elast

/-- `Get_Next_Edge`. -/
def getNextEdge (e : Nat) : Nat := skipFree g.edgeIsFree (e - 1)

end Graph16

/-! ## Runs -/

inductive Call where
  | addVertex
  | addEdge (source sink : Nat)
  | addUniqueEdge (source sink : Nat)
  | deleteEdge (e : Nat)
  | deleteVertex (v : Nat)
  | eraseGraph
  deriving DecidableEq, Repr

def Call.isAdd : Call → Bool
  | .addVertex | .addEdge _ _ | .addUniqueEdge _ _ => true
  | _ => false

namespace Graph16

/-- A call, with its result or 0. -/
def perform (capacity : Nat) (g : Graph16) : Call → Option (Nat × Graph16)
  | .addVertex => some (g.addVertex capacity)
  | .addEdge source sink => some (g.addEdge capacity source sink)
  | .addUniqueEdge source sink => g.addUniqueEdge capacity source sink
  | .deleteEdge e => (g.deleteEdge e).map ((0, ·))
  | .deleteVertex v => (g.deleteVertex v).map ((0, ·))
  | .eraseGraph => some (0, g.eraseGraph)

/-- The arguments are in the graph. -/
def Valid (g : Graph16) : Call → Prop
  | .addVertex | .eraseGraph => True
  | .addEdge source sink | .addUniqueEdge source sink =>
    g.vertexIsInGraph source = true ∧ g.vertexIsInGraph sink = true
  | .deleteEdge e => g.edgeIsInGraph e = true
  | .deleteVertex v => g.vertexIsInGraph v = true

/-- The graphs that calls on valid arguments lead to, whatever the memory held. -/
inductive Reachable (capacity : Nat) : Graph16 → Prop
  | construct (memory : Graph16) : Reachable capacity memory.eraseGraph
  | call {g g' : Graph16} {c : Call} {r : Nat} (h : Reachable capacity g) (hc : g.Valid c)
    (hrun : g.perform capacity c = some (r, g')) : Reachable capacity g'

end Graph16

/-! ## Multigraphs -/

/-- Vertices, and edges with their source and their sink. -/
structure Multigraph where
  vertices : Finset Nat
  edges : Finset (Nat × Nat × Nat)

namespace Multigraph

variable (capacity : Nat) (m : Multigraph)

/-- The edges that do not touch a vertex. -/
def without (v : Nat) : Finset (Nat × Nat × Nat) := {e ∈ m.edges | e.2.1 ≠ v ∧ e.2.2 ≠ v}

/-- A new edge, or 0 and no change. -/
inductive AddsEdge (source sink : Nat) : Nat → Multigraph → Prop
  | full (h : m.edges.card = capacity) : AddsEdge source sink 0 m
  | new (e : Nat) (h : m.edges.card < capacity) (he : e ≠ 0) (hnew : ∀ s t, (e, s, t) ∉ m.edges) :
    AddsEdge source sink e { m with edges := insert (e, source, sink) m.edges }

/-- What a call does, and its result. -/
inductive Step : Call → Nat → Multigraph → Prop
  | vertexFull (h : m.vertices.card = capacity) : Step .addVertex 0 m
  | vertex (v : Nat) (h : m.vertices.card < capacity) (hv : v ≠ 0) (hnew : v ∉ m.vertices) :
    Step .addVertex v { m with vertices := insert v m.vertices }
  | edge {source sink e : Nat} {m' : Multigraph} (h : m.AddsEdge capacity source sink e m') :
    Step (.addEdge source sink) e m'
  | oldEdge {source sink e : Nat} (h : (e, source, sink) ∈ m.edges) : Step (.addUniqueEdge source sink) e m
  | newEdge {source sink e : Nat} {m' : Multigraph} (hno : ∀ e, (e, source, sink) ∉ m.edges)
    (h : m.AddsEdge capacity source sink e m') : Step (.addUniqueEdge source sink) e m'
  | deleteEdge (e : Nat) : Step (.deleteEdge e) 0 { m with edges := {x ∈ m.edges | x.1 ≠ e} }
  | deleteVertex (v : Nat) : Step (.deleteVertex v) 0 ⟨m.vertices.erase v, m.without v⟩
  | eraseGraph : Step .eraseGraph 0 ⟨∅, ∅⟩

end Multigraph

namespace Graph16

variable (g : Graph16)

/-- The multigraph that is stored. -/
def abs : Multigraph where
  vertices := liveSlots g.vlast g.vertexIsFree
  edges := (liveSlots g.elast g.edgeIsFree).image fun e => (e, g.efrom e, g.eto e)

/-- What holds of the arrays between calls: the lists of edges of every vertex, the free lists, the counters. -/
structure Stored (capacity : Nat) : Prop where
  out : Buckets g.vfrom g.nfrom g.efrom (g.vertexIsInGraph · = true) (g.edgeIsInGraph · = true)
  into : Buckets g.vto g.nto g.eto (g.vertexIsInGraph · = true) (g.edgeIsInGraph · = true)
  ends : ∀ e, g.edgeIsInGraph e = true → g.vertexIsInGraph (g.efrom e) = true ∧ g.vertexIsInGraph (g.eto e) = true
  freeVertices : Pool g.vlast g.vfree g.vfrom g.vertexIsFree
  freeEdges : Pool g.elast g.efree g.efrom g.edgeIsFree
  vcnt : g.vcnt = g.abs.vertices.card
  ecnt : g.ecnt = g.abs.edges.card
  vlast : g.vlast ≤ capacity
  elast : g.elast ≤ capacity

/-- `Get_Vertex` and `Get_Next_Vertex`, and those of edges, visit what is in the graph once each. -/
structure Enumerated : Prop where
  vertices : ∃ l, Threads g.getNextVertex g.getVertex l ∧ ∀ v, v ∈ l ↔ g.vertexIsInGraph v = true
  edges : ∃ l, Threads g.getNextEdge g.getEdge l ∧ ∀ e, e ∈ l ↔ g.edgeIsInGraph e = true

end Graph16

end Path64.Graph

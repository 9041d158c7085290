import Path64.Cg.Dominators

/-!
# Loop descriptors

`LOOP_DESCR_Detect_Loops` makes a descriptor for every back edge, merges those with one head, and keeps a list in which
a loop comes before those that contain it. The flags that it leaves at the blocks and the trip counts that are dropped
when a loop may be left early follow from the list and are left out.

* `addAncestors`, `newLoop` : the natural loop of a back edge;
* `place` : a new loop is merged and entered into the list;
* `setNestlevels`, `countExits`, `detectLoops` : the whole function;
* `findLoop`, `isExitEdge`, `nextEnclosingLoop` : the queries;
* `mapDepthFirst`, `depthFirstMap` : the numbering of the blocks.
-/

namespace Path64.Cg

/-- `LOOP_DESCR`. -/
structure LoopDescr where
  bbset : Finset Nat
  loophead : Nat
  nestlevel : Nat := 1
  numExits : Nat := 0
deriving DecidableEq

/-- `BB_Add_Ancestors`; whether the start is met again, which the caller does not use, is left out. -/
def addAncestors (preds : Nat → List Nat) : (fuel : Nat) → Finset Nat → Nat → Option (Finset Nat)
  | 0, _, _ => none
  | fuel + 1, set, bb =>
    (preds bb).foldlM (fun set pred => if pred ∈ set then some set else addAncestors preds fuel set pred) (insert bb set)

/-! ## The list of loops -/

/-- The scan that enters a new loop: loops with its head are merged into it, and it stops before the first other loop
that contains it. -/
def place (newloop : LoopDescr) : List LoopDescr → List LoopDescr
  | [] => [newloop]
  | cloop :: rest =>
    if cloop.loophead = newloop.loophead then place { newloop with bbset := newloop.bbset ∪ cloop.bbset } rest
    else if newloop.bbset ⊆ cloop.bbset then newloop :: cloop :: rest
    else cloop :: place newloop rest

namespace Cfg

variable (g : Cfg)

/-- The descriptor for a back edge. -/
def newLoop (fuel bb succ : Nat) : Option LoopDescr :=
  if bb = succ then some { bbset := {succ}, loophead := succ }
  else (addAncestors g.preds fuel {succ} bb).map fun set => { bbset := set, loophead := succ }

/-- An edge of the scan. -/
def scanSucc (dom : Sets) (dfo : Nat → Nat) (fuel bb : Nat) (loops : List LoopDescr) (succ : Nat) :
    Option (List LoopDescr) :=
  if dfo bb < dfo succ then some loops
  else if succ ∉ dom bb then some loops
  else (g.newLoop fuel bb succ).map fun newloop => place newloop loops

/-- The edges of a block; blocks that cannot be reached are skipped. -/
def scanBlock (dom : Sets) (dfo : Nat → Nat) (fuel : Nat) (loops : List LoopDescr) (bb : Nat) :
    Option (List LoopDescr) :=
  if dfo bb = 0 then some loops else (g.succs bb).foldlM (g.scanSucc dom dfo fuel bb) loops

end Cfg

/-- The nest level counts the loops further on that contain the loop. -/
def setNestlevels : List LoopDescr → List LoopDescr
  | [] => []
  | cloop :: rest =>
    { cloop with nestlevel := cloop.nestlevel + rest.countP fun encl_loop => cloop.bbset ⊆ encl_loop.bbset } ::
      setNestlevels rest

/-! ## Queries -/

/-- The loops from `LOOP_DESCR_map` of the block on. -/
def fromMap (loops : List LoopDescr) (bb : Nat) : List LoopDescr := loops.dropWhile fun loop => bb ∉ loop.bbset

/-- `LOOP_DESCR_Find_Loop`. -/
def findLoop (loops : List LoopDescr) (bb : Nat) : Option LoopDescr := (fromMap loops bb).head?

/-- The loop of `LOOP_DESCR_Is_Exit_Edge`. -/
def exitScan (bb succ : Nat) : Option LoopDescr → List LoopDescr → Option LoopDescr
  | exitloop, [] => exitloop
  | exitloop, loop :: rest =>
    if bb ∈ loop.bbset ∧ succ ∉ loop.bbset then
      if loop.nestlevel = 1 then some loop else exitScan bb succ (some loop) rest
    else exitScan bb succ exitloop rest

/-- `LOOP_DESCR_Is_Exit_Edge`. -/
def isExitEdge (loops : List LoopDescr) (bb succ : Nat) : Option LoopDescr := exitScan bb succ none (fromMap loops bb)

/-- `LOOP_DESCR_Next_Enclosing_Loop`: `rest` are the loops after `loop` in the list. -/
def nextEnclosingLoop (loop : LoopDescr) (rest : List LoopDescr) : Option LoopDescr :=
  if loop.nestlevel > 1 then
    rest.find? fun enclosing => enclosing.nestlevel < loop.nestlevel ∧ loop.bbset ⊆ enclosing.bbset
  else none

/-! ## The whole function -/

/-- An exit through the edge. -/
def countExit (bb : Nat) (loops : List LoopDescr) (succ : Nat) : List LoopDescr :=
  match isExitEdge loops bb succ with
  | none => loops
  | some exitloop => loops.map fun loop =>
    if loop.loophead = exitloop.loophead then { loop with numExits := loop.numExits + 1 } else loop

namespace Cfg

variable (g : Cfg)

/-- The exits of the loops, from the blocks that are in some loop. -/
def countExits (dfo : Nat → Nat) (loops : List LoopDescr) : List LoopDescr :=
  g.order.foldl (fun loops bb =>
    if dfo bb = 0 ∨ findLoop loops bb = none then loops else (g.succs bb).foldl (countExit bb) loops) loops

/-- `LOOP_DESCR_Detect_Loops`, with the dominator sets and the depth-first numbers of the blocks. -/
def detectLoops (dom : Sets) (dfo : Nat → Nat) (fuel : Nat) : Option (List LoopDescr) :=
  (g.order.foldlM (g.scanBlock dom dfo fuel) []).map fun loops => g.countExits dfo (setNestlevels loops)

/-! ## The numbering -/

/-- `map_depth_first`, with the numbers so far and the largest of them. -/
def mapDepthFirst : (fuel : Nat) → (Nat → Nat) × Nat → Nat → Option ((Nat → Nat) × Nat)
  | 0, _, _ => none
  | fuel + 1, (map, max_id), bb =>
    (g.succs bb).foldlM (fun s succ => if s.1 succ = 0 then mapDepthFirst fuel s succ else some s)
      (Function.update map bb (max_id + 1), max_id + 1)

/-- `BB_Depth_First_Map (NULL, NULL)` from the entries in `Entry_BB_Head`. -/
def depthFirstMap (entries : List Nat) (fuel : Nat) : Option (Nat → Nat) :=
  (entries.foldlM (fun s bb => if s.1 bb ≠ 0 then some s else g.mapDepthFirst fuel s bb) (fun _ => 0, 0)).map (·.1)

end Cfg

end Path64.Cg

import Path64.Dvector.Basic
import Path64.Dvector.Gamma
import Path64.Lib.Selection
import Path64.Soe.Store
import Path64.Soe.Lists
import Path64.Dep.Compute
import Path64.Lib.Checked
import Path64.SnlDeps.Basic
import Path64.DivRem.Expand
import Path64.Lib.Magic
import Path64.SnlDeps.Permutable
import Path64.DivRem.Multiplier
import Path64.DivRem.Division32
import Path64.DivRem.PseudoInverse
import Path64.DivRem.Division64
import Path64.Access.Vector
import Path64.Access.Shifts
import Path64.Access.LowerBounds
import Path64.Lib.Heap
import Path64.Util.PriorityQueue
import Path64.Lib.Search
import Path64.Util.Bitset
import Path64.Util.BitsetSets
import Path64.Bdce.Basic
import Path64.Bdce.Closure
import Path64.Bdce.FixedPoint
import Path64.Bdce.Shifts
import Path64.Bdce.Trees
import Path64.Bdce.Redundant
import Path64.IdMap.Refinement
import Path64.Dom.Frontier
import Path64.Swp.CodeGen
import Path64.Swp.Allocator
import Path64.Swp.Mve
import Path64.Strtab.Runs
import Path64.Lu.Correct
import Path64.SnlDeps.Arith
import Path64.SnlDeps.Faults
import Path64.Dep.Collapse
import Path64.Dep.SimpleGcd
import Path64.Soe.Redundant
import Path64.Soe.Project
import Path64.Soe.Substitute
import Path64.Soe.Acyclic
import Path64.Soe.Equalities
import Path64.Soe.ChangeBase
import Path64.Dep.WorkRuns
import Path64.Simp.ModRem
import Path64.Simp.CancelSound
import Path64.Simp.Relop
import Path64.Simp.EqNeq
import Path64.Simp.Shift
import Path64.Simp.Cvtl
import Path64.Access.Conditions
import Path64.Access.Delinearize
import Path64.Targ.QuadFloat
import Path64.Lno.Frac
import Path64.Util.BitsetCompound
import Path64.Simp.Sign
import Path64.Simp.Compare
import Path64.Graph.Refines
import Path64.Graph.Condense
import Path64.Targ.Atoll
import Path64.Swp.Search
import Path64.Swp.Reorder
import Path64.Swp.Mindist
import Path64.Swp.Intervals
import Path64.Pqs.Disjoint
import Path64.Cg.Loops
import Path64.Segmented.Runs
import Path64.Opt.BitTests
import Path64.Targ.Power
import Path64.Targ.Widen
import Path64.Targ.Folding
import Path64.Rename.Placed
import Path64.Soe.Proved
import Path64.Swp.Pipeline

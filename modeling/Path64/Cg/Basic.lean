import Mathlib.Data.List.Basic
import Path64.Lib.Dominance

/-!
# Flow graphs of the code generator

The blocks of a region in the order of their list, with their edges. Blocks are numbered from 1, so that 0 and the
number after the last block can stand for a block before all entries and one after all exits.
-/

namespace Path64.Cg

/-- The blocks from `REGION_First_BB` on; `entry` and `exit` hold of the entries and exits of the region too. -/
structure Cfg where
  /-- `PU_BB_Count`. -/
  count : Nat
  /-- The ids of the blocks, in the order of the list. -/
  order : List Nat
  preds : Nat → List Nat
  succs : Nat → List Nat
  entry : Nat → Bool
  exit : Nat → Bool
  nonempty : order ≠ []
  nodup : order.Nodup
  ids : ∀ b ∈ order, 1 ≤ b ∧ b ≤ count
  preds_mem : ∀ b ∈ order, ∀ p ∈ preds b, p ∈ order
  succs_mem : ∀ b ∈ order, ∀ s ∈ succs b, s ∈ order
  preds_iff : ∀ b ∈ order, ∀ p ∈ order, p ∈ preds b ↔ b ∈ succs p

namespace Cfg

/-- `BB_ID_PRE_ENTRY`. -/
def preEntry : Nat := 0

/-- `BB_ID_POST_EXIT`. -/
def postExit (g : Cfg) : Nat := 1 + g.count

/-- An edge of the graph. -/
def Edge (g : Cfg) (a b : Nat) : Prop := a ∈ g.order ∧ b ∈ g.succs a

variable {g : Cfg} {a b : Nat}

theorem Edge.mem (h : g.Edge a b) : b ∈ g.order := g.succs_mem a h.1 b h.2

theorem edge_iff_preds (hb : b ∈ g.order) : g.Edge a b ↔ a ∈ g.preds b := by
  constructor
  · rintro ⟨ha, he⟩
    exact (g.preds_iff b hb a ha).mpr he
  · intro ha
    have ha' := g.preds_mem b hb a ha
    exact ⟨ha', (g.preds_iff b hb a ha').mp ha⟩

theorem ne_preEntry (hb : b ∈ g.order) : b ≠ preEntry := by
  have := (g.ids b hb).1
  unfold preEntry
  omega

theorem ne_postExit (hb : b ∈ g.order) : b ≠ g.postExit := by
  have := (g.ids b hb).2
  unfold postExit
  omega

end Cfg

end Path64.Cg

import Mathlib.Order.Bounds.Basic

/-!
# Longest paths into a vertex

* `PathTo` : a path of a number of steps ends in a vertex;
* `Longest` : the greatest number of steps of such a path; `longest_zero`, `longest_succ` : it from those before.
-/

namespace Path64

universe u

variable {V : Type u} {R : V → V → Prop} {u v w : V} {k n : Nat}

/-- A path of `n` steps ends in `v`. -/
inductive PathTo (R : V → V → Prop) : (n : Nat) → (v : V) → Prop
  | start (v : V) : PathTo R 0 v
  | step {n : Nat} {u v : V} (h : PathTo R n u) (huv : R u v) : PathTo R (n + 1) v

/-- The longest path to `v` has `n` steps. -/
def Longest (R : V → V → Prop) (v : V) (n : Nat) : Prop := IsGreatest {k | PathTo R k v} n

theorem longest_zero (h : ∀ u, ¬R u v) : Longest R v 0 := by
  refine ⟨.start v, fun k hk => ?_⟩
  cases hk with
  | start => exact Nat.le_refl 0
  | step _ huv => exact absurd huv (h _)

/-- The longest path comes through `u` when no other predecessor has a longer one. -/
theorem longest_succ (huv : R u v) (hu : Longest R u n) (h : ∀ w, R w v → ∃ k ≤ n, Longest R w k) :
    Longest R v (n + 1) := by
  refine ⟨PathTo.step hu.1 huv, fun k hk => ?_⟩
  cases hk with
  | start => exact Nat.zero_le _
  | step hw hwv =>
    obtain ⟨k, hk, hlongest⟩ := h _ hwv
    exact Nat.succ_le_succ ((hlongest.2 hw).trans hk)

theorem Longest.lt (hu : Longest R u n) (hv : Longest R v k) (huv : R u v) : n < k := hv.2 (PathTo.step hu.1 huv)

end Path64

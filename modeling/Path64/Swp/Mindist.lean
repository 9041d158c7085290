import Mathlib
import Path64.Lib.Relaxation

/-!
# Software pipelining: the longest-path matrix

`SWP_MINDIST` holds the greatest weight, `latency - omega * ii`, of the paths between two operations of a loop. It is
filled by the algorithm of Floyd and Warshall in 16-bit integers, with `-9999` where there is no path.

* `mindist` : the constructor, with and without `Is_True_On`;
* `foldl_relaxEntry`, `stage_eq` : what the two inner loops do when the entry on the diagonal is not positive;
* `Reads.after_eq` : the table keeps up with the one of `longest`, whichever way its entries are read;
* `meets_iff` : with `Is_True_On` the matrix is right; without it, the sums with `-9999` are taken for paths.
-/

namespace Path64.Swp

open Lib

/-! ## The constructor -/

/-- `ARC`: `ARC_succ`, `ARC_latency` and `ARC_omega`. -/
structure Arc where
  succ : Nat
  latency : Int
  omega : Nat

/-- `ARC_latency (succ_arc) - ARC_omega (succ_arc) * ii`. -/
def Arc.weight (a : Arc) (ii : Nat) : Int := a.latency - a.omega * ii

/-- The dependences between the operations of a loop, `START` before and `STOP` behind them. -/
structure DepGraph where
  opCount : Nat
  succs : Nat → List Arc
  succ_mem : ∀ i, ∀ a ∈ succs i, a.succ ∈ List.range' 1 opCount

namespace DepGraph

variable (g : DepGraph)

/-- The operations of the loop body. -/
def body : List Nat := List.range' 1 g.opCount

/-- `ops.Get_Start_Idx ()`. -/
def startIdx (_ : DepGraph) : Nat := 0

/-- `ops.Get_Stop_Idx ()`. -/
def stopIdx : Nat := g.opCount + 1

/-- `_num_ops`. -/
def numOps : Nat := g.opCount + 2

end DepGraph

/-- `_INFINITY`. -/
def infinity : Int := 9999

/-- `(mINT16)`. -/
def int16 (x : Int) : Int := x.bmod 65536

/-- `_mindist`, by row and column. -/
abbrev Dist := Nat → Nat → Int

/-- `(*this)(x, y) = v`. -/
def Dist.set (m : Dist) (x y : Nat) (v : Int) : Dist := fun x' y' => if x' = x ∧ y' = y then v else m x' y'

/-- The entry of one arc from `i`. -/
def setArc (ii i : Nat) (m : Dist) (a : Arc) : Dist := m.set i a.succ (max (m i a.succ) (int16 (a.weight ii)))

/-- The entries of the operation `i`. -/
def setArcs (g : DepGraph) (ii : Nat) (m : Dist) (i : Nat) : Dist :=
  (((g.succs i).foldl (setArc ii i) m).set g.startIdx i 0).set i g.stopIdx 0

/-- The matrix before the algorithm of Floyd and Warshall. -/
def initial (g : DepGraph) (ii : Nat) : Dist := g.body.foldl (setArcs g ii) fun _ _ => -infinity

/-- The new entry: `a` and the sum of `b` and `c`, neither of them infinite where that is looked at. -/
def relaxed (isTrueOn : Bool) (a b c : Int) : Int :=
  if isTrueOn && (b == -infinity || c == -infinity) then a else max a (int16 (b + c))

/-- The innermost loop's body. -/
def relaxEntry (isTrueOn : Bool) (k : Nat) (m : Dist) (p : Nat × Nat) : Dist :=
  m.set p.1 p.2 (relaxed isTrueOn (m p.1 p.2) (m p.1 k) (m k p.2))

/-- The rows and columns, in the order of the two inner loops. -/
def pairs (n : Nat) : List (Nat × Nat) := List.range n ×ˢ List.range n

/-- The two inner loops. -/
def stage (n : Nat) (isTrueOn : Bool) (m : Dist) (k : Nat) : Dist := (pairs n).foldl (relaxEntry isTrueOn k) m

/-- The matrix after `k` iterations of the outer loop. -/
def after (n : Nat) (isTrueOn : Bool) (m : Dist) (k : Nat) : Dist := (List.range k).foldl (stage n isTrueOn) m

/-- `SWP_MINDIST::SWP_MINDIST`. -/
def mindist (g : DepGraph) (ii : Nat) (isTrueOn : Bool) : Dist := after g.numOps isTrueOn (initial g ii) g.numOps

/-- `SWP_MINDIST::Verify`. -/
def verify (n : Nat) (m : Dist) : Bool := (List.range n).all fun i => m i i ≤ 0

/-! ## The purpose -/

/-- The dependences of the operations `is`, with their weights. -/
inductive Dependence (g : DepGraph) (ii : Nat) (is : List Nat) : Nat → Nat → Int → Prop
  | succ {i : Nat} {a : Arc} (hi : i ∈ is) (ha : a ∈ g.succs i) : Dependence g ii is i a.succ (a.weight ii)
  | start {i : Nat} (hi : i ∈ is) : Dependence g ii is g.startIdx i 0
  | stop {i : Nat} (hi : i ∈ is) : Dependence g ii is i g.stopIdx 0

namespace DepGraph

variable (g : DepGraph) (ii : Nat)

/-- The weights of the non-empty paths from `i` to `j`, with or without cycles. -/
def weights (i j : Nat) : Set Int := {z | Walk (Dependence g ii g.body) (Set.Iio g.numOps) i j z}

/-- The paths without cycles, and the cycles, are shorter than `_INFINITY`. -/
def Bounded : Prop := ∀ V i j z, Path (Dependence g ii g.body) V i j z → |z| < infinity

/-- Some cycle has positive weight. -/
def Positive : Prop := ∃ i z, 0 < z ∧ z ∈ g.weights ii i i

/-- The weights of the paths from `i` to `j`, and of the empty one. -/
def weightsFrom (i j : Nat) : Set Int := {z | Trip (Dependence g ii g.body) (Set.Iio g.numOps) i j z}

/-- A path from `i`, a step where `-_INFINITY` is taken for a weight, and a path to `j`. -/
def gaps (i j : Nat) : Set Int :=
  {z | ∃ a b p q, p ∈ g.weightsFrom ii i a ∧ q ∈ g.weightsFrom ii b j ∧ z = p + q - infinity}

/-- Two paths of which one begins at `i` and one ends at `j` have no more weight, less `_INFINITY`, than the heaviest
path from `i` to `j`; where there is none, less than the heaviest path from any operation to another. -/
def GapsBelow : Prop := ∀ i < g.numOps, ∀ j < g.numOps, ∀ z ∈ g.gaps ii i j,
  (∀ x, IsGreatest (g.weights ii i j) x → z ≤ x) ∧
    (g.weights ii i j = ∅ → ∀ i' < g.numOps, ∀ j' < g.numOps, ∀ x, IsGreatest (g.weights ii i' j') x → z < x)

/-- Every entry is the greatest weight; those where there is no path are below all others. -/
def Right (m : Dist) : Prop := ∀ i < g.numOps, ∀ j < g.numOps,
  ((g.weights ii i j).Nonempty → IsGreatest (g.weights ii i j) (m i j)) ∧
    (g.weights ii i j = ∅ → ∀ i' < g.numOps, ∀ j' < g.numOps, ∀ x, IsGreatest (g.weights ii i' j') x → m i j < x)

/-- No 16-bit value of the constructor wraps. -/
structure NoWrap (isTrueOn : Bool) : Prop where
  arc : ∀ i ∈ g.body, ∀ a ∈ g.succs i, int16 (a.weight ii) = a.weight ii
  sum : ∀ k < g.numOps, ∀ ps p qs, pairs g.numOps = ps ++ p :: qs →
    let m := ps.foldl (relaxEntry isTrueOn k) (after g.numOps isTrueOn (initial g ii) k)
    (isTrueOn = true → m p.1 k ≠ -infinity ∧ m k p.2 ≠ -infinity) → int16 (m p.1 k + m k p.2) = m p.1 k + m k p.2

/-- What the constructor is for. -/
structure Meets (isTrueOn : Bool) : Prop where
  fits : ¬g.Positive ii → g.NoWrap ii isTrueOn
  right : ¬g.Positive ii → g.Right ii (mindist g ii isTrueOn)
  rejects : g.Positive ii → verify g.numOps (mindist g ii isTrueOn) = false

end DepGraph

/-! ## One stage -/

/-- An entry as long as no path is too long for the table. -/
def InTable (z : Int) : Prop := -infinity ≤ z ∧ z < infinity

theorem int16_eq {x : Int} (h : -32768 ≤ x) (h' : x < 32768) : int16 x = x := by
  unfold int16
  exact Int.bmod_eq_of_le (by omega) (by omega)

theorem int16_add {b c : Int} (hb : InTable b) (hc : InTable c) : int16 (b + c) = b + c := by
  unfold InTable infinity at hb hc
  exact int16_eq (by omega) (by omega)

theorem Dist.set_same (m : Dist) (x y : Nat) (v : Int) : m.set x y v x y = v := if_pos ⟨rfl, rfl⟩

theorem Dist.set_of_ne (m : Dist) {x y x' y' : Nat} (v : Int) (h : ¬(x' = x ∧ y' = y)) : m.set x y v x' y' = m x' y' :=
  if_neg h

theorem mem_pairs {n : Nat} {p : Nat × Nat} : p ∈ pairs n ↔ p.1 < n ∧ p.2 < n := by
  obtain ⟨i, j⟩ := p
  rw [pairs, List.mem_product, List.mem_range, List.mem_range]

theorem le_relaxed (isTrueOn : Bool) (a b c : Int) : a ≤ relaxed isTrueOn a b c := by
  unfold relaxed
  split_ifs
  · exact le_rfl
  · exact le_max_left _ _

theorem relaxed_idem (isTrueOn : Bool) (a b c : Int) :
    relaxed isTrueOn (relaxed isTrueOn a b c) b c = relaxed isTrueOn a b c := by
  unfold relaxed
  split_ifs
  · rfl
  · rw [max_assoc, max_self]

theorem le_relaxEntry (isTrueOn : Bool) (k : Nat) (m : Dist) (p : Nat × Nat) (x y : Nat) :
    m x y ≤ relaxEntry isTrueOn k m p x y := by
  unfold relaxEntry Dist.set
  split_ifs with h
  · rw [h.1, h.2]
    exact le_relaxed _ _ _ _
  · exact le_rfl

theorem le_stage (n : Nat) (isTrueOn : Bool) (m : Dist) (k x y : Nat) : m x y ≤ stage n isTrueOn m k x y := by
  unfold stage
  induction pairs n generalizing m with
  | nil => exact le_rfl
  | cons p ps ih => exact (le_relaxEntry isTrueOn k m p x y).trans (ih _)

theorem after_succ (n : Nat) (isTrueOn : Bool) (m : Dist) (k : Nat) :
    after n isTrueOn m (k + 1) = stage n isTrueOn (after n isTrueOn m k) k := by
  rw [after, List.range_succ, List.foldl_append]
  rfl

theorem after_mono (n : Nat) (isTrueOn : Bool) (m : Dist) {k k' : Nat} (h : k ≤ k') (x y : Nat) :
    after n isTrueOn m k x y ≤ after n isTrueOn m k' x y := by
  induction h with
  | refl => exact le_rfl
  | step _ ih =>
    rw [after_succ]
    exact ih.trans (le_stage _ _ _ _ _ _)

/-- The row and the column of `k` do not change while the entries are raised through `k`. -/
structure Steady (n : Nat) (isTrueOn : Bool) (m : Dist) (k : Nat) : Prop where
  lt : k < n
  row : ∀ y < n, relaxed isTrueOn (m k y) (m k k) (m k y) = m k y
  col : ∀ x < n, relaxed isTrueOn (m x k) (m x k) (m k k) = m x k

variable {n k : Nat} {isTrueOn : Bool} {m : Dist}

theorem foldl_relaxEntry (h : Steady n isTrueOn m k) {ps : List (Nat × Nat)} (hps : ∀ p ∈ ps, p.1 < n ∧ p.2 < n)
    (x y : Nat) : ps.foldl (relaxEntry isTrueOn k) m x y =
      if (x, y) ∈ ps then relaxed isTrueOn (m x y) (m x k) (m k y) else m x y := by
  induction ps using List.reverseRecOn generalizing x y with
  | nil => rfl
  | append_singleton ps p ih =>
    obtain ⟨i, j⟩ := p
    have ih := ih fun p hp => hps p (List.mem_append_left _ hp)
    obtain ⟨hi, hj⟩ := hps (i, j) (List.mem_append_right _ (List.mem_singleton_self _))
    have hcol : ps.foldl (relaxEntry isTrueOn k) m i k = m i k := by
      rw [ih, h.col i hi, ite_self]
    have hrow : ps.foldl (relaxEntry isTrueOn k) m k j = m k j := by
      rw [ih, h.row j hj, ite_self]
    rw [List.foldl_append, List.foldl_cons, List.foldl_nil, relaxEntry]
    by_cases hxy : x = i ∧ y = j
    · obtain ⟨rfl, rfl⟩ := hxy
      rw [Dist.set_same, hcol, hrow, ih, if_pos (List.mem_append_right _ (List.mem_singleton_self _))]
      split_ifs
      · exact relaxed_idem _ _ _ _
      · rfl
    · rw [Dist.set_of_ne _ _ hxy, ih]
      refine if_congr ?_ rfl rfl
      rw [List.mem_append, List.mem_singleton, Prod.mk.injEq, or_iff_left hxy]

theorem stage_eq (h : Steady n isTrueOn m k) {x y : Nat} (hx : x < n) (hy : y < n) :
    stage n isTrueOn m k x y = relaxed isTrueOn (m x y) (m x k) (m k y) := by
  rw [stage, foldl_relaxEntry h (fun p hp => mem_pairs.mp hp), if_pos (mem_pairs.mpr ⟨hx, hy⟩)]

theorem foldl_summands (h : Steady n isTrueOn m k) {ps qs : List (Nat × Nat)} {p : Nat × Nat}
    (hps : pairs n = ps ++ p :: qs) : p.1 < n ∧ p.2 < n ∧ ps.foldl (relaxEntry isTrueOn k) m p.1 k = m p.1 k ∧
      ps.foldl (relaxEntry isTrueOn k) m k p.2 = m k p.2 := by
  have hmem : ∀ p ∈ ps, p.1 < n ∧ p.2 < n := fun p hp => mem_pairs.mp (hps ▸ List.mem_append_left _ hp)
  obtain ⟨hx, hy⟩ := mem_pairs.mp (hps ▸ List.mem_append_right _ List.mem_cons_self : p ∈ pairs n)
  refine ⟨hx, hy, ?_, ?_⟩
  · rw [foldl_relaxEntry h hmem, h.col _ hx, ite_self]
  · rw [foldl_relaxEntry h hmem, h.row _ hy, ite_self]

/-! ## The whole run -/

variable {R : Type*} [AddCommMonoid R] [LinearOrder R]

/-- A way to read the entries, in which the loops take greatest weights. -/
structure Reads (isTrueOn : Bool) (read : Int → R) : Prop where
  relaxed_eq : ∀ {a b c z}, InTable a → InTable b → InTable c → InTable z →
    read z = max (read a) (read b + read c) → relaxed isTrueOn a b c = z
  relaxed_pos : ∀ {a b c}, InTable a → InTable b → InTable c → 0 < max (read a) (read b + read c) →
    0 < relaxed isTrueOn a b c
  pos : ∀ {a}, 0 < read a → 0 < a

/-- The matrix is a table of weights, in the reading. -/
def Holds (n : Nat) (read : Int → R) (m : Dist) (d : Nat → Nat → R) : Prop :=
  ∀ x < n, ∀ y < n, InTable (m x y) ∧ read (m x y) = d x y

/-- No operation reaches itself with a positive weight, in a table. -/
def Flat (n : Nat) (d : Nat → Nat → R) : Prop := ∀ i < n, d i i ≤ 0

variable {read : Int → R} {d w : Nat → Nat → R}

theorem Flat.of_relax (h : Flat n (relax k d)) : Flat n d := fun i hi => (le_relax k d i i).trans (h i hi)

variable [IsOrderedAddMonoid R]

theorem Reads.steady (hr : Reads isTrueOn read) (h : Holds n read m d) (hd : Flat n d) (hk : k < n) :
    Steady n isTrueOn m k := by
  obtain ⟨hkk, hkk'⟩ := h k hk k hk
  have hkk' : read (m k k) ≤ 0 := hkk' ▸ hd k hk
  refine ⟨hk, fun y hy => ?_, fun x hx => ?_⟩
  · have hky := (h k hk y hy).1
    exact hr.relaxed_eq hky hkk hky hky (max_eq_left (add_le_of_nonpos_left hkk')).symm
  · have hxk := (h x hx k hk).1
    exact hr.relaxed_eq hxk hxk hkk hxk (max_eq_left (add_le_of_nonpos_right hkk')).symm

theorem Reads.stage (hr : Reads isTrueOn read) (h : Holds n read m d) (hd : Flat n d) (hk : k < n)
    (hfits : ∀ x < n, ∀ y < n, ∃ z, InTable z ∧ read z = relax k d x y) :
    Holds n read (stage n isTrueOn m k) (relax k d) := by
  intro x hx y hy
  obtain ⟨⟨hxy, hxy'⟩, ⟨hxk, hxk'⟩, hky, hky'⟩ := And.intro (h x hx y hy) (And.intro (h x hx k hk) (h k hk y hy))
  obtain ⟨z, hz, hz'⟩ := hfits x hx y hy
  rw [relax, ← hxy', ← hxk', ← hky'] at hz'
  rw [stage_eq (hr.steady h hd hk) hx hy, hr.relaxed_eq hxy hxk hky hz hz', relax, ← hxy', ← hxk', ← hky']
  exact ⟨hz, hz'⟩

/-- The matrix holds the greatest weights as long as no operation reaches itself with a positive one. -/
theorem Reads.after_eq (hr : Reads isTrueOn read) (h : Holds n read m w)
    (hfits : ∀ k ≤ n, Flat n (longest w k) → ∀ x < n, ∀ y < n, ∃ z, InTable z ∧ read z = longest w k x y)
    (hk : k ≤ n) (hd : Flat n (longest w k)) : Holds n read (after n isTrueOn m k) (longest w k) := by
  induction k with
  | zero => exact h
  | succ k ih =>
    rw [after_succ]
    have hd' : Flat n (longest w k) := hd.of_relax
    exact hr.stage (ih (Nat.le_of_succ_le hk) hd') hd' hk (hfits (k + 1) hk hd)

theorem Reads.after_pos (hr : Reads isTrueOn read) (h : Holds n read m w)
    (hfits : ∀ k ≤ n, Flat n (longest w k) → ∀ x < n, ∀ y < n, ∃ z, InTable z ∧ read z = longest w k x y)
    (hk : k ≤ n) (hd : ¬Flat n (longest w k)) : ∃ i < n, 0 < after n isTrueOn m k i i := by
  induction k with
  | zero =>
    simp only [Flat, not_forall, not_le] at hd
    obtain ⟨i, hi, hpos⟩ := hd
    exact ⟨i, hi, hr.pos ((h i hi i hi).2 ▸ hpos)⟩
  | succ k ih =>
    by_cases hd' : Flat n (longest w k)
    · have hk' := hr.after_eq h hfits (Nat.le_of_succ_le hk) hd'
      simp only [Flat, not_forall, not_le] at hd
      obtain ⟨i, hi, hpos⟩ := hd
      refine ⟨i, hi, ?_⟩
      obtain ⟨⟨hii, hii'⟩, ⟨hik, hik'⟩, hki, hki'⟩ :=
        And.intro (hk' i hi i hi) (And.intro (hk' i hi k hk) (hk' k hk i hi))
      rw [after_succ, stage_eq (hr.steady hk' hd' hk) hi hi]
      rw [longest, relax, ← hii', ← hik', ← hki'] at hpos
      exact hr.relaxed_pos hii hik hki hpos
    · obtain ⟨i, hi, hpos⟩ := ih (Nat.le_of_succ_le hk) hd'
      exact ⟨i, hi, hpos.trans_le (after_mono n isTrueOn m (Nat.le_succ k) i i)⟩

/-! ## The matrix of arcs -/

/-- The entries are the greatest of the weights `D`, infinite where there are none. -/
structure Tops (m : Dist) (D : Nat → Nat → Int → Prop) : Prop where
  mem : ∀ x y, m x y = -infinity ∨ D x y (m x y)
  bot_le : ∀ x y, -infinity ≤ m x y
  le : ∀ x y z, D x y z → z ≤ m x y

variable {D D' : Nat → Nat → Int → Prop} {g : DepGraph} {ii : Nat}

theorem Tops.congr (h : Tops m D) (hD : ∀ x y z, D x y z ↔ D' x y z) : Tops m D' :=
  ⟨fun x y => (h.mem x y).imp_right (hD x y _).mp, h.bot_le, fun x y z hz => h.le x y z ((hD x y z).mpr hz)⟩

theorem Tops.set_max (h : Tops m D) (i j : Nat) (v : Int) :
    Tops (m.set i j (max (m i j) v)) fun x y z => D x y z ∨ x = i ∧ y = j ∧ z = v := by
  have hset : ∀ x y, m.set i j (max (m i j) v) x y = if x = i ∧ y = j then max (m x y) v else m x y := by
    intro x y
    unfold Dist.set
    split_ifs with h
    · rw [h.1, h.2]
    · rfl
  refine ⟨fun x y => ?_, fun x y => ?_, fun x y z hz => ?_⟩
  · rw [hset]
    split_ifs with hxy
    · rcases max_choice (m x y) v with hmax | hmax
      · rw [hmax]
        exact (h.mem x y).imp_right Or.inl
      · rw [hmax]
        exact Or.inr (Or.inr ⟨hxy.1, hxy.2, rfl⟩)
    · exact (h.mem x y).imp_right Or.inl
  · rw [hset]
    split_ifs
    · exact (h.bot_le x y).trans (le_max_left _ _)
    · exact h.bot_le x y
  · rw [hset]
    rcases hz with hz | ⟨rfl, rfl, rfl⟩
    · split_ifs
      · exact (h.le x y z hz).trans (le_max_left _ _)
      · exact h.le x y z hz
    · rw [if_pos ⟨rfl, rfl⟩]
      exact le_max_right _ _

theorem Tops.set (h : Tops m D) {i j : Nat} {v : Int} (hv : -infinity ≤ v) (hle : ∀ z, D i j z → z ≤ v) :
    Tops (m.set i j v) fun x y z => D x y z ∨ x = i ∧ y = j ∧ z = v := by
  have hmax : max (m i j) v = v := by
    refine max_eq_right ?_
    rcases h.mem i j with hm | hm
    · exact hm ▸ hv
    · exact hle _ hm
  have := h.set_max i j v
  rwa [hmax] at this

theorem Tops.foldl_setArc (h : Tops m D) (i : Nat) (arcs : List Arc)
    (hfit : ∀ a ∈ arcs, int16 (a.weight ii) = a.weight ii) : Tops (arcs.foldl (setArc ii i) m)
      fun x y z => D x y z ∨ x = i ∧ ∃ a ∈ arcs, y = a.succ ∧ z = a.weight ii := by
  induction arcs generalizing m D with
  | nil => exact h.congr fun x y z => by simp only [List.not_mem_nil, false_and, exists_false, and_false, or_false]
  | cons a arcs ih =>
    have hset := h.set_max i a.succ (int16 (a.weight ii))
    refine (ih hset fun a ha => hfit a (List.mem_cons_of_mem _ ha)).congr fun x y z => ?_
    simp only [hfit a List.mem_cons_self, List.mem_cons, exists_eq_or_imp, or_assoc, and_or_left]

theorem succ_bounds (g : DepGraph) {i : Nat} {a : Arc} (ha : a ∈ g.succs i) : 1 ≤ a.succ ∧ a.succ ≤ g.opCount := by
  have := g.succ_mem i a ha
  rw [List.mem_range'_1] at this
  omega

theorem body_bounds {i : Nat} (hi : i ∈ g.body) : 1 ≤ i ∧ i ≤ g.opCount := by
  rw [DepGraph.body, List.mem_range'_1] at hi
  omega

theorem dependence_append {is : List Nat} {i x y : Nat} {z : Int} : Dependence g ii (is ++ [i]) x y z ↔
    ((Dependence g ii is x y z ∨ x = i ∧ ∃ a ∈ g.succs i, y = a.succ ∧ z = a.weight ii) ∨
      x = g.startIdx ∧ y = i ∧ z = 0) ∨ x = i ∧ y = g.stopIdx ∧ z = 0 := by
  constructor
  · intro h
    cases h with
    | succ hi ha =>
      rcases List.mem_append.mp hi with hi | hi
      · exact Or.inl (Or.inl (Or.inl (.succ hi ha)))
      · obtain rfl := List.mem_singleton.mp hi
        exact Or.inl (Or.inl (Or.inr ⟨rfl, _, ha, rfl, rfl⟩))
    | start hi =>
      rcases List.mem_append.mp hi with hi | hi
      · exact Or.inl (Or.inl (Or.inl (.start hi)))
      · exact Or.inl (Or.inr ⟨rfl, List.mem_singleton.mp hi, rfl⟩)
    | stop hi =>
      rcases List.mem_append.mp hi with hi | hi
      · exact Or.inl (Or.inl (Or.inl (.stop hi)))
      · exact Or.inr ⟨List.mem_singleton.mp hi, rfl, rfl⟩
  · have hi : i ∈ is ++ [i] := List.mem_append_right _ (List.mem_singleton_self _)
    rintro (((h | ⟨rfl, a, ha, rfl, rfl⟩) | ⟨rfl, rfl, rfl⟩) | ⟨rfl, rfl, rfl⟩)
    · cases h with
      | succ hi ha => exact .succ (List.mem_append_left _ hi) ha
      | start hi => exact .start (List.mem_append_left _ hi)
      | stop hi => exact .stop (List.mem_append_left _ hi)
    · exact .succ hi ha
    · exact .start hi
    · exact .stop hi

/-- Only dependences of weight 0 begin at `START` or end at `STOP`. -/
theorem Dependence.eq_zero {is : List Nat} {x y : Nat} {z : Int} (h : Dependence g ii is x y z)
    (his : ∀ i ∈ is, i ∈ g.body) (hxy : x = g.startIdx ∨ y = g.stopIdx) : z = 0 := by
  cases h with
  | succ hi ha =>
    have hi := body_bounds (his _ hi)
    have ha := succ_bounds g ha
    unfold DepGraph.startIdx DepGraph.stopIdx at hxy
    omega
  | start => rfl
  | stop => rfl

/-- The matrix before the algorithm has the greatest weights of the dependences. -/
theorem foldl_setArcs {is : List Nat} (his : ∀ i ∈ is, i ∈ g.body)
    (hfit : ∀ i ∈ is, ∀ a ∈ g.succs i, int16 (a.weight ii) = a.weight ii) :
    Tops (is.foldl (setArcs g ii) fun _ _ => -infinity) (Dependence g ii is) := by
  induction is using List.reverseRecOn with
  | nil =>
    refine ⟨fun _ _ => Or.inl rfl, fun _ _ => le_rfl, fun x y z hz => ?_⟩
    cases hz <;> contradiction
  | append_singleton is i ih =>
    have hi : i ∈ is ++ [i] := List.mem_append_right _ (List.mem_singleton_self _)
    have his' : ∀ i ∈ is, i ∈ g.body := fun i hi => his i (List.mem_append_left _ hi)
    have hbody := body_bounds (his i hi)
    have harcs := (ih his' fun i hi => hfit i (List.mem_append_left _ hi)).foldl_setArc i (g.succs i) (hfit i hi)
    have hstart : ∀ z, Dependence g ii is g.startIdx i z ∨
        g.startIdx = i ∧ (∃ a ∈ g.succs i, i = a.succ ∧ z = a.weight ii) → z ≤ 0 := by
      rintro z (hz | ⟨hx, -⟩)
      · exact (hz.eq_zero his' (Or.inl rfl)).le
      · unfold DepGraph.startIdx at hx
        omega
    have hstop : ∀ z, (Dependence g ii is i g.stopIdx z ∨
        i = i ∧ ∃ a ∈ g.succs i, g.stopIdx = a.succ ∧ z = a.weight ii) ∨
          i = g.startIdx ∧ g.stopIdx = i ∧ z = 0 → z ≤ 0 := by
      rintro z ((hz | ⟨-, a, ha, hy, -⟩) | ⟨-, -, rfl⟩)
      · exact (hz.eq_zero his' (Or.inr rfl)).le
      · have := succ_bounds g ha
        unfold DepGraph.stopIdx at hy
        omega
      · exact le_rfl
    rw [List.foldl_append]
    exact ((harcs.set (by decide) hstart).set (by decide) hstop).congr fun x y z => dependence_append.symm

/-! ## Bounded graphs -/

variable (hb : g.Bounded ii)

include hb

theorem Dependence.lt {x y : Nat} {z : Int} (h : Dependence g ii g.body x y z) : -infinity < z ∧ z < infinity :=
  abs_lt.mp (hb ∅ x y z (.arc h))

theorem weight_fits : ∀ i ∈ g.body, ∀ a ∈ g.succs i, int16 (a.weight ii) = a.weight ii := by
  intro i hi a ha
  have h := Dependence.lt hb (.succ hi ha)
  unfold infinity at h
  exact int16_eq (by omega) (by omega)

theorem initial_tops : Tops (initial g ii) (Dependence g ii g.body) := foldl_setArcs (fun _ hi => hi) (weight_fits hb)

theorem initial_inTable (x y : Nat) : InTable (initial g ii x y) := by
  refine ⟨(initial_tops hb).bot_le x y, ?_⟩
  rcases (initial_tops hb).mem x y with h | h
  · rw [h]
    decide
  · exact (h.lt hb).2

omit hb

/-! ## The build with `Is_True_On` -/

/-- An entry that is not infinite is a weight. -/
def finite (z : Int) : WithBot Int := if z = -infinity then ⊥ else z

theorem finite_of_lt {z : Int} (h : -infinity < z) : finite z = z := if_neg h.ne'

theorem finite_inj {a b : Int} (h : finite a = finite b) : a = b := by
  unfold finite at h
  split_ifs at h with ha hb hb
  · rw [ha, hb]
  · exact absurd h.symm (WithBot.coe_ne_bot)
  · exact absurd h (WithBot.coe_ne_bot)
  · exact WithBot.coe_inj.mp h

theorem finite_pos {a : Int} (h : 0 < finite a) : 0 < a := by
  unfold finite at h
  split_ifs at h
  · exact absurd h (not_lt.mpr bot_le)
  · exact WithBot.coe_pos.mp h

theorem relaxed_true {b c : Int} (a : Int) (hb : InTable b) (hc : InTable c) :
    (finite b + finite c = ⊥ ∧ relaxed true a b c = a) ∨
      (finite b + finite c = (b + c : Int) ∧ relaxed true a b c = max a (b + c)) := by
  unfold relaxed
  by_cases hb' : b = -infinity
  · left
    rw [finite, if_pos hb', WithBot.bot_add]
    simp [hb']
  · by_cases hc' : c = -infinity
    · left
      rw [finite, finite, if_pos hc', WithBot.add_bot]
      simp [hc']
    · right
      rw [finite, finite, if_neg hb', if_neg hc', int16_add hb hc]
      simp [hb', hc']

theorem reads_finite : Reads true finite := by
  refine ⟨fun {a b c z} ha hb hc hz h => ?_, fun {a b c} ha hb hc h => ?_, finite_pos⟩
  · rcases relaxed_true a hb hc with ⟨hsum, heq⟩ | ⟨hsum, heq⟩ <;> rw [hsum] at h <;> rw [heq]
    · rw [max_bot_right] at h
      exact (finite_inj h).symm
    · by_cases ha' : a = -infinity
      · have hz' : finite z = (b + c : Int) := by
          rw [h, finite, if_pos ha', max_bot_left]
        unfold finite at hz'
        split_ifs at hz' with hinf
        · exact absurd hz'.symm WithBot.coe_ne_bot
        · rw [← WithBot.coe_inj.mp hz', ha']
          exact max_eq_right hz.1
      · rw [finite_of_lt (lt_of_le_of_ne ha.1 (Ne.symm ha')), ← WithBot.coe_max] at h
        unfold finite at h
        split_ifs at h with hinf
        · exact absurd h.symm WithBot.coe_ne_bot
        · exact (WithBot.coe_inj.mp h).symm
  · rcases relaxed_true a hb hc with ⟨hsum, heq⟩ | ⟨hsum, heq⟩ <;> rw [hsum] at h <;> rw [heq]
    · rw [max_bot_right] at h
      exact finite_pos h
    · exact (lt_max_iff.mp h).elim (fun h => lt_max_of_lt_left (finite_pos h))
        fun h => lt_max_of_lt_right (WithBot.coe_pos.mp h)

variable (g ii) in
/-- The greatest weights of the dependences. -/
def arcWeight (x y : Nat) : WithBot Int := finite (initial g ii x y)

include hb

theorem isGreatest_arcWeight (x y : Nat) :
    IsGreatest {v | withBot (Dependence g ii g.body) x y v} (arcWeight g ii x y) := by
  have htops := initial_tops hb
  refine ⟨fun z hz => ?_, fun v hv => ?_⟩
  · unfold arcWeight finite at hz
    split_ifs at hz with hinf
    · exact absurd hz.symm WithBot.coe_ne_bot
    · exact WithBot.coe_inj.mp hz ▸ (htops.mem x y).resolve_left hinf
  · induction v with
    | bot => exact bot_le
    | coe z =>
      have hz := hv z rfl
      have hle := htops.le x y z hz
      rw [arcWeight, finite_of_lt ((hz.lt hb).1.trans_le hle)]
      exact WithBot.coe_le_coe.mpr hle

theorem longest_fits {k : Nat} (hk : k ≤ g.numOps) (hd : Flat g.numOps (longest (arcWeight g ii) k)) (x y : Nat) :
    ∃ z, InTable z ∧ finite z = longest (arcWeight g ii) k x y := by
  obtain ⟨V, -, hp⟩ := exists_path (isGreatest_arcWeight hb) (fun m hm => hd m (hm.trans_le hk)) x y
  generalize longest (arcWeight g ii) k x y = v at hp
  induction v with
  | bot => exact ⟨-infinity, ⟨le_rfl, by decide⟩, if_pos rfl⟩
  | coe z =>
    have hz := abs_lt.mp (hb V x y z (hp.of_withBot z rfl))
    exact ⟨z, ⟨hz.1.le, hz.2⟩, finite_of_lt hz.1⟩

theorem holds_finite : Holds g.numOps finite (initial g ii) (arcWeight g ii) :=
  fun x _ y _ => ⟨initial_inTable hb x y, rfl⟩

omit hb

/-! ## Greatest weights -/

theorem Dependence.bounds {x y : Nat} {z : Int} (h : Dependence g ii g.body x y z) : x < g.numOps ∧ y < g.numOps := by
  unfold DepGraph.numOps
  cases h with
  | succ hi ha =>
    have hi := body_bounds hi
    have ha := succ_bounds g ha
    omega
  | start hi =>
    have hi := body_bounds hi
    unfold DepGraph.startIdx
    omega
  | stop hi =>
    have hi := body_bounds hi
    unfold DepGraph.stopIdx
    omega

theorem walk_bounds {S : Set Nat} {x y : Nat} {z : Int} (h : Walk (Dependence g ii g.body) S x y z) :
    x < g.numOps ∧ y < g.numOps := by
  induction h with
  | arc h => exact h.bounds
  | append _ _ _ ih ih' => exact ⟨ih.1, ih'.2⟩

theorem trip_bounds {S : Set Nat} {x y : Nat} {z : Int} (h : Trip (Dependence g ii g.body) S x y z) :
    x < g.numOps ↔ y < g.numOps := by
  rcases h with ⟨rfl, -⟩ | h
  · rfl
  · exact iff_of_true (walk_bounds h).1 (walk_bounds h).2

theorem flat_of_not_positive (h : ¬g.Positive ii) (hb : g.Bounded ii) :
    Flat g.numOps (longest (arcWeight g ii) g.numOps) := by
  intro i _
  have hwalk := walk_longest (fun x y => (isGreatest_arcWeight hb x y).1) g.numOps i i
  generalize longest (arcWeight g ii) g.numOps i i = v at hwalk ⊢
  induction v with
  | bot => exact bot_le
  | coe z =>
    rw [WithBot.coe_le_zero]
    exact not_lt.mp fun hz => h ⟨i, z, hz, hwalk.of_withBot z rfl⟩

include hb

theorem walk_le {k : Nat} (hk : k ≤ g.numOps) (hd : Flat g.numOps (longest (arcWeight g ii) k)) {x y : Nat} {z : Int}
    (h : Walk (Dependence g ii g.body) (Set.Iio k) x y z) : (z : WithBot Int) ≤ longest (arcWeight g ii) k x y :=
  (isGreatest_longest_of_diag (isGreatest_arcWeight hb) (fun m hm => hd m (hm.trans_le hk)) x y).2 h.withBot

theorem walk_lt {k : Nat} (hk : k ≤ g.numOps) (hd : Flat g.numOps (longest (arcWeight g ii) k)) {x y : Nat} {z : Int}
    (h : Walk (Dependence g ii g.body) (Set.Iio k) x y z) : z < infinity := by
  obtain ⟨z', ⟨-, hlt⟩, hz'⟩ := longest_fits hb hk hd x y
  have hle := hz' ▸ walk_le hb hk hd h
  unfold finite at hle
  split_ifs at hle
  · exact absurd hle (WithBot.not_coe_le_bot z)
  · exact (WithBot.coe_le_coe.mp hle).trans_lt hlt

theorem not_flat_of_positive (h : g.Positive ii) : ¬Flat g.numOps (longest (arcWeight g ii) g.numOps) := by
  obtain ⟨i, z, hz, hwalk⟩ := h
  intro hd
  have hle := (walk_le hb le_rfl hd hwalk).trans (hd i (walk_bounds hwalk).1)
  rw [WithBot.coe_le_zero] at hle
  exact absurd hle (not_le.mpr hz)

theorem longest_spec (h : ¬g.Positive ii) (x y : Nat) :
    (g.weights ii x y = ∅ ∧ longest (arcWeight g ii) g.numOps x y = finite (-infinity)) ∨
      ∃ z, IsGreatest (g.weights ii x y) z ∧ -infinity < z ∧ longest (arcWeight g ii) g.numOps x y = finite z := by
  have hd := flat_of_not_positive h hb
  have hwalk := walk_longest (fun x y => (isGreatest_arcWeight hb x y).1) g.numOps x y
  have hle : ∀ z ∈ g.weights ii x y, (z : WithBot Int) ≤ longest (arcWeight g ii) g.numOps x y := fun z hz =>
    walk_le hb le_rfl hd hz
  obtain ⟨z, hz, hlongest⟩ := longest_fits hb le_rfl hd x y
  rw [← hlongest] at hwalk hle ⊢
  by_cases hinf : z = -infinity
  · subst hinf
    exact Or.inl ⟨Set.eq_empty_of_forall_notMem fun z hz => WithBot.not_coe_le_bot z (hle z hz), rfl⟩
  · have hlt : -infinity < z := lt_of_le_of_ne hz.1 (Ne.symm hinf)
    rw [finite_of_lt hlt] at hwalk hle
    exact Or.inr ⟨z, ⟨hwalk.of_withBot z rfl, fun z' hz' => WithBot.coe_le_coe.mp (hle z' hz')⟩, hlt, rfl⟩

omit hb

/-! ## No wrap, and the rejection -/

theorem Reads.noWrap (hr : Reads isTrueOn read) (hb : g.Bounded ii) (h : Holds g.numOps read (initial g ii) w)
    (hfits : ∀ k ≤ g.numOps, Flat g.numOps (longest w k) →
      ∀ x < g.numOps, ∀ y < g.numOps, ∃ z, InTable z ∧ read z = longest w k x y)
    (hd : Flat g.numOps (longest w g.numOps)) : g.NoWrap ii isTrueOn := by
  refine ⟨weight_fits hb, fun k hk ps p qs hps => ?_⟩
  have hd' : Flat g.numOps (longest w k) := fun i hi => (longest_mono w hk.le i i).trans (hd i hi)
  have hk' := hr.after_eq h hfits hk.le hd'
  obtain ⟨hx, hy, hxk, hky⟩ := foldl_summands (hr.steady hk' hd' hk) hps
  intro m' _
  rw [show m' p.1 k = _ from hxk, show m' k p.2 = _ from hky]
  exact int16_add (hk' _ hx k hk).1 (hk' k hk _ hy).1

theorem verify_eq_false {n : Nat} {m : Dist} (h : ∃ i < n, 0 < m i i) : verify n m = false := by
  obtain ⟨i, hi, hpos⟩ := h
  refine List.all_eq_false.mpr ⟨i, List.mem_range.mpr hi, ?_⟩
  rw [decide_eq_true_eq]
  exact not_le.mpr hpos

/-- The entries with `Is_True_On`. -/
theorem mindist_true (hb : g.Bounded ii) (h : ¬g.Positive ii) {i j : Nat} (hi : i < g.numOps) (hj : j < g.numOps) :
    (g.weights ii i j = ∅ ∧ mindist g ii true i j = -infinity) ∨
      IsGreatest (g.weights ii i j) (mindist g ii true i j) ∧ -infinity < mindist g ii true i j := by
  have hij : finite (mindist g ii true i j) = longest (arcWeight g ii) g.numOps i j :=
    (reads_finite.after_eq (holds_finite hb) (fun k hk hd x _ y _ => longest_fits hb hk hd x y) le_rfl
      (flat_of_not_positive h hb) i hi j hj).2
  rcases longest_spec hb h i j with ⟨hempty, hbot⟩ | ⟨z, hz, hlt, hlongest⟩
  · exact Or.inl ⟨hempty, finite_inj (hij.trans hbot)⟩
  · have hm : mindist g ii true i j = z := finite_inj (hij.trans hlongest)
    exact Or.inr ⟨hm ▸ hz, hm ▸ hlt⟩

/-- The build with `Is_True_On` does what it is for. -/
theorem meets_true (hb : g.Bounded ii) : g.Meets ii true := by
  have hfits : ∀ k ≤ g.numOps, Flat g.numOps (longest (arcWeight g ii) k) → ∀ x < g.numOps, ∀ y < g.numOps,
      ∃ z, InTable z ∧ finite z = longest (arcWeight g ii) k x y := fun k hk hd x _ y _ => longest_fits hb hk hd x y
  refine ⟨fun h => ?_, fun h i hi j hj => ?_, fun h => ?_⟩
  · exact reads_finite.noWrap hb (holds_finite hb) hfits (flat_of_not_positive h hb)
  · rcases mindist_true hb h hi hj with ⟨hempty, hinf⟩ | ⟨hgreatest, -⟩
    · refine ⟨fun hne => absurd hempty hne.ne_empty, fun _ i' hi' j' hj' x hx => ?_⟩
      rcases mindist_true hb h hi' hj' with ⟨hempty', -⟩ | ⟨hgreatest, hlt⟩
      · exact absurd hx.1 (hempty' ▸ Set.notMem_empty x)
      · rw [hinf, hx.unique hgreatest]
        exact hlt
    · exact ⟨fun _ => hgreatest, fun hempty => absurd hgreatest.1 (hempty ▸ Set.notMem_empty _)⟩
  · exact verify_eq_false (reads_finite.after_pos (holds_finite hb) hfits le_rfl (not_flat_of_positive hb h))

/-! ## The build without `Is_True_On` -/

theorem reads_id : Reads false (id : Int → Int) := by
  have heq : ∀ {b c : Int} (a : Int), InTable b → InTable c → relaxed false a b c = max a (b + c) := by
    intro b c a hb hc
    rw [relaxed, Bool.false_and, if_neg Bool.false_ne_true, int16_add hb hc]
  exact ⟨fun _ hb hc _ h => (heq _ hb hc).trans h.symm, fun _ hb hc h => (heq _ hb hc).symm ▸ h, id⟩

/-- The entries before the algorithm, all of them taken for weights. -/
def Entry (g : DepGraph) (ii x y : Nat) (z : Int) : Prop := z = initial g ii x y

theorem isGreatest_entry (x y : Nat) : IsGreatest {z | Entry g ii x y z} (initial g ii x y) :=
  ⟨rfl, fun _ hz => hz.le⟩

theorem walk_entries (k x y : Nat) : Walk (Entry g ii) (Set.Iio k) x y (longest (initial g ii) k x y) :=
  walk_longest (fun x y => (isGreatest_entry x y).1) k x y

include hb

theorem entry_of_dependence (x y : Nat) (z : Int) (h : Dependence g ii g.body x y z) :
    ∃ z', Entry g ii x y z' ∧ z ≤ z' := ⟨_, rfl, (initial_tops hb).le x y z h⟩

theorem flat_of_flat {k : Nat} (hk : k ≤ g.numOps) (hd : Flat g.numOps (longest (initial g ii) k)) :
    Flat g.numOps (longest (arcWeight g ii) k) := by
  intro i hi
  have hwalk := walk_longest (fun x y => (isGreatest_arcWeight hb x y).1) k i i
  generalize longest (arcWeight g ii) k i i = v at hwalk ⊢
  induction v with
  | bot => exact bot_le
  | coe z =>
    obtain ⟨z', hwalk', hle⟩ := (hwalk.of_withBot z rfl).dominate (entry_of_dependence hb)
    have hle' := (isGreatest_longest_of_diag isGreatest_entry (fun m hm => hd m (hm.trans_le hk)) i i).2 hwalk'
    exact WithBot.coe_le_zero.mpr (hle.trans (hle'.trans (hd i hi)))

theorem walk_entry {k : Nat} (hk : k ≤ g.numOps) (hd : Flat g.numOps (longest (arcWeight g ii) k)) {x y : Nat} {z : Int}
    (h : Walk (Entry g ii) (Set.Iio k) x y z) : Walk (Dependence g ii g.body) (Set.Iio k) x y z ∨
      ∃ a b p q, Trip (Dependence g ii g.body) (Set.Iio k) x a p ∧ Trip (Dependence g ii g.body) (Set.Iio k) b y q ∧
        z ≤ p + q - infinity := by
  refine h.gap (fun {x y z} hz => ?_) fun ht => ?_
  · obtain rfl : z = initial g ii x y := hz
    exact ((initial_tops hb).mem x y).symm
  · rcases ht with ⟨-, rfl⟩ | hw
    · decide
    · exact sub_nonpos.mpr (walk_lt hb hk hd hw).le

theorem trip_lt {k : Nat} (hk : k ≤ g.numOps) (hd : Flat g.numOps (longest (arcWeight g ii) k)) {x y : Nat} {z : Int}
    (h : Trip (Dependence g ii g.body) (Set.Iio k) x y z) : z < infinity := by
  rcases h with ⟨-, rfl⟩ | h
  · decide
  · exact walk_lt hb hk hd h

theorem longest_initial_fits {k : Nat} (hk : k ≤ g.numOps) (hd : Flat g.numOps (longest (initial g ii) k)) (x y : Nat) :
    InTable (longest (initial g ii) k x y) := by
  have hd' := flat_of_flat hb hk hd
  refine ⟨((initial_tops hb).bot_le x y).trans (longest_mono _ (Nat.zero_le k) x y), ?_⟩
  rcases walk_entry hb hk hd' (walk_entries k x y) with h | ⟨a, b, p, q, hp, hq, hle⟩
  · exact walk_lt hb hk hd' h
  · have hp := trip_lt hb hk hd' hp
    have hq := trip_lt hb hk hd' hq
    omega

theorem holds_id : Holds g.numOps id (initial g ii) (initial g ii) :=
  fun x _ y _ => ⟨initial_inTable hb x y, rfl⟩

theorem flat_initial (h : ¬g.Positive ii) : Flat g.numOps (longest (initial g ii) g.numOps) := by
  intro i hi
  have hd := flat_of_not_positive h hb
  rcases walk_entry hb le_rfl hd (walk_entries g.numOps i i) with hw | ⟨a, b, p, q, hp, hq, hle⟩
  · exact not_lt.mp fun hpos => h ⟨i, _, hpos, hw⟩
  · have := trip_lt hb le_rfl hd (hq.trans hi hp)
    omega

/-- The entries without `Is_True_On`: paths, or two paths with a gap between them. -/
theorem mindist_false (h : ¬g.Positive ii) {i j : Nat} (hi : i < g.numOps) (hj : j < g.numOps) :
    IsGreatest (g.weights ii i j ∪ g.gaps ii i j) (mindist g ii false i j) := by
  have hflat := flat_initial hb h
  have hij : mindist g ii false i j = longest (initial g ii) g.numOps i j :=
    (reads_id.after_eq (holds_id hb) (fun k hk hd x _ y _ => ⟨_, longest_initial_fits hb hk hd x y, rfl⟩) le_rfl
      hflat i hi j hj).2
  rw [hij]
  have hgreatest := isGreatest_longest_of_diag isGreatest_entry hflat i j
  have hle : ∀ z ∈ g.weights ii i j ∪ g.gaps ii i j, z ≤ longest (initial g ii) g.numOps i j := by
    rintro z (hz | ⟨a, b, p, q, hp, hq, rfl⟩)
    · obtain ⟨z', hz', hle⟩ := Walk.dominate (entry_of_dependence hb) hz
      exact hle.trans (hgreatest.2 hz')
    · obtain ⟨p', hp', hle⟩ := hp.dominate (entry_of_dependence hb)
      obtain ⟨q', hq', hle'⟩ := hq.dominate (entry_of_dependence hb)
      have ha : a < g.numOps := (trip_bounds hp).mp hi
      have hb' : b < g.numOps := (trip_bounds hq).mpr hj
      have hwalk := hgreatest.2 (hp'.walk ha ((Walk.arc (rfl : Entry g ii a b _)).trip hb' hq'))
      have hbot := (initial_tops hb).bot_le a b
      omega
  refine ⟨?_, hle⟩
  rcases walk_entry hb le_rfl (flat_of_not_positive h hb) hgreatest.1 with hw | ⟨a, b, p, q, hp, hq, hle'⟩
  · exact Or.inl hw
  · have hgap : p + q - infinity ∈ g.gaps ii i j := ⟨a, b, p, q, hp, hq, rfl⟩
    exact Or.inr (le_antisymm hle' (hle _ (Or.inr hgap)) ▸ hgap)

/-- The matrix without `Is_True_On` is right when the gaps are below the paths. -/
theorem right_false (h : ¬g.Positive ii) : g.Right ii (mindist g ii false) ↔ g.GapsBelow ii := by
  refine forall_congr' fun i => forall_congr' fun hi => forall_congr' fun j => forall_congr' fun hj => ?_
  have hm := mindist_false hb h hi hj
  constructor
  · rintro ⟨hright, hnone⟩ z hz
    have hle : z ≤ mindist g ii false i j := hm.2 (Or.inr hz)
    refine ⟨fun x hx => ?_, fun hempty i' hi' j' hj' x hx => ?_⟩
    · rw [hx.unique (hright ⟨x, hx.1⟩)]
      exact hle
    · exact hle.trans_lt (hnone hempty i' hi' j' hj' x hx)
  · intro hgap
    refine ⟨fun hne => ?_, fun hempty i' hi' j' hj' x hx => ?_⟩
    · rcases longest_spec hb h i j with ⟨hempty, -⟩ | ⟨x, hx, -, -⟩
      · exact absurd hempty hne.ne_empty
      · rcases hm.1 with hw | hz
        · exact ⟨hw, fun z hz => hm.2 (Or.inl hz)⟩
        · exact le_antisymm ((hgap _ hz).1 x hx) (hm.2 (Or.inl hx.1)) ▸ hx
    · rcases hm.1 with hw | hz
      · exact absurd hw (hempty ▸ Set.notMem_empty _)
      · exact (hgap _ hz).2 hempty i' hi' j' hj' x hx

/-- What the build without `Is_True_On` does for its purpose. -/
theorem meets_false : g.Meets ii false ↔ g.Positive ii ∨ g.GapsBelow ii := by
  have hfits : ∀ k ≤ g.numOps, Flat g.numOps (longest (initial g ii) k) → ∀ x < g.numOps, ∀ y < g.numOps,
      ∃ z, InTable z ∧ id z = longest (initial g ii) k x y := fun k hk hd x _ y _ =>
    ⟨_, longest_initial_fits hb hk hd x y, rfl⟩
  by_cases h : g.Positive ii
  · refine iff_of_true ⟨fun h' => absurd h h', fun h' => absurd h h', fun _ => ?_⟩ (Or.inl h)
    exact verify_eq_false (reads_id.after_pos (holds_id hb) hfits le_rfl fun hd =>
      not_flat_of_positive hb h (flat_of_flat hb le_rfl hd))
  · rw [or_iff_right h, ← right_false hb h]
    exact ⟨fun hm => hm.right h, fun hr => ⟨fun _ => reads_id.noWrap hb (holds_id hb) hfits (flat_initial hb h),
      fun _ => hr, fun h' => absurd h' h⟩⟩

/-- The constructor is right with `Is_True_On`; without it, when no sum with `-_INFINITY` is more than a path. -/
theorem meets_iff (isTrueOn : Bool) : g.Meets ii isTrueOn ↔ isTrueOn = true ∨ g.Positive ii ∨ g.GapsBelow ii := by
  cases isTrueOn with
  | true => exact iff_of_true (meets_true hb) (Or.inl rfl)
  | false => rw [meets_false hb, or_iff_right Bool.false_ne_true]

omit hb

/-- Weights that lie between differences of potentials, on the arcs and so on the walks. -/
theorem Walk.between {l u : Nat → Int} (hD : ∀ x y z, D x y z → l y - l x ≤ z ∧ z ≤ u y - u x) {S : Set Nat} {x y : Nat}
    {z : Int} (h : Walk D S x y z) : l y - l x ≤ z ∧ z ≤ u y - u x := by
  induction h with
  | arc h => exact hD _ _ _ h
  | append _ _ _ ih ih' => omega

/-- A first operation, one that must follow it 100 cycles later, and one that must precede it by ten iterations. -/
def farApart : DepGraph where
  opCount := 3
  succs i := if i = 1 then [⟨2, 100, 0⟩, ⟨3, 0, 10⟩] else []
  succ_mem i a ha := by
    split_ifs at ha
    · fin_cases ha <;> decide
    · contradiction

theorem farApart_arcs {x y : Nat} {z : Int} (h : Dependence farApart 995 farApart.body x y z) :
    (x, y, z) ∈ [(1, 2, 100), (1, 3, -9950), (0, 1, 0), (0, 2, 0), (0, 3, 0), (1, 4, 0), (2, 4, 0), (3, 4, (0 : Int))] := by
  cases h with
  | succ hi ha =>
    simp only [farApart] at ha
    split_ifs at ha with h
    · subst h
      fin_cases ha <;> decide
    · contradiction
  | start hi =>
    replace hi : y ∈ [1, 2, 3] := hi
    fin_cases hi <;> decide
  | stop hi =>
    replace hi : x ∈ [1, 2, 3] := hi
    fin_cases hi <;> decide

theorem farApart_between {S : Set Nat} {x y : Nat} {z : Int}
    (h : Walk (Dependence farApart 995 farApart.body) S x y z) (l u : Nat → Int)
    (hlu : ∀ p ∈ [(1, 2, 100), (1, 3, -9950), (0, 1, 0), (0, 2, 0), (0, 3, 0), (1, 4, 0), (2, 4, 0), (3, 4, (0 : Int))],
      l p.2.1 - l p.1 ≤ p.2.2 ∧ p.2.2 ≤ u p.2.1 - u p.1) : l y - l x ≤ z ∧ z ≤ u y - u x :=
  Walk.between (fun _ _ _ h => hlu _ (farApart_arcs h)) h

theorem farApart_bounded : farApart.Bounded 995 := by
  intro V x y z h
  have hw := h.walk (Set.subset_univ V)
  have hxy := farApart_between hw (fun i => if i < 3 then 0 else -9950) (fun i => if i = 2 ∨ i = 4 then 100 else 0)
    (by decide)
  unfold infinity
  rw [abs_lt]
  split_ifs at hxy <;> omega

theorem farApart_not_positive : ¬farApart.Positive 995 := by
  rintro ⟨i, z, hz, hw⟩
  have := farApart_between hw (fun i => if i < 3 then 0 else -9950) (fun i => if i = 2 ∨ i = 4 then 100 else 0)
    (by decide)
  omega

theorem meets_farApart : farApart.Bounded 995 ∧ farApart.Meets 995 true :=
  ⟨farApart_bounded, (meets_iff farApart_bounded true).mpr (Or.inl rfl)⟩

/-- Without `Is_True_On` the entry for the first and the last operation is `100 - 9999`, not `-9950`. -/
theorem not_meets_farApart : ¬∀ (g : DepGraph) (ii : Nat) (isTrueOn : Bool), g.Bounded ii → g.Meets ii isTrueOn := by
  intro h
  rcases (meets_false farApart_bounded).mp (h farApart 995 false farApart_bounded) with hpos | hgap
  · exact farApart_not_positive hpos
  · have harc : ∀ {x y z}, Dependence farApart 995 farApart.body x y z → z ∈ farApart.weights 995 x y := fun h => .arc h
    have h12 : (100 : Int) ∈ farApart.weights 995 1 2 :=
      harc (.succ (i := 1) (a := ⟨2, 100, 0⟩) (by decide) (by simp [farApart]))
    have h13 : (-9950 : Int) ∈ farApart.weights 995 1 3 :=
      harc (.succ (i := 1) (a := ⟨3, 0, 10⟩) (by decide) (by simp [farApart]))
    have hgreatest : IsGreatest (farApart.weights 995 1 3) (-9950) := by
      refine ⟨h13, fun z hz => ?_⟩
      have := farApart_between hz (fun i => if i < 3 then 0 else -9950)
        (fun i => if i = 0 ∨ i = 3 then -9950 else if i = 1 then 0 else 100) (by decide)
      exact this.2
    have hle := (hgap 1 (by decide) 3 (by decide) (100 + 0 - infinity)
      ⟨2, 3, 100, 0, Or.inr h12, Or.inl ⟨rfl, rfl⟩, rfl⟩).1 _ hgreatest
    exact absurd hle (by decide)

end Path64.Swp

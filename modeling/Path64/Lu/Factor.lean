import Path64.Lu.Basic
import Mathlib.Algebra.BigOperators.Intervals
import Mathlib.Algebra.BigOperators.Ring.Finset
import Mathlib.GroupTheory.Perm.Basic
import Mathlib.Logic.Equiv.Basic
import Mathlib.Tactic.Ring

/-!
# Factoring column by column

* `forRange_update` : a loop that rewrites one range of an array;
* `LuMat.perm` : the interchanges as a permutation of the rows;
* `Lowered M g y` : `y` solves the lower triangular system with right side `g`; `lMul_lowered`, `Lowered.unique`;
* `Factors M m` : `M` is a factorization of `m` with its upper factor in echelon form;
* `Inserted` : what an insertion does to the arrays; `Factors.inserted` : it keeps the factorization.
-/

namespace Path64.Lu

variable {K : Type}

/-! ## Loops -/

theorem forRange_of_le {σ : Type} {lo hi : Nat} (h : hi ≤ lo) (body : Nat → σ → σ) (s : σ) :
    forRange lo hi body s = s := by
  rw [forRange, Nat.sub_eq_zero_of_le h]
  rfl

theorem forRange_succ {σ : Type} {lo hi : Nat} (h : lo ≤ hi) (body : Nat → σ → σ) (s : σ) :
    forRange lo (hi + 1) body s = body hi (forRange lo hi body s) := by
  rw [forRange, forRange, Nat.succ_sub h, List.range'_1_concat, List.foldl_append, Nat.add_sub_cancel' h]
  rfl

/-- A loop that rewrites the entries of one range from themselves and one entry before the range. -/
theorem forRange_update {lo c : Nat} (hc : c < lo) (g : Nat → K → K → K) (hi : Nat) (f : Nat → K) :
    forRange lo hi (fun r f => Function.update f r (g r (f c) (f r))) f =
      fun r => if lo ≤ r ∧ r < hi then g r (f c) (f r) else f r := by
  induction hi with
  | zero =>
    rw [forRange_of_le (Nat.zero_le _)]
    funext r
    rw [if_neg (by omega)]
  | succ hi ih =>
    by_cases h : lo ≤ hi
    · rw [forRange_succ h, ih]
      funext r
      by_cases hr : r = hi
      · subst hr
        rw [Function.update_self, if_pos (by omega)]
        dsimp only
        rw [if_neg (by omega), if_neg (by omega)]
      · rw [Function.update_of_ne hr]
        split_ifs <;> first | rfl | omega
    · rw [forRange_of_le (by omega)]
      funext r
      rw [if_neg (by omega)]

theorem swapEntries_eq (f : Nat → K) (i j : Nat) : swapEntries f i j = f ∘ Equiv.swap i j := by
  funext r
  rw [swapEntries, Function.comp_apply, Equiv.swap_apply_def]
  split_ifs <;> rfl

namespace LuMat

/-! ## Interchanges -/

/-- The interchanges of the first `n` rows as one permutation. -/
def perm (M : LuMat K) : Nat → Equiv.Perm Nat
  | 0 => 1
  | n + 1 => M.perm n * Equiv.swap (M.interch n) n

theorem interchange_eq (M : LuMat K) (f : Nat → K) : M.interchange f = f ∘ M.perm M.lu.rows := by
  have hall : ∀ n, forRange 0 n
      (fun r f => if r ≠ M.interch r then swapEntries f (M.interch r) r else f) f = f ∘ M.perm n := by
    intro n
    induction n with
    | zero => rfl
    | succ n ih =>
      rw [forRange_succ (Nat.zero_le _), ih, perm]
      split_ifs with h
      · rw [swapEntries_eq]
        rfl
      · rw [← not_not.1 h, Equiv.swap_self]
        rfl
  exact hall M.lu.rows

theorem perm_congr {M M' : LuMat K} {n : Nat} (h : ∀ r < n, M'.interch r = M.interch r) : M'.perm n = M.perm n := by
  induction n with
  | zero => rfl
  | succ n ih => rw [perm, perm, ih fun r hr => h r (hr.trans_le n.le_succ), h n n.lt_succ_self]

theorem perm_of_rest {M : LuMat K} {k n : Nat} (hk : k ≤ n) (h : ∀ r, k ≤ r → M.interch r = r) :
    M.perm n = M.perm k := by
  induction n, hk using Nat.le_induction with
  | base => rfl
  | succ n hkn ih =>
    rw [perm, ih, h n hkn, Equiv.swap_self]
    rfl

theorem perm_lt {M : LuMat K} {n k : Nat} (h : ∀ r < n, M.interch r < k) (hn : n ≤ k) {i : Nat} (hi : i < k) :
    M.perm n i < k := by
  induction n generalizing i with
  | zero => exact hi
  | succ n ih =>
    rw [perm, Equiv.Perm.mul_apply]
    refine ih (fun r hr => h r (hr.trans_le n.le_succ)) (by omega) ?_
    rw [Equiv.swap_apply_def]
    split_ifs
    · omega
    · exact h n n.lt_succ_self
    · exact hi

theorem perm_symm_lt {M : LuMat K} {n k : Nat} (h : ∀ r < n, M.interch r < k) (hn : n ≤ k) {i : Nat} (hi : i < k) :
    (M.perm n)⁻¹ i < k := by
  induction n generalizing i with
  | zero => exact hi
  | succ n ih =>
    rw [perm, mul_inv_rev, Equiv.Perm.mul_apply, Equiv.swap_inv]
    have hin := ih (fun r hr => h r (hr.trans_le n.le_succ)) (by omega) hi
    rw [Equiv.swap_apply_def]
    split_ifs
    · omega
    · exact h n n.lt_succ_self
    · exact hin

/-! ## Counting pivots -/

theorem pivots_succ (M : LuMat K) (c : Nat) : M.pivots (c + 1) = M.pivots c + if M.cpvt c then 1 else 0 := by
  rw [pivots, pivots, List.range_succ, List.countP_append, List.countP_singleton]

theorem pivots_mono (M : LuMat K) {a b : Nat} (h : a ≤ b) : M.pivots a ≤ M.pivots b := by
  induction b, h using Nat.le_induction with
  | base => exact le_rfl
  | succ b _ ih =>
    rw [pivots_succ]
    omega

theorem pivots_le (M : LuMat K) (c : Nat) : M.pivots c ≤ c := by
  induction c with
  | zero => exact le_rfl
  | succ c ih =>
    rw [pivots_succ]
    split_ifs <;> omega

theorem pivots_congr {M M' : LuMat K} {c : Nat} (h : ∀ j < c, M'.cpvt j = M.cpvt j) : M'.pivots c = M.pivots c := by
  induction c with
  | zero => rfl
  | succ c ih => rw [pivots_succ, pivots_succ, ih fun j hj => h j (hj.trans_le c.le_succ), h c c.lt_succ_self]

variable [Field K]

/-! ## The lower triangular system -/

/-- `y` solves the unit lower triangular system of `M` with right side `g`. -/
def Lowered (M : LuMat K) (g y : Nat → K) : Prop :=
  ∀ r < M.lu.rows, g r = y r + ∑ k ∈ Finset.range (min M.lu.cols r), M.lu.entry r k * y k

theorem lMul_lowered (M : LuMat K) (f : Nat → K) : M.Lowered (M.interchange f) (M.lMul f) := by
  -- after the first `c` columns, those columns of the system are solved
  have hall : ∀ c, ∀ r < M.lu.rows, M.interchange f r =
      (forRange 0 c (fun c f => forRange (c + 1) M.lu.rows
        (fun r f => Function.update f r (f r - f c * M.lu.entry r c)) f) (M.interchange f)) r +
      ∑ k ∈ Finset.range (min c r), M.lu.entry r k * (forRange 0 c (fun c f => forRange (c + 1) M.lu.rows
        (fun r f => Function.update f r (f r - f c * M.lu.entry r c)) f) (M.interchange f)) k := by
    intro c
    induction c with
    | zero =>
      intro r _
      rw [Nat.zero_min, Finset.range_zero, Finset.sum_empty, add_zero]
      rfl
    | succ c ih =>
      intro r hr
      rw [forRange_succ (Nat.zero_le _)]
      generalize forRange 0 c _ (M.interchange f) = y at ih
      rw [forRange_update (Nat.lt_succ_self c) (fun r p x => x - p * M.lu.entry r c), ih r hr]
      dsimp only
      have hsame : ∀ n ≤ c + 1, ∑ k ∈ Finset.range n, M.lu.entry r k *
          (if c + 1 ≤ k ∧ k < M.lu.rows then y k - y c * M.lu.entry k c else y k) =
          ∑ k ∈ Finset.range n, M.lu.entry r k * y k := by
        intro n hn
        refine Finset.sum_congr rfl fun k hk => ?_
        rw [if_neg]
        have := Finset.mem_range.1 hk
        omega
      by_cases hrc : c < r
      · rw [min_eq_left (by omega : c ≤ r), min_eq_left (by omega : c + 1 ≤ r), hsame _ le_rfl, if_pos ⟨hrc, hr⟩,
          Finset.sum_range_succ]
        ring
      · rw [min_eq_right (by omega : r ≤ c), min_eq_right (by omega : r ≤ c + 1), hsame _ (by omega),
          if_neg (by omega)]
  exact hall M.lu.cols

/-- The system has one solution. -/
theorem Lowered.unique {M : LuMat K} {g y z : Nat → K} (hy : M.Lowered g y) (hz : M.Lowered g z) :
    ∀ r < M.lu.rows, y r = z r := by
  intro r
  induction r using Nat.strong_induction_on with
  | _ r ih =>
    intro hr
    have hsum : ∑ k ∈ Finset.range (min M.lu.cols r), M.lu.entry r k * y k =
        ∑ k ∈ Finset.range (min M.lu.cols r), M.lu.entry r k * z k := by
      refine Finset.sum_congr rfl fun k hk => ?_
      have hk := Finset.mem_range.1 hk
      rw [ih k (by omega) (by omega)]
    have heq := (hy r hr).symm.trans (hz r hr)
    rw [hsum] at heq
    exact add_right_cancel heq

/-! ## The factorization -/

/-- `M` is a factorization of `m`: interchanged, the columns of `m` solve to those of the upper factor, which is in
echelon form; the columns from the rank on have no multipliers yet. -/
structure Factors (M : LuMat K) (m : Mat K) : Prop where
  rows : M.lu.rows = m.rows
  cols : M.lu.cols = m.cols
  interch_lt : ∀ r < m.rows, M.interch r < m.rows
  interch_rest : ∀ r, M.pivots m.cols ≤ r → M.interch r = r
  rank_le : M.pivots m.cols ≤ m.rows
  pivot : ∀ j < m.cols, M.cpvt j = true → M.lu.entry (M.pivots j) j ≠ 0
  zero : ∀ j < m.cols, ∀ r < m.rows, M.pivots (j + 1) ≤ r → r ≤ j → M.lu.entry r j = 0
  unused : ∀ j < m.cols, ∀ r < m.rows, M.pivots m.cols ≤ j → j < r → M.lu.entry r j = 0
  solved : ∀ j < m.cols, M.Lowered (M.interchange fun i => m.entry i j) fun r => M.lu.upper.entry r j

theorem factors_empty (rows : Nat) (a b : Nat → Nat → K) :
    Factors ⟨⟨rows, 0, a⟩, fun r => r, fun _ => false⟩ ⟨rows, 0, b⟩ := by
  refine ⟨rfl, rfl, fun r hr => hr, fun r _ => rfl, Nat.zero_le _, ?_, ?_, ?_, ?_⟩ <;>
    exact fun j hj => absurd hj (Nat.not_lt_zero j)

namespace Factors

variable {M : LuMat K} {m : Mat K}

theorem corner (h : Factors M m) {r j : Nat} (hr : r < m.rows) (hj : j < m.cols) (hr' : M.pivots m.cols ≤ r)
    (hj' : M.pivots m.cols ≤ j) : M.lu.entry r j = 0 := by
  by_cases hrj : r ≤ j
  · exact h.zero j hj r hr ((M.pivots_mono hj).trans hr') hrj
  · exact h.unused j hj r hr hj' (by omega)

theorem upper_zero (h : Factors M m) {r j : Nat} (hr : r < m.rows) (hj : j < m.cols) (hp : M.pivots (j + 1) ≤ r) :
    M.lu.upper.entry r j = 0 := by
  show (if r ≤ j then M.lu.entry r j else 0) = 0
  split_ifs with hrj
  · exact h.zero j hj r hr hp hrj
  · rfl

theorem upper_zero_rank (h : Factors M m) {r j : Nat} (hr : r < m.rows) (hj : j < m.cols)
    (hp : M.pivots m.cols ≤ r) : M.lu.upper.entry r j = 0 :=
  h.upper_zero hr hj ((M.pivots_mono hj).trans hp)

end Factors

/-- What an insertion of `w` does: row `ρ`, the rank so far, was exchanged with row `p`, the multipliers went below the
diagonal of column `ρ` and the column itself became the last one. -/
structure Inserted (M : LuMat K) (w : Nat → K) (p : Nat) (mult : Nat → K) (flag : Bool) (M' : LuMat K) : Prop where
  rows : M'.lu.rows = M.lu.rows
  cols : M'.lu.cols = M.lu.cols + 1
  interch : M'.interch = Function.update M.interch (M.pivots M.lu.cols) p
  cpvt : M'.cpvt = Function.update M.cpvt M.lu.cols flag
  le : M.pivots M.lu.cols ≤ p
  lt : p < M.lu.rows ∨ p = M.pivots M.lu.cols
  entry : ∀ i < M.lu.rows, ∀ j ≤ M.lu.cols, M'.lu.entry i j =
    if j = M.pivots M.lu.cols ∧ M.pivots M.lu.cols < i then mult i
    else if j = M.lu.cols then
      if i ≤ M.pivots M.lu.cols then M.lMul w (Equiv.swap (M.pivots M.lu.cols) p i) else 0
    else M.lu.entry (Equiv.swap (M.pivots M.lu.cols) p i) j
  nonzero : flag = true → M.pivots M.lu.cols < M.lu.rows ∧ p < M.lu.rows ∧ M.lMul w p ≠ 0 ∧
    ∀ i, M.pivots M.lu.cols < i → i < M.lu.rows →
      mult i * M.lMul w p = M.lMul w (Equiv.swap (M.pivots M.lu.cols) p i)
  allZero : flag = false → p = M.pivots M.lu.cols ∧
    ∀ i, M.pivots M.lu.cols ≤ i → i < M.lu.rows → M.lMul w i = 0 ∧ mult i = 0

end LuMat

end Path64.Lu

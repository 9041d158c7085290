import Mathlib.Data.Rat.Defs
import Mathlib.Order.Lattice

/-!
# Marking dominated elements pair by pair

Every two of `n` elements are compared once; a verdict `1` marks the first of them, `2` the second. A marked element is
still compared as the first of a pair until its row is done.

* `markPair`, `markRow`, `markAll` : the loops;
* `compared` : the pairs that are compared; `markAll_verdictCompared` : no other verdict matters;
* `Ranked` : what a verdict says, in terms of a key and a bound;
* `markAll_covers` : every element has one that is not marked, of the same key and with no larger bound.
-/

namespace Path64.Lib

section Loops

variable (verdict : Nat → Nat → Nat)

/-- One comparison. -/
def markPair (i : Nat) (marked : Nat → Bool) (j : Nat) : Nat → Bool :=
  if marked j = true then marked
  else if verdict i j = 1 then Function.update marked i true
  else if verdict i j = 2 then Function.update marked j true
  else marked

/-- Element `i` against all later ones. -/
def markRow (n : Nat) (marked : Nat → Bool) (i : Nat) : Nat → Bool :=
  if marked i = true then marked else (List.range' (i + 1) (n - (i + 1))).foldl (markPair verdict i) marked

/-- What is marked when the row of `i` is reached. -/
def markedBefore (n i : Nat) : Nat → Bool := (List.range i).foldl (markRow verdict n) fun _ => false

/-- All pairs. -/
def markAll (n : Nat) : Nat → Bool := markedBefore verdict n n

/-- What is marked when the row of `i` has come to `j`. -/
def markedAt (n i j : Nat) : Nat → Bool :=
  (List.range' (i + 1) (j - (i + 1))).foldl (markPair verdict i) (markedBefore verdict n i)

/-- The pairs that are compared. -/
def compared (n i j : Nat) : Bool :=
  decide (i < j ∧ j < n) && !markedBefore verdict n i i && !markedAt verdict n i j j

/-- The verdicts on the pairs that are compared. -/
def verdictCompared (n i j : Nat) : Nat := if compared verdict n i j then verdict i j else 0

theorem markPair_verdictCompared {n i j : Nat} (hij : i < j) (hj : j < n) (hi : markedBefore verdict n i i ≠ true) :
    markPair (verdictCompared verdict n) i (markedAt verdict n i j) j = markPair verdict i (markedAt verdict n i j) j := by
  unfold markPair
  by_cases hmarked : markedAt verdict n i j j = true
  · rw [if_pos hmarked, if_pos hmarked]
  · have hcompared : compared verdict n i j = true := by
      have hi := eq_false_of_ne_true hi
      have hmarked := eq_false_of_ne_true hmarked
      unfold compared
      rw [hi, hmarked, decide_eq_true ⟨hij, hj⟩]
      rfl
    rw [if_neg hmarked, if_neg hmarked, verdictCompared, if_pos hcompared]

theorem foldl_verdictCompared {n i : Nat} (hi : markedBefore verdict n i i ≠ true) (m : Nat) (hm : i + 1 + m ≤ n) :
    (List.range' (i + 1) m).foldl (markPair (verdictCompared verdict n) i) (markedBefore verdict n i) =
      (List.range' (i + 1) m).foldl (markPair verdict i) (markedBefore verdict n i) := by
  induction m with
  | zero => rfl
  | succ m ih =>
    have hpair := markPair_verdictCompared verdict (i := i) (j := i + 1 + m) (by omega) (by omega) hi
    rw [markedAt, Nat.add_sub_cancel_left] at hpair
    rw [List.range'_1_concat, List.foldl_append, List.foldl_append, ih (by omega)]
    exact hpair

theorem markedBefore_verdictCompared {n : Nat} (i : Nat) (hi : i ≤ n) :
    markedBefore (verdictCompared verdict n) n i = markedBefore verdict n i := by
  induction i with
  | zero => rfl
  | succ i ih =>
    have hstep : ∀ v, markedBefore v n (i + 1) = markRow v n (markedBefore v n i) i := fun v => by
      rw [markedBefore, List.range_succ, List.foldl_append]
      rfl
    rw [hstep, hstep, ih (by omega)]
    unfold markRow
    by_cases hmarked : markedBefore verdict n i i = true
    · rw [if_pos hmarked, if_pos hmarked]
    · rw [if_neg hmarked, if_neg hmarked, foldl_verdictCompared verdict hmarked _ (by omega)]

theorem markAll_verdictCompared (n : Nat) : markAll (verdictCompared verdict n) n = markAll verdict n :=
  markedBefore_verdictCompared verdict n le_rfl

end Loops

/-- Elements with a verdict have the same key; the one to mark has the larger bound, strictly so if it is the first. -/
structure Ranked {δ β : Type*} [LinearOrder β] (verdict : Nat → Nat → Nat) (key : Nat → δ) (bound : Nat → β) : Prop where
  first : ∀ {i j}, verdict i j = 1 → key i = key j ∧ bound j < bound i
  second : ∀ {i j}, verdict i j = 2 → key i = key j ∧ bound i ≤ bound j

section Cover

variable {δ β : Type*} [LinearOrder β] {verdict : Nat → Nat → Nat} {key : Nat → δ} {bound : Nat → β} {n : Nat}

/-- Every element has an unmarked one that dominates it. -/
def Covers (key : Nat → δ) (bound : Nat → β) (n : Nat) (marked : Nat → Bool) : Prop :=
  ∀ r < n, ∃ k < n, marked k = false ∧ key k = key r ∧ bound k ≤ bound r

/-- Within the row of `i`: once `i` is marked, an unmarked element is strictly below it. -/
structure CoversRow (key : Nat → δ) (bound : Nat → β) (n i : Nat) (marked : Nat → Bool) : Prop where
  covers : Covers key bound n marked
  strict : marked i = true → ∃ k < n, marked k = false ∧ key k = key i ∧ bound k < bound i

theorem Covers.mark {marked : Nat → Bool} (h : Covers key bound n marked) {r k : Nat} (hk : k < n) (hkr : k ≠ r)
    (hunmarked : marked k = false) (hkey : key k = key r) (hbound : bound k ≤ bound r) :
    Covers key bound n (Function.update marked r true) := by
  intro s hs
  obtain ⟨l, hl, hlm, hlkey, hlbound⟩ := h s hs
  by_cases hlr : l = r
  · refine ⟨k, hk, ?_, ?_, ?_⟩
    · rw [Function.update_of_ne hkr]
      exact hunmarked
    · rw [hkey, ← hlr, hlkey]
    · rw [hlr] at hlbound
      exact hbound.trans hlbound
  · refine ⟨l, hl, ?_, hlkey, hlbound⟩
    rw [Function.update_of_ne hlr]
    exact hlm

theorem markPair_covers (hranked : Ranked verdict key bound) {i j : Nat} (hij : i < j) (hj : j < n)
    {marked : Nat → Bool} (h : CoversRow key bound n i marked) :
    CoversRow key bound n i (markPair verdict i marked j) := by
  unfold markPair
  split_ifs with hmarked hone htwo
  · exact h
  · -- `i` is marked, `j` is not and lies strictly below
    obtain ⟨hkey, hlt⟩ := hranked.first hone
    rw [Bool.not_eq_true] at hmarked
    refine ⟨h.covers.mark hj hij.ne' hmarked hkey.symm hlt.le, fun _ => ⟨j, hj, ?_, hkey.symm, hlt⟩⟩
    rw [Function.update_of_ne hij.ne']
    exact hmarked
  · -- `j` is marked for `i`, or for what lies strictly below `i`
    obtain ⟨hkey, hle⟩ := hranked.second htwo
    cases hi : marked i with
    | false =>
      refine ⟨h.covers.mark (hij.trans hj) hij.ne hi hkey hle, fun htrue => ?_⟩
      rw [Function.update_of_ne hij.ne, hi] at htrue
      exact Bool.noConfusion htrue
    | true =>
      obtain ⟨k, hk, hkm, hkkey, hklt⟩ := h.strict hi
      have hkj : k ≠ j := by
        rintro rfl
        exact absurd (hklt.trans_le hle) (lt_irrefl _)
      refine ⟨h.covers.mark hk hkj hkm (hkkey.trans hkey) (hklt.le.trans hle), fun _ => ⟨k, hk, ?_, hkkey, hklt⟩⟩
      rw [Function.update_of_ne hkj]
      exact hkm
  · exact h

theorem markRow_covers (hranked : Ranked verdict key bound) {i : Nat} {marked : Nat → Bool}
    (h : Covers key bound n marked) : Covers key bound n (markRow verdict n marked i) := by
  unfold markRow
  split_ifs with hi
  · exact h
  · have hstart : CoversRow key bound n i marked := ⟨h, fun htrue => absurd htrue hi⟩
    refine CoversRow.covers (i := i) ?_
    refine List.foldlRecOn (motive := CoversRow key bound n i) _ _ hstart fun marked' h' j hj => ?_
    have hj := List.mem_range'_1.1 hj
    exact markPair_covers hranked (by omega) (by omega) h'

/-- Every element has one that is not marked, of the same key and with no larger bound. -/
theorem markAll_covers (n : Nat) (hranked : Ranked (verdictCompared verdict n) key bound) :
    Covers key bound n (markAll verdict n) := by
  rw [← markAll_verdictCompared]
  refine List.foldlRecOn (motive := Covers key bound n) _ _ (fun r hr => ⟨r, hr, rfl, rfl, le_rfl⟩) ?_
  exact fun marked h i _ => markRow_covers hranked h

end Cover

end Path64.Lib

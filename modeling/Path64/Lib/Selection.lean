import Mathlib

/-!
# Selection sort by swaps

A sequence is a function on indices, of which the first `n` are in use.

* `select` : the index a left-to-right scan picks, `select_le` : no scanned key is smaller;
* `pass`, `sort` : one pass, and the passes `0 … n-2` in order;
* `sort_perm`, `sort_sorted` : the result is a permutation, sorted by key.
-/

namespace Path64.Lib.Selection

open Equiv

variable {α β : Type*} [LinearOrder β] (key : α → β)

/-- Scans `js` and keeps the first index of least key. -/
def select (f : Nat → α) (mx : Nat) : List Nat → Nat
  | [] => mx
  | j :: js => select f (if key (f j) < key (f mx) then j else mx) js

/-- Selects for place `i` among the places after it, and swaps when another place is selected. -/
def pass (n : Nat) (f : Nat → α) (i : Nat) : Nat → α :=
  let mx := select key f i (List.range' (i + 1) (n - (i + 1)))
  if mx ≠ i then f ∘ swap i mx else f

def sort (n : Nat) (f : Nat → α) : Nat → α := (List.range (n - 1)).foldl (pass key n) f

theorem select_mem (f : Nat → α) (mx : Nat) (js : List Nat) :
    select key f mx js = mx ∨ select key f mx js ∈ js := by
  induction js generalizing mx with
  | nil => exact Or.inl rfl
  | cons j js ih =>
    rw [select]
    split_ifs
    · rcases ih j with h | h
      · rw [h]
        exact Or.inr List.mem_cons_self
      · exact Or.inr (List.mem_cons_of_mem j h)
    · exact (ih mx).imp_right (List.mem_cons_of_mem j)

theorem select_le (f : Nat → α) (mx : Nat) (js : List Nat) :
    key (f (select key f mx js)) ≤ key (f mx) ∧ ∀ j ∈ js, key (f (select key f mx js)) ≤ key (f j) := by
  induction js generalizing mx with
  | nil => exact ⟨le_rfl, by simp⟩
  | cons j js ih =>
    rw [select]
    split_ifs with hlt
    · obtain ⟨h1, h2⟩ := ih j
      refine ⟨h1.trans hlt.le, fun x hx => ?_⟩
      rcases List.mem_cons.mp hx with rfl | hx
      · exact h1
      · exact h2 x hx
    · obtain ⟨h1, h2⟩ := ih mx
      refine ⟨h1, fun x hx => ?_⟩
      rcases List.mem_cons.mp hx with rfl | hx
      · exact h1.trans (not_lt.mp hlt)
      · exact h2 x hx

theorem pass_eq {n i : Nat} (hi : i < n) (f : Nat → α) :
    ∃ mx, i ≤ mx ∧ mx < n ∧ pass key n f i = f ∘ swap i mx ∧
      ∀ j, i ≤ j → j < n → key (f mx) ≤ key (f j) := by
  set js := List.range' (i + 1) (n - (i + 1)) with hjs
  have hmem : ∀ j, j ∈ js ↔ i < j ∧ j < n := by
    intro j
    rw [hjs, List.mem_range'_1]
    omega
  refine ⟨select key f i js, ?_, ?_, ?_, ?_⟩
  · rcases select_mem key f i js with h | h
    · exact h.ge
    · exact ((hmem _).mp h).1.le
  · rcases select_mem key f i js with h | h
    · rwa [h]
    · exact ((hmem _).mp h).2
  · unfold pass
    rw [← hjs]
    by_cases h : select key f i js = i
    · simp [h]
    · simp [h]
  · intro j hij hjn
    rcases eq_or_lt_of_le hij with rfl | hlt
    · exact (select_le key f _ js).1
    · exact (select_le key f i js).2 j ((hmem j).mpr ⟨hlt, hjn⟩)

theorem map_swap_perm {n i j : Nat} (hi : i < n) (hj : j < n) (f : Nat → α) :
    ((List.range n).map (f ∘ swap i j)).Perm ((List.range n).map f) := by
  have hperm : ((List.range n).map (swap i j)).Perm (List.range n) := by
    refine List.perm_of_nodup_nodup_toFinset_eq (List.nodup_range.map (swap i j).injective) List.nodup_range ?_
    ext x
    simp only [List.mem_toFinset, List.mem_map, List.mem_range]
    constructor
    · rintro ⟨y, hy, rfl⟩
      rw [swap_apply_def]
      split_ifs <;> omega
    · intro hx
      refine ⟨swap i j x, ?_, swap_apply_self i j x⟩
      rw [swap_apply_def]
      split_ifs <;> omega
  rw [← List.map_map]
  exact hperm.map f

/-- The invariant of the passes: the places below `i` are sorted and below everything after them. -/
def SortedTo (n : Nat) (f : Nat → α) (i : Nat) : Prop :=
  ∀ a b, a < i → a < b → b < n → key (f a) ≤ key (f b)

theorem pass_sortedTo {n i : Nat} (hi : i < n) {f : Nat → α} (h : SortedTo key n f i) :
    SortedTo key n (pass key n f i) (i + 1) := by
  obtain ⟨mx, himx, hmxn, hpass, hmin⟩ := pass_eq key hi f
  rw [hpass]
  intro a b ha hab hbn
  rw [Function.comp_apply, Function.comp_apply]
  rcases Nat.lt_succ_iff_lt_or_eq.mp ha with ha | rfl
  · -- a place already settled: its key is below both places of the swap
    rw [swap_apply_of_ne_of_ne ha.ne (by omega)]
    refine h a _ ha ?_ ?_ <;> rw [swap_apply_def] <;> split_ifs <;> omega
  · rw [swap_apply_left]
    apply hmin <;> rw [swap_apply_def] <;> split_ifs <;> omega

theorem foldl_pass (n m : Nat) (hm : m ≤ n) (f : Nat → α) :
    SortedTo key n ((List.range m).foldl (pass key n) f) m ∧
      ((List.range n).map ((List.range m).foldl (pass key n) f)).Perm ((List.range n).map f) := by
  induction m with
  | zero => exact ⟨fun a b ha => absurd ha (Nat.not_lt_zero a), List.Perm.refl _⟩
  | succ m ih =>
    obtain ⟨hs, hp⟩ := ih (by omega)
    rw [List.range_succ, List.foldl_append]
    refine ⟨pass_sortedTo key hm hs, ?_⟩
    obtain ⟨mx, -, hmxn, hpass, -⟩ := pass_eq key hm ((List.range m).foldl (pass key n) f)
    simp only [List.foldl_cons, List.foldl_nil]
    rw [hpass]
    exact (map_swap_perm hm hmxn _).trans hp

theorem sort_perm (n : Nat) (f : Nat → α) : ((List.range n).map (sort key n f)).Perm ((List.range n).map f) :=
  (foldl_pass key n (n - 1) (Nat.sub_le n 1) f).2

theorem sort_sorted (n : Nat) (f : Nat → α) :
    ((List.range n).map (sort key n f)).Pairwise fun a b => key a ≤ key b := by
  have hs := (foldl_pass key n (n - 1) (Nat.sub_le n 1) f).1
  rw [List.pairwise_map]
  refine List.pairwise_lt_range.imp_of_mem ?_
  intro a b _ hb hab
  have hb := List.mem_range.mp hb
  exact hs a b (by omega) hab hb

end Path64.Lib.Selection

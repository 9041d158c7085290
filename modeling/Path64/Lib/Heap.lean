import Mathlib

/-!
# Binary heaps in an array

The heap is `f 1, …, f n`; the parent of `i` is `i / 2`.

* `HeapOrdered r n f` : no element precedes its parent;
* `Hole`, `UpHole`, `DownHole` : the order around a position whose element is on the move, and how a move
  changes it (`Hole.moveUp`, `UpHole.moveUp`, `DownHole.moveDown`);
* `contents n f` : the multiset of the elements;
* `Sifting` : an element held out of the array while others move into its hole, with the positions last
  reported for them.
-/

namespace Path64.Lib

variable {α : Type}

/-! ## Strict weak orders -/

section Order

variable {r : α → α → Prop} [IsStrictWeakOrder α r] {a b c : α}

theorem not_precedes_symm (h : r a b) : ¬r b a := fun h' => irrefl_of r a (trans_of r h h')

theorem not_precedes_trans (hab : ¬r b a) (hbc : ¬r c b) : ¬r c a := by
  intro hca
  by_cases hba : r a b
  · exact hbc (trans_of r hca hba)
  · by_cases hcb : r b c
    · exact hab (trans_of r hcb hca)
    · exact (IsStrictWeakOrder.incomp_trans c b a ⟨hbc, hcb⟩ ⟨hab, hba⟩).1 hca

theorem not_precedes_of_precedes (hab : r a b) (hcb : ¬r c b) : ¬r c a := fun hca => hcb (trans_of r hca hab)

end Order

/-- `g` is `f` with `x` at position `i`. -/
structure Replaced (f g : Nat → α) (i : Nat) (x : α) : Prop where
  same : g i = x
  other : ∀ j, 1 ≤ j → j ≠ i → g j = f j

/-! ## The order with a hole -/

section Ordered

variable {r : α → α → Prop} {n hole : Nat} {f g : Nat → α} {e : α}

/-- No element precedes its parent. -/
def HeapOrdered (r : α → α → Prop) (n : Nat) (f : Nat → α) : Prop :=
  ∀ i, 2 ≤ i → i ≤ n → ¬r (f i) (f (i / 2))

/-- The order of all elements but the one in the hole. -/
structure Hole (r : α → α → Prop) (n : Nat) (f : Nat → α) (hole : Nat) : Prop where
  off : ∀ i, 2 ≤ i → i ≤ n → i ≠ hole → i / 2 ≠ hole → ¬r (f i) (f (i / 2))
  grand : 2 ≤ hole → ∀ i, i ≤ n → i / 2 = hole → ¬r (f i) (f (hole / 2))

/-- A hole whose children `e` may stand over. -/
structure UpHole (r : α → α → Prop) (n : Nat) (f : Nat → α) (hole : Nat) (e : α) : Prop extends
    Hole r n f hole where
  below : 1 ≤ hole → ∀ i, i ≤ n → i / 2 = hole → ¬r (f i) e

/-- A hole whose parent may stand over `e`. -/
structure DownHole (r : α → α → Prop) (n : Nat) (f : Nat → α) (hole : Nat) (e : α) : Prop extends
    Hole r n f hole where
  above : 2 ≤ hole → ¬r e (f (hole / 2))

theorem HeapOrdered.first [IsStrictWeakOrder α r] (h : HeapOrdered r n f) {i : Nat} (h1 : 1 ≤ i) (hi : i ≤ n) : ¬r (f i) (f 1) := by
  induction i using Nat.strongRecOn with
  | ind i ih =>
    by_cases hone : i = 1
    · rw [hone]
      exact irrefl_of r (f 1)
    · have hparent := h i (by omega) hi
      exact not_precedes_trans (ih (i / 2) (by omega) (by omega) (by omega)) hparent

theorem HeapOrdered.holeAt [IsStrictWeakOrder α r] (h : HeapOrdered r n f) (hole : Nat) : Hole r n f hole := by
  refine ⟨fun i h2 hi _ _ => h i h2 hi, fun h2 i hi hparent => ?_⟩
  have hchild := h i (by omega) hi
  rw [hparent] at hchild
  exact not_precedes_trans (h hole h2 (by omega)) hchild

theorem Hole.congr (o : Hole r n f hole) {x : α} (hg : Replaced f g hole x) : Hole r n g hole := by
  refine ⟨fun i h2 hi hne hparent => ?_, fun h2 i hi hparent => ?_⟩
  · rw [hg.other i (by omega) hne, hg.other (i / 2) (by omega) hparent]
    exact o.off i h2 hi hne hparent
  · rw [hg.other i (by omega) (by omega), hg.other (hole / 2) (by omega) (by omega)]
    exact o.grand h2 i hi hparent

theorem Hole.mono {m : Nat} (o : Hole r n f hole) (hm : m ≤ n) : Hole r m f hole :=
  ⟨fun i h2 hi => o.off i h2 (by omega), fun h2 i hi => o.grand h2 i (by omega)⟩

/-- An element that precedes the hole's parent sends the parent down: no child of the new hole precedes it. -/
theorem Hole.moveUp [IsStrictWeakOrder α r] (o : Hole r n f hole) (h2 : 2 ≤ hole) (hn : hole ≤ n)
    (hbefore : r e (f (hole / 2))) (hg : Replaced f g hole (f (hole / 2))) : UpHole r n g (hole / 2) e := by
  have hsibling : ∀ i, 2 ≤ i → i ≤ n → i / 2 = hole / 2 → ¬r (g i) (f (hole / 2)) := by
    intro i hi2 hi hparent
    by_cases hih : i = hole
    · rw [hih, hg.same]
      exact irrefl_of r _
    · rw [hg.other i (by omega) hih, ← hparent]
      exact o.off i hi2 hi hih (by omega)
  refine ⟨⟨fun i hi2 hi hne hparent => ?_, fun hp2 i hi hparent => ?_⟩, fun hp1 i hi hparent => ?_⟩
  · have hih : i ≠ hole := by
      rintro rfl
      exact hparent rfl
    rw [hg.other i (by omega) hih]
    by_cases hchild : i / 2 = hole
    · rw [hchild, hg.same]
      exact o.grand h2 i hi hchild
    · rw [hg.other (i / 2) (by omega) hchild]
      exact o.off i hi2 hi hih hchild
  · rw [hg.other (hole / 2 / 2) (by omega) (by omega)]
    refine not_precedes_trans ?_ (hsibling i (by omega) hi hparent)
    exact o.off (hole / 2) hp2 (by omega) (by omega) (by omega)
  · exact not_precedes_of_precedes hbefore (hsibling i (by omega) hi hparent)

theorem UpHole.finish (o : UpHole r n f hole e) (hhole : 1 ≤ hole) (hstop : 2 ≤ hole → ¬r e (f (hole / 2)))
    (hg : Replaced f g hole e) : HeapOrdered r n g := by
  intro i h2 hi
  by_cases hih : i = hole
  · rw [hih, hg.same, hg.other (hole / 2) (by omega) (by omega)]
    exact hstop (by omega)
  · rw [hg.other i (by omega) hih]
    by_cases hparent : i / 2 = hole
    · rw [hparent, hg.same]
      exact o.below hhole i hi hparent
    · rw [hg.other (i / 2) (by omega) hparent]
      exact o.off i h2 hi hih hparent

/-- The child that precedes its sibling and `e` goes up. -/
theorem DownHole.moveDown [IsStrictWeakOrder α r] (o : DownHole r n f hole e) {child : Nat}
    (hchild : child / 2 = hole) (hn : child ≤ n) (hfirst : ∀ i, i ≤ n → i / 2 = hole → ¬r (f i) (f child)) (hbefore : r (f child) e)
    (hg : Replaced f g hole (f child)) : DownHole r n g child e := by
  refine ⟨⟨fun i h2 hi hne hparent => ?_, fun h2 i hi hparent => ?_⟩, fun h2 => ?_⟩
  · by_cases hih : i = hole
    · rw [hih, hg.same, hg.other (hole / 2) (by omega) (by omega)]
      exact o.grand (by omega) child hn hchild
    · rw [hg.other i (by omega) hih]
      by_cases hsibling : i / 2 = hole
      · rw [hsibling, hg.same]
        exact hfirst i hi hsibling
      · rw [hg.other (i / 2) (by omega) hsibling]
        exact o.off i h2 hi hih hsibling
  · rw [hchild, hg.same, hg.other i (by omega) (by omega), ← hparent]
    exact o.off i (by omega) hi (by omega) (by omega)
  · rw [hchild, hg.same]
    exact not_precedes_symm hbefore

end Ordered

/-! ## The elements -/

section Contents

variable {f g : Nat → α} {n i : Nat} {x : α}

/-- The elements of the heap. -/
def contents (n : Nat) (f : Nat → α) : Multiset α := ∑ i ∈ Finset.Icc 1 n, {f i}

@[simp] theorem contents_zero (f : Nat → α) : contents 0 f = 0 := rfl

theorem contents_succ (n : Nat) (f : Nat → α) : contents (n + 1) f = contents n f + {f (n + 1)} :=
  Finset.sum_Icc_succ_top (by omega) _

theorem mem_contents : x ∈ contents n f ↔ ∃ i, 1 ≤ i ∧ i ≤ n ∧ f i = x := by
  unfold contents
  rw [Multiset.mem_sum]
  constructor
  · rintro ⟨i, hi, hx⟩
    rw [Finset.mem_Icc] at hi
    exact ⟨i, hi.1, hi.2, (Multiset.mem_singleton.mp hx).symm⟩
  · rintro ⟨i, h1, hn, hx⟩
    exact ⟨i, Finset.mem_Icc.mpr ⟨h1, hn⟩, Multiset.mem_singleton.mpr hx.symm⟩

theorem contents_congr (h : ∀ j, 1 ≤ j → j ≤ n → g j = f j) : contents n g = contents n f := by
  apply Finset.sum_congr rfl
  intro j hj
  rw [Finset.mem_Icc] at hj
  rw [h j hj.1 hj.2]

theorem Replaced.contents (hg : Replaced f g i x) (h1 : 1 ≤ i) (hn : i ≤ n) :
    contents n g + {f i} = contents n f + {x} := by
  have hmem : i ∈ Finset.Icc 1 n := Finset.mem_Icc.mpr ⟨h1, hn⟩
  have hrest : ∑ j ∈ (Finset.Icc 1 n).erase i, ({g j} : Multiset α) =
      ∑ j ∈ (Finset.Icc 1 n).erase i, ({f j} : Multiset α) := by
    apply Finset.sum_congr rfl
    intro j hj
    rw [Finset.mem_erase, Finset.mem_Icc] at hj
    rw [hg.other j hj.2.1 hj.1]
  unfold Lib.contents
  rw [← Finset.add_sum_erase _ _ hmem, ← Finset.add_sum_erase _ (fun j => ({f j} : Multiset α)) hmem, hrest, hg.same]
  abel

theorem two_le_count [DecidableEq α] {j : Nat} (hij : i ≠ j) (hi1 : 1 ≤ i) (hin : i ≤ n) (hj1 : 1 ≤ j) (hjn : j ≤ n)
    (hi : f i = x) (hj : f j = x) : 2 ≤ (contents n f).count x := by
  have hsub : ({i, j} : Finset Nat) ⊆ Finset.Icc 1 n := by
    intro k hk
    rw [Finset.mem_insert, Finset.mem_singleton] at hk
    rw [Finset.mem_Icc]
    rcases hk with rfl | rfl
    · exact ⟨hi1, hin⟩
    · exact ⟨hj1, hjn⟩
  unfold contents
  rw [Multiset.count_sum']
  calc 2 = ∑ k ∈ ({i, j} : Finset Nat), Multiset.count x {f k} := by
        rw [Finset.sum_pair hij, hi, hj, Multiset.count_singleton_self]
    _ ≤ _ := Finset.sum_le_sum_of_subset hsub

end Contents

/-! ## An element on the move -/

section Sifting

variable {f g : Nat → α} {n hole p : Nat} {e : α} {q : Multiset α} {index index' : α → Option Nat} {reported : Prop}

/-- With `e` in the hole the elements are `q`; if positions are `reported`, those of the others are right. -/
structure Sifting (reported : Prop) (n : Nat) (f : Nat → α) (index : α → Option Nat) (hole : Nat) (e : α)
    (q : Multiset α) : Prop where
  one_le : 1 ≤ hole
  le : hole ≤ n
  holds : contents n f + {e} = q + {f hole}
  indexed : reported → ∀ i, 1 ≤ i → i ≤ n → i ≠ hole → index (f i) = some i
  other : reported → ∀ i, 1 ≤ i → i ≤ n → i ≠ hole → f i ≠ e

theorem Sifting.move (s : Sifting reported n f index hole e q) (hp1 : 1 ≤ p) (hpn : p ≤ n) (hne : p ≠ hole)
    (hg : Replaced f g hole (f p)) (hsame : reported → index' (f p) = some hole)
    (hother : reported → ∀ x, x ≠ f p → index' x = index x) : Sifting reported n g index' p e q := by
  refine ⟨hp1, hpn, ?_, fun hr i h1 hi hip => ?_, fun hr i h1 hi hip => ?_⟩
  · have hreplaced := hg.contents s.one_le s.le
    rw [hg.other p hp1 hne]
    apply add_right_cancel (b := {f hole})
    calc contents n g + {e} + {f hole} = contents n g + {f hole} + {e} := by abel
      _ = contents n f + {e} + {f p} := by
        rw [hreplaced]
        abel
      _ = q + {f p} + {f hole} := by
        rw [s.holds]
        abel
  · by_cases hih : i = hole
    · rw [hih, hg.same]
      exact hsame hr
    · rw [hg.other i h1 hih]
      have hi' := s.indexed hr i h1 hi hih
      have hp' := s.indexed hr p hp1 hpn hne
      rw [hother hr _ (fun heq => ?_), hi']
      rw [heq, hp'] at hi'
      exact hip (Option.some.inj hi').symm
  · by_cases hih : i = hole
    · rw [hih, hg.same]
      exact s.other hr p hp1 hpn hne
    · rw [hg.other i h1 hih]
      exact s.other hr i h1 hi hih

theorem Sifting.contents_eq (s : Sifting reported n f index hole e q) (hg : Replaced f g hole e) :
    contents n g = q := by
  apply add_right_cancel (b := {f hole})
  rw [hg.contents s.one_le s.le, s.holds]

theorem Sifting.indexed_all (s : Sifting reported n f index hole e q) (hg : Replaced f g hole e) (hr : reported)
    (hsame : index' e = some hole) (hother : ∀ x, x ≠ e → index' x = index x) {i : Nat} (h1 : 1 ≤ i) (hi : i ≤ n) :
    index' (g i) = some i := by
  by_cases hih : i = hole
  · rw [hih, hg.same]
    exact hsame
  · rw [hg.other i h1 hih, hother _ (s.other hr i h1 hi hih)]
    exact s.indexed hr i h1 hi hih

end Sifting

end Path64.Lib

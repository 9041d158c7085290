import Mathlib.Data.Set.Insert
import Mathlib.Logic.Relation

/-!
# Marking what can be reached

A search that marks vertices and goes on from a vertex only when it has marked it.

* `Marks R T M M'` : the marks `M` have grown to `M'` by searches that begin at the vertices of `T`;
* `Marks.refl`, `Marks.trans` : no search, and one after another;
* `Marks.visited`, `Marks.visit` : a search that begins at a marked vertex, and at one that was not marked;
* `Marks.mem_iff` : from no marks, exactly the vertices that can be reached.
-/

namespace Path64.Lib

variable {V : Type*} {R : V → V → Prop} {T T' M M' M'' : Set V} {x y : V}

/-- The marks `M` have grown to `M'` by searches that begin at the vertices of `T`. -/
structure Marks (R : V → V → Prop) (T M M' : Set V) : Prop where
  mono : M ⊆ M'
  only : ∀ y ∈ M', y ∈ M ∨ ∃ r ∈ T, Relation.ReflTransGen R r y
  roots : T ⊆ M'
  closed : ∀ x ∈ M', x ∉ M → ∀ y, R x y → y ∈ M'

namespace Marks

theorem refl (R : V → V → Prop) (M : Set V) : Marks R ∅ M M where
  mono := subset_rfl
  only _ hy := .inl hy
  roots := Set.empty_subset M
  closed _ hx hnot := absurd hx hnot

theorem trans (h : Marks R T M M') (h' : Marks R T' M' M'') : Marks R (T ∪ T') M M'' where
  mono := h.mono.trans h'.mono
  only y hy := by
    rcases h'.only y hy with hy | ⟨r, hr, hreach⟩
    · rcases h.only y hy with hy | ⟨r, hr, hreach⟩
      · exact .inl hy
      · exact .inr ⟨r, .inl hr, hreach⟩
    · exact .inr ⟨r, .inr hr, hreach⟩
  roots := Set.union_subset (h.roots.trans h'.mono) h'.roots
  closed x hx hnot y hy := by
    by_cases hx' : x ∈ M'
    · exact h'.mono (h.closed x hx' hnot y hy)
    · exact h'.closed x hx hx' y hy

/-- A search that begins at a marked vertex does nothing. -/
theorem visited (hx : x ∈ M) : Marks R {x} M M where
  mono := subset_rfl
  only _ hy := .inl hy
  roots := Set.singleton_subset_iff.mpr hx
  closed _ hx hnot := absurd hx hnot

/-- A search marks where it begins and goes on from all that follows. -/
theorem visit (h : Marks R {y | R x y} (insert x M) M') : Marks R {x} M M' where
  mono := (Set.subset_insert x M).trans h.mono
  only y hy := by
    rcases h.only y hy with (rfl | hy) | ⟨r, hr, hreach⟩
    · exact .inr ⟨y, rfl, .refl⟩
    · exact .inl hy
    · exact .inr ⟨x, rfl, .head hr hreach⟩
  roots := Set.singleton_subset_iff.mpr (h.mono (Set.mem_insert x M))
  closed z hz hnot y hy := by
    by_cases hzx : z = x
    · subst hzx
      exact h.roots hy
    · refine h.closed z hz (fun hmem => ?_) y hy
      exact hmem.elim hzx hnot

/-- From no marks, exactly what can be reached is marked. -/
theorem mem_iff (h : Marks R T ∅ M) : y ∈ M ↔ ∃ r ∈ T, Relation.ReflTransGen R r y := by
  constructor
  · exact fun hy => (h.only y hy).resolve_left id
  · rintro ⟨r, hr, hreach⟩
    induction hreach with
    | refl => exact h.roots hr
    | tail _ hR ih => exact h.closed _ ih id _ hR

end Marks

end Path64.Lib

import Path64.Soe.Lists

/-!
# Integer solutions of a system

* `Row.lhs` : the left-hand side of a row at an assignment;
* `Lists.Solution`, `SystemOfEquations.Solution` : the assignment satisfies every row in use;
* `lhs_pair` : the rows that compare two variables.
-/

namespace Path64.Soe

open Finset

/-- The value of a row's left-hand side. -/
def Row.lhs (r : Row) (x : Nat → Int) : Int := ∑ j ∈ range r.coeffs.length, r.coeffs.getD j 0 * x j

structure Lists.Solution (l : Lists) (x : Nat → Int) : Prop where
  le : ∀ r ∈ l.le, r.lhs x ≤ r.rhs
  eq : ∀ r ∈ l.eq, r.lhs x = r.rhs

/-- `x` satisfies `Ale x <= ble` and `Aeq x = beq`. -/
def SystemOfEquations.Solution (s : SystemOfEquations) (x : Nat → Int) : Prop := s.lists.Solution x

theorem lhs_ofFn (n : Nat) (f : Nat → Int) (b : Int) (x : Nat → Int) :
    (⟨(List.range n).map f, b⟩ : Row).lhs x = ∑ j ∈ range n, f j * x j := by
  unfold Row.lhs
  simp only [List.length_map, List.length_range]
  refine sum_congr rfl fun j hj => ?_
  have hj := mem_range.mp hj
  rw [List.getD_eq_getElem?_getD, List.getElem?_map, List.getElem?_range hj]
  rfl

/-- A row with coefficient `p` at `a` and `q` at `b`, as `Add_Direction` builds it. -/
theorem lhs_pair {n a b : Nat} (ha : a < n) (hb : b < n) (hab : a ≠ b) (p q c : Int) (x : Nat → Int) :
    (⟨(List.range n).map (Function.update (Function.update (fun _ => 0) a p) b q), c⟩ : Row).lhs x =
      p * x a + q * x b := by
  rw [lhs_ofFn]
  have hsplit : ∀ j, Function.update (Function.update (fun _ => (0 : Int)) a p) b q j * x j =
      (if j = a then p * x a else 0) + (if j = b then q * x b else 0) := by
    intro j
    by_cases hjb : j = b
    · subst hjb
      simp [hab.symm]
    · by_cases hja : j = a
      · subst hja
        simp [hab]
      · simp [hja, hjb]
  simp only [hsplit]
  rw [sum_add_distrib, sum_ite_eq' , sum_ite_eq', if_pos (mem_range.mpr ha), if_pos (mem_range.mpr hb)]

theorem solution_addLe {l : Lists} {x : Nat → Int} {r : Row} (h : l.Solution x) (hr : r.lhs x ≤ r.rhs) :
    ({ l with le := l.le ++ [r] } : Lists).Solution x := by
  refine ⟨fun r' hr' => ?_, h.eq⟩
  rcases List.mem_append.mp hr' with hr' | hr'
  · exact h.le r' hr'
  · rw [List.mem_singleton.mp hr']
    exact hr

theorem solution_addEq {l : Lists} {x : Nat → Int} {r : Row} (h : l.Solution x) (hr : r.lhs x = r.rhs) :
    ({ l with eq := l.eq ++ [r] } : Lists).Solution x := by
  refine ⟨h.le, fun r' hr' => ?_⟩
  rcases List.mem_append.mp hr' with hr' | hr'
  · exact h.eq r' hr'
  · rw [List.mem_singleton.mp hr']
    exact hr

end Path64.Soe

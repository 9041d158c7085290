import Mathlib.Order.Basic
import Mathlib.Tactic.ByContra

/-!
# Facts and what supports them

A fact holds because it is a source of truth, or because a fact it can rest on holds.

* `Avoids Via Source b a` : `a` can be supported without `b`; `Needs` : it cannot;
* `Supported` : every fact that holds has a reason;
* `Needs.holds` : when a fact holds, so does every fact that it needs.
-/

namespace Path64.Lib

variable {V : Type*} (Via : V → V → Prop) (Source : V → Prop)

/-- A chain of reasons leads from `a` to a source without meeting `b`. -/
inductive Avoids (b : V) : V → Prop
  | source {a : V} : a ≠ b → Source a → Avoids b a
  | via {a c : V} : a ≠ b → Via a c → Avoids b c → Avoids b a

/-- Every chain of reasons from `a` to a source meets `b`. -/
def Needs (a b : V) : Prop := ¬Avoids Via Source b a

/-- Every fact that holds is a source or rests on one that holds. -/
def Supported (T : V → Prop) : Prop := ∀ a, T a → Source a ∨ ∃ c, Via a c ∧ T c

variable {Via Source}

theorem Supported.avoids {T : V → Prop} (hT : Supported Via Source T) {r : V → Nat}
    (hrank : ∀ a c, Via a c → r c < r a) {b : V} (hb : ¬T b) :
    ∀ (n : Nat) (a : V), r a < n → T a → Avoids Via Source b a := by
  intro n
  induction n with
  | zero => exact fun a ha => absurd ha (Nat.not_lt_zero _)
  | succ n ih =>
    intro a ha hTa
    have hne : a ≠ b := by
      rintro rfl
      exact hb hTa
    rcases hT a hTa with hsource | ⟨c, hvia, hTc⟩
    · exact .source hne hsource
    · exact .via hne hvia (ih c (Nat.lt_of_lt_of_le (hrank a c hvia) (Nat.le_of_lt_succ ha)) hTc)

/-- When a fact holds, so does every fact that it needs. -/
theorem Needs.holds {a b : V} (h : Needs Via Source a b) {T : V → Prop} (hT : Supported Via Source T)
    {r : V → Nat} (hrank : ∀ a c, Via a c → r c < r a) (ha : T a) : T b := by
  by_contra hb
  exact h (hT.avoids hrank hb (r a + 1) a (Nat.lt_succ_self _) ha)

end Path64.Lib

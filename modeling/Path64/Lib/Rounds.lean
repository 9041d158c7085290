import Mathlib.Data.List.Basic

/-!
# Rounds of updates until nothing changes

A round goes over a list and updates a state in place; rounds are repeated until one of them changes nothing.

* `updateRound`, `updateRounds` : one round, and the repetition of rounds;
* `updateRound_spec` : what one round keeps, and that it does nothing or gets closer to the end;
* `exists_updateRounds` : with an invariant and a measure the rounds end, in a state that no member of the list changes.
-/

namespace Path64.Lib

variable {S I : Type*} (f : S → I → Option S)

/-- One update, with whether there has been one. -/
def roundStep (s : S × Bool) (i : I) : S × Bool :=
  match f s.1 i with
  | some s' => (s', true)
  | none => s

/-- One update for each member of the list, in place. -/
def updateRound (l : List I) (s : S × Bool) : S × Bool := l.foldl (roundStep f) s

/-- Rounds until one changes nothing. -/
def updateRounds (l : List I) : (fuel : Nat) → S → Option S
  | 0, _ => none
  | fuel + 1, s => if (updateRound f l (s, false)).2 then updateRounds l fuel (updateRound f l (s, false)).1 else some s

variable {f} {P : S → Prop} {m : S → Nat} {l : List I}

/-- A round keeps an invariant of the updates, and changes nothing or lowers their measure. -/
theorem updateRound_spec (hstep : ∀ s, P s → ∀ i ∈ l, ∀ s', f s i = some s' → P s' ∧ m s' < m s) (s : S) (c : Bool)
    (hs : P s) : P (updateRound f l (s, c)).1 ∧ m (updateRound f l (s, c)).1 ≤ m s ∧
      (m (updateRound f l (s, c)).1 < m s ∧ (updateRound f l (s, c)).2 = true ∨
        updateRound f l (s, c) = (s, c) ∧ ∀ i ∈ l, f s i = none) := by
  induction l generalizing s c with
  | nil => exact ⟨hs, Nat.le_refl _, .inr ⟨rfl, fun i hi => absurd hi List.not_mem_nil⟩⟩
  | cons i l ih =>
    have ih := ih fun s hs i hi => hstep s hs i (List.mem_cons_of_mem _ hi)
    have hcons : updateRound f (i :: l) (s, c) = updateRound f l (roundStep f (s, c) i) := rfl
    rw [hcons]
    rcases hi : f s i with _ | s'
    · have heq : roundStep f (s, c) i = (s, c) := by simp only [roundStep, hi]
      rw [heq]
      obtain ⟨hP, hle, hless | ⟨hstop, hnone⟩⟩ := ih s c hs
      · exact ⟨hP, hle, .inl hless⟩
      · refine ⟨hP, hle, .inr ⟨hstop, fun j hj => ?_⟩⟩
        rcases List.mem_cons.mp hj with rfl | hj
        · exact hi
        · exact hnone j hj
    · have heq : roundStep f (s, c) i = (s', true) := by simp only [roundStep, hi]
      obtain ⟨hs', hlt⟩ := hstep s hs i List.mem_cons_self s' hi
      rw [heq]
      obtain ⟨hP, hle, hless | ⟨hstop, -⟩⟩ := ih s' true hs'
      · exact ⟨hP, by omega, .inl ⟨by omega, hless.2⟩⟩
      · exact ⟨hP, by omega, .inl ⟨by rw [hstop]; exact hlt, by rw [hstop]⟩⟩

/-- The rounds end with the invariant, in a state that no member of the list changes. -/
theorem exists_updateRounds (hstep : ∀ s, P s → ∀ i ∈ l, ∀ s', f s i = some s' → P s' ∧ m s' < m s) {s : S} (hs : P s) :
    ∃ n s', (∀ fuel ≥ n, updateRounds f l fuel s = some s') ∧ P s' ∧ ∀ i ∈ l, f s' i = none := by
  generalize hk : m s = k
  induction k using Nat.strongRecOn generalizing s with
  | ind k ih =>
    obtain ⟨hP, -, ⟨hless, hchanged⟩ | ⟨hstop, hnone⟩⟩ := updateRound_spec hstep s false hs
    · obtain ⟨n, s', hrun, hs', hnone⟩ := ih _ (hk ▸ hless) hP rfl
      refine ⟨n + 1, s', fun fuel hfuel => ?_, hs', hnone⟩
      obtain ⟨fuel, rfl⟩ := Nat.exists_eq_add_of_le' (Nat.le_trans (Nat.le_add_left 1 n) hfuel)
      rw [updateRounds, if_pos hchanged]
      exact hrun fuel (by omega)
    · refine ⟨1, s, fun fuel hfuel => ?_, hs, hnone⟩
      obtain ⟨fuel, rfl⟩ := Nat.exists_eq_add_of_le' hfuel
      rw [updateRounds, hstop]
      exact if_neg Bool.false_ne_true

end Path64.Lib

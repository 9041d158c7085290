import Mathlib.Data.List.Basic
import Mathlib.Data.List.Chain
import Mathlib.Data.List.Nodup
import Mathlib.Data.List.Perm.Subperm

/-!
# Linked lists in an array

* `Links next s l` : following `next` from `s` visits the slots of `l` and ends at `-1`;
* `Links.unique`, `Links.nodup` : such a list is determined by its start and visits no slot twice; `length_le_of_lt` : so it
  is no longer than the array;
* `Links.suffix`, `Links.splice` : the rest of a list, and a list whose tail was replaced;
* `BackLinks prev l` : every slot of the list but the first holds the one before it.
-/

namespace Path64.Lists

/-- Following `next` from `s` visits the slots of the list and ends at `-1`. -/
def Links (next : Nat → Int) : Int → List Nat → Prop
  | s, [] => s = -1
  | s, i :: l => s = i ∧ Links next (next i) l

theorem length_le_of_lt {l : List Nat} {n : Nat} (h : l.Nodup) (hlt : ∀ i ∈ l, i < n) : l.length ≤ n := by
  have hle := (List.subperm_of_subset h fun i hi => List.mem_range.mpr (hlt i hi)).length_le
  rwa [List.length_range] at hle

/-- The members of a list without repetitions but one. -/
theorem mem_erase_iff {a b : List Nat} {y : Nat} (h : (a ++ y :: b).Nodup) :
    ∀ j, j ∈ a ++ b ↔ j ∈ a ++ y :: b ∧ j ≠ y := by
  obtain ⟨-, hyb, hdisj⟩ := List.nodup_append.mp h
  have hyb := (List.nodup_cons.mp hyb).1
  intro j
  simp only [List.mem_append, List.mem_cons]
  constructor
  · rintro (hj | hj)
    · exact ⟨Or.inl hj, hdisj j hj y (List.mem_cons_self ..)⟩
    · exact ⟨Or.inr (Or.inr hj), fun heq => hyb (heq ▸ hj)⟩
  · rintro ⟨hj | hj | hj, hne⟩
    · exact Or.inl hj
    · exact absurd hj hne
    · exact Or.inr hj

namespace Links

variable {next next' : Nat → Int} {s : Int} {l : List Nat}

theorem congr (h : Links next s l) (heq : ∀ i ∈ l, next' i = next i) : Links next' s l := by
  induction l generalizing s with
  | nil => exact h
  | cons i l ih =>
    refine ⟨h.1, ?_⟩
    rw [heq i (List.mem_cons_self ..)]
    exact ih h.2 fun j hj => heq j (List.mem_cons_of_mem _ hj)

/-- The list is determined by its start. -/
theorem unique {l' : List Nat} (h : Links next s l) (h' : Links next s l') : l = l' := by
  induction l generalizing s l' with
  | nil =>
    cases l' with
    | nil => rfl
    | cons j l' =>
      have hs : s = -1 := h
      have hj : s = j := h'.1
      omega
  | cons i l ih =>
    cases l' with
    | nil =>
      have hs : s = -1 := h'
      have hi : s = i := h.1
      omega
    | cons j l' =>
      have hij : i = j := by
        have := h.1.symm.trans h'.1
        omega
      subst hij
      rw [ih h.2 h'.2]

theorem suffix {a : List Nat} {i : Nat} (h : Links next s (a ++ i :: l)) : Links next i (i :: l) := by
  induction a generalizing s with
  | nil => exact ⟨rfl, h.2⟩
  | cons j a ih => exact ih h.2

/-- No slot is visited twice. -/
theorem nodup (h : Links next s l) : l.Nodup := by
  induction l generalizing s with
  | nil => exact List.nodup_nil
  | cons i l ih =>
    refine List.nodup_cons.mpr ⟨?_, ih h.2⟩
    intro hi
    -- a second visit of `i` would start the whole list again
    obtain ⟨a, b, rfl⟩ := List.append_of_mem hi
    have hagain : Links next i (i :: b) := suffix h.2
    have hself : Links next i (i :: (a ++ i :: b)) := ⟨rfl, h.2⟩
    have hlen := congrArg List.length (unique hself hagain)
    simp only [List.length_cons, List.length_append] at hlen
    omega

/-- Replaces what follows the slot `p`. -/
theorem splice {a l' : List Nat} {p : Nat} (h : Links next s (a ++ p :: l))
    (ha : ∀ i ∈ a, next' i = next i) (hp : Links next' (next' p) l') : Links next' s (a ++ p :: l') := by
  induction a generalizing s with
  | nil => exact ⟨h.1, hp⟩
  | cons j a ih =>
    refine ⟨h.1, ?_⟩
    rw [ha j (List.mem_cons_self ..)]
    exact ih h.2 fun i hi => ha i (List.mem_cons_of_mem _ hi)

theorem eq_cons {i : Nat} (h : Links next i l) : ∃ l', l = i :: l' := by
  cases l with
  | nil =>
    have : (i : Int) = -1 := h
    omega
  | cons j l =>
    have hij : i = j := by
      have := h.1
      omega
    exact ⟨l, by rw [hij]⟩

theorem start_eq_neg_one_iff (h : Links next s l) : s = -1 ↔ l = [] := by
  cases l with
  | nil => exact ⟨fun _ => rfl, fun _ => h⟩
  | cons i l =>
    have := h.1
    constructor
    · intro hs
      omega
    · intro hl
      cases hl

theorem next_of_split {a : List Nat} {i : Nat} (h : Links next s (a ++ i :: l)) : Links next (next i) l :=
  (suffix h).2

end Links

/-- Every slot of the list but the first holds the slot before it. -/
def BackLinks (prev : Nat → Int) (l : List Nat) : Prop :=
  List.IsChain (fun i j => prev j = i) l

namespace BackLinks

variable {prev prev' : Nat → Int} {l : List Nat}

theorem congr (h : BackLinks prev l) (heq : ∀ i ∈ l.tail, prev' i = prev i) : BackLinks prev' l := by
  induction l with
  | nil => exact List.IsChain.nil
  | cons i l ih =>
    cases l with
    | nil => exact List.IsChain.singleton _
    | cons j l =>
      rw [BackLinks, List.isChain_cons_cons] at h ⊢
      refine ⟨?_, ih h.2 fun k hk => heq k (List.mem_cons_of_mem _ hk)⟩
      rw [heq j (List.mem_cons_self ..)]
      exact h.1

theorem cons {i j : Nat} (h : BackLinks prev (j :: l)) (hj : prev j = i) : BackLinks prev (i :: j :: l) :=
  List.isChain_cons_cons.mpr ⟨hj, h⟩

theorem tail {i : Nat} (h : BackLinks prev (i :: l)) : BackLinks prev l := List.IsChain.tail h

theorem erase {a b : List Nat} {i : Nat} (h : BackLinks prev (a ++ i :: b))
    (hsame : ∀ k ∈ a ++ b.tail, prev' k = prev k)
    (hhead : ∀ p ∈ a.getLast?, ∀ j ∈ b.head?, prev' j = p) : BackLinks prev' (a ++ b) := by
  have hsplit := List.isChain_append.mp h
  refine List.isChain_append.mpr ⟨?_, ?_, hhead⟩
  · exact congr hsplit.1 fun k hk => hsame k (List.mem_append_left _ (List.mem_of_mem_tail hk))
  · exact congr (tail hsplit.2.1) fun k hk => hsame k (List.mem_append_right _ hk)

theorem prev_of_split {a : List Nat} {p i : Nat} (h : BackLinks prev (a ++ p :: i :: l)) : prev i = p := by
  induction a with
  | nil => exact (List.isChain_cons_cons.mp h).1
  | cons j a ih => exact ih h.tail

end BackLinks

end Path64.Lists

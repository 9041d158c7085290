import Path64.Lib.Threads
import Mathlib.Order.Interval.Finset.Nat

/-!
# Slots with a free list

The slots `1`, …, `last` of an array that grows, some of which are free and linked on a list.

* `isLive`, `liveSlots` : the slots in use;
* `alloc` : the first free slot or a new one; `skipFree` : the loop down to the next slot in use;
* `Pool` : the free list holds the free slots, with `Pool.alloc` and `Pool.release`;
* `skipFree_threads` : the loop visits every slot in use once.
-/

namespace Path64.Lists

/-- A slot in use. -/
def isLive (last : Nat) (isFree : Nat → Bool) (i : Nat) : Bool := decide (i ≤ last) && decide (i > 0) && !isFree i

def liveSlots (last : Nat) (isFree : Nat → Bool) : Finset Nat :=
  {i ∈ Finset.range (last + 1) | isLive last isFree i = true}

/-- A slot, and the last slot and the first free slot after it was taken. -/
def alloc (last free : Nat) (next : Nat → Nat) : Nat × Nat × Nat :=
  if free = 0 then (last + 1, last + 1, free) else (free, last, next free)

/-- `while (i > 0 && free(i)) i--;` -/
def skipFree (isFree : Nat → Bool) : Nat → Nat
  | 0 => 0
  | i + 1 => if isFree (i + 1) then skipFree isFree i else i + 1

/-- The free list holds the free slots. -/
def Pool (last free : Nat) (next : Nat → Nat) (isFree : Nat → Bool) : Prop :=
  ∃ l, Threads next free l ∧ ∀ i, i ∈ l ↔ 0 < i ∧ i ≤ last ∧ isFree i = true

variable {last free i x : Nat} {next next' : Nat → Nat} {isFree isFree' : Nat → Bool}

theorem isLive_iff : isLive last isFree i = true ↔ i ≤ last ∧ 0 < i ∧ isFree i = false := by
  unfold isLive
  rw [Bool.and_eq_true, Bool.and_eq_true, decide_eq_true_iff, decide_eq_true_iff, Bool.not_eq_true', and_assoc]

theorem mem_liveSlots : i ∈ liveSlots last isFree ↔ isLive last isFree i = true := by
  rw [liveSlots, Finset.mem_filter, Finset.mem_range]
  exact and_iff_right_of_imp fun h => Nat.lt_succ_of_le (isLive_iff.mp h).1

theorem card_liveSlots_le : (liveSlots last isFree).card ≤ last := by
  have hsub : liveSlots last isFree ⊆ Finset.Icc 1 last := by
    intro j hj
    have := isLive_iff.mp (mem_liveSlots.mp hj)
    exact Finset.mem_Icc.mpr ⟨this.2.1, this.1⟩
  simpa using Finset.card_le_card hsub

theorem alloc_ne_zero (last free : Nat) (next : Nat → Nat) : (alloc last free next).1 ≠ 0 := by
  unfold alloc
  split_ifs with h
  · exact Nat.succ_ne_zero last
  · exact h

namespace Pool

theorem init (next : Nat → Nat) (isFree : Nat → Bool) : Pool 0 0 next isFree :=
  ⟨[], threads_nil.mpr rfl, fun i => iff_of_false List.not_mem_nil fun h => by omega⟩

theorem congr (h : Pool last free next isFree) (hmark : ∀ i, 0 < i → i ≤ last → isFree' i = isFree i)
    (hnext : ∀ i, 0 < i → i ≤ last → isFree i = true → next' i = next i) : Pool last free next' isFree' := by
  obtain ⟨l, hl, hmem⟩ := h
  refine ⟨l, hl.congr fun i hi => ?_, fun i => ?_⟩
  · obtain ⟨hpos, hle, hfree⟩ := (hmem i).mp hi
    exact hnext i hpos hle hfree
  · rw [hmem i]
    refine and_congr_right fun hpos => and_congr_right fun hle => ?_
    rw [hmark i hpos hle]

theorem card_eq (h : Pool last 0 next isFree) : (liveSlots last isFree).card = last := by
  obtain ⟨l, hl, hmem⟩ := h
  obtain rfl := hl.eq_nil_iff.mpr rfl
  have heq : liveSlots last isFree = Finset.Icc 1 last := by
    ext j
    rw [mem_liveSlots, isLive_iff, Finset.mem_Icc]
    have hj := (hmem j).not.mp List.not_mem_nil
    refine ⟨fun h' => ⟨h'.2.1, h'.1⟩, fun h' => ⟨h'.2, h'.1, ?_⟩⟩
    exact Bool.eq_false_iff.mpr fun hf => hj ⟨h'.1, h'.2, hf⟩
  rw [heq, Nat.card_Icc, Nat.add_sub_cancel]

/-- What taking a slot does, if it is marked and the links of the others stay. -/
theorem alloc {last' free' : Nat} (h : Pool last free next isFree) (ha : Lists.alloc last free next = (i, last', free'))
    (hnext : ∀ x, x ≠ i → next' x = next x) (hmark : isFree' i = false) (hsame : ∀ x, x ≠ i → isFree' x = isFree x) :
    Pool last' free' next' isFree' ∧ i ≠ 0 ∧ isLive last isFree i = false ∧
      (∀ x, isLive last' isFree' x = true ↔ isLive last isFree x = true ∨ x = i) ∧
      (last' = last ∨ last' = (liveSlots last isFree).card + 1) := by
  unfold Lists.alloc at ha
  by_cases h0 : free = 0
  · subst h0
    rw [if_pos rfl, Prod.mk.injEq, Prod.mk.injEq] at ha
    obtain ⟨rfl, rfl, rfl⟩ := ha
    have hcard := h.card_eq
    obtain ⟨l, hl, hmem⟩ := h
    obtain rfl := hl.eq_nil_iff.mpr rfl
    refine ⟨⟨[], threads_nil.mpr rfl, fun x => ?_⟩, by omega, ?_, fun x => ?_, .inr (by rw [hcard])⟩
    · refine iff_of_false List.not_mem_nil fun hx => ?_
      by_cases hxi : x = last + 1
      · rw [hxi, hmark] at hx
        exact absurd hx.2.2 Bool.false_ne_true
      · rw [hsame x hxi] at hx
        exact List.not_mem_nil ((hmem x).mpr ⟨hx.1, by omega, hx.2.2⟩)
    · refine Bool.eq_false_iff.mpr fun hlive => ?_
      have := (isLive_iff.mp hlive).1
      omega
    · rw [isLive_iff, isLive_iff]
      by_cases hxi : x = last + 1
      · rw [hxi]
        exact iff_of_true ⟨le_refl _, by omega, hmark⟩ (.inr rfl)
      · rw [hsame x hxi, or_iff_left hxi]
        constructor
        · exact fun h => ⟨by omega, h.2⟩
        · exact fun h => ⟨by omega, h.2⟩
  · rw [if_neg h0, Prod.mk.injEq, Prod.mk.injEq] at ha
    obtain ⟨rfl, rfl, rfl⟩ := ha
    obtain ⟨l, hl, hmem⟩ := h
    cases l with
    | nil => exact absurd (threads_nil.mp hl) h0
    | cons j l =>
      obtain ⟨rfl, -, hl'⟩ := threads_cons.mp hl
      obtain ⟨hnot, -⟩ := List.nodup_cons.mp hl.nodup
      have hi := (hmem free).mp List.mem_cons_self
      refine ⟨⟨l, hl'.congr fun x hx => hnext x (ne_of_mem_of_not_mem hx hnot), fun x => ?_⟩, h0, ?_, fun x => ?_,
        .inl rfl⟩
      · have hx := hmem x
        rw [List.mem_cons] at hx
        by_cases hxi : x = free
        · rw [hxi, hmark]
          exact iff_of_false hnot fun h' => absurd h'.2.2 Bool.false_ne_true
        · rw [hsame x hxi, ← hx, or_iff_right hxi]
      · refine Bool.eq_false_iff.mpr fun hlive => ?_
        rw [(isLive_iff.mp hlive).2.2] at hi
        exact absurd hi.2.2 Bool.false_ne_true
      · rw [isLive_iff, isLive_iff]
        by_cases hxi : x = free
        · rw [hxi]
          exact iff_of_true ⟨hi.2.1, hi.1, hmark⟩ (.inr rfl)
        · rw [hsame x hxi, or_iff_left hxi]

/-- A slot in use becomes the first free one. -/
theorem release (h : Pool last free next isFree) (hi : isLive last isFree i = true) (hmark : isFree' i = true)
    (hsame : ∀ x, x ≠ i → isFree' x = isFree x) : Pool last i (Function.update next i free) isFree' ∧
      ∀ x, isLive last isFree' x = true ↔ isLive last isFree x = true ∧ x ≠ i := by
  obtain ⟨hle, hpos, hused⟩ := isLive_iff.mp hi
  obtain ⟨l, hl, hmem⟩ := h
  have hnot : i ∉ l := fun h' => by
    rw [(hmem i).mp h' |>.2.2] at hused
    exact absurd hused.symm Bool.false_ne_true
  refine ⟨⟨i :: l, hl.push (by omega) hnot, fun x => ?_⟩, fun x => ?_⟩
  · rw [List.mem_cons]
    by_cases hxi : x = i
    · rw [hxi]
      exact iff_of_true (.inl rfl) ⟨hpos, hle, hmark⟩
    · rw [or_iff_right hxi, hsame x hxi]
      exact hmem x
  · rw [isLive_iff, isLive_iff]
    by_cases hxi : x = i
    · rw [hxi, hmark]
      exact iff_of_false (fun h' => absurd h'.2.2 (by decide)) fun h' => h'.2 rfl
    · rw [hsame x hxi, and_iff_left hxi]

end Pool

/-- From the last slot down, every slot in use is visited once. -/
theorem skipFree_threads (isFree : Nat → Bool) (last : Nat) :
    ∃ l, Threads (fun i => skipFree isFree (i - 1)) (skipFree isFree last) l ∧ ∀ i, i ∈ l ↔ isLive last isFree i = true := by
  induction last with
  | zero =>
    refine ⟨[], threads_nil.mpr rfl, fun i => iff_of_false List.not_mem_nil fun h => ?_⟩
    have := isLive_iff.mp h
    omega
  | succ n ih =>
    obtain ⟨l, hl, hmem⟩ := ih
    rw [skipFree]
    by_cases hf : isFree (n + 1) = true
    · rw [if_pos hf]
      refine ⟨l, hl, fun i => ?_⟩
      rw [hmem i, isLive_iff, isLive_iff]
      by_cases hi : i = n + 1
      · rw [hi, hf]
        exact iff_of_false (fun h => by omega) fun h => absurd h.2.2.symm Bool.false_ne_true
      · constructor
        · exact fun h => ⟨by omega, h.2⟩
        · exact fun h => ⟨by omega, h.2⟩
    · rw [if_neg hf]
      refine ⟨(n + 1) :: l, threads_cons.mpr ⟨rfl, by omega, hl⟩, fun i => ?_⟩
      rw [List.mem_cons, hmem i, isLive_iff, isLive_iff]
      by_cases hi : i = n + 1
      · rw [hi]
        exact iff_of_true (.inl rfl) ⟨le_refl _, by omega, Bool.eq_false_iff.mpr hf⟩
      · rw [or_iff_right hi]
        constructor
        · exact fun h => ⟨by omega, h.2⟩
        · exact fun h => ⟨by omega, h.2⟩

end Path64.Lists

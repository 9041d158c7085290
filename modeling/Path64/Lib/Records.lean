import Mathlib.Data.List.Basic
import Mathlib.Data.List.Nodup

/-!
# Records laid out one after another

* `recordsAt encode k as` : each value of `as` with the offset its code starts at, when the first starts at `k`;
* `drop_record` : reading from a record's offset finds its code;
* `recordsAt_lower`, `recordsAt_upper` : the codes lie inside the layout;
* `record_at_unique`, `record_of_unique` : one value at an offset, one offset for a value;
* `addNew` : add a value unless it is there; `recordsAt_addNew` : the old records stay.
-/

namespace Path64.Records

variable {α β : Type}

/-- The values with the offsets of their codes, the first code starting at `k`. -/
def recordsAt (encode : α → List β) : Nat → List α → List (Nat × α)
  | _, [] => []
  | k, a :: as => (k, a) :: recordsAt encode (k + (encode a).length) as

variable {encode : α → List β}

theorem recordsAt_append (k : Nat) (as bs : List α) : recordsAt encode k (as ++ bs) =
    recordsAt encode k as ++ recordsAt encode (k + (as.flatMap encode).length) bs := by
  induction as generalizing k with
  | nil => simp [recordsAt]
  | cons a as ih =>
    rw [List.cons_append, recordsAt, recordsAt, ih, List.cons_append, List.flatMap_cons, List.length_append,
      Nat.add_assoc]

theorem map_snd_recordsAt (encode : α → List β) (k : Nat) (as : List α) : (recordsAt encode k as).map Prod.snd = as := by
  induction as generalizing k with
  | nil => rfl
  | cons a as ih => rw [recordsAt, List.map_cons, ih]

theorem mem_of_record {k i : Nat} {a : α} {as : List α} (h : (i, a) ∈ recordsAt encode k as) : a ∈ as := by
  rw [← map_snd_recordsAt encode k as]
  exact List.mem_map.2 ⟨(i, a), h, rfl⟩

theorem exists_record (encode : α → List β) (k : Nat) {a : α} {as : List α} (h : a ∈ as) :
    ∃ i, (i, a) ∈ recordsAt encode k as := by
  rw [← map_snd_recordsAt encode k as] at h
  obtain ⟨⟨i, b⟩, hm, rfl⟩ := List.mem_map.1 h
  exact ⟨i, hm⟩

theorem recordsAt_lower {k i : Nat} {a : α} {as : List α} (h : (i, a) ∈ recordsAt encode k as) : k ≤ i := by
  induction as generalizing k with
  | nil => exact absurd h List.not_mem_nil
  | cons b as ih =>
    rcases List.mem_cons.1 h with h | h
    · exact Nat.le_of_eq (congrArg Prod.fst h).symm
    · exact Nat.le_trans (Nat.le_add_right _ _) (ih h)

theorem recordsAt_upper {k i : Nat} {a : α} {as : List α} (h : (i, a) ∈ recordsAt encode k as) :
    i + (encode a).length ≤ k + (as.flatMap encode).length := by
  induction as generalizing k with
  | nil => exact absurd h List.not_mem_nil
  | cons b as ih =>
    rw [List.flatMap_cons, List.length_append]
    rcases List.mem_cons.1 h with h | h
    · obtain ⟨rfl, rfl⟩ := Prod.mk.inj h
      omega
    · have := ih h
      omega

/-- Reading from a record's offset finds its code. -/
theorem drop_record {i : Nat} {a : α} {as : List α} (pre tail : List β)
    (h : (i, a) ∈ recordsAt encode pre.length as) :
    ∃ rest, (pre ++ as.flatMap encode ++ tail).drop i = encode a ++ rest := by
  induction as generalizing pre with
  | nil => exact absurd h List.not_mem_nil
  | cons b as ih =>
    rcases List.mem_cons.1 h with h | h
    · obtain ⟨rfl, rfl⟩ := Prod.mk.inj h
      refine ⟨as.flatMap encode ++ tail, ?_⟩
      rw [List.append_assoc, List.drop_left, List.flatMap_cons, List.append_assoc]
    · rw [← List.length_append] at h
      obtain ⟨rest, hrest⟩ := ih (pre ++ encode b) h
      refine ⟨rest, ?_⟩
      rw [List.flatMap_cons, ← List.append_assoc, hrest]

/-- Two records never start at one offset. -/
theorem record_at_unique (hne : ∀ a, 0 < (encode a).length) {k i : Nat} {a b : α} {as : List α}
    (ha : (i, a) ∈ recordsAt encode k as) (hb : (i, b) ∈ recordsAt encode k as) : a = b := by
  induction as generalizing k with
  | nil => exact absurd ha List.not_mem_nil
  | cons c as ih =>
    have hc := hne c
    rcases List.mem_cons.1 ha with ha | ha <;> rcases List.mem_cons.1 hb with hb | hb
    · rw [(Prod.mk.inj ha).2, (Prod.mk.inj hb).2]
    · have := recordsAt_lower hb
      have := (Prod.mk.inj ha).1
      omega
    · have := recordsAt_lower ha
      have := (Prod.mk.inj hb).1
      omega
    · exact ih ha hb

/-- A value of a list without repetition has one record. -/
theorem record_of_unique {k i j : Nat} {a : α} {as : List α} (hn : as.Nodup)
    (hi : (i, a) ∈ recordsAt encode k as) (hj : (j, a) ∈ recordsAt encode k as) : i = j := by
  induction as generalizing k with
  | nil => exact absurd hi List.not_mem_nil
  | cons c as ih =>
    obtain ⟨hc, hn⟩ := List.nodup_cons.1 hn
    rcases List.mem_cons.1 hi with hi | hi <;> rcases List.mem_cons.1 hj with hj | hj
    · rw [(Prod.mk.inj hi).1, (Prod.mk.inj hj).1]
    · exact absurd ((Prod.mk.inj hi).2 ▸ mem_of_record hj) hc
    · exact absurd ((Prod.mk.inj hj).2 ▸ mem_of_record hi) hc
    · exact ih hn hi hj

/-! ## Adding values once -/

variable [DecidableEq α]

/-- Add `a` at the end unless it is there. -/
def addNew (as : List α) (a : α) : List α := if a ∈ as then as else as ++ [a]

theorem mem_addNew {as : List α} {a b : α} : b ∈ addNew as a ↔ b ∈ as ∨ b = a := by
  rw [addNew]
  split_ifs with h
  · exact ⟨Or.inl, fun hb => hb.elim id fun he => he ▸ h⟩
  · rw [List.mem_append, List.mem_singleton]

theorem nodup_addNew {as : List α} (h : as.Nodup) (a : α) : (addNew as a).Nodup := by
  rw [addNew]
  split_ifs with hm
  · exact h
  · exact List.nodup_append'.2 ⟨h, List.nodup_singleton a, by simpa using hm⟩

/-- The old records stay where they are. -/
theorem recordsAt_addNew {k : Nat} {e : Nat × α} {as : List α} (a : α) (h : e ∈ recordsAt encode k as) :
    e ∈ recordsAt encode k (addNew as a) := by
  rw [addNew]
  split_ifs
  · exact h
  · rw [recordsAt_append]
    exact List.mem_append_left _ h

theorem recordsAt_foldl_addNew {k : Nat} {e : Nat × α} {as : List α} (bs : List α)
    (h : e ∈ recordsAt encode k as) : e ∈ recordsAt encode k (bs.foldl addNew as) := by
  induction bs generalizing as with
  | nil => exact h
  | cons b bs ih => exact ih (recordsAt_addNew b h)

theorem length_addNew (as : List α) (a : α) :
    (as.flatMap encode).length ≤ ((addNew as a).flatMap encode).length := by
  rw [addNew]
  split_ifs
  · exact Nat.le_refl _
  · rw [List.flatMap_append, List.length_append]
    exact Nat.le_add_right _ _

theorem length_foldl_addNew (encode : α → List β) (as bs : List α) :
    (as.flatMap encode).length ≤ ((bs.foldl addNew as).flatMap encode).length := by
  induction bs generalizing as with
  | nil => exact Nat.le_refl _
  | cons b bs ih => exact Nat.le_trans (length_addNew as b) (ih (addNew as b))

theorem mem_foldl_addNew {as bs : List α} {b : α} : b ∈ bs.foldl addNew as ↔ b ∈ as ∨ b ∈ bs := by
  induction bs generalizing as with
  | nil => simp
  | cons c bs ih =>
    rw [List.foldl_cons, ih, mem_addNew, List.mem_cons]
    tauto

end Path64.Records

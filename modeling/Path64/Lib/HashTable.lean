import Mathlib.Data.List.Basic
import Mathlib.Logic.Function.Basic

/-!
# Hash tables with chained buckets

The `hashtable` of the standard library: an array of chains, an element hangs in the chain that the hash of its key
selects. The hash is a parameter of every operation, since the caller may compute the key from data outside the table.

* `HashTable`, `place`, `resize`, `findOrInsert`, `clear` : the table and its operations;
* `HashTable.Mem`, `HashTable.Placed` : the elements, and that each hangs in its own chain;
* `findOrInsert_spec` : either an element with the same key was there, or the new one is now;
* `Placed.congr` : a hash that agrees on the elements serves as well.
-/

namespace Path64

/-- A table of `count` chains holding `numElements` elements. -/
structure HashTable (V : Type) where
  count : Nat
  bucket : Nat → List V
  numElements : Nat

namespace HashTable

variable {V : Type}

/-- A table of `n` empty chains. -/
def empty (n : Nat) : HashTable V := ⟨n, fun _ => [], 0⟩

/-- Hang `v` at the front of its chain. -/
def place (hash : V → Nat) (T : HashTable V) (v : V) : HashTable V :=
  { T with bucket := Function.update T.bucket (hash v % T.count) (v :: T.bucket (hash v % T.count)) }

/-- The elements, chain by chain. -/
def elements (T : HashTable V) : List V := (List.range T.count).flatMap T.bucket

/-- Rehash into more chains when `hint` elements do not fit one to a chain. -/
def resize (hash : V → Nat) (nextSize : Nat → Nat) (T : HashTable V) (hint : Nat) : HashTable V :=
  if T.count < hint ∧ T.count < nextSize hint then
    T.elements.foldl (place hash) ⟨nextSize hint, fun _ => [], T.numElements⟩
  else T

/-- The element with the key of `obj`; without one, `obj` itself, which is then inserted. -/
def findOrInsert (hash : V → Nat) (same : V → V → Bool) (nextSize : Nat → Nat) (T : HashTable V) (obj : V) :
    HashTable V × V :=
  let T := T.resize hash nextSize (T.numElements + 1)
  match (T.bucket (hash obj % T.count)).find? (fun cur => same cur obj) with
  | some cur => (T, cur)
  | none => ({ T.place hash obj with numElements := T.numElements + 1 }, obj)

/-- Drop all elements and keep the chains. -/
def clear (T : HashTable V) : HashTable V := { T with bucket := fun _ => [], numElements := 0 }

/-- `v` hangs in some chain. -/
def Mem (v : V) (T : HashTable V) : Prop := ∃ i, v ∈ T.bucket i

/-- Every element hangs in the chain its hash selects. -/
structure Placed (hash : V → Nat) (T : HashTable V) : Prop where
  pos : 0 < T.count
  home : ∀ i, ∀ v ∈ T.bucket i, i = hash v % T.count

variable {hash : V → Nat} {T : HashTable V} {obj : V}

theorem Placed.congr (h : Placed hash T) {hash' : V → Nat} (he : ∀ v, Mem v T → hash' v = hash v) :
    Placed hash' T := by
  refine ⟨h.pos, fun i v hv => ?_⟩
  rw [he v ⟨i, hv⟩]
  exact h.home i v hv

theorem placed_empty {n : Nat} (hn : 0 < n) : Placed hash (empty n) :=
  ⟨hn, fun _ _ hv => absurd hv List.not_mem_nil⟩

theorem placed_clear (hn : 0 < T.count) : Placed hash T.clear :=
  ⟨hn, fun _ _ hv => absurd hv List.not_mem_nil⟩

theorem not_mem_empty (n : Nat) (v : V) : ¬ Mem v (empty n) := fun ⟨_, hv⟩ => List.not_mem_nil hv

theorem not_mem_clear (v : V) : ¬ Mem v T.clear := fun ⟨_, hv⟩ => List.not_mem_nil hv

/-! ## Placing -/

theorem bucket_place_home (hash : V → Nat) (v : V) :
    (T.place hash v).bucket (hash v % T.count) = v :: T.bucket (hash v % T.count) :=
  Function.update_self ..

theorem bucket_place_other (hash : V → Nat) {v : V} {i : Nat} (h : i ≠ hash v % T.count) :
    (T.place hash v).bucket i = T.bucket i :=
  Function.update_of_ne h ..

theorem mem_place (hash : V → Nat) (v : V) : Mem v (T.place hash obj) ↔ v = obj ∨ Mem v T := by
  constructor
  · rintro ⟨i, hi⟩
    by_cases h : i = hash obj % T.count
    · subst h
      rw [bucket_place_home] at hi
      exact (List.mem_cons.1 hi).imp id fun h => ⟨_, h⟩
    · rw [bucket_place_other hash h] at hi
      exact Or.inr ⟨i, hi⟩
  · rintro (rfl | ⟨i, hi⟩)
    · exact ⟨hash v % T.count, by rw [bucket_place_home]; exact List.mem_cons_self⟩
    · refine ⟨i, ?_⟩
      by_cases h : i = hash obj % T.count
      · subst h
        rw [bucket_place_home]
        exact List.mem_cons_of_mem _ hi
      · rw [bucket_place_other hash h]
        exact hi

theorem Placed.place (h : Placed hash T) (v : V) : Placed hash (T.place hash v) := by
  refine ⟨h.pos, fun i w hw => ?_⟩
  by_cases hi : i = hash v % T.count
  · subst hi
    rw [bucket_place_home] at hw
    rcases List.mem_cons.1 hw with rfl | hw
    · rfl
    · exact h.home _ w hw
  · rw [bucket_place_other hash hi] at hw
    exact h.home i w hw

theorem mem_elements (h : Placed hash T) (v : V) : v ∈ T.elements ↔ Mem v T := by
  rw [elements, List.mem_flatMap]
  constructor
  · rintro ⟨i, -, hi⟩
    exact ⟨i, hi⟩
  · rintro ⟨i, hi⟩
    refine ⟨i, List.mem_range.2 ?_, hi⟩
    rw [h.home i v hi]
    exact Nat.mod_lt _ h.pos

theorem foldl_place (vs : List V) : ∀ T : HashTable V, Placed hash T →
    Placed hash (vs.foldl (HashTable.place hash) T) ∧
      ∀ v, Mem v (vs.foldl (HashTable.place hash) T) ↔ v ∈ vs ∨ Mem v T := by
  induction vs with
  | nil => intro T h; exact ⟨h, fun v => by simp⟩
  | cons w ws ih =>
    intro T h
    obtain ⟨hp, hm⟩ := ih (T.place hash w) (h.place w)
    refine ⟨hp, fun v => ?_⟩
    rw [List.foldl_cons, hm, mem_place, List.mem_cons]
    tauto

/-! ## Resizing and inserting -/

theorem resize_spec (h : Placed hash T) (nextSize : Nat → Nat) (hint : Nat) :
    Placed hash (T.resize hash nextSize hint) ∧ ∀ v, Mem v (T.resize hash nextSize hint) ↔ Mem v T := by
  rw [resize]
  split_ifs with hc
  · have he : Placed hash (⟨nextSize hint, fun _ => [], T.numElements⟩ : HashTable V) :=
      ⟨Nat.lt_of_le_of_lt (Nat.zero_le _) hc.2, fun _ _ hv => absurd hv List.not_mem_nil⟩
    obtain ⟨hp, hm⟩ := foldl_place T.elements _ he
    refine ⟨hp, fun v => ?_⟩
    rw [hm, mem_elements h]
    exact or_iff_left fun ⟨_, hv⟩ => List.not_mem_nil hv
  · exact ⟨h, fun _ => Iff.rfl⟩

/-- Elements with one key have one hash, so the search through one chain sees them all. -/
theorem findOrInsert_spec (same : V → V → Bool) (nextSize : Nat → Nat) (h : Placed hash T)
    (hsame : ∀ v, Mem v T → same v obj = true → hash v = hash obj) :
    Placed hash (T.findOrInsert hash same nextSize obj).1 ∧
      ((∃ w, Mem w T ∧ same w obj = true ∧ (T.findOrInsert hash same nextSize obj).2 = w ∧
          ∀ v, Mem v (T.findOrInsert hash same nextSize obj).1 ↔ Mem v T) ∨
        ((∀ w, Mem w T → same w obj = false) ∧ (T.findOrInsert hash same nextSize obj).2 = obj ∧
          ∀ v, Mem v (T.findOrInsert hash same nextSize obj).1 ↔ v = obj ∨ Mem v T)) := by
  obtain ⟨hp, hm⟩ := resize_spec h nextSize (T.numElements + 1)
  rw [findOrInsert]
  generalize T.resize hash nextSize (T.numElements + 1) = R at hp hm
  dsimp only
  split
  · next cur hcur =>
    refine ⟨hp, Or.inl ⟨cur, (hm cur).1 ⟨_, List.mem_of_find?_eq_some hcur⟩, ?_, rfl, hm⟩⟩
    simpa using List.find?_some hcur
  · next hnone =>
    refine ⟨⟨hp.pos, (hp.place obj).home⟩, Or.inr ⟨fun w hw => ?_, rfl, fun v => ?_⟩⟩
    · obtain ⟨i, hi⟩ := (hm w).2 hw
      by_contra hne
      have hhash := hsame w hw (by simpa using hne)
      have hi' := hp.home i w hi
      rw [hhash] at hi'
      exact List.find?_eq_none.1 hnone w (hi' ▸ hi) (by simpa using hne)
    · rw [← hm v]
      exact mem_place hash v

end HashTable
end Path64

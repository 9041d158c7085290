import Path64.IdMap.FreeList
import Mathlib.Data.Finset.Card
import Mathlib.Data.Finset.Range

/-!
# `ID_MAP`: the invariant of the table

* `Chain c t D h l` : `l` is the collision list of the hash value `h`;
* `Managed c t D` : the slots of `D` are chains that start at the slot of their hash value, and the free
  list. `D` is the whole table but in the middle of `Enlarge`, where some slots still hold pairs of the
  old table;
* `Holds c t D m` : the entries of `D` are those of the finite map `m`;
* `entryLookup_spec` : the search of a key.
-/

namespace Path64.IdMap

open Path64.Lists

variable {Key Node Raw : Type}

section

variable (c : Config Key Node Raw) (t : Map Node Raw)

/-- A slot that holds an entry. -/
def Used (i : Nat) : Prop := (t.table i).node ≠ c.notFound

/-- `_key` of every slot. -/
def keyOf (i : Nat) : Key := c.key (t.table i).raw

/-- The hash value of the entry in a slot. -/
def home (i : Nat) : Nat := c.hash (keyOf c t i) t.tableSize

/-- `l` is the collision list of the hash value `h`. -/
structure Chain (D : Finset Nat) (h : Nat) (l : List Nat) : Prop where
  links : Links (nextOf t) h l
  mem : ∀ j, j ∈ l ↔ j ∈ D ∧ Used c t j ∧ home c t j = h

/-- The slots of `D` are a hash table. -/
structure Managed (D : Finset Nat) : Prop where
  range : ∀ i ∈ D, i < t.tableSize
  free : ∃ l, FreeList c t l ∧ ∀ j, j ∈ l ↔ j ∈ D ∧ ¬ Used c t j
  chains : ∀ i ∈ D, Used c t i → ∃ l, Chain c t D (home c t i) l
  inj : ∀ i ∈ D, ∀ j ∈ D, Used c t i → Used c t j → keyOf c t i = keyOf c t j → i = j

/-- The entries in the slots of `D` are those of the map. -/
def Holds (D : Finset Nat) (m : Key → Option Node) : Prop :=
  ∀ k n, m k = some n ↔ ∃ i ∈ D, Used c t i ∧ keyOf c t i = k ∧ (t.table i).node = n

instance [DecidableEq Node] (i : Nat) : Decidable (Used c t i) :=
  inferInstanceAs (Decidable ((t.table i).node ≠ c.notFound))

/-- The slots of `D` that hold an entry. -/
def usedIn [DecidableEq Node] (D : Finset Nat) : Finset Nat := D.filter fun i => Used c t i

end

variable {c : Config Key Node Raw} {t t' : Map Node Raw} {D : Finset Nat}

/-! ## Unchanged slots -/

theorem used_congr {i : Nat} (h : t'.table i = t.table i) : Used c t' i ↔ Used c t i := by
  rw [Used, Used, h]

theorem home_congr {i : Nat} (h : t'.table i = t.table i) (hsize : t'.tableSize = t.tableSize) :
    home c t' i = home c t i := by
  rw [home, home, keyOf, keyOf, h, hsize]

theorem FreeList.congr {l : List Nat} (h : FreeList c t l) (hsize : t'.tableSize = t.tableSize)
    (hhead : t'.freeList = t.freeList) (hsame : ∀ j ∈ l, t'.table j = t.table j) : FreeList c t' l := by
  refine ⟨?_, ?_, ?_, ?_⟩
  · rw [hhead]
    exact h.links.congr fun j hj => by rw [nextOf, nextOf, hsame j hj]
  · exact h.back.congr fun j hj => by rw [prevOf, prevOf, hsame j (List.mem_of_mem_tail hj)]
  · intro j hj
    rw [hsize]
    exact h.range j hj
  · intro j hj
    rw [hsame j hj]
    exact h.free j hj

theorem Chain.congr {h : Nat} {l : List Nat} (hl : Chain c t D h l) (hsame : ∀ j ∈ l, t'.table j = t.table j)
    (hmem : ∀ j ∈ D, (Used c t' j ∧ home c t' j = h) ↔ (Used c t j ∧ home c t j = h)) :
    Chain c t' D h l := by
  refine ⟨hl.links.congr fun j hj => by rw [nextOf, nextOf, hsame j hj], ?_⟩
  intro j
  rw [hl.mem j]
  constructor
  · rintro ⟨hD, hj⟩
    exact ⟨hD, (hmem j hD).mpr hj⟩
  · rintro ⟨hD, hj⟩
    exact ⟨hD, (hmem j hD).mp hj⟩

/-! ## Chains -/

theorem length_free [DecidableEq Node] {l : List Nat} (h : FreeList c t l)
    (hmem : ∀ j, j ∈ l ↔ j ∈ D ∧ ¬ Used c t j) : (usedIn c t D).card + l.length = D.card := by
  have hset : l.toFinset = D.filter fun i => ¬ Used c t i := by
    ext j
    rw [List.mem_toFinset, hmem, Finset.mem_filter]
  rw [← List.toFinset_card_of_nodup h.links.nodup, hset]
  exact Finset.card_filter_add_card_filter_not _

namespace Managed

variable (h : Managed c t D)
include h

theorem chain_cons {i : Nat} (hi : i ∈ D) (hu : Used c t i) : ∃ l, Chain c t D (home c t i) (home c t i :: l) := by
  obtain ⟨l, hl⟩ := h.chains i hi hu
  obtain ⟨l', rfl⟩ := hl.links.eq_cons
  exact ⟨l', hl⟩

theorem home_used {i : Nat} (hi : i ∈ D) (hu : Used c t i) :
    home c t i ∈ D ∧ Used c t (home c t i) ∧ home c t (home c t i) = home c t i := by
  obtain ⟨l, hl⟩ := h.chain_cons hi hu
  exact (hl.mem _).mp (List.mem_cons_self ..)

theorem links_from {i : Nat} (hi : i ∈ D) (hu : Used c t i) :
    ∃ l, Links (nextOf t) i l ∧ ∀ j ∈ l, j ∈ D ∧ Used c t j ∧ home c t j = home c t i := by
  obtain ⟨l, hl⟩ := h.chains i hi hu
  obtain ⟨a, b, rfl⟩ := List.append_of_mem ((hl.mem i).mpr ⟨hi, hu, rfl⟩)
  exact ⟨i :: b, hl.links.suffix, fun j hj => (hl.mem j).mp (List.mem_append_right _ hj)⟩

theorem withEntries (n : Nat) : Managed c { t with numEntries := n } D := by
  obtain ⟨l, hfree, hmem⟩ := h.free
  refine ⟨h.range, ⟨l, ⟨hfree.links, hfree.back, hfree.range, hfree.free⟩, hmem⟩, ?_, h.inj⟩
  intro i hi hu
  obtain ⟨l, hl⟩ := h.chains i hi hu
  exact ⟨l, hl.links, hl.mem⟩

theorem chain_range {x : Nat} {l : List Nat} (hl : Chain c t D x l) : ∀ j ∈ l, j < t.tableSize :=
  fun j hj => h.range j ((hl.mem j).mp hj).1

end Managed

/-! ## The search of a key -/

section

variable [DecidableEq Key] [DecidableEq Node]

/-- The search along a list of used slots finds the slot of the key, if it is there. -/
theorem entryLookup_links (k : Key) {l : List Nat} (hrange : ∀ j ∈ l, j < t.tableSize)
    (hused : ∀ j ∈ l, Used c t j) : ∀ {s : Int} {fuel : Nat}, l.length < fuel → Links (nextOf t) s l →
    (∃ i ∈ l, keyOf c t i = k ∧ entryLookup c t k fuel s = .ok i) ∨
      ((∀ i ∈ l, keyOf c t i ≠ k) ∧ entryLookup c t k fuel s = .ok (-1)) := by
  induction l with
  | nil =>
    intro s fuel hfuel hl
    right
    refine ⟨fun i hi => absurd hi List.not_mem_nil, ?_⟩
    obtain ⟨fuel, rfl⟩ : ∃ f, fuel = f + 1 := ⟨fuel - 1, by have := hfuel; omega⟩
    rw [entryLookup, if_pos (show s = -1 from hl)]
  | cons j l ih =>
    intro s fuel hfuel hl
    obtain ⟨fuel, rfl⟩ : ∃ f, fuel = f + 1 := ⟨fuel - 1, by have := hfuel; omega⟩
    have hj := hrange j (List.mem_cons_self ..)
    have hstep : entryLookup c t k (fuel + 1) s =
        if keyOf c t j = k then .ok (j : Int) else entryLookup c t k fuel (nextOf t j) := by
      rw [entryLookup, hl.1, if_neg (by omega), Map.read_of_lt hj]
      simp only [ok_bind]
      rw [if_neg (hused j (List.mem_cons_self ..))]
      rfl
    rw [hstep]
    by_cases hkey : keyOf c t j = k
    · left
      exact ⟨j, List.mem_cons_self .., hkey, if_pos hkey⟩
    · rw [if_neg hkey]
      have hrest := ih (fun i hi => hrange i (List.mem_cons_of_mem _ hi))
        (fun i hi => hused i (List.mem_cons_of_mem _ hi))
        (show l.length < fuel by rw [List.length_cons] at hfuel; omega) hl.2
      rcases hrest with ⟨i, hi, hik, hrun⟩ | ⟨hnone, hrun⟩
      · exact Or.inl ⟨i, List.mem_cons_of_mem _ hi, hik, hrun⟩
      · right
        refine ⟨?_, hrun⟩
        intro i hi
        rcases List.mem_cons.mp hi with rfl | hi
        · exact hkey
        · exact hnone i hi

/-- `Lookup` in a table returns what the map holds. -/
theorem lookup_spec {m : Key → Option Node} (h : Managed c t D) (hm : Holds c t D m) {k : Key}
    (hk : c.hash k t.tableSize ∈ D) : lookup c t k = .ok ((m k).getD c.notFound) := by
  have hrange := h.range _ hk
  unfold lookup
  by_cases hu : Used c t (c.hash k t.tableSize)
  · obtain ⟨l, hlinks, hl⟩ := h.links_from hk hu
    have hin : ∀ j ∈ l, j < t.tableSize := fun j hj => h.range j (hl j hj).1
    have hlen := length_le_of_lt hlinks.nodup hin
    rcases entryLookup_links k hin (fun j hj => (hl j hj).2.1)
      (show l.length < t.tableSize + 1 by omega) hlinks with ⟨i, hi, hik, hrun⟩ | ⟨hnone, hrun⟩
    · have hmk : m k = some (t.table i).node := (hm k _).mpr ⟨i, (hl i hi).1, (hl i hi).2.1, hik, rfl⟩
      rw [hrun, hmk]
      simp only [ok_bind, Option.getD_some]
      rw [if_neg (by omega), Map.read_of_lt (hin i hi)]
      rfl
    · have hmk : m k = none := by
        by_contra hne
        obtain ⟨n, hn⟩ := Option.ne_none_iff_exists'.mp hne
        obtain ⟨i, hi, hui, hik, -⟩ := (hm k n).mp hn
        -- an entry of the key would be in the chain that starts here
        obtain ⟨l', hl'⟩ := h.chains i hi hui
        have hhome : home c t i = c.hash k t.tableSize := by rw [home, hik]
        rw [hhome] at hl'
        have hmem : i ∈ l := (hlinks.unique hl'.links) ▸ (hl'.mem i).mpr ⟨hi, hui, hhome⟩
        exact hnone i hmem hik
      rw [hrun, hmk]
      rfl
  · have hmk : m k = none := by
      by_contra hne
      obtain ⟨n, hn⟩ := Option.ne_none_iff_exists'.mp hne
      obtain ⟨i, hi, hui, hik, -⟩ := (hm k n).mp hn
      have hhome := (h.home_used hi hui).2.1
      rw [home, hik] at hhome
      exact hu hhome
    rw [hmk, entryLookup, if_neg (by omega), Map.read_of_lt hrange]
    simp only [ok_bind]
    rw [if_pos (not_not.mp hu)]
    rfl

end

end Path64.IdMap

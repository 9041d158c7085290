import Path64.IdMap.Invariant
import Mathlib.Data.Finset.Image

/-!
# `ID_MAP`: the slots that `Enlarge` will occupy

* `SameData t t'` : only links differ;
* `Marked t O` : the links of the slots of `O` are 0 and those of the others -1;
* `markHashes_spec` : the hash values of all entries are marked;
* `grabOccupied_spec` : then as many slots are marked as there are entries;
* `linkUnoccupied_spec` : the other slots are one list, linked by `unoccNext`;
* `skipFull_spec` : the first slot of such a list that holds no pair.
-/

namespace Path64.IdMap

open Path64.Lists

variable {Key Node Raw : Type} {c : Config Key Node Raw} {t t' : Map Node Raw}

/-- Only the links may differ. -/
structure SameData (t t' : Map Node Raw) : Prop where
  size : t'.tableSize = t.tableSize
  node : ∀ i, (t'.table i).node = (t.table i).node
  raw : ∀ i, (t'.table i).raw = (t.table i).raw

namespace SameData

theorem refl (t : Map Node Raw) : SameData t t := ⟨rfl, fun _ => rfl, fun _ => rfl⟩

theorem trans {t₁ t₂ t₃ : Map Node Raw} (h : SameData t₁ t₂) (h' : SameData t₂ t₃) : SameData t₁ t₃ :=
  ⟨h'.size.trans h.size, fun i => (h'.node i).trans (h.node i), fun i => (h'.raw i).trans (h.raw i)⟩

theorem set (t : Map Node Raw) (i : Nat) (v : Int) : SameData t (t.set i fun e => { e with next := v }) := by
  refine ⟨rfl, ?_, ?_⟩
  · intro j
    by_cases hj : j = i
    · rw [hj, Map.table_set_self]
    · rw [Map.table_set_of_ne hj]
  · intro j
    by_cases hj : j = i
    · rw [hj, Map.table_set_self]
    · rw [Map.table_set_of_ne hj]

theorem used (h : SameData t t') (i : Nat) : Used c t' i ↔ Used c t i := by rw [Used, Used, h.node i]

theorem key (h : SameData t t') (i : Nat) : keyOf c t' i = keyOf c t i := by rw [keyOf, keyOf, h.raw i]

end SameData

/-- The slots of `O` are marked as occupied. -/
structure Marked (t : Map Node Raw) (O : Finset Nat) : Prop where
  range : ∀ i ∈ O, i < t.tableSize
  occupied : ∀ i ∈ O, nextOf t i = 0
  unoccupied : ∀ i < t.tableSize, i ∉ O → nextOf t i = -1

theorem Marked.insert {O : Finset Nat} (h : Marked t O) {i : Nat} (hi : i < t.tableSize) :
    Marked (t.set i fun e => { e with next := 0 }) (Insert.insert i O) := by
  refine ⟨?_, ?_, ?_⟩
  · intro j hj
    rcases Finset.mem_insert.mp hj with rfl | hj
    · exact hi
    · exact h.range j hj
  · intro j hj
    by_cases hji : j = i
    · rw [hji, nextOf, Map.table_set_self]
    · rw [nextOf, Map.table_set_of_ne hji]
      exact h.occupied j ((Finset.mem_insert.mp hj).resolve_left hji)
  · intro j hj hjO
    have hji : j ≠ i := fun heq => hjO (heq ▸ Finset.mem_insert_self ..)
    rw [nextOf, Map.table_set_of_ne hji]
    exact h.unoccupied j hj fun hmem => hjO (Finset.mem_insert_of_mem hmem)

theorem Marked.mem_iff {O : Finset Nat} (h : Marked t O) {i : Nat} (hi : i < t.tableSize) :
    (t.table i).next = -1 ↔ i ∉ O := by
  constructor
  · intro hnext hO
    have hzero : (t.table i).next = 0 := h.occupied i hO
    omega
  · exact h.unoccupied i hi

section

variable [DecidableEq Node]

omit [DecidableEq Node] in
theorem clearNext_marked (t : Map Node Raw) (firstNew : Nat) : Marked (clearNext c t firstNew) ∅ := by
  refine ⟨by simp, by simp, ?_⟩
  intro i hi _
  have hi' : i < t.tableSize := hi
  simp only [nextOf, clearNext]
  split_ifs <;> rfl

/-- The slots below `i` that hold an entry. -/
def usedBelow (c : Config Key Node Raw) (t : Map Node Raw) (i : Nat) : Finset Nat := usedIn c t (Finset.range i)

theorem usedBelow_succ (i : Nat) :
    usedBelow c t (i + 1) = if Used c t i then Insert.insert i (usedBelow c t i) else usedBelow c t i := by
  rw [usedBelow, usedBelow, usedIn, usedIn, Finset.range_add_one, Finset.filter_insert]

theorem usedBelow_mono {i j : Nat} (h : i ≤ j) : usedBelow c t i ⊆ usedBelow c t j := by
  intro x hx
  rw [usedBelow, usedIn, Finset.mem_filter, Finset.mem_range] at hx ⊢
  exact ⟨by omega, hx.2⟩

/-- Every hash value is marked, and the count of the entries is lowered for each of them. -/
theorem markHashes_spec {first count : Nat} (hm : Marked t ∅) (hfirst : first ≤ t.tableSize)
    (hpos : 0 < t.tableSize) (hcount : (usedBelow c t first).card ≤ count) :
    ∃ t' count', markHashes c t first count = .ok (t', count') ∧ SameData t t' ∧
      Marked t' ((usedBelow c t first).image (home c t)) ∧
      ((usedBelow c t first).image (home c t)).card + count' = count := by
  have hloop : ∀ i ≤ first, ∃ t' count',
      (List.range i).foldlM (markHash c) (t, count) = Except.ok (t', count') ∧ SameData t t' ∧
      Marked t' ((usedBelow c t i).image (home c t)) ∧
      ((usedBelow c t i).image (home c t)).card + count' = count := by
    intro i
    induction i with
    | zero =>
      intro _
      refine ⟨t, count, rfl, SameData.refl t, ?_, ?_⟩
      · simpa [usedBelow, usedIn] using hm
      · simp [usedBelow, usedIn]
    | succ i ih =>
      intro hi
      obtain ⟨t', count', hrun, hdata, hmarked, hcard⟩ := ih (by omega)
      have hi' : i < t'.tableSize := by
        rw [hdata.size]
        omega
      rw [List.range_succ, List.foldlM_append, hrun]
      simp only [ok_bind, List.foldlM_cons, List.foldlM_nil, markHash]
      rw [Map.read_of_lt hi']
      simp only [ok_bind]
      by_cases hu : Used c t i
      · have hu' : (t'.table i).node ≠ c.notFound := (hdata.used i).mpr hu
        have hhash : c.hash (c.key (t'.table i).raw) t'.tableSize = home c t i := by
          rw [hdata.raw i, hdata.size]
          rfl
        have hlt : home c t i < t'.tableSize := by
          rw [hdata.size]
          exact c.hash_lt _ _ hpos
        rw [if_pos hu', hhash, Map.read_of_lt hlt]
        simp only [ok_bind]
        rw [usedBelow_succ, if_pos hu, Finset.image_insert]
        by_cases hO : home c t i ∈ (usedBelow c t i).image (home c t)
        · rw [if_neg fun heq => (hmarked.mem_iff hlt).mp heq hO, Finset.insert_eq_of_mem hO]
          exact ⟨t', count', rfl, hdata, hmarked, hcard⟩
        · -- the new hash value is one more of at most as many as there are entries
          have hnew := Finset.card_insert_of_notMem hO
          have hle : (Insert.insert (home c t i) ((usedBelow c t i).image (home c t))).card ≤ count := by
            have himage : Insert.insert (home c t i) ((usedBelow c t i).image (home c t)) =
                (usedBelow c t (i + 1)).image (home c t) := by
              rw [usedBelow_succ, if_pos hu, Finset.image_insert]
            rw [himage]
            calc ((usedBelow c t (i + 1)).image (home c t)).card
                ≤ (usedBelow c t (i + 1)).card := Finset.card_image_le
              _ ≤ (usedBelow c t first).card := Finset.card_le_card (usedBelow_mono hi)
              _ ≤ count := hcount
          rw [if_pos ((hmarked.mem_iff hlt).mpr hO), if_neg (by omega), Map.modify_of_lt hlt]
          refine ⟨_, _, rfl, hdata.trans (SameData.set t' _ 0), hmarked.insert hlt, ?_⟩
          rw [hnew]
          omega
      · have hu' : ¬ (t'.table i).node ≠ c.notFound := fun h => hu ((hdata.used i).mp h)
        rw [if_neg hu', usedBelow_succ, if_neg hu]
        exact ⟨t', count', rfl, hdata, hmarked, hcard⟩
  exact hloop first le_rfl

end

/-! ## One slot for every collision -/

/-- Marking `count` further slots, when there are as many. -/
theorem grabOccupied_spec {n : Nat} : ∀ (fuel i count : Nat) {t : Map Node Raw} {O : Finset Nat}, Marked t O →
    (∀ j < i, j ∈ O) → O.card + count = n → n < t.tableSize → i ≤ t.tableSize → t.tableSize < i + fuel →
    ∃ t' O', grabOccupied t fuel i count = .ok t' ∧ SameData t t' ∧ Marked t' O' ∧ O ⊆ O' ∧ O'.card = n := by
  intro fuel
  induction fuel with
  | zero =>
    intro i count t O _ _ _ _ hi hfuel
    omega
  | succ fuel ih =>
    intro i count t O hm hbelow hcard hn hi hfuel
    rw [grabOccupied]
    by_cases hzero : count = 0
    · rw [if_pos hzero]
      exact ⟨t, O, rfl, SameData.refl t, hm, Finset.Subset.refl O, by omega⟩
    · -- were all slots marked, there would be more of them than entries
      have hlt : i < t.tableSize := by
        by_contra hge
        have hsub : Finset.range t.tableSize ⊆ O := by
          intro j hj
          exact hbelow j (by have := Finset.mem_range.mp hj; omega)
        have hle := Finset.card_le_card hsub
        rw [Finset.card_range] at hle
        omega
      rw [if_neg hzero, Map.read_of_lt hlt]
      simp only [ok_bind]
      by_cases hO : i ∈ O
      · rw [if_neg fun heq => (hm.mem_iff hlt).mp heq hO]
        refine ih (i + 1) count hm ?_ hcard hn hlt (by omega)
        intro j hj
        by_cases hji : j = i
        · rw [hji]
          exact hO
        · exact hbelow j (by omega)
      · rw [if_pos ((hm.mem_iff hlt).mpr hO), Map.modify_of_lt hlt]
        simp only [ok_bind]
        have hnew := Finset.card_insert_of_notMem hO
        obtain ⟨t', O', hrun, hdata, hmarked, hsub, hcard'⟩ := ih (i + 1) (count - 1) (hm.insert hlt)
          (by
            intro j hj
            by_cases hji : j = i
            · rw [hji]
              exact Finset.mem_insert_self ..
            · exact Finset.mem_insert_of_mem (hbelow j (by omega)))
          (by omega) hn (by exact hlt) (by show t.tableSize < _; omega)
        exact ⟨t', O', hrun, (SameData.set t i 0).trans hdata, hmarked,
          (Finset.subset_insert ..).trans hsub, hcard'⟩

/-! ## The list of the other slots -/

/-- The link of the unoccupied list. -/
def unoccNext (t : Map Node Raw) (i : Nat) : Int := -(t.table i).next - 2

theorem lastUnoccupied_spec {O : Finset Nat} (h : Marked t O) : ∀ i ≤ t.tableSize, (∃ j < i, j ∉ O) →
    ∃ last, lastUnoccupied t i = .ok last ∧ last < i ∧ last ∉ O ∧ ∀ j, last < j → j < i → j ∈ O := by
  intro i
  induction i with
  | zero =>
    rintro _ ⟨j, hj, -⟩
    omega
  | succ i ih =>
    rintro hi ⟨j, hj, hjO⟩
    have hlt : i < t.tableSize := hi
    rw [lastUnoccupied, Map.read_of_lt hlt]
    simp only [ok_bind]
    by_cases hO : i ∈ O
    · have hji : j ≠ i := fun heq => hjO (heq ▸ hO)
      obtain ⟨last, hrun, hlast, hnot, hall⟩ := ih (by omega) ⟨j, by omega, hjO⟩
      rw [if_neg fun heq => (h.mem_iff hlt).mp heq hO]
      refine ⟨last, hrun, by omega, hnot, ?_⟩
      intro q hq hqi
      by_cases hqi' : q = i
      · rw [hqi']
        exact hO
      · exact hall q hq (by omega)
    · rw [if_pos ((h.mem_iff hlt).mpr hO)]
      refine ⟨i, rfl, by omega, hO, ?_⟩
      intro q hq hqi
      omega

/-- The slots below `i` that are not marked are put in front of the list. -/
theorem linkUnoccupied_spec {O : Finset Nat} : ∀ (i : Nat) {t : Map Node Raw} {head : Int} {us : List Nat},
    i ≤ t.tableSize → (∀ j ∈ O, nextOf t j = 0) → (∀ j < i, j ∉ O → nextOf t j = -1) →
    Links (unoccNext t) head us → (∀ j, j ∈ us ↔ i ≤ j ∧ j < t.tableSize ∧ j ∉ O) →
    ∃ t' head' us', linkUnoccupied t i head = .ok (t', head') ∧ SameData t t' ∧ (∀ j ∈ O, nextOf t' j = 0) ∧
      Links (unoccNext t') head' us' ∧ ∀ j, j ∈ us' ↔ j < t.tableSize ∧ j ∉ O := by
  intro i
  induction i with
  | zero =>
    intro t head us _ hocc _ hlinks hmem
    refine ⟨t, head, us, rfl, SameData.refl t, hocc, hlinks, ?_⟩
    intro j
    rw [hmem j]
    exact ⟨fun h => h.2, fun h => ⟨Nat.zero_le _, h⟩⟩
  | succ i ih =>
    intro t head us hi hocc hun hlinks hmem
    have hlt : i < t.tableSize := hi
    rw [linkUnoccupied, Map.read_of_lt hlt]
    simp only [ok_bind]
    by_cases hO : i ∈ O
    · have hnext : (t.table i).next = 0 := hocc i hO
      rw [if_neg (by omega)]
      refine ih (by omega) hocc (fun j hj => hun j (by omega)) hlinks ?_
      intro j
      rw [hmem j]
      constructor
      · rintro ⟨hij, hj⟩
        exact ⟨by omega, hj⟩
      · rintro ⟨hij, hj, hjO⟩
        have hji : j ≠ i := fun heq => hjO (heq ▸ hO)
        exact ⟨by omega, hj, hjO⟩
    · have hnext : (t.table i).next = -1 := hun i (by omega) hO
      rw [if_pos hnext, Map.modify_of_lt hlt]
      simp only [ok_bind]
      have hius : i ∉ us := fun hius => by
        have := ((hmem i).mp hius).1
        omega
      have hother : ∀ j, j ≠ i → ∀ v : Int,
          nextOf (t.set i fun e => { e with next := v }) j = nextOf t j := by
        intro j hj v
        rw [nextOf, nextOf, Map.table_set_of_ne hj]
      obtain ⟨t', head', us', hrun, hdata, hocc', hlinks', hmem'⟩ :=
        @ih (t.set i fun e => { e with next := -head - 2 }) i (i :: us) (by exact Nat.le_of_lt hlt)
          (fun j hj => (hother j (fun heq => hO (heq ▸ hj)) _).trans (hocc j hj))
          (fun j hj hjO => (hother j (by omega) _).trans (hun j (by omega) hjO))
          (by
            refine ⟨rfl, ?_⟩
            have hself : unoccNext (t.set i fun e => { e with next := -head - 2 }) i = head := by
              rw [unoccNext, Map.table_set_self]
              show -(-head - 2) - 2 = head
              omega
            rw [hself]
            refine hlinks.congr fun j hj => ?_
            have hji : j ≠ i := fun heq => hius (heq ▸ hj)
            rw [unoccNext, unoccNext, Map.table_set_of_ne hji])
          (by
            intro j
            rw [List.mem_cons, hmem j]
            constructor
            · rintro (rfl | ⟨hij, hj⟩)
              · exact ⟨le_rfl, hlt, hO⟩
              · exact ⟨by omega, hj⟩
            · rintro ⟨hij, hj⟩
              by_cases hji : j = i
              · exact Or.inl hji
              · exact Or.inr ⟨by omega, hj⟩)
      exact ⟨t', head', us', hrun, (SameData.set t i _).trans hdata, hocc', hlinks', hmem'⟩

/-- The first slot of the list that holds no pair. -/
theorem skipFull_spec [DecidableEq Node] {us : List Nat} (hrange : ∀ j ∈ us, j < t.tableSize)
    (hfree : ∃ j ∈ us, ¬ Used c t j) : ∀ {s : Int} {fuel : Nat}, us.length < fuel → Links (unoccNext t) s us →
    ∃ pre u post, us = pre ++ u :: post ∧ (∀ j ∈ pre, Used c t j) ∧ ¬ Used c t u ∧
      skipFull c t fuel s = .ok u := by
  induction us with
  | nil =>
    obtain ⟨j, hj, -⟩ := hfree
    exact absurd hj List.not_mem_nil
  | cons v us ih =>
    intro s fuel hfuel hl
    obtain ⟨fuel, rfl⟩ : ∃ f, fuel = f + 1 := ⟨fuel - 1, by have := hfuel; omega⟩
    rw [skipFull, hl.1, Map.read_of_lt (hrange v (List.mem_cons_self ..))]
    simp only [ok_bind]
    by_cases hu : Used c t v
    · obtain ⟨j, hj, hju⟩ := hfree
      have hjus : j ∈ us := (List.mem_cons.mp hj).resolve_left fun heq => hju (heq ▸ hu)
      obtain ⟨pre, u, post, rfl, hpre, hfreeu, hrun⟩ := ih (fun q hq => hrange q (List.mem_cons_of_mem _ hq))
        ⟨j, hjus, hju⟩ (show us.length < fuel by rw [List.length_cons] at hfuel; omega) hl.2
      rw [if_pos (show (t.table v).node ≠ c.notFound from hu)]
      refine ⟨v :: pre, u, post, rfl, ?_, hfreeu, hrun⟩
      intro q hq
      rcases List.mem_cons.mp hq with rfl | hq
      · exact hu
      · exact hpre q hq
    · rw [if_neg (show ¬ (t.table v).node ≠ c.notFound from hu)]
      exact ⟨[], v, us, rfl, fun q hq => absurd hq List.not_mem_nil, hu, rfl⟩

end Path64.IdMap

import Path64.IdMap.Reinsert

/-!
# `ID_MAP`: growing the table

* `markOccupied_spec` : the choice of the slots to be occupied;
* `evacuating_start` : the list of the other slots;
* `Evacuating.reinserting` : all pairs are in that list;
* `enlarge_spec` : the larger table holds the same map.
-/

namespace Path64.IdMap

open Path64.Lists

variable {Key Node Raw : Type} {c : Config Key Node Raw} {t t' : Map Node Raw}

section

variable [DecidableEq Node] {m : Key → Option Node}

omit [DecidableEq Node] in
theorem clearNext_data (c : Config Key Node Raw) (t : Map Node Raw) :
    let t₁ := clearNext c { t with tableSize := 2 * t.tableSize } t.tableSize
    (∀ i < t.tableSize, (t₁.table i).node = (t.table i).node ∧ (t₁.table i).raw = (t.table i).raw) ∧
      ∀ i < 2 * t.tableSize, t.tableSize ≤ i → (t₁.table i).node = c.notFound := by
  constructor
  · intro i hi
    simp only [clearNext, if_pos hi]
    exact ⟨trivial, trivial⟩
  · intro i hi hge
    simp only [clearNext, if_neg (Nat.not_lt.mpr hge), if_pos hi]

theorem clearNext_content (c : Config Key Node Raw) (t : Map Node Raw) :
    let t₁ := clearNext c { t with tableSize := 2 * t.tableSize } t.tableSize
    SamePairs c t (Finset.range t.tableSize) t₁ (Finset.range (2 * t.tableSize)) := by
  obtain ⟨hold, hnew⟩ := clearNext_data c t
  dsimp only at hold hnew ⊢
  refine transport (fun i => i) ?_ (fun a _ b _ _ _ heq => heq) ?_
  · intro i hi hu
    have hlt : i < t.tableSize := by
      by_contra hge
      exact hu (hnew i (Finset.mem_range.mp hi) (by omega))
    refine ⟨Finset.mem_range.mpr hlt, ?_, ?_, (hold i hlt).1⟩
    · rw [Used, ← (hold i hlt).1]
      exact hu
    · rw [keyOf, keyOf, (hold i hlt).2]
  · intro i hi hu
    have hlt := Finset.mem_range.mp hi
    refine ⟨i, Finset.mem_range.mpr (by omega), ?_, rfl⟩
    rw [Used, (hold i hlt).1]
    exact hu

/-- The slots to be occupied: all hash values, and as many slots as there are pairs. -/
theorem markOccupied_spec {first n : Nat} (hm : Marked t ∅) (hfirst : first ≤ t.tableSize)
    (hcount : (usedBelow c t first).card = n) (hn : n < t.tableSize) :
    ∃ t₁ t₂ count O, markHashes c t first n = .ok (t₁, count) ∧
      grabOccupied t₁ (t₁.tableSize + 1) 0 count = .ok t₂ ∧ SameData t t₂ ∧ Marked t₂ O ∧ O.card = n ∧
      ∀ i < first, Used c t i → home c t i ∈ O := by
  obtain ⟨t₁, count, hrun, hdata, hmarked, hcard⟩ := markHashes_spec (c := c) hm hfirst (by omega) hcount.le
  have hsize := hdata.size
  obtain ⟨t₂, O, hrun', hdata', hmarked', hsub, hcard'⟩ := grabOccupied_spec (t₁.tableSize + 1) 0 count hmarked
    (fun j hj => absurd hj (Nat.not_lt_zero j)) hcard (by omega) (Nat.zero_le _) (by omega)
  refine ⟨t₁, t₂, count, O, hrun, hrun', hdata.trans hdata', hmarked', hcard', ?_⟩
  intro i hi hu
  refine hsub (Finset.mem_image_of_mem _ ?_)
  rw [usedBelow, usedIn, Finset.mem_filter, Finset.mem_range]
  exact ⟨hi, hu⟩

/-- The other slots are made a list, of which the first that holds no pair is found. -/
theorem evacuating_start {O : Finset Nat} {n : Nat} (hm : Marked t O)
    (hcontent : ∀ k v, m k = some v ↔ Content c t (Finset.range t.tableSize) k v)
    (hdistinct : KeysDistinct c t (Finset.range t.tableSize))
    (hcount : (usedIn c t (Finset.range t.tableSize)).card = n) (hO : O.card = n) (hroom : 2 * n < t.tableSize) :
    ∃ last t₁ head us unocc, lastUnoccupied t t.tableSize = .ok last ∧
      linkUnoccupied t last last = .ok (t₁, head) ∧ skipFull c t₁ (t₁.tableSize + 1) head = .ok unocc ∧
      SameData t t₁ ∧ us.length ≤ t.tableSize ∧
      Evacuating c { t₁ with freeList := -1 } O us head m n t.tableSize t.tableSize unocc := by
  have hsubO : O ⊆ Finset.range t.tableSize := fun j hj => Finset.mem_range.mpr (hm.range j hj)
  -- some slot is not marked
  have hexists : ∃ j < t.tableSize, j ∉ O := by
    by_contra hnone
    push Not at hnone
    have hle := Finset.card_le_card fun j hj => hnone j (Finset.mem_range.mp hj)
    rw [Finset.card_range] at hle
    omega
  obtain ⟨last, hlast, hlt, hnot, hall⟩ := lastUnoccupied_spec hm t.tableSize le_rfl hexists
  have hend : Links (unoccNext t) last [last] := by
    refine ⟨rfl, ?_⟩
    show -nextOf t last - 2 = -1
    rw [hm.unoccupied last hlt hnot]
    rfl
  obtain ⟨t₁, head, us, hlink, hdata, hmarks, hlinks, hmem⟩ := linkUnoccupied_spec (O := O) last hlt.le hm.occupied
    (fun j hj => hm.unoccupied j (by omega)) hend (by
      intro j
      rw [List.mem_singleton]
      constructor
      · rintro rfl
        exact ⟨le_rfl, hlt, hnot⟩
      · rintro ⟨hle, hj, hjO⟩
        by_contra hne
        exact hjO (hall j (by omega) hj))
  have hrange : ∀ j ∈ us, j < t₁.tableSize := by
    intro j hj
    rw [hdata.size]
    exact ((hmem j).mp hj).1
  have hset : us.toFinset = Finset.range t.tableSize \ O := by
    ext j
    rw [List.mem_toFinset, Finset.mem_sdiff, Finset.mem_range, hmem j]
  have hnodup := hlinks.nodup
  have hlen : us.length + n = t.tableSize := by
    rw [← List.toFinset_card_of_nodup hnodup, hset, ← hO, Finset.card_sdiff_add_card_eq_card hsubO,
      Finset.card_range]
  obtain ⟨hcontent₁, hdistinct₁, hcount₁⟩ := hdata.samePairs (c := c) (Finset.range t.tableSize)
  -- the list is longer than the number of pairs
  have hfree : ∃ j ∈ us, ¬ Used c t₁ j := by
    by_contra hnone
    push Not at hnone
    have hle : us.toFinset.card ≤ (usedIn c t₁ (Finset.range t.tableSize)).card := by
      refine Finset.card_le_card fun j hj => ?_
      have hjus := List.mem_toFinset.mp hj
      rw [usedIn, Finset.mem_filter, Finset.mem_range]
      exact ⟨((hmem j).mp hjus).1, hnone j hjus⟩
    rw [List.toFinset_card_of_nodup hnodup, hcount₁, hcount] at hle
    omega
  have hsize := hdata.size
  obtain ⟨pre, u, post, hus, hpre, hu, hskip⟩ := skipFull_spec hrange hfree
    (show us.length < t₁.tableSize + 1 by omega) hlinks
  have hpend : pending us O t.tableSize = Finset.range t.tableSize := by
    ext j
    rw [mem_pending, Finset.mem_range, hmem j]
    constructor
    · rintro (h | h)
      · exact h.1
      · exact h.2
    · intro hj
      by_cases hjO : j ∈ O
      · exact Or.inr ⟨hjO, hj⟩
      · exact Or.inl ⟨hj, hjO⟩
  refine ⟨last, t₁, head, us, u, hlast, hlink, hskip, hdata, by omega, ?_, ?_, fun j hj _ => hmarks j hj, hlinks,
    ⟨[], ⟨rfl, List.IsChain.nil, by simp, by simp⟩, ?_⟩, ⟨pre, u, post, hus, hpre, hu, rfl⟩, ?_, ?_, ?_, by omega⟩
  · intro j
    show j ∈ us ↔ j < t₁.tableSize ∧ j ∉ O
    rw [hsize]
    exact hmem j
  · intro j hj
    show j < t₁.tableSize
    rw [hsize]
    exact hm.range j hj
  · intro j
    constructor
    · exact fun hj => absurd hj List.not_mem_nil
    · rintro ⟨hj, hle⟩
      have := hm.range j hj
      omega
  · intro k v
    rw [hpend, hcontent k v]
    exact (hcontent₁ k v).symm
  · rw [hpend]
    exact hdistinct₁ hdistinct
  · rw [hpend]
    exact hcount₁.trans hcount

/-- When all pairs are in the unoccupied list, they wait to be inserted into the slots to be occupied. -/
theorem Evacuating.reinserting {O : Finset Nat} {us : List Nat} {head unocc : Int} {n : Nat}
    (h : Evacuating c t O us head m n 0 0 unocc) (hhomes : ∀ k v, m k = some v → c.hash k t.tableSize ∈ O) :
    Reinserting c t O us head m ∧ (usedIn c t (Finset.range t.tableSize)).card = n := by
  have hpend : pending us O 0 = us.toFinset := by
    ext j
    rw [mem_pending, List.mem_toFinset]
    exact ⟨fun hor => hor.resolve_right fun hj => Nat.not_lt_zero j hj.2, Or.inl⟩
  have hreleased : released t us = O := by
    ext j
    rw [mem_released, h.part j]
    constructor
    · rintro ⟨hj, hnot⟩
      by_contra hjO
      exact hnot ⟨hj, hjO⟩
    · intro hj
      exact ⟨h.range j hj, fun hjus => hjus.2 hj⟩
  obtain ⟨l, hfree, hmem⟩ := h.free
  have hunused : ∀ j ∈ O, ¬ Used c t j := fun j hj hu => hu (hfree.free j ((hmem j).mpr ⟨hj, Nat.zero_le j⟩))
  have hused : ∀ j ∈ Finset.range t.tableSize, Used c t j → j ∈ us.toFinset := by
    intro j hj hu
    rw [List.mem_toFinset, h.part j]
    exact ⟨Finset.mem_range.mp hj, fun hjO => hunused j hjO hu⟩
  obtain ⟨hcontent, -, hcount⟩ : SamePairs c t (Finset.range t.tableSize) t us.toFinset :=
    transport_same (fun j hj => Finset.mem_range.mpr ((h.part j).mp (List.mem_toFinset.mp hj)).1)
      (fun j hj hnot hu => hnot (hused j hj hu)) fun _ _ => rfl
  refine ⟨⟨fun j hj => ((h.part j).mp hj).1, ?_, h.links, ?_, ?_, ?_, hhomes⟩, ?_⟩
  · intro j hj
    rw [hreleased]
    exact hj
  · rw [hreleased]
    refine ⟨h.range, ⟨l, hfree, ?_⟩, fun i hi hu => absurd hu (hunused i hi),
      fun i hi _ _ hu => absurd hu (hunused i hi)⟩
    intro j
    rw [hmem j]
    exact ⟨fun hj => ⟨hj.1, hunused j hj.1⟩, fun hj => ⟨hj.1, Nat.zero_le j⟩⟩
  · intro k v
    rw [h.content k v, hpend, hcontent k v]
  · intro i hi j hj hui huj
    refine h.distinct i ?_ j ?_ hui huj
    · rw [hpend]
      exact hused i hi hui
    · rw [hpend]
      exact hused j hj huj
  · rw [← hcount, ← hpend]
    exact h.count

/-- `Enlarge` ends, and the table of twice the size holds the same map. -/
theorem enlarge_spec [DecidableEq Key] (hD : Managed c t (Finset.range t.tableSize))
    (hm : Holds c t (Finset.range t.tableSize) m)
    (hcount : (usedIn c t (Finset.range t.tableSize)).card = t.numEntries)
    (hcap : t.numEntries ≤ capacity t.tableSize) (hsize : 16 ≤ t.tableSize) :
    ∃ t', enlarge c t = .ok t' ∧ t'.tableSize = 2 * t.tableSize ∧ t'.numEntries = t.numEntries ∧
      Managed c t' (Finset.range t'.tableSize) ∧ Holds c t' (Finset.range t'.tableSize) m ∧
      (usedIn c t' (Finset.range t'.tableSize)).card = t.numEntries := by
  have hroom : 2 * t.numEntries < 2 * t.tableSize := by
    unfold capacity at hcap
    omega
  obtain ⟨hold, hnew⟩ := clearNext_data c t
  obtain ⟨hcontent, hdistinct, hcard⟩ := clearNext_content c t
  have hmarked := clearNext_marked (c := c) { t with tableSize := 2 * t.tableSize } t.tableSize
  generalize ht₁ : clearNext c { t with tableSize := 2 * t.tableSize } t.tableSize = t₁ at *
  have hsize₁ : t₁.tableSize = 2 * t.tableSize := by
    rw [← ht₁]
    rfl
  rw [← hsize₁] at hcontent hdistinct hcard hroom
  -- no slot of the new half holds a pair
  have hbelow : usedBelow c t₁ t.tableSize = usedIn c t₁ (Finset.range t₁.tableSize) := by
    ext i
    rw [usedBelow, usedIn, usedIn, Finset.mem_filter, Finset.mem_filter, Finset.mem_range, Finset.mem_range]
    constructor
    · exact fun h => ⟨by omega, h.2⟩
    · intro h
      refine ⟨?_, h.2⟩
      by_contra hge
      exact h.2 (hnew i (by omega) (by omega))
  obtain ⟨t₂, t₃, count, O, hmark, hgrab, hdata, hmarked₃, hO, hhomes⟩ := markOccupied_spec (c := c) hmarked
    (show t.tableSize ≤ t₁.tableSize by omega) (by rw [hbelow, hcard, hcount]) (show t.numEntries < _ by omega)
  obtain ⟨hcontent₃, hdistinct₃, hcard₃⟩ := hdata.samePairs (c := c) (Finset.range t₁.tableSize)
  have hsize₃ := hdata.size
  rw [← hsize₃] at hcontent₃ hdistinct₃ hcard₃
  have hcontent' : ∀ k v, m k = some v ↔ Content c t₃ (Finset.range t₃.tableSize) k v := by
    intro k v
    rw [hm k v, hcontent₃ k v, hsize₃, hcontent k v]
    rfl
  obtain ⟨last, t₄, head, us, unocc, hlast, hlink, hskip, hdata₄, hlen, hstart⟩ := evacuating_start (m := m) hmarked₃
    hcontent' (hdistinct₃ (hsize₃ ▸ hdistinct hD.inj)) (by rw [hcard₃, hsize₃, hcard, hcount]) hO (by omega)
  have hsize₄ := hdata₄.size
  obtain ⟨t₅, unocc', hevac, hsize₅, hdone⟩ := evacuate_spec t₃.tableSize (by exact hsize₄.ge) hstart
  have hsize₅' : t₅.tableSize = t₁.tableSize := hsize₅.trans (hsize₄.trans hsize₃)
  obtain ⟨hre, hcard₅⟩ := hdone.reinserting (by
    intro k v hkv
    obtain ⟨i, hi, hu, hik, -⟩ := (hm k v).mp hkv
    have hlt := Finset.mem_range.mp hi
    have hu₁ : Used c t₁ i := by
      rw [Used, (hold i hlt).1]
      exact hu
    have hmem := hhomes i hlt hu₁
    rw [home, keyOf, (hold i hlt).2] at hmem
    rw [hsize₅', ← hik]
    exact hmem)
  obtain ⟨t₆, hrein, hsize₆, hend⟩ := reinsert_spec us (show us.length < t₅.tableSize + 1 by omega)
    (by unfold capacity; omega) (hcard₅.trans hO.symm) hre
  have hreleased : released t₆ [] = Finset.range t₆.tableSize := by
    rw [released, List.toFinset_nil, Finset.sdiff_empty]
  have hmanaged := hend.managed
  rw [hreleased] at hmanaged
  have hcard₆ : (usedIn c t₆ (Finset.range t₆.tableSize)).card = t.numEntries := by
    rw [← hcard₅]
    exact card_of_content hend.distinct hre.distinct fun k v => (hend.content k v).symm.trans (hre.content k v)
  unfold enlarge
  dsimp only
  rw [ht₁, hmark]
  simp only [ok_bind]
  rw [hgrab]
  simp only [ok_bind]
  rw [hlast]
  simp only [ok_bind]
  rw [hlink]
  simp only [ok_bind]
  rw [hskip]
  simp only [ok_bind]
  rw [show t₄.tableSize = t₃.tableSize from hsize₄] at hevac ⊢
  rw [hevac]
  simp only [ok_bind]
  rw [hrein]
  simp only [ok_bind]
  exact ⟨{ t₆ with numEntries := t.numEntries }, rfl, by show t₆.tableSize = _; omega, rfl,
    hmanaged.withEntries t.numEntries, hend.content, hcard₆⟩

end

end Path64.IdMap

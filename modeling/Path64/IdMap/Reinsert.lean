import Path64.IdMap.Insert
import Path64.IdMap.Evacuate

/-!
# `ID_MAP`: inserting the pairs of the old table again

* `Managed.release` : a slot is added to the free list of a hash table;
* `Reinserting` : some slots still hold pairs that wait, and the other ones are a hash table;
* `reinsert_spec` : all pairs are inserted, into a growing set of released slots.
-/

namespace Path64.IdMap

open Path64.Lists

variable {Key Node Raw : Type} {c : Config Key Node Raw} {t t' : Map Node Raw}

/-! ## Pairs and finite maps -/

theorem exists_holds {S : Finset Nat} (h : KeysDistinct c t S) : ∃ m, Holds c t S m := by
  classical
  refine ⟨fun k => if hk : ∃ v, Content c t S k v then some hk.choose else none, ?_⟩
  intro k v
  dsimp only
  by_cases hk : ∃ v, Content c t S k v
  · rw [dif_pos hk]
    constructor
    · intro heq
      obtain rfl := Option.some.inj heq
      exact hk.choose_spec
    · rintro ⟨i, hi, hu, hik, hiv⟩
      obtain ⟨j, hj, huj, hjk, hjv⟩ := hk.choose_spec
      obtain rfl := h i hi j hj hu huj (hik.trans hjk.symm)
      rw [← hjv, hiv]
  · rw [dif_neg hk]
    constructor
    · intro heq
      cases heq
    · exact fun hc => absurd ⟨v, hc⟩ hk

theorem card_of_content [DecidableEq Node] {S S' : Finset Nat} (h : KeysDistinct c t S) (h' : KeysDistinct c t' S')
    (heq : ∀ k v, Content c t S k v ↔ Content c t' S' k v) : (usedIn c t S).card = (usedIn c t' S').card := by
  have hex : ∀ i ∈ usedIn c t S, ∃ j ∈ usedIn c t' S', keyOf c t' j = keyOf c t i := by
    intro i hi
    obtain ⟨hiS, hu⟩ := Finset.mem_filter.mp hi
    obtain ⟨j, hj, huj, hjk, -⟩ := (heq _ _).mp ⟨i, hiS, hu, rfl, rfl⟩
    exact ⟨j, Finset.mem_filter.mpr ⟨hj, huj⟩, hjk⟩
  choose! f hf hkey using hex
  refine Finset.card_bij (fun i _ => f i) hf ?_ ?_
  · intro a ha b hb hab
    have hk : keyOf c t a = keyOf c t b := by rw [← hkey a ha, ← hkey b hb, hab]
    obtain ⟨haS, hua⟩ := Finset.mem_filter.mp ha
    obtain ⟨hbS, hub⟩ := Finset.mem_filter.mp hb
    exact h a haS b hbS hua hub hk
  · intro j hj
    obtain ⟨hjS, huj⟩ := Finset.mem_filter.mp hj
    obtain ⟨i, hi, hu, hik, -⟩ := (heq _ _).mpr ⟨j, hjS, huj, rfl, rfl⟩
    have hmem : i ∈ usedIn c t S := Finset.mem_filter.mpr ⟨hi, hu⟩
    obtain ⟨hfS, hfu⟩ := Finset.mem_filter.mp (hf i hmem)
    exact ⟨i, hmem, h' _ hfS j hjS hfu huj ((hkey i hmem).trans hik)⟩

/-- A slot that no list of the table holds is put into the free list. -/
theorem Managed.release {D : Finset Nat} (hD : Managed c t D) {u : Nat} (hu : u < t.tableSize) (huD : u ∉ D) :
    ∃ t', addToFreeList c t u = .ok t' ∧ Managed c t' (Insert.insert u D) ∧ t'.tableSize = t.tableSize ∧
      t'.numEntries = t.numEntries ∧ ¬ Used c t' u ∧ (∀ j ∈ D, Used c t' j ↔ Used c t j) ∧
      (∀ j, j ≠ u → (j ∈ D → Used c t j) → t'.table j = t.table j) := by
  obtain ⟨l, hfree, hmem⟩ := hD.free
  have hul : u ∉ l := fun hul => huD ((hmem u).mp hul).1
  obtain ⟨t', hrun, hfree', hsame⟩ := addToFreeList_spec hfree hu hul
  have htable : ∀ j, j ≠ u → (j ∈ D → Used c t j) → t'.table j = t.table j := by
    intro j hju hj
    refine hsame.table j fun hmem' => ?_
    rcases List.mem_cons.mp hmem' with heq | hjl
    · exact hju heq
    · exact ((hmem j).mp hjl).2 (hj ((hmem j).mp hjl).1)
  have hunused : ∀ j ∈ u :: l, ¬ Used c t' j := fun j hj hu' => hu' (hfree'.free j hj)
  have hnotu : ¬ Used c t' u := hunused u (List.mem_cons_self ..)
  have hne : ∀ j ∈ D, j ≠ u := fun j hj heq => huD (heq ▸ hj)
  have hused : ∀ j ∈ D, Used c t' j ↔ Used c t j := by
    intro j hj
    constructor
    · intro hu'
      by_contra hnot
      exact hunused j (List.mem_cons_of_mem _ ((hmem j).mpr ⟨hj, hnot⟩)) hu'
    · intro hu₀
      exact (used_congr (htable j (hne j hj) fun _ => hu₀)).mpr hu₀
  have hold : ∀ j ∈ Insert.insert u D, Used c t' j → j ∈ D ∧ Used c t j ∧ t'.table j = t.table j := by
    intro j hj hu'
    rcases Finset.mem_insert.mp hj with rfl | hj
    · exact absurd hu' hnotu
    · have hu₀ := (hused j hj).mp hu'
      exact ⟨hj, hu₀, htable j (hne j hj) fun _ => hu₀⟩
  refine ⟨t', hrun, ⟨?_, ⟨u :: l, hfree', ?_⟩, ?_, ?_⟩, hsame.size, hsame.entries, hnotu, hused, htable⟩
  · intro j hj
    rw [hsame.size]
    rcases Finset.mem_insert.mp hj with rfl | hj
    · exact hu
    · exact hD.range j hj
  · intro j
    rw [List.mem_cons, Finset.mem_insert, hmem j]
    constructor
    · rintro (rfl | ⟨hj, hnot⟩)
      · exact ⟨Or.inl rfl, hnotu⟩
      · exact ⟨Or.inr hj, fun hu' => hnot ((hused j hj).mp hu')⟩
    · rintro ⟨heq | hj, hnot⟩
      · exact Or.inl heq
      · exact Or.inr ⟨hj, fun hu₀ => hnot ((hused j hj).mpr hu₀)⟩
  · intro j hj hu'
    obtain ⟨hjD, hu₀, hsame'⟩ := hold j hj hu'
    obtain ⟨l', hl'⟩ := hD.chains j hjD hu₀
    rw [home_congr hsame' hsame.size]
    refine ⟨l', hl'.links.congr fun q hq => ?_, ?_⟩
    · obtain ⟨hqD, hqu, -⟩ := (hl'.mem q).mp hq
      rw [nextOf, nextOf, htable q (hne q hqD) fun _ => hqu]
    · intro q
      rw [hl'.mem q]
      constructor
      · rintro ⟨hqD, hqu, hqh⟩
        have hqt := htable q (hne q hqD) fun _ => hqu
        exact ⟨Finset.mem_insert_of_mem hqD, (hused q hqD).mpr hqu, (home_congr hqt hsame.size).trans hqh⟩
      · rintro ⟨hq, hqu, hqh⟩
        obtain ⟨hqD, hqu₀, hqt⟩ := hold q hq hqu
        exact ⟨hqD, hqu₀, (home_congr hqt hsame.size).symm.trans hqh⟩
  · intro i hi j hj hui huj hkey
    obtain ⟨hiD, hui₀, hit⟩ := hold i hi hui
    obtain ⟨hjD, huj₀, hjt⟩ := hold j hj huj
    refine hD.inj i hiD j hjD hui₀ huj₀ ?_
    rw [keyOf, keyOf, hit, hjt] at hkey
    exact hkey

/-- The slots that no longer wait in the unoccupied list. -/
def released (t : Map Node Raw) (us : List Nat) : Finset Nat := Finset.range t.tableSize \ us.toFinset

theorem mem_released {us : List Nat} {j : Nat} : j ∈ released t us ↔ j < t.tableSize ∧ j ∉ us := by
  rw [released, Finset.mem_sdiff, Finset.mem_range, List.mem_toFinset]

theorem content_released {us : List Nat} (hrange : ∀ j ∈ us, j < t.tableSize) (k : Key) (v : Node) :
    Content c t (Finset.range t.tableSize) k v ↔
      Content c t (released t us) k v ∨ Content c t us.toFinset k v := by
  constructor
  · rintro ⟨i, hi, hrest⟩
    by_cases hus : i ∈ us
    · exact Or.inr ⟨i, List.mem_toFinset.mpr hus, hrest⟩
    · exact Or.inl ⟨i, mem_released.mpr ⟨Finset.mem_range.mp hi, hus⟩, hrest⟩
  · rintro (⟨i, hi, hrest⟩ | ⟨i, hi, hrest⟩)
    · exact ⟨i, Finset.mem_range.mpr (mem_released.mp hi).1, hrest⟩
    · exact ⟨i, Finset.mem_range.mpr (hrange i (List.mem_toFinset.mp hi)), hrest⟩

/-- The state when the pairs in the slots of `us` still wait: the other slots are a hash table, and the pairs
of both are the map. -/
structure Reinserting (c : Config Key Node Raw) (t : Map Node Raw) (O : Finset Nat) (us : List Nat) (s : Int)
    (m : Key → Option Node) : Prop where
  range : ∀ j ∈ us, j < t.tableSize
  occupied : ∀ j ∈ O, j ∈ released t us
  links : Links (unoccNext t) s us
  managed : Managed c t (released t us)
  content : ∀ k v, m k = some v ↔ Content c t (Finset.range t.tableSize) k v
  distinct : KeysDistinct c t (Finset.range t.tableSize)
  homes : ∀ k v, m k = some v → c.hash k t.tableSize ∈ O

namespace Reinserting

variable {O : Finset Nat} {u : Nat} {us : List Nat} {s : Int} {m : Key → Option Node}

/-- The first waiting slot is put into the free list. -/
theorem release (h : Reinserting c t O (u :: us) s m) :
    ∃ t₁, addToFreeList c t u = .ok t₁ ∧ t₁.tableSize = t.tableSize ∧ Managed c t₁ (released t us) ∧
      ¬ Used c t₁ u ∧ (∀ j ∈ released t (u :: us), Used c t₁ j ↔ Used c t j) ∧
      ∀ j, j ≠ u → (j ∈ released t (u :: us) → Used c t j) → t₁.table j = t.table j := by
  have hu := h.range u (List.mem_cons_self ..)
  have hus := (List.nodup_cons.mp h.links.nodup).1
  have hnot : u ∉ released t (u :: us) := fun hmem => (mem_released.mp hmem).2 (List.mem_cons_self ..)
  have hset : Insert.insert u (released t (u :: us)) = released t us := by
    ext j
    rw [Finset.mem_insert, mem_released, mem_released, List.mem_cons]
    constructor
    · rintro (rfl | ⟨hj, hnot⟩)
      · exact ⟨hu, hus⟩
      · exact ⟨hj, fun hmem => hnot (Or.inr hmem)⟩
    · rintro ⟨hj, hnot⟩
      by_cases hju : j = u
      · exact Or.inl hju
      · exact Or.inr ⟨hj, fun hor => hor.elim hju hnot⟩
  obtain ⟨t₁, hrun, hmanaged, hsize, -, hnotu, hused, htable⟩ := h.managed.release hu hnot
  exact ⟨t₁, hrun, hsize, hset ▸ hmanaged, hnotu, hused, htable⟩

/-- A waiting slot that holds no pair. -/
theorem empty [DecidableEq Node] (h : Reinserting c t O (u :: us) s m) (hu : ¬ Used c t u) :
    ∃ t₁, addToFreeList c t u = .ok t₁ ∧ t₁.tableSize = t.tableSize ∧
      Reinserting c t₁ O us (unoccNext t u) m := by
  obtain ⟨t₁, hrun, hsize, hmanaged, hnotu, hused, htable⟩ := h.release
  have hus := (List.nodup_cons.mp h.links.nodup).1
  have hwait : ∀ j ∈ us, t₁.table j = t.table j := by
    intro j hj
    refine htable j (fun heq => hus (heq ▸ hj)) fun hrel => ?_
    exact absurd (List.mem_cons_of_mem _ hj) (mem_released.mp hrel).2
  have hrel : ∀ S, released t₁ S = released t S := by
    intro S
    rw [released, released, hsize]
  -- every used slot but `u` is as before
  have hboth : ∀ j < t.tableSize, (Used c t₁ j ↔ Used c t j) ∧ (Used c t j → t₁.table j = t.table j) := by
    intro j hj
    by_cases hju : j = u
    · rw [hju]
      exact ⟨⟨fun h₁ => absurd h₁ hnotu, fun h₁ => absurd h₁ hu⟩, fun h₁ => absurd h₁ hu⟩
    · by_cases hjus : j ∈ us
      · exact ⟨used_congr (hwait j hjus), fun _ => hwait j hjus⟩
      · have hjrel : j ∈ released t (u :: us) :=
          mem_released.mpr ⟨hj, fun hmem => (List.mem_cons.mp hmem).elim hju hjus⟩
        exact ⟨hused j hjrel, fun hu₀ => htable j hju fun _ => hu₀⟩
  obtain ⟨hcontent, hdistinct, -⟩ :
      SamePairs c t (Finset.range t.tableSize) t₁ (Finset.range t.tableSize) := by
    refine transport (fun j => j) ?_ (fun a _ b _ _ _ heq => heq) ?_
    · intro j hj hu₁
      have hlt := Finset.mem_range.mp hj
      have hu₀ := (hboth j hlt).1.mp hu₁
      rw [keyOf, keyOf, (hboth j hlt).2 hu₀]
      exact ⟨hj, hu₀, rfl, rfl⟩
    · exact fun o ho huo => ⟨o, ho, (hboth o (Finset.mem_range.mp ho)).1.mpr huo, rfl⟩
  refine ⟨t₁, hrun, hsize, ?_, ?_, ?_, (hrel us).symm ▸ hmanaged, ?_, ?_, ?_⟩
  · intro j hj
    rw [hsize]
    exact h.range j (List.mem_cons_of_mem _ hj)
  · intro j hj
    rw [hrel]
    obtain ⟨hlt, hnot⟩ := mem_released.mp (h.occupied j hj)
    exact mem_released.mpr ⟨hlt, fun hmem => hnot (List.mem_cons_of_mem _ hmem)⟩
  · exact h.links.2.congr fun j hj => by rw [unoccNext, unoccNext, hwait j hj]
  · intro k v
    rw [hsize, h.content k v, hcontent k v]
  · rw [hsize]
    exact hdistinct h.distinct
  · intro k v hkv
    rw [hsize]
    exact h.homes k v hkv

/-- The pairs of the released slots are those of before: the one of `u` is in no slot now. -/
theorem content_release {t₁ : Map Node Raw} (hnotu : ¬ Used c t₁ u)
    (hused : ∀ j ∈ released t (u :: us), Used c t₁ j ↔ Used c t j)
    (htable : ∀ j, j ≠ u → (j ∈ released t (u :: us) → Used c t j) → t₁.table j = t.table j) (k : Key) (v : Node) :
    Content c t₁ (released t us) k v ↔ Content c t (released t (u :: us)) k v := by
  constructor
  · rintro ⟨j, hj, huj, hjk, hjv⟩
    obtain ⟨hjlt, hjus⟩ := mem_released.mp hj
    have hju : j ≠ u := fun heq => hnotu (heq ▸ huj)
    have hjrel : j ∈ released t (u :: us) :=
      mem_released.mpr ⟨hjlt, fun hmem => (List.mem_cons.mp hmem).elim hju hjus⟩
    have hu₀ := (hused j hjrel).mp huj
    have hjt := htable j hju fun _ => hu₀
    rw [keyOf, hjt] at hjk
    rw [hjt] at hjv
    exact ⟨j, hjrel, hu₀, hjk, hjv⟩
  · rintro ⟨j, hj, huj, hjk, hjv⟩
    obtain ⟨hjlt, hnot⟩ := mem_released.mp hj
    have hju : j ≠ u := fun heq => hnot (heq ▸ List.mem_cons_self ..)
    have hjt := htable j hju fun _ => huj
    refine ⟨j, mem_released.mpr ⟨hjlt, fun hmem => hnot (List.mem_cons_of_mem _ hmem)⟩, (hused j hj).mpr huj, ?_, ?_⟩
    · rw [keyOf, hjt]
      exact hjk
    · rw [hjt]
      exact hjv

/-- There is room for the pair: the slots to be occupied and `u` are more than the other pairs. -/
theorem room [DecidableEq Node] (h : Reinserting c t O (u :: us) s m) (hu : Used c t u)
    (hcard : (usedIn c t (Finset.range t.tableSize)).card = O.card) {t₁ : Map Node Raw}
    (hnotu : ¬ Used c t₁ u) (hused : ∀ j ∈ released t (u :: us), Used c t₁ j ↔ Used c t j) :
    (usedIn c t₁ (released t us)).card + 2 ≤ (released t us).card := by
  have hult := h.range u (List.mem_cons_self ..)
  have hus := (List.nodup_cons.mp h.links.nodup).1
  have huO : u ∉ O := fun huO => (mem_released.mp (h.occupied u huO)).2 (List.mem_cons_self ..)
  have hsub : usedIn c t₁ (released t us) ⊆ (usedIn c t (Finset.range t.tableSize)).erase u := by
    intro j hj
    obtain ⟨hjrel, hju₁⟩ := Finset.mem_filter.mp hj
    obtain ⟨hjlt, hjus⟩ := mem_released.mp hjrel
    have hju : j ≠ u := fun heq => hnotu (heq ▸ hju₁)
    have hjrel' : j ∈ released t (u :: us) :=
      mem_released.mpr ⟨hjlt, fun hmem => (List.mem_cons.mp hmem).elim hju hjus⟩
    exact Finset.mem_erase.mpr ⟨hju, Finset.mem_filter.mpr ⟨Finset.mem_range.mpr hjlt, (hused j hjrel').mp hju₁⟩⟩
  have hle := Finset.card_le_card hsub
  have hmem : u ∈ usedIn c t (Finset.range t.tableSize) :=
    Finset.mem_filter.mpr ⟨Finset.mem_range.mpr hult, hu⟩
  have herase := Finset.card_erase_add_one hmem
  have hsub' : Insert.insert u O ⊆ released t us := by
    intro j hj
    rcases Finset.mem_insert.mp hj with rfl | hj
    · exact mem_released.mpr ⟨hult, hus⟩
    · obtain ⟨hlt, hnot⟩ := mem_released.mp (h.occupied j hj)
      exact mem_released.mpr ⟨hlt, fun hmem => hnot (List.mem_cons_of_mem _ hmem)⟩
  have hle' := Finset.card_le_card hsub'
  rw [Finset.card_insert_of_notMem huO] at hle'
  omega

/-- A waiting slot that holds a pair, which is inserted. -/
theorem insert [DecidableEq Key] [DecidableEq Node] (h : Reinserting c t O (u :: us) s m) (hu : Used c t u)
    (hcard : (usedIn c t (Finset.range t.tableSize)).card = O.card) :
    ∃ t₁ t₂, addToFreeList c t u = .ok t₁ ∧ t₁.tableSize = t.tableSize ∧
      insertAt c { t₁ with numEntries := 0 } (keyOf c t u) (t.table u).node = .ok t₂ ∧
      t₂.tableSize = t.tableSize ∧ Reinserting c t₂ O us (unoccNext t u) m := by
  obtain ⟨t₁, hrun, hsize, hmanaged, hnotu, hused, htable⟩ := h.release
  have hult := h.range u (List.mem_cons_self ..)
  have hus := (List.nodup_cons.mp h.links.nodup).1
  have hurange : u ∈ Finset.range t.tableSize := Finset.mem_range.mpr hult
  have hdisj : ∀ {j}, j ∈ released t (u :: us) → j ≠ u ∧ j ∉ us := by
    intro j hj
    have hnot := (mem_released.mp hj).2
    exact ⟨fun heq => hnot (heq ▸ List.mem_cons_self ..), fun hmem => hnot (List.mem_cons_of_mem _ hmem)⟩
  have hwait : ∀ j ∈ us, t₁.table j = t.table j := by
    intro j hj
    exact htable j (fun heq => hus (heq ▸ hj)) fun hrel => absurd hj (hdisj hrel).2
  have hcont₁ := content_release hnotu hused htable
  obtain ⟨m₁, hm₁⟩ := exists_holds hmanaged.inj
  have hkey : m₁ (keyOf c t u) = none := by
    by_contra hne
    obtain ⟨v, hv⟩ := Option.ne_none_iff_exists'.mp hne
    obtain ⟨j, hj, huj, hjk, -⟩ := (hcont₁ _ _).mp ((hm₁ _ _).mp hv)
    have hju := h.distinct j (Finset.mem_range.mpr (mem_released.mp hj).1) u hurange huj hu hjk
    exact (hdisj hj).1 hju
  have hmu : m (keyOf c t u) = some (t.table u).node := (h.content _ _).mpr ⟨u, hurange, hu, rfl, rfl⟩
  have hidx : c.hash (keyOf c t u) t₁.tableSize ∈ released t us := by
    rw [hsize]
    obtain ⟨hlt, hnot⟩ := mem_released.mp (h.occupied _ (h.homes _ _ hmu))
    exact mem_released.mpr ⟨hlt, fun hmem => hnot (List.mem_cons_of_mem _ hmem)⟩
  obtain ⟨t₂, hins, hmanaged₂, hholds₂, -, hsize₂, -, hout₂⟩ := insertAt_spec
    (t := { t₁ with numEntries := 0 }) (hmanaged.withEntries 0) hm₁ hkey hidx hu (h.room hu hcard hnotu hused)
  have hsize₂' : t₂.tableSize = t.tableSize := hsize₂.trans hsize
  have hrel : ∀ S, released t₂ S = released t S := by
    intro S
    rw [released, released, hsize₂']
  have hwait₂ : ∀ j ∈ us, t₂.table j = t.table j := by
    intro j hj
    rw [hout₂ j fun hrel => (mem_released.mp hrel).2 hj]
    exact hwait j hj
  have hcont₂ : ∀ k v, Content c t₂ (released t us) k v ↔
      (k = keyOf c t u ∧ v = (t.table u).node) ∨ Content c t (released t (u :: us)) k v := by
    intro k v
    rw [show Content c t₂ (released t us) k v ↔ _ from (hholds₂ k v).symm]
    by_cases hk : k = keyOf c t u
    · subst hk
      rw [Function.update_self, Option.some.injEq]
      constructor
      · exact fun heq => Or.inl ⟨rfl, heq.symm⟩
      · rintro (⟨-, rfl⟩ | hc)
        · rfl
        · have := (hm₁ _ _).mpr ((hcont₁ _ _).mpr hc)
          rw [hkey] at this
          cases this
    · rw [Function.update_of_ne hk, hm₁ k v, show (∃ i ∈ released t us, _) ↔ _ from hcont₁ k v]
      exact ⟨Or.inr, fun hor => hor.resolve_left fun hc => hk hc.1⟩
  have hcontw := content_congr (c := c) fun j hj => hwait₂ j (List.mem_toFinset.mp hj)
  have hrange₂ : ∀ j ∈ us, j < t₂.tableSize := by
    intro j hj
    rw [hsize₂']
    exact h.range j (List.mem_cons_of_mem _ hj)
  -- the pair of a released slot comes from `u` or from a slot released before
  have horigin : ∀ i ∈ released t us, Used c t₂ i → ∃ i₀ ∈ Finset.range t.tableSize, i₀ ∉ us ∧ Used c t i₀ ∧
      keyOf c t i₀ = keyOf c t₂ i := by
    intro i hi hui
    rcases (hcont₂ _ _).mp ⟨i, hi, hui, rfl, rfl⟩ with ⟨hk, -⟩ | ⟨i₀, hi₀, hu₀, hk₀, -⟩
    · exact ⟨u, hurange, hus, hu, hk.symm⟩
    · exact ⟨i₀, Finset.mem_range.mpr (mem_released.mp hi₀).1, (hdisj hi₀).2, hu₀, hk₀⟩
  have hcross : ∀ i ∈ released t us, ∀ j ∈ us, Used c t₂ i → Used c t₂ j → keyOf c t₂ i ≠ keyOf c t₂ j := by
    intro i hi j hj hui huj hkey
    obtain ⟨i₀, hi₀, hi₀us, hu₀, hk₀⟩ := horigin i hi hui
    have hjlt : j ∈ Finset.range t.tableSize := Finset.mem_range.mpr (h.range j (List.mem_cons_of_mem _ hj))
    have huj₀ := (used_congr (hwait₂ j hj)).mp huj
    have heq := h.distinct i₀ hi₀ j hjlt hu₀ huj₀ (by
      rw [hk₀, hkey, keyOf, keyOf, hwait₂ j hj])
    exact hi₀us (heq ▸ hj)
  refine ⟨t₁, t₂, hrun, hsize, hins, hsize₂', hrange₂, ?_, ?_, (hrel us).symm ▸ hmanaged₂, ?_, ?_, ?_⟩
  · intro j hj
    rw [hrel]
    have hjrel := h.occupied j hj
    exact mem_released.mpr ⟨(mem_released.mp hjrel).1, (hdisj hjrel).2⟩
  · exact h.links.2.congr fun j hj => by rw [unoccNext, unoccNext, hwait₂ j hj]
  · intro k v
    rw [h.content k v, content_released h.range, content_released hrange₂, hrel, hcont₂ k v, hcontw k v]
    constructor
    · rintro (hc | ⟨j, hj, huj, hjk, hjv⟩)
      · exact Or.inl (Or.inr hc)
      · rcases List.mem_cons.mp (List.mem_toFinset.mp hj) with rfl | hj
        · exact Or.inl (Or.inl ⟨hjk.symm, hjv.symm⟩)
        · exact Or.inr ⟨j, List.mem_toFinset.mpr hj, huj, hjk, hjv⟩
    · rintro ((⟨rfl, rfl⟩ | hc) | ⟨j, hj, hrest⟩)
      · exact Or.inr ⟨u, List.mem_toFinset.mpr (List.mem_cons_self ..), hu, rfl, rfl⟩
      · exact Or.inl hc
      · exact Or.inr ⟨j, List.mem_toFinset.mpr (List.mem_cons_of_mem _ (List.mem_toFinset.mp hj)), hrest⟩
  · intro i hi j hj hui huj hkey
    rw [hsize₂'] at hi hj
    by_cases hius : i ∈ us
    · by_cases hjus : j ∈ us
      · refine h.distinct i hi j hj ((used_congr (hwait₂ i hius)).mp hui) ((used_congr (hwait₂ j hjus)).mp huj) ?_
        rw [keyOf, keyOf, hwait₂ i hius, hwait₂ j hjus] at hkey
        exact hkey
      · have hjrel := mem_released.mpr ⟨Finset.mem_range.mp hj, hjus⟩
        exact absurd hkey.symm (hcross j hjrel i hius huj hui)
    · have hirel := mem_released.mpr ⟨Finset.mem_range.mp hi, hius⟩
      by_cases hjus : j ∈ us
      · exact absurd hkey (hcross i hirel j hjus hui huj)
      · exact hmanaged₂.inj i hirel j (mem_released.mpr ⟨Finset.mem_range.mp hj, hjus⟩) hui huj hkey
  · intro k v hkv
    rw [hsize₂']
    exact h.homes k v hkv

end Reinserting

/-- The pairs of all waiting slots are inserted. -/
theorem reinsert_spec [DecidableEq Key] [DecidableEq Node] {O : Finset Nat} {m : Key → Option Node} :
    ∀ (us : List Nat) {fuel : Nat} {t : Map Node Raw} {s : Int}, us.length < fuel → 1 ≤ capacity t.tableSize →
      (usedIn c t (Finset.range t.tableSize)).card = O.card → Reinserting c t O us s m →
      ∃ t', reinsert c t fuel s = .ok t' ∧ t'.tableSize = t.tableSize ∧ Reinserting c t' O [] (-1) m := by
  intro us
  induction us with
  | nil =>
    intro fuel t s hfuel _ _ h
    obtain ⟨fuel, rfl⟩ : ∃ f, fuel = f + 1 := ⟨fuel - 1, by have := hfuel; omega⟩
    have hs : s = -1 := h.links
    rw [reinsert, if_pos hs]
    exact ⟨t, rfl, rfl, hs ▸ h⟩
  | cons u us ih =>
    intro fuel t s hfuel hcap hcard h
    obtain ⟨fuel, rfl⟩ : ∃ f, fuel = f + 1 := ⟨fuel - 1, by have := hfuel; omega⟩
    rw [List.length_cons] at hfuel
    rw [reinsert, h.links.1, if_neg (by omega), Map.read_of_lt (h.range u (List.mem_cons_self ..))]
    simp only [ok_bind]
    -- the number of pairs stays the same, as they are those of the map
    have hcount : ∀ {t' : Map Node Raw} {s' : Int}, Reinserting c t' O us s' m →
        (usedIn c t' (Finset.range t'.tableSize)).card = O.card := by
      intro t' s' h'
      rw [← hcard]
      exact card_of_content h'.distinct h.distinct fun k v => (h'.content k v).symm.trans (h.content k v)
    by_cases hu : Used c t u
    · obtain ⟨t₁, t₂, hadd, hsize₁, hins, hsize₂, hnext⟩ := h.insert hu hcard
      obtain ⟨t', hrun, hsize', hdone⟩ := ih (show us.length < fuel by omega)
        (by rw [hsize₂]; exact hcap) (hcount hnext) hnext
      have hins' : insertAt c { t₁ with numEntries := 0 } (c.key (t.table u).raw) (t.table u).node = .ok t₂ := hins
      rw [hadd]
      simp only [ok_bind]
      rw [if_pos (show (t.table u).node ≠ c.notFound from hu), if_neg (by rw [hsize₁]; omega), hins']
      exact ⟨t', hrun, hsize'.trans hsize₂, hdone⟩
    · obtain ⟨t₁, hadd, hsize₁, hnext⟩ := h.empty hu
      obtain ⟨t', hrun, hsize', hdone⟩ := ih (show us.length < fuel by omega)
        (by rw [hsize₁]; exact hcap) (hcount hnext) hnext
      rw [hadd]
      simp only [ok_bind]
      rw [if_neg (show ¬ (t.table u).node ≠ c.notFound from hu)]
      exact ⟨t', hrun, hsize'.trans hsize₁, hdone⟩

end Path64.IdMap

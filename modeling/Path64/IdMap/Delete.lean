import Path64.IdMap.Invariant

/-!
# `ID_MAP`: deletion

* `Removed c t t' D y i` : what a deletion does to the entries of `D`: that of slot `i` is gone, slot `y`
  becomes free, and when these differ the entry of `y` has moved to `i`;
* `deleteSearch_spec` : the search finds the slot of the key and the one before it;
* `removed_managed` : unlinking one slot of a chain keeps the table a hash table; `removed_last`, `removed_pulled`,
  `removed_unlinked` : the three ways to do it;
* `delete_spec` : the table holds the map without the key.
-/

namespace Path64.IdMap

open Path64.Lists

variable {Key Node Raw : Type} {c : Config Key Node Raw} {t t' : Map Node Raw} {D : Finset Nat}

/-- What a deletion of the entry in slot `i` does when it frees slot `y`. -/
structure Removed (c : Config Key Node Raw) (t t' : Map Node Raw) (D : Finset Nat) (y i : Nat) : Prop where
  size : t'.tableSize = t.tableSize
  mem : y ∈ D ∧ i ∈ D
  before : Used c t y ∧ Used c t i
  same : ∀ j ∈ D, j ≠ i → j ≠ y → Used c t j →
    keyOf c t' j = keyOf c t j ∧ (t'.table j).node = (t.table j).node
  moved : y ≠ i → keyOf c t' i = keyOf c t y ∧ (t'.table i).node = (t.table y).node
  used : ∀ j ∈ D, Used c t' j ↔ Used c t j ∧ j ≠ y

namespace Removed

variable {y i : Nat} {m : Key → Option Node}

theorem exists_old (h : Removed c t t' D y i) {j : Nat} (hj : j ∈ D) (hu : Used c t' j) :
    ∃ o ∈ D, o ≠ i ∧ Used c t o ∧ keyOf c t' j = keyOf c t o ∧ (t'.table j).node = (t.table o).node ∧
      o = if j = i then y else j := by
  obtain ⟨hu₀, hne⟩ := (h.used j hj).mp hu
  by_cases hji : j = i
  · subst hji
    rw [if_pos rfl]
    exact ⟨y, h.mem.1, hne.symm, h.before.1, (h.moved hne.symm).1, (h.moved hne.symm).2, rfl⟩
  · rw [if_neg hji]
    exact ⟨j, hj, hji, hu₀, (h.same j hj hji hne hu₀).1, (h.same j hj hji hne hu₀).2, rfl⟩

theorem exists_slot (h : Removed c t t' D y i) {o : Nat} (ho : o ∈ D) (hne : o ≠ i) (hu : Used c t o) :
    ∃ j ∈ D, Used c t' j ∧ keyOf c t' j = keyOf c t o ∧ (t'.table j).node = (t.table o).node := by
  by_cases hoy : o = y
  · subst hoy
    exact ⟨i, h.mem.2, (h.used i h.mem.2).mpr ⟨h.before.2, hne.symm⟩, h.moved hne⟩
  · exact ⟨o, ho, (h.used o ho).mpr ⟨hu, hoy⟩, h.same o ho hne hoy hu⟩

theorem holds [DecidableEq Key] (h : Removed c t t' D y i) (hm : Holds c t D m)
    (hinj : ∀ i ∈ D, ∀ j ∈ D, Used c t i → Used c t j → keyOf c t i = keyOf c t j → i = j) :
    Holds c t' D (Function.update m (keyOf c t i) none) := by
  intro k n
  by_cases hk : k = keyOf c t i
  · subst hk
    rw [Function.update_self]
    constructor
    · intro hne
      cases hne
    · rintro ⟨j, hj, hu, hjk, -⟩
      obtain ⟨o, ho, hoi, huo, hkey, -⟩ := h.exists_old hj hu
      exact absurd (hinj o ho i h.mem.2 huo h.before.2 (hkey.symm.trans hjk)) hoi
  · rw [Function.update_of_ne hk, hm k n]
    constructor
    · rintro ⟨o, ho, huo, hok, hon⟩
      have hoi : o ≠ i := by
        rintro rfl
        exact hk hok.symm
      obtain ⟨j, hj, hu, hkey, hnode⟩ := h.exists_slot ho hoi huo
      exact ⟨j, hj, hu, hkey.trans hok, hnode.trans hon⟩
    · rintro ⟨j, hj, hu, hjk, hjn⟩
      obtain ⟨o, ho, -, huo, hkey, hnode, -⟩ := h.exists_old hj hu
      exact ⟨o, ho, huo, hkey.symm.trans hjk, hnode.symm.trans hjn⟩

theorem inj (h : Removed c t t' D y i)
    (hinj : ∀ i ∈ D, ∀ j ∈ D, Used c t i → Used c t j → keyOf c t i = keyOf c t j → i = j) :
    ∀ i ∈ D, ∀ j ∈ D, Used c t' i → Used c t' j → keyOf c t' i = keyOf c t' j → i = j := by
  intro a ha b hb hua hub hkey
  obtain ⟨a', ha', -, hua', hka, -, hea⟩ := h.exists_old ha hua
  obtain ⟨b', hb', -, hub', hkb, -, heb⟩ := h.exists_old hb hub
  have hab := hinj a' ha' b' hb' hua' hub' (by rw [← hka, ← hkb, hkey])
  have hay := ((h.used a ha).mp hua).2
  have hby := ((h.used b hb).mp hub).2
  rw [hea, heb] at hab
  split_ifs at hab with h₁ h₂ h₂
  · rw [h₁, h₂]
  · exact absurd hab.symm hby
  · exact absurd hab hay
  · exact hab

theorem card_used [DecidableEq Node] (h : Removed c t t' D y i) :
    (usedIn c t' D).card + 1 = (usedIn c t D).card := by
  have heq : usedIn c t' D = (usedIn c t D).erase y := by
    ext j
    simp only [usedIn, Finset.mem_filter, Finset.mem_erase]
    constructor
    · rintro ⟨hj, hu⟩
      obtain ⟨hu₀, hne⟩ := (h.used j hj).mp hu
      exact ⟨hne, hj, hu₀⟩
    · rintro ⟨hne, hj, hu₀⟩
      exact ⟨hj, (h.used j hj).mpr ⟨hu₀, hne⟩⟩
  have hy : y ∈ usedIn c t D := Finset.mem_filter.mpr ⟨h.mem.1, h.before.1⟩
  rw [heq]
  exact Finset.card_erase_add_one hy

theorem home_old (h : Removed c t t' D y i) {j : Nat} (hj : j ∈ D) (hu : Used c t' j) (heq : home c t y = home c t i) :
    home c t' j = home c t j := by
  obtain ⟨o, -, -, -, hkey, -, ho⟩ := h.exists_old hj hu
  have hhome : home c t' j = home c t o := by rw [home, home, hkey, h.size]
  rw [hhome, ho]
  split_ifs with hji
  · rw [hji, heq]
  · rfl

end Removed

/-- The slot `y` of the chain `L` is free to go: what was in slot `i` of the chain is overwritten or is `y` itself. -/
structure Unlinks (c : Config Key Node Raw) (t t₁ : Map Node Raw) (L : List Nat) (y i : Nat) : Prop where
  mem : y ∈ L ∧ i ∈ L
  size : t₁.tableSize = t.tableSize
  head : t₁.freeList = t.freeList
  out : ∀ j, j ∉ L → t₁.table j = t.table j
  keep : ∀ j ∈ L, j ≠ y → j ≠ i → keyOf c t₁ j = keyOf c t j ∧ (t₁.table j).node = (t.table j).node
  move : y ≠ i → keyOf c t₁ i = keyOf c t y ∧ (t₁.table i).node = (t.table y).node

namespace Unlinks

variable {t₁ : Map Node Raw} {y i : Nat} {L L' l : List Nat}

/-- The slot goes into the free list, and the other slots are as they were left. -/
theorem addToFreeList (h : Unlinks c t t₁ L y i) (hD : Managed c t D) (hchain : Chain c t D (home c t i) L)
    (hfree : FreeList c t l) (hmem : ∀ j, j ∈ l ↔ j ∈ D ∧ ¬ Used c t j) :
    ∃ t', IdMap.addToFreeList c t₁ y = .ok t' ∧ FreeList c t' (y :: l) ∧ SameOutside (y :: l) t₁ t' ∧
      (∀ j ∈ L, j ≠ y → t'.table j = t₁.table j) ∧ ∀ j ∈ D, Used c t j → j ∉ L → t'.table j = t.table j := by
  have hlL : ∀ j ∈ l, j ∉ L := fun j hj hjL => ((hmem j).mp hj).2 ((hchain.mem j).mp hjL).2.1
  have hfree₁ : FreeList c t₁ l := hfree.congr h.size h.head fun j hj => h.out j (hlL j hj)
  have hyD := ((hchain.mem y).mp h.mem.1).1
  obtain ⟨t', hrun, hfree', hsame⟩ := addToFreeList_spec hfree₁ (h.size ▸ hD.range y hyD) fun hyl => hlL y hyl h.mem.1
  refine ⟨t', hrun, hfree', hsame, fun j hj hjy => hsame.table j fun hmem' => ?_, fun j hj hu hjL => ?_⟩
  · rcases List.mem_cons.mp hmem' with heq | hjl
    · exact hjy heq
    · exact hlL j hjl hj
  · rw [hsame.table j ?_, h.out j hjL]
    intro hmem'
    rcases List.mem_cons.mp hmem' with heq | hjl
    · exact hjL (heq ▸ h.mem.1)
    · exact ((hmem j).mp hjl).2 hu

theorem removed (h : Unlinks c t t₁ L y i) (hchain : Chain c t D (home c t i) L) (hfree : FreeList c t' (y :: l))
    (hmem : ∀ j, j ∈ l ↔ j ∈ D ∧ ¬ Used c t j) (hsize : t'.tableSize = t.tableSize)
    (htable : ∀ j ∈ L, j ≠ y → t'.table j = t₁.table j)
    (hother : ∀ j ∈ D, Used c t j → j ∉ L → t'.table j = t.table j) : Removed c t t' D y i := by
  obtain ⟨hyD, hyu, -⟩ := (hchain.mem y).mp h.mem.1
  obtain ⟨hiD, hiu, -⟩ := (hchain.mem i).mp h.mem.2
  have hunused : ∀ j ∈ y :: l, ¬ Used c t' j := fun j hj hu => hu (hfree.free j hj)
  refine ⟨hsize, ⟨hyD, hiD⟩, ⟨hyu, hiu⟩, ?_, ?_, ?_⟩
  · intro j hj hji hjy hu
    by_cases hjL : j ∈ L
    · rw [keyOf, htable j hjL hjy]
      exact h.keep j hjL hjy hji
    · rw [keyOf, keyOf, hother j hj hu hjL]
      exact ⟨rfl, rfl⟩
  · intro hne
    rw [keyOf, htable i h.mem.2 hne.symm]
    exact h.move hne
  · intro j hj
    constructor
    · intro hu
      have hjy : j ≠ y := fun heq => hunused j (heq ▸ List.mem_cons_self ..) hu
      refine ⟨?_, hjy⟩
      by_contra hnot
      exact hunused j (List.mem_cons_of_mem _ ((hmem j).mpr ⟨hj, hnot⟩)) hu
    · rintro ⟨hu, hjy⟩
      by_cases hjL : j ∈ L
      · rw [Used, htable j hjL hjy]
        by_cases hji : j = i
        · subst hji
          rw [(h.move hjy.symm).2]
          exact hyu
        · rw [(h.keep j hjL hjy hji).2]
          exact hu
      · exact (used_congr (hother j hj hu hjL)).mpr hu

end Unlinks

namespace Removed

variable {y i : Nat} {L L' l : List Nat}

theorem mem_free (h : Removed c t t' D y i) (hmem : ∀ j, j ∈ l ↔ j ∈ D ∧ ¬ Used c t j) :
    ∀ j, j ∈ y :: l ↔ j ∈ D ∧ ¬ Used c t' j := by
  intro j
  rw [List.mem_cons, hmem j]
  constructor
  · rintro (rfl | ⟨hj, hnot⟩)
    · exact ⟨h.mem.1, fun hu => ((h.used j h.mem.1).mp hu).2 rfl⟩
    · exact ⟨hj, fun hu => hnot ((h.used j hj).mp hu).1⟩
  · rintro ⟨hj, hnot⟩
    by_cases hjy : j = y
    · exact Or.inl hjy
    · exact Or.inr ⟨hj, fun hu => hnot ((h.used j hj).mpr ⟨hu, hjy⟩)⟩

/-- What is left of the chain. -/
theorem chain_left (h : Removed c t t' D y i) (hchain : Chain c t D (home c t i) L) (hy : y ∈ L)
    (hL' : ∀ j, j ∈ L' ↔ j ∈ L ∧ j ≠ y) (hlinks : Links (nextOf t') (home c t i) L') :
    Chain c t' D (home c t i) L' := by
  have hyh := ((hchain.mem y).mp hy).2.2
  refine ⟨hlinks, fun q => ?_⟩
  rw [hL' q, hchain.mem q]
  constructor
  · rintro ⟨⟨hqD, hqu, hqh⟩, hqy⟩
    have hqu' := (h.used q hqD).mpr ⟨hqu, hqy⟩
    exact ⟨hqD, hqu', (h.home_old hqD hqu' hyh).trans hqh⟩
  · rintro ⟨hqD, hqu, hqh⟩
    obtain ⟨hqu₀, hqy⟩ := (h.used q hqD).mp hqu
    exact ⟨⟨hqD, hqu₀, (h.home_old hqD hqu hyh).symm.trans hqh⟩, hqy⟩

/-- The other chains. -/
theorem chain_other (h : Removed c t t' D y i) (hchain : Chain c t D (home c t i) L) (hy : y ∈ L) {s : Nat}
    (hs : s ≠ home c t i) (hl : Chain c t D s l)
    (hother : ∀ j ∈ D, Used c t j → j ∉ L → t'.table j = t.table j) : Chain c t' D s l := by
  have hyh := ((hchain.mem y).mp hy).2.2
  have hdisj : ∀ q, home c t q = s → q ∉ L := fun q hq hqL => hs (hq.symm.trans ((hchain.mem q).mp hqL).2.2)
  refine hl.congr ?_ ?_
  · intro q hq
    obtain ⟨hqD, hqu, hqh⟩ := (hl.mem q).mp hq
    exact hother q hqD hqu (hdisj q hqh)
  · intro q hqD
    constructor
    · rintro ⟨hqu, hqh⟩
      exact ⟨((h.used q hqD).mp hqu).1, (h.home_old hqD hqu hyh).symm.trans hqh⟩
    · rintro ⟨hqu, hqh⟩
      have hqy : q ≠ y := fun heq => hdisj q hqh (heq ▸ hy)
      have hqu' := (h.used q hqD).mpr ⟨hqu, hqy⟩
      exact ⟨hqu', (h.home_old hqD hqu' hyh).trans hqh⟩

end Removed

/-- Unlinking the slot `y` from the chain of the deleted entry and putting it into the free list. -/
theorem removed_managed (L' : List Nat) (hD : Managed c t D) {t₁ : Map Node Raw} {y i : Nat} {L : List Nat}
    (hchain : Chain c t D (home c t i) L) (h : Unlinks c t t₁ L y i) (hL' : ∀ j, j ∈ L' ↔ j ∈ L ∧ j ≠ y)
    (hlinks : L' = [] ∨ Links (nextOf t₁) (home c t i) L') :
    ∃ t', addToFreeList c t₁ y = .ok t' ∧ t'.numEntries = t₁.numEntries ∧ Removed c t t' D y i ∧
      Managed c t' D := by
  obtain ⟨l, hfree, hmem⟩ := hD.free
  obtain ⟨t', hrun, hfree', hsame, htable, hother⟩ := h.addToFreeList hD hchain hfree hmem
  have hsize : t'.tableSize = t.tableSize := hsame.size.trans h.size
  have hremoved := h.removed hchain hfree' hmem hsize htable hother
  have hyh := ((hchain.mem y).mp h.mem.1).2.2
  refine ⟨t', hrun, hsame.entries, hremoved, ?_, ⟨y :: l, hfree', hremoved.mem_free hmem⟩, ?_, hremoved.inj hD.inj⟩
  · exact fun j hj => hsize ▸ hD.range j hj
  · intro j hj hu
    obtain ⟨hu₀, hjy⟩ := (hremoved.used j hj).mp hu
    rw [hremoved.home_old hj hu hyh]
    by_cases hjh : home c t j = home c t i
    · have hjL' : j ∈ L' := (hL' j).mpr ⟨(hchain.mem j).mpr ⟨hj, hu₀, hjh⟩, hjy⟩
      have hlinks' := hlinks.resolve_left fun hnil => absurd (hnil ▸ hjL') List.not_mem_nil
      rw [hjh]
      refine ⟨L', hremoved.chain_left hchain h.mem.1 hL' (hlinks'.congr fun q hq => ?_)⟩
      rw [nextOf, nextOf, htable q ((hL' q).mp hq).1 ((hL' q).mp hq).2]
    · obtain ⟨l', hl'⟩ := hD.chains j hj hu₀
      exact ⟨l', hremoved.chain_other hchain h.mem.1 hjh hl' hother⟩

/-! ## The three branches -/

/-- The only entry of its chain. -/
theorem removed_last (hD : Managed c t D) {i : Nat} (hchain : Chain c t D (home c t i) [i]) :
    ∃ t', addToFreeList c t i = .ok t' ∧ t'.numEntries = t.numEntries ∧ Removed c t t' D i i ∧ Managed c t' D := by
  have hi : i ∈ [i] := List.mem_cons_self ..
  exact removed_managed [] hD hchain ⟨⟨hi, hi⟩, rfl, rfl, fun _ _ => rfl, fun _ _ _ _ => ⟨rfl, rfl⟩,
    fun hne => absurd rfl hne⟩ (by simp) (Or.inl rfl)

/-- The entry of slot `j` written over that of slot `i`. -/
def pullEntry (c : Config Key Node Raw) (t : Map Node Raw) (i j : Nat) : Map Node Raw :=
  t.set i fun e => ⟨(t.table j).node, c.setKey e.raw (keyOf c t j), (t.table j).next⟩

/-- The head of its chain: the entry behind it is moved into the slot. -/
theorem removed_pulled (hD : Managed c t D) {i j : Nat} {b : List Nat}
    (hchain : Chain c t D (home c t i) (i :: j :: b)) :
    ∃ t', addToFreeList c (pullEntry c t i j) j = .ok t' ∧ t'.numEntries = t.numEntries ∧ Removed c t t' D j i ∧
      Managed c t' D := by
  have hib := (List.nodup_cons.mp hchain.links.nodup).1
  have hself : (pullEntry c t i j).table i = ⟨(t.table j).node, c.setKey (t.table i).raw (keyOf c t j),
      (t.table j).next⟩ := by rw [pullEntry, Map.table_set_self]
  have hother : ∀ q, q ≠ i → (pullEntry c t i j).table q = t.table q := fun q hq => Map.table_set_of_ne hq
  refine removed_managed (i :: b) hD hchain ⟨⟨by simp, by simp⟩, rfl, rfl, ?_, ?_, ?_⟩
    (mem_erase_iff (a := [i]) hchain.links.nodup) (Or.inr ⟨hchain.links.1, ?_⟩)
  · exact fun q hq => hother q fun heq => hq (heq ▸ List.mem_cons_self ..)
  · intro q _ _ hqi
    rw [keyOf, keyOf, hother q hqi]
    exact ⟨rfl, rfl⟩
  · intro _
    rw [keyOf, hself]
    exact ⟨c.key_setKey _ _, rfl⟩
  · rw [nextOf, hself]
    have hrest : Links (nextOf t) (t.table j).next b := hchain.links.2.2
    refine hrest.congr fun q hq => ?_
    rw [nextOf, nextOf, hother q fun heq => hib (heq ▸ List.mem_cons_of_mem _ hq)]

/-- Behind another entry of its chain, which is linked to what follows. -/
theorem removed_unlinked (hD : Managed c t D) {p i : Nat} {a b : List Nat}
    (hchain : Chain c t D (home c t i) (a ++ p :: i :: b)) :
    ∃ t', addToFreeList c (t.set p fun e => { e with next := (t.table i).next }) i = .ok t' ∧
      t'.numEntries = t.numEntries ∧ Removed c t t' D i i ∧ Managed c t' D := by
  generalize ht₁ : (t.set p fun e => { e with next := (t.table i).next }) = t₁
  have hlinks := hchain.links
  have hsplit : a ++ p :: i :: b = (a ++ [p]) ++ i :: b := by simp
  obtain ⟨-, hpb, hdisj⟩ := List.nodup_append.mp hlinks.nodup
  have hpb : p ∉ b := List.not_mem_of_not_mem_cons (List.nodup_cons.mp hpb).1
  have hother : ∀ q, q ≠ p → t₁.table q = t.table q := by
    intro q hq
    rw [← ht₁, Map.table_set_of_ne hq]
  have hsame : ∀ q, keyOf c t₁ q = keyOf c t q ∧ (t₁.table q).node = (t.table q).node := by
    intro q
    by_cases hq : q = p
    · rw [hq, keyOf, keyOf, ← ht₁, Map.table_set_self]
      exact ⟨rfl, rfl⟩
    · rw [keyOf, keyOf, hother q hq]
      exact ⟨rfl, rfl⟩
  have hmem : ∀ j, j ∈ a ++ p :: b ↔ j ∈ a ++ p :: i :: b ∧ j ≠ i := by
    intro j
    rw [hsplit, ← mem_erase_iff (hsplit ▸ hlinks.nodup) j]
    simp
  have hout : ∀ q, q ∉ a ++ p :: i :: b → t₁.table q = t.table q :=
    fun q hq => hother q fun heq => hq (heq ▸ by simp)
  have hrest : Links (nextOf t) (t.table i).next b := (hsplit ▸ hlinks).next_of_split
  have hnextp : nextOf t₁ p = (t.table i).next := by rw [nextOf, ← ht₁, Map.table_set_self]
  have hi : i ∈ a ++ p :: i :: b := by simp
  have hunlinks : Unlinks c t t₁ (a ++ p :: i :: b) i i := ⟨⟨hi, hi⟩, by rw [← ht₁]; rfl, by rw [← ht₁]; rfl, hout,
    fun q _ _ _ => hsame q, fun hne => absurd rfl hne⟩
  have hrun := removed_managed (a ++ p :: b) hD hchain hunlinks hmem (Or.inr ?_)
  · rwa [show t₁.numEntries = t.numEntries by rw [← ht₁]; rfl] at hrun
  · refine hlinks.splice ?_ ?_
    · intro q hq
      rw [nextOf, nextOf, hother q (hdisj q hq p (List.mem_cons_self ..))]
    · rw [hnextp]
      refine hrest.congr fun q hq => ?_
      rw [nextOf, nextOf, hother q fun heq => hpb (heq ▸ hq)]

/-- What `Delete` does with the slot that it found, apart from the count of entries. -/
def unlinkEntry (c : Config Key Node Raw) (t : Map Node Raw) (prevIdx : Int) (i : Nat) : Except Fault (Map Node Raw) :=
  if prevIdx ≠ -1 then do
    let t₁ ← t.modify prevIdx fun p => { p with next := (t.table i).next }
    addToFreeList c t₁ i
  else if (t.table i).next ≠ -1 then do
    let n ← t.read (t.table i).next
    let t₁ ← t.modify i fun e => ⟨n.node, c.setKey e.raw (c.key n.raw), n.next⟩
    addToFreeList c t₁ (t.table i).next
  else addToFreeList c t i

theorem unlinkEntry_spec (hD : Managed c t D) {i : Nat} {a b : List Nat}
    (hchain : Chain c t D (home c t i) (a ++ i :: b)) :
    ∃ t' y, unlinkEntry c t ((a.getLast?.map Int.ofNat).getD (-1)) i = .ok t' ∧ t'.numEntries = t.numEntries ∧
      Removed c t t' D y i ∧ Managed c t' D := by
  have hrange := hD.chain_range hchain
  have hilt : i < t.tableSize := hrange i (by simp)
  unfold unlinkEntry
  rcases List.eq_nil_or_concat a with rfl | ⟨a, p, rfl⟩
  · simp only [List.getLast?_nil, Option.map_none, Option.getD_none, ne_eq, not_true_eq_false, if_false]
    cases b with
    | nil =>
      have hnext : (t.table i).next = -1 := hchain.links.2
      rw [if_neg (fun h => h hnext)]
      obtain ⟨t', hadd, hrest⟩ := removed_last hD hchain
      exact ⟨t', i, hadd, hrest⟩
    | cons j b =>
      have hnext : (t.table i).next = j := hchain.links.2.1
      rw [if_pos (by omega), hnext, Map.read_of_lt (hrange j (by simp))]
      simp only [ok_bind]
      rw [Map.modify_of_lt hilt]
      obtain ⟨t', hadd, hrest⟩ := removed_pulled hD hchain
      exact ⟨t', j, hadd, hrest⟩
  · simp only [List.concat_eq_append, List.getLast?_concat, Option.map_some, Option.getD_some, Int.ofNat_eq_natCast]
    rw [if_pos (by omega), Map.modify_of_lt (hrange p (by simp))]
    have hsplit : a.concat p ++ i :: b = a ++ p :: i :: b := by simp
    obtain ⟨t', hadd, hrest⟩ := removed_unlinked hD (hsplit ▸ hchain)
    exact ⟨t', i, hadd, hrest⟩

/-! ## The operation -/

section

variable [DecidableEq Key] [DecidableEq Node]

/-- The search of `Delete` finds the slot of the key and the one before it, or `prevIdx`. -/
theorem deleteSearch_spec {k : Key} {i : Nat} {a b : List Nat} (hrange : ∀ j ∈ a ++ i :: b, j < t.tableSize)
    (hused : ∀ j ∈ a ++ i :: b, Used c t j) (ha : ∀ j ∈ a, keyOf c t j ≠ k) (hi : keyOf c t i = k) :
    ∀ (prevIdx : Int) {s : Int} {fuel : Nat}, a.length < fuel → Links (nextOf t) s (a ++ i :: b) →
      deleteSearch c t k fuel prevIdx s = .ok ((a.getLast?.map Int.ofNat).getD prevIdx, (i : Int)) := by
  induction a with
  | nil =>
    intro prevIdx s fuel hfuel hl
    obtain ⟨fuel, rfl⟩ : ∃ f, fuel = f + 1 := ⟨fuel - 1, by have := hfuel; omega⟩
    rw [deleteSearch, hl.1, if_neg (by omega), Map.read_of_lt (hrange i (by simp))]
    simp only [ok_bind]
    rw [if_neg fun hcond => hcond.2 hi]
    rfl
  | cons q a ih =>
    intro prevIdx s fuel hfuel hl
    obtain ⟨fuel, rfl⟩ : ∃ f, fuel = f + 1 := ⟨fuel - 1, by have := hfuel; omega⟩
    have hrest := ih (fun j hj => hrange j (List.mem_cons_of_mem _ hj))
      (fun j hj => hused j (List.mem_cons_of_mem _ hj)) (fun j hj => ha j (List.mem_cons_of_mem _ hj))
      q (show a.length < fuel by rw [List.length_cons] at hfuel; omega) hl.2
    rw [deleteSearch, hl.1, if_neg (by omega), Map.read_of_lt (hrange q (by simp))]
    simp only [ok_bind]
    rw [if_pos ⟨hused q (by simp), ha q (by simp)⟩, show (t.table q).next = nextOf t q from rfl, hrest]
    cases a with
    | nil => rfl
    | cons r a =>
      rw [List.getLast?_cons_cons]
      simp [List.getLast?_eq_some_getLast]

theorem delete_eq {k : Key} {i : Nat} {prevIdx : Int} (hlt : i < t.tableSize) (hu : Used c t i)
    (hsearch : deleteSearch c t k (t.tableSize + 1) (-1) (c.hash k t.tableSize) = .ok (prevIdx, (i : Int))) :
    delete c t k = (unlinkEntry c t prevIdx i >>= fun t' => pure { t' with numEntries := t'.numEntries - 1 }) := by
  have hnode : (t.table i).node ≠ c.notFound := hu
  unfold delete unlinkEntry
  rw [hsearch]
  simp only [ok_bind]
  rw [if_neg (by omega), Map.read_of_lt hlt]
  simp only [ok_bind]
  rw [if_neg hnode]
  split_ifs
  · exact (bind_assoc ..).symm
  · simp only [bind_assoc]
  · rfl

/-- `Delete` of a present key. -/
theorem delete_spec {m : Key → Option Node} (hD : Managed c t D) (hm : Holds c t D m) {k : Key} {n : Node}
    (hk : m k = some n) :
    ∃ t', delete c t k = .ok t' ∧ Managed c t' D ∧ Holds c t' D (Function.update m k none) ∧
      (usedIn c t' D).card + 1 = (usedIn c t D).card ∧ t'.tableSize = t.tableSize ∧
      t'.numEntries = t.numEntries - 1 := by
  obtain ⟨i, hiD, hiu, hik, -⟩ := (hm k n).mp hk
  obtain ⟨L, hchain⟩ := hD.chains i hiD hiu
  obtain ⟨a, b, rfl⟩ := List.append_of_mem ((hchain.mem i).mpr ⟨hiD, hiu, rfl⟩)
  have hhome : home c t i = c.hash k t.tableSize := by rw [home, hik]
  have hrange := hD.chain_range hchain
  have hnodup := hchain.links.nodup
  have hused : ∀ j ∈ a ++ i :: b, Used c t j := fun j hj => ((hchain.mem j).mp hj).2.1
  have ha : ∀ j ∈ a, keyOf c t j ≠ k := by
    intro j hj hjk
    have hjL : j ∈ a ++ i :: b := List.mem_append_left _ hj
    have heq := hD.inj j ((hchain.mem j).mp hjL).1 i hiD (hused j hjL) hiu (hjk.trans hik.symm)
    exact (List.nodup_append.mp hnodup).2.2 j hj i (List.mem_cons_self ..) heq
  have hlen := length_le_of_lt hnodup hrange
  have hsearch := deleteSearch_spec hrange hused ha hik (-1)
    (show a.length < t.tableSize + 1 by rw [List.length_append] at hlen; omega) hchain.links
  rw [hhome] at hsearch
  obtain ⟨t₂, y, hrun, hent, hremoved, hmanaged⟩ := unlinkEntry_spec hD hchain
  refine ⟨{ t₂ with numEntries := t₂.numEntries - 1 }, ?_, hmanaged.withEntries _, ?_, hremoved.card_used,
    hremoved.size, ?_⟩
  · rw [delete_eq (hrange i (by simp)) hiu hsearch, hrun]
    rfl
  · rw [← hik]
    exact hremoved.holds hm hD.inj
  · rw [← hent]

end

end Path64.IdMap

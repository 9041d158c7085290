import Path64.IdMap.Occupied

/-!
# `ID_MAP`: moving the pairs out of the slots that `Enlarge` will occupy

* `Content c t S k n` : a slot of `S` holds the pair;
* `transport` : slots that hold the same pairs;
* `Evacuating`, `evacuate_spec` : all pairs are moved to slots that stay unoccupied, the others become the
  free list.
-/

namespace Path64.IdMap

open Path64.Lists

variable {Key Node Raw : Type} {c : Config Key Node Raw} {t t' : Map Node Raw}

/-! ## Pairs in sets of slots -/

/-- A slot of `S` holds the pair. -/
def Content (c : Config Key Node Raw) (t : Map Node Raw) (S : Finset Nat) (k : Key) (n : Node) : Prop :=
  ∃ i ∈ S, Used c t i ∧ keyOf c t i = k ∧ (t.table i).node = n

/-- No key is in two slots of `S`. -/
def KeysDistinct (c : Config Key Node Raw) (t : Map Node Raw) (S : Finset Nat) : Prop :=
  ∀ i ∈ S, ∀ j ∈ S, Used c t i → Used c t j → keyOf c t i = keyOf c t j → i = j

theorem content_congr {S : Finset Nat} (h : ∀ j ∈ S, t'.table j = t.table j) (k : Key) (n : Node) :
    Content c t' S k n ↔ Content c t S k n := by
  constructor
  · rintro ⟨j, hj, hu, hk, hn⟩
    rw [keyOf, h j hj] at hk
    rw [h j hj] at hn
    exact ⟨j, hj, (used_congr (h j hj)).mp hu, hk, hn⟩
  · rintro ⟨j, hj, hu, hk, hn⟩
    rw [keyOf, ← h j hj] at hk
    rw [← h j hj] at hn
    exact ⟨j, hj, (used_congr (h j hj)).mpr hu, hk, hn⟩

/-- The slots `S` of `t` and `S'` of `t'` hold the same pairs. -/
structure SamePairs [DecidableEq Node] (c : Config Key Node Raw) (t : Map Node Raw) (S : Finset Nat)
    (t' : Map Node Raw) (S' : Finset Nat) : Prop where
  content : ∀ k n, Content c t' S' k n ↔ Content c t S k n
  distinct : KeysDistinct c t S → KeysDistinct c t' S'
  count : (usedIn c t' S').card = (usedIn c t S).card

/-- The function `f` shows where the pair of each slot comes from. -/
theorem transport [DecidableEq Node] {S S' : Finset Nat} (f : Nat → Nat)
    (hf : ∀ j ∈ S', Used c t' j →
      f j ∈ S ∧ Used c t (f j) ∧ keyOf c t' j = keyOf c t (f j) ∧ (t'.table j).node = (t.table (f j)).node)
    (hinj : ∀ a ∈ S', ∀ b ∈ S', Used c t' a → Used c t' b → f a = f b → a = b)
    (hsurj : ∀ o ∈ S, Used c t o → ∃ j ∈ S', Used c t' j ∧ f j = o) : SamePairs c t S t' S' := by
  refine ⟨?_, ?_, ?_⟩
  · intro k n
    constructor
    · rintro ⟨j, hj, hu, hk, hn⟩
      obtain ⟨hS, hu', hkey, hnode⟩ := hf j hj hu
      exact ⟨f j, hS, hu', hkey.symm.trans hk, hnode.symm.trans hn⟩
    · rintro ⟨o, ho, hu, hk, hn⟩
      obtain ⟨j, hj, hu', rfl⟩ := hsurj o ho hu
      obtain ⟨-, -, hkey, hnode⟩ := hf j hj hu'
      exact ⟨j, hj, hu', hkey.trans hk, hnode.trans hn⟩
  · intro hdist a ha b hb hua hub hkey
    obtain ⟨haS, hua', hka, -⟩ := hf a ha hua
    obtain ⟨hbS, hub', hkb, -⟩ := hf b hb hub
    exact hinj a ha b hb hua hub (hdist _ haS _ hbS hua' hub' (by rw [← hka, ← hkb, hkey]))
  · refine Finset.card_bij (fun j _ => f j) ?_ ?_ ?_
    · intro j hj
      rw [usedIn, Finset.mem_filter] at hj ⊢
      exact ⟨(hf j hj.1 hj.2).1, (hf j hj.1 hj.2).2.1⟩
    · intro a ha b hb heq
      rw [usedIn, Finset.mem_filter] at ha hb
      exact hinj a ha.1 b hb.1 ha.2 hb.2 heq
    · intro o ho
      rw [usedIn, Finset.mem_filter] at ho
      obtain ⟨j, hj, hu, hfj⟩ := hsurj o ho.1 ho.2
      exact ⟨j, by rw [usedIn, Finset.mem_filter]; exact ⟨hj, hu⟩, hfj⟩

/-- The pair of slot `i` was moved to the free slot `u`. -/
theorem transport_moved [DecidableEq Node] {S : Finset Nat} {u i : Nat} (hu : u ∈ S) (hi : i ∈ S)
    (hfree : ¬ Used c t u) (hused : Used c t i)
    (hsame : ∀ j ∈ S, j ≠ u → j ≠ i → keyOf c t' j = keyOf c t j ∧ (t'.table j).node = (t.table j).node)
    (hmoved : keyOf c t' u = keyOf c t i ∧ (t'.table u).node = (t.table i).node) :
    SamePairs c t S t' (S.erase i) := by
  have hne : u ≠ i := fun heq => hfree (heq ▸ hused)
  have huu : Used c t' u := by
    rw [Used, hmoved.2]
    exact hused
  refine transport (fun j => if j = u then i else j) ?_ ?_ ?_
  · intro j hj huj
    obtain ⟨hji, hjS⟩ := Finset.mem_erase.mp hj
    by_cases hju : j = u
    · rw [if_pos hju, hju]
      exact ⟨hi, hused, hmoved⟩
    · have hs := hsame j hjS hju hji
      rw [if_neg hju]
      refine ⟨hjS, ?_, hs⟩
      rw [Used, ← hs.2]
      exact huj
  · intro a ha b hb _ _ heq
    have hai := (Finset.mem_erase.mp ha).1
    have hbi := (Finset.mem_erase.mp hb).1
    split_ifs at heq with h₁ h₂ h₂
    · rw [h₁, h₂]
    · exact absurd heq.symm hbi
    · exact absurd heq hai
    · exact heq
  · intro o ho huo
    by_cases hoi : o = i
    · exact ⟨u, Finset.mem_erase.mpr ⟨hne, hu⟩, huu, by rw [if_pos rfl, hoi]⟩
    · have hou : o ≠ u := fun heq => hfree (heq ▸ huo)
      have hs := hsame o ho hou hoi
      refine ⟨o, Finset.mem_erase.mpr ⟨hoi, ho⟩, ?_, if_neg hou⟩
      rw [Used, hs.2]
      exact huo

theorem transport_same [DecidableEq Node] {S S' : Finset Nat} (hsub : S' ⊆ S)
    (hfree : ∀ i ∈ S, i ∉ S' → ¬ Used c t i) (hsame : ∀ j ∈ S', t'.table j = t.table j) :
    SamePairs c t S t' S' := by
  refine transport (fun j => j) ?_ (fun a _ b _ _ _ heq => heq) ?_
  · intro j hj hu
    refine ⟨hsub hj, (used_congr (hsame j hj)).mp hu, ?_, by rw [hsame j hj]⟩
    rw [keyOf, keyOf, hsame j hj]
  · intro o ho hu
    have hoS : o ∈ S' := by
      by_contra hnot
      exact hfree o ho hnot hu
    exact ⟨o, hoS, (used_congr (hsame o hoS)).mpr hu, rfl⟩

theorem SameData.samePairs [DecidableEq Node] (h : SameData t t') (S : Finset Nat) : SamePairs c t S t' S := by
  refine transport (fun j => j) ?_ (fun a _ b _ _ _ heq => heq) ?_
  · exact fun j hj hu => ⟨hj, (h.used j).mp hu, h.key j, h.node j⟩
  · exact fun o ho hu => ⟨o, ho, (h.used o).mpr hu, rfl⟩

/-! ## Moving all pairs to slots that stay unoccupied -/

/-- The slots that may hold a pair when the slots from `i` on have been released. -/
def pending (us : List Nat) (O : Finset Nat) (i : Nat) : Finset Nat := us.toFinset ∪ O.filter (· < i)

theorem mem_pending {us : List Nat} {O : Finset Nat} {i j : Nat} :
    j ∈ pending us O i ↔ j ∈ us ∨ j ∈ O ∧ j < i := by
  rw [pending, Finset.mem_union, List.mem_toFinset, Finset.mem_filter]

/-- The state when the pairs of the slots from `i` on have been moved and those from `f` on are in the free
list; `unocc` is the first slot of the unoccupied list that holds no pair. -/
structure Evacuating [DecidableEq Node] (c : Config Key Node Raw) (t : Map Node Raw) (O : Finset Nat)
    (us : List Nat) (head : Int) (m : Key → Option Node) (n i f : Nat) (unocc : Int) : Prop where
  part : ∀ j, j ∈ us ↔ j < t.tableSize ∧ j ∉ O
  range : ∀ j ∈ O, j < t.tableSize
  marks : ∀ j ∈ O, j < i → nextOf t j = 0
  links : Links (unoccNext t) head us
  free : ∃ l, FreeList c t l ∧ ∀ j, j ∈ l ↔ j ∈ O ∧ f ≤ j
  split : ∃ pre u post, us = pre ++ u :: post ∧ (∀ j ∈ pre, Used c t j) ∧ ¬ Used c t u ∧ unocc = (u : Nat)
  content : ∀ k v, m k = some v ↔ Content c t (pending us O i) k v
  distinct : KeysDistinct c t (pending us O i)
  count : (usedIn c t (pending us O i)).card = n
  room : n < us.length

namespace Evacuating

variable [DecidableEq Node] {O : Finset Nat} {us : List Nat} {head unocc : Int} {m : Key → Option Node}
  {n i f : Nat}

theorem next_ne_zero (h : Evacuating c t O us head m n i f unocc) {j : Nat} (hj : j ∈ us) :
    (t.table j).next ≠ 0 := by
  obtain ⟨a, b, hab⟩ := List.append_of_mem hj
  have hlinks : Links (unoccNext t) (unoccNext t j) b := (hab ▸ h.links).next_of_split
  intro hzero
  rw [unoccNext, hzero] at hlinks
  cases b with
  | nil =>
    have : (-0 - 2 : Int) = -1 := hlinks
    omega
  | cons q b =>
    have := hlinks.1
    omega

/-- Putting the slot `i` into the free list. -/
theorem release (h : Evacuating c t O us head m n i (i + 1) unocc) (hi : i ∈ O) :
    ∃ t', addToFreeList c t i = .ok t' ∧ t'.tableSize = t.tableSize ∧
      Evacuating c t' O us head m n i i unocc := by
  obtain ⟨l, hfree, hmem⟩ := h.free
  have hil : i ∉ l := fun hil => by
    have := ((hmem i).mp hil).2
    omega
  obtain ⟨t', hrun, hfree', hsame⟩ := addToFreeList_spec hfree (h.range i hi) hil
  -- the slots that hold pairs are neither `i` nor in the free list
  have hout : ∀ j, j ∈ us ∨ j ∈ O ∧ j < i → j ∉ i :: l := by
    intro j hj hjl
    rcases List.mem_cons.mp hjl with heq | hjl
    · rcases hj with hj | hj
      · exact ((h.part j).mp hj).2 (heq ▸ hi)
      · omega
    · obtain ⟨hjO, hle⟩ := (hmem j).mp hjl
      rcases hj with hj | hj
      · exact ((h.part j).mp hj).2 hjO
      · omega
  have htable : ∀ j, j ∈ us ∨ j ∈ O ∧ j < i → t'.table j = t.table j := fun j hj => hsame.table j (hout j hj)
  obtain ⟨hcontent, hdistinct, hcount⟩ : SamePairs c t (pending us O i) t' (pending us O i) :=
    transport_same (Finset.Subset.refl _) (fun j hj hnot => absurd hj hnot) fun j hj => htable j (mem_pending.mp hj)
  obtain ⟨pre, u, post, hus, hpre, hu, hunocc⟩ := h.split
  refine ⟨t', hrun, hsame.size, ?_, ?_, ?_, ?_, ⟨i :: l, hfree', ?_⟩, ⟨pre, u, post, hus, ?_, ?_, hunocc⟩, ?_,
    hdistinct h.distinct, hcount.trans h.count, h.room⟩
  · intro j
    rw [hsame.size]
    exact h.part j
  · intro j hj
    rw [hsame.size]
    exact h.range j hj
  · intro j hj hji
    rw [nextOf, htable j (Or.inr ⟨hj, hji⟩)]
    exact h.marks j hj hji
  · exact h.links.congr fun j hj => by rw [unoccNext, unoccNext, htable j (Or.inl hj)]
  · intro j
    rw [List.mem_cons, hmem j]
    constructor
    · rintro (rfl | ⟨hj, hle⟩)
      · exact ⟨hi, le_rfl⟩
      · exact ⟨hj, by omega⟩
    · rintro ⟨hj, hle⟩
      by_cases hji : j = i
      · exact Or.inl hji
      · exact Or.inr ⟨hj, by omega⟩
  · intro j hj
    exact (used_congr (htable j (Or.inl (by rw [hus]; exact List.mem_append_left _ hj)))).mpr (hpre j hj)
  · exact fun hu' => hu ((used_congr (htable u (Or.inl (by rw [hus]; simp)))).mp hu')
  · intro k v
    rw [h.content k v, hcontent k v]

theorem skip (h : Evacuating c t O us head m n (i + 1) (i + 1) unocc) (hi : i ∉ O) :
    Evacuating c t O us head m n i i unocc := by
  have hpend : pending us O (i + 1) = pending us O i := by
    ext j
    rw [mem_pending, mem_pending]
    constructor
    · rintro (hj | ⟨hj, hlt⟩)
      · exact Or.inl hj
      · have hji : j ≠ i := fun heq => hi (heq ▸ hj)
        exact Or.inr ⟨hj, by omega⟩
    · rintro (hj | ⟨hj, hlt⟩)
      · exact Or.inl hj
      · exact Or.inr ⟨hj, by omega⟩
  obtain ⟨l, hfree, hmem⟩ := h.free
  refine ⟨h.part, h.range, fun j hj hji => h.marks j hj (by omega), h.links, ⟨l, hfree, ?_⟩, h.split,
    hpend ▸ h.content, hpend ▸ h.distinct, hpend ▸ h.count, h.room⟩
  intro j
  rw [hmem j]
  constructor
  · rintro ⟨hj, hle⟩
    exact ⟨hj, by omega⟩
  · rintro ⟨hj, hle⟩
    have hji : j ≠ i := fun heq => hi (heq ▸ hj)
    exact ⟨hj, by omega⟩

theorem pending_erase (h : Evacuating c t O us head m n (i + 1) f unocc) (hi : i ∈ O) :
    (pending us O (i + 1)).erase i = pending us O i := by
  ext j
  rw [Finset.mem_erase, mem_pending, mem_pending]
  constructor
  · rintro ⟨hne, hj | ⟨hj, hlt⟩⟩
    · exact Or.inl hj
    · exact Or.inr ⟨hj, by omega⟩
  · rintro (hj | ⟨hj, hlt⟩)
    · exact ⟨fun heq => ((h.part j).mp hj).2 (heq ▸ hi), Or.inl hj⟩
    · exact ⟨by omega, Or.inr ⟨hj, by omega⟩⟩

theorem empty (h : Evacuating c t O us head m n (i + 1) (i + 1) unocc) (hi : i ∈ O) (hu : ¬ Used c t i) :
    Evacuating c t O us head m n i (i + 1) unocc := by
  have hpend := h.pending_erase hi
  obtain ⟨hcontent, hdistinct, hcount⟩ : SamePairs c t (pending us O (i + 1)) t (pending us O i) := by
    refine transport_same (hpend ▸ Finset.erase_subset i _) ?_ fun _ _ => rfl
    intro j hj hnot
    by_cases hji : j = i
    · rw [hji]
      exact hu
    · exact absurd (hpend ▸ Finset.mem_erase.mpr ⟨hji, hj⟩) hnot
  refine ⟨h.part, h.range, fun j hj hji => h.marks j hj (by omega), h.links, h.free, h.split, ?_,
    hdistinct h.distinct, hcount.trans h.count, h.room⟩
  intro k v
  rw [h.content k v, hcontent k v]

/-- A pair is moved to the first free slot of the unoccupied list, behind which another free one follows. -/
theorem move (h : Evacuating c t O us head m n (i + 1) (i + 1) unocc) (hi : i ∈ O) (hu : Used c t i) :
    ∃ u : Nat, unocc = u ∧ u < t.tableSize ∧ ∃ unocc',
      let t₁ := t.set u fun e => { e with node := (t.table i).node, raw := c.setKey e.raw (keyOf c t i) }
      skipFull c t₁ (t.tableSize + 1) (unoccNext t₁ u) = .ok unocc' ∧
        Evacuating c t₁ O us head m n i (i + 1) unocc' := by
  obtain ⟨pre, u, post, hus, hpre, hfu, hunocc⟩ := h.split
  have huus : u ∈ us := by
    rw [hus]
    simp
  obtain ⟨hult, huO⟩ := (h.part u).mp huus
  have hiu : i ≠ u := fun heq => huO (heq ▸ hi)
  have hnodup := h.links.nodup
  refine ⟨u, hunocc, hult, ?_⟩
  generalize ht₁ : t.set u (fun e => { e with node := (t.table i).node, raw := c.setKey e.raw (keyOf c t i) }) = t₁
  have hself : t₁.table u = ⟨(t.table i).node, c.setKey (t.table u).raw (keyOf c t i), (t.table u).next⟩ := by
    rw [← ht₁, Map.table_set_self]
  have hother : ∀ j, j ≠ u → t₁.table j = t.table j := by
    intro j hj
    rw [← ht₁, Map.table_set_of_ne hj]
  have hsize : t₁.tableSize = t.tableSize := by
    rw [← ht₁]
    rfl
  have hnext : ∀ j, (t₁.table j).next = (t.table j).next := by
    intro j
    by_cases hj : j = u
    · rw [hj, hself]
    · rw [hother j hj]
  have hpend := h.pending_erase hi
  obtain ⟨hcontent, hdistinct, hcount⟩ : SamePairs c t (pending us O (i + 1)) t₁ (pending us O i) := by
    rw [← hpend]
    refine transport_moved (mem_pending.mpr (Or.inl huus)) (mem_pending.mpr (Or.inr ⟨hi, Nat.lt_succ_self i⟩))
      hfu hu ?_ ?_
    · intro j _ hju _
      rw [keyOf, keyOf, hother j hju]
      exact ⟨rfl, rfl⟩
    · rw [keyOf, hself]
      exact ⟨c.key_setKey _ _, rfl⟩
  have hlinks : Links (unoccNext t₁) head us :=
    h.links.congr fun j _ => by rw [unoccNext, unoccNext, hnext j]
  have hpre₁ : ∀ j ∈ pre ++ [u], Used c t₁ j := by
    intro j hj
    by_cases hju : j = u
    · rw [Used, hju, hself]
      exact hu
    · have hjpre : j ∈ pre := by
        rcases List.mem_append.mp hj with hj | hj
        · exact hj
        · exact absurd (List.mem_singleton.mp hj) hju
      exact (used_congr (hother j hju)).mpr (hpre j hjpre)
  -- the list is longer than the number of pairs
  have hexists : ∃ j ∈ post, ¬ Used c t₁ j := by
    by_contra hnone
    push Not at hnone
    have hall : us.toFinset ⊆ usedIn c t₁ (pending us O i) := by
      intro j hj
      have hjus := List.mem_toFinset.mp hj
      rw [usedIn, Finset.mem_filter, mem_pending]
      refine ⟨Or.inl hjus, ?_⟩
      rw [hus] at hjus
      rcases List.mem_append.mp hjus with hjpre | hjus
      · exact hpre₁ j (List.mem_append_left _ hjpre)
      · rcases List.mem_cons.mp hjus with heq | hjpost
        · exact hpre₁ j (by rw [heq]; simp)
        · exact hnone j hjpost
    have hle := Finset.card_le_card hall
    rw [List.toFinset_card_of_nodup hnodup, hcount, h.count] at hle
    have := h.room
    omega
  have hrange : ∀ j ∈ us, j < t₁.tableSize := by
    intro j hj
    rw [hsize]
    exact ((h.part j).mp hj).1
  have hlinks' : Links (unoccNext t₁) (unoccNext t₁ u) post := (hus ▸ hlinks).next_of_split
  have hlen := length_le_of_lt hnodup fun j hj => ((h.part j).mp hj).1
  have hlen' : post.length < t.tableSize + 1 := by
    rw [hus, List.length_append, List.length_cons] at hlen
    omega
  obtain ⟨pre', u', post', hpost, hpre', hu', hskip⟩ := skipFull_spec
    (fun j hj => hrange j (by rw [hus]; exact List.mem_append_right _ (List.mem_cons_of_mem _ hj)))
    hexists hlen' hlinks'
  refine ⟨u', hskip, ?_⟩
  obtain ⟨l, hfree, hmem⟩ := h.free
  refine ⟨?_, ?_, ?_, hlinks, ⟨l, ?_, hmem⟩, ⟨pre ++ u :: pre', u', post', ?_, ?_, hu', rfl⟩, ?_,
    hdistinct h.distinct, hcount.trans h.count, h.room⟩
  · intro j
    rw [hsize]
    exact h.part j
  · intro j hj
    rw [hsize]
    exact h.range j hj
  · intro j hj hji
    rw [nextOf, hnext j]
    exact h.marks j hj (by omega)
  · refine hfree.congr hsize (by rw [← ht₁]; rfl) fun j hj => hother j ?_
    rintro rfl
    exact huO ((hmem j).mp hj).1
  · rw [hus, hpost]
    simp
  · intro j hj
    rcases List.mem_append.mp hj with hj | hj
    · exact hpre₁ j (List.mem_append_left _ hj)
    · rcases List.mem_cons.mp hj with heq | hj
      · exact hpre₁ j (by rw [heq]; simp)
      · exact hpre' j hj
  · intro k v
    rw [h.content k v, hcontent k v]

end Evacuating

/-- All pairs are in the unoccupied list, and the free list are the slots to be occupied. -/
theorem evacuate_spec [DecidableEq Node] {O : Finset Nat} {us : List Nat} {head : Int} {m : Key → Option Node}
    {n : Nat} : ∀ (i : Nat) {t : Map Node Raw} {unocc : Int}, i ≤ t.tableSize →
      Evacuating c t O us head m n i i unocc →
      ∃ t' unocc', evacuate c t i unocc = .ok t' ∧ t'.tableSize = t.tableSize ∧
        Evacuating c t' O us head m n 0 0 unocc' := by
  intro i
  induction i with
  | zero => exact fun _ h => ⟨_, _, rfl, rfl, h⟩
  | succ i ih =>
    intro t unocc hi h
    have hlt : i < t.tableSize := hi
    rw [evacuate, Map.read_of_lt hlt]
    simp only [ok_bind]
    by_cases hO : i ∈ O
    · have hzero : (t.table i).next = 0 := h.marks i hO (Nat.lt_succ_self i)
      rw [if_pos hzero]
      by_cases hu : Used c t i
      · obtain ⟨u, rfl, hult, unocc', hskip, hmoved⟩ := h.move hO hu
        obtain ⟨t₂, hrun, hsize, hrel⟩ := hmoved.release hO
        rw [if_pos (show (t.table i).node ≠ c.notFound from hu), if_neg (by omega), Map.modify_of_lt hult]
        simp only [ok_bind]
        rw [Map.read_set_of_lt hult]
        simp only [ok_bind]
        erw [hskip]
        simp only [ok_bind]
        erw [hrun]
        simp only [ok_bind]
        obtain ⟨t', unocc'', hrest, hsize', hdone⟩ := ih (by rw [hsize]; exact Nat.le_of_lt hlt) hrel
        exact ⟨t', unocc'', hrest, hsize'.trans hsize, hdone⟩
      · obtain ⟨t₂, hrun, hsize, hrel⟩ := (h.empty hO hu).release hO
        rw [if_neg (show ¬ (t.table i).node ≠ c.notFound from hu), hrun]
        simp only [ok_bind]
        obtain ⟨t', unocc', hrest, hsize', hdone⟩ := ih (by rw [hsize]; exact Nat.le_of_lt hlt) hrel
        exact ⟨t', unocc', hrest, hsize'.trans hsize, hdone⟩
    · have hus : i ∈ us := (h.part i).mpr ⟨hlt, hO⟩
      rw [if_neg (h.next_ne_zero hus)]
      exact ih (by omega) (h.skip hO)

end Path64.IdMap

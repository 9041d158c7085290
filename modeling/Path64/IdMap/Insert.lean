import Path64.IdMap.Invariant

/-!
# `ID_MAP`: insertion

* `Added c t t' D x i k n` : what an insertion does to the entries of `D`: they keep their keys and nodes,
  the one in slot `i` may have moved to the free slot `x`, and slot `i` holds the new entry;
* `insertAt_free`, `insertAt_home`, `insertAt_squatter` : the slot of the hash value is free, holds an entry
  of that hash value, or an entry of another one;
* `insertAt_spec` : the table stays a hash table and holds the map with the new entry.
-/

namespace Path64.IdMap

open Path64.Lists

variable {Key Node Raw : Type} {c : Config Key Node Raw} {t t' : Map Node Raw} {D : Finset Nat}

/-- What an insertion into slot `idx` does when slot `x` was free before: the entries other than that of
`idx` are left alone, that of `idx` (if any) is now in `x`, and `idx` holds the new one. -/
structure Added (c : Config Key Node Raw) (t t' : Map Node Raw) (D : Finset Nat) (x idx : Nat) (k : Key)
    (n : Node) : Prop where
  size : t'.tableSize = t.tableSize
  mem : x ∈ D ∧ idx ∈ D
  fresh : ¬ Used c t x
  same : ∀ j ∈ D, j ≠ idx → Used c t j → keyOf c t' j = keyOf c t j ∧ (t'.table j).node = (t.table j).node
  moved : Used c t idx → keyOf c t' x = keyOf c t idx ∧ (t'.table x).node = (t.table idx).node
  key : keyOf c t' idx = k
  node : (t'.table idx).node = n
  used : ∀ j ∈ D, Used c t' j ↔ Used c t j ∨ j = x
  home : x = idx ∨ Used c t idx

namespace Added

variable {x idx : Nat} {k : Key} {n : Node} {m : Key → Option Node}

theorem exists_slot (h : Added c t t' D x idx k n) {j : Nat} (hj : j ∈ D) (hu : Used c t j) :
    ∃ i ∈ D, i ≠ idx ∧ Used c t' i ∧ keyOf c t' i = keyOf c t j ∧ (t'.table i).node = (t.table j).node := by
  by_cases heq : j = idx
  · subst heq
    have hx : x ≠ j := by
      rintro rfl
      exact h.fresh hu
    exact ⟨x, h.mem.1, hx, (h.used x h.mem.1).mpr (Or.inr rfl), h.moved hu⟩
  · exact ⟨j, hj, heq, (h.used j hj).mpr (Or.inl hu), h.same j hj heq hu⟩

theorem exists_old (h : Added c t t' D x idx k n) {i : Nat} (hi : i ∈ D) (hne : i ≠ idx) (hu : Used c t' i) :
    ∃ j ∈ D, Used c t j ∧ keyOf c t' i = keyOf c t j ∧ (t'.table i).node = (t.table j).node ∧
      j = if i = x then idx else i := by
  rcases (h.used i hi).mp hu with hold | heq
  · refine ⟨i, hi, hold, ?_⟩
    have hx : i ≠ x := by
      rintro rfl
      exact h.fresh hold
    rw [if_neg hx]
    exact ⟨(h.same i hi hne hold).1, (h.same i hi hne hold).2, rfl⟩
  · subst heq
    have hidx := h.home.resolve_left hne
    rw [if_pos rfl]
    exact ⟨idx, h.mem.2, hidx, (h.moved hidx).1, (h.moved hidx).2, rfl⟩

theorem holds [DecidableEq Key] (h : Added c t t' D x idx k n) (hm : Holds c t D m) (hk : m k = none)
    (hn : n ≠ c.notFound) : Holds c t' D (Function.update m k (some n)) := by
  have hnew : Used c t' idx := by
    rw [Used, h.node]
    exact hn
  intro k' n'
  by_cases hkk : k' = k
  · subst hkk
    rw [Function.update_self]
    constructor
    · intro heq
      obtain rfl := Option.some.inj heq
      exact ⟨idx, h.mem.2, hnew, h.key, h.node⟩
    · rintro ⟨i, hi, hu, hik, hin⟩
      by_cases hne : i = idx
      · rw [← hin, hne, h.node]
      · obtain ⟨j, hj, huj, hkey, -⟩ := h.exists_old hi hne hu
        have := (hm k' (t.table j).node).mpr ⟨j, hj, huj, hkey ▸ hik, rfl⟩
        rw [hk] at this
        cases this
  · rw [Function.update_of_ne hkk, hm k' n']
    constructor
    · rintro ⟨j, hj, huj, hjk, hjn⟩
      obtain ⟨i, hi, -, hu, hkey, hnode⟩ := h.exists_slot hj huj
      exact ⟨i, hi, hu, hkey.trans hjk, hnode.trans hjn⟩
    · rintro ⟨i, hi, hu, hik, hin⟩
      have hne : i ≠ idx := by
        rintro rfl
        exact hkk (hik.symm.trans h.key)
      obtain ⟨j, hj, huj, hkey, hnode, -⟩ := h.exists_old hi hne hu
      exact ⟨j, hj, huj, hkey.symm.trans hik, hnode.symm.trans hin⟩

theorem inj (h : Added c t t' D x idx k n) (hm : Holds c t D m) (hk : m k = none)
    (hinj : ∀ i ∈ D, ∀ j ∈ D, Used c t i → Used c t j → keyOf c t i = keyOf c t j → i = j) :
    ∀ i ∈ D, ∀ j ∈ D, Used c t' i → Used c t' j → keyOf c t' i = keyOf c t' j → i = j := by
  have hnew : ∀ i ∈ D, i ≠ idx → Used c t' i → keyOf c t' i ≠ k := by
    intro i hi hne hu hik
    obtain ⟨j, hj, huj, hkey, -⟩ := h.exists_old hi hne hu
    have := (hm k (t.table j).node).mpr ⟨j, hj, huj, hkey ▸ hik, rfl⟩
    rw [hk] at this
    cases this
  intro i hi j hj hui huj hkey
  by_cases hi' : i = idx
  · by_cases hj' : j = idx
    · rw [hi', hj']
    · rw [hi', h.key] at hkey
      exact absurd hkey.symm (hnew j hj hj' huj)
  · by_cases hj' : j = idx
    · rw [hj', h.key] at hkey
      exact absurd hkey (hnew i hi hi' hui)
    · obtain ⟨i', hi'D, hui', hki', -, hei⟩ := h.exists_old hi hi' hui
      obtain ⟨j', hj'D, huj', hkj', -, hej⟩ := h.exists_old hj hj' huj
      have hij := hinj i' hi'D j' hj'D hui' huj' (by rw [← hki', ← hkj', hkey])
      rw [hei, hej] at hij
      split_ifs at hij with h₁ h₂ h₂
      · rw [h₁, h₂]
      · exact absurd hij.symm hj'
      · exact absurd hij hi'
      · exact hij

theorem card_used [DecidableEq Node] (h : Added c t t' D x idx k n) :
    (usedIn c t' D).card = (usedIn c t D).card + 1 := by
  have heq : usedIn c t' D = Insert.insert x (usedIn c t D) := by
    ext j
    simp only [usedIn, Finset.mem_filter, Finset.mem_insert]
    constructor
    · rintro ⟨hj, hu⟩
      rcases (h.used j hj).mp hu with hu | hx
      · exact Or.inr ⟨hj, hu⟩
      · exact Or.inl hx
    · rintro (rfl | ⟨hj, hu⟩)
      · exact ⟨h.mem.1, (h.used j h.mem.1).mpr (Or.inr rfl)⟩
      · exact ⟨hj, (h.used j hj).mpr (Or.inl hu)⟩
  rw [heq, Finset.card_insert_of_notMem]
  intro hx
  exact h.fresh (Finset.mem_filter.mp hx).2

theorem mem_free (h : Added c t t' D x idx k n) {l l' : List Nat} (hmem : ∀ j, j ∈ l ↔ j ∈ D ∧ ¬ Used c t j)
    (hmem' : ∀ j, j ∈ l' ↔ j ∈ l ∧ j ≠ x) : ∀ j, j ∈ l' ↔ j ∈ D ∧ ¬ Used c t' j := by
  intro j
  rw [hmem' j, hmem j]
  constructor
  · rintro ⟨⟨hj, hnot⟩, hne⟩
    refine ⟨hj, fun hu => ?_⟩
    exact ((h.used j hj).mp hu).elim hnot hne
  · rintro ⟨hj, hnot⟩
    exact ⟨⟨hj, fun hu => hnot ((h.used j hj).mpr (Or.inl hu))⟩,
      fun heq => hnot ((h.used j hj).mpr (Or.inr heq))⟩

theorem home_new (h : Added c t t' D x idx k n) (hidx : c.hash k t.tableSize = idx) :
    IdMap.home c t' idx = idx := by
  rw [IdMap.home, h.key, h.size, hidx]

theorem home_same (h : Added c t t' D x idx k n) {j : Nat} (hj : j ∈ D) (hne : j ≠ idx) (hu : Used c t j) :
    IdMap.home c t' j = IdMap.home c t j := by
  rw [IdMap.home, IdMap.home, (h.same j hj hne hu).1, h.size]

theorem home_moved (h : Added c t t' D x idx k n) (hu : Used c t idx) :
    IdMap.home c t' x = IdMap.home c t idx := by
  rw [IdMap.home, IdMap.home, (h.moved hu).1, h.size]

/-- The chains of other hash values than those of the new and of the displaced entry are as before. -/
theorem chain_other (h : Added c t t' D x idx k n) (hD : Managed c t D) (hidx : c.hash k t.tableSize = idx)
    {i : Nat} (hi : i ∈ D) (hu : Used c t' i) (hne : IdMap.home c t' i ≠ idx)
    (hne' : Used c t idx → IdMap.home c t' i ≠ IdMap.home c t idx)
    (hsame : ∀ j ∈ D, j ≠ idx → Used c t j → IdMap.home c t j = IdMap.home c t' i → t'.table j = t.table j) :
    ∃ l, Chain c t' D (IdMap.home c t' i) l := by
  have hii : i ≠ idx := by
    rintro rfl
    exact hne (h.home_new hidx)
  obtain ⟨j, hj, huj, hkey, -, -⟩ := h.exists_old hi hii hu
  have hhome : IdMap.home c t j = IdMap.home c t' i := by rw [IdMap.home, IdMap.home, ← hkey, h.size]
  obtain ⟨l, hl⟩ := hD.chains j hj huj
  rw [hhome] at hl
  have hold : ∀ j, Used c t j → IdMap.home c t j = IdMap.home c t' i → j ≠ idx := by
    rintro j huj hj rfl
    exact hne' huj hj.symm
  refine ⟨l, hl.congr ?_ ?_⟩
  · intro j' hj'
    obtain ⟨hjD, huj', hhj'⟩ := (hl.mem j').mp hj'
    exact hsame j' hjD (hold j' huj' hhj') huj' hhj'
  · intro j' hj'
    constructor
    · rintro ⟨hu', hh'⟩
      have hji : j' ≠ idx := by
        rintro rfl
        exact hne (hh'.symm.trans (h.home_new hidx))
      rcases (h.used j' hj').mp hu' with hu₀ | rfl
      · exact ⟨hu₀, (h.home_same hj' hji hu₀).symm.trans hh'⟩
      · have hidxu := h.home.resolve_left hji
        exact absurd (hh'.symm.trans (h.home_moved hidxu)) (hne' hidxu)
    · rintro ⟨hu₀, hh⟩
      exact ⟨(h.used j' hj').mpr (Or.inl hu₀), (h.home_same hj' (hold j' hu₀ hh) hu₀).trans hh⟩

theorem mem_home (h : Added c t t' D x idx k n) (hidx : c.hash k t.tableSize = idx) (hn : n ≠ c.notFound)
    (hu : Used c t idx) {l : List Nat} (hl : Chain c t D (IdMap.home c t idx) l) (j : Nat) :
    (j ∈ D ∧ Used c t' j ∧ IdMap.home c t' j = IdMap.home c t idx) ↔
      (j = idx ∧ IdMap.home c t idx = idx) ∨ j = x ∨ (j ∈ l ∧ j ≠ idx) := by
  constructor
  · rintro ⟨hj, hu', hh⟩
    by_cases hji : j = idx
    · subst hji
      rw [h.home_new hidx] at hh
      exact Or.inl ⟨rfl, hh.symm⟩
    · rcases (h.used j hj).mp hu' with hu₀ | hx
      · rw [h.home_same hj hji hu₀] at hh
        exact Or.inr (Or.inr ⟨(hl.mem j).mpr ⟨hj, hu₀, hh⟩, hji⟩)
      · exact Or.inr (Or.inl hx)
  · rintro (⟨rfl, hh⟩ | rfl | ⟨hj, hji⟩)
    · refine ⟨h.mem.2, ?_, ?_⟩
      · rw [Used, h.node]
        exact hn
      · rw [h.home_new hidx, hh]
    · exact ⟨h.mem.1, (h.used j h.mem.1).mpr (Or.inr rfl), h.home_moved hu⟩
    · obtain ⟨hjD, hu₀, hh⟩ := (hl.mem j).mp hj
      exact ⟨hjD, (h.used j hjD).mpr (Or.inl hu₀), (h.home_same hjD hji hu₀).trans hh⟩

theorem chain_new (h : Added c t t' D x idx k n) (hD : Managed c t D) (hidx : c.hash k t.tableSize = idx)
    (hn : n ≠ c.notFound) (hnext : (t'.table idx).next = -1)
    (hno : Used c t idx → IdMap.home c t idx ≠ idx) : Chain c t' D idx [idx] := by
  refine ⟨⟨rfl, hnext⟩, ?_⟩
  intro j
  rw [List.mem_singleton]
  constructor
  · rintro rfl
    exact ⟨h.mem.2, by rw [Used, h.node]; exact hn, h.home_new hidx⟩
  · rintro ⟨hj, hu, hh⟩
    by_contra hne
    obtain ⟨j₀, hj₀, hu₀, hkey, -, -⟩ := h.exists_old hj hne hu
    have hh₀ : IdMap.home c t j₀ = idx := by rw [← hh, IdMap.home, IdMap.home, ← hkey, h.size]
    have hhome := hD.home_used hj₀ hu₀
    rw [hh₀] at hhome
    exact hno hhome.2.1 hhome.2.2

end Added

/-! ## The three cases -/

section

variable [DecidableEq Node] {k : Key} {n : Node}

/-- The slot of the hash value is free. -/
theorem insertAt_free (hD : Managed c t D) (hidx : c.hash k t.tableSize ∈ D)
    (hn : n ≠ c.notFound) (hu : ¬ Used c t (c.hash k t.tableSize)) :
    ∃ t', insertAt c t k n = .ok t' ∧ t'.numEntries = t.numEntries + 1 ∧
      (∀ j, j ∉ D → t'.table j = t.table j) ∧
      Added c t t' D (c.hash k t.tableSize) (c.hash k t.tableSize) k n ∧
      (∃ l, FreeList c t' l ∧ ∀ j, j ∈ l ↔ j ∈ D ∧ ¬ Used c t' j) ∧
      ∀ i ∈ D, Used c t' i → ∃ l, Chain c t' D (home c t' i) l := by
  generalize hx : c.hash k t.tableSize = idx at hidx hu
  have hlt : idx < t.tableSize := hD.range idx hidx
  obtain ⟨l, hfree, hmem⟩ := hD.free
  have hil : idx ∈ l := (hmem idx).mpr ⟨hidx, hu⟩
  obtain ⟨t₁, l', hrun, hfree₁, hsame₁, hmem₁⟩ := removeFromFreeList_spec hfree hil
  have hlt₁ : idx < t₁.tableSize := by
    rw [hsame₁.size]
    exact hlt
  have hrun' : insertAt c t k n = .ok { (t₁.set idx fun e => { e with next := -1 }).set idx
      fun e => { e with node := n, raw := c.setKey e.raw k } with numEntries := t₁.numEntries + 1 } := by
    unfold insertAt
    dsimp only
    rw [hx, Map.read_of_lt hlt]
    simp only [ok_bind]
    rw [if_neg (not_not.mpr (not_not.mp hu)), hrun]
    simp only [ok_bind]
    rw [Map.modify_of_lt hlt₁]
    simp only [ok_bind]
    rw [Map.modify_set_of_lt hlt₁]
    rfl
  refine ⟨_, hrun', ?_, ?_, ?_⟩
  · rw [hsame₁.entries]
  · intro j hj
    have hjl : j ∉ l := fun hjl => hj ((hmem j).mp hjl).1
    have hji : j ≠ idx := fun heq => hj (heq ▸ hidx)
    simp only [Map.table_set_of_ne hji]
    exact hsame₁.table j hjl
  generalize ht' : ({ (t₁.set idx fun e => { e with next := -1 }).set idx
      fun e => { e with node := n, raw := c.setKey e.raw k } with numEntries := t₁.numEntries + 1 } :
        Map Node Raw) = t'
  have hsize : t'.tableSize = t.tableSize := by
    rw [← ht']
    exact hsame₁.size
  have hself : t'.table idx = ⟨n, c.setKey (t₁.table idx).raw k, -1⟩ := by
    rw [← ht']
    simp only [Map.table_set_self]
  have hother : ∀ j, j ≠ idx → t'.table j = t₁.table j := by
    intro j hj
    rw [← ht']
    simp only [Map.table_set_of_ne hj]
  have hold : ∀ j ∈ D, Used c t j → t'.table j = t.table j := by
    intro j hj huj
    have hjl : j ∉ l := fun hjl => ((hmem j).mp hjl).2 huj
    rw [hother j (fun heq => hjl (heq ▸ hil)), hsame₁.table j hjl]
  have hfree' : FreeList c t' l' := by
    refine hfree₁.congr (hsize.trans hsame₁.size.symm) (by rw [← ht']; rfl) ?_
    exact fun j hj => hother j ((hmem₁ j).mp hj).2
  have hadded : Added c t t' D idx idx k n := by
    refine ⟨hsize, ⟨hidx, hidx⟩, hu, ?_, fun hu' => absurd hu' hu, ?_, ?_, ?_, Or.inl rfl⟩
    · intro j hj _ huj
      rw [keyOf, keyOf, hold j hj huj]
      exact ⟨rfl, rfl⟩
    · rw [keyOf, hself]
      exact c.key_setKey _ _
    · rw [hself]
    · intro j hj
      constructor
      · intro huj
        by_cases heq : j = idx
        · exact Or.inr heq
        · left
          by_contra hnot
          exact huj (hfree'.free j ((hmem₁ j).mpr ⟨(hmem j).mpr ⟨hj, hnot⟩, heq⟩))
      · rintro (huj | rfl)
        · exact (used_congr (hold j hj huj)).mpr huj
        · rw [Used, hself]
          exact hn
  refine ⟨hadded, ⟨l', hfree', hadded.mem_free hmem hmem₁⟩, ?_⟩
  · intro i hi hui
    by_cases hhome : home c t' i = idx
    · rw [hhome]
      exact ⟨_, hadded.chain_new hD hx hn (by rw [hself]) (fun h => absurd h hu)⟩
    · exact hadded.chain_other hD hx hi hui hhome (fun h => absurd h hu) fun j hj _ huj _ => hold j hj huj

/-- The table after the entry of slot `idx` was copied to the slot `x` and linked to behind `p`, and the new
entry was written to `idx`. -/
structure Displaced (c : Config Key Node Raw) (t t' : Map Node Raw) (idx x y : Nat) (k : Key) (n : Node) :
    Prop where
  size : t'.tableSize = t.tableSize
  entries : t'.numEntries = t.numEntries + 1
  head : t'.freeList = y
  slot : keyOf c t' x = keyOf c t idx ∧ (t'.table x).node = (t.table idx).node ∧ nextOf t' x = nextOf t idx
  key : keyOf c t' idx = k
  node : (t'.table idx).node = n
  same : ∀ j, j ≠ x → j ≠ idx → (t'.table j).node = (t.table j).node ∧ (t'.table j).raw = (t.table j).raw

omit [DecidableEq Node] in
theorem Displaced.added {idx x y : Nat} (h : Displaced c t t' idx x y k n) (hidx : idx ∈ D) (hx : x ∈ D)
    (hu : Used c t idx) (hxu : ¬ Used c t x) (hn : n ≠ c.notFound) : Added c t t' D x idx k n := by
  have hne : ∀ j, Used c t j → j ≠ x := by
    rintro j hj rfl
    exact hxu hj
  refine ⟨h.size, ⟨hx, hidx⟩, hxu, ?_, fun _ => ⟨h.slot.1, h.slot.2.1⟩, h.key, h.node, ?_, Or.inr hu⟩
  · intro j _ hji huj
    have hsame := h.same j (hne j huj) hji
    exact ⟨by rw [keyOf, keyOf, hsame.2], hsame.1⟩
  · intro j _
    by_cases hjx : j = x
    · subst hjx
      refine ⟨fun _ => Or.inr rfl, fun _ => ?_⟩
      rw [Used, h.slot.2.1]
      exact hu
    · by_cases hji : j = idx
      · subst hji
        refine ⟨fun _ => Or.inl hu, fun _ => ?_⟩
        rw [Used, h.node]
        exact hn
      · rw [Used, (h.same j hjx hji).1]
        exact ⟨Or.inl, fun hor => hor.resolve_right hjx⟩

theorem Displaced.freeList {idx x y : Nat} {l : List Nat} (h : Displaced c t t' idx x y k n)
    (hfree : FreeList c t (x :: y :: l)) (hsame : ∀ j ∈ y :: l, t'.table j = t.table j) :
    FreeList c t' (y :: l) :=
  (allocFromFreeList_spec hfree).2.congr h.size h.head hsame

/-- The last assignments of `Insert`. -/
def finishInsert (c : Config Key Node Raw) (t : Map Node Raw) (idx : Nat) (k : Key) (n : Node) : Map Node Raw :=
  { t.set idx fun e => { e with node := n, raw := c.setKey e.raw k } with numEntries := t.numEntries + 1 }

theorem insertAt_of_displace {t₁ : Map Node Raw} {idx : Nat} (hk : c.hash k t.tableSize = idx)
    (hlt : idx < t.tableSize) (hu : Used c t idx) (hrun : displace c t idx = .ok t₁)
    (hsize : t₁.tableSize = t.tableSize) : insertAt c t k n = .ok (finishInsert c t₁ idx k n) := by
  have hnode : (t.table idx).node ≠ c.notFound := hu
  unfold insertAt
  dsimp only
  rw [hk, Map.read_of_lt hlt]
  simp only [ok_bind]
  rw [if_pos hnode, hrun]
  simp only [ok_bind]
  rw [Map.modify_of_lt (hsize ▸ hlt)]
  rfl

/-- The entry of slot `idx` written to the head of the free list. -/
def copyEntry (c : Config Key Node Raw) (t : Map Node Raw) (idx x y : Nat) : Map Node Raw :=
  ({ t with freeList := (y : Int) } : Map Node Raw).set x fun d =>
    ⟨(t.table idx).node, c.setKey d.raw (keyOf c t idx), (t.table idx).next⟩

theorem displace_eq {idx x y : Nat} {l : List Nat} (hfree : FreeList c t (x :: y :: l)) (hlt : idx < t.tableSize) :
    displace c t idx =
      if (idx : Int) = (home c t idx : Nat) then
        (copyEntry c t idx x y).modify idx fun e => { e with next := (x : Int) }
      else (do
        let t₁ ← (copyEntry c t idx x y).modify idx fun e => { e with next := -1 }
        let tempIdx ← findLink t₁ idx (t₁.tableSize + 1) (home c t idx : Nat)
        if tempIdx = -1 then throw .assertion
        else t₁.modify tempIdx fun e => { e with next := (x : Int) }) := by
  have hxlt : x < t.tableSize := hfree.range x (List.mem_cons_self ..)
  unfold displace
  rw [(allocFromFreeList_spec hfree).1]
  simp only [ok_bind]
  rw [Map.read_of_lt (t := { t with freeList := (y : Int) }) hlt]
  simp only [ok_bind]
  rw [Map.modify_of_lt (t := { t with freeList := (y : Int) }) hxlt]
  rfl

theorem displace_home {idx x y : Nat} {l : List Nat} (hfree : FreeList c t (x :: y :: l))
    (hlt : idx < t.tableSize) (hhome : home c t idx = idx) :
    displace c t idx = .ok ((copyEntry c t idx x y).set idx fun e => { e with next := (x : Int) }) := by
  rw [displace_eq hfree hlt, if_pos (by rw [hhome])]
  exact Map.modify_of_lt (t := copyEntry c t idx x y) hlt

/-- The slot of the hash value holds an entry of that hash value: the new entry is put before it. -/
theorem insertAt_home (hD : Managed c t D) (hidx : c.hash k t.tableSize ∈ D) (hn : n ≠ c.notFound)
    (hu : Used c t (c.hash k t.tableSize)) (hhome : home c t (c.hash k t.tableSize) = c.hash k t.tableSize)
    {x y : Nat} {l : List Nat} (hfree : FreeList c t (x :: y :: l))
    (hmem : ∀ j, j ∈ x :: y :: l ↔ j ∈ D ∧ ¬ Used c t j) :
    ∃ t', insertAt c t k n = .ok t' ∧ t'.numEntries = t.numEntries + 1 ∧
      (∀ j, j ∉ D → t'.table j = t.table j) ∧ Added c t t' D x (c.hash k t.tableSize) k n ∧
      (∃ l, FreeList c t' l ∧ ∀ j, j ∈ l ↔ j ∈ D ∧ ¬ Used c t' j) ∧
      ∀ i ∈ D, Used c t' i → ∃ l, Chain c t' D (home c t' i) l := by
  generalize hk : c.hash k t.tableSize = idx at hidx hu hhome
  have hlt : idx < t.tableSize := hD.range idx hidx
  obtain ⟨hxD, hxu⟩ := (hmem x).mp (List.mem_cons_self ..)
  have hxlt : x < t.tableSize := hD.range x hxD
  have hxi : x ≠ idx := by
    rintro rfl
    exact hxu hu
  have hrun := insertAt_of_displace (n := n) hk hlt hu (displace_home hfree hlt hhome) rfl
  generalize ht' : finishInsert c _ idx k n = t' at hrun
  have hself : t'.table idx = ⟨n, c.setKey (t.table idx).raw k, x⟩ := by
    rw [← ht']
    simp only [finishInsert, copyEntry, Map.table_set_self, Map.table_set_of_ne hxi.symm]
  have hslot : t'.table x = ⟨(t.table idx).node, c.setKey (t.table x).raw (keyOf c t idx), (t.table idx).next⟩ := by
    rw [← ht']
    simp only [finishInsert, copyEntry, Map.table_set_of_ne hxi, Map.table_set_self]
  have hother : ∀ j, j ≠ x → j ≠ idx → t'.table j = t.table j := by
    intro j hjx hji
    rw [← ht']
    simp only [finishInsert, copyEntry, Map.table_set_of_ne hji, Map.table_set_of_ne hjx]
  have hdis : Displaced c t t' idx x y k n := by
    refine ⟨by rw [← ht']; rfl, by rw [← ht']; rfl, by rw [← ht']; rfl, ?_, ?_, by rw [hself], ?_⟩
    · rw [keyOf, nextOf, hslot]
      exact ⟨c.key_setKey _ _, rfl, rfl⟩
    · rw [keyOf, hself]
      exact c.key_setKey _ _
    · intro j hjx hji
      rw [hother j hjx hji]
      exact ⟨rfl, rfl⟩
  have hadded := hdis.added hidx hxD hu hxu hn
  have hnodup := hfree.links.nodup
  have hfree' : FreeList c t' (y :: l) := by
    refine hdis.freeList hfree fun j hj => hother j ?_ ?_
    · rintro rfl
      exact (List.nodup_cons.mp hnodup).1 hj
    · rintro rfl
      exact ((hmem j).mp (List.mem_cons_of_mem _ hj)).2 hu
  refine ⟨t', hrun, hdis.entries, ?_, hadded, ⟨y :: l, hfree', hadded.mem_free hmem (mem_erase_iff (a := []) hnodup)⟩, ?_⟩
  · intro j hj
    exact hother j (fun heq => hj (heq ▸ hxD)) fun heq => hj (heq ▸ hidx)
  · intro i hi hui
    by_cases hi' : home c t' i = idx
    · -- the chain of the new entry is the old one with the entry of `idx` in slot `x`
      obtain ⟨b, hb⟩ := hD.chain_cons hidx hu
      rw [hhome] at hb
      have hnb : ∀ j ∈ b, j ≠ x ∧ j ≠ idx := by
        intro j hj
        have huj := ((hb.mem j).mp (List.mem_cons_of_mem _ hj)).2.1
        refine ⟨fun heq => hxu (heq ▸ huj), fun heq => (List.nodup_cons.mp hb.links.nodup).1 (heq ▸ hj)⟩
      rw [hi']
      refine ⟨idx :: x :: b, ⟨rfl, ?_⟩, ?_⟩
      · rw [nextOf, hself]
        refine ⟨rfl, ?_⟩
        rw [nextOf, hslot]
        exact hb.links.2.congr fun j hj => by rw [nextOf, nextOf, hother j (hnb j hj).1 (hnb j hj).2]
      · intro j
        have hmemj := hadded.mem_home hk hn hu (hhome.symm ▸ hb) j
        rw [hhome] at hmemj
        rw [hmemj]
        simp only [List.mem_cons]
        constructor
        · rintro (rfl | rfl | hj)
          · exact Or.inl ⟨rfl, trivial⟩
          · exact Or.inr (Or.inl rfl)
          · exact Or.inr (Or.inr ⟨Or.inr hj, (hnb j hj).2⟩)
        · rintro (⟨rfl, -⟩ | rfl | ⟨hj | hj, hne⟩)
          · exact Or.inl rfl
          · exact Or.inr (Or.inl rfl)
          · exact absurd hj hne
          · exact Or.inr (Or.inr hj)
    · refine hadded.chain_other hD hk hi hui hi' (fun _ => by rw [hhome]; exact hi') ?_
      intro j _ hji huj _
      exact hother j (fun heq => hxu (heq ▸ huj)) hji

omit [DecidableEq Node] in
/-- The search for the link to slot `idx` ends at the slot before it. -/
theorem findLink_spec {idx p : Nat} {a : List Nat} (hrange : ∀ j ∈ a ++ [p], j < t.tableSize) :
    ∀ {s : Int} {fuel : Nat}, a.length < fuel → Links (nextOf t) s (a ++ p :: [idx]) →
      findLink t idx fuel s = .ok p := by
  induction a with
  | nil =>
    intro s fuel hfuel hl
    obtain ⟨fuel, rfl⟩ : ∃ f, fuel = f + 1 := ⟨fuel - 1, by have := hfuel; omega⟩
    have hnext : (t.table p).next = idx := hl.2.1
    rw [findLink, hl.1, if_neg (by omega), Map.read_of_lt (hrange p (by simp))]
    simp only [ok_bind]
    rw [if_pos hnext]
    rfl
  | cons q a ih =>
    intro s fuel hfuel hl
    obtain ⟨fuel, rfl⟩ : ∃ f, fuel = f + 1 := ⟨fuel - 1, by have := hfuel; omega⟩
    have hnext : (t.table q).next ≠ idx := by
      intro heq
      -- the rest of the list does not start with `idx`, which is its last slot
      have hlinks : Links (nextOf t) (t.table q).next (a ++ p :: [idx]) := hl.2
      rw [heq] at hlinks
      obtain ⟨l', hl'⟩ := hlinks.eq_cons
      have hnodup := hlinks.nodup
      have hlast : (a ++ p :: [idx]).getLast? = some idx := by simp
      rw [hl'] at hnodup hlast
      have hlen : l' ≠ [] := by
        rintro rfl
        have := congrArg List.length hl'
        simp at this
      rw [List.getLast?_cons_of_ne_nil hlen] at hlast
      exact (List.nodup_cons.mp hnodup).1 (List.mem_of_getLast? hlast)
    rw [findLink, hl.1, if_neg (by omega), Map.read_of_lt (hrange q (by simp))]
    simp only [ok_bind]
    rw [if_neg hnext]
    exact ih (fun j hj => hrange j (List.mem_cons_of_mem _ hj))
      (by rw [List.length_cons] at hfuel; omega) hl.2

theorem displace_squatter (hD : Managed c t D) {idx x y p : Nat} {l a b : List Nat}
    (hfree : FreeList c t (x :: y :: l)) (hxu : ¬ Used c t x) (hlt : idx < t.tableSize)
    (hhome : home c t idx ≠ idx) (hchain : Chain c t D (home c t idx) (a ++ p :: idx :: b)) :
    displace c t idx = .ok (((copyEntry c t idx x y).set idx fun e => { e with next := -1 }).set p
      fun e => { e with next := (x : Int) }) := by
  obtain ⟨-, hsuffix, hdisj⟩ := List.nodup_append.mp hchain.links.nodup
  have hpi : p ≠ idx := List.ne_of_not_mem_cons (List.nodup_cons.mp hsuffix).1
  have hne : ∀ j ∈ a ++ p :: idx :: b, j ≠ x := by
    rintro j hj rfl
    exact hxu ((hchain.mem j).mp hj).2.1
  have hrange := hD.chain_range hchain
  have hnext : ∀ j, j ≠ x → j ≠ idx →
      nextOf ((copyEntry c t idx x y).set idx fun e => { e with next := -1 }) j = nextOf t j := by
    intro j hjx hji
    simp only [nextOf, copyEntry, Map.table_set_of_ne hji, Map.table_set_of_ne hjx]
  -- the link to `idx` is still there, behind it the list now ends
  have hlinks : Links (nextOf ((copyEntry c t idx x y).set idx fun e => { e with next := -1 }))
      (home c t idx) (a ++ p :: [idx]) := by
    refine hchain.links.splice ?_ ⟨?_, ?_⟩
    · exact fun j hj => hnext j (hne j (List.mem_append_left _ hj)) (hdisj j hj idx (by simp))
    · rw [hnext p (hne p (by simp)) hpi]
      exact hchain.links.next_of_split.1
    · simp only [nextOf, Map.table_set_self]
      rfl
  have hlen : (a ++ p :: idx :: b).length ≤ t.tableSize := length_le_of_lt hchain.links.nodup hrange
  have hfind := findLink_spec (t := (copyEntry c t idx x y).set idx fun e => { e with next := -1 })
    (fun j hj => hrange j (by simp only [List.mem_append, List.mem_cons, List.not_mem_nil] at hj ⊢; tauto))
    (show a.length < t.tableSize + 1 by rw [List.length_append] at hlen; omega) hlinks
  rw [displace_eq hfree hlt, if_neg (by omega), Map.modify_of_lt (t := copyEntry c t idx x y) hlt]
  simp only [ok_bind]
  rw [show ((copyEntry c t idx x y).set idx fun e => { e with next := -1 }).tableSize = t.tableSize from rfl,
    hfind]
  simp only [ok_bind]
  rw [if_neg (by omega)]
  exact Map.modify_set_of_lt (t := copyEntry c t idx x y) (hrange p (by simp))

omit [DecidableEq Node] in
/-- The slot before `idx` in its chain, when the chain does not start there. -/
theorem Managed.exists_prev (hD : Managed c t D) {idx : Nat} (hidx : idx ∈ D) (hu : Used c t idx)
    (hhome : home c t idx ≠ idx) : ∃ a p b, Chain c t D (home c t idx) (a ++ p :: idx :: b) := by
  obtain ⟨l, hl⟩ := hD.chains idx hidx hu
  obtain ⟨a, b, rfl⟩ := List.append_of_mem ((hl.mem idx).mpr ⟨hidx, hu, rfl⟩)
  rcases List.eq_nil_or_concat a with rfl | ⟨a, p, rfl⟩
  · have hstart := hl.links.1
    exact absurd (Int.natCast_inj.mp hstart) hhome
  · refine ⟨a, p, b, ?_⟩
    rwa [show a ++ p :: idx :: b = a.concat p ++ idx :: b by simp]

/-- The slots after the entry of `idx` was moved to `x` and the link to it in `p` corrected. -/
structure Moved (c : Config Key Node Raw) (t t' : Map Node Raw) (idx x p : Nat) (k : Key) (n : Node) : Prop where
  self : t'.table idx = ⟨n, c.setKey (t.table idx).raw k, -1⟩
  slot : t'.table x = ⟨(t.table idx).node, c.setKey (t.table x).raw (keyOf c t idx), (t.table idx).next⟩
  prev : t'.table p = { t.table p with next := (x : Int) }
  other : ∀ j, j ≠ x → j ≠ idx → j ≠ p → t'.table j = t.table j

omit [DecidableEq Node] in
theorem finishInsert_moved {idx x y p : Nat} (hxi : x ≠ idx) (hpi : p ≠ idx) (hpx : p ≠ x) :
    Moved c t (finishInsert c (((copyEntry c t idx x y).set idx fun e => { e with next := -1 }).set p
      fun e => { e with next := (x : Int) }) idx k n) idx x p k n where
  self := by
    simp only [finishInsert, copyEntry, Map.table_set_self, Map.table_set_of_ne hpi.symm, Map.table_set_of_ne hxi.symm]
  slot := by
    simp only [finishInsert, copyEntry, Map.table_set_of_ne hxi, Map.table_set_of_ne hpx.symm, Map.table_set_self]
  prev := by
    simp only [finishInsert, copyEntry, Map.table_set_of_ne hpi, Map.table_set_self, Map.table_set_of_ne hpx]
  other j hjx hji hjp := by
    simp only [finishInsert, copyEntry, Map.table_set_of_ne hji, Map.table_set_of_ne hjp, Map.table_set_of_ne hjx]

omit [DecidableEq Node] in
theorem Moved.displaced {idx x y p : Nat} (h : Moved c t t' idx x p k n) (hsize : t'.tableSize = t.tableSize)
    (hent : t'.numEntries = t.numEntries + 1) (hhead : t'.freeList = y) : Displaced c t t' idx x y k n := by
  refine ⟨hsize, hent, hhead, ?_, ?_, by rw [h.self], ?_⟩
  · rw [keyOf, nextOf, h.slot]
    exact ⟨c.key_setKey _ _, rfl, rfl⟩
  · rw [keyOf, h.self]
    exact c.key_setKey _ _
  · intro j hjx hji
    by_cases hjp : j = p
    · rw [hjp, h.prev]
      exact ⟨rfl, rfl⟩
    · rw [h.other j hjx hji hjp]
      exact ⟨rfl, rfl⟩

omit [DecidableEq Node] in
/-- The chain of the entry that moved: slot `x` takes the place of `idx`. -/
theorem Moved.chain {idx x p : Nat} {a b : List Nat} (h : Moved c t t' idx x p k n)
    (hadded : Added c t t' D x idx k n) (hk : c.hash k t.tableSize = idx) (hn : n ≠ c.notFound) (hu : Used c t idx)
    (hhome : home c t idx ≠ idx) (hchain : Chain c t D (home c t idx) (a ++ p :: idx :: b)) :
    Chain c t' D (home c t idx) (a ++ p :: x :: b) := by
  obtain ⟨-, hsuffix, hdisj⟩ := List.nodup_append.mp hchain.links.nodup
  obtain ⟨hpb, hib⟩ := List.nodup_cons.mp hsuffix
  have hpi : p ≠ idx := List.ne_of_not_mem_cons hpb
  have hpb : p ∉ b := List.not_mem_of_not_mem_cons hpb
  have hib : idx ∉ b := (List.nodup_cons.mp hib).1
  have hne : ∀ j ∈ a ++ p :: idx :: b, j ≠ x := by
    rintro j hj rfl
    exact hadded.fresh ((hchain.mem j).mp hj).2.1
  have hrest : Links (nextOf t) (t.table idx).next b :=
    (show Links (nextOf t) _ ((a ++ [p]) ++ idx :: b) by simpa using hchain.links).next_of_split
  constructor
  · refine hchain.links.splice (fun j hj => ?_) ?_
    · rw [nextOf, nextOf, h.other j (hne j (List.mem_append_left _ hj)) (hdisj j hj idx (by simp))
        (hdisj j hj p (by simp))]
    · rw [nextOf, h.prev]
      refine ⟨rfl, ?_⟩
      rw [nextOf, h.slot]
      refine hrest.congr fun j hj => ?_
      rw [nextOf, nextOf, h.other j (hne j (by simp [hj])) (fun heq => hib (heq ▸ hj)) (fun heq => hpb (heq ▸ hj))]
  · intro j
    rw [hadded.mem_home hk hn hu hchain j]
    simp only [List.mem_append, List.mem_cons]
    constructor
    · rintro (hj | rfl | rfl | hj)
      · exact Or.inr (Or.inr ⟨Or.inl hj, hdisj j hj idx (by simp)⟩)
      · exact Or.inr (Or.inr ⟨Or.inr (Or.inl rfl), hpi⟩)
      · exact Or.inr (Or.inl rfl)
      · exact Or.inr (Or.inr ⟨Or.inr (Or.inr (Or.inr hj)), fun heq => hib (heq ▸ hj)⟩)
    · rintro (⟨-, hh⟩ | rfl | ⟨hj | hj | hj | hj, hji⟩)
      · exact absurd hh hhome
      · exact Or.inr (Or.inr (Or.inl rfl))
      · exact Or.inl hj
      · exact Or.inr (Or.inl hj)
      · exact absurd hj hji
      · exact Or.inr (Or.inr (Or.inr hj))

/-- The slot of the hash value holds an entry of another one: that entry moves and the link to it is
corrected. -/
theorem insertAt_squatter (hD : Managed c t D) (hidx : c.hash k t.tableSize ∈ D) (hn : n ≠ c.notFound)
    (hu : Used c t (c.hash k t.tableSize)) (hhome : home c t (c.hash k t.tableSize) ≠ c.hash k t.tableSize)
    {x y : Nat} {l : List Nat} (hfree : FreeList c t (x :: y :: l))
    (hmem : ∀ j, j ∈ x :: y :: l ↔ j ∈ D ∧ ¬ Used c t j) :
    ∃ t', insertAt c t k n = .ok t' ∧ t'.numEntries = t.numEntries + 1 ∧
      (∀ j, j ∉ D → t'.table j = t.table j) ∧ Added c t t' D x (c.hash k t.tableSize) k n ∧
      (∃ l, FreeList c t' l ∧ ∀ j, j ∈ l ↔ j ∈ D ∧ ¬ Used c t' j) ∧
      ∀ i ∈ D, Used c t' i → ∃ l, Chain c t' D (home c t' i) l := by
  generalize hk : c.hash k t.tableSize = idx at hidx hu hhome
  have hlt : idx < t.tableSize := hD.range idx hidx
  obtain ⟨hxD, hxu⟩ := (hmem x).mp (List.mem_cons_self ..)
  obtain ⟨a, p, b, hchain⟩ := hD.exists_prev hidx hu hhome
  have hpi : p ≠ idx :=
    List.ne_of_not_mem_cons (List.nodup_cons.mp (List.nodup_append.mp hchain.links.nodup).2.1).1
  have hpm := (hchain.mem p).mp (by simp)
  have hxi : x ≠ idx := fun heq => hxu (heq ▸ hu)
  have hpx : p ≠ x := fun heq => hxu (heq ▸ hpm.2.1)
  have hrun := insertAt_of_displace (n := n) hk hlt hu (displace_squatter hD hfree hxu hlt hhome hchain) rfl
  have hmoved := finishInsert_moved (c := c) (t := t) (y := y) (k := k) (n := n) hxi hpi hpx
  have hdis := hmoved.displaced rfl rfl rfl
  generalize finishInsert c _ idx k n = t' at hrun hmoved hdis
  have hadded := hdis.added hidx hxD hu hxu hn
  have hnodup := hfree.links.nodup
  have hunused : ∀ {j : Nat}, j ∈ y :: l → ¬ Used c t j := fun hj => ((hmem _).mp (List.mem_cons_of_mem _ hj)).2
  have hfree' : FreeList c t' (y :: l) := by
    refine hdis.freeList hfree fun j hj => hmoved.other j ?_ ?_ ?_
    · exact fun heq => (List.nodup_cons.mp hnodup).1 (heq ▸ hj)
    · exact fun heq => hunused hj (heq ▸ hu)
    · exact fun heq => hunused hj (heq ▸ hpm.2.1)
  refine ⟨t', hrun, hdis.entries, ?_, hadded,
    ⟨y :: l, hfree', hadded.mem_free hmem (mem_erase_iff (a := []) hnodup)⟩, ?_⟩
  · intro j hj
    exact hmoved.other j (fun heq => hj (heq ▸ hxD)) (fun heq => hj (heq ▸ hidx)) fun heq => hj (heq ▸ hpm.1)
  · intro i hi hui
    by_cases hi' : home c t' i = idx
    · rw [hi']
      exact ⟨_, hadded.chain_new hD hk hn (by rw [hmoved.self]) fun _ => hhome⟩
    · by_cases hi'' : home c t' i = home c t idx
      · rw [hi'']
        exact ⟨_, hmoved.chain hadded hk hn hu hhome hchain⟩
      · refine hadded.chain_other hD hk hi hui hi' (fun _ => hi'') ?_
        intro j _ hji huj hhj
        refine hmoved.other j (fun heq => hxu (heq ▸ huj)) hji ?_
        rintro rfl
        exact hi'' (hhj.symm.trans hpm.2.2)

end

/-! ## Insertion -/

/-- A table with two free slots takes any new entry whose hash value is one of its slots. -/
theorem insertAt_spec [DecidableEq Key] [DecidableEq Node] {k : Key} {n : Node} {m : Key → Option Node}
    (hD : Managed c t D) (hm : Holds c t D m) (hk : m k = none) (hidx : c.hash k t.tableSize ∈ D)
    (hn : n ≠ c.notFound) (hroom : (usedIn c t D).card + 2 ≤ D.card) :
    ∃ t', insertAt c t k n = .ok t' ∧ Managed c t' D ∧ Holds c t' D (Function.update m k (some n)) ∧
      (usedIn c t' D).card = (usedIn c t D).card + 1 ∧ t'.tableSize = t.tableSize ∧
      t'.numEntries = t.numEntries + 1 ∧ ∀ j, j ∉ D → t'.table j = t.table j := by
  suffices hcases : ∃ t' x, insertAt c t k n = .ok t' ∧ t'.numEntries = t.numEntries + 1 ∧
      (∀ j, j ∉ D → t'.table j = t.table j) ∧ Added c t t' D x (c.hash k t.tableSize) k n ∧
      (∃ l, FreeList c t' l ∧ ∀ j, j ∈ l ↔ j ∈ D ∧ ¬ Used c t' j) ∧
      ∀ i ∈ D, Used c t' i → ∃ l, Chain c t' D (home c t' i) l by
    obtain ⟨t', x, hrun, hent, hout, hadded, hfree, hchains⟩ := hcases
    refine ⟨t', hrun, ⟨?_, hfree, hchains, hadded.inj hm hk hD.inj⟩, hadded.holds hm hk hn, hadded.card_used,
      hadded.size, hent, hout⟩
    intro i hi
    rw [hadded.size]
    exact hD.range i hi
  by_cases hu : Used c t (c.hash k t.tableSize)
  · obtain ⟨l, hfree, hmem⟩ := hD.free
    have hlen := length_free hfree hmem
    obtain ⟨x, y, l, rfl⟩ : ∃ x y l', l = x :: y :: l' := by
      match l, hlen with
      | [], hlen | [_], hlen =>
        simp only [List.length_cons, List.length_nil] at hlen
        omega
      | x :: y :: l', _ => exact ⟨x, y, l', rfl⟩
    by_cases hhome : home c t (c.hash k t.tableSize) = c.hash k t.tableSize
    · obtain ⟨t', hrest⟩ := insertAt_home hD hidx hn hu hhome hfree hmem
      exact ⟨t', x, hrest⟩
    · obtain ⟨t', hrest⟩ := insertAt_squatter hD hidx hn hu hhome hfree hmem
      exact ⟨t', x, hrest⟩
  · obtain ⟨t', hrest⟩ := insertAt_free hD hidx hn hu
    exact ⟨t', _, hrest⟩

end Path64.IdMap

import Path64.IdMap.Basic
import Path64.Lib.Links

/-!
# `ID_MAP`: the free list

* `FreeList c t l` : `l` is the free list, with its back links;
* `addToFreeList_spec`, `removeFromFreeList_spec`, `allocFromFreeList_spec` : what the three operations do
  to it. Each leaves the slots outside of the list alone.
-/

namespace Path64.IdMap

open Path64.Lists

variable {Key Node Raw : Type}

/-! ## Reading and writing slots -/

namespace Map

variable {t : Map Node Raw} {i j : Nat} {f : HashEntry Node Raw → HashEntry Node Raw}

@[simp] theorem table_set_self : (t.set i f).table i = f (t.table i) := if_pos rfl

theorem table_set_of_ne (h : j ≠ i) : (t.set i f).table j = t.table j := if_neg h

@[simp] theorem tableSize_set : (t.set i f).tableSize = t.tableSize := rfl

@[simp] theorem freeList_set : (t.set i f).freeList = t.freeList := rfl

@[simp] theorem numEntries_set : (t.set i f).numEntries = t.numEntries := rfl

/-- What an assignment does not change. -/
theorem table_set_same {α : Type} (g : HashEntry Node Raw → α) (hf : g (f (t.table i)) = g (t.table i)) (j : Nat) :
    g ((t.set i f).table j) = g (t.table j) := by
  by_cases hj : j = i
  · rw [hj, table_set_self, hf]
  · rw [table_set_of_ne hj]

theorem read_of_lt (h : i < t.tableSize) : t.read i = .ok (t.table i) := by
  rw [read, if_pos ⟨by omega, by omega⟩, Int.toNat_natCast]

theorem modify_of_lt (h : i < t.tableSize) : t.modify i f = .ok (t.set i f) := by
  rw [modify, if_pos ⟨by omega, by omega⟩, Int.toNat_natCast]

theorem read_set_of_lt (h : i < t.tableSize) : (t.set j f).read i = .ok ((t.set j f).table i) :=
  read_of_lt (t := t.set j f) h

theorem modify_set_of_lt {g : HashEntry Node Raw → HashEntry Node Raw} (h : i < t.tableSize) :
    (t.set j f).modify i g = .ok ((t.set j f).set i g) := modify_of_lt (t := t.set j f) h

end Map

@[simp] theorem ok_bind {α β : Type} (a : α) (f : α → Except Fault β) : (Except.ok a >>= f) = f a := rfl

/-! ## The list -/

variable (c : Config Key Node Raw)

/-- `_next` of every slot. -/
def nextOf (t : Map Node Raw) (i : Nat) : Int := (t.table i).next

/-- `_prev` of every slot. -/
def prevOf (t : Map Node Raw) (i : Nat) : Int := c.prev (t.table i).raw

/-- `l` is the free list. -/
structure FreeList (t : Map Node Raw) (l : List Nat) : Prop where
  links : Links (nextOf t) t.freeList l
  back : BackLinks (prevOf c t) l
  range : ∀ i ∈ l, i < t.tableSize
  free : ∀ i ∈ l, (t.table i).node = c.notFound

/-- The slots outside of the list are left alone. -/
structure SameOutside (l : List Nat) (t t' : Map Node Raw) : Prop where
  size : t'.tableSize = t.tableSize
  entries : t'.numEntries = t.numEntries
  table : ∀ j, j ∉ l → t'.table j = t.table j

variable {c}

section

variable {t : Map Node Raw} {l : List Nat}

theorem addToFreeList_spec {idx : Nat} (h : FreeList c t l) (hidx : idx < t.tableSize) (hnot : idx ∉ l) :
    ∃ t', addToFreeList c t idx = .ok t' ∧ FreeList c t' (idx :: l) ∧ SameOutside (idx :: l) t t' := by
  unfold addToFreeList
  cases l with
  | nil =>
    have hhead : t.freeList = -1 := h.links
    rw [if_neg (by rw [hhead]; exact fun hne => hne rfl)]
    simp only [pure_bind, Map.modify_of_lt hidx, ok_bind]
    refine ⟨_, rfl, ⟨⟨rfl, ?_⟩, List.IsChain.singleton _, ?_, ?_⟩, ⟨rfl, rfl, ?_⟩⟩
    · simp only [nextOf, Map.table_set_self]
      exact hhead
    · intro i hi
      rw [List.mem_singleton.mp hi]
      exact hidx
    · intro i hi
      rw [List.mem_singleton.mp hi]
      simp
    · intro j hj
      simp only [Map.table_set_of_ne (List.ne_of_not_mem_cons hj)]
  | cons a l =>
    have hhead : t.freeList = a := h.links.1
    have hne : idx ≠ a := List.ne_of_not_mem_cons hnot
    have ha : a < t.tableSize := h.range a (List.mem_cons_self ..)
    rw [if_pos (by rw [hhead]; omega), hhead, Map.modify_of_lt ha]
    simp only [ok_bind]
    rw [Map.modify_set_of_lt hidx]
    refine ⟨_, rfl, ⟨⟨rfl, ?_⟩, ?_, ?_, ?_⟩, ⟨rfl, rfl, ?_⟩⟩
    · -- the new slot links to the old list, whose links are as before
      simp only [nextOf, Map.table_set_self, Map.freeList_set]
      refine h.links.congr ?_
      intro i hi
      have hi' : i ≠ idx := fun heq => hnot (heq ▸ hi)
      simp only [nextOf, Map.table_set_of_ne hi']
      by_cases hia : i = a
      · rw [hia, Map.table_set_self]
      · rw [Map.table_set_of_ne hia]
    · refine BackLinks.cons (h.back.congr ?_) ?_
      · intro i hi
        have hia : i ≠ a := fun heq => (List.nodup_cons.mp h.links.nodup).1 (heq ▸ hi)
        have hi' : i ≠ idx := fun heq => hnot (heq ▸ List.mem_cons_of_mem _ hi)
        simp only [prevOf, Map.table_set_of_ne hi', Map.table_set_of_ne hia]
      · simp only [prevOf, Map.table_set_of_ne hne.symm, Map.table_set_self, c.prev_setPrev]
    · intro i hi
      rcases List.mem_cons.mp hi with rfl | hi
      · exact hidx
      · exact h.range i hi
    · intro i hi
      rcases List.mem_cons.mp hi with rfl | hi
      · simp
      · have hi' : i ≠ idx := fun heq => hnot (heq ▸ hi)
        have hold := h.free i hi
        simp only [Map.table_set_of_ne hi']
        by_cases hia : i = a
        · subst hia
          simpa using hold
        · rwa [Map.table_set_of_ne hia]
    · intro j hj
      have hj₁ : j ≠ idx := List.ne_of_not_mem_cons hj
      have hj₂ : j ≠ a := List.ne_of_not_mem_cons (List.not_mem_of_not_mem_cons hj)
      simp only [Map.table_set_of_ne hj₁, Map.table_set_of_ne hj₂]

/-- Taking the head of the list: the slot behind it becomes the head. -/
theorem removeFromFreeList_head {i : Nat} {b : List Nat} (h : FreeList c t (i :: b)) :
    ∃ t', removeFromFreeList c t i = .ok t' ∧ FreeList c t' b ∧ SameOutside (i :: b) t t' := by
  have hi : i < t.tableSize := h.range i (List.mem_cons_self ..)
  have hib : i ∉ b := (List.nodup_cons.mp h.links.nodup).1
  have hnext : Links (nextOf t) (t.table i).next b := h.links.2
  unfold removeFromFreeList
  rw [Map.read_of_lt hi]
  simp only [ok_bind]
  rw [if_pos h.links.1]
  simp only [pure_bind]
  rw [Map.read_of_lt (t := { t with freeList := (t.table i).next }) hi]
  simp only [ok_bind]
  cases b with
  | nil =>
    rw [if_neg fun hne => hne hnext]
    exact ⟨_, rfl, ⟨hnext, List.IsChain.nil, fun j hj => absurd hj List.not_mem_nil,
      fun j hj => absurd hj List.not_mem_nil⟩, ⟨rfl, rfl, fun j _ => rfl⟩⟩
  | cons j b =>
    have hj : j < t.tableSize := h.range j (List.mem_cons_of_mem _ (List.mem_cons_self ..))
    have hij : i ≠ j := List.ne_of_not_mem_cons hib
    have hnode : ∀ k ∈ j :: b, k ≠ i := fun k hk heq => hib (heq ▸ hk)
    rw [if_pos (by rw [hnext.1]; omega), hnext.1,
      Map.modify_of_lt (t := { t with freeList := (j : Int) }) hj]
    simp only [ok_bind]
    rw [Map.modify_set_of_lt (t := { t with freeList := (j : Int) }) hi]
    refine ⟨_, rfl, ⟨⟨rfl, ?_⟩, ?_, ?_, ?_⟩, ⟨rfl, rfl, ?_⟩⟩
    · simp only [nextOf, Map.table_set_of_ne hij.symm, Map.table_set_self]
      refine hnext.2.congr ?_
      intro k hk
      have hkj : k ≠ j := fun heq => (List.nodup_cons.mp (List.nodup_cons.mp h.links.nodup).2).1 (heq ▸ hk)
      simp only [nextOf, Map.table_set_of_ne (hnode k (List.mem_cons_of_mem _ hk)), Map.table_set_of_ne hkj]
    · refine h.back.tail.congr ?_
      intro k hk
      have hkj : k ≠ j := fun heq => (List.nodup_cons.mp (List.nodup_cons.mp h.links.nodup).2).1 (heq ▸ hk)
      simp only [prevOf, Map.table_set_of_ne (hnode k (List.mem_cons_of_mem _ hk)), Map.table_set_of_ne hkj]
    · exact fun k hk => h.range k (List.mem_cons_of_mem _ hk)
    · intro k hk
      have hold := h.free k (List.mem_cons_of_mem _ hk)
      simp only [Map.table_set_of_ne (hnode k hk)]
      by_cases hkj : k = j
      · subst hkj
        simpa using hold
      · simpa only [Map.table_set_of_ne hkj] using hold
    · intro k hk
      have hki : k ≠ i := List.ne_of_not_mem_cons hk
      have hkj : k ≠ j := List.ne_of_not_mem_cons (List.not_mem_of_not_mem_cons hk)
      simp only [Map.table_set_of_ne hki, Map.table_set_of_ne hkj]

/-- The list without the slot `i` behind `p`, when the neighbours of `i` are linked to each other. -/
theorem FreeList.erase {t' : Map Node Raw} {a b : List Nat} {p i : Nat} (h : FreeList c t (a ++ p :: i :: b))
    (hsize : t'.tableSize = t.tableSize) (hhead : t'.freeList = t.freeList) (hp : nextOf t' p = nextOf t i)
    (hnext : ∀ k ∈ a ++ b, nextOf t' k = nextOf t k) (hprev : ∀ k ∈ a ++ p :: b.tail, prevOf c t' k = prevOf c t k)
    (hj : ∀ j ∈ b.head?, prevOf c t' j = p) (hnode : ∀ k ∈ a ++ p :: b, (t'.table k).node = (t.table k).node) :
    FreeList c t' (a ++ p :: b) := by
  have hsplit : a ++ p :: i :: b = (a ++ [p]) ++ i :: b := by simp
  have hsub : ∀ k ∈ a ++ p :: b, k ∈ a ++ p :: i :: b := by
    intro k hk
    simp only [List.mem_append, List.mem_cons] at hk ⊢
    tauto
  refine ⟨?_, ?_, ?_, ?_⟩
  · rw [hhead]
    refine h.links.splice (fun k hk => hnext k (List.mem_append_left _ hk)) ?_
    rw [hp]
    have hrest : Links (nextOf t) (nextOf t i) b := (hsplit ▸ h.links).next_of_split
    exact hrest.congr fun k hk => hnext k (List.mem_append_right _ hk)
  · have hback : BackLinks (prevOf c t) ((a ++ [p]) ++ i :: b) := hsplit ▸ h.back
    rw [show a ++ p :: b = (a ++ [p]) ++ b by simp]
    refine hback.erase ?_ ?_
    · intro k hk
      rw [List.append_assoc] at hk
      exact hprev k hk
    · intro q hq j hjb
      rw [List.getLast?_concat, Option.mem_some_iff] at hq
      rw [← hq]
      exact hj j hjb
  · intro k hk
    rw [hsize]
    exact h.range k (hsub k hk)
  · intro k hk
    rw [hnode k hk]
    exact h.free k (hsub k hk)

/-- The slots of a list with an inner one, and what they differ from. -/
theorem FreeList.inner_ne {a b : List Nat} {p i : Nat} (h : FreeList c t (a ++ p :: i :: b)) :
    (∀ k ∈ a, k ≠ p ∧ k ≠ i ∧ k ∉ b) ∧ p ≠ i ∧ p ∉ b ∧ i ∉ b ∧ b.Nodup := by
  obtain ⟨-, hsuffix, hdisj⟩ := List.nodup_append.mp h.links.nodup
  obtain ⟨hp, hsuffix⟩ := List.nodup_cons.mp hsuffix
  obtain ⟨hi, hb⟩ := List.nodup_cons.mp hsuffix
  refine ⟨fun k hk => ⟨hdisj k hk p (by simp), hdisj k hk i (by simp), fun hkb => ?_⟩, List.ne_of_not_mem_cons hp,
    List.not_mem_of_not_mem_cons hp, hi, hb⟩
  exact hdisj k hk k (by simp [hkb]) rfl

/-- The last slot of the list: the one before it ends the list. -/
theorem FreeList.erase_last {a : List Nat} {p i : Nat} (h : FreeList c t (a ++ p :: [i])) :
    FreeList c (t.set p fun e => { e with next := (t.table i).next }) (a ++ [p]) := by
  obtain ⟨ha, -⟩ := h.inner_ne
  refine h.erase rfl rfl ?_ ?_ ?_ (fun j hj => absurd hj (by simp)) ?_
  · simp only [nextOf, Map.table_set_self]
  · intro k hk
    rw [nextOf, nextOf, Map.table_set_of_ne (ha k (by simpa using hk)).1]
  · exact fun k _ => Map.table_set_same (fun e => c.prev e.raw) rfl k
  · exact fun k _ => Map.table_set_same HashEntry.node rfl k

/-- The assignments to the link of `p`, to the back link of `j` and to the link of `i`. -/
def relink (c : Config Key Node Raw) (t : Map Node Raw) (p i j : Nat) : Map Node Raw :=
  ((t.set p fun e => { e with next := (j : Int) }).set j fun e => { e with raw := c.setPrev e.raw p }).set i
    fun e => { e with next := -1 }

section Relink

variable {p i j : Nat}

theorem node_relink (k : Nat) : ((relink c t p i j).table k).node = (t.table k).node := by
  rw [relink, Map.table_set_same HashEntry.node rfl, Map.table_set_same HashEntry.node rfl,
    Map.table_set_same HashEntry.node rfl]

theorem nextOf_relink {k : Nat} (hp : k ≠ p) (hi : k ≠ i) : nextOf (relink c t p i j) k = nextOf t k := by
  rw [nextOf, relink, Map.table_set_of_ne hi, Map.table_set_same HashEntry.next rfl, Map.table_set_of_ne hp]
  rfl

theorem prevOf_relink {k : Nat} (hj : k ≠ j) : prevOf c (relink c t p i j) k = prevOf c t k := by
  have hprev : ∀ {t : Map Node Raw} {q : Nat} (x : Int), c.prev ((t.set q fun e => { e with next := x }).table k).raw =
      c.prev (t.table k).raw := fun x => Map.table_set_same (fun e => c.prev e.raw) rfl k
  rw [prevOf, relink, hprev, Map.table_set_of_ne hj, hprev]
  rfl

theorem nextOf_relink_prev (hpi : p ≠ i) (hpj : p ≠ j) : nextOf (relink c t p i j) p = j := by
  rw [nextOf, relink, Map.table_set_of_ne hpi, Map.table_set_of_ne hpj, Map.table_set_self]

theorem prevOf_relink_next (hji : j ≠ i) : prevOf c (relink c t p i j) j = p := by
  rw [prevOf, relink, Map.table_set_of_ne hji, Map.table_set_self]
  exact c.prev_setPrev _ _

end Relink

/-- A slot between two others: they are linked to each other. -/
theorem FreeList.erase_between {a b : List Nat} {p i j : Nat} (h : FreeList c t (a ++ p :: i :: j :: b)) :
    FreeList c (relink c t p i j) (a ++ p :: j :: b) := by
  obtain ⟨ha, hpi, hpj, hij, hjb⟩ := h.inner_ne
  have hjb := (List.nodup_cons.mp hjb).1
  have hnext : nextOf t i = j :=
    (show Links (nextOf t) t.freeList ((a ++ [p]) ++ i :: j :: b) by simpa using h.links).next_of_split.1
  refine h.erase rfl rfl ?_ ?_ ?_ ?_ fun k _ => node_relink k
  · rw [nextOf_relink_prev hpi (List.ne_of_not_mem_cons hpj), hnext]
  · intro k hk
    rcases List.mem_append.mp hk with hk | hk
    · exact nextOf_relink (ha k hk).1 (ha k hk).2.1
    · exact nextOf_relink (fun heq => hpj (heq ▸ hk)) fun heq => hij (heq ▸ hk)
  · intro k hk
    refine prevOf_relink ?_
    rintro rfl
    rcases List.mem_append.mp hk with hk | hk
    · exact (ha k hk).2.2 (List.mem_cons_self ..)
    · rcases List.mem_cons.mp hk with rfl | hk
      · exact hpj (List.mem_cons_self ..)
      · exact hjb hk
  · intro k hk
    cases hk
    exact prevOf_relink_next (List.ne_of_not_mem_cons hij).symm

/-- Taking a slot that is not the head: its neighbours are linked to each other. -/
theorem removeFromFreeList_inner {a b : List Nat} {p i : Nat} (h : FreeList c t (a ++ p :: i :: b)) :
    ∃ t', removeFromFreeList c t i = .ok t' ∧ FreeList c t' (a ++ p :: b) ∧
      SameOutside (a ++ p :: i :: b) t t' := by
  have hsplit : a ++ p :: i :: b = (a ++ [p]) ++ i :: b := by simp
  have hi : i < t.tableSize := h.range i (by simp)
  have hp : p < t.tableSize := h.range p (by simp)
  have hip : i ≠ p := h.inner_ne.2.1.symm
  have hprev : c.prev (t.table i).raw = p := h.back.prev_of_split
  have hnext : Links (nextOf t) (t.table i).next b := (hsplit ▸ h.links).next_of_split
  have hhead : t.freeList ≠ i := by
    intro heq
    have hlinks := h.links
    rw [heq] at hlinks
    have hlen := congrArg List.length (hlinks.unique (hsplit ▸ hlinks).suffix)
    simp only [List.length_append, List.length_cons] at hlen
    omega
  unfold removeFromFreeList
  rw [Map.read_of_lt hi]
  simp only [ok_bind]
  rw [if_neg hhead, hprev, Map.modify_of_lt hp]
  simp only [ok_bind]
  rw [Map.read_set_of_lt hi, Map.table_set_of_ne hip]
  simp only [ok_bind]
  cases b with
  | nil =>
    rw [if_neg fun hne => hne hnext]
    refine ⟨_, rfl, h.erase_last, rfl, rfl, fun k hk => Map.table_set_of_ne ?_⟩
    rintro rfl
    simp at hk
  | cons j b =>
    have hj : j < t.tableSize := h.range j (by simp)
    rw [if_pos (by rw [hnext.1]; omega), hnext.1, hprev, Map.modify_set_of_lt hj]
    simp only [ok_bind]
    rw [Map.modify_set_of_lt (t := t.set p _) hi]
    refine ⟨_, rfl, h.erase_between, rfl, rfl, fun k hk => ?_⟩
    simp only [List.mem_append, List.mem_cons, not_or] at hk
    rw [Map.table_set_of_ne hk.2.2.1, Map.table_set_of_ne hk.2.2.2.1, Map.table_set_of_ne hk.2.1]

/-- Taking any slot of the list. -/
theorem removeFromFreeList_spec {i : Nat} (h : FreeList c t l) (hi : i ∈ l) :
    ∃ t' l', removeFromFreeList c t i = .ok t' ∧ FreeList c t' l' ∧ SameOutside l t t' ∧
      ∀ j, j ∈ l' ↔ j ∈ l ∧ j ≠ i := by
  obtain ⟨a, b, rfl⟩ := List.append_of_mem hi
  have hmem := mem_erase_iff h.links.nodup
  rcases List.eq_nil_or_concat a with rfl | ⟨a, p, rfl⟩
  · obtain ⟨t', hrun, hfree, hsame⟩ := removeFromFreeList_head h
    exact ⟨t', b, hrun, hfree, hsame, hmem⟩
  · have hsplit : a.concat p ++ i :: b = a ++ p :: i :: b := by simp
    rw [hsplit] at h
    obtain ⟨t', hrun, hfree, hsame⟩ := removeFromFreeList_inner h
    refine ⟨t', a ++ p :: b, hrun, hfree, hsplit ▸ hsame, ?_⟩
    intro j
    rw [← hmem j]
    simp

/-- Taking the head of a list with two slots at least. -/
theorem allocFromFreeList_spec [DecidableEq Node] {i j : Nat} (h : FreeList c t (i :: j :: l)) :
    allocFromFreeList c t = .ok ((i : Int), { t with freeList := j }) ∧
      FreeList c { t with freeList := j } (j :: l) := by
  have hi : i < t.tableSize := h.range i (List.mem_cons_self ..)
  have hj : j < t.tableSize := h.range j (by simp)
  have hnext : (t.table i).next = j := h.links.2.1
  constructor
  · unfold allocFromFreeList
    rw [h.links.1, Map.read_of_lt hi]
    simp only [ok_bind]
    rw [hnext, Map.read_of_lt hj]
    simp only [ok_bind]
    rw [if_pos (h.free j (by simp))]
    rfl
  · exact ⟨⟨rfl, h.links.2.2⟩, h.back.tail, fun k hk => h.range k (List.mem_cons_of_mem _ hk),
      fun k hk => h.free k (List.mem_cons_of_mem _ hk)⟩

end

end Path64.IdMap

import Path64.IdMap.Delete
import Path64.IdMap.Enlarge

/-!
# `ID_MAP` is a finite map

* `Op`, `run` : sequences of insertions, deletions and lookups;
* `Op.apply`, `contents`, `answers` : what such a sequence does to a finite map, and the values it looks up;
* `Allowed` : keys are inserted only when absent and deleted only when present;
* `WellFormed c t m` : the invariant of the table that holds `m`;
* `init_wellFormed`, `step_spec`, `run_spec`;
* `run_refines_map` : every run from `Init` ends without a fault, with the answers of the finite map, in a
  table whose chains and free list are in order.
-/

namespace Path64.IdMap

open Path64.Lists

variable {Key Node Raw : Type} [DecidableEq Key] [DecidableEq Node]

/-! ## Operations -/

/-- A call of a member of `ID_MAP`. -/
inductive Op (Key Node : Type)
  | insert (key : Key) (node : Node)
  | delete (key : Key)
  | lookup (key : Key)

/-- One call; a lookup gives a value. -/
def step (c : Config Key Node Raw) (t : Map Node Raw) : Op Key Node → Except Fault (Map Node Raw × List Node)
  | .insert k n => do
    let t ← insert c t k n
    pure (t, [])
  | .delete k => do
    let t ← delete c t k
    pure (t, [])
  | .lookup k => do
    let n ← lookup c t k
    pure (t, [n])

/-- A sequence of calls, with the values that were looked up. -/
def run (c : Config Key Node Raw) : Map Node Raw → List (Op Key Node) → Except Fault (Map Node Raw × List Node)
  | t, [] => .ok (t, [])
  | t, op :: ops => do
    let (t, found) ← step c t op
    let (t, rest) ← run c t ops
    pure (t, found ++ rest)

/-! ## The finite map -/

/-- What a call does to the map. -/
def Op.apply (m : Key → Option Node) : Op Key Node → Key → Option Node
  | .insert k n => Function.update m k (some n)
  | .delete k => Function.update m k none
  | .lookup _ => m

/-- The map after a sequence of calls: the node last inserted for each key and not deleted since. -/
def contents (m : Key → Option Node) (ops : List (Op Key Node)) : Key → Option Node := ops.foldl Op.apply m

/-- The values that a sequence of calls looks up in the map. -/
def answers (notFound : Node) : (Key → Option Node) → List (Op Key Node) → List Node
  | _, [] => []
  | m, .lookup k :: ops => (m k).getD notFound :: answers notFound m ops
  | m, op :: ops => answers notFound (op.apply m) ops

/-- The contract of the caller for one call. -/
def Op.Admissible (notFound : Node) (m : Key → Option Node) : Op Key Node → Prop
  | .insert k n => m k = none ∧ n ≠ notFound
  | .delete k => m k ≠ none
  | .lookup _ => True

/-- The contract of the caller for a sequence of calls. -/
def Allowed (notFound : Node) : (Key → Option Node) → List (Op Key Node) → Prop
  | _, [] => True
  | m, op :: ops => op.Admissible notFound m ∧ Allowed notFound (op.apply m) ops

/-! ## The invariant -/

/-- The table is in order and holds the map. -/
structure WellFormed (c : Config Key Node Raw) (t : Map Node Raw) (m : Key → Option Node) : Prop where
  minSize : 16 ≤ t.tableSize
  managed : Managed c t (Finset.range t.tableSize)
  holds : Holds c t (Finset.range t.tableSize) m
  count : (usedIn c t (Finset.range t.tableSize)).card = t.numEntries
  load : t.numEntries ≤ capacity t.tableSize

variable {c : Config Key Node Raw} {t : Map Node Raw} {m : Key → Option Node}

omit [DecidableEq Key] [DecidableEq Node] in
/-- In a new table every slot is followed by the next one. -/
theorem init_links (mem : Nat → HashEntry Node Raw) (initCapacity : Nat) :
    ∀ n a, a + (n + 1) = (init c mem initCapacity).tableSize →
      Links (nextOf (init c mem initCapacity)) a (List.range' a (n + 1)) := by
  intro n
  induction n with
  | zero =>
    intro a ha
    refine ⟨rfl, ?_⟩
    have hlast : a = Nat.max (sizeFor initCapacity) 16 - 1 := by
      have : a + 1 = Nat.max (sizeFor initCapacity) 16 := ha
      omega
    have hlt : a < Nat.max (sizeFor initCapacity) 16 := by
      have : a + 1 = Nat.max (sizeFor initCapacity) 16 := ha
      omega
    show ((init c mem initCapacity).table a).next = -1
    simp only [init, if_pos hlt, if_pos hlast]
  | succ n ih =>
    intro a ha
    have ha' : a + (n + 2) = Nat.max (sizeFor initCapacity) 16 := ha
    have hnext : nextOf (init c mem initCapacity) a = ((a + 1 : Nat) : Int) := by
      show ((init c mem initCapacity).table a).next = _
      simp only [init, if_pos (show a < Nat.max (sizeFor initCapacity) 16 by omega),
        if_neg (show ¬ a = Nat.max (sizeFor initCapacity) 16 - 1 by omega)]
      push_cast
      rfl
    rw [List.range'_succ]
    refine ⟨rfl, ?_⟩
    rw [hnext]
    exact ih (a + 1) (by omega)

omit [DecidableEq Key] in
theorem init_wellFormed (c : Config Key Node Raw) (mem : Nat → HashEntry Node Raw) (initCapacity : Nat) :
    WellFormed c (init c mem initCapacity) fun _ => none := by
  have hmin : 16 ≤ (init c mem initCapacity).tableSize := Nat.le_max_right ..
  have hfree : ∀ i < (init c mem initCapacity).tableSize, ¬ Used c (init c mem initCapacity) i := by
    intro i hi hu
    apply hu
    have hi' : i < Nat.max (sizeFor initCapacity) 16 := hi
    simp only [init, if_pos hi']
  have hprev : ∀ i < (init c mem initCapacity).tableSize, prevOf c (init c mem initCapacity) i = (i : Int) - 1 := by
    intro i hi
    have hi' : i < Nat.max (sizeFor initCapacity) 16 := hi
    show c.prev ((init c mem initCapacity).table i).raw = _
    simp only [init, if_pos hi']
    exact c.prev_setPrev _ _
  have hlinks := init_links (c := c) mem initCapacity ((init c mem initCapacity).tableSize - 1) 0 (by omega)
  rw [show (init c mem initCapacity).tableSize - 1 + 1 = (init c mem initCapacity).tableSize by omega] at hlinks
  have hmem : ∀ j, j ∈ List.range' 0 (init c mem initCapacity).tableSize ↔ j < (init c mem initCapacity).tableSize := by
    intro j
    rw [List.mem_range'_1]
    omega
  refine ⟨hmin, ⟨fun i hi => Finset.mem_range.mp hi, ⟨_, ⟨hlinks, ?_, ?_, ?_⟩, ?_⟩, ?_, ?_⟩, ?_, ?_, Nat.zero_le _⟩
  · refine List.IsChain.imp_of_mem_imp ?_ (List.isChain_range' 0 _ 1)
    intro i j _ hj hij
    rw [hprev j ((hmem j).mp hj), hij]
    push_cast
    omega
  · exact fun j hj => (hmem j).mp hj
  · exact fun j hj => not_not.mp (hfree j ((hmem j).mp hj))
  · intro j
    rw [hmem j, Finset.mem_range]
    exact ⟨fun hj => ⟨hj, hfree j hj⟩, fun hj => hj.1⟩
  · exact fun i hi hu => absurd hu (hfree i (Finset.mem_range.mp hi))
  · exact fun i hi _ _ hu => absurd hu (hfree i (Finset.mem_range.mp hi))
  · intro k n
    constructor
    · intro h
      cases h
    · rintro ⟨i, hi, hu, -⟩
      exact absurd hu (hfree i (Finset.mem_range.mp hi))
  · show _ = 0
    rw [Finset.card_eq_zero, usedIn, Finset.filter_eq_empty_iff]
    exact fun i hi => hfree i (Finset.mem_range.mp hi)

/-! ## One call -/

theorem grow_spec (h : WellFormed c t m) :
    ∃ t', (if t.numEntries + 1 > capacity t.tableSize then enlarge c t else pure t) = .ok t' ∧
      WellFormed c t' m ∧ t'.numEntries + 1 ≤ capacity t'.tableSize := by
  by_cases hfull : t.numEntries + 1 > capacity t.tableSize
  · obtain ⟨t', hrun, hsize, hnum, hmanaged, hholds, hcard⟩ := enlarge_spec h.managed h.holds h.count h.load h.minSize
    have hload := h.load
    have hmin := h.minSize
    have hroom : t'.numEntries + 1 ≤ capacity t'.tableSize := by
      unfold capacity at *
      omega
    rw [if_pos hfull, hrun]
    exact ⟨t', rfl, ⟨by omega, hmanaged, hholds, hcard.trans hnum.symm, by omega⟩, hroom⟩
  · rw [if_neg hfull]
    exact ⟨t, rfl, h, by omega⟩

omit [DecidableEq Key] in
theorem insert_eq (c : Config Key Node Raw) (t : Map Node Raw) (k : Key) (n : Node) :
    insert c t k n =
      (if t.numEntries + 1 > capacity t.tableSize then enlarge c t else pure t) >>= fun t => insertAt c t k n := by
  unfold insert
  split_ifs <;> rfl

theorem insert_wellFormed (h : WellFormed c t m) {k : Key} {n : Node} (hk : m k = none) (hn : n ≠ c.notFound) :
    ∃ t', insert c t k n = .ok t' ∧ WellFormed c t' (Function.update m k (some n)) := by
  obtain ⟨t₁, hgrow, h₁, hroom⟩ := grow_spec h
  have hmin := h₁.minSize
  have hidx : c.hash k t₁.tableSize ∈ Finset.range t₁.tableSize :=
    Finset.mem_range.mpr (c.hash_lt _ _ (by omega))
  have hfree : (usedIn c t₁ (Finset.range t₁.tableSize)).card + 2 ≤ (Finset.range t₁.tableSize).card := by
    rw [h₁.count, Finset.card_range]
    unfold capacity at hroom
    omega
  obtain ⟨t₂, hins, hmanaged, hholds, hcard, hsize, hnum, -⟩ :=
    insertAt_spec h₁.managed h₁.holds hk hidx hn hfree
  refine ⟨t₂, ?_, ?_⟩
  · rw [insert_eq, hgrow]
    exact hins
  · rw [← hsize] at hmanaged hholds hcard
    refine ⟨by omega, hmanaged, hholds, ?_, by rw [hnum, hsize]; exact hroom⟩
    rw [hcard, hsize, h₁.count, hnum]

theorem delete_wellFormed (h : WellFormed c t m) {k : Key} (hk : m k ≠ none) :
    ∃ t', delete c t k = .ok t' ∧ WellFormed c t' (Function.update m k none) := by
  obtain ⟨n, hn⟩ := Option.ne_none_iff_exists'.mp hk
  obtain ⟨t', hrun, hmanaged, hholds, hcard, hsize, hnum⟩ := delete_spec h.managed h.holds hn
  have hcount := h.count
  have hload := h.load
  rw [← hsize] at hmanaged hholds
  refine ⟨t', hrun, by rw [hsize]; exact h.minSize, hmanaged, hholds, ?_, ?_⟩
  · rw [hsize, hnum]
    omega
  · rw [hnum, hsize]
    omega

theorem lookup_wellFormed (h : WellFormed c t m) (k : Key) : lookup c t k = .ok ((m k).getD c.notFound) := by
  have hmin := h.minSize
  exact lookup_spec h.managed h.holds (Finset.mem_range.mpr (c.hash_lt _ _ (by omega)))

/-- One call keeps the invariant and gives what the map gives. -/
theorem step_spec (h : WellFormed c t m) {op : Op Key Node} (hop : op.Admissible c.notFound m) :
    ∃ t', step c t op = .ok (t', answers c.notFound m [op]) ∧ WellFormed c t' (op.apply m) := by
  cases op with
  | insert k n =>
    obtain ⟨t', hrun, h'⟩ := insert_wellFormed h hop.1 hop.2
    exact ⟨t', by rw [step, hrun]; rfl, h'⟩
  | delete k =>
    obtain ⟨t', hrun, h'⟩ := delete_wellFormed h hop
    exact ⟨t', by rw [step, hrun]; rfl, h'⟩
  | lookup k => exact ⟨t, by rw [step, lookup_wellFormed h k]; rfl, h⟩

/-! ## Runs -/

omit [DecidableEq Node] in
theorem answers_cons (notFound : Node) (m : Key → Option Node) (op : Op Key Node) (ops : List (Op Key Node)) :
    answers notFound m (op :: ops) = answers notFound m [op] ++ answers notFound (op.apply m) ops := by
  cases op <;> rfl

theorem run_spec (ops : List (Op Key Node)) : ∀ {t : Map Node Raw} {m : Key → Option Node}, WellFormed c t m →
    Allowed c.notFound m ops →
    ∃ t', run c t ops = .ok (t', answers c.notFound m ops) ∧ WellFormed c t' (contents m ops) := by
  induction ops with
  | nil => exact fun h _ => ⟨_, rfl, h⟩
  | cons op ops ih =>
    intro t m h hops
    obtain ⟨t₁, hstep, h₁⟩ := step_spec h hops.1
    obtain ⟨t', hrun, h'⟩ := ih h₁ hops.2
    refine ⟨t', ?_, h'⟩
    rw [answers_cons c.notFound m op ops, run, hstep]
    simp only [ok_bind]
    rw [hrun]
    rfl

/-- For every hash function and every allowed sequence of calls after `Init`: no step reads outside the table,
fails an assertion or runs on for ever; each lookup gives the node last inserted for its key and not deleted
since, or the not-found value; every chain starts in the slot of its hash value and holds exactly the entries of
that hash value, each once; and the free list holds exactly the unused slots, each once. -/
theorem run_refines_map (c : Config Key Node Raw) (mem : Nat → HashEntry Node Raw) (initCapacity : Nat)
    (ops : List (Op Key Node)) (hops : Allowed c.notFound (fun _ => none) ops) :
    ∃ t, run c (init c mem initCapacity) ops = .ok (t, answers c.notFound (fun _ => none) ops) ∧
      (∀ k, lookup c t k = .ok ((contents (fun _ => none) ops k).getD c.notFound)) ∧
      (∀ i < t.tableSize, Used c t i → ∃ l, Links (nextOf t) (home c t i) l ∧ l.Nodup ∧
        ∀ j, j ∈ l ↔ j < t.tableSize ∧ Used c t j ∧ home c t j = home c t i) ∧
      ∃ l, Links (nextOf t) t.freeList l ∧ l.Nodup ∧ ∀ j, j ∈ l ↔ j < t.tableSize ∧ ¬ Used c t j := by
  obtain ⟨t, hrun, h⟩ := run_spec ops (init_wellFormed c mem initCapacity) hops
  refine ⟨t, hrun, lookup_wellFormed h, ?_, ?_⟩
  · intro i hi hu
    obtain ⟨l, hl⟩ := h.managed.chains i (Finset.mem_range.mpr hi) hu
    refine ⟨l, hl.links, hl.links.nodup, ?_⟩
    intro j
    rw [hl.mem j, Finset.mem_range]
  · obtain ⟨l, hfree, hmem⟩ := h.managed.free
    refine ⟨l, hfree.links, hfree.links.nodup, ?_⟩
    intro j
    rw [hmem j, Finset.mem_range]

/-- A map from numbers to numbers that stores `_key` and `_prev` in one word. -/
def numberMap : Config Nat Nat (Nat ⊕ Int) where
  key := Sum.elim id Int.toNat
  prev := Sum.elim Nat.cast id
  setKey := fun _ k => .inl k
  setPrev := fun _ i => .inr i
  key_setKey := fun _ _ => rfl
  prev_setPrev := fun _ _ => rfl
  notFound := 0
  hash := hash
  hash_lt := fun k _ h => hash_lt k h

/-- Two insertions, of which one is deleted again. -/
def insertTwice : List (Op Nat Nat) := [.insert 1 10, .insert 2 20, .delete 1, .lookup 1, .lookup 2]

theorem run_refines_map_insertTwice :
    Allowed 0 (fun _ => none) insertTwice ∧
      ∃ t, run numberMap (init numberMap (fun _ => ⟨7, .inl 7, 7⟩) 5) insertTwice = .ok (t, [0, 20]) := by
  have hallowed : Allowed 0 (fun _ => none) insertTwice := by
    refine ⟨⟨rfl, by decide⟩, ⟨rfl, by decide⟩, ?_, trivial, trivial, trivial⟩
    simp [Op.Admissible, Op.apply, Function.update]
  obtain ⟨t, hrun, -⟩ := run_refines_map numberMap (fun _ => ⟨7, .inl 7, 7⟩) 5 insertTwice hallowed
  exact ⟨hallowed, t, hrun⟩

end Path64.IdMap

import Mathlib.Algebra.Group.Nat.Defs
import Mathlib.Data.Nat.Basic
import Mathlib.Tactic.SplitIfs

/-!
# `ID_MAP`: a hash table that resolves collisions in place

* `Layout` : the union of `_key` and `_prev` in a table entry;
* `Config` : the not-found value and the hash function; `hash` is the one of the source;
* `Map` : the table, its size, the number of entries and the head of the free list. Slots are indexed by
  integers as in the source, where `-1` ends a list; an access outside the table is a fault;
* `addToFreeList`, `removeFromFreeList`, `allocFromFreeList`;
* `insert`, `delete`, `entryLookup`, `lookup`;
* `enlarge` : the rehash in place.
-/

namespace Path64.IdMap

variable {Key Node Raw : Type}

/-! ## Entries -/

/-- The storage that `_key` and `_prev` share. -/
structure Layout (Key Raw : Type) where
  key : Raw → Key
  prev : Raw → Int
  setKey : Raw → Key → Raw
  setPrev : Raw → Int → Raw
  key_setKey : ∀ r k, key (setKey r k) = k
  prev_setPrev : ∀ r i, prev (setPrev r i) = i

/-- `ID_MAP_HASH_ENTRY`. -/
structure HashEntry (Node Raw : Type) where
  node : Node
  raw : Raw
  next : Int

/-- What the template and the constructor are given: the layout of the entries, the not-found value and
a hash function into the table. -/
structure Config (Key Node Raw : Type) extends Layout Key Raw where
  notFound : Node
  hash : Key → Nat → Nat
  hash_lt : ∀ k size, 0 < size → hash k size < size

/-- `Hash`, for the key already folded into 32 bits. -/
def hash (keyUint32 tblSize : Nat) : Nat := tblSize * (keyUint32 * 2654435769 % 2 ^ 32) / 2 ^ 32

theorem hash_lt (keyUint32 : Nat) {tblSize : Nat} (h : 0 < tblSize) : hash keyUint32 tblSize < tblSize := by
  have hlt : keyUint32 * 2654435769 % 2 ^ 32 < 2 ^ 32 := Nat.mod_lt _ (by decide)
  rw [hash, Nat.div_lt_iff_lt_mul (by decide)]
  exact Nat.mul_lt_mul_of_pos_left hlt h

/-- `Capacity`. -/
def capacity (size : Nat) : Nat := size * 3 / 4

/-- `Size`: the least table that holds `capacity` entries. -/
def sizeFor (capacity : Nat) : Nat := (capacity * 4 + 2) / 3

/-- What may go wrong: an access outside the table, a failed assertion, or a loop that does not end. -/
inductive Fault
  | badIndex
  | assertion
  | noEnd
deriving DecidableEq, Repr

/-- An `ID_MAP`. -/
structure Map (Node Raw : Type) where
  table : Nat → HashEntry Node Raw
  tableSize : Nat
  numEntries : Nat
  freeList : Int

namespace Map

/-- `_table[i]`. -/
def read (t : Map Node Raw) (i : Int) : Except Fault (HashEntry Node Raw) :=
  if 0 ≤ i ∧ i < t.tableSize then .ok (t.table i.toNat) else .error .badIndex

/-- The table with entry `i` changed. -/
def set (t : Map Node Raw) (i : Nat) (f : HashEntry Node Raw → HashEntry Node Raw) : Map Node Raw :=
  { t with table := fun j => if j = i then f (t.table i) else t.table j }

/-- Assignments to fields of `_table[i]`. -/
def modify (t : Map Node Raw) (i : Int) (f : HashEntry Node Raw → HashEntry Node Raw) :
    Except Fault (Map Node Raw) :=
  if 0 ≤ i ∧ i < t.tableSize then .ok (t.set i.toNat f) else .error .badIndex

end Map

section

variable [DecidableEq Key] [DecidableEq Node] (c : Config Key Node Raw)

/-! ## The free list -/

/-- `Add_to_free_list`. -/
def addToFreeList (t : Map Node Raw) (idx : Int) : Except Fault (Map Node Raw) := do
  let t ← if t.freeList ≠ -1 then t.modify t.freeList fun e => { e with raw := c.setPrev e.raw idx } else pure t
  let t ← t.modify idx fun e => { e with next := t.freeList, node := c.notFound }
  pure { t with freeList := idx }

/-- `Remove_from_free_list`. -/
def removeFromFreeList (t : Map Node Raw) (idx : Int) : Except Fault (Map Node Raw) := do
  let e ← t.read idx
  let t ← if t.freeList = idx then pure { t with freeList := e.next }
    else t.modify (c.prev e.raw) fun p => { p with next := e.next }
  let e ← t.read idx
  if e.next ≠ -1 then
    let t ← t.modify e.next fun n => { n with raw := c.setPrev n.raw (c.prev e.raw) }
    t.modify idx fun e => { e with next := -1 }
  else pure t

/-- `Alloc_from_free_list`; the second read is of the assertion that the new head is free. -/
def allocFromFreeList (t : Map Node Raw) : Except Fault (Int × Map Node Raw) := do
  let e ← t.read t.freeList
  let head ← t.read e.next
  if head.node = c.notFound then pure (t.freeList, { t with freeList := e.next }) else throw .assertion

/-! ## Insertion -/

/-- The search of `Insert` for the link to the displaced entry. -/
def findLink (t : Map Node Raw) (idx : Int) : Nat → Int → Except Fault Int
  | 0, _ => .error .noEnd
  | fuel + 1, tempIdx =>
    if tempIdx = -1 then .ok tempIdx
    else do
      let e ← t.read tempIdx
      if e.next = idx then pure tempIdx else findLink t idx fuel e.next

/-- Moves the entry of slot `idx` to a slot of the free list and corrects the link to it. -/
def displace (t : Map Node Raw) (idx : Int) : Except Fault (Map Node Raw) := do
  let (displaced, t) ← allocFromFreeList c t
  let e ← t.read idx
  let t ← t.modify displaced fun d => ⟨e.node, c.setKey d.raw (c.key e.raw), e.next⟩
  let tempIdx : Int := c.hash (c.key e.raw) t.tableSize
  if idx = tempIdx then t.modify idx fun e => { e with next := displaced }
  else
    let t ← t.modify idx fun e => { e with next := -1 }
    let tempIdx ← findLink t idx (t.tableSize + 1) tempIdx
    if tempIdx = -1 then throw .assertion
    else t.modify tempIdx fun e => { e with next := displaced }

/-- `Insert`, after the table was made large enough. -/
def insertAt (t : Map Node Raw) (key : Key) (node : Node) : Except Fault (Map Node Raw) := do
  let idx : Int := c.hash key t.tableSize
  let e ← t.read idx
  let t ← if e.node ≠ c.notFound then displace c t idx
    else do
      let t ← removeFromFreeList c t idx
      t.modify idx fun e => { e with next := -1 }
  let t ← t.modify idx fun e => { e with node := node, raw := c.setKey e.raw key }
  pure { t with numEntries := t.numEntries + 1 }

/-! ## Growing the table -/

/-- Marks every slot of the new table as one that stays unoccupied. -/
def clearNext (t : Map Node Raw) (firstNew : Nat) : Map Node Raw :=
  { t with table := fun i =>
      if i < firstNew then { t.table i with next := -1 }
      else if i < t.tableSize then { t.table i with next := -1, node := c.notFound }
      else t.table i }

/-- Marks the hash value of the entry in slot `i` as occupied and counts down when it was not. -/
def markHash (s : Map Node Raw × Nat) (i : Nat) : Except Fault (Map Node Raw × Nat) := do
  let e ← s.1.read i
  if e.node ≠ c.notFound then
    let h : Int := c.hash (c.key e.raw) s.1.tableSize
    let eh ← s.1.read h
    if eh.next = -1 then
      if s.2 = 0 then throw .assertion
      else
        let t ← s.1.modify h fun e => { e with next := 0 }
        pure (t, s.2 - 1)
    else pure s
  else pure s

/-- Marks the hash values of all entries. -/
def markHashes (t : Map Node Raw) (firstNew : Nat) (count : Nat) : Except Fault (Map Node Raw × Nat) :=
  (List.range firstNew).foldlM (markHash c) (t, count)

/-- Marks further slots as occupied, one for every collision. -/
def grabOccupied (t : Map Node Raw) : Nat → Int → Nat → Except Fault (Map Node Raw)
  | 0, _, _ => .error .noEnd
  | fuel + 1, i, count =>
    if count = 0 then .ok t
    else do
      let e ← t.read i
      if e.next = -1 then
        let t ← t.modify i fun e => { e with next := 0 }
        grabOccupied t fuel (i + 1) (count - 1)
      else grabOccupied t fuel (i + 1) count

/-- The last slot below `i` that stays unoccupied. -/
def lastUnoccupied (t : Map Node Raw) : Nat → Except Fault Nat
  | 0 => .error .badIndex
  | i + 1 => do
    let e ← t.read i
    if e.next = -1 then pure i else lastUnoccupied t i

/-- Links the slots below `i` that stay unoccupied in front of the list that starts at `unoccHead`. -/
def linkUnoccupied (t : Map Node Raw) : Nat → Int → Except Fault (Map Node Raw × Int)
  | 0, unoccHead => .ok (t, unoccHead)
  | i + 1, unoccHead => do
    let e ← t.read i
    if e.next = -1 then
      let t ← t.modify i fun e => { e with next := -unoccHead - 2 }
      linkUnoccupied t i i
    else linkUnoccupied t i unoccHead

/-- The first slot of the unoccupied list from `unocc` on that holds no pair. -/
def skipFull (t : Map Node Raw) : Nat → Int → Except Fault Int
  | 0, _ => .error .noEnd
  | fuel + 1, unocc => do
    let e ← t.read unocc
    if e.node ≠ c.notFound then skipFull t fuel (-e.next - 2) else pure unocc

/-- Moves the pairs of the slots below `i` that will be occupied to slots that will not, and puts the
former into the free list. -/
def evacuate (t : Map Node Raw) : Nat → Int → Except Fault (Map Node Raw)
  | 0, _ => .ok t
  | i + 1, unocc => do
    let e ← t.read i
    if e.next = 0 then
      if e.node ≠ c.notFound then
        if unocc = -1 then throw .assertion
        else
          let t ← t.modify unocc fun u => { u with node := e.node, raw := c.setKey u.raw (c.key e.raw) }
          let u ← t.read unocc
          let unocc ← skipFull c t (t.tableSize + 1) (-u.next - 2)
          let t ← addToFreeList c t i
          evacuate t i unocc
      else
        let t ← addToFreeList c t i
        evacuate t i unocc
    else evacuate t i unocc

/-- Inserts the pairs of the unoccupied list again; `_num_entries` is 0 at each call of `Insert`, which
must not enlarge the table. -/
def reinsert (t : Map Node Raw) : Nat → Int → Except Fault (Map Node Raw)
  | 0, _ => .error .noEnd
  | fuel + 1, i =>
    if i = -1 then .ok t
    else do
      let e ← t.read i
      let t ← addToFreeList c t i
      if e.node ≠ c.notFound then
        if 0 + 1 > capacity t.tableSize then throw .noEnd
        else
          let t ← insertAt c { t with numEntries := 0 } (c.key e.raw) e.node
          reinsert t fuel (-e.next - 2)
      else reinsert t fuel (-e.next - 2)

/-- `Enlarge`. -/
def enlarge (t : Map Node Raw) : Except Fault (Map Node Raw) := do
  let firstNew := t.tableSize
  let saveNumEntries := t.numEntries
  let t := clearNext c { t with tableSize := 2 * t.tableSize } firstNew
  let (t, count) ← markHashes c t firstNew saveNumEntries
  let t ← grabOccupied t (t.tableSize + 1) 0 count
  let last ← lastUnoccupied t t.tableSize
  let (t, unoccHead) ← linkUnoccupied t last last
  let unocc ← skipFull c t (t.tableSize + 1) unoccHead
  let t ← evacuate c { t with freeList := -1 } t.tableSize unocc
  let t ← reinsert c t (t.tableSize + 1) unoccHead
  pure { t with numEntries := saveNumEntries }

/-! ## The operations -/

/-- The map after the constructor and `Init`, for a memory `mem` that holds anything. -/
def init (mem : Nat → HashEntry Node Raw) (initCapacity : Nat) : Map Node Raw :=
  let size := Nat.max (sizeFor initCapacity) 16
  { table := fun i =>
      if i < size then
        ⟨c.notFound, c.setPrev (mem i).raw ((i : Int) - 1), if i = size - 1 then -1 else (i : Int) + 1⟩
      else mem i
    tableSize := size
    numEntries := 0
    freeList := 0 }

/-- `Insert`. -/
def insert (t : Map Node Raw) (key : Key) (node : Node) : Except Fault (Map Node Raw) := do
  let t ← if t.numEntries + 1 > capacity t.tableSize then enlarge c t else pure t
  insertAt c t key node

/-- The search of `Delete`: the slot of the key and the one before it in its chain. -/
def deleteSearch (t : Map Node Raw) (key : Key) : Nat → Int → Int → Except Fault (Int × Int)
  | 0, _, _ => .error .noEnd
  | fuel + 1, prevIdx, idx =>
    if idx = -1 then .ok (prevIdx, idx)
    else do
      let e ← t.read idx
      if e.node ≠ c.notFound ∧ c.key e.raw ≠ key then deleteSearch t key fuel idx e.next
      else pure (prevIdx, idx)

/-- `Delete`. -/
def delete (t : Map Node Raw) (key : Key) : Except Fault (Map Node Raw) := do
  let (prevIdx, idx) ← deleteSearch c t key (t.tableSize + 1) (-1) (c.hash key t.tableSize)
  if idx = -1 then throw .assertion
  else
    let e ← t.read idx
    if e.node = c.notFound then throw .assertion
    else if prevIdx ≠ -1 then
      let t ← t.modify prevIdx fun p => { p with next := e.next }
      let t ← addToFreeList c t idx
      pure { t with numEntries := t.numEntries - 1 }
    else if e.next ≠ -1 then
      let n ← t.read e.next
      let t ← t.modify idx fun e => ⟨n.node, c.setKey e.raw (c.key n.raw), n.next⟩
      let t ← addToFreeList c t e.next
      pure { t with numEntries := t.numEntries - 1 }
    else
      let t ← addToFreeList c t idx
      pure { t with numEntries := t.numEntries - 1 }

/-- `Entry_lookup`. -/
def entryLookup (t : Map Node Raw) (key : Key) : Nat → Int → Except Fault Int
  | 0, _ => .error .noEnd
  | fuel + 1, idx =>
    if idx = -1 then .ok (-1)
    else do
      let e ← t.read idx
      if e.node = c.notFound then pure (-1)
      else if c.key e.raw = key then pure idx
      else entryLookup t key fuel e.next

/-- `Lookup`. -/
def lookup (t : Map Node Raw) (key : Key) : Except Fault Node := do
  let idx ← entryLookup c t key (t.tableSize + 1) (c.hash key t.tableSize)
  if idx = -1 then pure c.notFound
  else
    let e ← t.read idx
    pure e.node

end

end Path64.IdMap

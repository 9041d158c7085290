import Path64.Lib.Chunks
import Path64.Lib.Wrap

/-!
# Segmented arrays

`SEGMENTED_ARRAY` keeps its elements in blocks whose addresses the allocator or a caller chooses. A map has one entry for
every `block_size` elements; entries for adjacent memory count as one block.

* `SegArray` : the members of the class, without the ownership of blocks, which only the destructor reads;
* `allocate`, `popMap` : the last block comes and goes;
* `newEntry`, `insert`, `insertMany`, `transfer`, `reserve`, `deleteLast`, `deleteLastN`, `deleteDownTo`;
* `step`, `run` : sequences of these operations;
* `forAllEntries`, `forAllBlocks`, `findEntryIf`, `iterate`, `copyArrayRange` : the elements one after the other.
-/

namespace Path64.Segmented

open Lib

/-- The template's `block_size` and `sizeof(T)`. -/
structure Layout where
  shift : Nat
  shift_lt : shift < 32
  sizeofT : Nat
  sizeofT_pos : 0 < sizeofT

/-- `block_size`, a power of two. -/
def Layout.blockSize (L : Layout) : Nat := 2 ^ L.shift

/-- The bytes of `block_size` elements. -/
def Layout.blockBytes (L : Layout) : Nat := L.blockSize * L.sizeofT

/-- A value in a `UINT`. -/
def u32 (x : Int) : Nat := (x % 2 ^ 32).toNat

variable {T : Type}

/-- `SEGMENTED_ARRAY`, with the memory its blocks are in. -/
structure SegArray (T : Type) where
  map : List Nat
  size : Nat
  maxSize : Nat
  blockBase : Int
  nextBlockSize : Nat
  block : Nat
  mem : Nat → T

/-- `SEGMENTED_ARRAY::SEGMENTED_ARRAY`. -/
def SegArray.empty (mem : Nat → T) : SegArray T := ⟨[], 0, 0, -1, 0, 0, mem⟩

/-- `MEM_POOL_Alloc`: the address for a number of bytes, given the blocks in use. -/
abbrev Alloc := List Nat → Nat → Nat

/-! ## Blocks -/

/-- `Round_up`. -/
def roundUp (L : Layout) (s : Nat) : Nat := u32 (s + (L.blockSize - 1)) &&& (2 ^ 32 - 1 - (L.blockSize - 1))

/-- `Update_Map`: the number of its iterations is bounded by that of the 32-bit values. -/
def updateMap (L : Layout) : Nat → Nat → Nat → List Nat → List Nat
  | 0, _, _, map => map
  | fuel + 1, marker, newSize, map =>
    let map := map ++ [marker]
    let newSize := u32 (newSize - L.blockSize)
    if newSize = 0 then map else updateMap L fuel (marker + L.blockBytes) newSize map

/-- The index of an element in the last block: `idx - block_base`. -/
def SegArray.inBlock (st : SegArray T) (idx : Nat) : Nat := u32 (idx - st.blockBase)

/-- The block that `Allocate` asks for. -/
def allocSize (L : Layout) (next : Nat) : Nat := if next = 0 then L.blockSize else roundUp L next

/-- `Allocate`. -/
def allocate (L : Layout) (zero : T) (alloc : Alloc) (st : SegArray T) : SegArray T :=
  let newSize := allocSize L st.nextBlockSize
  let block := alloc st.map (newSize * L.sizeofT)
  { map := updateMap L (2 ^ 32) block newSize st.map
    size := st.size
    maxSize := u32 (st.maxSize + newSize)
    blockBase := wrap32 st.size
    nextBlockSize := 0
    block := block
    mem := writeAll L.sizeofT st.mem block (List.replicate newSize zero) }

/-- The entries of the map, last first, without those from `block` on; `none` when they run out. -/
def popEntries (block : Nat) : List Nat → Option (List Nat)
  | [] => none
  | f :: fs => if f = block then some fs else popEntries block fs

/-- The first entry of the block that ends with the entry `idx` of the map, which is at `block`. -/
def walkBack (L : Layout) (map : List Nat) : Nat → Nat → Int → Nat × Int
  | 0, block, blockBase => (block, blockBase)
  | idx + 1, block, blockBase =>
    if start map idx + L.blockBytes = block then walkBack L map idx (start map idx) (wrap32 (blockBase - L.blockSize))
    else (block, blockBase)

/-- `Pop_Map`; `none` where it would take an entry from an empty map, or read one that is not there. -/
def popMap (L : Layout) (st : SegArray T) : Option (SegArray T) := do
  let rest ← popEntries st.block st.map.reverse
  let st := { st with
    map := rest.reverse
    nextBlockSize := u32 (st.nextBlockSize + st.inBlock st.maxSize)
    maxSize := st.size }
  if 0 < st.size then
    let blockBase := wrap32 (st.size - L.blockSize)
    let idx := u32 blockBase / L.blockSize
    let block ← st.map[idx]?
    let walked := walkBack L st.map idx block blockBase
    return { st with block := walked.1, blockBase := walked.2 }
  else
    return { st with block := 0, blockBase := -1 }

/-! ## Operations -/

/-- `New_entry`: the address of the new element. -/
def newEntry (L : Layout) (zero : T) (alloc : Alloc) (st : SegArray T) : SegArray T × Nat :=
  let st := if st.size = st.maxSize then allocate L zero alloc st else st
  ({ st with size := u32 (st.size + 1) }, st.block + st.inBlock st.size * L.sizeofT)

/-- An assignment to the element at an address. -/
def SegArray.assign (st : SegArray T) (p : Nat) (x : T) : SegArray T := { st with mem := Function.update st.mem p x }

/-- `Insert`, of one element. -/
def insert (L : Layout) (zero : T) (alloc : Alloc) (st : SegArray T) (x : T) : SegArray T :=
  let entry := newEntry L zero alloc st
  entry.1.assign entry.2 x

/-- `Copy`. -/
def copy (L : Layout) (st : SegArray T) (xs : List T) : SegArray T :=
  { st with
    mem := writeAll L.sizeofT st.mem (st.block + st.inBlock st.size * L.sizeofT) xs
    size := u32 (st.size + xs.length) }

/-- `Reserve`. -/
def reserve (st : SegArray T) (n : Nat) : SegArray T :=
  if u32 (u32 (st.maxSize - st.size) + st.nextBlockSize) < n then
    { st with nextBlockSize := u32 (n - u32 (st.maxSize - st.size)) }
  else st

/-- `Insert`, of many elements. -/
def insertMany (L : Layout) (zero : T) (alloc : Alloc) (st : SegArray T) (xs : List T) : SegArray T :=
  if u32 (st.size + xs.length) ≤ st.maxSize then copy L st xs
  else
    let spaceLeft := u32 (st.maxSize - st.size)
    let st := copy L st (xs.take spaceLeft)
    let st := reserve st (u32 (xs.length - spaceLeft))
    copy L (allocate L zero alloc st) (xs.drop spaceLeft)

/-- The part of `Transfer` that takes over whole blocks of the buffer `x`, which holds `xs`. -/
def reuse (L : Layout) (st : SegArray T) (x : Nat) (xs : List T) : SegArray T :=
  let reusedSize := xs.length &&& (2 ^ 32 - 1 - (L.blockSize - 1))
  { map := updateMap L (2 ^ 32) x reusedSize st.map
    size := u32 (st.size + reusedSize)
    maxSize := u32 (st.maxSize + reusedSize)
    blockBase := wrap32 st.size
    nextBlockSize := if st.nextBlockSize > reusedSize then st.nextBlockSize - reusedSize else 0
    block := x
    mem := writeAll L.sizeofT st.mem x (xs.take reusedSize) }

/-- `Transfer`, of a buffer at `x` that holds `xs`. -/
def transfer (L : Layout) (zero : T) (alloc : Alloc) (st : SegArray T) (x : Nat) (xs : List T) : SegArray T :=
  if u32 (st.size + xs.length) ≤ st.maxSize then copy L st xs
  else
    let spaceLeft := u32 (st.maxSize - st.size)
    let st := if 0 < spaceLeft then copy L st (xs.take spaceLeft) else st
    let rest := xs.drop spaceLeft
    let x := x + spaceLeft * L.sizeofT
    let reusedSize := if L.blockSize ≤ rest.length then rest.length &&& (2 ^ 32 - 1 - (L.blockSize - 1)) else 0
    let st := if L.blockSize ≤ rest.length then reuse L st x rest else st
    if 0 < rest.length - reusedSize then copy L (allocate L zero alloc st) (rest.drop reusedSize) else st

/-- `Delete_last ()`. -/
def deleteLast (L : Layout) (st : SegArray T) : Option (SegArray T) :=
  let st := { st with size := u32 (st.size - 1) }
  if st.size = u32 st.blockBase then popMap L st else some st

/-- `Delete_last (n)`: each iteration takes an entry from the map. -/
def deleteLastLoop (L : Layout) : Nat → SegArray T → Nat → Option (SegArray T)
  | 0, _, _ => none
  | fuel + 1, st, n =>
    if st.inBlock st.size ≤ n then
      (popMap L { st with size := u32 st.blockBase }).bind fun st' => deleteLastLoop L fuel st' (n - st.inBlock st.size)
    else some { st with size := u32 (st.size - n) }

/-- `Delete_last (n)`. -/
def deleteLastN (L : Layout) (st : SegArray T) (n : Nat) : Option (SegArray T) :=
  deleteLastLoop L (st.map.length + 1) st n

/-- `Delete_down_to`. -/
def deleteDownTo (L : Layout) (st : SegArray T) (idx : Nat) : Option (SegArray T) :=
  if idx < st.size then deleteLastN L st (u32 (st.size - idx)) else some st

/-- The operations that change an array; the caller of `New_entry` may assign to the new element. -/
inductive Op (T : Type)
  | insert (x : T)
  | newEntry (x : Option T)
  | insertMany (xs : List T)
  | transfer (x : Nat) (xs : List T)
  | reserve (n : Nat)
  | deleteLast
  | deleteLastN (n : Nat)
  | deleteDownTo (idx : Nat)

/-- An operation and the index that it returns. -/
def step (L : Layout) (zero : T) (alloc : Alloc) (st : SegArray T) : Op T → Option (SegArray T × Option Nat)
  | .insert x => some (insert L zero alloc st x, some st.size)
  | .newEntry x =>
    let entry := newEntry L zero alloc st
    some (x.elim entry.1 (entry.1.assign entry.2), some st.size)
  | .insertMany xs => some (insertMany L zero alloc st xs, some st.size)
  | .transfer x xs => some (transfer L zero alloc st x xs, some st.size)
  | .reserve n => some (reserve st n, none)
  | .deleteLast => (deleteLast L st).map (·, none)
  | .deleteLastN n => (deleteLastN L st n).map (·, none)
  | .deleteDownTo idx => (deleteDownTo L st idx).map (·, none)

/-- A sequence of operations, each with the allocator as it is at that time; the indices that they return. -/
def run (L : Layout) (zero : T) : List (Op T × Alloc) → SegArray T → Option (SegArray T × List (Option Nat))
  | [], st => some (st, [])
  | (op, alloc) :: ops, st => do
    let (st, ret) ← step L zero alloc st op
    let (st, rets) ← run L zero ops st
    return (st, ret :: rets)

/-! ## Elements -/

/-- `&Entry (idx)`. -/
def entryPtr (L : Layout) (st : SegArray T) (idx : Nat) : Nat :=
  start st.map (idx / L.blockSize) + idx % L.blockSize * L.sizeofT

/-- `Entry (idx)`, where the map has an entry for it. -/
def entry (L : Layout) (st : SegArray T) (idx : Nat) : Option T :=
  if idx / L.blockSize < st.map.length then some (st.mem (entryPtr L st idx)) else none

/-- The loop of `next_block_idx`, for at most as many iterations as there are entries. -/
def nextBlockLoop (L : Layout) (map : List Nat) : Nat → Nat → Nat
  | 0, idx => idx + 1
  | fuel + 1, idx =>
    if idx + 1 < map.length ∧ start map idx + L.blockBytes = start map (idx + 1) then nextBlockLoop L map fuel (idx + 1)
    else idx + 1

/-- `next_block_idx`. -/
def nextBlockIdx (L : Layout) (st : SegArray T) (idx : Nat) : Nat := nextBlockLoop L st.map st.map.length idx

/-- `Get_block_size`. -/
def getBlockSize (L : Layout) (st : SegArray T) (idx : Nat) : Nat :=
  u32 (min (u32 (nextBlockIdx L st (idx / L.blockSize) * L.blockSize : Nat)) st.size - idx)

/-- The elements at `n` consecutive addresses, the first of which has the index `idx`. -/
def entriesAt (L : Layout) (st : SegArray T) (ptr idx n : Nat) : List (T × Nat) :=
  (List.range n).map fun j => (st.mem (ptr + j * L.sizeofT), idx + j)

/-- `For_all_entries`: the elements and indices that the operation is called with. -/
def forAllLoop (L : Layout) (st : SegArray T) : Nat → Nat → List (T × Nat)
  | 0, _ => []
  | fuel + 1, first =>
    if first < st.size then
      let size := getBlockSize L st first
      entriesAt L st (entryPtr L st first) first size ++ forAllLoop L st fuel (first + size)
    else []

/-- `For_all_entries`. -/
def forAllEntries (L : Layout) (st : SegArray T) (first : Nat) : List (T × Nat) := forAllLoop L st st.size first

/-- The loop of `For_all_blocks`: the index, address and size of each block. -/
def forBlocksLoop (L : Layout) (st : SegArray T) : Nat → Nat → List (Nat × Nat × Nat)
  | 0, _ => []
  | fuel + 1, i =>
    if i < st.size then
      let size := getBlockSize L st i
      (i, entryPtr L st i, size) :: forBlocksLoop L st fuel (i + size)
    else []

/-- `For_all_blocks`. -/
def forAllBlocks (L : Layout) (st : SegArray T) : List (Nat × Nat × Nat) := forBlocksLoop L st st.size 0

/-- `NOT_FOUND`. -/
def notFound : Nat := 2 ^ 32 - 1

/-- The loop of `Find_entry_if`. -/
def findLoop (L : Layout) (st : SegArray T) (pred : T × Nat → Bool) : Nat → Nat → Nat
  | 0, _ => notFound
  | fuel + 1, i =>
    if i < st.size then
      let size := getBlockSize L st i
      match (entriesAt L st (entryPtr L st i) i size).find? pred with
      | some e => e.2
      | none => findLoop L st pred fuel (i + size)
    else notFound

/-- `Find_entry_if`. -/
def findEntryIf (L : Layout) (st : SegArray T) (pred : T × Nat → Bool) (i : Nat) : Nat := findLoop L st pred st.size i

/-! ## Iterators -/

/-- `SEGMENTED_ARRAY_ITERATOR`. -/
structure Iterator where
  ptr : Nat
  segmentLast : Nat
  mapIdx : Nat
deriving DecidableEq

/-- `Block_end`. -/
def blockEnd (L : Layout) (st : SegArray T) (idx : Nat) : Nat :=
  start st.map idx + (nextBlockIdx L st idx - idx) * L.blockSize * L.sizeofT

/-- `begin ()`. -/
def begin (L : Layout) (st : SegArray T) : Iterator := ⟨start st.map 0, blockEnd L st 0, 0⟩

/-- `end ()`. -/
def endOf (L : Layout) (st : SegArray T) : Iterator :=
  ⟨st.block + st.inBlock st.size * L.sizeofT, st.block + st.inBlock st.maxSize * L.sizeofT, st.size / L.blockSize⟩

/-- `Index ()`. -/
def Iterator.index (it : Iterator) (L : Layout) (st : SegArray T) : Nat :=
  it.mapIdx * L.blockSize + (it.ptr - start st.map it.mapIdx) / L.sizeofT

/-- `operator ++`. -/
def Iterator.next (it : Iterator) (L : Layout) (st : SegArray T) : Iterator :=
  let ptr := it.ptr + L.sizeofT
  if ptr = it.segmentLast then
    let mapEntries := (it.segmentLast - start st.map it.mapIdx) / L.sizeofT / L.blockSize
    if it.mapIdx + mapEntries < st.map.length then
      let mapIdx := it.mapIdx + mapEntries
      ⟨start st.map mapIdx, blockEnd L st mapIdx, mapIdx⟩
    else { it with ptr := ptr }
  else { it with ptr := ptr }

/-- The elements between two iterators, with their indices, for at most `fuel` of them; `operator ==` looks at `ptr`. -/
def visits (L : Layout) (st : SegArray T) (last : Iterator) : Nat → Iterator → List (T × Nat)
  | 0, _ => []
  | fuel + 1, it =>
    if it.ptr = last.ptr then [] else (st.mem it.ptr, it.index L st) :: visits L st last fuel (it.next L st)

/-! ## Copies -/

/-- The loop of `Copy_array_range`. -/
def copyLoop (L : Layout) (zero : T) (alloc : Alloc) (src : SegArray T) (lastIdx : Nat) :
    Nat → Nat → SegArray T → SegArray T
  | 0, _, dst => dst
  | fuel + 1, firstIdx, dst =>
    if firstIdx < lastIdx then
      let size := min (getBlockSize L src firstIdx) (lastIdx - firstIdx)
      let xs := (entriesAt L src (entryPtr L src firstIdx) firstIdx size).map Prod.fst
      copyLoop L zero alloc src lastIdx fuel (firstIdx + size) (insertMany L zero alloc dst xs)
    else dst

/-- `Copy_array_range`. -/
def copyArrayRange (L : Layout) (zero : T) (alloc : Alloc) (src dst : SegArray T) (firstIdx lastIdx : Nat) :
    SegArray T × Nat :=
  let lastIdx := min lastIdx src.size
  let entries := u32 (lastIdx - firstIdx)
  (copyLoop L zero alloc src lastIdx (lastIdx - firstIdx) firstIdx (reserve dst entries), entries)

end Path64.Segmented

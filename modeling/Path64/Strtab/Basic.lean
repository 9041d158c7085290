import Path64.Lib.HashTable
import Mathlib.Algebra.Group.Nat.Defs

/-!
# String tables

`common/com/strtab.cxx`: every string is stored once in one growing buffer and named by its offset there; a hash table
of packed words finds it again. Lengths (`UINT32`) are taken modulo `2 ^ 32`, the packed words modulo `2 ^ 64`.

* `makeStrIndex`, `strIndexSize`, `strIndexIndex` : the packed word of an offset and a clipped length;
* `StrClass`, `nullTerminatedString`, `characterArray` : the two ways a string lies in the buffer;
* `StrTab`, `reserve`, `copyStr`, `insert`, `initHash` : the table of the template `STR_TAB`;
* `initializeEmpty`, `initializeStrtab`, `mergeStrtab` : the functions over it;
* `saveStr`, `saveStr2`, `saveStrN` : what the callers see.
-/

namespace Path64.Strtab

/-! ## Packed words -/

def strIndexSize (w : Nat) : Nat := w &&& 0xff

def strIndexIndex (w : Nat) : Nat := w >>> 8

/-- The offset above 8 bits of length; a longer length is clipped to `0xff`. -/
def makeStrIndex (size idx : Nat) : Nat := (idx <<< 8 ||| if size > 0xff then 0xff else size) % 2 ^ 64

/-! ## How a string lies in the buffer -/

/-- The bytes before the first null. -/
def cString (buffer : List UInt8) : List UInt8 := buffer.takeWhile (· ≠ 0)

def strlen (buffer : List UInt8) : Nat := (cString buffer).length

/-- The bytes of `UNALIGN_INT32`, on a host that stores the low byte first. -/
def unalignBytes (n : Nat) : List UInt8 := (List.range 4).map fun i => UInt8.ofNat (n / 256 ^ i)

/-- The word that four bytes make up. -/
def unalignInt : List UInt8 → Nat
  | b0 :: b1 :: b2 :: b3 :: _ => b0.toNat + 256 * b1.toNat + 256 ^ 2 * b2.toNat + 256 ^ 3 * b3.toNat
  | _ => 0

/-- The static functions of a string class; a pointer is the bytes from there on, and `copy` gives the bytes written. -/
structure StrClass where
  getStr : List UInt8 → List UInt8
  getLength : List UInt8 → Nat
  getBufferLength : Nat → Nat
  copy : List UInt8 → Nat → List UInt8

/-- `NULL_TERMINATED_STRING`. -/
def nullTerminatedString : StrClass where
  getStr buffer := buffer
  getLength buffer := strlen buffer % 2 ^ 32
  getBufferLength length := (length + 1) % 2 ^ 32
  copy str length := str.take ((length + 1) % 2 ^ 32)

/-- `CHARACTER_ARRAY`: one length byte below `0xff`, otherwise `0xff` and four length bytes. -/
def characterArray : StrClass where
  getStr buffer := if buffer.headD 0 ≠ 0xff then buffer.drop 1 else buffer.drop (4 + 1)
  getLength buffer := if buffer.headD 0 ≠ 0xff then (buffer.headD 0).toNat else unalignInt (buffer.drop 1)
  getBufferLength length := if length < 0xff then (length + 1) % 2 ^ 32 else (length + 1 + 4) % 2 ^ 32
  copy str length :=
    if length < 0xff then UInt8.ofNat length :: str.take length
    else 0xff :: (unalignBytes length ++ str.take length)

/-! ## The table -/

/-- `STR_TAB`: the allocated bytes, how many are in use, how many there are, and the packed words of the strings. -/
structure StrTab where
  buffer : List UInt8
  lastIdx : Nat
  bufferSize : Nat
  hashTable : HashTable Nat

/-- `hash_key`: where the string starts and how long it is. -/
structure HashKey where
  str : List UInt8
  size : Nat

/-- The function object `hash`; a `char` is signed. -/
def HashKey.hash (key : HashKey) : Nat :=
  (key.str.take key.size).foldl (fun h c => (5 * h + (c.toBitVec.signExtend 32).toNat) % 2 ^ 32) 0

/-- The function object `equal`. -/
def HashKey.equal (key1 key2 : HashKey) : Bool :=
  key1.size == key2.size && key1.str.head? == key2.str.head? && key1.str.take key1.size == key2.str.take key1.size

/-- The function object `extract_key`: the packed length serves while it is not clipped. -/
def extractKey (STR : StrClass) (buffer : List UInt8) (strIndex : Nat) : HashKey :=
  let str := buffer.drop (strIndexIndex strIndex)
  if strIndexSize strIndex < 0xff then ⟨STR.getStr str, strIndexSize strIndex⟩
  else ⟨STR.getStr str, STR.getLength str⟩

section
variable (nextSize : Nat → Nat) (junk : Nat → Nat → UInt8)

/-- `n` fresh bytes with whatever the allocator leaves in them. -/
def alloc (n : Nat) : List UInt8 := (List.range n).map (junk n)

/-- The old bytes, then fresh ones up to the new size. -/
def realloc (buffer : List UInt8) (n : Nat) : List UInt8 := buffer.take n ++ (alloc junk n).drop buffer.length

/-- The loop of `reserve`: the next buffer size with `size` bytes free. -/
def growSize (size lastIdx : Nat) : Nat → Nat → Option Nat
  | 0, bufferSize => if size > bufferSize - lastIdx then none else some bufferSize
  | fuel + 1, bufferSize =>
    if size > bufferSize - lastIdx then
      growSize size lastIdx fuel (if bufferSize < 0x100000 then bufferSize * 2 else bufferSize + 0x80000)
    else some bufferSize

/-- Make room for `size` more bytes. -/
def reserve (t : StrTab) (size : Nat) : Option StrTab := do
  if size > t.bufferSize - t.lastIdx then
    let bufferSize ← growSize size t.lastIdx size t.bufferSize
    some { t with bufferSize, buffer := realloc junk t.buffer bufferSize }
  else some t

/-- Write `bytes` at offset `idx`; a write beyond the allocated bytes is a fault. -/
def writeAt (buffer : List UInt8) (idx : Nat) (bytes : List UInt8) : Option (List UInt8) :=
  if idx + bytes.length ≤ buffer.length then
    some (buffer.take idx ++ (bytes ++ buffer.drop (idx + bytes.length)))
  else none

/-- Append the code of `str`, through a copy of its own since `str` may point into the buffer. -/
def copyStr (STR : StrClass) (t : StrTab) (str : List UInt8) (size : Nat) : Option StrTab := do
  let bufferSize := STR.getBufferLength size
  let newStr := str.take size ++ [0]
  let t ← reserve junk t bufferSize
  let buffer ← writeAt t.buffer t.lastIdx (STR.copy newStr size)
  some { t with buffer, lastIdx := t.lastIdx + bufferSize }

/-- Append the string, look it up, and take the append back if it was there. -/
def insert (STR : StrClass) (t : StrTab) (str : List UInt8) (size : Nat) : Option (StrTab × Nat) := do
  let index := t.lastIdx
  let t ← copyStr junk STR t str size
  let newIndex := makeStrIndex size index
  let key := extractKey STR t.buffer
  let (hashTable, oldIndex) :=
    t.hashTable.findOrInsert (fun w => (key w).hash) (fun v w => (key v).equal (key w)) nextSize newIndex
  if newIndex ≠ oldIndex then
    some ({ t with hashTable, lastIdx := index }, strIndexIndex oldIndex)
  else some ({ t with hashTable }, index)

/-- The loop `while (idx < limit)` over the entries of a buffer; `idx` is `width` bits wide. -/
def walkEntries {σ : Type} (STR : StrClass) (buf : List UInt8) (limit width : Nat)
    (body : σ → Nat → Nat → Option σ) : Nat → Nat → σ → Option σ
  | 0, idx, s => if idx < limit then none else some s
  | fuel + 1, idx, s =>
    if idx < limit then do
      let length := STR.getLength (buf.drop idx)
      let s ← body s idx length
      walkEntries STR buf limit width body fuel ((idx + STR.getBufferLength length) % 2 ^ width) s
    else some s

/-- The body of the loop of `init_hash`. -/
def hashEntry (STR : StrClass) (t : StrTab) (idx length : Nat) : Option StrTab :=
  let key := extractKey STR t.buffer
  some { t with hashTable := (t.hashTable.findOrInsert (fun w => (key w).hash)
    (fun v w => (key v).equal (key w)) nextSize (makeStrIndex length idx)).1 }

/-- Enter every string of the buffer into the hash table. -/
def initHash (STR : StrClass) (t : StrTab) : Option StrTab :=
  walkEntries STR t.buffer t.lastIdx 64 (hashEntry nextSize STR) t.lastIdx 1 t

/-! ## The functions over a table -/

/-- The constructor `STR_TAB`. -/
def StrTab.new (bucketSize : Nat) : StrTab := ⟨[], 0, 0, HashTable.empty (nextSize bucketSize)⟩

/-- `initialize_strtab` for a producer: a buffer of `size` bytes with the first one null. -/
def initializeEmpty (t : StrTab) (size : Nat) : Option StrTab := do
  let buffer ← writeAt (alloc junk size) 0 [0]
  some { t with bufferSize := size, buffer, lastIdx := 1 }

/-- `initialize_strtab` from the `size` bytes of an input file. -/
def initializeStrtab (STR : StrClass) (t : StrTab) (buf : List UInt8) (size : Nat) : Option StrTab :=
  initHash nextSize STR ⟨buf.take size, size, size, t.hashTable.clear⟩

/-- The body of the loop of `merge_strtab`. -/
def mergeEntry (STR : StrClass) (buf : List UInt8) (st : StrTab × (Nat → Nat)) (idx length : Nat) :
    Option (StrTab × (Nat → Nat)) := do
  let (t, newIdx) ← insert nextSize junk STR st.1 (STR.getStr (buf.drop idx)) length
  some (t, Function.update st.2 idx (newIdx % 2 ^ 32))

/-- `merge_strtab`: insert every string of `buf` and note its new index. -/
def mergeStrtab (STR : StrClass) (t : StrTab) (buf : List UInt8) (size : Nat) (map : Nat → Nat) :
    Option (StrTab × (Nat → Nat)) :=
  walkEntries STR buf size 32 (mergeEntry nextSize junk STR buf) size 1 (t, Function.update map 0 0)

/-- `Save_Str` on `Strtab`; `none` is the null pointer. -/
def saveStr (t : StrTab) : Option (List UInt8) → Option (StrTab × Nat)
  | none => some (t, 0)
  | some str => insert nextSize junk nullTerminatedString t str (strlen str % 2 ^ 32)

/-- `Save_Str2` on `Strtab`. -/
def saveStr2 (t : StrTab) (s1 s2 : List UInt8) : Option (StrTab × Nat) :=
  saveStr nextSize junk t (some (cString s1 ++ cString s2 ++ [0]))

/-- `Save_StrN` on `TCON_strtab`. -/
def saveStrN (t : StrTab) (s1 : List UInt8) (len : Nat) : Option (StrTab × Nat) :=
  if len = 0 then some (t, 0)
  else (insert nextSize junk characterArray t s1 len).map fun r => (r.1, r.2 % 2 ^ 32)

end

/-! ## Reading a table -/

/-- Offset `idx` holds the string `s`: its length and its bytes read back, inside the bytes in use. -/
def Denotes (STR : StrClass) (t : StrTab) (idx : Nat) (s : List UInt8) : Prop :=
  idx < t.lastIdx ∧ STR.getLength (t.buffer.drop idx) = s.length ∧
    (STR.getStr (t.buffer.drop idx)).take s.length = s

instance (STR : StrClass) (t : StrTab) (idx : Nat) (s : List UInt8) : Decidable (Denotes STR t idx s) :=
  inferInstanceAs (Decidable (_ ∧ _ ∧ _))

/-- The entries met when stepping through the bytes in use by `get_length` and `get_buffer_length`. -/
def walk (STR : StrClass) (t : StrTab) : Option (List (Nat × List UInt8)) :=
  walkEntries STR t.buffer t.lastIdx 64 (fun entries idx length =>
      some (entries ++ [(idx, (STR.getStr (t.buffer.drop idx)).take length)]))
    t.lastIdx 1 []

/-- The bytes in use, as they are written to a file. -/
def StrTab.image (t : StrTab) : List UInt8 := t.buffer.take t.lastIdx

end Path64.Strtab

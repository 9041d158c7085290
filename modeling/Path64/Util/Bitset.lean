import Path64.Lib.Checked
import Path64.Lib.Search

/-!
# Bit sets

`bitset.c`: sets of numbers in words of 32 bits, `x` in bit `x % 8` of byte `x / 8`; byte `i` is the byte
`i % 4` from below of word `i / 4`.

* `Bs`, `mem`, `elements` : a set, its bits and the finite set it stands for;
* `forWords`, `forBytes` : the loops that write;
* the operations under the names of the source; `none` is `BS_CHOOSE_FAILURE`.
-/

namespace Path64.Bitset

open Lib

abbrev Word := BitVec 32

abbrev Byte := BitVec 8

structure Bs where
  words : List Word
  deriving DecidableEq, Repr

namespace Bs

/-- `BS_word_count`. -/
def wordCount (set : Bs) : Nat := set.words.length

/-- `BS_word`. -/
def word (set : Bs) (i : Nat) : Word := set.words.getD i 0

/-- `BS_byte`. -/
def byte (set : Bs) (i : Nat) : Byte := (set.word (i / 4)).extractLsb' (8 * (i % 4)) 8

def setWord (set : Bs) (i : Nat) (word : Word) : Bs := ⟨set.words.set i word⟩

def setByte (set : Bs) (i : Nat) (byte : Byte) : Bs :=
  let mask : Word := 0xff#32 <<< (8 * (i % 4))
  set.setWord (i / 4) ((set.word (i / 4) &&& ~~~mask) ||| (byte.setWidth 32 <<< (8 * (i % 4))))

/-- Bit `x`. -/
def mem (set : Bs) (x : Nat) : Bool := (set.word (x / 32)).getLsbD (x % 32)

/-- The set a `BS` stands for. -/
def elements (set : Bs) : Finset Nat := (Finset.range (32 * set.wordCount)).filter fun x => set.mem x

end Bs

/-- `for ( i = lo; i < hi; ++i ) BS_word(set,i) = f i BS_word(set,i);` -/
def forWords (lo hi : Nat) (f : Nat → Word → Word) (set : Bs) : Bs :=
  (List.range' lo (hi - lo)).foldl (fun set i => set.setWord i (f i (set.word i))) set

/-- The same for bytes. -/
def forBytes (lo hi : Nat) (f : Nat → Byte → Byte) (set : Bs) : Bs :=
  (List.range' lo (hi - lo)).foldl (fun set i => set.setByte i (f i (set.byte i))) set

/-- `bs_ONES`. -/
def ones : Word := BitVec.allOnes 32

/-- `bs_PBPW`, in an `INT32`. -/
def pbpw (wordCount : Nat) : Int := (wordCount * 32 : Int).bmod (2 ^ 32)

/-- Mapping from 8 bit unsigned integers to the index of the first one bit. -/
def firstOneTable : List Nat := [0, 0, 1, 0, 2, 0, 1, 0, 3, 0, 1, 0, 2, 0, 1, 0, 4, 0, 1, 0, 2, 0, 1, 0, 3, 0, 1, 0, 2, 0, 1, 0,
  5, 0, 1, 0, 2, 0, 1, 0, 3, 0, 1, 0, 2, 0, 1, 0, 4, 0, 1, 0, 2, 0, 1, 0, 3, 0, 1, 0, 2, 0, 1, 0,
  6, 0, 1, 0, 2, 0, 1, 0, 3, 0, 1, 0, 2, 0, 1, 0, 4, 0, 1, 0, 2, 0, 1, 0, 3, 0, 1, 0, 2, 0, 1, 0,
  5, 0, 1, 0, 2, 0, 1, 0, 3, 0, 1, 0, 2, 0, 1, 0, 4, 0, 1, 0, 2, 0, 1, 0, 3, 0, 1, 0, 2, 0, 1, 0,
  7, 0, 1, 0, 2, 0, 1, 0, 3, 0, 1, 0, 2, 0, 1, 0, 4, 0, 1, 0, 2, 0, 1, 0, 3, 0, 1, 0, 2, 0, 1, 0,
  5, 0, 1, 0, 2, 0, 1, 0, 3, 0, 1, 0, 2, 0, 1, 0, 4, 0, 1, 0, 2, 0, 1, 0, 3, 0, 1, 0, 2, 0, 1, 0,
  6, 0, 1, 0, 2, 0, 1, 0, 3, 0, 1, 0, 2, 0, 1, 0, 4, 0, 1, 0, 2, 0, 1, 0, 3, 0, 1, 0, 2, 0, 1, 0,
  5, 0, 1, 0, 2, 0, 1, 0, 3, 0, 1, 0, 2, 0, 1, 0, 4, 0, 1, 0, 2, 0, 1, 0, 3, 0, 1, 0, 2, 0, 1, 0]

/-- Count of bits in all the one byte numbers. -/
def bitCountTable : List Nat := [0, 1, 1, 2, 1, 2, 2, 3, 1, 2, 2, 3, 2, 3, 3, 4, 1, 2, 2, 3, 2, 3, 3, 4, 2, 3, 3, 4, 3, 4, 4, 5,
  1, 2, 2, 3, 2, 3, 3, 4, 2, 3, 3, 4, 3, 4, 4, 5, 2, 3, 3, 4, 3, 4, 4, 5, 3, 4, 4, 5, 4, 5, 5, 6,
  1, 2, 2, 3, 2, 3, 3, 4, 2, 3, 3, 4, 3, 4, 4, 5, 2, 3, 3, 4, 3, 4, 4, 5, 3, 4, 4, 5, 4, 5, 5, 6,
  2, 3, 3, 4, 3, 4, 4, 5, 3, 4, 4, 5, 4, 5, 5, 6, 3, 4, 4, 5, 4, 5, 5, 6, 4, 5, 5, 6, 5, 6, 6, 7,
  1, 2, 2, 3, 2, 3, 3, 4, 2, 3, 3, 4, 3, 4, 4, 5, 2, 3, 3, 4, 3, 4, 4, 5, 3, 4, 4, 5, 4, 5, 5, 6,
  2, 3, 3, 4, 3, 4, 4, 5, 3, 4, 4, 5, 4, 5, 5, 6, 3, 4, 4, 5, 4, 5, 5, 6, 4, 5, 5, 6, 5, 6, 6, 7,
  2, 3, 3, 4, 3, 4, 4, 5, 3, 4, 4, 5, 4, 5, 5, 6, 3, 4, 4, 5, 4, 5, 5, 6, 4, 5, 5, 6, 5, 6, 6, 7,
  3, 4, 4, 5, 4, 5, 5, 6, 4, 5, 5, 6, 5, 6, 6, 7, 4, 5, 5, 6, 5, 6, 6, 7, 5, 6, 6, 7, 6, 7, 7, 8]

def firstOne (byte : Byte) : Nat := firstOneTable.getD byte.toNat 0

def bitCount (byte : Byte) : Nat := bitCountTable.getD byte.toNat 0

/-! ## Allocation -/

/-- Where a set may grow; nothing is allocated in the pool `bad`. -/
inductive Pool where
  | good | bad
  deriving DecidableEq, Repr

inductive Fault where
  | allocation
  deriving DecidableEq, Repr

/-- The power of two, from `newLength` on, that `length` is extended to. -/
def extend (length newLength : Nat) (hpos : 0 < newLength) : Nat :=
  if newLength < length then extend length (newLength * 2) (by omega) else newLength
termination_by length - newLength

/-- `bs_Realloc`. -/
def realloc (set : Bs) (length : Nat) (pool : Pool) : Except Fault Bs := do
  require .allocation (pool ≠ .bad)
  if length ≤ set.wordCount then return set
  else return ⟨set.words ++ List.replicate (extend length 2 (by decide) - set.wordCount) 0⟩

/-- Reallocates if necessary. -/
def reserve (set : Bs) (length : Nat) (pool : Pool) : Except Fault Bs :=
  if set.wordCount < length then realloc set length pool else .ok set

/-- `BS_ClearD`. -/
def clearD (set : Bs) : Bs := forWords 0 set.wordCount (fun _ _ => 0) set

/-- `BS_Create_Empty`; `size` is an `INT32`, and a negative one asks for more than there is. -/
def createEmpty (size : Int) : Except Fault Bs := do
  require .allocation (0 ≤ size)
  return ⟨List.replicate ((size.toNat + 31) / 32) 0⟩

/-! ## Sets from elements -/

/-- `BS_RangeD`. -/
def rangeD (set : Bs) (low : Nat) (high : Int) (pool : Pool) : Except Fault Bs :=
  if low > high then .ok (clearD set)
  else do
    let high := high.toNat
    let firstW := low / 32
    let lastW := high / 32
    let firstB := low / 8
    let lastB := high / 8
    let set ← reserve set (lastW + 1) pool
    let set := clearD set
    let set := forWords (firstW + 1) lastW (fun _ _ => ones) set
    let set := forBytes firstB (min ((firstW + 1) * 4) (lastB + 1)) (fun _ _ => ones.setWidth 8) set
    let set := if firstW ≠ lastW then forBytes (lastW * 4) (lastB + 1) (fun _ _ => ones.setWidth 8) set else set
    let set := set.setByte firstB ((ones <<< (low % 8)).setWidth 8)
    return set.setByte lastB (set.byte lastB &&& (ones >>> (32 - 1 - high % 8)).setWidth 8)

/-- `BS_SingletonD`. -/
def singletonD (set : Bs) (element : Nat) (pool : Pool) : Except Fault Bs := do
  let set ← reserve set (element / 32 + 1) pool
  return (clearD set).setByte (element / 8) ((1#32 <<< (element % 8)).setWidth 8)

/-- `BS_Copy`. -/
def copy (set : Bs) : Bs := ⟨(List.range set.wordCount).map set.word⟩

/-- `BS_CopyD`. -/
def copyD (set1 set2 : Bs) (pool : Pool) : Except Fault Bs := do
  let set ← reserve set1 set2.wordCount pool
  let set := if set1.wordCount < set2.wordCount then set else forWords set2.wordCount set1.wordCount (fun _ _ => 0) set
  return forWords 0 set2.wordCount (fun i _ => set2.word i) set

/-! ## Choosing -/

/-- A loop over bytes for the first that is not zero. -/
def searchBytes (byte : Nat → Byte) (lo hi : Nat) : Option Nat :=
  (List.range' lo (hi - lo)).findSome? fun i => if byte i ≠ 0 then some (firstOne (byte i) + 8 * i) else none

/-- A loop over words for the first that is not zero, and then over its bytes. -/
def searchWords (word : Nat → Word) (byte : Nat → Byte) (lo hi : Nat) : Option Nat :=
  (List.range' lo (hi - lo)).findSome? fun i => if word i ≠ 0 then searchBytes byte (4 * i) (4 * (i + 1)) else none

/-- `BS_Choose`. -/
def choose (set : Bs) : Option Nat := searchWords set.word set.byte 0 set.wordCount

/-- The search of `BS_Choose_Range`, for a range within the words of the set. -/
def searchRange (set : Bs) (low high : Nat) : Option Nat :=
  let firstByte := low / 8
  let lastByte := high / 8
  let lastMask : Byte := (ones >>> (32 - 1 - high % 8)).setWidth 8
  let byte := set.byte firstByte &&& (ones <<< (low % 8)).setWidth 8
  let byte := if firstByte = lastByte then byte &&& lastMask else byte
  if byte ≠ 0 then some (firstOne byte + 8 * firstByte)
  else if firstByte = lastByte then none
  else
    let firstWord := low / 32
    let lastWord := high / 32
    let lastFullByte := min ((firstWord + 1) * 4 - 1) (lastByte - 1)
    searchBytes set.byte (firstByte + 1) (lastFullByte + 1) <|>
      searchWords set.word set.byte (firstWord + 1) lastWord <|>
      searchBytes set.byte (max (firstWord + 1) lastWord * 4) lastByte <|>
      let byte := set.byte lastByte &&& lastMask
      if byte ≠ 0 then some (firstOne byte + 8 * lastByte) else none

/-- `BS_Choose_Range`. -/
def chooseRange (set : Bs) (low : Nat) (high : Int) : Option Nat :=
  let lastEltInSet := (pbpw set.wordCount - 1).bmod (2 ^ 32)
  let high := if high > lastEltInSet then lastEltInSet else high
  if low > high then none else searchRange set low high.toNat

/-- The search of `BS_Choose_Next` and `BS_Intersection_Choose_Next`, from `bound` on. -/
def searchFrom (word : Nat → Word) (byte : Nat → Byte) (wordCount bound : Nat) : Option Nat :=
  if pbpw wordCount ≤ bound then none
  else
    let inxFirstByte := bound / 8
    let first := byte inxFirstByte &&& (ones <<< (bound % 8)).setWidth 8
    if first ≠ 0 then some (firstOne first + 8 * inxFirstByte)
    else
      searchBytes byte (inxFirstByte + 1) ((bound / 32 + 1) * 4) <|>
        searchWords word byte (bound / 32 + 1) wordCount

/-- `BS_Choose_Next`. -/
def chooseNext (set : Bs) (bound : Nat) : Option Nat := searchFrom set.word set.byte set.wordCount (bound + 1)

/-- `BS_Intersection_Choose`. -/
def intersectionChoose (set1 set2 : Bs) : Option Nat :=
  searchWords (fun i => set1.word i &&& set2.word i) (fun i => set1.byte i &&& set2.byte i) 0
    (if set1.wordCount < set2.wordCount then set1.wordCount else set2.wordCount)

/-- `BS_Intersection_Choose_Next`. -/
def intersectionChooseNext (set1 set2 : Bs) (bound : Nat) : Option Nat :=
  searchFrom (fun i => set1.word i &&& set2.word i) (fun i => set1.byte i &&& set2.byte i)
    (if set1.wordCount < set2.wordCount then set1.wordCount else set2.wordCount) (bound + 1)

/-- The elements a loop over a set visits in at most `fuel` steps. -/
def forAll (set : Bs) (fuel : Nat) : List Nat := sweep (chooseNext set) fuel (choose set)

/-! ## Operations on sets -/

/-- `BS_Difference`. -/
def difference (set1 set2 : Bs) : Bs :=
  let minsize := min set1.wordCount set2.wordCount
  ⟨(List.range minsize).map (fun i => set1.word i &&& ~~~set2.word i) ++
    (List.range' minsize (set1.wordCount - minsize)).map set1.word⟩

/-- `BS_DifferenceD`. -/
def differenceD (set1 set2 : Bs) : Bs :=
  forWords 0 (min set1.wordCount set2.wordCount) (fun i word => word &&& ~~~set2.word i) set1

/-- `BS_Difference1D`. -/
def difference1D (set : Bs) (x : Nat) : Bs :=
  if x / 32 < set.wordCount then
    set.setByte (x / 8) (set.byte (x / 8) &&& (~~~(1#32 <<< (x % 8))).setWidth 8)
  else set

/-- `BS_Difference1`. -/
def difference1 (set : Bs) (x : Nat) : Bs := difference1D (copy set) x

/-- `BS_Intersection`. -/
def intersection (set1 set2 : Bs) : Bs :=
  ⟨(List.range (if set1.wordCount < set2.wordCount then set1.wordCount else set2.wordCount)).map
    fun i => set1.word i &&& set2.word i⟩

/-- `BS_IntersectionD`. -/
def intersectionD (set1 set2 : Bs) : Bs :=
  let minsize := min set1.wordCount set2.wordCount
  forWords minsize set1.wordCount (fun _ _ => 0) (forWords 0 minsize (fun i word => word &&& set2.word i) set1)

/-- `BS_Size`. -/
def size (set : Bs) : Nat :=
  (List.range (set.wordCount * 4)).foldl (fun result i => result + bitCount (set.byte i)) 0

/-- The union with `set1` the larger set. -/
def unionLarger (set1 set2 : Bs) : Bs :=
  ⟨(List.range set2.wordCount).map (fun i => set1.word i ||| set2.word i) ++
    (List.range' set2.wordCount (set1.wordCount - set2.wordCount)).map set1.word⟩

/-- `BS_Union`. -/
def union (set1 set2 : Bs) : Bs :=
  if set1.wordCount < set2.wordCount then unionLarger set2 set1 else unionLarger set1 set2

/-- `BS_UnionD`. -/
def unionD (set1 set2 : Bs) (pool : Pool) : Except Fault Bs := do
  let set1 ← reserve set1 set2.wordCount pool
  return forWords 0 set2.wordCount (fun i word => word ||| set2.word i) set1

/-- `BS_Union1D`. -/
def union1D (set : Bs) (x : Nat) (pool : Pool) : Except Fault Bs := do
  let set ← reserve set (x / 32 + 1) pool
  return set.setByte (x / 8) (set.byte (x / 8) ||| (1#32 <<< (x % 8)).setWidth 8)

/-- `BS_Union1`. -/
def union1 (set : Bs) (x : Nat) : Except Fault Bs := do
  let newsize := if set.wordCount > x / 32 + 1 then pbpw set.wordCount else x + 1
  let newset ← createEmpty newsize
  let newset ← copyD newset set .bad
  union1D newset x .bad

/-! ## Predicates -/

/-- `BS_ContainsP`. -/
def containsP (set1 set2 : Bs) : Bool :=
  let minsize := if set1.wordCount < set2.wordCount then set1.wordCount else set2.wordCount
  (List.range minsize).all (fun i => set1.word i = set1.word i ||| set2.word i) &&
    (List.range' minsize (set2.wordCount - minsize)).all fun i => set2.word i = 0

/-- `BS_EmptyP`. -/
def emptyP (set : Bs) : Bool := (List.range set.wordCount).all fun i => set.word i = 0

/-- The comparison with `set1` the smaller set. -/
def equalLarger (set1 set2 : Bs) : Bool :=
  (List.range set1.wordCount).all (fun i => set1.word i = set2.word i) &&
    (List.range' set1.wordCount (set2.wordCount - set1.wordCount)).all fun i => set2.word i = 0

/-- `BS_EqualP`. -/
def equalP (set1 set2 : Bs) : Bool :=
  if set1.wordCount > set2.wordCount then equalLarger set2 set1 else equalLarger set1 set2

/-- `BS_IntersectsP`. -/
def intersectsP (set1 set2 : Bs) : Bool :=
  (List.range (if set1.wordCount < set2.wordCount then set1.wordCount else set2.wordCount)).any
    fun i => set1.word i &&& set2.word i ≠ 0

/-- `BS_MemberP`. -/
def memberP (set : Bs) (x : Nat) : Bool :=
  if x / 32 ≥ set.wordCount then false else set.byte (x / 8) &&& (1#32 <<< (x % 8)).setWidth 8 ≠ 0

end Path64.Bitset

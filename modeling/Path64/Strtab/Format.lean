import Path64.Strtab.Basic
import Mathlib.Tactic.Ring
import Mathlib.Tactic.SplitIfs

/-!
# What lies in a string buffer

* `strIndexIndex_make`, `strIndexSize_make` : a packed word gives the offset and the clipped length back;
* `StrFormat` : a string class with the code it writes and the strings it is for;
* `nullTerminatedFormat`, `characterArrayFormat` : both classes read back what they write;
* `EntryAt` : a string's code lies at an offset; `hash_entry`, `equal_entries` : the key found through its packed word
  is the string.
-/

namespace Path64.Strtab

/-! ## Packed words -/

theorem makeStrIndex_eq {size idx : Nat} (h : idx < 2 ^ 32) : makeStrIndex size idx = 256 * idx + min size 255 := by
  have hsize : (if size > 0xff then 0xff else size) = min size 255 := by
    split_ifs <;> omega
  have hlt : min size 255 < 2 ^ 8 := by omega
  rw [makeStrIndex, hsize, ← Nat.shiftLeft_add_eq_or_of_lt hlt, Nat.shiftLeft_eq]
  omega

theorem strIndexIndex_make {size idx : Nat} (h : idx < 2 ^ 32) : strIndexIndex (makeStrIndex size idx) = idx := by
  rw [makeStrIndex_eq h, strIndexIndex, Nat.shiftRight_eq_div_pow]
  omega

theorem strIndexSize_make {size idx : Nat} (h : idx < 2 ^ 32) :
    strIndexSize (makeStrIndex size idx) = min size 255 := by
  have hand := Nat.and_two_pow_sub_one_eq_mod (256 * idx + min size 255) 8
  rw [makeStrIndex_eq h, strIndexSize]
  simp only [Nat.reducePow, Nat.add_one_sub_one] at hand
  omega

/-! ## String classes that read back what they write -/

/-- A string class, the code it writes for a string and the strings it is for. -/
structure StrFormat where
  STR : StrClass
  encode : List UInt8 → List UInt8
  Valid : List UInt8 → Prop
  length_lt : ∀ s, s.length < (encode s).length
  getBufferLength_eq : ∀ s, Valid s → (encode s).length < 2 ^ 32 →
    STR.getBufferLength s.length = (encode s).length
  copy_eq : ∀ s, Valid s → (encode s).length < 2 ^ 32 → STR.copy (s ++ [0]) s.length = encode s
  getLength_eq : ∀ s rest, Valid s → (encode s).length < 2 ^ 32 → STR.getLength (encode s ++ rest) = s.length
  getLength_null : ∀ rest, STR.getLength (0 :: rest) = 0
  getStr_take : ∀ s rest, Valid s → (STR.getStr (encode s ++ rest)).take s.length = s
  getStr_head : ∀ s rest, Valid s → (STR.getStr (encode s ++ rest)).head? = (s ++ [0]).head?

theorem cString_append_null {s : List UInt8} (hs : 0 ∉ s) (rest : List UInt8) : cString (s ++ 0 :: rest) = s := by
  rw [cString, List.takeWhile_append_of_pos]
  · simp
  · intro b hb
    simpa using fun h : b = 0 => hs (h ▸ hb)

/-- Strings without a null, each followed by one. -/
def nullTerminatedFormat : StrFormat where
  STR := nullTerminatedString
  encode s := s ++ [0]
  Valid s := 0 ∉ s
  length_lt s := by simp
  getBufferLength_eq s _ h := by
    rw [List.length_append] at h ⊢
    exact Nat.mod_eq_of_lt h
  copy_eq s _ h := by
    rw [List.length_append, List.length_singleton] at h
    show List.take ((s.length + 1) % 2 ^ 32) (s ++ [0]) = s ++ [0]
    rw [Nat.mod_eq_of_lt h]
    exact List.take_of_length_le (by simp)
  getLength_eq s rest hs h := by
    show strlen (s ++ [0] ++ rest) % 2 ^ 32 = s.length
    rw [List.append_assoc, List.singleton_append, strlen, cString_append_null hs]
    exact Nat.mod_eq_of_lt (by simp at h; omega)
  getLength_null _ := rfl
  getStr_take s rest _ := by
    show (s ++ [0] ++ rest).take s.length = s
    rw [List.append_assoc, List.take_left]
  getStr_head s rest _ := by
    show (s ++ [0] ++ rest).head? = (s ++ [0]).head?
    cases s <;> rfl

theorem unalignInt_unalignBytes {n : Nat} (h : n < 2 ^ 32) (rest : List UInt8) :
    unalignInt (unalignBytes n ++ rest) = n := by
  have hbytes : unalignBytes n =
      [UInt8.ofNat n, UInt8.ofNat (n / 256), UInt8.ofNat (n / 65536), UInt8.ofNat (n / 16777216)] := by
    simp [unalignBytes, List.range_succ]
  simp only [hbytes, List.cons_append, unalignInt, UInt8.toNat_ofNat']
  omega

/-- The code of a character array: its length in one byte, or `0xff` and the length in four. -/
def encodeArray (s : List UInt8) : List UInt8 :=
  if s.length < 0xff then UInt8.ofNat s.length :: s else 0xff :: (unalignBytes s.length ++ s)

theorem length_encodeArray (s : List UInt8) :
    (encodeArray s).length = if s.length < 0xff then s.length + 1 else s.length + 1 + 4 := by
  rw [encodeArray]
  split_ifs
  · rfl
  · simp [unalignBytes]
    omega

theorem ofNat_ne_marker {n : Nat} (h : n < 0xff) : UInt8.ofNat n ≠ 0xff := by
  intro he
  have := congrArg UInt8.toNat he
  rw [UInt8.toNat_ofNat'] at this
  have hff : (0xff : UInt8).toNat = 255 := rfl
  omega

theorem getStr_encodeArray (s rest : List UInt8) : characterArray.getStr (encodeArray s ++ rest) = s ++ rest := by
  rw [encodeArray]
  split_ifs with h
  · simp [characterArray, ofNat_ne_marker h]
  · simp [characterArray, unalignBytes, List.range_succ]

/-- Character arrays of any bytes; the empty one is never entered. -/
def characterArrayFormat : StrFormat where
  STR := characterArray
  encode := encodeArray
  Valid s := s ≠ []
  length_lt s := by
    rw [length_encodeArray]
    split_ifs <;> omega
  getBufferLength_eq s _ h := by
    rw [length_encodeArray] at h ⊢
    show (if s.length < 0xff then _ else _) = _
    split_ifs at h ⊢ <;> exact Nat.mod_eq_of_lt h
  copy_eq s _ _ := by
    show (if s.length < 0xff then _ else _) = _
    rw [encodeArray, List.take_left]
  getLength_eq s rest _ h := by
    rw [length_encodeArray] at h
    show (if (encodeArray s ++ rest).headD 0 ≠ 0xff then _ else _) = s.length
    rw [encodeArray]
    split_ifs at h ⊢ with hs hm hm
    · show (UInt8.ofNat s.length).toNat = s.length
      rw [UInt8.toNat_ofNat']
      omega
    · exact absurd (not_not.1 hm) (ofNat_ne_marker hs)
    · exact absurd rfl hm
    · show unalignInt (unalignBytes s.length ++ s ++ rest) = s.length
      rw [List.append_assoc]
      exact unalignInt_unalignBytes (by omega) _
  getLength_null _ := rfl
  getStr_take s rest _ := by
    rw [getStr_encodeArray, List.take_left]
  getStr_head s rest hs := by
    rw [getStr_encodeArray]
    obtain ⟨b, bs, rfl⟩ := List.exists_cons_of_ne_nil hs
    rfl

/-! ## Keys -/

/-- The code of `s` lies at offset `i` of the buffer. -/
structure EntryAt (F : StrFormat) (buffer : List UInt8) (i : Nat) (s : List UInt8) : Prop where
  code : ∃ rest, buffer.drop i = F.encode s ++ rest
  valid : F.Valid s
  small : (F.encode s).length < 2 ^ 32
  index : i < 2 ^ 32

namespace EntryAt

variable {F : StrFormat} {buffer : List UInt8} {i j : Nat} {s s' : List UInt8}

theorem length_eq (h : EntryAt F buffer i s) : F.STR.getLength (buffer.drop i) = s.length := by
  obtain ⟨rest, hrest⟩ := h.code
  rw [hrest]
  exact F.getLength_eq s rest h.valid h.small

theorem take_eq (h : EntryAt F buffer i s) : (F.STR.getStr (buffer.drop i)).take s.length = s := by
  obtain ⟨rest, hrest⟩ := h.code
  rw [hrest]
  exact F.getStr_take s rest h.valid

theorem head_eq (h : EntryAt F buffer i s) : (F.STR.getStr (buffer.drop i)).head? = (s ++ [0]).head? := by
  obtain ⟨rest, hrest⟩ := h.code
  rw [hrest]
  exact F.getStr_head s rest h.valid

theorem extractKey_eq (h : EntryAt F buffer i s) :
    extractKey F.STR buffer (makeStrIndex s.length i) = ⟨F.STR.getStr (buffer.drop i), s.length⟩ := by
  rw [extractKey, strIndexIndex_make h.index, strIndexSize_make h.index]
  split_ifs with hlt
  · rw [show min s.length 255 = s.length by omega]
  · rw [h.length_eq]

theorem hash_eq (h : EntryAt F buffer i s) :
    (extractKey F.STR buffer (makeStrIndex s.length i)).hash = HashKey.hash ⟨s, s.length⟩ := by
  rw [h.extractKey_eq, HashKey.hash, HashKey.hash, h.take_eq, List.take_length]

theorem equal_iff (h : EntryAt F buffer i s) (h' : EntryAt F buffer j s') :
    (extractKey F.STR buffer (makeStrIndex s.length i)).equal (extractKey F.STR buffer (makeStrIndex s'.length j)) =
      true ↔ s = s' := by
  rw [h.extractKey_eq, h'.extractKey_eq, HashKey.equal]
  simp only [Bool.and_eq_true, beq_iff_eq]
  rw [h.head_eq, h'.head_eq, h.take_eq]
  constructor
  · rintro ⟨⟨hlen, -⟩, htake⟩
    rw [htake, hlen, h'.take_eq]
  · rintro rfl
    exact ⟨⟨rfl, rfl⟩, h'.take_eq.symm⟩

end EntryAt

end Path64.Strtab

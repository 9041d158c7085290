import Path64.Strtab.Format
import Path64.Lib.Records

/-!
# One string table

* `Represents F t strs` : the table holds the strings of `strs`, each once and in this order;
* `insert_spec` : an insertion adds the string if it is new and returns its offset either way;
* `initializeStrtab_spec` : a table set up from a file's bytes holds the strings of the table that wrote them;
* `mergeStrtab_spec` : a merge adds the other table's strings and maps their old offsets to the new ones;
* `walk_spec` : stepping through the buffer meets the strings of the table.
-/

namespace Path64.Strtab

open Records

variable {F : StrFormat} {nextSize : Nat → Nat} {junk : Nat → Nat → UInt8} {t : StrTab} {strs : List (List UInt8)}
  {s str : List UInt8}

/-- A null byte, then the codes of the strings. -/
def layout (F : StrFormat) (strs : List (List UInt8)) : List UInt8 := [0] ++ strs.flatMap F.encode

/-- The strings of a table with the offsets they have there. -/
def entries (F : StrFormat) (strs : List (List UInt8)) : List (Nat × List UInt8) := recordsAt F.encode 1 strs

/-- The table holds the strings of `strs`, each once and in this order. -/
structure Represents (F : StrFormat) (t : StrTab) (strs : List (List UInt8)) : Prop where
  size : t.buffer.length = t.bufferSize
  bytes : ∃ tail, t.buffer = layout F strs ++ tail
  last : t.lastIdx = (layout F strs).length
  small : t.lastIdx < 2 ^ 32
  nodup : strs.Nodup
  valid : ∀ s ∈ strs, F.Valid s
  placed : t.hashTable.Placed fun w => (extractKey F.STR t.buffer w).hash
  words : ∀ w, t.hashTable.Mem w ↔ ∃ e ∈ entries F strs, w = makeStrIndex e.2.length e.1

theorem length_layout (F : StrFormat) (strs : List (List UInt8)) :
    (layout F strs).length = 1 + (strs.flatMap F.encode).length := by
  rw [layout, List.length_append, List.length_singleton]

theorem encode_pos (F : StrFormat) (s : List UInt8) : 0 < (F.encode s).length :=
  Nat.lt_of_le_of_lt (Nat.zero_le _) (F.length_lt s)

theorem entryAt_of_mem {buffer tail : List UInt8} (hb : buffer = layout F strs ++ tail)
    (hs : (layout F strs).length < 2 ^ 32) (hv : ∀ s ∈ strs, F.Valid s) {i : Nat}
    (h : (i, s) ∈ entries F strs) : EntryAt F buffer i s := by
  have hup := recordsAt_upper h
  have hpos := encode_pos F s
  rw [length_layout] at hs
  refine ⟨?_, hv s (mem_of_record h), by omega, by omega⟩
  rw [hb]
  exact drop_record [0] tail h

theorem entryAt_last {buffer tail : List UInt8} (hb : buffer = layout F strs ++ (F.encode s ++ tail))
    (hs : (layout F strs).length < 2 ^ 32) (hv : F.Valid s) (henc : (F.encode s).length < 2 ^ 32) :
    EntryAt F buffer (layout F strs).length s := by
  refine ⟨⟨tail, ?_⟩, hv, henc, hs⟩
  rw [hb, List.drop_left]

namespace Represents

theorem entryAt (h : Represents F t strs) {i : Nat} (hi : (i, s) ∈ entries F strs) : EntryAt F t.buffer i s := by
  obtain ⟨tail, hb⟩ := h.bytes
  exact entryAt_of_mem hb (h.last ▸ h.small) h.valid hi

theorem lt_lastIdx (h : Represents F t strs) {i : Nat} (hi : (i, s) ∈ entries F strs) : i < t.lastIdx := by
  have hup := recordsAt_upper hi
  have hpos := encode_pos F s
  rw [h.last, length_layout]
  omega

theorem denotes (h : Represents F t strs) {i : Nat} (hi : (i, s) ∈ entries F strs) : Denotes F.STR t i s :=
  ⟨h.lt_lastIdx hi, (h.entryAt hi).length_eq, (h.entryAt hi).take_eq⟩

theorem image_eq (h : Represents F t strs) : t.image = layout F strs := by
  obtain ⟨tail, hb⟩ := h.bytes
  rw [StrTab.image, hb, h.last, List.take_left]

theorem lastIdx_le (h : Represents F t strs) : t.lastIdx ≤ t.bufferSize := by
  obtain ⟨tail, hb⟩ := h.bytes
  rw [← h.size, hb, h.last, List.length_append]
  exact Nat.le_add_right _ _

theorem lastIdx_pos (h : Represents F t strs) : 0 < t.lastIdx := by
  rw [h.last, length_layout]
  omega

theorem length_encode (h : Represents F t strs) (hs : s ∈ strs) : (F.encode s).length < 2 ^ 32 := by
  obtain ⟨i, hi⟩ := exists_record F.encode 1 hs
  exact (h.entryAt hi).small

end Represents

/-! ## Making room -/

theorem growSize_spec (size : Nat) {lastIdx : Nat} : ∀ fuel bufferSize : Nat, 0 < bufferSize → lastIdx ≤ bufferSize →
    lastIdx + size ≤ bufferSize + fuel →
    ∃ n, growSize size lastIdx fuel bufferSize = some n ∧ bufferSize ≤ n ∧ lastIdx + size ≤ n := by
  intro fuel
  induction fuel with
  | zero =>
    intro bufferSize _ hle hfuel
    refine ⟨bufferSize, ?_, le_rfl, by omega⟩
    rw [growSize, if_neg (by omega)]
  | succ fuel ih =>
    intro bufferSize hpos hle hfuel
    rw [growSize]
    split_ifs with hgt hsmall
    · obtain ⟨n, hn, hge, hroom⟩ := ih (bufferSize * 2) (by omega) (by omega) (by omega)
      exact ⟨n, hn, by omega, hroom⟩
    · obtain ⟨n, hn, hge, hroom⟩ := ih (bufferSize + 0x80000) (by omega) (by omega) (by omega)
      exact ⟨n, hn, by omega, hroom⟩
    · exact ⟨bufferSize, rfl, le_rfl, by omega⟩

theorem realloc_eq (junk : Nat → Nat → UInt8) (buffer : List UInt8) {n : Nat} (h : buffer.length ≤ n) :
    (realloc junk buffer n).length = n ∧ ∃ tail, realloc junk buffer n = buffer ++ tail := by
  rw [realloc, List.take_of_length_le h]
  refine ⟨?_, _, rfl⟩
  rw [List.length_append, List.length_drop, alloc, List.length_map, List.length_range]
  omega

theorem reserve_spec (junk : Nat → Nat → UInt8) (hsize : t.buffer.length = t.bufferSize) (hpos : 0 < t.bufferSize)
    (hle : t.lastIdx ≤ t.bufferSize) (size : Nat) :
    ∃ n buffer tail, reserve junk t size = some { t with bufferSize := n, buffer } ∧ buffer = t.buffer ++ tail ∧
      buffer.length = n ∧ t.lastIdx + size ≤ n := by
  rw [reserve]
  split_ifs with hgt
  · obtain ⟨n, hn, hge, hroom⟩ := growSize_spec size size t.bufferSize hpos hle (by omega)
    obtain ⟨hlen, tail, htail⟩ := realloc_eq junk t.buffer (hsize ▸ hge)
    refine ⟨n, _, tail, ?_, htail, hlen, hroom⟩
    rw [hn]
    rfl
  · exact ⟨t.bufferSize, t.buffer, [], rfl, (List.append_nil _).symm, hsize, by omega⟩

theorem copyStr_spec (junk : Nat → Nat → UInt8) (h : Represents F t strs) (hv : F.Valid s)
    (henc : (F.encode s).length < 2 ^ 32) (hstr : str.take s.length = s) :
    ∃ n buffer tail, copyStr junk F.STR t str s.length =
        some { t with bufferSize := n, buffer, lastIdx := t.lastIdx + (F.encode s).length } ∧
      buffer = layout F strs ++ (F.encode s ++ tail) ∧ buffer.length = n := by
  obtain ⟨n, buffer, tail, hres, hb, hlen, hroom⟩ :=
    reserve_spec junk h.size (h.lastIdx_pos.trans_le h.lastIdx_le) h.lastIdx_le (F.encode s).length
  obtain ⟨tail', hb'⟩ := h.bytes
  have htake : buffer.take t.lastIdx = layout F strs := by
    rw [hb, hb', h.last, List.append_assoc, List.take_left]
  refine ⟨n, layout F strs ++ (F.encode s ++ buffer.drop (t.lastIdx + (F.encode s).length)), _, ?_, rfl, ?_⟩
  · rw [copyStr, hstr, F.getBufferLength_eq s hv henc, hres]
    show (writeAt buffer t.lastIdx (F.STR.copy (s ++ [0]) s.length)).bind _ = _
    rw [F.copy_eq s hv henc, writeAt, if_pos (by omega), htake]
    rfl
  · have hl := h.last
    simp only [List.length_append, List.length_drop]
    omega

/-! ## Insertion -/

theorem entries_append_singleton (strs : List (List UInt8)) (s : List UInt8) :
    entries F (strs ++ [s]) = entries F strs ++ [((layout F strs).length, s)] := by
  rw [entries, recordsAt_append, length_layout]
  rfl

theorem layout_append_singleton (strs : List (List UInt8)) (s : List UInt8) :
    layout F (strs ++ [s]) = layout F strs ++ F.encode s := by
  rw [layout, List.flatMap_append, List.flatMap_singleton, ← List.append_assoc, layout]

theorem Represents.placed_append (h : Represents F t strs) {buffer tail : List UInt8}
    (hb : buffer = layout F strs ++ tail) : t.hashTable.Placed fun w => (extractKey F.STR buffer w).hash := by
  refine h.placed.congr fun w hw => ?_
  obtain ⟨⟨i, a⟩, hi, rfl⟩ := (h.words w).1 hw
  rw [(entryAt_of_mem hb (h.last ▸ h.small) h.valid hi).hash_eq, (h.entryAt hi).hash_eq]

theorem Represents.append_undone (h : Represents F t strs) {n : Nat} {buffer tail : List UInt8} {T : HashTable Nat}
    (hb : buffer = layout F strs ++ tail) (hlen : buffer.length = n)
    (hp : T.Placed fun w => (extractKey F.STR buffer w).hash) (hw : ∀ w, T.Mem w ↔ t.hashTable.Mem w) :
    Represents F ⟨buffer, t.lastIdx, n, T⟩ strs :=
  ⟨hlen, ⟨tail, hb⟩, h.last, h.small, h.nodup, h.valid, hp, fun w => (hw w).trans (h.words w)⟩

theorem Represents.append_kept (h : Represents F t strs) {n : Nat} {buffer tail : List UInt8} {T : HashTable Nat}
    (hb : buffer = layout F strs ++ (F.encode s ++ tail)) (hlen : buffer.length = n)
    (hp : T.Placed fun w => (extractKey F.STR buffer w).hash)
    (hw : ∀ w, T.Mem w ↔ w = makeStrIndex s.length t.lastIdx ∨ t.hashTable.Mem w) (hs : s ∉ strs) (hv : F.Valid s)
    (hfits : (layout F (strs ++ [s])).length < 2 ^ 32) :
    Represents F ⟨buffer, t.lastIdx + (F.encode s).length, n, T⟩ (strs ++ [s]) := by
  have hlast : t.lastIdx + (F.encode s).length = (layout F (strs ++ [s])).length := by
    rw [layout_append_singleton, List.length_append, h.last]
  refine ⟨hlen, ⟨tail, ?_⟩, hlast, hlast ▸ hfits, ?_, ?_, hp, fun w => ?_⟩
  · rw [layout_append_singleton, List.append_assoc]
    exact hb
  · have hadd := nodup_addNew h.nodup s
    rwa [addNew, if_neg hs] at hadd
  · intro a ha
    rcases List.mem_append.1 ha with ha | ha
    · exact h.valid a ha
    · rw [List.mem_singleton.1 ha]
      exact hv
  · rw [hw, h.words, entries_append_singleton, h.last]
    simp only [List.mem_append, List.mem_singleton, or_and_right, exists_or, exists_eq_left]
    exact or_comm

theorem Represents.length_encode_addNew (h : Represents F t strs)
    (hfits : (layout F (addNew strs s)).length < 2 ^ 32) : (F.encode s).length < 2 ^ 32 := by
  by_cases hs : s ∈ strs
  · exact h.length_encode hs
  · rw [addNew, if_neg hs, layout_append_singleton, List.length_append] at hfits
    omega

/-- The string is added if it is new, and the offset returned is its offset either way. -/
theorem insert_spec (nextSize : Nat → Nat) (junk : Nat → Nat → UInt8) (h : Represents F t strs) (hv : F.Valid s)
    (hfits : (layout F (addNew strs s)).length < 2 ^ 32) (hstr : str.take s.length = s) :
    ∃ t' i, insert nextSize junk F.STR t str s.length = some (t', i) ∧ Represents F t' (addNew strs s) ∧
      (i, s) ∈ entries F (addNew strs s) := by
  have henc := h.length_encode_addNew hfits
  obtain ⟨n, buffer, tail, hcopy, hb, hlen⟩ := copyStr_spec junk h hv henc hstr
  have hsmall : (layout F strs).length < 2 ^ 32 := h.last ▸ h.small
  -- in the buffer with the string appended, the words of the table and the new word have their strings as keys
  have hnew : EntryAt F buffer t.lastIdx s := h.last ▸ entryAt_last hb hsmall hv henc
  have hold : ∀ {i : Nat} {a : List UInt8}, (i, a) ∈ entries F strs → EntryAt F buffer i a := fun hi =>
    entryAt_of_mem hb hsmall h.valid hi
  have hsame : ∀ w, t.hashTable.Mem w → (extractKey F.STR buffer w).equal
      (extractKey F.STR buffer (makeStrIndex s.length t.lastIdx)) = true →
      (extractKey F.STR buffer w).hash = (extractKey F.STR buffer (makeStrIndex s.length t.lastIdx)).hash := by
    intro w hw heq
    obtain ⟨⟨i, a⟩, hi, rfl⟩ := (h.words w).1 hw
    rw [(hold hi).hash_eq, hnew.hash_eq, ((hold hi).equal_iff hnew).1 heq]
  have hspec := HashTable.findOrInsert_spec
    (fun v w => (extractKey F.STR buffer v).equal (extractKey F.STR buffer w)) nextSize (h.placed_append hb) hsame
  rw [insert, hcopy]
  dsimp only [bind, Option.bind]
  generalize HashTable.findOrInsert _ _ nextSize t.hashTable _ = r at hspec
  obtain ⟨T, old⟩ := r
  obtain ⟨hp, ⟨w, hw, heq, rfl, hmem⟩ | ⟨hnone, rfl, hmem⟩⟩ := hspec
  · obtain ⟨⟨i, a⟩, hi, rfl⟩ := (h.words old).1 hw
    obtain rfl := ((hold hi).equal_iff hnew).1 heq
    have hlt := h.lt_lastIdx hi
    have hne : makeStrIndex a.length t.lastIdx ≠ makeStrIndex a.length i := by
      rw [makeStrIndex_eq h.small, makeStrIndex_eq (hlt.trans h.small)]
      omega
    have hadd : addNew strs a = strs := if_pos (mem_of_record hi)
    rw [if_pos hne, hadd]
    refine ⟨_, _, rfl, h.append_undone hb hlen hp hmem, ?_⟩
    rw [strIndexIndex_make (hlt.trans h.small)]
    exact hi
  · have hfresh : s ∉ strs := by
      intro hs
      obtain ⟨i, hi⟩ := exists_record F.encode 1 hs
      have hfalse := hnone _ ((h.words _).2 ⟨(i, s), hi, rfl⟩)
      rw [((hold hi).equal_iff hnew).2 rfl] at hfalse
      exact absurd hfalse (by decide)
    have hadd : addNew strs s = strs ++ [s] := if_neg hfresh
    rw [hadd] at hfits
    rw [if_neg (not_not.2 rfl), hadd]
    refine ⟨_, _, rfl, h.append_kept hb hlen hp hmem hfresh hv hfits, ?_⟩
    rw [entries_append_singleton, h.last]
    exact List.mem_append_right _ (List.mem_singleton_self _)

/-! ## Stepping through a buffer -/

theorem entries_middle (done more : List (List UInt8)) (s : List UInt8) :
    ((layout F done).length, s) ∈ entries F (done ++ s :: more) := by
  rw [entries, recordsAt_append, length_layout]
  exact List.mem_append_right _ List.mem_cons_self

/-- The loop over the entries: what holds before the first and is carried over each string holds at the end. -/
theorem walkEntries_spec {σ : Type} {buf tail : List UInt8} (hb : buf = layout F strs ++ tail)
    (hs : (layout F strs).length < 2 ^ 32) (hv : ∀ s ∈ strs, F.Valid s) {width : Nat} (hw : 32 ≤ width)
    (body : σ → Nat → Nat → Option σ) (Inv : List (List UInt8) → σ → Prop)
    (hbody : ∀ done s more st, strs = done ++ s :: more → Inv done st →
      ∃ st', body st (layout F done).length s.length = some st' ∧ Inv (done ++ [s]) st') :
    ∀ (more done : List (List UInt8)) (st : σ) (fuel : Nat), strs = done ++ more → Inv done st →
      (layout F strs).length ≤ fuel + (layout F done).length →
      ∃ st', walkEntries F.STR buf (layout F strs).length width body fuel (layout F done).length st = some st' ∧
        Inv strs st' := by
  intro more
  induction more with
  | nil =>
    intro done st fuel hsplit hinv _
    rw [List.append_nil] at hsplit
    subst hsplit
    refine ⟨st, ?_, hinv⟩
    cases fuel <;> rw [walkEntries, if_neg (Nat.lt_irrefl _)]
  | cons s more ih =>
    intro done st fuel hsplit hinv hfuel
    have hmem : ((layout F done).length, s) ∈ entries F strs := hsplit ▸ entries_middle done more s
    have hentry := entryAt_of_mem hb hs hv hmem
    have hup := recordsAt_upper hmem
    have hpos := encode_pos F s
    rw [← length_layout] at hup
    have hlt : (layout F done).length < (layout F strs).length := by omega
    obtain ⟨fuel, rfl⟩ : ∃ k, fuel = k + 1 := ⟨fuel - 1, by omega⟩
    obtain ⟨st₁, hst₁, hinv₁⟩ := hbody done s more st hsplit hinv
    have hnext : ((layout F done).length + (F.encode s).length) % 2 ^ width = (layout F (done ++ [s])).length := by
      have hpow : 2 ^ 32 ≤ 2 ^ width := Nat.pow_le_pow_right (by decide) hw
      rw [layout_append_singleton, List.length_append]
      exact Nat.mod_eq_of_lt (by omega)
    obtain ⟨st', hst', hinv'⟩ := ih (done ++ [s]) st₁ fuel (by rw [hsplit, List.append_assoc]; rfl) hinv₁
      (by rw [layout_append_singleton, List.length_append]; omega)
    refine ⟨st', ?_, hinv'⟩
    rw [walkEntries, if_pos hlt]
    dsimp only [bind, Option.bind]
    rw [hentry.length_eq, hst₁, F.getBufferLength_eq s hentry.valid hentry.small]
    dsimp only
    rw [hnext, hst']

theorem walkEntries_all {σ : Type} {buf tail : List UInt8} (hb : buf = layout F strs ++ tail)
    (hs : (layout F strs).length < 2 ^ 32) (hv : ∀ s ∈ strs, F.Valid s) {width : Nat} (hw : 32 ≤ width)
    (body : σ → Nat → Nat → Option σ) (Inv : List (List UInt8) → σ → Prop)
    (hbody : ∀ done s more st, strs = done ++ s :: more → Inv done st →
      ∃ st', body st (layout F done).length s.length = some st' ∧ Inv (done ++ [s]) st') (st : σ) (hst : Inv [] st) :
    ∃ st', walkEntries F.STR buf (layout F strs).length width body (layout F strs).length 1 st = some st' ∧
      Inv strs st' :=
  walkEntries_spec hb hs hv hw body Inv hbody strs [] st _ rfl hst (Nat.le_add_right _ _)

/-- Stepping through the buffer meets the strings of the table at their offsets. -/
theorem walk_spec (h : Represents F t strs) : walk F.STR t = some (entries F strs) := by
  obtain ⟨tail, hb⟩ := h.bytes
  obtain ⟨es, hes, rfl⟩ := walkEntries_all hb (h.last ▸ h.small) h.valid (by decide : 32 ≤ 64)
    (fun entries idx length => some (entries ++ [(idx, (F.STR.getStr (t.buffer.drop idx)).take length)]))
    (fun done es => es = entries F done) (fun done s more es hsplit hdone => by
      have hentry := h.entryAt (hsplit ▸ entries_middle done more s)
      refine ⟨_, rfl, ?_⟩
      rw [hdone, entries_append_singleton, hentry.take_eq]) [] rfl
  rw [walk, h.last]
  exact hes

/-! ## Setting a table up from a file -/

/-- `init_hash` on its way: the table has the words of the strings met so far. -/
structure Hashed (F : StrFormat) (buf : List UInt8) (done : List (List UInt8)) (T : HashTable Nat) : Prop where
  placed : T.Placed fun w => (extractKey F.STR buf w).hash
  words : ∀ w, T.Mem w ↔ ∃ e ∈ entries F done, w = makeStrIndex e.2.length e.1

/-- One more string; none occurs twice, so none is found. -/
theorem Hashed.step (nextSize : Nat → Nat) {buf : List UInt8} {done : List (List UInt8)} {T : HashTable Nat}
    (h : Hashed F buf done T) (hold : ∀ e ∈ entries F done, EntryAt F buf e.1 e.2)
    (hnew : EntryAt F buf (layout F done).length s) (hs : s ∉ done) :
    Hashed F buf (done ++ [s]) (T.findOrInsert (fun w => (extractKey F.STR buf w).hash)
      (fun v w => (extractKey F.STR buf v).equal (extractKey F.STR buf w)) nextSize
      (makeStrIndex s.length (layout F done).length)).1 := by
  have hsame : ∀ w, T.Mem w → (extractKey F.STR buf w).equal
      (extractKey F.STR buf (makeStrIndex s.length (layout F done).length)) = true → (extractKey F.STR buf w).hash =
        (extractKey F.STR buf (makeStrIndex s.length (layout F done).length)).hash := by
    intro w hw heq
    obtain ⟨e, he, rfl⟩ := (h.words w).1 hw
    rw [(hold e he).hash_eq, hnew.hash_eq, ((hold e he).equal_iff hnew).1 heq]
  obtain ⟨hp, ⟨v, hmem, heq, -, -⟩ | ⟨-, -, hmem⟩⟩ := HashTable.findOrInsert_spec
    (fun v w => (extractKey F.STR buf v).equal (extractKey F.STR buf w)) nextSize h.placed hsame
  · obtain ⟨e, he, rfl⟩ := (h.words v).1 hmem
    rw [← ((hold e he).equal_iff hnew).1 heq] at hs
    exact absurd (mem_of_record he) hs
  · refine ⟨hp, fun w => ?_⟩
    rw [hmem, h.words, entries_append_singleton]
    simp only [List.mem_append, List.mem_singleton, or_and_right, exists_or, exists_eq_left]
    exact or_comm

theorem initHash_spec (nextSize : Nat → Nat) {T : HashTable Nat} (hs : (layout F strs).length < 2 ^ 32)
    (hv : ∀ s ∈ strs, F.Valid s) (hn : strs.Nodup) (hT : 0 < T.count) {n : Nat} (hlen : n = (layout F strs).length) :
    ∃ t', initHash nextSize F.STR ⟨layout F strs, n, n, T.clear⟩ = some t' ∧ Represents F t' strs := by
  have hb : layout F strs = layout F strs ++ [] := (List.append_nil _).symm
  have hstep : ∀ done s more (t : StrTab), strs = done ++ s :: more →
      (∃ T', t = ⟨layout F strs, n, n, T'⟩ ∧ Hashed F (layout F strs) done T') →
      ∃ t', hashEntry nextSize F.STR t (layout F done).length s.length = some t' ∧
        ∃ T', t' = ⟨layout F strs, n, n, T'⟩ ∧ Hashed F (layout F strs) (done ++ [s]) T' := by
    rintro done s more _ hsplit ⟨T', rfl, hT'⟩
    refine ⟨_, rfl, _, rfl, hT'.step nextSize (fun e he => ?_) ?_ ?_⟩
    · refine entryAt_of_mem hb hs hv ?_
      rw [hsplit, entries, recordsAt_append]
      exact List.mem_append_left _ he
    · exact entryAt_of_mem hb hs hv (hsplit ▸ entries_middle done more s)
    · intro hd
      rw [hsplit, List.nodup_append'] at hn
      exact hn.2.2 hd List.mem_cons_self
  obtain ⟨_, ht', T', rfl, hT'⟩ := walkEntries_all hb hs hv (by decide : 32 ≤ 64) (hashEntry nextSize F.STR)
    (fun done t => ∃ T', t = ⟨layout F strs, n, n, T'⟩ ∧ Hashed F (layout F strs) done T') hstep
    ⟨layout F strs, n, n, T.clear⟩ ⟨_, rfl, HashTable.placed_clear hT, fun w => by
      simp [HashTable.not_mem_clear, entries, recordsAt]⟩
  subst hlen
  exact ⟨_, ht', rfl, ⟨[], hb⟩, rfl, hs, hn, hv, hT'.placed, hT'.words⟩

/-- A table set up from the bytes another table wrote holds the strings of that table. -/
theorem initializeStrtab_spec (nextSize : Nat → Nat) {q : StrTab} (h : Represents F q strs)
    (hT : 0 < t.hashTable.count) :
    ∃ t', initializeStrtab nextSize F.STR t q.image q.lastIdx = some t' ∧ Represents F t' strs := by
  rw [initializeStrtab, h.image_eq, List.take_of_length_le (Nat.le_of_eq h.last.symm)]
  exact initHash_spec nextSize (h.last ▸ h.small) h.valid h.nodup hT h.last

/-! ## Merging -/

/-- A merge on its way: the strings met so far were added, and the map has their new offsets. -/
structure Merged (F : StrFormat) (strs done : List (List UInt8)) (t : StrTab) (map : Nat → Nat) : Prop where
  rep : Represents F t (done.foldl addNew strs)
  zero : map 0 = 0
  moved : ∀ e ∈ entries F done, (map e.1, e.2) ∈ entries F (done.foldl addNew strs)

theorem Merged.step (nextSize : Nat → Nat) (junk : Nat → Nat → UInt8) {done : List (List UInt8)} {map : Nat → Nat}
    (h : Merged F strs done t map) (hv : F.Valid s) (hstr : str.take s.length = s)
    (hfits : (layout F ((done ++ [s]).foldl addNew strs)).length < 2 ^ 32) :
    ∃ t' i, insert nextSize junk F.STR t str s.length = some (t', i) ∧
      Merged F strs (done ++ [s]) t' (Function.update map (layout F done).length (i % 2 ^ 32)) := by
  rw [List.foldl_append] at hfits
  obtain ⟨t', i, hins, hrep, hi⟩ := insert_spec nextSize junk h.rep hv hfits hstr
  refine ⟨t', i, hins, ?_, ?_, fun e he => ?_⟩
  · rw [List.foldl_append]
    exact hrep
  · have hne : 0 ≠ (layout F done).length := by
      rw [length_layout]
      omega
    rw [Function.update_of_ne hne]
    exact h.zero
  · rw [List.foldl_append]
    rw [entries_append_singleton, List.mem_append, List.mem_singleton] at he
    rcases he with he | rfl
    · have hup := recordsAt_upper he
      have hpos := encode_pos F e.2
      have hne : e.1 ≠ (layout F done).length := by
        rw [length_layout]
        omega
      rw [Function.update_of_ne hne]
      exact recordsAt_addNew s (h.moved e he)
    · rw [Function.update_self, Nat.mod_eq_of_lt ((hrep.lt_lastIdx hi).trans hrep.small)]
      exact hi

/-- A merge adds the other table's strings and maps the offset of each to its offset in the merged table. -/
theorem mergeStrtab_spec (nextSize : Nat → Nat) (junk : Nat → Nat → UInt8) (h : Represents F t strs) {q : StrTab}
    {other : List (List UInt8)} (hq : Represents F q other)
    (hfits : (layout F (other.foldl addNew strs)).length < 2 ^ 32) (map : Nat → Nat) :
    ∃ t' map', mergeStrtab nextSize junk F.STR t q.image q.lastIdx map = some (t', map') ∧
      Merged F strs other t' map' := by
  have hb : layout F other = layout F other ++ [] := (List.append_nil _).symm
  have hs : (layout F other).length < 2 ^ 32 := hq.last ▸ hq.small
  have hstep : ∀ done s more (st : StrTab × (Nat → Nat)), other = done ++ s :: more → Merged F strs done st.1 st.2 →
      ∃ st', mergeEntry nextSize junk F.STR (layout F other) st (layout F done).length s.length = some st' ∧
        Merged F strs (done ++ [s]) st'.1 st'.2 := by
    intro done s more st hsplit hdone
    have hentry := entryAt_of_mem hb hs hq.valid (hsplit ▸ entries_middle done more s)
    have hle : (layout F ((done ++ [s]).foldl addNew strs)).length < 2 ^ 32 := by
      have hmono := length_foldl_addNew F.encode ((done ++ [s]).foldl addNew strs) more
      rw [← List.foldl_append, List.append_assoc, List.singleton_append, ← hsplit] at hmono
      rw [length_layout] at hfits ⊢
      omega
    obtain ⟨t₁, i, hins, hmerged⟩ := hdone.step nextSize junk hentry.valid hentry.take_eq hle
    refine ⟨(t₁, _), ?_, hmerged⟩
    rw [mergeEntry, hins]
    rfl
  obtain ⟨⟨t', map'⟩, hrun, hmerged⟩ := walkEntries_all hb hs hq.valid (le_refl 32)
    (mergeEntry nextSize junk F.STR (layout F other)) (fun done st => Merged F strs done st.1 st.2) hstep
    (t, Function.update map 0 0) ⟨h, Function.update_self (0 : Nat) 0 map, fun e he => absurd he List.not_mem_nil⟩
  refine ⟨t', map', ?_, hmerged⟩
  rw [mergeStrtab, hq.image_eq, hq.last]
  exact hrun

end Path64.Strtab

import Path64.Segmented.Blocks

/-!
# Segmented arrays: operations

* `ListStep`, `ListRun` : the operations on a list;
* `Permits` : what an operation asks of its caller, and that the 32-bit counts have room for a new block;
* `insertMany_spec`, `transfer_spec`, `deleteLastN_spec` : what each operation does to the list;
* `step_refines`, `run_refines` : the operations on the array are those on the list.
-/

namespace Path64.Segmented

open Lib

variable {L : Layout} {T : Type} {st : SegArray T} {l : List T} {b : Nat} (zero : T) {alloc : Alloc}

/-! ## The list -/

/-- The operations on a list, and the index of the first new element; a new entry may hold anything. -/
inductive ListStep : Op T → List T → List T → Option Nat → Prop
  | insert (x : T) (l : List T) : ListStep (.insert x) l (l ++ [x]) (some l.length)
  | newEntry (v : T) (l : List T) : ListStep (.newEntry none) l (l ++ [v]) (some l.length)
  | newEntrySome (x : T) (l : List T) : ListStep (.newEntry (some x)) l (l ++ [x]) (some l.length)
  | insertMany (xs l : List T) : ListStep (.insertMany xs) l (l ++ xs) (some l.length)
  | transfer (x : Nat) (xs l : List T) : ListStep (.transfer x xs) l (l ++ xs) (some l.length)
  | reserve (n : Nat) (l : List T) : ListStep (.reserve n) l l none
  | deleteLast (l : List T) : ListStep .deleteLast l l.dropLast none
  | deleteLastN (n : Nat) (l : List T) : ListStep (.deleteLastN n) l (l.take (l.length - n)) none
  | deleteDownTo (idx : Nat) (l : List T) : ListStep (.deleteDownTo idx) l (l.take idx) none

/-- A sequence of them. -/
inductive ListRun : List (Op T) → List T → List T → List (Option Nat) → Prop
  | nil (l : List T) : ListRun [] l l []
  | cons {op : Op T} {ops : List (Op T)} {l l' l'' : List T} {ret : Option Nat} {rets : List (Option Nat)}
      (h : ListStep op l l' ret) (h' : ListRun ops l' l'' rets) : ListRun (op :: ops) l l'' (ret :: rets)

/-! ## The callers' part -/

/-- There are 32-bit indices for `n` more elements, and for the block that they may need. -/
structure FitsMany (L : Layout) (st : SegArray T) (n : Nat) : Prop where
  elements : st.size + n < 2 ^ 32
  block : st.maxSize < st.size + n →
    st.maxSize + newBlockSize L (max st.nextBlockSize (st.size + n - st.maxSize)) < 2 ^ 32

/-- The same for a buffer, of which whole blocks are taken over. -/
structure FitsBuffer (L : Layout) (st : SegArray T) (x n : Nat) : Prop where
  elements : st.size + n < 2 ^ 32
  block : st.maxSize < st.size + n → (st.size + n - st.maxSize) % L.blockSize ≠ 0 →
    st.maxSize + (st.size + n - st.maxSize) / L.blockSize * L.blockSize +
      newBlockSize L (st.nextBlockSize - (st.size + n - st.maxSize) / L.blockSize * L.blockSize) < 2 ^ 32
  apart : ∀ f ∈ st.map, f + L.blockBytes ≤ x ∨ x + n * L.sizeofT ≤ f

/-- What an operation asks of its caller, and of the counts. -/
def Permits (L : Layout) (st : SegArray T) : Op T → Prop
  | .insert _ | .newEntry _ => st.size = st.maxSize → st.maxSize + newBlockSize L st.nextBlockSize < 2 ^ 32
  | .insertMany xs => FitsMany L st xs.length
  | .transfer x xs => FitsBuffer L st x xs.length
  | .deleteLast => 0 < st.size
  | .deleteLastN n => n ≤ st.size
  | .reserve _ | .deleteDownTo _ => True

/-- What every operation of a sequence asks, in the state that it finds. -/
def Permitted (L : Layout) (zero : T) : List (Op T × Alloc) → SegArray T → Prop
  | [], _ => True
  | (op, alloc) :: ops, st =>
    Allocates L alloc ∧ Permits L st op ∧ ∀ st' ret, step L zero alloc st op = some (st', ret) → Permitted L zero ops st'

/-! ## Insertions -/

theorem LastBlock.agrees (hs : Stored L st l) (hb : LastBlock L st b) (hlt : b * L.blockSize < st.size) :
    Agrees L st l := ⟨hs, Or.inr ⟨b, hb, hlt⟩⟩

theorem Agrees.copy (h : Agrees L st l) (xs : List T) (hfit : st.size + xs.length ≤ st.maxSize) :
    Agrees L (copy L st xs) (l ++ xs) := by
  rcases h.last with ⟨hmap, -⟩ | ⟨b, hb, hlt⟩
  · obtain ⟨hmax, hsize, -⟩ := h.eq_nil hmap
    obtain rfl : xs = [] := List.eq_nil_of_length_eq_zero (by omega)
    rw [copy_nil h.toStored, List.append_nil]
    exact h
  · obtain ⟨hs, hb'⟩ := h.toStored.copy hb hfit
    refine hb'.agrees hs ?_
    rw [copy_size h.toStored hfit]
    omega

theorem copy_allocate (h : Stored L st l) (hfull : st.size = st.maxSize) (ha : Allocates L alloc)
    (hfit : st.maxSize + newBlockSize L st.nextBlockSize < 2 ^ 32) (xs : List T) (hpos : xs ≠ [])
    (hroom : xs.length ≤ newBlockSize L st.nextBlockSize) :
    Agrees L (copy L (allocate L zero alloc st) xs) (l ++ xs) := by
  obtain ⟨hs, hb, hmax⟩ := allocate_spec zero h hfull ha hfit
  have hsize : (allocate L zero alloc st).size = st.size := by rw [allocate]
  have hroom' : (allocate L zero alloc st).size + xs.length ≤ (allocate L zero alloc st).maxSize := by
    omega
  obtain ⟨hs', hb'⟩ := hs.copy hb hroom'
  refine hb'.agrees hs' ?_
  rw [copy_size hs hroom', hsize, ← h.maxSize_eq, hfull]
  have := List.length_pos_iff.mpr hpos
  omega

/-- `New_entry` and an assignment are a copy of one element. -/
theorem newEntry_assign (x : T) : (newEntry L zero alloc st).1.assign (newEntry L zero alloc st).2 x =
    copy L (if st.size = st.maxSize then allocate L zero alloc st else st) [x] := by
  simp only [newEntry, SegArray.assign, Segmented.copy, writeAll, List.length_singleton, Nat.cast_one]

theorem insert_spec (h : Agrees L st l) (ha : Allocates L alloc)
    (hfit : st.size = st.maxSize → st.maxSize + newBlockSize L st.nextBlockSize < 2 ^ 32) (x : T) :
    Agrees L ((newEntry L zero alloc st).1.assign (newEntry L zero alloc st).2 x) (l ++ [x]) := by
  rw [newEntry_assign]
  split_ifs with hfull
  · refine copy_allocate zero h.toStored hfull ha (hfit hfull) [x] (List.cons_ne_nil _ _) ?_
    obtain ⟨c, hc, hnew⟩ := newBlockSize_blocks L st.nextBlockSize
    rw [hnew]
    exact Nat.mul_pos hc L.blockSize_pos
  · have := h.size_le
    refine h.copy [x] ?_
    rw [List.length_singleton]
    omega

theorem newEntry_spec (h : Agrees L st l) (ha : Allocates L alloc)
    (hfit : st.size = st.maxSize → st.maxSize + newBlockSize L st.nextBlockSize < 2 ^ 32) :
    ∃ v, Agrees L (newEntry L zero alloc st).1 (l ++ [v]) := by
  refine ⟨(newEntry L zero alloc st).1.mem (newEntry L zero alloc st).2, ?_⟩
  have hassign := insert_spec zero h ha hfit ((newEntry L zero alloc st).1.mem (newEntry L zero alloc st).2)
  rwa [SegArray.assign, Function.update_eq_self] at hassign

theorem Stored.setNext (h : Stored L st l) (next : Nat) (hnext : next < 2 ^ 32) :
    Stored L { st with nextBlockSize := next } l :=
  ⟨h.maxSize_eq, h.max_lt, hnext, h.size_eq, h.size_le, h.apart, h.get⟩

theorem u32_lt (x : Int) : u32 x < 2 ^ 32 := by
  unfold u32
  omega

theorem reserve_eq (st : SegArray T) (n : Nat) (h : st.nextBlockSize < 2 ^ 32) :
    ∃ next < 2 ^ 32, reserve st n = { st with nextBlockSize := next } := by
  unfold reserve
  split_ifs
  · exact ⟨_, u32_lt _, rfl⟩
  · exact ⟨st.nextBlockSize, h, rfl⟩

theorem Agrees.reserve (h : Agrees L st l) (n : Nat) : Agrees L (reserve st n) l := by
  obtain ⟨next, hnext, heq⟩ := reserve_eq st n h.next_lt
  rw [heq]
  refine ⟨h.toStored.setNext next hnext, h.last.imp id fun ⟨b, hb, hlt⟩ => ⟨b, ?_, hlt⟩⟩
  exact ⟨hb.lt, hb.base_eq, hb.block_eq, hb.linked, hb.base_le⟩

theorem reserve_fits (h : Stored L st l) {n : Nat} (hn : n < 2 ^ 32)
    (hfit : st.maxSize - st.size + st.nextBlockSize < 2 ^ 32) :
    reserve st n = { st with nextBlockSize := max st.nextBlockSize (n - (st.maxSize - st.size)) } := by
  have hle := h.size_le
  have hmax := h.max_lt
  have hspace : u32 (st.maxSize - st.size) = st.maxSize - st.size := u32_sub hle hmax
  unfold Segmented.reserve
  rw [hspace, ← Nat.cast_add, u32_eq hfit]
  split_ifs with hlt
  · rw [u32_sub (by omega) hn, max_eq_right (by omega)]
  · rw [max_eq_left (by omega)]

/-- What `Insert` of many elements does. -/
structure Inserted (L : Layout) (st st' : SegArray T) (l xs : List T) : Prop where
  agrees : Agrees L st' (l ++ xs)
  kept : st.size + xs.length ≤ st.maxSize → st'.maxSize = st.maxSize ∧ st'.nextBlockSize = st.nextBlockSize
  grown : st.maxSize < st.size + xs.length →
    st'.maxSize = st.maxSize + newBlockSize L (max st.nextBlockSize (st.size + xs.length - st.maxSize))

theorem insertMany_spec (h : Agrees L st l) (ha : Allocates L alloc) {xs : List T} (hfit : FitsMany L st xs.length) :
    Inserted L st (insertMany L zero alloc st xs) l xs := by
  have hle := h.size_le
  have hmax := h.max_lt
  have hcount : u32 (st.size + xs.length) = st.size + xs.length := by
    rw [← Nat.cast_add, u32_eq hfit.elements]
  have hspace : u32 (st.maxSize - st.size) = st.maxSize - st.size := u32_sub hle hmax
  rw [insertMany, hcount, hspace]
  split_ifs with hroom
  · exact ⟨h.copy xs hroom, fun _ => ⟨rfl, rfl⟩, fun hlt => absurd hroom (Nat.not_le.mpr hlt)⟩
  · have hlen : (xs.take (st.maxSize - st.size)).length = st.maxSize - st.size := by
      rw [List.length_take]
      omega
    have hrest : u32 ((xs.length : Int) - (st.maxSize - st.size : Nat)) = st.size + xs.length - st.maxSize := by
      rw [u32_sub (by omega) (by have := hfit.elements; omega)]
      omega
    -- the space that is left is filled; the array is full
    have hfill := h.copy (xs.take (st.maxSize - st.size)) (by omega)
    have hsize : (copy L st (xs.take (st.maxSize - st.size))).size = st.maxSize := by
      rw [copy_size h.toStored (by omega)]
      omega
    have hnext := h.next_lt
    have hfull : (copy L st (xs.take (st.maxSize - st.size))).maxSize -
        (copy L st (xs.take (st.maxSize - st.size))).size = 0 := by
      rw [hsize]
      exact Nat.sub_self _
    have hreserve : reserve (copy L st (xs.take (st.maxSize - st.size))) (st.size + xs.length - st.maxSize) =
        { copy L st (xs.take (st.maxSize - st.size)) with
          nextBlockSize := max st.nextBlockSize (st.size + xs.length - st.maxSize) } := by
      rw [reserve_fits hfill.toStored (by have := hfit.elements; omega) (by rw [hfull, Nat.zero_add]; exact hnext), hfull,
        Nat.sub_zero]
      rfl
    have hblock := hfit.block (by omega)
    have hstored := hfill.toStored.setNext (max st.nextBlockSize (st.size + xs.length - st.maxSize))
      (by have := hfit.elements; omega)
    have hcopy := copy_allocate zero hstored hsize ha hblock (xs.drop (st.maxSize - st.size))
      (by rw [← List.length_pos_iff, List.length_drop]; omega)
      (by
        have := le_newBlockSize L (max st.nextBlockSize (st.size + xs.length - st.maxSize))
        rw [List.length_drop]
        show _ ≤ newBlockSize L (max _ _)
        omega)
    simp only [hrest, hreserve]
    rw [List.append_assoc, List.take_append_drop] at hcopy
    refine ⟨hcopy, fun hle => absurd hle hroom, fun _ => ?_⟩
    exact (allocate_spec zero hstored hsize ha hblock).2.2

/-! ## Transfers -/

/-- Whole blocks of a buffer become blocks of a full array. -/
theorem reuse_spec (h : Stored L st l) (hfull : st.size = st.maxSize) {x : Nat} {xs : List T}
    (hlen : L.blockSize ≤ xs.length) (hfit : st.size + xs.length < 2 ^ 32)
    (hx : ∀ f ∈ st.map, f + L.blockBytes ≤ x ∨ x + xs.length * L.sizeofT ≤ f) :
    Agrees L (reuse L st x xs) (l ++ xs.take (xs.length / L.blockSize * L.blockSize)) ∧
      (reuse L st x xs).size = (reuse L st x xs).maxSize ∧
      (reuse L st x xs).maxSize = st.maxSize + xs.length / L.blockSize * L.blockSize ∧
      (reuse L st x xs).nextBlockSize = st.nextBlockSize - xs.length / L.blockSize * L.blockSize := by
  have hreused : xs.length &&& (2 ^ 32 - 1 - (L.blockSize - 1)) = xs.length / L.blockSize * L.blockSize :=
    and_mask (by omega)
  have hle : xs.length / L.blockSize * L.blockSize ≤ xs.length := Nat.div_mul_le_self _ _
  have hc : 0 < xs.length / L.blockSize := Nat.div_pos hlen L.blockSize_pos
  generalize xs.length / L.blockSize = c at hreused hle hc ⊢
  have htake : (xs.take (c * L.blockSize)).length = c * L.blockSize := List.length_take_of_le hle
  have hsize : (reuse L st x xs).size = st.size + c * L.blockSize := by
    refine Eq.trans (b := u32 (st.size + (xs.length &&& (2 ^ 32 - 1 - (L.blockSize - 1)) : Nat))) rfl ?_
    rw [hreused, ← Nat.cast_add, u32_eq (by omega)]
  have hmax : (reuse L st x xs).maxSize = st.maxSize + c * L.blockSize := by
    refine Eq.trans (b := u32 (st.maxSize + (xs.length &&& (2 ^ 32 - 1 - (L.blockSize - 1)) : Nat))) rfl ?_
    rw [hreused, ← Nat.cast_add, u32_eq (by omega)]
  have hnext : (reuse L st x xs).nextBlockSize = st.nextBlockSize - c * L.blockSize := by
    rw [reuse, hreused]
    dsimp only
    split_ifs <;> omega
  have hmap : (reuse L st x xs).map = st.map ++ chunksFrom L.blockBytes x c := by
    rw [reuse, hreused]
    refine updateMap_eq hc ?_ (by omega)
    have := Nat.le_mul_of_pos_right c L.blockSize_pos
    omega
  have hmem : (reuse L st x xs).mem = writeAll L.sizeofT st.mem x (xs.take (c * L.blockSize)) := by
    rw [reuse, hreused]
  have hbytes : c * L.blockBytes ≤ xs.length * L.sizeofT := by
    rw [Layout.blockBytes, ← Nat.mul_assoc]
    exact Nat.mul_le_mul_right _ hle
  obtain ⟨hs, hb⟩ := h.extend hfull hc (by omega) (fun f hf => (hx f hf).imp id fun h => by omega) hmap hmax
    (by rw [reuse]) (by rw [reuse]) (by have := h.next_lt; omega) htake.le hmem (List.prefix_refl _)
    (by rw [hsize, htake])
  refine ⟨hb.agrees hs ?_, by rw [hsize, hmax, hfull], hmax, hnext⟩
  rw [hsize, hfull, h.maxSize_eq]
  exact Nat.lt_add_of_pos_right (Nat.mul_pos hc L.blockSize_pos)

/-- The part of `Transfer` for a full array. -/
theorem transfer_full (h : Agrees L st l) (ha : Allocates L alloc) (hfull : st.size = st.maxSize) (x : Nat) (xs : List T)
    (hfit : st.size + xs.length < 2 ^ 32)
    (hx : ∀ f ∈ st.map, f + L.blockBytes ≤ x ∨ x + xs.length * L.sizeofT ≤ f)
    (hblock : xs.length % L.blockSize ≠ 0 → st.maxSize + xs.length / L.blockSize * L.blockSize +
      newBlockSize L (st.nextBlockSize - xs.length / L.blockSize * L.blockSize) < 2 ^ 32) :
    let reusedSize := if L.blockSize ≤ xs.length then xs.length &&& (2 ^ 32 - 1 - (L.blockSize - 1)) else 0
    let st' := if L.blockSize ≤ xs.length then reuse L st x xs else st
    Agrees L (if 0 < xs.length - reusedSize then copy L (allocate L zero alloc st') (xs.drop reusedSize) else st')
      (l ++ xs) := by
  have hmod := Nat.div_add_mod' xs.length L.blockSize
  have hlt := Nat.mod_lt xs.length L.blockSize_pos
  have hreused : (if L.blockSize ≤ xs.length then xs.length &&& (2 ^ 32 - 1 - (L.blockSize - 1)) else 0) =
      xs.length / L.blockSize * L.blockSize := by
    split_ifs with hlen
    · exact and_mask (by omega)
    · rw [Nat.div_eq_of_lt (Nat.not_le.mp hlen), Nat.zero_mul]
  -- whole blocks are taken over, if there are any; the array is full again
  obtain ⟨st', hst', hagrees, hfull', hmax', hnext'⟩ :
      ∃ st', (if L.blockSize ≤ xs.length then reuse L st x xs else st) = st' ∧
        Agrees L st' (l ++ xs.take (xs.length / L.blockSize * L.blockSize)) ∧ st'.size = st'.maxSize ∧
        st'.maxSize = st.maxSize + xs.length / L.blockSize * L.blockSize ∧
        st'.nextBlockSize = st.nextBlockSize - xs.length / L.blockSize * L.blockSize := by
    refine ⟨_, rfl, ?_⟩
    split_ifs with hlen
    · exact reuse_spec h.toStored hfull hlen hfit hx
    · rw [Nat.div_eq_of_lt (Nat.not_le.mp hlen), Nat.zero_mul, List.take_zero, List.append_nil]
      exact ⟨h, hfull, rfl, rfl⟩
  intro reusedSize st''
  rw [show reusedSize = _ from hreused, show st'' = st' from hst']
  split_ifs with hrest
  · have hcopy := copy_allocate zero hagrees.toStored hfull' ha
      (by rw [hmax', hnext']; exact hblock (by omega)) (xs.drop (xs.length / L.blockSize * L.blockSize))
      (by rwa [← List.length_pos_iff, List.length_drop]) (by
        obtain ⟨c, hc, hnew⟩ := newBlockSize_blocks L st'.nextBlockSize
        have := Nat.le_mul_of_pos_left L.blockSize hc
        rw [List.length_drop]
        omega)
    rwa [List.append_assoc, List.take_append_drop] at hcopy
  · rwa [List.take_of_length_le (by omega)] at hagrees

theorem transfer_spec (h : Agrees L st l) (ha : Allocates L alloc) {x : Nat} {xs : List T}
    (hfit : FitsBuffer L st x xs.length) : Agrees L (transfer L zero alloc st x xs) (l ++ xs) := by
  have hle := h.size_le
  have hmax := h.max_lt
  have hcount : u32 (st.size + xs.length) = st.size + xs.length := by
    rw [← Nat.cast_add, u32_eq hfit.elements]
  have hspace : u32 (st.maxSize - st.size) = st.maxSize - st.size := u32_sub hle hmax
  rw [transfer, hcount, hspace]
  split_ifs with hroom
  · exact h.copy xs hroom
  · have hfill : (if 0 < st.maxSize - st.size then copy L st (xs.take (st.maxSize - st.size)) else st) =
        copy L st (xs.take (st.maxSize - st.size)) := by
      split_ifs with hpos
      · rfl
      · rw [Nat.eq_zero_of_not_pos hpos, List.take_zero, copy_nil h.toStored]
    have hlen : (xs.take (st.maxSize - st.size)).length = st.maxSize - st.size := by
      rw [List.length_take]
      omega
    have hrest : (xs.drop (st.maxSize - st.size)).length = st.size + xs.length - st.maxSize := by
      rw [List.length_drop]
      omega
    have hcopy := h.copy (xs.take (st.maxSize - st.size)) (by omega)
    have hsize : (copy L st (xs.take (st.maxSize - st.size))).size = st.maxSize := by
      rw [copy_size h.toStored (by omega)]
      omega
    have hbytes : (st.maxSize - st.size) * L.sizeofT + (st.size + xs.length - st.maxSize) * L.sizeofT =
        xs.length * L.sizeofT := by
      rw [← Nat.add_mul]
      congr 1
      omega
    have hfull := transfer_full zero hcopy ha hsize (x + (st.maxSize - st.size) * L.sizeofT)
      (xs.drop (st.maxSize - st.size)) (by have := hfit.elements; omega)
      (fun f hf => (hfit.apart f hf).imp (fun h => by omega) fun h => by rw [hrest]; omega)
      (by rw [hrest]; exact hfit.block (by omega))
    rw [List.append_assoc, List.take_append_drop] at hfull
    simp only [hfill]
    exact hfull

/-! ## Deletions -/

theorem LastBlock.take (hb : LastBlock L st b) (hs : Stored L st l) {m : Nat} (hm : m ≤ l.length)
    (hlt : b * L.blockSize < m) : Agrees L { st with size := m } (l.take m) :=
  ⟨hs.take hm, Or.inr ⟨b, ⟨hb.lt, hb.base_eq, hb.block_eq, hb.linked, hlt.le⟩, hlt⟩⟩

theorem LastBlock.pop (hb : LastBlock L st b) (hs : Stored L st l) :
    ∃ st', popMap L { st with size := b * L.blockSize } = some st' ∧ Agrees L st' (l.take (b * L.blockSize)) ∧
      st'.map.length = b :=
  popMap_spec (hs.take (hs.size_eq ▸ hb.base_le)) ⟨hb.lt, hb.base_eq, hb.block_eq, hb.linked, le_rfl⟩ rfl

theorem LastBlock.base_u32 (hb : LastBlock L st b) (hs : Stored L st l) : u32 st.blockBase = b * L.blockSize := by
  have := hb.base_le
  have := hs.size_le
  have := hs.max_lt
  rw [hb.base_eq, u32_wrap32, u32_eq (by omega)]

theorem deleteLast_spec (h : Agrees L st l) (hpos : 0 < st.size) :
    ∃ st', deleteLast L st = some st' ∧ Agrees L st' l.dropLast := by
  have hlt : st.size < 2 ^ 32 := h.size_le.trans_lt h.max_lt
  have hsize := h.size_eq
  have hdec : u32 (st.size - 1) = st.size - 1 := u32_sub (b := 1) hpos hlt
  rcases h.last with ⟨hmap, -⟩ | ⟨b, hb, hltb⟩
  · exact absurd (h.eq_nil hmap).2.1 hpos.ne'
  · rw [deleteLast, hdec, hb.base_u32 h.toStored, List.dropLast_eq_take, ← hsize]
    dsimp only
    split_ifs with heq
    · obtain ⟨st', hst', hagrees, -⟩ := hb.pop h.toStored
      rw [heq]
      exact ⟨st', hst', hagrees⟩
    · exact ⟨_, rfl, hb.take h.toStored (by omega) (by omega)⟩

/-- Every iteration takes the last block, and its entries from the map. -/
theorem deleteLastLoop_spec {fuel n : Nat} (h : Agrees L st l) (hn : n ≤ l.length) (hfuel : st.map.length < fuel) :
    ∃ st', deleteLastLoop L fuel st n = some st' ∧ Agrees L st' (l.take (l.length - n)) := by
  induction fuel generalizing st l n with
  | zero => exact absurd hfuel (Nat.not_lt_zero _)
  | succ fuel ih =>
    have hlt : st.size < 2 ^ 32 := h.size_le.trans_lt h.max_lt
    have hsize := h.size_eq
    have hsub : u32 (st.size - n) = st.size - n := u32_sub (hsize ▸ hn) hlt
    rw [deleteLastLoop, hsub]
    rcases h.last with ⟨hmap, hbase⟩ | ⟨b, hb, hltb⟩
    · obtain ⟨-, hsize0, rfl⟩ := h.eq_nil hmap
      obtain rfl : n = 0 := Nat.le_zero.mp hn
      have hin : st.inBlock st.size = 1 := by
        rw [SegArray.inBlock, hbase, hsize0]
        decide
      rw [hin, if_neg (by decide)]
      exact ⟨st, rfl, by rwa [List.take_nil]⟩
    · have hin : st.inBlock st.size = st.size - b * L.blockSize := hb.inBlock_eq hb.base_le hlt
      rw [hin, hb.base_u32 h.toStored]
      split_ifs with hle
      · obtain ⟨st', hst', hagrees, hlen⟩ := hb.pop h.toStored
        have htake : (l.take (b * L.blockSize)).length = b * L.blockSize := List.length_take_of_le (by omega)
        obtain ⟨st'', hst'', hagrees'⟩ := ih hagrees (n := n - (st.size - b * L.blockSize)) (by omega)
          (by have := hb.lt; omega)
        rw [htake, List.take_take, min_eq_left (Nat.sub_le _ _)] at hagrees'
        refine ⟨st'', ?_, ?_⟩
        · rw [hst', Option.bind_some, hst'']
        · rwa [show b * L.blockSize - (n - (st.size - b * L.blockSize)) = l.length - n by omega] at hagrees'
      · rw [← hsize]
        exact ⟨_, rfl, hb.take h.toStored (by omega) (by omega)⟩

theorem deleteLastN_spec {n : Nat} (h : Agrees L st l) (hn : n ≤ st.size) :
    ∃ st', deleteLastN L st n = some st' ∧ Agrees L st' (l.take (l.length - n)) :=
  deleteLastLoop_spec h (h.size_eq ▸ hn) (Nat.lt_succ_self _)

theorem deleteDownTo_spec (h : Agrees L st l) (idx : Nat) :
    ∃ st', deleteDownTo L st idx = some st' ∧ Agrees L st' (l.take idx) := by
  have hlt : st.size < 2 ^ 32 := h.size_le.trans_lt h.max_lt
  have hsize := h.size_eq
  unfold deleteDownTo
  split_ifs with hidx
  · rw [u32_sub hidx.le hlt]
    obtain ⟨st', hst', hagrees⟩ := deleteLastN_spec h (n := st.size - idx) (Nat.sub_le _ _)
    rw [show l.length - (st.size - idx) = idx by omega] at hagrees
    exact ⟨st', hst', hagrees⟩
  · exact ⟨st, rfl, by rwa [List.take_of_length_le (by omega)]⟩

/-! ## Sequences -/

/-- One operation on the array is that operation on the list. -/
theorem step_refines (h : Agrees L st l) (ha : Allocates L alloc) {op : Op T} (hp : Permits L st op) :
    ∃ st' ret l', step L zero alloc st op = some (st', ret) ∧ ListStep op l l' ret ∧ Agrees L st' l' := by
  have hsize := h.size_eq
  cases op with
  | insert x =>
    refine ⟨_, _, _, rfl, ?_, insert_spec zero h ha hp x⟩
    rw [hsize]
    exact .insert x l
  | newEntry x =>
    cases x with
    | none =>
      obtain ⟨v, hv⟩ := newEntry_spec zero h ha hp
      refine ⟨_, _, _, rfl, ?_, hv⟩
      rw [hsize]
      exact .newEntry v l
    | some x =>
      refine ⟨_, _, _, rfl, ?_, insert_spec zero h ha hp x⟩
      rw [hsize]
      exact .newEntrySome x l
  | insertMany xs =>
    refine ⟨_, _, _, rfl, ?_, (insertMany_spec zero h ha hp).agrees⟩
    rw [hsize]
    exact .insertMany xs l
  | transfer x xs =>
    refine ⟨_, _, _, rfl, ?_, transfer_spec zero h ha hp⟩
    rw [hsize]
    exact .transfer x xs l
  | reserve n => exact ⟨_, _, _, rfl, .reserve n l, h.reserve n⟩
  | deleteLast =>
    obtain ⟨st', hst', hagrees⟩ := deleteLast_spec h hp
    exact ⟨st', none, _, by rw [step, hst', Option.map_some], .deleteLast l, hagrees⟩
  | deleteLastN n =>
    obtain ⟨st', hst', hagrees⟩ := deleteLastN_spec h hp
    exact ⟨st', none, _, by rw [step, hst', Option.map_some], .deleteLastN n l, hagrees⟩
  | deleteDownTo idx =>
    obtain ⟨st', hst', hagrees⟩ := deleteDownTo_spec h idx
    exact ⟨st', none, _, by rw [step, hst', Option.map_some], .deleteDownTo idx l, hagrees⟩

/-- A sequence of operations on the array is that sequence on the list. -/
theorem run_refines {ops : List (Op T × Alloc)} (h : Agrees L st l) (hp : Permitted L zero ops st) :
    ∃ st' rets l', run L zero ops st = some (st', rets) ∧ ListRun (ops.map Prod.fst) l l' rets ∧ Agrees L st' l' := by
  induction ops generalizing st l with
  | nil => exact ⟨st, [], l, rfl, .nil l, h⟩
  | cons op ops ih =>
    obtain ⟨op, alloc⟩ := op
    obtain ⟨ha, hop, hops⟩ := hp
    obtain ⟨st', ret, l', hst', hl', hagrees⟩ := step_refines zero h ha hop
    obtain ⟨st'', rets, l'', hst'', hl'', hagrees'⟩ := ih hagrees (hops st' ret hst')
    refine ⟨st'', ret :: rets, l'', ?_, .cons hl' hl'', hagrees'⟩
    rw [run, hst']
    simp only [Option.bind_eq_bind, Option.bind_some, hst'']
    rfl

end Path64.Segmented

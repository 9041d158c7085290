import Mathlib.Data.List.Induction
import Mathlib.Data.Nat.Bitwise
import Path64.Segmented.Basic

/-!
# Segmented arrays: blocks

* `Stored` : the elements of a list are where `Entry` looks for them, in blocks that do not overlap;
* `LastBlock` : the last block, where `New_entry` and `Copy` write;
* `Stored.copy`, `allocate_spec`, `popMap_spec` : what becomes of both.
-/

namespace Path64.Segmented

open Lib

variable {L : Layout} {T : Type}

/-! ## 32-bit values -/

theorem u32_eq {n : Nat} (h : n < 2 ^ 32) : u32 n = n := by
  unfold u32
  omega

theorem u32_sub {a b : Nat} (hab : b ≤ a) (ha : a < 2 ^ 32) : u32 (a - b) = a - b := by
  unfold u32
  omega

theorem u32_wrap32 (x : Int) : u32 (wrap32 x) = u32 x := by
  rw [u32, u32, wrap32_emod]

theorem u32_sub_wrap32 (a : Int) (x : Int) : u32 (a - wrap32 x) = u32 (a - x) := by
  rw [u32, u32, Int.sub_emod, wrap32_emod, ← Int.sub_emod]

theorem Layout.blockSize_pos (L : Layout) : 0 < L.blockSize := Nat.two_pow_pos _

theorem Layout.blockSize_lt (L : Layout) : L.blockSize < 2 ^ 32 := Nat.pow_lt_pow_right (by decide) L.shift_lt

theorem Layout.blockSize_dvd (L : Layout) : ∃ c, 2 ^ 32 = c * L.blockSize :=
  ⟨2 ^ (32 - L.shift), by rw [blockSize, ← Nat.pow_add, Nat.sub_add_cancel L.shift_lt.le]⟩

theorem and_mask {n : Nat} (h : n < 2 ^ 32) :
    n &&& (2 ^ 32 - 1 - (L.blockSize - 1)) = n / L.blockSize * L.blockSize := by
  have hmask : 2 ^ 32 - 1 - (L.blockSize - 1) = 2 ^ 32 - (L.blockSize - 1 + 1) := by
    omega
  apply Nat.eq_of_testBit_eq
  intro i
  rw [hmask, Nat.testBit_and, Nat.testBit_two_pow_sub_succ (by have := L.blockSize_lt; omega), Layout.blockSize,
    Nat.testBit_two_pow_sub_one, Nat.testBit_mul_two_pow, Nat.testBit_div_two_pow]
  by_cases hi : i < 32
  · by_cases hs : i < L.shift
    · simp [hs, Nat.not_le.mpr hs]
    · simp [hs, hi, Nat.not_lt.mp hs]
  · have hlt : n < 2 ^ i := h.trans_le (Nat.pow_le_pow_right (by decide) (Nat.not_lt.mp hi))
    have hs : L.shift ≤ i := L.shift_lt.le.trans (Nat.not_lt.mp hi)
    simp [hi, hs, Nat.testBit_lt_two_pow hlt]

/-- The number of elements that a block for `next` of them has room for. -/
def newBlockSize (L : Layout) (next : Nat) : Nat :=
  if next = 0 then L.blockSize else (next + (L.blockSize - 1)) / L.blockSize * L.blockSize

theorem le_newBlockSize (L : Layout) (next : Nat) : next ≤ newBlockSize L next := by
  unfold newBlockSize
  split_ifs with h
  · rw [h]
    exact Nat.zero_le _
  · have := Nat.lt_div_mul_add (a := next + (L.blockSize - 1)) L.blockSize_pos
    have := L.blockSize_pos
    omega

theorem newBlockSize_blocks (L : Layout) (next : Nat) : ∃ c, 0 < c ∧ newBlockSize L next = c * L.blockSize := by
  have hpos := L.blockSize_pos
  unfold newBlockSize
  split_ifs with h
  · exact ⟨1, Nat.one_pos, (Nat.one_mul _).symm⟩
  · exact ⟨_, Nat.div_pos (by omega) hpos, rfl⟩

theorem allocSize_eq {next : Nat} (h : newBlockSize L next < 2 ^ 32) : allocSize L next = newBlockSize L next := by
  unfold allocSize
  unfold newBlockSize at h ⊢
  split_ifs at h ⊢ with h0
  · rfl
  · have hpos := L.blockSize_pos
    obtain ⟨c, hc⟩ := L.blockSize_dvd
    have hlt : (next + (L.blockSize - 1)) / L.blockSize < c := Nat.lt_of_mul_lt_mul_right (hc ▸ h)
    have hfit : next + (L.blockSize - 1) < 2 ^ 32 := hc ▸ (Nat.div_lt_iff_lt_mul hpos).mp hlt
    have hcast : (next : Int) + (L.blockSize - 1) = ((next + (L.blockSize - 1) : Nat) : Int) := by
      omega
    rw [roundUp, hcast, u32_eq hfit, and_mask hfit]

/-- `Update_Map` adds a run of adjacent chunks. -/
theorem updateMap_eq {c fuel marker : Nat} {map : List Nat} (hc : 0 < c) (hfuel : c ≤ fuel)
    (hfit : c * L.blockSize < 2 ^ 32) :
    updateMap L fuel marker (c * L.blockSize) map = map ++ chunksFrom L.blockBytes marker c := by
  induction c generalizing fuel marker map with
  | zero => exact absurd hc (Nat.lt_irrefl 0)
  | succ c ih =>
    obtain ⟨fuel, rfl⟩ := Nat.exists_eq_add_of_le' (hc.trans_le hfuel)
    have hsize : u32 (((c + 1) * L.blockSize : Nat) - L.blockSize) = c * L.blockSize := by
      rw [u32_sub (by rw [Nat.succ_mul]; omega) hfit, Nat.succ_mul, Nat.add_sub_cancel]
    rw [updateMap, hsize, chunksFrom_succ]
    cases c with
    | zero => rw [Nat.zero_mul, if_pos rfl, chunksFrom, List.range_zero, List.map_nil]
    | succ c =>
      have hpos : (c + 1) * L.blockSize ≠ 0 := (Nat.mul_pos (Nat.succ_pos c) L.blockSize_pos).ne'
      rw [if_neg hpos, ih (Nat.succ_pos c) (by omega) (by rw [Nat.succ_mul] at hfit; omega), List.append_assoc,
        List.singleton_append]

/-! ## The elements and the last block -/

/-- The blocks hold the elements of the list, where `Entry` looks for them. -/
structure Stored (L : Layout) (st : SegArray T) (l : List T) : Prop where
  maxSize_eq : st.maxSize = st.map.length * L.blockSize
  max_lt : st.maxSize < 2 ^ 32
  next_lt : st.nextBlockSize < 2 ^ 32
  size_eq : st.size = l.length
  size_le : st.size ≤ st.maxSize
  apart : Apart L.blockBytes st.map
  get : ∀ i (h : i < l.length), st.mem (entryPtr L st i) = l[i]

/-- The last block begins with the entry `b` of the map. -/
structure LastBlock (L : Layout) (st : SegArray T) (b : Nat) : Prop where
  lt : b < st.map.length
  base_eq : st.blockBase = wrap32 (b * L.blockSize : Nat)
  block_eq : st.block = start st.map b
  linked : Linked L.blockBytes st.map b st.map.length
  base_le : b * L.blockSize ≤ st.size

/-- There is no block, or there are elements in the last one. -/
structure Agrees (L : Layout) (st : SegArray T) (l : List T) : Prop extends Stored L st l where
  last : (st.map = [] ∧ st.blockBase = -1) ∨ ∃ b, LastBlock L st b ∧ b * L.blockSize < st.size

variable {st : SegArray T} {l : List T} {b : Nat}

theorem agrees_empty (L : Layout) (mem : Nat → T) : Agrees L (SegArray.empty mem) [] where
  maxSize_eq := (Nat.zero_mul _).symm
  max_lt := Nat.two_pow_pos 32
  next_lt := Nat.two_pow_pos 32
  size_eq := rfl
  size_le := le_rfl
  apart := List.Pairwise.nil
  get i h := absurd h (Nat.not_lt_zero i)
  last := Or.inl ⟨rfl, rfl⟩

theorem Stored.eq_nil (h : Stored L st l) (hmap : st.map = []) : st.maxSize = 0 ∧ st.size = 0 ∧ l = [] := by
  have hmax : st.maxSize = 0 := by
    rw [h.maxSize_eq, hmap, List.length_nil, Nat.zero_mul]
  have hsize : st.size = 0 := Nat.le_zero.mp (hmax ▸ h.size_le)
  exact ⟨hmax, hsize, List.eq_nil_of_length_eq_zero (h.size_eq ▸ hsize)⟩

theorem LastBlock.inBlock_eq (hb : LastBlock L st b) {idx : Nat} (hle : b * L.blockSize ≤ idx) (hlt : idx < 2 ^ 32) :
    st.inBlock idx = idx - b * L.blockSize := by
  rw [SegArray.inBlock, hb.base_eq, u32_sub_wrap32, u32_sub hle hlt]

theorem LastBlock.ptr_eq (hb : LastBlock L st b) (hs : Stored L st l) {idx : Nat} (hle : b * L.blockSize ≤ idx)
    (hlt : idx < st.maxSize) : st.block + st.inBlock idx * L.sizeofT = entryPtr L st idx := by
  obtain ⟨i, rfl⟩ := Nat.exists_eq_add_of_le hle
  rw [hb.inBlock_eq hle (hlt.trans hs.max_lt), hb.block_eq, Nat.add_sub_cancel_left]
  exact (slot_of_linked L.blockSize_pos hb.linked (hs.maxSize_eq ▸ hlt)).symm

theorem LastBlock.ptr_add (hb : LastBlock L st b) (hs : Stored L st l) {j : Nat} (hlt : st.size + j < st.maxSize) :
    st.block + st.inBlock st.size * L.sizeofT + j * L.sizeofT = entryPtr L st (st.size + j) := by
  have hle := hb.base_le
  have hmax := hs.max_lt
  rw [← hb.ptr_eq hs (by omega) hlt, hb.inBlock_eq (by omega) (by omega), hb.inBlock_eq (by omega) (by omega),
    Nat.add_assoc, ← Nat.add_mul]
  congr 2
  omega

theorem Stored.take (h : Stored L st l) {m : Nat} (hm : m ≤ l.length) : Stored L { st with size := m } (l.take m) where
  maxSize_eq := h.maxSize_eq
  max_lt := h.max_lt
  next_lt := h.next_lt
  size_eq := (List.length_take_of_le hm).symm
  size_le := hm.trans (h.size_eq ▸ h.size_le)
  apart := h.apart
  get i hi := by
    rw [List.getElem_take]
    exact h.get i (by rw [List.length_take] at hi; omega)

theorem copy_nil (h : Stored L st l) : copy L st [] = st := by
  have hlt : st.size < 2 ^ 32 := h.size_le.trans_lt h.max_lt
  rw [copy, List.length_nil, Nat.cast_zero, Int.add_zero, u32_eq hlt]
  rfl

theorem copy_size (h : Stored L st l) {xs : List T} (hfit : st.size + xs.length ≤ st.maxSize) :
    (copy L st xs).size = st.size + xs.length := by
  refine Eq.trans (b := u32 (st.size + xs.length)) rfl ?_
  rw [← Nat.cast_add, u32_eq (hfit.trans_lt h.max_lt)]

/-- Elements are added to the last block. -/
theorem Stored.copy (h : Stored L st l) (hb : LastBlock L st b) {xs : List T} (hfit : st.size + xs.length ≤ st.maxSize) :
    Stored L (copy L st xs) (l ++ xs) ∧ LastBlock L (copy L st xs) b := by
  have hmax := h.max_lt
  have hsize := copy_size h hfit
  have hle := hb.base_le
  refine ⟨⟨h.maxSize_eq, h.max_lt, h.next_lt, ?_, ?_, h.apart, fun i hi => ?_⟩, hb.lt, hb.base_eq, hb.block_eq,
    hb.linked, ?_⟩
  · rw [hsize, List.length_append, h.size_eq]
  · rwa [hsize]
  · show writeAll L.sizeofT st.mem _ xs (entryPtr L st i) = _
    rw [List.length_append, ← h.size_eq] at hi
    by_cases hlt : i < l.length
    · rw [writeAll_of_ne, List.getElem_append_left hlt]
      · exact h.get i hlt
      · intro j hj heq
        rw [hb.ptr_add h (by omega)] at heq
        have := slot_inj L.blockSize_pos L.sizeofT_pos h.apart (by rw [← h.maxSize_eq]; omega)
          (by rw [← h.maxSize_eq]; omega) heq
        have := h.size_eq
        omega
    · have hsize_eq := h.size_eq
      obtain ⟨j, rfl⟩ := Nat.exists_eq_add_of_le (Nat.not_lt.mp hlt)
      have hj : j < xs.length := by omega
      have hptr : entryPtr L st (l.length + j) = st.block + st.inBlock st.size * L.sizeofT + j * L.sizeofT :=
        hsize_eq ▸ (hb.ptr_add h (by omega)).symm
      rw [hptr, writeAll_get L.sizeofT_pos hj]
      simp only [List.getElem_append_right (Nat.le_add_right _ _), Nat.add_sub_cancel_left]
  · rw [hsize]
    omega

/-! ## A new block -/

/-- The allocator gives memory that no block of the array is in. -/
def Allocates (L : Layout) (alloc : Alloc) : Prop :=
  ∀ map bytes, ∀ f ∈ map, f + L.blockBytes ≤ alloc map bytes ∨ alloc map bytes + bytes ≤ f

/-- A full array gets a run of chunks. -/
theorem Stored.extend (h : Stored L st l) (hfull : st.size = st.maxSize) {c a : Nat} (hc : 0 < c)
    (hfit : st.maxSize + c * L.blockSize < 2 ^ 32) (ha : ∀ f ∈ st.map, f + L.blockBytes ≤ a ∨ a + c * L.blockBytes ≤ f)
    {st' : SegArray T} (hmap : st'.map = st.map ++ chunksFrom L.blockBytes a c)
    (hmax : st'.maxSize = st.maxSize + c * L.blockSize) (hbase : st'.blockBase = wrap32 st.size) (hblock : st'.block = a)
    (hnext : st'.nextBlockSize < 2 ^ 32) {vs : List T} (hvs : vs.length ≤ c * L.blockSize)
    (hmem : st'.mem = writeAll L.sizeofT st.mem a vs) {new : List T} (hnew : new <+: vs)
    (hsize : st'.size = st.size + new.length) :
    Stored L st' (l ++ new) ∧ LastBlock L st' st.map.length := by
  have hapart : Apart L.blockBytes st'.map := hmap ▸ h.apart.append ha
  have hlen : st'.map.length = st.map.length + c := by
    rw [hmap, List.length_append, length_chunksFrom]
  have hnewlen := hnew.length_le
  refine ⟨⟨?_, hmax ▸ hfit, hnext, ?_, ?_, hapart, fun i hi => ?_⟩, ?_, ?_, ?_, ?_, ?_⟩
  · rw [hmax, hlen, h.maxSize_eq, Nat.add_mul]
  · rw [hsize, List.length_append, h.size_eq]
  · omega
  · rw [hmem, entryPtr, hmap]
    by_cases hlt : i < l.length
    · have hi' : i < st.map.length * L.blockSize := by
        rw [← h.maxSize_eq, ← hfull, h.size_eq]
        exact hlt
      rw [List.getElem_append_left hlt]
      refine (writeAll_chunksFrom L.blockSize_pos L.sizeofT_pos (hmap ▸ hapart) hvs hi').trans ?_
      exact h.get i hlt
    · obtain ⟨j, rfl⟩ := Nat.exists_eq_add_of_le (Nat.not_lt.mp hlt)
      have hl : l.length = st.map.length * L.blockSize := by
        rw [← h.size_eq, hfull, h.maxSize_eq]
      rw [List.length_append] at hi
      have hj : j < new.length := by omega
      have hslot := slot_chunksFrom st.map (z := L.sizeofT) (a := a) L.blockSize_pos ((hj.trans_le hnewlen).trans_le hvs)
      rw [← hl] at hslot
      refine (congrArg _ hslot).trans ?_
      rw [writeAll_get L.sizeofT_pos (hj.trans_le hnewlen)]
      simp only [List.getElem_append_right (Nat.le_add_right _ _), Nat.add_sub_cancel_left]
      exact (hnew.getElem hj).symm
  · omega
  · rw [hbase, hfull, h.maxSize_eq]
  · rw [hblock, hmap]
    have := start_chunksFrom st.map L.blockBytes a hc
    rw [Nat.add_zero, Nat.zero_mul, Nat.add_zero] at this
    exact this.symm
  · rw [hmap]
    exact linked_chunksFrom
  · rw [hsize, hfull, h.maxSize_eq]
    exact Nat.le_add_right _ _

/-- A full array gets a block of its own. -/
theorem allocate_spec (zero : T) {alloc : Alloc} (h : Stored L st l) (hfull : st.size = st.maxSize)
    (ha : Allocates L alloc) (hfit : st.maxSize + newBlockSize L st.nextBlockSize < 2 ^ 32) :
    Stored L (allocate L zero alloc st) l ∧ LastBlock L (allocate L zero alloc st) st.map.length ∧
      (allocate L zero alloc st).maxSize = st.maxSize + newBlockSize L st.nextBlockSize := by
  obtain ⟨c, hc, hnew⟩ := newBlockSize_blocks L st.nextBlockSize
  have halloc : allocSize L st.nextBlockSize = c * L.blockSize := by
    rw [allocSize_eq (by omega), hnew]
  have hmax : (allocate L zero alloc st).maxSize = st.maxSize + newBlockSize L st.nextBlockSize := by
    show u32 (st.maxSize + allocSize L st.nextBlockSize) = _
    rw [halloc, ← hnew, ← Nat.cast_add, u32_eq hfit]
  have hbytes : c * L.blockSize * L.sizeofT = c * L.blockBytes := Nat.mul_assoc _ _ _
  have hmap : (allocate L zero alloc st).map =
      st.map ++ chunksFrom L.blockBytes (alloc st.map (c * L.blockBytes)) c := by
    show updateMap L _ _ (allocSize L st.nextBlockSize) _ = _
    rw [halloc, hbytes]
    refine updateMap_eq hc ?_ (by omega)
    have := Nat.le_mul_of_pos_right c L.blockSize_pos
    omega
  have hblock : (allocate L zero alloc st).block = alloc st.map (c * L.blockBytes) := by
    show alloc st.map (allocSize L st.nextBlockSize * L.sizeofT) = _
    rw [halloc, hbytes]
  have hmem : (allocate L zero alloc st).mem = writeAll L.sizeofT st.mem (alloc st.map (c * L.blockBytes))
      (List.replicate (c * L.blockSize) zero) := by
    show writeAll _ _ (alloc st.map (allocSize L st.nextBlockSize * L.sizeofT))
      (List.replicate (allocSize L st.nextBlockSize) zero) = _
    rw [halloc, hbytes]
  obtain ⟨hs, hb⟩ := h.extend hfull hc (by omega) (fun f hf => ha _ _ f hf) hmap (hnew ▸ hmax) (by rw [allocate]) hblock
    (Nat.two_pow_pos 32) (by rw [List.length_replicate]) hmem List.nil_prefix (by rw [allocate, List.length_nil, Nat.add_zero])
  rw [List.append_nil] at hs
  exact ⟨hs, hb, hmax⟩

/-! ## The last block goes -/

theorem Stored.start_inj (h : Stored L st l) {i j : Nat} (hi : i < st.map.length) (hj : j < st.map.length)
    (heq : start st.map i = start st.map j) : i = j := by
  by_contra hij
  have hpos : 0 < L.blockBytes := Nat.mul_pos L.blockSize_pos L.sizeofT_pos
  have := h.apart.start hi hj hij
  omega

theorem popEntries_eq {fs : List Nat} (hb : b < fs.length)
    (hne : ∀ c, b < c → c < fs.length → start fs c ≠ start fs b) :
    popEntries (start fs b) fs.reverse = some (fs.take b).reverse := by
  induction fs using List.reverseRecOn with
  | nil => exact absurd hb (Nat.not_lt_zero b)
  | append_singleton fs f ih =>
    rw [List.length_append, List.length_singleton] at hb hne
    have hlast : start (fs ++ [f]) fs.length = f := start_append_right fs [f] 0
    rw [List.reverse_append, List.reverse_singleton, List.singleton_append, popEntries]
    rcases Nat.lt_succ_iff_lt_or_eq.mp hb with hlt | rfl
    · have hf : f ≠ start (fs ++ [f]) b := fun heq => hne fs.length hlt (Nat.lt_succ_self _) (hlast.trans heq)
      rw [if_neg hf, List.take_append_of_le_length hlt.le, start_append_left hlt]
      refine ih hlt fun c hc hc' => ?_
      have := hne c hc (Nat.lt_succ_of_lt hc')
      rwa [start_append_left hc', start_append_left hlt] at this
    · rw [if_pos hlast.symm, List.take_left']
      rfl

theorem walkBack_eq (L : Layout) (map : List Nat) (idx : Nat) : ∃ b ≤ idx, Linked L.blockBytes map b (idx + 1) ∧
    walkBack L map idx (start map idx) (wrap32 (idx * L.blockSize : Nat)) =
      (start map b, wrap32 (b * L.blockSize : Nat)) := by
  induction idx with
  | zero => exact ⟨0, le_rfl, fun c _ hc => absurd hc (by omega), rfl⟩
  | succ idx ih =>
    rw [walkBack]
    split_ifs with hadj
    · obtain ⟨b, hb, hlinked, heq⟩ := ih
      have hbase : wrap32 (wrap32 ((idx + 1) * L.blockSize : Nat) - L.blockSize) = wrap32 (idx * L.blockSize : Nat) := by
        rw [wrap32, wrap32, Int.bmod_sub_bmod, Nat.succ_mul, Nat.cast_add, Int.add_sub_cancel]
        rfl
      rw [hbase]
      refine ⟨b, Nat.le_succ_of_le hb, fun c hc hc' => ?_, heq⟩
      rcases Nat.lt_succ_iff_lt_or_eq.mp (Nat.lt_of_succ_lt_succ hc') with hlt | rfl
      · exact hlinked c hc (Nat.succ_lt_succ hlt)
      · exact hadj
    · exact ⟨idx + 1, le_rfl, fun c hc hc' => absurd hc' (by omega), rfl⟩

theorem start_take {fs : List Nat} {k m : Nat} (hk : k < m) : start (fs.take m) k = start fs k := by
  rw [start, start, List.getD_eq_getElem?_getD, List.getD_eq_getElem?_getD, List.getElem?_take_of_lt hk]

/-- A last block without elements goes, and the blocks before it are as they were. -/
theorem popMap_spec (h : Stored L st l) (hb : LastBlock L st b) (hsize : st.size = b * L.blockSize) :
    ∃ st', popMap L st = some st' ∧ Agrees L st' l ∧ st'.map.length = b := by
  have hlen : (st.map.take b).length = b := List.length_take_of_le hb.lt.le
  have hpop : popEntries st.block st.map.reverse = some (st.map.take b).reverse := by
    rw [hb.block_eq]
    refine popEntries_eq hb.lt fun c hc hc' heq => ?_
    exact hc.ne (h.start_inj hb.lt hc' heq.symm)
  have hmax := h.max_lt
  have hle := h.size_le
  have hstored : ∀ (block : Nat) (blockBase : Int), Stored L { st with
      map := st.map.take b
      nextBlockSize := u32 (st.nextBlockSize + st.inBlock st.maxSize)
      maxSize := st.size
      block := block
      blockBase := blockBase } l := by
    intro block blockBase
    refine ⟨?_, hle.trans_lt hmax, ?_, h.size_eq, le_rfl, h.apart.sublist (List.take_sublist _ _), fun i hi => ?_⟩
    · show st.size = (st.map.take b).length * L.blockSize
      rw [hlen, hsize]
    · show u32 (st.nextBlockSize + st.inBlock st.maxSize) < 2 ^ 32
      unfold u32
      omega
    · have hi' : i / L.blockSize < b := by
        refine Nat.div_lt_of_lt_mul ?_
        rw [Nat.mul_comm, ← hsize, h.size_eq]
        exact hi
      refine Eq.trans (congrArg st.mem ?_) (h.get i hi)
      show start (st.map.take b) _ + _ = _
      rw [start_take hi']
      rfl
  rw [popMap, hpop]
  by_cases hpos : 0 < st.size
  · obtain ⟨b, rfl⟩ : ∃ c, b = c + 1 := Nat.exists_eq_succ_of_ne_zero fun h0 => by
      rw [h0, Nat.zero_mul] at hsize
      omega
    have hprev : (st.size : Int) - L.blockSize = (b * L.blockSize : Nat) := by
      rw [hsize, Nat.succ_mul, Nat.cast_add, Int.add_sub_cancel]
    have hidx : u32 (wrap32 (b * L.blockSize : Nat)) / L.blockSize = b := by
      have hlt : b * L.blockSize < 2 ^ 32 := by
        rw [Nat.succ_mul] at hsize
        omega
      rw [u32_wrap32, u32_eq hlt, Nat.mul_div_cancel _ L.blockSize_pos]
    obtain ⟨b', hb', hlinked, hwalk⟩ := walkBack_eq L (st.map.take (b + 1)) b
    have hget : (st.map.take (b + 1))[b]? = some (start (st.map.take (b + 1)) b) :=
      start_eq (hlen.symm ▸ Nat.lt_succ_self b)
    simp only [Option.bind_eq_bind, Option.bind_some, List.reverse_reverse, hprev, hidx, hget, if_pos hpos, hwalk]
    refine ⟨_, rfl, ⟨hstored (start (st.map.take (b + 1)) b') (wrap32 (b' * L.blockSize : Nat)),
      Or.inr ⟨b', ⟨?_, by dsimp only, by dsimp only, ?_, ?_⟩, ?_⟩⟩, hlen⟩
    · show b' < (st.map.take (b + 1)).length
      rw [hlen]
      exact Nat.lt_succ_of_le hb'
    · show Linked _ (st.map.take (b + 1)) b' (st.map.take (b + 1)).length
      rw [hlen]
      exact hlinked
    · show b' * L.blockSize ≤ st.size
      rw [hsize]
      exact Nat.mul_le_mul_right _ (Nat.le_succ_of_le hb')
    · show b' * L.blockSize < st.size
      rw [hsize]
      exact Nat.mul_lt_mul_of_pos_right (Nat.lt_succ_of_le hb') L.blockSize_pos
  · have hb0 : b = 0 := by
      have := L.blockSize_pos
      by_contra hb0
      have := Nat.mul_pos (Nat.pos_of_ne_zero hb0) L.blockSize_pos
      omega
    subst hb0
    simp only [Option.bind_eq_bind, Option.bind_some, List.reverse_reverse, if_neg hpos]
    exact ⟨_, rfl, ⟨hstored _ _, Or.inl ⟨rfl, rfl⟩⟩, rfl⟩

end Path64.Segmented

import Path64.Segmented.Operations

/-!
# Segmented arrays: visits

* `nextBlockLoop_spec`, `getBlockSize_spec` : the adjacent chunks behind an index, and the elements in them;
* `forAllLoop_eq`, `forBlocksLoop_eq`, `findLoop_eq` : the loops over blocks meet every element, in the order of the list;
* `OnEntry`, `visits_eq`, `length_visits_le` : an iterator meets them too, unless an element is where the last block ends.
-/

namespace Path64.Segmented

open Lib

variable {L : Layout} {T : Type} {st : SegArray T} {l : List T} {b : Nat} {zero : T} {alloc : Alloc}

/-! ## Blocks -/

/-- The entries from `k` up to `m` are all of the adjacent ones. -/
structure Segment (L : Layout) (map : List Nat) (k m : Nat) : Prop where
  lt : k < m
  le : m ≤ map.length
  linked : Linked L.blockBytes map k m
  ends : m < map.length → start map (m - 1) + L.blockBytes ≠ start map m

theorem nextBlockLoop_spec (L : Layout) {map : List Nat} {fuel k : Nat} (hk : k < map.length)
    (hfuel : map.length ≤ fuel + k) : Segment L map k (nextBlockLoop L map fuel k) := by
  induction fuel generalizing k with
  | zero => omega
  | succ fuel ih =>
    rw [nextBlockLoop]
    split_ifs with hadj
    · obtain ⟨hlt, hle, hlinked, hends⟩ := ih hadj.1 (by omega)
      refine ⟨Nat.lt_of_succ_lt hlt, hle, fun c hc hc' => ?_, hends⟩
      rcases Nat.eq_or_lt_of_le hc with rfl | hc
      · exact hadj.2
      · exact hlinked c hc hc'
    · exact ⟨Nat.lt_succ_self k, hk, fun c hc hc' => absurd hc' (by omega), fun hlt heq => hadj ⟨hlt, heq⟩⟩

theorem segment_nextBlockIdx {k : Nat} (hk : k < st.map.length) : Segment L st.map k (nextBlockIdx L st k) :=
  nextBlockLoop_spec L hk (Nat.le_add_right _ _)

theorem Stored.chunk_lt (h : Stored L st l) {idx : Nat} (hidx : idx < st.maxSize) : idx / L.blockSize < st.map.length := by
  refine Nat.div_lt_of_lt_mul ?_
  rwa [Nat.mul_comm, ← h.maxSize_eq]

theorem Segment.ptr_eq {k m idx : Nat} (h : Segment L st.map k m) (hle : k * L.blockSize ≤ idx)
    (hlt : idx < m * L.blockSize) : entryPtr L st idx = start st.map k + (idx - k * L.blockSize) * L.sizeofT := by
  obtain ⟨i, rfl⟩ := Nat.exists_eq_add_of_le hle
  rw [Nat.add_sub_cancel_left]
  exact slot_of_linked L.blockSize_pos h.linked hlt

/-- The elements from an index to the end of its block have consecutive addresses. -/
structure Range (L : Layout) (st : SegArray T) (idx n : Nat) : Prop where
  pos : 0 < n
  le : idx + n ≤ st.size
  ptr_eq : ∀ j < n, entryPtr L st (idx + j) = entryPtr L st idx + j * L.sizeofT

theorem getBlockSize_spec (h : Stored L st l) {idx : Nat} (hidx : idx < st.size) :
    Range L st idx (getBlockSize L st idx) := by
  have hmax := h.max_lt
  have hle := h.size_le
  have hseg := segment_nextBlockIdx (L := L) (h.chunk_lt (hidx.trans_le hle))
  have hdiv := Nat.div_add_mod' idx L.blockSize
  have hmod := Nat.mod_lt idx L.blockSize_pos
  have hstop : nextBlockIdx L st (idx / L.blockSize) * L.blockSize ≤ st.maxSize := by
    rw [h.maxSize_eq]
    exact Nat.mul_le_mul_right _ hseg.le
  have hnext : (idx / L.blockSize + 1) * L.blockSize ≤ nextBlockIdx L st (idx / L.blockSize) * L.blockSize :=
    Nat.mul_le_mul_right _ hseg.lt
  rw [Nat.succ_mul] at hnext
  have hn : getBlockSize L st idx = min (nextBlockIdx L st (idx / L.blockSize) * L.blockSize) st.size - idx := by
    rw [getBlockSize, u32_eq (by omega)]
    exact u32_sub (by omega) (by omega)
  refine ⟨by omega, by omega, fun j hj => ?_⟩
  rw [hseg.ptr_eq (by omega) (by omega), hseg.ptr_eq (by omega) (by omega), Nat.add_assoc, ← Nat.add_mul]
  congr 2
  omega

theorem entriesAt_eq (h : Stored L st l) {idx n : Nat} (hr : Range L st idx n) {m : Nat} (hm : m ≤ n) :
    entriesAt L st (entryPtr L st idx) idx m = (l.zipIdx.drop idx).take m := by
  have hsize := h.size_eq
  have hle := hr.le
  refine List.ext_getElem ?_ fun j hj hj' => ?_
  · rw [entriesAt, List.length_map, List.length_range, List.length_take, List.length_drop, List.length_zipIdx]
    omega
  · rw [entriesAt, List.length_map, List.length_range] at hj
    simp only [entriesAt, List.getElem_map, List.getElem_range, List.getElem_take, List.getElem_drop,
      List.getElem_zipIdx, Nat.zero_add]
    rw [← hr.ptr_eq j (hj.trans_le hm), h.get (idx + j) (by omega)]

theorem forAllLoop_eq (h : Stored L st l) {fuel first : Nat} (hfuel : st.size ≤ fuel + first) :
    forAllLoop L st fuel first = l.zipIdx.drop first := by
  have hsize := h.size_eq
  have hdone : ∀ {i}, st.size ≤ i → l.zipIdx.drop i = [] := fun hi =>
    List.drop_eq_nil_of_le (by rw [List.length_zipIdx]; omega)
  induction fuel generalizing first with
  | zero => exact (hdone (by omega)).symm
  | succ fuel ih =>
    rw [forAllLoop]
    split_ifs with hlt
    · have hr := getBlockSize_spec h hlt
      have hpos := hr.pos
      dsimp only
      rw [entriesAt_eq h hr le_rfl, ih (by omega), ← List.drop_drop, List.take_append_drop]
    · exact (hdone (Nat.not_lt.mp hlt)).symm

/-- The blocks, one after the other. -/
theorem forBlocksLoop_eq (h : Stored L st l) {fuel i : Nat} (hfuel : st.size ≤ fuel + i) :
    ((forBlocksLoop L st fuel i).flatMap fun e => entriesAt L st e.2.1 e.1 e.2.2) = l.zipIdx.drop i ∧
      ∀ e ∈ forBlocksLoop L st fuel i, 0 < e.2.2 := by
  have hsize := h.size_eq
  have hdone : ∀ {i}, st.size ≤ i → l.zipIdx.drop i = [] := fun hi =>
    List.drop_eq_nil_of_le (by rw [List.length_zipIdx]; omega)
  induction fuel generalizing i with
  | zero => exact ⟨(hdone (by omega)).symm, fun e he => absurd he List.not_mem_nil⟩
  | succ fuel ih =>
    rw [forBlocksLoop]
    split_ifs with hlt
    · have hr := getBlockSize_spec h hlt
      have hpos := hr.pos
      obtain ⟨heq, hall⟩ := ih (i := i + getBlockSize L st i) (by omega)
      refine ⟨?_, List.forall_mem_cons.mpr ⟨hpos, hall⟩⟩
      rw [List.flatMap_cons, heq, entriesAt_eq h hr le_rfl, ← List.drop_drop, List.take_append_drop]
    · exact ⟨(hdone (Nat.not_lt.mp hlt)).symm, fun e he => absurd he List.not_mem_nil⟩

theorem findLoop_eq (h : Stored L st l) (pred : T × Nat → Bool) {fuel i : Nat} (hfuel : st.size ≤ fuel + i) :
    findLoop L st pred fuel i = ((l.zipIdx.drop i).find? pred).elim notFound Prod.snd := by
  have hsize := h.size_eq
  have hdone : ∀ {i}, st.size ≤ i → l.zipIdx.drop i = [] := fun hi =>
    List.drop_eq_nil_of_le (by rw [List.length_zipIdx]; omega)
  induction fuel generalizing i with
  | zero => rw [hdone (by omega), findLoop, List.find?_nil, Option.elim_none]
  | succ fuel ih =>
    rw [findLoop]
    split_ifs with hlt
    · have hr := getBlockSize_spec h hlt
      have hpos := hr.pos
      dsimp only
      rw [entriesAt_eq h hr le_rfl, ih (by omega), ← List.drop_drop,
        ← List.take_append_drop (getBlockSize L st i) (l.zipIdx.drop i), List.find?_append, List.take_append_drop]
      cases (List.take (getBlockSize L st i) (l.zipIdx.drop i)).find? pred with
      | none => rw [Option.none_or]
      | some e => rw [Option.some_or, Option.elim_some]
    · rw [hdone (Nat.not_lt.mp hlt), List.find?_nil, Option.elim_none]

/-! ## Iterators -/

/-- An iterator is at an element. -/
structure OnEntry (L : Layout) (st : SegArray T) (it : Iterator) (i : Nat) : Prop where
  chunk_lt : it.mapIdx < st.map.length
  le : it.mapIdx * L.blockSize ≤ i
  lt : i < nextBlockIdx L st it.mapIdx * L.blockSize
  last_eq : it.segmentLast = blockEnd L st it.mapIdx
  ptr_eq : it.ptr = entryPtr L st i

variable {it : Iterator} {i : Nat}

theorem OnEntry.offset (h : OnEntry L st it i) :
    it.ptr = start st.map it.mapIdx + (i - it.mapIdx * L.blockSize) * L.sizeofT :=
  h.ptr_eq.trans ((segment_nextBlockIdx h.chunk_lt).ptr_eq h.le h.lt)

theorem OnEntry.index_eq (h : OnEntry L st it i) : it.index L st = i := by
  have hle := h.le
  rw [Iterator.index, h.offset, Nat.add_sub_cancel_left, Nat.mul_div_cancel _ L.sizeofT_pos]
  omega

theorem OnEntry.next_eq (h : OnEntry L st it i) : it.next L st =
    if i + 1 = nextBlockIdx L st it.mapIdx * L.blockSize then
      if nextBlockIdx L st it.mapIdx < st.map.length then
        ⟨start st.map (nextBlockIdx L st it.mapIdx), blockEnd L st (nextBlockIdx L st it.mapIdx),
          nextBlockIdx L st it.mapIdx⟩
      else { it with ptr := it.ptr + L.sizeofT }
    else { it with ptr := it.ptr + L.sizeofT } := by
  have hseg := segment_nextBlockIdx (L := L) h.chunk_lt
  have hle := h.le
  have hlt := hseg.lt
  obtain ⟨d, hd⟩ := Nat.exists_eq_add_of_le hlt.le
  have hend : (it.ptr + L.sizeofT = it.segmentLast) = (i + 1 = nextBlockIdx L st it.mapIdx * L.blockSize) := by
    rw [h.last_eq, blockEnd, h.offset, Nat.add_assoc, ← Nat.succ_mul, hd, Nat.add_sub_cancel_left, Nat.add_mul]
    refine propext ⟨fun heq => ?_, fun heq => ?_⟩
    · have := Nat.eq_of_mul_eq_mul_right L.sizeofT_pos (Nat.add_left_cancel heq)
      omega
    · rw [show (i - it.mapIdx * L.blockSize).succ = d * L.blockSize by omega]
  have hentries : (it.segmentLast - start st.map it.mapIdx) / L.sizeofT / L.blockSize = d := by
    rw [h.last_eq, blockEnd, hd, Nat.add_sub_cancel_left, Nat.add_sub_cancel_left, Nat.mul_div_cancel _ L.sizeofT_pos,
      Nat.mul_div_cancel _ L.blockSize_pos]
  rw [Iterator.next]
  simp only [hend, hentries, ← hd]

theorem OnEntry.next (h : OnEntry L st it i) (hs : Stored L st l) (hi : i + 1 < st.size) :
    OnEntry L st (it.next L st) (i + 1) := by
  have hseg := segment_nextBlockIdx (L := L) h.chunk_lt
  have hle := h.le
  have hlt := h.lt
  have hsize := hs.size_le
  rw [h.next_eq]
  split_ifs with hstop hmore
  · have hseg' := segment_nextBlockIdx (L := L) hmore
    have hpos := Nat.mul_lt_mul_of_pos_right hseg'.lt L.blockSize_pos
    refine ⟨hmore, hstop.ge, hstop.trans_lt hpos, rfl, ?_⟩
    have hptr : entryPtr L st (i + 1) = _ := hseg'.ptr_eq hstop.ge (hstop.trans_lt hpos)
    rw [hptr, hstop, Nat.sub_self, Nat.zero_mul, Nat.add_zero]
  · have : st.maxSize = nextBlockIdx L st it.mapIdx * L.blockSize := by
      rw [hs.maxSize_eq, le_antisymm hseg.le (Nat.not_lt.mp hmore)]
    omega
  · refine ⟨h.chunk_lt, hle.trans (Nat.le_succ i), lt_of_le_of_ne hlt hstop, h.last_eq, ?_⟩
    have hptr : entryPtr L st (i + 1) = _ := hseg.ptr_eq (by omega) (by omega)
    show it.ptr + L.sizeofT = _
    rw [hptr, h.offset, Nat.add_assoc, ← Nat.succ_mul]
    congr 2
    omega

theorem endOf_ptr (hs : Stored L st l) (hb : LastBlock L st b) (hlt : b * L.blockSize < st.size) :
    (endOf L st).ptr = entryPtr L st (st.size - 1) + L.sizeofT := by
  have hle := hs.size_le
  have hmax := hs.max_lt
  show st.block + st.inBlock st.size * L.sizeofT = _
  have hlast : _ = entryPtr L st (st.size - 1) := hb.ptr_eq hs (by omega) (by omega)
  rw [← hlast, hb.inBlock_eq hlt.le (by omega),
    hb.inBlock_eq (by omega) (by omega), Nat.add_assoc, ← Nat.succ_mul]
  congr 2
  omega

theorem OnEntry.next_last (h : OnEntry L st it i) (hs : Stored L st l) (hb : LastBlock L st b)
    (hlt : b * L.blockSize < st.size) (hi : i + 1 = st.size) : (it.next L st).ptr = (endOf L st).ptr := by
  have hseg := segment_nextBlockIdx (L := L) h.chunk_lt
  rw [endOf_ptr hs hb hlt, ← hi, Nat.add_sub_cancel, ← h.ptr_eq, h.next_eq]
  split_ifs with hstop hmore
  · -- the last block goes on behind the chunk, and so does the segment
    have hbm : b < nextBlockIdx L st it.mapIdx := Nat.lt_of_mul_lt_mul_right (hstop ▸ hi ▸ hlt)
    have hadj := hb.linked (nextBlockIdx L st it.mapIdx - 1) (by omega) (by omega)
    rw [show nextBlockIdx L st it.mapIdx - 1 + 1 = nextBlockIdx L st it.mapIdx by omega] at hadj
    exact absurd hadj (hseg.ends hmore)
  · rfl
  · rfl

/-- No chunk with elements begins where the elements end. -/
def EndApart (L : Layout) (st : SegArray T) : Prop :=
  ∀ k, k * L.blockSize < st.size → start st.map k ≠ (endOf L st).ptr

theorem EndApart.ne (h : EndApart L st) (hs : Stored L st l) (hb : LastBlock L st b) (hlt : b * L.blockSize < st.size)
    (hi : i < st.size) : entryPtr L st i ≠ (endOf L st).ptr := by
  intro heq
  have hle := hs.size_le
  have hdiv := Nat.div_add_mod' i L.blockSize
  by_cases hmod : i % L.blockSize = 0
  · refine h (i / L.blockSize) (by omega) ?_
    rw [← heq, entryPtr, hmod, Nat.zero_mul, Nat.add_zero]
  · -- the element before is in the same chunk, and would be the last one
    have hprev : entryPtr L st i = entryPtr L st (i - 1) + L.sizeofT := by
      have hlt' := Nat.mod_lt i L.blockSize_pos
      have hi' : i - 1 = i % L.blockSize - 1 + i / L.blockSize * L.blockSize := by omega
      have hq : (i - 1) / L.blockSize = i / L.blockSize := by
        rw [hi', Nat.add_mul_div_right _ _ L.blockSize_pos, Nat.div_eq_of_lt (by omega), Nat.zero_add]
      have hr : (i - 1) % L.blockSize = i % L.blockSize - 1 := by
        rw [hi', Nat.add_mul_mod_self_right, Nat.mod_eq_of_lt (by omega)]
      rw [entryPtr, entryPtr, hq, hr, Nat.add_assoc, ← Nat.succ_mul]
      congr 2
      omega
    rw [endOf_ptr hs hb hlt, hprev] at heq
    have hpos : i ≠ 0 := by
      rintro rfl
      exact hmod (Nat.zero_mod _)
    have := slot_inj L.blockSize_pos L.sizeofT_pos hs.apart (i := i - 1) (j := st.size - 1)
      (by rw [← hs.maxSize_eq]; omega) (by rw [← hs.maxSize_eq]; omega) (Nat.add_right_cancel heq)
    omega

/-- The iteration from an element on. -/
theorem visits_eq (hs : Stored L st l) (hb : LastBlock L st b) (hlt : b * L.blockSize < st.size)
    (hend : EndApart L st) {fuel : Nat} (h : OnEntry L st it i) (hi : i < st.size) (hfuel : st.size < fuel + i) :
    visits L st (endOf L st) fuel it = l.zipIdx.drop i := by
  have hsize := hs.size_eq
  induction fuel generalizing it i with
  | zero => omega
  | succ fuel ih =>
    have hlen : i < l.zipIdx.length := by
      rw [List.length_zipIdx]
      omega
    have hentry : (st.mem it.ptr, it.index L st) = l.zipIdx[i] := by
      rw [h.index_eq, h.ptr_eq, hs.get i (by omega), List.getElem_zipIdx, Nat.zero_add]
    rw [visits, if_neg (h.ptr_eq ▸ hend.ne hs hb hlt hi), List.drop_eq_getElem_cons hlen, hentry]
    refine congrArg _ ?_
    by_cases hlast : i + 1 = st.size
    · obtain ⟨fuel, rfl⟩ := Nat.exists_eq_succ_of_ne_zero (n := fuel) (by omega)
      rw [visits, if_pos (h.next_last hs hb hlt hlast), List.drop_eq_nil_of_le (by rw [List.length_zipIdx]; omega)]
    · exact ih (h.next hs (by omega)) (by omega) (by omega)

/-- The iteration stops at a chunk that begins where the elements end. -/
theorem length_visits_le (hs : Stored L st l) {k : Nat} (hk : k * L.blockSize < st.size)
    (heq : start st.map k = (endOf L st).ptr) (fuel : Nat) (h : OnEntry L st it i) (hi : i ≤ k * L.blockSize) :
    (visits L st (endOf L st) fuel it).length ≤ k * L.blockSize - i := by
  induction fuel generalizing it i with
  | zero => exact Nat.zero_le _
  | succ fuel ih =>
    rw [visits]
    split_ifs with hptr
    · exact Nat.zero_le _
    · have hne : i ≠ k * L.blockSize := by
        rintro rfl
        refine hptr ?_
        rw [h.ptr_eq, ← heq, entryPtr, Nat.mul_div_cancel _ L.blockSize_pos, Nat.mul_mod_left, Nat.zero_mul, Nat.add_zero]
      have := ih (h.next hs (by omega)) (by omega)
      rw [List.length_cons]
      omega

theorem onEntry_begin (hs : Stored L st l) (hpos : 0 < st.size) : OnEntry L st (begin L st) 0 := by
  have hchunk : 0 < st.map.length := by
    have := hs.chunk_lt (hpos.trans_le hs.size_le)
    rwa [Nat.zero_div] at this
  have hseg := segment_nextBlockIdx (L := L) hchunk
  refine ⟨hchunk, ?_, Nat.mul_pos hseg.lt L.blockSize_pos, rfl, ?_⟩
  · show 0 * L.blockSize ≤ 0
    rw [Nat.zero_mul]
  · show start st.map 0 = entryPtr L st 0
    rw [entryPtr, Nat.zero_div, Nat.zero_mod, Nat.zero_mul, Nat.add_zero]

theorem visits_iff (h : Agrees L st l) (hne : l ≠ []) :
    (∀ fuel, st.size < fuel → visits L st (endOf L st) fuel (begin L st) = l.zipIdx) ↔ EndApart L st := by
  have hsize := h.size_eq
  have hpos : 0 < st.size := by
    rw [hsize]
    exact List.length_pos_iff.mpr hne
  rcases h.last with ⟨hmap, -⟩ | ⟨b, hb, hlt⟩
  · exact absurd (h.eq_nil hmap).2.1 hpos.ne'
  · have hbegin := onEntry_begin h.toStored hpos
    constructor
    · intro hall k hk heq
      have hlen := length_visits_le h.toStored hk heq (st.size + 1) hbegin (Nat.zero_le _)
      rw [hall _ (Nat.lt_succ_self _), List.length_zipIdx] at hlen
      omega
    · intro hend fuel hfuel
      exact visits_eq h.toStored hb hlt hend hbegin hpos hfuel

end Path64.Segmented

import Mathlib.Algebra.Order.BigOperators.Group.List
import Path64.Segmented.Visits

/-!
# Segmented arrays: runs

* `copyArrayRange_spec` : a range of one array is added to another;
* `Correct` : what the members say of an array, and of the list that it holds;
* `runs_correct` : this holds after every sequence of operations; the iterators need `EndApart`;
* `not_visits_adjacent` : a block just before the first one ends where the iteration begins.
-/

namespace Path64.Segmented

open Lib

variable {L : Layout} {T : Type} {st src dst : SegArray T} {l l' : List T} (zero : T) {alloc : Alloc}

/-! ## Copies -/

/-- The room for `r` more elements, when they come in several parts: one reservation is enough for all of them. -/
structure Ready (L : Layout) (dst : SegArray T) (r : Nat) : Prop where
  elements : dst.size + r < 2 ^ 32
  reserved : dst.maxSize < dst.size + r → dst.size + r ≤ dst.maxSize + dst.nextBlockSize
  block : dst.maxSize < dst.size + r → dst.maxSize + newBlockSize L dst.nextBlockSize < 2 ^ 32

theorem Ready.fitsMany {r s : Nat} (h : Ready L dst r) (hs : s ≤ r) : FitsMany L dst s := by
  have helements := h.elements
  refine ⟨by omega, fun hlt => ?_⟩
  have hreserved := h.reserved (by omega)
  rw [max_eq_left (by omega)]
  exact h.block (by omega)

theorem Ready.insert_many {r : Nat} (h : Ready L dst r) (hd : Agrees L dst l) (ha : Allocates L alloc) (xs : List T)
    (hlen : xs.length ≤ r) : Ready L (insertMany L zero alloc dst xs) (r - xs.length) ∧
      Agrees L (insertMany L zero alloc dst xs) (l ++ xs) := by
  have hins := insertMany_spec zero hd ha (h.fitsMany hlen)
  have hsize : (insertMany L zero alloc dst xs).size = dst.size + xs.length := by
    rw [hins.agrees.size_eq, hd.size_eq, List.length_append]
  have helements := h.elements
  have htotal : dst.size + xs.length + (r - xs.length) = dst.size + r := by omega
  refine ⟨?_, hins.agrees⟩
  by_cases hroom : dst.size + xs.length ≤ dst.maxSize
  · obtain ⟨hmax, hnext⟩ := hins.kept hroom
    refine ⟨?_, ?_, ?_⟩ <;> rw [hsize, htotal]
    · exact helements
    · rw [hmax, hnext]
      exact h.reserved
    · rw [hmax, hnext]
      exact h.block
  · have hmax := hins.grown (Nat.not_le.mp hroom)
    have hreserved := h.reserved (by omega)
    rw [max_eq_left (by omega)] at hmax
    have hle := le_newBlockSize L dst.nextBlockSize
    -- the new block has room for all the rest
    refine ⟨?_, fun hlt => ?_, fun hlt => ?_⟩ <;> omega

theorem Agrees.ready_reserve (h : Agrees L dst l) {r : Nat} (hfit : FitsMany L dst r) : Ready L (Segmented.reserve dst r) r := by
  have helements := hfit.elements
  have hle := h.size_le
  by_cases hroom : dst.size + r ≤ dst.maxSize
  · obtain ⟨next, -, heq⟩ := reserve_eq dst r h.next_lt
    rw [heq]
    exact ⟨helements, fun hlt => absurd hroom (Nat.not_le.mpr hlt), fun hlt => absurd hroom (Nat.not_le.mpr hlt)⟩
  · have hblock := hfit.block (Nat.not_le.mp hroom)
    have hmax := le_newBlockSize L (max dst.nextBlockSize (dst.size + r - dst.maxSize))
    have hsub : r - (dst.maxSize - dst.size) = dst.size + r - dst.maxSize := by omega
    rw [reserve_fits h.toStored (by omega) (by omega), hsub]
    refine ⟨helements, fun _ => ?_, fun _ => hblock⟩
    show dst.size + r ≤ dst.maxSize + max dst.nextBlockSize (dst.size + r - dst.maxSize)
    omega

theorem copyLoop_spec (hs : Agrees L src l) (ha : Allocates L alloc) {lastIdx fuel firstIdx : Nat}
    (hlast : lastIdx ≤ src.size) (hfuel : lastIdx ≤ fuel + firstIdx) (hd : Agrees L dst l')
    (hready : Ready L dst (lastIdx - firstIdx)) :
    Agrees L (copyLoop L zero alloc src lastIdx fuel firstIdx dst)
      (l' ++ (l.drop firstIdx).take (lastIdx - firstIdx)) := by
  have hdone : ∀ {i}, lastIdx ≤ i → (l.drop i).take (lastIdx - i) = [] := fun hi => by
    rw [Nat.sub_eq_zero_of_le hi, List.take_zero]
  induction fuel generalizing firstIdx dst l' with
  | zero =>
    rw [hdone (by omega), List.append_nil]
    exact hd
  | succ fuel ih =>
    rw [copyLoop]
    split_ifs with hlt
    · have hr := getBlockSize_spec hs.toStored (hlt.trans_le hlast)
      have hpos := hr.pos
      obtain ⟨s, hs_eq⟩ : ∃ s, min (getBlockSize L src firstIdx) (lastIdx - firstIdx) = s := ⟨_, rfl⟩
      have hxs : (entriesAt L src (entryPtr L src firstIdx) firstIdx s).map Prod.fst = (l.drop firstIdx).take s := by
        rw [entriesAt_eq hs.toStored hr (by omega), List.map_take, List.map_drop, List.zipIdx_map_fst]
      have hlen : ((l.drop firstIdx).take s).length = s := by
        have := hs.size_eq
        rw [List.length_take, List.length_drop]
        omega
      simp only [hs_eq, hxs]
      obtain ⟨hready', hd'⟩ := hready.insert_many zero hd ha ((l.drop firstIdx).take s) (by omega)
      rw [hlen, Nat.sub_sub] at hready'
      have hrest := ih (by omega) hd' hready'
      have hsplit : (l.drop firstIdx).take (lastIdx - firstIdx) =
          (l.drop firstIdx).take s ++ (l.drop (firstIdx + s)).take (lastIdx - (firstIdx + s)) := by
        rw [← List.drop_drop, ← Nat.sub_sub, ← List.take_add]
        congr 1
        omega
      rwa [hsplit, ← List.append_assoc]
    · rw [hdone (Nat.not_lt.mp hlt), List.append_nil]
      exact hd

/-- A range of one array is added to another. -/
theorem copyArrayRange_spec (hs : Agrees L src l) (hd : Agrees L dst l') (ha : Allocates L alloc)
    {firstIdx lastIdx : Nat} (hrange : firstIdx ≤ min lastIdx src.size)
    (hfit : FitsMany L dst (min lastIdx src.size - firstIdx)) :
    Agrees L (copyArrayRange L zero alloc src dst firstIdx lastIdx).1 (l' ++ (l.take lastIdx).drop firstIdx) ∧
      (copyArrayRange L zero alloc src dst firstIdx lastIdx).2 = ((l.take lastIdx).drop firstIdx).length := by
  have hsize := hs.size_eq
  have hle := hs.size_le
  have hmax := hs.max_lt
  have hentries : u32 ((min lastIdx src.size : Nat) - firstIdx) = min lastIdx src.size - firstIdx :=
    u32_sub hrange (by omega)
  have hslice : (l.take lastIdx).drop firstIdx = (l.drop firstIdx).take (min lastIdx src.size - firstIdx) := by
    rw [List.drop_take, hsize]
    refine List.take_eq_take_iff.mpr ?_
    rw [List.length_drop]
    omega
  refine ⟨?_, ?_⟩
  · rw [hslice]
    show Agrees L (copyLoop L zero alloc src _ _ _ (reserve dst (u32 _))) _
    rw [hentries]
    exact copyLoop_spec zero hs ha (Nat.min_le_right _ _) (by omega) (hd.reserve _) (hd.ready_reserve hfit)
  · show u32 _ = _
    rw [hentries, List.length_drop, List.length_take]
    omega

/-! ## The members -/

/-- What the members say of an array that holds the elements of a list. -/
structure Correct (L : Layout) (st : SegArray T) (l : List T) : Prop where
  size_eq : st.size = l.length
  entry_eq : ∀ i (h : i < l.length), entry L st i = some l[i]
  forAllEntries_eq : ∀ first, forAllEntries L st first = l.zipIdx.drop first
  forAllBlocks_eq : ((forAllBlocks L st).flatMap fun e => entriesAt L st e.2.1 e.1 e.2.2) = l.zipIdx
  findEntryIf_eq : ∀ pred i, findEntryIf L st pred i = ((l.zipIdx.drop i).find? pred).elim notFound Prod.snd
  iterators : l ≠ [] →
    ((∀ fuel, st.size < fuel → visits L st (endOf L st) fuel (begin L st) = l.zipIdx) ↔ EndApart L st)

theorem Agrees.correct (h : Agrees L st l) : Correct L st l where
  size_eq := h.size_eq
  entry_eq i hi := by
    have hlt : i < st.maxSize := (h.size_eq ▸ hi).trans_le h.size_le
    rw [entry, if_pos (h.chunk_lt hlt), h.get i hi]
  forAllEntries_eq first := forAllLoop_eq h.toStored (Nat.le_add_right _ _)
  forAllBlocks_eq := (forBlocksLoop_eq h.toStored (Nat.le_add_right _ _)).1
  findEntryIf_eq pred i := findLoop_eq h.toStored pred (Nat.le_add_right _ _)
  iterators hne := visits_iff h hne

/-- After every sequence of operations the array holds the list, for all its members; the iterators meet the elements
when no chunk with elements begins where they end. A range of it can be added to any other array. -/
theorem runs_correct (L : Layout) (zero : T) (mem : Nat → T) (ops : List (Op T × Alloc))
    (hops : Permitted L zero ops (.empty mem)) : ∃ st rets l, run L zero ops (.empty mem) = some (st, rets) ∧
      ListRun (ops.map Prod.fst) [] l rets ∧ Correct L st l ∧
      ∀ (mem' : Nat → T) (ops' : List (Op T × Alloc)), Permitted L zero ops' (.empty mem') → ∃ dst rets' l',
        run L zero ops' (.empty mem') = some (dst, rets') ∧ ListRun (ops'.map Prod.fst) [] l' rets' ∧
        ∀ alloc firstIdx lastIdx, Allocates L alloc → firstIdx ≤ min lastIdx st.size →
          FitsMany L dst (min lastIdx st.size - firstIdx) →
          Correct L (copyArrayRange L zero alloc st dst firstIdx lastIdx).1 (l' ++ (l.take lastIdx).drop firstIdx) ∧
            (copyArrayRange L zero alloc st dst firstIdx lastIdx).2 = ((l.take lastIdx).drop firstIdx).length := by
  obtain ⟨st, rets, l, hrun, hlist, h⟩ := run_refines zero (agrees_empty L mem) hops
  refine ⟨st, rets, l, hrun, hlist, h.correct, fun mem' ops' hops' => ?_⟩
  obtain ⟨dst, rets', l', hrun', hlist', h'⟩ := run_refines zero (agrees_empty L mem') hops'
  refine ⟨dst, rets', l', hrun', hlist', fun alloc firstIdx lastIdx ha hrange hfit => ?_⟩
  obtain ⟨hcopy, hcount⟩ := copyArrayRange_spec zero h h' ha hrange hfit
  exact ⟨hcopy.correct, hcount⟩

/-! ## A block before the first one -/

/-- The address `a`, if no block is in the way; else one above all of them. -/
def allocAt (L : Layout) (a : Nat) : Alloc := fun map bytes =>
  if ∀ f ∈ map, f + L.blockBytes ≤ a ∨ a + bytes ≤ f then a else (map.map (· + L.blockBytes)).sum

theorem allocates_allocAt (L : Layout) (a : Nat) : Allocates L (allocAt L a) := by
  intro map bytes f hf
  unfold allocAt
  split_ifs with hfree
  · exact hfree f hf
  · exact Or.inl (List.single_le_sum (fun _ _ => Nat.zero_le _) _ (List.mem_map_of_mem hf))

/-- Blocks of 32 elements of four bytes each. -/
def layout32 : Layout := ⟨5, by decide, 4, by decide⟩

/-- Two full blocks, the second one directly before the first. -/
def twoBlocks : List (Op Nat × Alloc) :=
  [(.insertMany (List.replicate 32 0), allocAt layout32 4096), (.insertMany (List.replicate 32 0), allocAt layout32 3968)]

theorem permitted_twoBlocks : Permitted layout32 0 twoBlocks (.empty fun _ => 0) := by
  refine ⟨allocates_allocAt _ _, ⟨by decide, fun _ => by decide⟩, fun st ret hst => ?_⟩
  cases hst
  exact ⟨allocates_allocAt _ _, ⟨by decide, fun _ => by decide⟩, fun _ _ _ => trivial⟩

theorem run_twoBlocks : (run layout32 0 twoBlocks (.empty fun _ => 0)).map
    (fun p => (start p.1.map 0, (endOf layout32 p.1).ptr, p.1.size)) = some (4096, 4096, 64) := by decide

theorem runs_correct_twoBlocks : ∃ st rets l, run layout32 0 twoBlocks (.empty fun _ => 0) = some (st, rets) ∧
    ListRun (twoBlocks.map Prod.fst) [] l rets ∧ Correct layout32 st l := by
  obtain ⟨st, rets, l, hrun, hlist, hcorrect, -⟩ := runs_correct layout32 0 _ twoBlocks permitted_twoBlocks
  exact ⟨st, rets, l, hrun, hlist, hcorrect⟩

/-- The iteration over the two blocks ends before it begins. -/
theorem not_visits_adjacent : ¬∀ (L : Layout) (ops : List (Op Nat × Alloc)) (st : SegArray Nat)
    (rets : List (Option Nat)) (l : List Nat), Permitted L 0 ops (.empty fun _ => 0) →
    run L 0 ops (.empty fun _ => 0) = some (st, rets) → ListRun (ops.map Prod.fst) [] l rets → l ≠ [] →
    ∀ fuel, st.size < fuel → visits L st (endOf L st) fuel (begin L st) = l.zipIdx := by
  intro h
  obtain ⟨st, rets, l, hrun, hlist, hagrees⟩ := run_refines 0 (agrees_empty layout32 _) permitted_twoBlocks
  have hptr := run_twoBlocks
  rw [hrun, Option.map_some, Option.some_inj] at hptr
  simp only [Prod.mk.injEq] at hptr
  obtain ⟨hstart, hend, hsize⟩ := hptr
  have hne : l ≠ [] := by
    rintro rfl
    exact absurd (hagrees.size_eq.symm.trans hsize) (by decide)
  have hapart := (visits_iff hagrees hne).mp (h layout32 twoBlocks st rets l permitted_twoBlocks hrun hlist hne)
  exact hapart 0 (by rw [hsize]; decide) (hstart.trans hend.symm)

end Path64.Segmented

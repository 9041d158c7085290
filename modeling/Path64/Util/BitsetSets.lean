import Path64.Util.Bitset

/-!
# Bit sets are finite sets

Every operation is described by the bits of its result (`mem_…`), and from these by its elements.

* `mem_setWord`, `mem_setByte`, `mem_forWords`, `mem_forBytes` : writes and loops of writes;
* `least_searchBytes`, `least_searchWords` : searches;
* `Agrees` : the operations are those of finite sets; `agrees_iff` : when they are.
-/

namespace Path64.Bitset

open Lib

/-! ## Bits -/

section Bits

variable {set : Bs} {i k x : Nat}

theorem wordCount_setWord (word : Word) : (set.setWord i word).wordCount = set.wordCount := List.length_set

theorem wordCount_setByte (byte : Byte) : (set.setByte i byte).wordCount = set.wordCount := wordCount_setWord _

theorem word_of_le (h : set.wordCount ≤ i) : set.word i = 0 := List.getD_eq_default _ _ h

theorem mem_of_le (set : Bs) (h : set.wordCount ≤ x / 32) : set.mem x = false := by
  rw [Bs.mem, word_of_le h]
  exact BitVec.getLsbD_zero

theorem mem_elements : x ∈ set.elements ↔ set.mem x = true := by
  rw [Bs.elements, Finset.mem_filter, Finset.mem_range, and_iff_right_iff_imp]
  intro h
  by_contra hx
  rw [mem_of_le set (by omega)] at h
  cases h

theorem getLsbD_word : (set.word i).getLsbD k = (decide (k < 32) && set.mem (32 * i + k)) := by
  by_cases hk : k < 32
  · rw [decide_eq_true hk, Bool.true_and, Bs.mem]
    congr 2
    · omega
    · omega
  · rw [decide_eq_false hk, Bool.false_and]
    exact BitVec.getLsbD_of_ge _ _ (by omega)

theorem getLsbD_byte : (set.byte i).getLsbD k = (decide (k < 8) && set.mem (8 * i + k)) := by
  rw [Bs.byte, BitVec.getLsbD_extractLsb']
  by_cases hk : k < 8
  · rw [getLsbD_word, decide_eq_true (show 8 * (i % 4) + k < 32 by omega), Bool.true_and]
    congr 2
    omega
  · rw [decide_eq_false hk, Bool.false_and, Bool.false_and]

theorem word_setWord {j : Nat} (word : Word) :
    (set.setWord i word).word j = if j = i ∧ i < set.wordCount then word else set.word j := by
  unfold Bs.setWord Bs.word Bs.wordCount
  rw [List.getD_eq_getElem?_getD, List.getElem?_set]
  by_cases hij : i = j
  · by_cases hi : i < set.words.length
    · rw [if_pos hij, if_pos hi, if_pos ⟨hij.symm, hi⟩, Option.getD_some]
    · rw [if_pos hij, if_neg hi, if_neg fun h => hi h.2, List.getD_eq_default _ _ (by omega), Option.getD_none]
  · rw [if_neg hij, if_neg fun h => hij h.1.symm, List.getD_eq_getElem?_getD]

theorem mem_setWord (word : Word) : (set.setWord i word).mem x =
    if x / 32 = i ∧ i < set.wordCount then word.getLsbD (x % 32) else set.mem x := by
  rw [Bs.mem, word_setWord, apply_ite (fun w => BitVec.getLsbD w (x % 32))]
  rfl

theorem mem_setByte (byte : Byte) : (set.setByte i byte).mem x =
    if x / 8 = i ∧ i / 4 < set.wordCount then byte.getLsbD (x % 8) else set.mem x := by
  rw [Bs.setByte, mem_setWord]
  by_cases hword : x / 32 = i / 4 ∧ i / 4 < set.wordCount
  · have hmask : (0xff#32 <<< (8 * (i % 4))).getLsbD (x % 32) = decide (x / 8 = i) := by
      rw [BitVec.getLsbD_shiftLeft, decide_eq_true (Nat.mod_lt x (by decide)), Bool.true_and]
      have hff : ∀ k, (0xff#32).getLsbD k = decide (k < 8) := by
        intro k
        rw [show (0xff#32) = (BitVec.allOnes 8).setWidth 32 from rfl, BitVec.getLsbD_setWidth, BitVec.getLsbD_allOnes]
        by_cases hk : k < 8
        · simp [hk, show k < 32 by omega]
        · simp [hk]
      rw [hff]
      by_cases hx : x / 8 = i
      · rw [decide_eq_true hx, decide_eq_false (by omega), decide_eq_true (by omega)]
        rfl
      · rw [decide_eq_false hx]
        by_cases hlt : x % 32 < 8 * (i % 4)
        · rw [decide_eq_true hlt]
          rfl
        · rw [decide_eq_false hlt, decide_eq_false (by omega)]
          rfl
    rw [if_pos hword, BitVec.getLsbD_or, BitVec.getLsbD_and, BitVec.getLsbD_not, hmask, BitVec.getLsbD_shiftLeft,
      decide_eq_true (Nat.mod_lt x (by decide)), Bool.true_and, Bool.true_and, BitVec.getLsbD_setWidth, getLsbD_word,
      decide_eq_true (Nat.mod_lt x (by decide)), Bool.true_and, ← hword.1, Nat.div_add_mod]
    by_cases hx : x / 8 = i
    · rw [decide_eq_true hx, if_pos ⟨hx, hword.1.symm ▸ hword.2⟩, decide_eq_false (by omega), decide_eq_true (by omega),
        show x % 32 - 8 * (i % 4) = x % 8 by omega]
      simp
    · rw [decide_eq_false hx, if_neg fun h => hx h.1]
      by_cases hlt : x % 32 < 8 * (i % 4)
      · rw [decide_eq_true hlt]
        simp
      · rw [BitVec.getLsbD_of_ge byte _ (by omega)]
        simp
  · rw [if_neg hword, if_neg]
    rintro ⟨hx, hi⟩
    exact hword ⟨by omega, hi⟩

theorem byte_setByte {j : Nat} (byte : Byte) :
    (set.setByte i byte).byte j = if j = i ∧ i / 4 < set.wordCount then byte else set.byte j := by
  apply BitVec.eq_of_getLsbD_eq
  intro k hk
  rw [getLsbD_byte, decide_eq_true hk, Bool.true_and, mem_setByte, show (8 * j + k) / 8 = j by omega,
    show (8 * j + k) % 8 = k by omega]
  split_ifs
  · rfl
  · rw [getLsbD_byte, decide_eq_true hk, Bool.true_and]

end Bits

/-! ## Loops of writes -/

section Loops

variable {set : Bs} {lo hi x : Nat}

theorem wordCount_forWords (f : Nat → Word → Word) : (forWords lo hi f set).wordCount = set.wordCount := by
  unfold forWords
  generalize List.range' lo (hi - lo) = l
  induction l generalizing set with
  | nil => rfl
  | cons i l ih => rw [List.foldl_cons, ih, wordCount_setWord]

theorem wordCount_forBytes (f : Nat → Byte → Byte) : (forBytes lo hi f set).wordCount = set.wordCount := by
  unfold forBytes
  generalize List.range' lo (hi - lo) = l
  induction l generalizing set with
  | nil => rfl
  | cons i l ih => rw [List.foldl_cons, ih, wordCount_setByte]

theorem foldl_put {σ β : Type} (get : σ → Nat → β) (put : σ → Nat → β → σ) (inv : σ → Prop) (ok : Nat → Prop)
    [DecidablePred ok] (hinv : ∀ s i b, inv s → inv (put s i b))
    (hput : ∀ s i b j, inv s → get (put s i b) j = if j = i ∧ ok i then b else get s j) (f : Nat → β → β) {s : σ}
    (hs : inv s) (lo n j : Nat) :
    get ((List.range' lo n).foldl (fun s i => put s i (f i (get s i))) s) j =
      if lo ≤ j ∧ j < lo + n ∧ ok j then f j (get s j) else get s j := by
  induction n generalizing lo s with
  | zero =>
    rw [if_neg (by omega)]
    rfl
  | succ n ih =>
    rw [List.range'_succ, List.foldl_cons, ih (hinv _ _ _ hs), hput _ _ _ _ hs]
    by_cases hj : j = lo
    · rw [if_neg (by omega), hj]
      by_cases hok : ok lo
      · rw [if_pos ⟨rfl, hok⟩, if_pos ⟨le_rfl, by omega, hok⟩]
      · rw [if_neg fun h => hok h.2, if_neg fun h => hok h.2.2]
    · have hother : (if j = lo ∧ ok lo then f lo (get s lo) else get s j) = get s j := if_neg fun h => hj h.1
      rw [hother]
      by_cases hin : lo + 1 ≤ j ∧ j < lo + 1 + n ∧ ok j
      · rw [if_pos hin, if_pos ⟨by omega, by omega, hin.2.2⟩]
      · rw [if_neg hin, if_neg fun h => hin ⟨by omega, by omega, h.2.2⟩]

theorem word_forWords (f : Nat → Word → Word) (j : Nat) : (forWords lo hi f set).word j =
    if lo ≤ j ∧ j < hi ∧ j < set.wordCount then f j (set.word j) else set.word j := by
  have h := foldl_put Bs.word Bs.setWord (fun s => s.wordCount = set.wordCount) (fun i => i < set.wordCount)
    (fun s i b hs => (wordCount_setWord b).trans hs)
    (fun s i b j hs => by rw [word_setWord, hs]) f rfl lo (hi - lo) j
  rw [forWords, h]
  congr 1
  apply propext
  omega

theorem byte_forBytes (f : Nat → Byte → Byte) (j : Nat) : (forBytes lo hi f set).byte j =
    if lo ≤ j ∧ j < hi ∧ j / 4 < set.wordCount then f j (set.byte j) else set.byte j := by
  have h := foldl_put Bs.byte Bs.setByte (fun s => s.wordCount = set.wordCount) (fun i => i / 4 < set.wordCount)
    (fun s i b hs => (wordCount_setByte b).trans hs)
    (fun s i b j hs => by rw [byte_setByte, hs]) f rfl lo (hi - lo) j
  rw [forBytes, h]
  congr 1
  apply propext
  omega

theorem mem_forWords (f : Nat → Word → Word) : (forWords lo hi f set).mem x =
    if lo ≤ x / 32 ∧ x / 32 < hi ∧ x / 32 < set.wordCount then (f (x / 32) (set.word (x / 32))).getLsbD (x % 32)
    else set.mem x := by
  rw [Bs.mem, word_forWords, apply_ite (fun w => BitVec.getLsbD w (x % 32))]
  rfl

theorem mem_eq_byte : set.mem x = (set.byte (x / 8)).getLsbD (x % 8) := by
  rw [getLsbD_byte, decide_eq_true (Nat.mod_lt x (by decide)), Bool.true_and, Nat.div_add_mod]

theorem mem_forBytes (f : Nat → Byte → Byte) : (forBytes lo hi f set).mem x =
    if lo ≤ x / 8 ∧ x / 8 < hi ∧ x / 32 < set.wordCount then (f (x / 8) (set.byte (x / 8))).getLsbD (x % 8)
    else set.mem x := by
  rw [mem_eq_byte, byte_forBytes, apply_ite (fun b => BitVec.getLsbD b (x % 8)), ← mem_eq_byte, Nat.div_div_eq_div_mul]

end Loops

/-! ## Masks -/

theorem getLsbD_ones {k : Nat} (hk : k < 8) : (ones.setWidth 8).getLsbD k = true := by
  rw [BitVec.getLsbD_setWidth, decide_eq_true hk, ones, BitVec.getLsbD_allOnes, decide_eq_true (by omega)]
  rfl

theorem getLsbD_ones_shiftLeft {k n : Nat} (hk : k < 8) :
    ((ones <<< n).setWidth 8).getLsbD k = decide (n ≤ k) := by
  rw [BitVec.getLsbD_setWidth, decide_eq_true hk, BitVec.getLsbD_shiftLeft, ones, BitVec.getLsbD_allOnes,
    decide_eq_true (show k < 32 by omega), decide_eq_true (show k - n < 32 by omega)]
  by_cases h : k < n
  · rw [decide_eq_true h, decide_eq_false (by omega)]
    rfl
  · rw [decide_eq_false h, decide_eq_true (by omega)]
    rfl

theorem getLsbD_ones_shiftRight {k n : Nat} (hk : k < 8) (hn : n < 8) :
    ((ones >>> (32 - 1 - n)).setWidth 8).getLsbD k = decide (k ≤ n) := by
  rw [BitVec.getLsbD_setWidth, decide_eq_true hk, BitVec.getLsbD_ushiftRight, ones, BitVec.getLsbD_allOnes,
    Bool.true_and]
  congr 1
  apply propext
  omega

theorem getLsbD_one_shiftLeft {k n : Nat} (hk : k < 8) :
    ((1#32 <<< n).setWidth 8).getLsbD k = decide (k = n) := by
  rw [BitVec.getLsbD_setWidth, decide_eq_true hk, Bool.true_and, BitVec.getLsbD_shiftLeft, BitVec.getLsbD_one,
    decide_eq_true (show k < 32 by omega)]
  by_cases h : k = n
  · rw [decide_eq_true h, h]
    simp
  · rw [decide_eq_false h]
    by_cases hlt : k < n
    · simp [hlt]
    · simp [show ¬k - n = 0 by omega]

/-! ## Allocation -/

section Allocation

variable {set set1 set2 : Bs} {n m x : Nat}

theorem le_extend (length newLength : Nat) (hpos : 0 < newLength) : length ≤ extend length newLength hpos := by
  induction newLength, hpos using extend.induct length with
  | case1 newLength hpos hlt ih =>
    rw [extend, if_pos hlt]
    exact ih
  | case2 newLength hpos hlt =>
    rw [extend, if_neg hlt]
    exact not_lt.mp hlt

theorem mem_append_zeros : (⟨set.words ++ List.replicate n 0⟩ : Bs).mem x = set.mem x := by
  unfold Bs.mem Bs.word
  congr 1
  rw [List.getD_eq_getElem?_getD, List.getD_eq_getElem?_getD, List.getElem?_append]
  split_ifs with hx
  · rfl
  · rw [List.getElem?_eq_none (not_lt.mp hx), List.getElem?_replicate]
    split_ifs
    · rfl
    · rfl

theorem reserve_eq (set : Bs) (n : Nat) {pool : Pool} (h : pool = .good ∨ n ≤ set.wordCount) :
    ∃ set', reserve set n pool = .ok set' ∧ (∀ x, set'.mem x = set.mem x) ∧ n ≤ set'.wordCount ∧
      set.wordCount ≤ set'.wordCount := by
  unfold reserve
  by_cases hlt : set.wordCount < n
  · obtain rfl : pool = .good := by
      rcases h with h | h
      · exact h
      · omega
    rw [if_pos hlt, realloc, require, if_pos (by decide), ok_bind, if_neg (by omega)]
    refine ⟨_, rfl, fun x => mem_append_zeros, ?_⟩
    have hext := le_extend n 2 (by decide)
    unfold Bs.wordCount at *
    rw [List.length_append, List.length_replicate]
    omega
  · rw [if_neg hlt]
    exact ⟨set, rfl, fun _ => rfl, by omega, le_rfl⟩

theorem mem_clearD : (clearD set).mem x = false := by
  rw [clearD, mem_forWords]
  by_cases hx : x / 32 < set.wordCount
  · rw [if_pos ⟨Nat.zero_le _, hx, hx⟩]
    exact BitVec.getLsbD_zero
  · rw [if_neg fun h => hx h.2.1]
    exact mem_of_le set (not_lt.mp hx)

theorem wordCount_clearD : (clearD set).wordCount = set.wordCount := wordCount_forWords _

theorem word_map (f g : Nat → Word) (hnm : n ≤ m) (i : Nat) :
    (⟨(List.range n).map f ++ (List.range' n (m - n)).map g⟩ : Bs).word i =
      if i < n then f i else if i < m then g i else 0 := by
  unfold Bs.word
  rw [List.getD_eq_getElem?_getD, List.getElem?_append, List.length_map, List.length_range]
  by_cases hi : i < n
  · rw [if_pos hi, if_pos hi, List.getElem?_map, List.getElem?_range hi]
    rfl
  · rw [if_neg hi, if_neg hi, List.getElem?_map]
    by_cases him : i < m
    · rw [if_pos him, List.getElem?_range' (by omega), show n + 1 * (i - n) = i by omega]
      rfl
    · rw [if_neg him, List.getElem?_eq_none (by rw [List.length_range']; omega)]
      rfl

theorem word_map_range (f : Nat → Word) (i : Nat) :
    (⟨(List.range n).map f⟩ : Bs).word i = if i < n then f i else 0 := by
  have h := word_map f f (le_refl n) i
  rw [Nat.sub_self] at h
  rw [show (List.range' n 0).map f = [] from rfl, List.append_nil] at h
  rw [h]
  split_ifs
  · rfl
  · rfl

end Allocation

/-! ## Operations -/

section Operations

variable {set set1 set2 : Bs} {x : Nat}

theorem mem_copy : (copy set).mem x = set.mem x := by
  rw [Bs.mem, copy, word_map_range]
  split_ifs with hx
  · rfl
  · rw [mem_of_le set (not_lt.mp hx)]
    exact BitVec.getLsbD_zero

theorem mem_unionLarger (h : set2.wordCount ≤ set1.wordCount) :
    (unionLarger set1 set2).mem x = (set1.mem x || set2.mem x) := by
  rw [Bs.mem, unionLarger, word_map _ _ h]
  split_ifs with hx hx'
  · exact BitVec.getLsbD_or
  · rw [mem_of_le set2 (not_lt.mp hx), Bool.or_false]
    rfl
  · rw [mem_of_le set2 (not_lt.mp hx), mem_of_le set1 (not_lt.mp hx')]
    exact BitVec.getLsbD_zero

theorem mem_union : (union set1 set2).mem x = (set1.mem x || set2.mem x) := by
  unfold union
  split_ifs with h
  · rw [mem_unionLarger h.le, Bool.or_comm]
  · exact mem_unionLarger (not_lt.mp h)

theorem mem_intersection : (intersection set1 set2).mem x = (set1.mem x && set2.mem x) := by
  rw [Bs.mem, intersection, word_map_range]
  split_ifs with h hx hx
  · exact BitVec.getLsbD_and
  · rw [mem_of_le set1 (not_lt.mp hx), Bool.false_and]
    exact BitVec.getLsbD_zero
  · exact BitVec.getLsbD_and
  · rw [mem_of_le set2 (not_lt.mp hx), Bool.and_false]
    exact BitVec.getLsbD_zero

theorem mem_intersectionD : (intersectionD set1 set2).mem x = (set1.mem x && set2.mem x) := by
  rw [intersectionD, mem_forWords, wordCount_forWords, mem_forWords]
  split_ifs with h1 h2
  · rw [mem_of_le set2 (by omega), Bool.and_false]
    exact BitVec.getLsbD_zero
  · exact BitVec.getLsbD_and
  · rw [mem_of_le set1 (by omega), Bool.false_and]

theorem getLsbD_andNot (w w' : Word) : (w &&& ~~~w').getLsbD (x % 32) = (w.getLsbD (x % 32) && !w'.getLsbD (x % 32)) := by
  rw [BitVec.getLsbD_and, BitVec.getLsbD_not, decide_eq_true (Nat.mod_lt x (by decide)), Bool.true_and]

theorem mem_difference : (difference set1 set2).mem x = (set1.mem x && !set2.mem x) := by
  rw [Bs.mem, difference, word_map _ _ (Nat.min_le_left _ _)]
  split_ifs with hx hx'
  · exact getLsbD_andNot _ _
  · rw [mem_of_le set2 (by omega), Bool.not_false, Bool.and_true]
    rfl
  · rw [mem_of_le set1 (by omega), Bool.false_and]
    exact BitVec.getLsbD_zero

theorem mem_differenceD : (differenceD set1 set2).mem x = (set1.mem x && !set2.mem x) := by
  rw [differenceD, mem_forWords]
  split_ifs with hx
  · exact getLsbD_andNot _ _
  · by_cases h1 : x / 32 < set1.wordCount
    · rw [mem_of_le set2 (by omega), Bool.not_false, Bool.and_true]
    · rw [mem_of_le set1 (by omega), Bool.false_and]

theorem mem_difference1D {y : Nat} : (difference1D set y).mem x = (set.mem x && !decide (x = y)) := by
  unfold difference1D
  split_ifs with hy
  · rw [mem_setByte]
    by_cases hx : x / 8 = y / 8
    · rw [if_pos ⟨hx, by omega⟩, BitVec.getLsbD_and, ← hx, ← mem_eq_byte, BitVec.getLsbD_setWidth,
        BitVec.getLsbD_not, decide_eq_true (Nat.mod_lt x (by decide)), decide_eq_true (show x % 8 < 32 by omega)]
      have hone := getLsbD_one_shiftLeft (n := y % 8) (Nat.mod_lt x (show 8 > 0 by decide))
      rw [BitVec.getLsbD_setWidth, decide_eq_true (Nat.mod_lt x (by decide)), Bool.true_and] at hone
      rw [hone, Bool.true_and, Bool.true_and]
      congr 3
      apply propext
      omega
    · rw [if_neg fun h => hx h.1, decide_eq_false (by omega), Bool.not_false, Bool.and_true]
  · by_cases hx : x = y
    · rw [mem_of_le set (by omega), Bool.false_and]
    · rw [decide_eq_false hx, Bool.not_false, Bool.and_true]

theorem union1D_eq {y : Nat} {pool : Pool} (h : pool = .good ∨ y / 32 + 1 ≤ set.wordCount) :
    ∃ set', union1D set y pool = .ok set' ∧ ∀ x, set'.mem x = (set.mem x || decide (x = y)) := by
  obtain ⟨set', hok, hsame, hle, -⟩ := reserve_eq set (y / 32 + 1) h
  unfold union1D
  rw [hok, ok_bind]
  refine ⟨_, rfl, fun x => ?_⟩
  rw [mem_setByte]
  by_cases hx : x / 8 = y / 8
  · rw [if_pos ⟨hx, by omega⟩, BitVec.getLsbD_or, ← hx, ← mem_eq_byte, hsame,
      getLsbD_one_shiftLeft (Nat.mod_lt x (by decide))]
    congr 2
    apply propext
    omega
  · rw [if_neg fun h => hx h.1, hsame, decide_eq_false (by omega), Bool.or_false]

theorem unionD_eq : ∃ set', unionD set1 set2 .good = .ok set' ∧ ∀ x, set'.mem x = (set1.mem x || set2.mem x) := by
  obtain ⟨set', hok, hsame, hle, -⟩ := reserve_eq set1 set2.wordCount (Or.inl rfl)
  unfold unionD
  rw [hok, ok_bind]
  refine ⟨_, rfl, fun x => ?_⟩
  rw [mem_forWords, ← hsame]
  split_ifs with hx
  · exact BitVec.getLsbD_or
  · rw [mem_of_le set2 (by omega), Bool.or_false]

theorem mem_copyD (h : set2.wordCount ≤ set1.wordCount) (hzero : ∀ x, set2.wordCount ≤ x / 32 → set1.mem x = false) :
    (forWords 0 set2.wordCount (fun i _ => set2.word i) set1).mem x = set2.mem x := by
  rw [mem_forWords]
  split_ifs with hx
  · rfl
  · rw [hzero x (by omega), mem_of_le set2 (by omega)]

theorem copyD_eq {pool : Pool} (h : pool = .good ∨ set2.wordCount ≤ set1.wordCount) :
    ∃ set', copyD set1 set2 pool = .ok set' ∧ (∀ x, set'.mem x = set2.mem x) ∧ set1.wordCount ≤ set'.wordCount := by
  obtain ⟨set', hok, hsame, hle, hle1⟩ := reserve_eq set1 set2.wordCount h
  unfold copyD
  rw [hok, ok_bind]
  refine ⟨_, rfl, fun x => mem_copyD ?_ fun x hx => ?_, ?_⟩
  · split_ifs with hlt
    · exact hle
    · rw [wordCount_forWords]
      exact hle
  · split_ifs with hlt
    · rw [hsame, mem_of_le set1 (by omega)]
    · rw [mem_forWords]
      split_ifs with hx'
      · exact BitVec.getLsbD_zero
      · rw [hsame]
        exact mem_of_le set1 (by omega)
  · rw [wordCount_forWords]
    split_ifs with hlt
    · exact hle1
    · rw [wordCount_forWords]
      exact hle1

theorem singletonD_eq {y : Nat} : ∃ set', singletonD set y .good = .ok set' ∧ ∀ x, set'.mem x = decide (x = y) := by
  obtain ⟨set', hok, -, hle, -⟩ := reserve_eq set (y / 32 + 1) (Or.inl rfl)
  unfold singletonD
  rw [hok, ok_bind]
  refine ⟨_, rfl, fun x => ?_⟩
  rw [mem_setByte, wordCount_clearD]
  by_cases hx : x / 8 = y / 8
  · rw [if_pos ⟨hx, by omega⟩, getLsbD_one_shiftLeft (Nat.mod_lt x (by decide))]
    congr 1
    apply propext
    omega
  · rw [if_neg fun h => hx h.1, mem_clearD, decide_eq_false (by omega)]

/-- The whole words and bytes of a range. -/
theorem mem_rangeBytes {low high : Nat} (hle : low ≤ high) (hcount : high / 32 + 1 ≤ set.wordCount) :
    (if low / 32 ≠ high / 32 then forBytes (high / 32 * 4) (high / 8 + 1) (fun _ _ => ones.setWidth 8)
        (forBytes (low / 8) (min ((low / 32 + 1) * 4) (high / 8 + 1)) (fun _ _ => ones.setWidth 8)
          (forWords (low / 32 + 1) (high / 32) (fun _ _ => ones) (clearD set)))
      else forBytes (low / 8) (min ((low / 32 + 1) * 4) (high / 8 + 1)) (fun _ _ => ones.setWidth 8)
          (forWords (low / 32 + 1) (high / 32) (fun _ _ => ones) (clearD set))).mem x =
      decide (low / 8 ≤ x / 8 ∧ x / 8 ≤ high / 8) := by
  have hbyte : (ones.setWidth 8).getLsbD (x % 8) = true := getLsbD_ones (Nat.mod_lt x (by decide))
  have hword : ones.getLsbD (x % 32) = true := by
    rw [ones, BitVec.getLsbD_allOnes, decide_eq_true (Nat.mod_lt x (by decide))]
  have hfirst : (forBytes (low / 8) (min ((low / 32 + 1) * 4) (high / 8 + 1)) (fun _ _ => ones.setWidth 8)
      (forWords (low / 32 + 1) (high / 32) (fun _ _ => ones) (clearD set))).mem x =
      decide (low / 8 ≤ x / 8 ∧ x / 8 ≤ high / 8 ∧ (x / 32 < high / 32 ∨ low / 32 = high / 32)) := by
    rw [mem_forBytes, mem_forWords, wordCount_forWords, wordCount_clearD, mem_clearD, hbyte, hword]
    split_ifs with h1 h2
    · rw [decide_eq_true (by omega)]
    · rw [decide_eq_true (by omega)]
    · rw [decide_eq_false (by omega)]
  split_ifs with hne
  · rw [mem_forBytes, wordCount_forBytes, wordCount_forWords, wordCount_clearD, hfirst, hbyte]
    split_ifs with h1
    · rw [decide_eq_true (by omega)]
    · congr 1
      apply propext
      omega
  · rw [hfirst]
    congr 1
    apply propext
    omega

/-- The bits of a range; those between its two ends come from whole bytes and words. -/
theorem rangeD_eq {low : Nat} {high : Int} : ∃ set', rangeD set low high .good = .ok set' ∧
    ∀ x, set'.mem x = decide (low ≤ x ∧ (x : Int) ≤ high) := by
  unfold rangeD
  by_cases hempty : (low : Int) > high
  · rw [if_pos hempty]
    refine ⟨_, rfl, fun x => ?_⟩
    rw [mem_clearD, decide_eq_false (by omega)]
  · obtain ⟨h, rfl⟩ : ∃ h : Nat, high = h := ⟨high.toNat, by omega⟩
    have hle : low ≤ h := by omega
    obtain ⟨set', hok, -, hcount, -⟩ := reserve_eq set (h / 32 + 1) (Or.inl rfl)
    rw [if_neg hempty]
    dsimp only
    rw [Int.toNat_natCast, hok, ok_bind]
    refine ⟨_, rfl, fun x => ?_⟩
    have hmod : x % 8 < 8 := Nat.mod_lt x (by decide)
    rw [mem_setByte, wordCount_setByte, BitVec.getLsbD_and, getLsbD_ones_shiftRight hmod (Nat.mod_lt h (by decide))]
    generalize hbytes : (if low / 32 ≠ h / 32 then _ else _ : Bs) = bytes
    have hmem := @mem_rangeBytes set' x low h hle hcount
    rw [hbytes] at hmem
    have hbytesCount : bytes.wordCount = set'.wordCount := by
      rw [← hbytes]
      split_ifs
      · rw [wordCount_forBytes, wordCount_forBytes, wordCount_forWords, wordCount_clearD]
      · rw [wordCount_forBytes, wordCount_forWords, wordCount_clearD]
    have hfirst : (bytes.setByte (low / 8) ((ones <<< (low % 8)).setWidth 8)).mem x =
        decide (low ≤ x ∧ x / 8 ≤ h / 8) := by
      rw [mem_setByte, hbytesCount, hmem, getLsbD_ones_shiftLeft hmod]
      split_ifs with hx
      · congr 1
        apply propext
        omega
      · congr 1
        apply propext
        omega
    rw [hbytesCount]
    split_ifs with hx
    · rw [← hx.1, ← mem_eq_byte, hfirst, ← Bool.decide_and]
      congr 1
      apply propext
      omega
    · rw [hfirst]
      congr 1
      apply propext
      omega

end Operations

/-! ## Searches -/

section Searches

variable {p : Nat → Prop} {lo hi : Nat}

/-- The table of first bits, computed; the comparison walks the table once. -/
theorem firstOneTable_eq :
    firstOneTable = (List.range 256).map fun n => ((List.range 8).find? n.testBit).getD 0 := by
  decide +kernel

theorem bitCountTable_eq :
    bitCountTable = (List.range 256).map fun n => ((List.range 8).filter n.testBit).length := by
  decide +kernel

theorem getD_map_range {f : Nat → Nat} (b : Byte) : ((List.range 256).map f).getD b.toNat 0 = f b.toNat := by
  have hb : b.toNat < 256 := b.isLt
  simp [hb]

theorem firstOne_eq (b : Byte) : firstOne b = ((List.range 8).find? b.getLsbD).getD 0 := by
  rw [firstOne, firstOneTable_eq, getD_map_range]
  rfl

theorem firstOne_spec {b : Byte} (hb : b ≠ 0) : firstOne b < 8 ∧ b.getLsbD (firstOne b) = true ∧
    ∀ k, b.getLsbD k = true → firstOne b ≤ k := by
  rw [firstOne_eq]
  cases hfind : (List.range 8).find? b.getLsbD with
  | none =>
    rw [List.find?_range_eq_none] at hfind
    refine absurd (BitVec.eq_of_getLsbD_eq fun k hk => ?_) hb
    simpa using hfind k hk
  | some i =>
    obtain ⟨hset, hi, hleast⟩ := List.find?_range_eq_some.mp hfind
    refine ⟨List.mem_range.mp hi, hset, fun k hk => ?_⟩
    by_contra hlt
    have := hleast k (not_le.mp hlt)
    rw [hk] at this
    cases this

theorem bitCount_spec (b : Byte) : bitCount b = ((Finset.range 8).filter fun k => b.getLsbD k).card := by
  rw [bitCount, bitCountTable_eq, getD_map_range, Finset.card, Finset.filter_val, Finset.range_val, Multiset.range, Multiset.filter_coe,
    Multiset.coe_card]
  simp only [Bool.decide_eq_true]
  rfl

theorem least_byte (b : Byte) (i : Nat) (hb : ∀ k, k < 8 → (b.getLsbD k = true ↔ p (8 * i + k))) :
    Least (Within p (8 * i) (8 * (i + 1))) (if b ≠ 0 then some (firstOne b + 8 * i) else none) := by
  have hbit : ∀ x, Within p (8 * i) (8 * (i + 1)) x → b.getLsbD (x - 8 * i) = true := by
    rintro x ⟨hlo, hhi, hx⟩
    rw [hb _ (by omega), show 8 * i + (x - 8 * i) = x by omega]
    exact hx
  by_cases hzero : b = 0
  · rw [if_neg (by simp [hzero])]
    refine .none fun x hx => ?_
    have hset := hbit x hx
    rw [hzero] at hset
    exact absurd hset (by simp)
  · obtain ⟨hlt, hset, hleast⟩ := firstOne_spec hzero
    rw [if_pos hzero]
    refine .some ⟨by omega, by omega, ?_⟩ fun x hx => ?_
    · rw [Nat.add_comm, ← hb _ hlt]
      exact hset
    · have hle := hleast (x - 8 * i) (hbit x hx)
      have hge := hx.1
      omega

theorem least_searchBytes (byte : Nat → Byte) (h : lo ≤ hi)
    (hb : ∀ i k, lo ≤ i → i < hi → k < 8 → ((byte i).getLsbD k = true ↔ p (8 * i + k))) :
    Least (Within p (8 * lo) (8 * hi)) (searchBytes byte lo hi) :=
  least_findSome h fun i hlo hhi => least_byte (byte i) i fun k hk => hb i k hlo hhi hk

theorem least_searchWords (word : Nat → Word) (byte : Nat → Byte) (h : lo ≤ hi)
    (hw : ∀ i k, k < 32 → ((word i).getLsbD k = true ↔ p (32 * i + k)))
    (hb : ∀ i k, k < 8 → ((byte i).getLsbD k = true ↔ p (8 * i + k))) :
    Least (Within p (32 * lo) (32 * hi)) (searchWords word byte lo hi) := by
  refine least_findSome h fun i hlo hhi => ?_
  by_cases hzero : word i = 0
  · rw [if_neg (by simp [hzero])]
    refine .none fun x ⟨hlo, hhi, hx⟩ => ?_
    have hbit := (hw i (x - 32 * i) (by omega)).mpr (by rw [show 32 * i + (x - 32 * i) = x by omega]; exact hx)
    rw [hzero] at hbit
    exact absurd hbit (by simp)
  · rw [if_pos hzero]
    have hbytes := least_searchBytes byte (show 4 * i ≤ 4 * (i + 1) by omega) fun i k _ _ hk => hb i k hk
    rw [show 32 * i = 8 * (4 * i) by omega, show 32 * (i + 1) = 8 * (4 * (i + 1)) by omega]
    exact hbytes

variable {set set1 set2 : Bs}

theorem getLsbD_word_iff (i k : Nat) (hk : k < 32) : (set.word i).getLsbD k = true ↔ set.mem (32 * i + k) = true := by
  rw [getLsbD_word, decide_eq_true hk, Bool.true_and]

theorem getLsbD_byte_iff (i k : Nat) (hk : k < 8) : (set.byte i).getLsbD k = true ↔ set.mem (8 * i + k) = true := by
  rw [getLsbD_byte, decide_eq_true hk, Bool.true_and]

theorem least_firstByte (byte : Nat → Byte) (bound : Nat)
    (hb : ∀ i k, k < 8 → ((byte i).getLsbD k = true ↔ p (8 * i + k))) :
    Least (Within p bound (8 * (bound / 8 + 1)))
      (if byte (bound / 8) &&& (ones <<< (bound % 8)).setWidth 8 ≠ 0 then
        some (firstOne (byte (bound / 8) &&& (ones <<< (bound % 8)).setWidth 8) + 8 * (bound / 8)) else none) := by
  have hfirst := least_byte (p := fun x => bound ≤ x ∧ p x)
    (byte (bound / 8) &&& (ones <<< (bound % 8)).setWidth 8) (bound / 8) fun k hk => by
      rw [BitVec.getLsbD_and, getLsbD_ones_shiftLeft hk, Bool.and_eq_true, decide_eq_true_eq, hb _ _ hk]
      constructor
      · rintro ⟨hp, hle⟩
        exact ⟨by omega, hp⟩
      · rintro ⟨hle, hp⟩
        exact ⟨hp, by omega⟩
  refine hfirst.congr fun x => ⟨fun ⟨_, hhi, hle, hp⟩ => ⟨hle, hhi, hp⟩, fun ⟨hle, hhi, hp⟩ => ⟨?_, hhi, hle, hp⟩⟩
  omega

theorem ite_orElse {b : Prop} [Decidable b] (x : Nat) (o : Option Nat) :
    (if b then some x else o) = ((if b then some x else none) <|> o) := by
  split_ifs
  · rfl
  · rfl

theorem pbpw_of_lt {n : Nat} (h : n < 2 ^ 26) : pbpw n = 32 * n := by
  unfold pbpw
  rw [Int.bmod_eq_of_le (by omega) (by omega)]
  ring

/-- The search from a bound on, for a set whose bits an `INT32` counts. -/
theorem least_searchFrom (word : Nat → Word) (byte : Nat → Byte) {n : Nat} (bound : Nat) (hn : n < 2 ^ 26)
    (hw : ∀ i k, k < 32 → ((word i).getLsbD k = true ↔ p (32 * i + k)))
    (hb : ∀ i k, k < 8 → ((byte i).getLsbD k = true ↔ p (8 * i + k))) :
    Least (Within p bound (32 * n)) (searchFrom word byte n bound) := by
  unfold searchFrom
  rw [pbpw_of_lt hn]
  by_cases hle : (32 * n : Int) ≤ bound
  · rw [if_pos hle]
    exact least_within_empty (by omega)
  · rw [if_neg hle]
    dsimp only
    rw [ite_orElse]
    have hfirst := least_firstByte byte bound hb
    have hbytes := least_searchBytes byte (show bound / 8 + 1 ≤ (bound / 32 + 1) * 4 by omega) fun i k _ _ hk => hb i k hk
    have hwords := least_searchWords word byte (show bound / 32 + 1 ≤ n by omega) hw hb
    rw [show 8 * ((bound / 32 + 1) * 4) = 32 * (bound / 32 + 1) by omega] at hbytes
    exact hfirst.append (hbytes.append hwords (by omega) (by omega)) (by omega) (by omega)

theorem least_lastByte (high : Nat) : Least (Within (set.mem · = true) (8 * (high / 8)) (high + 1))
    (if set.byte (high / 8) &&& (ones >>> (32 - 1 - high % 8)).setWidth 8 ≠ 0 then
      some (firstOne (set.byte (high / 8) &&& (ones >>> (32 - 1 - high % 8)).setWidth 8) + 8 * (high / 8))
      else none) := by
  have hlast := least_byte (p := fun x => x ≤ high ∧ set.mem x = true)
    (set.byte (high / 8) &&& (ones >>> (32 - 1 - high % 8)).setWidth 8) (high / 8) fun k hk => by
      rw [BitVec.getLsbD_and, getLsbD_ones_shiftRight hk (Nat.mod_lt high (by decide)), Bool.and_eq_true,
        decide_eq_true_eq, getLsbD_byte_iff _ _ hk]
      constructor
      · rintro ⟨hp, hle⟩
        exact ⟨by omega, hp⟩
      · rintro ⟨hle, hp⟩
        exact ⟨hp, by omega⟩
  refine hlast.congr fun x => ⟨fun ⟨hlo, _, hle, hp⟩ => ⟨hlo, by omega, hp⟩, fun ⟨hlo, hhi, hp⟩ => ⟨hlo, ?_, ?_, hp⟩⟩
  · omega
  · omega

theorem least_onlyByte {low high : Nat} (h : low / 8 = high / 8) : Least (Within (set.mem · = true) low (high + 1))
    (if set.byte (low / 8) &&& (ones <<< (low % 8)).setWidth 8 &&& (ones >>> (32 - 1 - high % 8)).setWidth 8 ≠ 0 then
      some (firstOne (set.byte (low / 8) &&& (ones <<< (low % 8)).setWidth 8 &&&
        (ones >>> (32 - 1 - high % 8)).setWidth 8) + 8 * (low / 8))
      else none) := by
  have honly := least_byte (p := fun x => low ≤ x ∧ x ≤ high ∧ set.mem x = true)
    (set.byte (low / 8) &&& (ones <<< (low % 8)).setWidth 8 &&& (ones >>> (32 - 1 - high % 8)).setWidth 8) (low / 8)
    fun k hk => by
      rw [BitVec.getLsbD_and, BitVec.getLsbD_and, getLsbD_ones_shiftLeft hk,
        getLsbD_ones_shiftRight hk (Nat.mod_lt high (by decide)), Bool.and_eq_true, Bool.and_eq_true,
        decide_eq_true_eq, decide_eq_true_eq, getLsbD_byte_iff _ _ hk]
      constructor
      · rintro ⟨⟨hp, hlo⟩, hhi⟩
        exact ⟨by omega, by omega, hp⟩
      · rintro ⟨hlo, hhi, hp⟩
        exact ⟨⟨hp, by omega⟩, by omega⟩
  refine honly.congr fun x => ⟨fun ⟨_, _, hlo, hhi, hp⟩ => ⟨hlo, by omega, hp⟩,
    fun ⟨hlo, hhi, hp⟩ => ⟨?_, ?_, hlo, by omega, hp⟩⟩
  · omega
  · omega

theorem searchBytes_empty (byte : Nat → Byte) (h : hi ≤ lo) : searchBytes byte lo hi = none := by
  rw [searchBytes, show hi - lo = 0 by omega]
  rfl

theorem searchWords_empty (word : Nat → Word) (byte : Nat → Byte) (h : hi ≤ lo) :
    searchWords word byte lo hi = none := by
  rw [searchWords, show hi - lo = 0 by omega]
  rfl

theorem least_setBytes (h : lo ≤ hi) :
    Least (Within (set.mem · = true) (8 * lo) (8 * hi)) (searchBytes set.byte lo hi) :=
  least_searchBytes set.byte h fun i k _ _ hk => getLsbD_byte_iff i k hk

theorem least_setWords (h : lo ≤ hi) :
    Least (Within (set.mem · = true) (32 * lo) (32 * hi)) (searchWords set.word set.byte lo hi) :=
  least_searchWords set.word set.byte h getLsbD_word_iff getLsbD_byte_iff

theorem least_searchRange {low high : Nat} (hle : low ≤ high) :
    Least (Within (set.mem · = true) low (high + 1)) (searchRange set low high) := by
  unfold searchRange
  dsimp only
  by_cases hbyte : low / 8 = high / 8
  · rw [if_pos hbyte, if_pos hbyte]
    exact least_onlyByte hbyte
  · rw [if_neg hbyte, if_neg hbyte, ite_orElse]
    have hfirst := least_firstByte (p := (set.mem · = true)) set.byte low getLsbD_byte_iff
    have hlast := @least_lastByte set high
    by_cases hword : low / 32 = high / 32
    · have hbytes := @least_setBytes (low / 8 + 1) (high / 8) set (by omega)
      rw [show min ((low / 32 + 1) * 4 - 1) (high / 8 - 1) + 1 = high / 8 by omega, searchWords_empty _ _ (by omega),
        searchBytes_empty _ (show high / 8 ≤ max (low / 32 + 1) (high / 32) * 4 by omega)]
      exact hfirst.append (hbytes.append hlast (by omega) (by omega)) (by omega) (by omega)
    · have hbytes := @least_setBytes (low / 8 + 1) ((low / 32 + 1) * 4) set (by omega)
      have hwords := @least_setWords (low / 32 + 1) (high / 32) set (by omega)
      have hbytes' := @least_setBytes (high / 32 * 4) (high / 8) set (by omega)
      rw [show min ((low / 32 + 1) * 4 - 1) (high / 8 - 1) + 1 = (low / 32 + 1) * 4 by omega,
        show max (low / 32 + 1) (high / 32) = high / 32 by omega]
      rw [show 8 * ((low / 32 + 1) * 4) = 32 * (low / 32 + 1) by omega] at hbytes
      rw [show 8 * (high / 32 * 4) = 32 * (high / 32) by omega] at hbytes'
      have hrest := hwords.append (hbytes'.append hlast (by omega) (by omega)) (by omega) (by omega)
      exact hfirst.append (hbytes.append hrest (by omega) (by omega)) (by omega) (by omega)

theorem mem_lt {x : Nat} (h : set.mem x = true) : x < 32 * set.wordCount := by
  by_contra hge
  rw [mem_of_le set (by omega)] at h
  cases h

theorem least_chooseRange (hn : set.wordCount < 2 ^ 26) (low : Nat) (high : Int) :
    Least (fun x => low ≤ x ∧ (x : Int) ≤ high ∧ set.mem x = true) (chooseRange set low high) := by
  have hlast : (pbpw set.wordCount - 1).bmod (2 ^ 32) = 32 * set.wordCount - 1 := by
    rw [pbpw_of_lt hn, Int.bmod_eq_of_le (by omega) (by omega)]
  unfold chooseRange
  rw [hlast]
  dsimp only
  split_ifs with hhigh hempty hempty
  · refine .none fun x ⟨hlo, _, hx⟩ => ?_
    have hlt := mem_lt hx
    omega
  · refine (least_searchRange (show low ≤ (32 * (set.wordCount : Int) - 1).toNat by omega)).congr fun x =>
      ⟨fun ⟨hlo, hhi, hx⟩ => ⟨hlo, by omega, hx⟩, fun ⟨hlo, hhi, hx⟩ => ⟨hlo, ?_, hx⟩⟩
    have hlt := mem_lt hx
    omega
  · refine .none fun x ⟨hlo, hhi, _⟩ => ?_
    omega
  · refine (least_searchRange (show low ≤ high.toNat by omega)).congr fun x =>
      ⟨fun ⟨hlo, hhi, hx⟩ => ⟨hlo, by omega, hx⟩, fun ⟨hlo, hhi, hx⟩ => ⟨hlo, by omega, hx⟩⟩

end Searches

/-! ## Predicates and size -/

section Predicates

variable {set set1 set2 : Bs} {i x : Nat}

theorem word_ext (i : Nat) {w w' : Word} :
    w = w' ↔ ∀ x, x / 32 = i → w.getLsbD (x % 32) = w'.getLsbD (x % 32) := by
  constructor
  · rintro rfl x _
    rfl
  · intro h
    apply BitVec.eq_of_getLsbD_eq
    intro k hk
    have hx := h (32 * i + k) (by omega)
    rwa [show (32 * i + k) % 32 = k by omega] at hx

theorem word_eq_zero_iff : set.word i = 0 ↔ ∀ x, x / 32 = i → set.mem x = false := by
  rw [word_ext i]
  constructor
  · rintro h x rfl
    exact (h x rfl).trans BitVec.getLsbD_zero
  · rintro h x rfl
    exact (h x rfl).trans BitVec.getLsbD_zero.symm

theorem word_eq_or_iff : set1.word i = set1.word i ||| set2.word i ↔
    ∀ x, x / 32 = i → set2.mem x = true → set1.mem x = true := by
  rw [word_ext i]
  constructor
  · rintro h x rfl h2
    have hx := h x rfl
    rw [BitVec.getLsbD_or] at hx
    unfold Bs.mem at *
    rw [hx, h2, Bool.or_true]
  · rintro h x rfl
    have hx := h x rfl
    rw [BitVec.getLsbD_or]
    unfold Bs.mem at hx
    cases h2 : (set2.word (x / 32)).getLsbD (x % 32) with
    | true => rw [hx h2, Bool.or_true]
    | false => rw [Bool.or_false]

theorem word_eq_iff : set1.word i = set2.word i ↔ ∀ x, x / 32 = i → set1.mem x = set2.mem x := by
  rw [word_ext i]
  constructor
  · rintro h x rfl
    exact h x rfl
  · rintro h x rfl
    exact h x rfl

theorem emptyP_iff : emptyP set = true ↔ ∀ x, set.mem x = false := by
  simp only [emptyP, List.all_eq_true, List.mem_range, decide_eq_true_eq, word_eq_zero_iff]
  constructor
  · intro h x
    by_cases hx : x / 32 < set.wordCount
    · exact h _ hx x rfl
    · exact mem_of_le set (not_lt.mp hx)
  · exact fun h i _ x _ => h x

theorem containsP_iff : containsP set1 set2 = true ↔ ∀ x, set2.mem x = true → set1.mem x = true := by
  simp only [containsP, Bool.and_eq_true, List.all_eq_true, List.mem_range, List.mem_range'_1, decide_eq_true_eq,
    word_eq_zero_iff, word_eq_or_iff]
  constructor
  · rintro ⟨hcommon, hexcess⟩ x h2
    by_cases hx : x / 32 < if set1.wordCount < set2.wordCount then set1.wordCount else set2.wordCount
    · exact hcommon _ hx x rfl h2
    · have hlt := mem_lt h2
      rw [hexcess (x / 32) ⟨by omega, by omega⟩ x rfl] at h2
      cases h2
  · refine fun h => ⟨fun i _ x _ => h x, fun i hi x hx => ?_⟩
    by_contra h2
    have hlt := mem_lt (h x (by simpa using h2))
    have hle := hi.1
    split_ifs at hle with hsize
    · omega
    · have hlt2 := hi.2
      rw [if_neg hsize] at hlt2
      omega

theorem equalLarger_iff (h : set1.wordCount ≤ set2.wordCount) :
    equalLarger set1 set2 = true ↔ ∀ x, set1.mem x = set2.mem x := by
  simp only [equalLarger, Bool.and_eq_true, List.all_eq_true, List.mem_range, List.mem_range'_1, decide_eq_true_eq,
    word_eq_zero_iff, word_eq_iff]
  constructor
  · rintro ⟨hcommon, hexcess⟩ x
    by_cases hx : x / 32 < set1.wordCount
    · exact hcommon _ hx x rfl
    · rw [mem_of_le set1 (not_lt.mp hx)]
      by_cases hx2 : x / 32 < set2.wordCount
      · exact (hexcess _ ⟨not_lt.mp hx, by omega⟩ x rfl).symm
      · exact (mem_of_le set2 (not_lt.mp hx2)).symm
  · refine fun h => ⟨fun i _ x _ => h x, fun i hi x hx => ?_⟩
    rw [← h x]
    exact mem_of_le set1 (by omega)

theorem equalP_iff : equalP set1 set2 = true ↔ ∀ x, set1.mem x = set2.mem x := by
  unfold equalP
  split_ifs with h
  · rw [equalLarger_iff h.le]
    exact forall_congr' fun x => eq_comm
  · exact equalLarger_iff (not_lt.mp h)

theorem intersectsP_iff : intersectsP set1 set2 = true ↔ ∃ x, set1.mem x = true ∧ set2.mem x = true := by
  simp only [intersectsP, List.any_eq_true, List.mem_range, decide_eq_true_eq]
  constructor
  · rintro ⟨i, hi, hne⟩
    rw [Ne, word_ext i] at hne
    push Not at hne
    obtain ⟨x, rfl, hx⟩ := hne
    rw [BitVec.getLsbD_and] at hx
    have hand : ((set1.word (x / 32)).getLsbD (x % 32) && (set2.word (x / 32)).getLsbD (x % 32)) = true := by
      by_contra hfalse
      rw [Bool.not_eq_true] at hfalse
      exact hx (hfalse.trans BitVec.getLsbD_zero.symm)
    exact ⟨x, Bool.and_eq_true_iff.mp hand⟩
  · rintro ⟨x, h1, h2⟩
    have hlt1 := mem_lt h1
    have hlt2 := mem_lt h2
    refine ⟨x / 32, ?_, fun hzero => ?_⟩
    · split_ifs
      · omega
      · omega
    · have hx := (word_ext (x / 32)).mp hzero x rfl
      rw [BitVec.getLsbD_and] at hx
      unfold Bs.mem at h1 h2
      rw [h1, h2] at hx
      exact absurd hx (by simp)

theorem memberP_eq : memberP set x = set.mem x := by
  unfold memberP
  split_ifs with h
  · exact (mem_of_le set h).symm
  · have hbit : ∀ k, k < 8 → (set.byte (x / 8) &&& (1#32 <<< (x % 8)).setWidth 8).getLsbD k =
        (set.mem (8 * (x / 8) + k) && decide (k = x % 8)) := by
      intro k hk
      rw [BitVec.getLsbD_and, getLsbD_byte, decide_eq_true hk, Bool.true_and, getLsbD_one_shiftLeft hk]
    have hlt := Nat.mod_lt x (show 8 > 0 by decide)
    cases hx : set.mem x with
    | true =>
      rw [decide_eq_true_eq]
      intro hzero
      have hself := hbit (x % 8) hlt
      rw [hzero, Nat.div_add_mod, hx] at hself
      exact absurd hself (by simp)
    | false =>
      rw [decide_eq_false_iff_not, not_not]
      apply BitVec.eq_of_getLsbD_eq
      intro k hk
      rw [hbit k hk]
      by_cases hkx : k = x % 8
      · rw [hkx, Nat.div_add_mod, hx, Bool.false_and]
        exact BitVec.getLsbD_zero.symm
      · rw [decide_eq_false hkx, Bool.and_false]
        exact BitVec.getLsbD_zero.symm

theorem bitCount_byte (i : Nat) : bitCount (set.byte i) =
    ((Finset.Ico (8 * i) (8 * (i + 1))).filter fun x => set.mem x).card := by
  rw [bitCount_spec]
  apply Finset.card_bij fun k _ => 8 * i + k
  · intro k hk
    rw [Finset.mem_filter, Finset.mem_range, getLsbD_byte] at hk
    rw [Finset.mem_filter, Finset.mem_Ico]
    exact ⟨⟨by omega, by omega⟩, (Bool.and_eq_true_iff.mp hk.2).2⟩
  · intro k _ k' _ h
    omega
  · intro x hx
    rw [Finset.mem_filter, Finset.mem_Ico] at hx
    refine ⟨x - 8 * i, ?_, by omega⟩
    rw [Finset.mem_filter, Finset.mem_range, getLsbD_byte, decide_eq_true (by omega), Bool.true_and,
      show 8 * i + (x - 8 * i) = x by omega]
    exact ⟨by omega, hx.2⟩

theorem size_eq : size set = set.elements.card := by
  have hcount : ∀ n, (List.range n).foldl (fun result i => result + bitCount (set.byte i)) 0 =
      ((Finset.range (8 * n)).filter fun x => set.mem x).card := by
    intro n
    refine foldl_range (fun k s => s = ((Finset.range (8 * k)).filter fun x => set.mem x).card) rfl ?_
    intro k s _ hs
    rw [hs, bitCount_byte, Finset.range_eq_Ico, Finset.range_eq_Ico,
      ← Finset.Ico_union_Ico_eq_Ico (Nat.zero_le (8 * k)) (show 8 * k ≤ 8 * (k + 1) by omega), Finset.filter_union,
      Finset.card_union_of_disjoint]
    apply Finset.disjoint_filter_filter
    exact Finset.Ico_disjoint_Ico_consecutive 0 (8 * k) (8 * (k + 1))
  rw [size, hcount, Bs.elements, show 8 * (set.wordCount * 4) = 32 * set.wordCount by ring]

end Predicates

/-! ## Agreement with finite sets -/

section Agreement

variable {set set1 set2 : Bs}

/-- `INT_MAX`; the elements of a set are below it. -/
def intMax : Nat := 2147483647

/-- The operations on two sets are those of finite sets. -/
structure Agrees (set1 set2 : Bs) : Prop where
  union : (union set1 set2).elements = set1.elements ∪ set2.elements
  unionD : ∃ set, unionD set1 set2 .good = .ok set ∧ set.elements = set1.elements ∪ set2.elements
  intersection : (intersection set1 set2).elements = set1.elements ∩ set2.elements
  intersectionD : (intersectionD set1 set2).elements = set1.elements ∩ set2.elements
  difference : (difference set1 set2).elements = set1.elements \ set2.elements
  differenceD : (differenceD set1 set2).elements = set1.elements \ set2.elements
  union1 : ∀ x, x < intMax → ∃ set, union1 set1 x = .ok set ∧ set.elements = insert x set1.elements
  union1D : ∀ x, x < intMax → ∃ set, union1D set1 x .good = .ok set ∧ set.elements = insert x set1.elements
  difference1 : ∀ x, (difference1 set1 x).elements = set1.elements.erase x
  difference1D : ∀ x, (difference1D set1 x).elements = set1.elements.erase x
  rangeD : ∀ (low : Nat) (high : Int), high < intMax → ∃ set, rangeD set1 low high .good = .ok set ∧
    ∀ x, x ∈ set.elements ↔ low ≤ x ∧ (x : Int) ≤ high
  singletonD : ∀ x, x < intMax → ∃ set, singletonD set1 x .good = .ok set ∧ set.elements = {x}
  copyD : ∃ set, copyD set1 set2 .good = .ok set ∧ set.elements = set2.elements
  memberP : ∀ x, memberP set1 x = true ↔ x ∈ set1.elements
  containsP : containsP set1 set2 = true ↔ set2.elements ⊆ set1.elements
  equalP : equalP set1 set2 = true ↔ set1.elements = set2.elements
  emptyP : emptyP set1 = true ↔ set1.elements = ∅
  intersectsP : intersectsP set1 set2 = true ↔ (set1.elements ∩ set2.elements).Nonempty
  size : size set1 = set1.elements.card
  choose : Least (· ∈ set1.elements) (choose set1)
  chooseRange : ∀ (low : Nat) (high : Int),
    Least (fun x => low ≤ x ∧ (x : Int) ≤ high ∧ x ∈ set1.elements) (chooseRange set1 low high)
  chooseNext : ∀ bound, Least (fun x => bound < x ∧ x ∈ set1.elements) (chooseNext set1 bound)
  intersectionChoose : Least (· ∈ set1.elements ∩ set2.elements) (intersectionChoose set1 set2)
  intersectionChooseNext : ∀ bound,
    Least (fun x => bound < x ∧ x ∈ set1.elements ∩ set2.elements) (intersectionChooseNext set1 set2 bound)
  forAll : ∀ fuel, 32 * set1.wordCount ≤ fuel → (forAll set1 fuel).Pairwise (· < ·) ∧
    ∀ x, x ∈ forAll set1 fuel ↔ x ∈ set1.elements

theorem elements_eq {s : Finset Nat} (h : ∀ x, set.mem x = decide (x ∈ s)) : set.elements = s := by
  ext x
  rw [mem_elements, h, decide_eq_true_eq]

theorem mem_eq_decide (x : Nat) : set.mem x = decide (x ∈ set.elements) := by
  simp only [mem_elements, Bool.decide_eq_true]

theorem least_choose : Least (· ∈ set.elements) (choose set) := by
  have h := @least_setWords 0 set.wordCount set (Nat.zero_le _)
  refine h.congr fun x => ⟨fun hx => mem_elements.mpr hx.2.2, fun hx => ⟨by omega, ?_, mem_elements.mp hx⟩⟩
  exact mem_lt (mem_elements.mp hx)

theorem least_chooseNext (hn : set.wordCount < 2 ^ 26) (bound : Nat) :
    Least (fun x => bound < x ∧ x ∈ set.elements) (chooseNext set bound) := by
  have h := least_searchFrom (p := (set.mem · = true)) set.word set.byte (bound + 1) hn getLsbD_word_iff
    getLsbD_byte_iff
  refine h.congr fun x => ⟨fun hx => ⟨hx.1, mem_elements.mpr hx.2.2⟩, fun hx => ⟨hx.1, ?_, mem_elements.mp hx.2⟩⟩
  exact mem_lt (mem_elements.mp hx.2)

theorem getLsbD_and_iff (i k : Nat) : (k < 32 → ((set1.word i &&& set2.word i).getLsbD k = true ↔
      set1.mem (32 * i + k) = true ∧ set2.mem (32 * i + k) = true)) ∧
    (k < 8 → ((set1.byte i &&& set2.byte i).getLsbD k = true ↔
      set1.mem (8 * i + k) = true ∧ set2.mem (8 * i + k) = true)) := by
  constructor
  · intro hk
    rw [BitVec.getLsbD_and, Bool.and_eq_true, getLsbD_word_iff i k hk, getLsbD_word_iff i k hk]
  · intro hk
    rw [BitVec.getLsbD_and, Bool.and_eq_true, getLsbD_byte_iff i k hk, getLsbD_byte_iff i k hk]

theorem mem_lt_both {x : Nat} (h : x ∈ set1.elements ∩ set2.elements) :
    x < 32 * if set1.wordCount < set2.wordCount then set1.wordCount else set2.wordCount := by
  rw [Finset.mem_inter, mem_elements, mem_elements] at h
  split_ifs
  · exact mem_lt h.1
  · exact mem_lt h.2

theorem mem_both {x : Nat} : x ∈ set1.elements ∩ set2.elements ↔ set1.mem x = true ∧ set2.mem x = true := by
  rw [Finset.mem_inter, mem_elements, mem_elements]

theorem least_intersectionChoose : Least (· ∈ set1.elements ∩ set2.elements) (intersectionChoose set1 set2) := by
  have h := least_searchWords (p := fun x => set1.mem x = true ∧ set2.mem x = true)
    (fun i => set1.word i &&& set2.word i) (fun i => set1.byte i &&& set2.byte i)
    (Nat.zero_le (if set1.wordCount < set2.wordCount then set1.wordCount else set2.wordCount))
    (fun i k => (getLsbD_and_iff i k).1) (fun i k => (getLsbD_and_iff i k).2)
  exact h.congr fun x => ⟨fun hx => mem_both.mpr hx.2.2, fun hx => ⟨by omega, mem_lt_both hx, mem_both.mp hx⟩⟩

theorem least_intersectionChooseNext (hn : set1.wordCount < 2 ^ 26) (bound : Nat) :
    Least (fun x => bound < x ∧ x ∈ set1.elements ∩ set2.elements) (intersectionChooseNext set1 set2 bound) := by
  have hmin : (if set1.wordCount < set2.wordCount then set1.wordCount else set2.wordCount) < 2 ^ 26 := by
    split_ifs
    · omega
    · omega
  have h := least_searchFrom (p := fun x => set1.mem x = true ∧ set2.mem x = true)
    (fun i => set1.word i &&& set2.word i) (fun i => set1.byte i &&& set2.byte i) (bound + 1) hmin
    (fun i k => (getLsbD_and_iff i k).1) (fun i k => (getLsbD_and_iff i k).2)
  exact h.congr fun x => ⟨fun hx => ⟨hx.1, mem_both.mpr hx.2.2⟩,
    fun hx => ⟨hx.1, mem_lt_both hx.2, mem_both.mp hx.2⟩⟩

/-- `BS_Union1` of a set whose bits an `INT32` counts. -/
theorem union1_eq (hn : set.wordCount < 2 ^ 26) (y : Nat) :
    ∃ set', union1 set y = .ok set' ∧ ∀ x, set'.mem x = (set.mem x || decide (x = y)) := by
  unfold union1
  obtain ⟨n, hsize, hn1, hn2⟩ : ∃ n : Nat, (if set.wordCount > y / 32 + 1 then pbpw set.wordCount else (y + 1 : Int)) =
      n ∧ set.wordCount ≤ (n + 31) / 32 ∧ y / 32 + 1 ≤ (n + 31) / 32 := by
    split_ifs with h
    · refine ⟨32 * set.wordCount, ?_, by omega, by omega⟩
      rw [pbpw_of_lt hn]
      rfl
    · exact ⟨y + 1, rfl, by omega, by omega⟩
  have hcount : (⟨List.replicate ((n + 31) / 32) 0⟩ : Bs).wordCount = (n + 31) / 32 := List.length_replicate
  obtain ⟨copied, hcopy, hmem, hle⟩ := @copyD_eq ⟨List.replicate ((n + 31) / 32) 0⟩ set .bad
    (Or.inr (by rw [hcount]; exact hn1))
  rw [hcount] at hle
  obtain ⟨set', hok, hset'⟩ := @union1D_eq copied y .bad (Or.inr (hn2.trans hle))
  have hnew : createEmpty n = .ok ⟨List.replicate ((n + 31) / 32) 0⟩ := by
    rw [createEmpty, require, if_pos (Int.natCast_nonneg n), ok_bind, Int.toNat_natCast]
    rfl
  refine ⟨set', ?_, fun x => by rw [hset', hmem]⟩
  rw [hsize]
  exact bind_eq_ok.mpr ⟨_, hnew, bind_eq_ok.mpr ⟨_, hcopy, hok⟩⟩

/-- A set with more bits than an `INT32` counts has no union with an element below its last word. -/
theorem union1_zero_ne (hn : 2 ^ 26 ≤ set.wordCount) (set' : Bs) : union1 set 0 ≠ .ok set' := by
  intro h
  unfold union1 at h
  rw [if_pos (by omega)] at h
  obtain ⟨newset, hnew, h⟩ := bind_eq_ok.mp h
  obtain ⟨copied, hcopy, -⟩ := bind_eq_ok.mp h
  unfold createEmpty at hnew
  obtain ⟨u, hpos, hnew⟩ := bind_eq_ok.mp hnew
  cases hnew
  have hlt : pbpw set.wordCount < 2 ^ 31 := by
    have := Int.bmod_lt (x := set.wordCount * 32) (m := 2 ^ 32) (by decide)
    unfold pbpw
    omega
  have hshort : (⟨List.replicate (((pbpw set.wordCount).toNat + 31) / 32) 0⟩ : Bs).wordCount < set.wordCount := by
    rw [Bs.wordCount, List.length_replicate]
    have hmod : pbpw set.wordCount % 32 = 0 := by
      unfold pbpw
      rw [Int.bmod_def]
      split_ifs
      · omega
      · omega
    omega
  unfold copyD reserve realloc at hcopy
  rw [if_pos hshort, require, if_neg (by decide)] at hcopy
  cases hcopy

theorem agrees_of_lt (hn : set1.wordCount < 2 ^ 26) : Agrees set1 set2 where
  union := elements_eq fun x => by
    rw [mem_union, mem_eq_decide, mem_eq_decide, ← Bool.decide_or]
    simp only [Finset.mem_union]
  unionD := by
    obtain ⟨set, hok, hset⟩ := @unionD_eq set1 set2
    refine ⟨set, hok, elements_eq fun x => ?_⟩
    rw [hset, mem_eq_decide, mem_eq_decide, ← Bool.decide_or]
    simp only [Finset.mem_union]
  intersection := elements_eq fun x => by
    rw [mem_intersection, mem_eq_decide, mem_eq_decide, ← Bool.decide_and]
    simp only [Finset.mem_inter]
  intersectionD := elements_eq fun x => by
    rw [mem_intersectionD, mem_eq_decide, mem_eq_decide, ← Bool.decide_and]
    simp only [Finset.mem_inter]
  difference := elements_eq fun x => by
    rw [mem_difference, mem_eq_decide, mem_eq_decide, ← decide_not, ← Bool.decide_and]
    simp only [Finset.mem_sdiff]
  differenceD := elements_eq fun x => by
    rw [mem_differenceD, mem_eq_decide, mem_eq_decide, ← decide_not, ← Bool.decide_and]
    simp only [Finset.mem_sdiff]
  union1 x _ := by
    obtain ⟨set, hok, hset⟩ := union1_eq hn x
    refine ⟨set, hok, elements_eq fun y => ?_⟩
    rw [hset, mem_eq_decide, ← Bool.decide_or]
    simp only [Finset.mem_insert, or_comm]
  union1D x _ := by
    obtain ⟨set, hok, hset⟩ := @union1D_eq set1 x .good (Or.inl rfl)
    refine ⟨set, hok, elements_eq fun y => ?_⟩
    rw [hset, mem_eq_decide, ← Bool.decide_or]
    simp only [Finset.mem_insert, or_comm]
  difference1 x := elements_eq fun y => by
    rw [difference1, mem_difference1D, mem_copy, mem_eq_decide, ← decide_not, ← Bool.decide_and]
    simp only [Finset.mem_erase, and_comm, ne_eq]
  difference1D x := elements_eq fun y => by
    rw [mem_difference1D, mem_eq_decide, ← decide_not, ← Bool.decide_and]
    simp only [Finset.mem_erase, and_comm, ne_eq]
  rangeD low high _ := by
    obtain ⟨set, hok, hset⟩ := @rangeD_eq set1 low high
    refine ⟨set, hok, fun x => ?_⟩
    rw [mem_elements, hset, decide_eq_true_eq]
  singletonD x _ := by
    obtain ⟨set, hok, hset⟩ := @singletonD_eq set1 x
    refine ⟨set, hok, elements_eq fun y => ?_⟩
    simp only [hset, Finset.mem_singleton]
  copyD := by
    obtain ⟨set, hok, hset, -⟩ := @copyD_eq set1 set2 .good (Or.inl rfl)
    exact ⟨set, hok, elements_eq fun x => by rw [hset, mem_eq_decide]⟩
  memberP x := by rw [memberP_eq, mem_elements]
  containsP := by
    rw [containsP_iff, Finset.subset_iff]
    simp only [mem_elements]
  equalP := by
    rw [equalP_iff, Finset.ext_iff]
    exact forall_congr' fun x => by rw [mem_elements, mem_elements, Bool.eq_iff_iff]
  emptyP := by
    rw [emptyP_iff, Finset.eq_empty_iff_forall_notMem]
    simp only [mem_elements, Bool.not_eq_true]
  intersectsP := by
    rw [intersectsP_iff, Finset.Nonempty]
    simp only [mem_both]
  size := size_eq
  choose := least_choose
  chooseRange low high := by
    simp only [mem_elements]
    exact least_chooseRange hn low high
  chooseNext := least_chooseNext hn
  intersectionChoose := least_intersectionChoose
  intersectionChooseNext := least_intersectionChooseNext hn
  forAll fuel hfuel := by
    have h := sweep_eq (fun x hx => mem_lt (mem_elements.mp hx)) (fun x _ => least_chooseNext hn x)
      (least_choose.congr fun y => (and_iff_right (Nat.zero_le y)).symm) (by simpa using hfuel)
    refine ⟨h.1, fun x => (h.2 x).trans (and_iff_right (Nat.zero_le x))⟩

/-- The operations are those of finite sets as long as an `INT32` counts the bits of the set. -/
theorem agrees_iff (set1 set2 : Bs) : Agrees set1 set2 ↔ set1.wordCount < 2 ^ 26 := by
  refine ⟨fun h => ?_, agrees_of_lt⟩
  by_contra hn
  obtain ⟨set, hok, -⟩ := h.union1 0 (by decide)
  exact union1_zero_ne (not_lt.mp hn) set hok

theorem extend_eq : extend 33554433 2 (by decide) = 67108864 := by
  simp [extend]

/-- A set that has grown for the element `2 ^ 30`: the search for an element after 0 fails. -/
theorem chooseNext_misses : ∃ set, union1D ⟨[]⟩ 1073741824 .good = .ok set ∧ 1073741824 ∈ set.elements ∧
    chooseNext set 0 = none := by
  obtain ⟨set, hok, hset⟩ := @union1D_eq ⟨[]⟩ 1073741824 .good (Or.inl rfl)
  have hcount : set.wordCount = 67108864 := by
    have hok' := hok
    unfold union1D at hok'
    obtain ⟨grown, hgrown, hok'⟩ := bind_eq_ok.mp hok'
    cases hok'
    rw [wordCount_setByte]
    rw [show 1073741824 / 32 + 1 = 33554433 by norm_num] at hgrown
    rw [reserve, if_pos (by decide), realloc, require, if_pos (by decide), ok_bind, if_neg (by decide)] at hgrown
    cases hgrown
    rw [extend_eq]
    show ([] ++ List.replicate _ _).length = _
    rw [List.nil_append, List.length_replicate]
    rfl
  refine ⟨set, hok, ?_, ?_⟩
  · rw [mem_elements, hset, decide_eq_true rfl, Bool.or_true]
  · have hneg : pbpw 67108864 ≤ ((0 + 1 : Nat) : Int) := by
      unfold pbpw
      norm_num [Int.bmod_def]
    rw [chooseNext, searchFrom, hcount, if_pos hneg]

end Agreement

end Path64.Bitset

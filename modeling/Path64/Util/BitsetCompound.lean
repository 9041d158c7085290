import Path64.Util.BitsetSets

/-!
# Replacement and compound operations on bit sets

The operations of `bitset.c` that read two to six sets in one loop. A word is read or written only within the set.

* `forWordsWithin` : the loop; `compound` : what the operations that demand sources of one length have in common;
* the operations under the names of the source;
* `compound_eq` : the bits of the result; `compounds_right` : the set that each operation leaves.
-/

namespace Path64.Bitset

open Lib

inductive CompoundFault where
  | allocation | sizes | bounds
  deriving DecidableEq, Repr

/-- `if ( size < length ) set = bs_Realloc(set,length,pool);` -/
def grow (set : Bs) (length : Nat) (pool : Pool) : Except CompoundFault Bs :=
  (reserve set length pool).mapError fun _ => .allocation

/-- `for ( i = lo; i < hi; ++i ) BS_word(set,i) = f i BS_word(set,i);` where `f i` reads word `i` of each source. -/
def forWordsWithin (sources : List Bs) (lo hi : Nat) (f : Nat → Word → Word) (set : Bs) : Except CompoundFault Bs :=
  (List.range' lo (hi - lo)).foldlM (fun set i => do
    require .bounds (i < set.wordCount ∧ ∀ source ∈ sources, i < source.wordCount)
    return set.setWord i (f i (set.word i))) set

/-- The sources have `size` words, which is asserted when `Is_True_On` is defined. -/
def compound (isTrueOn : Bool) (sources : List Bs) (size : Nat) (f : Nat → Word → Word) (set : Bs) (pool : Pool) :
    Except CompoundFault Bs := do
  require .sizes (isTrueOn = true → ∀ source ∈ sources, source.wordCount = size)
  let set ← grow set size pool
  forWordsWithin sources 0 size f set

/-! ## The operations -/

/-- `BS_IntersectionR`. -/
def intersectionR (result set1 set2 : Bs) : Except CompoundFault Bs := do
  let minsize := min set1.wordCount set2.wordCount
  let result ← forWordsWithin [set1, set2] 0 minsize (fun i _ => set1.word i &&& set2.word i) result
  forWordsWithin [] minsize result.wordCount (fun _ _ => 0) result

/-- `BS_UnionR`. -/
def unionR (result set1 set2 : Bs) (pool : Pool) : Except CompoundFault Bs := do
  let maxsize := max set1.wordCount set2.wordCount
  let result ← grow result maxsize pool
  forWordsWithin [set1, set2] 0 maxsize (fun i _ => set1.word i ||| set2.word i) result

/-- `BS_UnionD_Intersection`. -/
def unionDIntersection (set1 set2 set3 : Bs) (pool : Pool) : Except CompoundFault Bs := do
  let minsize := min set2.wordCount set3.wordCount
  let set1 ← grow set1 minsize pool
  forWordsWithin [set2, set3] 0 minsize (fun i word => word ||| set2.word i &&& set3.word i) set1

/-- `BS_2_3_And_1_Or_D`. -/
def bs23And1OrD (set1 set2 set3 : Bs) (pool : Pool) : Except CompoundFault Bs := do
  let size := min set2.wordCount set3.wordCount
  let set1 ← grow set1 size pool
  forWordsWithin [set2, set3] 0 size (fun i word => word ||| set2.word i &&& set3.word i) set1

section
variable (isTrueOn : Bool) (result set1 set2 set3 set4 set5 set6 : Bs) (pool : Pool)

/-- `BS_2_1_Minus_3_Or_R`. -/
def bs21Minus3OrR : Except CompoundFault Bs :=
  compound isTrueOn [set1, set2, set3] set3.wordCount
    (fun i _ => (~~~set1.word i &&& set2.word i) ||| set3.word i) result pool

/-- `BS_3_2_Minus_1_Or_D`. -/
def bs32Minus1OrD : Except CompoundFault Bs :=
  compound isTrueOn [set2, set3] set3.wordCount (fun i word => word ||| (~~~set2.word i &&& set3.word i)) set1 pool

/-- `BS_3_2_Minus_4_Or_1_Or_D`. -/
def bs32Minus4Or1OrD : Except CompoundFault Bs :=
  compound isTrueOn [set2, set3, set4] set2.wordCount
    (fun i word => word ||| ((~~~set2.word i &&& set3.word i) ||| set4.word i)) set1 pool

/-- `BS_3_2_Minus_4_Or_5_Or_1_Or_D`. -/
def bs32Minus4Or5Or1OrD : Except CompoundFault Bs :=
  compound isTrueOn [set2, set3, set4, set5] set5.wordCount
    (fun i word => word ||| ((~~~set2.word i &&& set3.word i) ||| set4.word i ||| set5.word i)) set1 pool

/-- `BS_2_1_Minus_3_Or_4_And_5_And_6_And_R`. -/
def bs21Minus3Or4And5And6AndR : Except CompoundFault Bs :=
  compound isTrueOn [set1, set2, set3, set4, set5, set6] set3.wordCount
    (fun i _ => ((~~~set1.word i &&& set2.word i) ||| set3.word i) &&& set4.word i &&& set5.word i &&& set6.word i)
    result pool

/-- `BS_2_1_Minus_3_Or_4_And_R`. -/
def bs21Minus3Or4AndR : Except CompoundFault Bs :=
  compound isTrueOn [set1, set2, set3, set4] set3.wordCount
    (fun i _ => ((~~~set1.word i &&& set2.word i) ||| set3.word i) &&& set4.word i) result pool

/-- `BS_1_Not_2_Or_3_Minus_4_And_R`. -/
def bs1Not2Or3Minus4AndR : Except CompoundFault Bs :=
  compound isTrueOn [set1, set2, set3, set4] set2.wordCount
    (fun i _ => (~~~set1.word i ||| set2.word i) &&& ~~~set3.word i &&& set4.word i) result pool

/-- `BS_2_3_Or_1_Or_D`. -/
def bs23Or1OrD : Except CompoundFault Bs :=
  compound isTrueOn [set2, set3] set2.wordCount (fun i word => word ||| (set2.word i ||| set3.word i)) set1 pool

/-- `BS_1_2_Or_3_And_R`. -/
def bs12Or3AndR : Except CompoundFault Bs :=
  compound isTrueOn [set1, set2, set3] set1.wordCount (fun i _ => (set1.word i ||| set2.word i) &&& set3.word i) result
    pool

/-- `BS_3_Not_4_Or_2_And_1_Or_D`. -/
def bs3Not4Or2And1OrD : Except CompoundFault Bs :=
  compound isTrueOn [set2, set3, set4] set2.wordCount
    (fun i word => word ||| set2.word i &&& (~~~set3.word i ||| set4.word i)) set1 pool

/-- `BS_4_3_Minus_2_Not_Or_1_And_D`. -/
def bs43Minus2NotOr1AndD : Except CompoundFault Bs :=
  compound isTrueOn [set2, set3, set4] set2.wordCount
    (fun i word => word &&& (~~~set2.word i ||| (set4.word i &&& ~~~set3.word i))) set1 pool

/-- `BS_2_3_Minus_1_Or_D`. -/
def bs23Minus1OrD : Except CompoundFault Bs :=
  compound isTrueOn [set2, set3] set2.wordCount (fun i word => word ||| set2.word i &&& ~~~set3.word i) set1 pool

/-- `BS_2_3_Minus_4_Minus_1_Or_D`. -/
def bs23Minus4Minus1OrD : Except CompoundFault Bs :=
  compound isTrueOn [set2, set3, set4] set2.wordCount
    (fun i word => word ||| set2.word i &&& ~~~set3.word i &&& ~~~set4.word i) set1 pool

end

/-! ## The bits of the result -/

section
variable {set : Bs} {sources : List Bs} {f : Nat → Word → Word} {lo hi n x : Nat} {b : Nat → Bool → Bool}

theorem forWordsWithin_eq (hset : hi ≤ set.wordCount) (hsources : ∀ source ∈ sources, hi ≤ source.wordCount) :
    forWordsWithin sources lo hi f set = .ok (forWords lo hi f set) := by
  unfold forWordsWithin forWords
  have hbound : lo + (hi - lo) ≤ max lo hi := by omega
  generalize hi - lo = n at hbound ⊢
  induction n generalizing lo set with
  | zero => rfl
  | succ n ih =>
    have hlo : lo < hi := by omega
    rw [List.range'_succ, List.foldlM_cons, List.foldl_cons, require, if_pos]
    · exact ih (by rw [wordCount_setWord]; exact hset) (by omega)
    · exact ⟨by omega, fun source hs => lt_of_lt_of_le hlo (hsources source hs)⟩

theorem grow_eq (set : Bs) (n : Nat) :
    ∃ set', grow set n .good = .ok set' ∧ (∀ x, set'.mem x = set.mem x) ∧ n ≤ set'.wordCount := by
  obtain ⟨set', hok, hsame, hle, -⟩ := reserve_eq set n (Or.inl rfl)
  unfold grow
  rw [hok]
  exact ⟨set', rfl, hsame, hle⟩

/-- A set grown and rewritten up to word `n`; the old word at `x` has the bit that the set had. -/
theorem grow_forWordsWithin (hsources : ∀ source ∈ sources, n ≤ source.wordCount) :
    ∃ r, (grow set n .good >>= forWordsWithin sources 0 n f) = .ok r ∧
      ∀ x, ∃ word : Word, word.getLsbD (x % 32) = set.mem x ∧
        r.mem x = if x / 32 < n then (f (x / 32) word).getLsbD (x % 32) else set.mem x := by
  obtain ⟨set', hok, hsame, hle⟩ := grow_eq set n
  rw [hok, ok_bind, forWordsWithin_eq hle hsources]
  refine ⟨_, rfl, fun x => ⟨set'.word (x / 32), hsame x, ?_⟩⟩
  rw [mem_forWords, hsame]
  by_cases hx : x / 32 < n
  · rw [if_pos ⟨Nat.zero_le _, hx, by omega⟩, if_pos hx]
  · rw [if_neg fun h => hx h.2.1, if_neg hx]

end

/-! ## The sets that are left -/

/-- The operation returns a set with just the elements `p`. -/
def Leaves (o : Except CompoundFault Bs) (p : Nat → Prop) : Prop := ∃ r, o = .ok r ∧ ∀ x, x ∈ r.elements ↔ p x

/-- The same in the first `size` words, and in all of them when there were no more in the set that is replaced. -/
def Replaces (set : Bs) (size : Nat) (o : Except CompoundFault Bs) (p : Nat → Prop) : Prop :=
  ∃ r, o = .ok r ∧ ∀ x, x / 32 < size ∨ set.wordCount ≤ size → (x ∈ r.elements ↔ p x)

/-- The sources have `size` words. -/
def OfSize (size : Nat) (sources : List Bs) : Prop := ∀ source ∈ sources, source.wordCount = size

/-- What each operation leaves, for all sets. -/
structure CompoundsRight (isTrueOn : Bool) : Prop where
  intersectionR : ∀ result set1 set2 : Bs, min set1.wordCount set2.wordCount ≤ result.wordCount →
    Leaves (intersectionR result set1 set2) fun x => x ∈ set1.elements ∧ x ∈ set2.elements
  unionR : ∀ result set1 set2 : Bs, set1.wordCount = set2.wordCount →
    Replaces result set1.wordCount (unionR result set1 set2 .good) fun x => x ∈ set1.elements ∨ x ∈ set2.elements
  unionDIntersection : ∀ set1 set2 set3 : Bs, Leaves (unionDIntersection set1 set2 set3 .good) fun x =>
    x ∈ set1.elements ∨ x ∈ set2.elements ∧ x ∈ set3.elements
  bs23And1OrD : ∀ set1 set2 set3 : Bs, Leaves (bs23And1OrD set1 set2 set3 .good) fun x =>
    x ∈ set1.elements ∨ x ∈ set2.elements ∧ x ∈ set3.elements
  bs21Minus3OrR : ∀ (result set1 set2 set3 : Bs) (size : Nat), OfSize size [set1, set2, set3] →
    Replaces result size (bs21Minus3OrR isTrueOn result set1 set2 set3 .good) fun x =>
      x ∉ set1.elements ∧ x ∈ set2.elements ∨ x ∈ set3.elements
  bs32Minus1OrD : ∀ (set1 set2 set3 : Bs) (size : Nat), OfSize size [set2, set3] →
    Leaves (bs32Minus1OrD isTrueOn set1 set2 set3 .good) fun x =>
      x ∈ set1.elements ∨ x ∉ set2.elements ∧ x ∈ set3.elements
  bs32Minus4Or1OrD : ∀ (set1 set2 set3 set4 : Bs) (size : Nat), OfSize size [set2, set3, set4] →
    Leaves (bs32Minus4Or1OrD isTrueOn set1 set2 set3 set4 .good) fun x =>
      x ∈ set1.elements ∨ (x ∉ set2.elements ∧ x ∈ set3.elements) ∨ x ∈ set4.elements
  bs32Minus4Or5Or1OrD : ∀ (set1 set2 set3 set4 set5 : Bs) (size : Nat), OfSize size [set2, set3, set4, set5] →
    Leaves (bs32Minus4Or5Or1OrD isTrueOn set1 set2 set3 set4 set5 .good) fun x =>
      x ∈ set1.elements ∨ (x ∉ set2.elements ∧ x ∈ set3.elements) ∨ x ∈ set4.elements ∨ x ∈ set5.elements
  bs21Minus3Or4And5And6AndR : ∀ (result set1 set2 set3 set4 set5 set6 : Bs) (size : Nat),
    OfSize size [set1, set2, set3, set4, set5, set6] →
    Replaces result size (bs21Minus3Or4And5And6AndR isTrueOn result set1 set2 set3 set4 set5 set6 .good) fun x =>
      (x ∉ set1.elements ∧ x ∈ set2.elements ∨ x ∈ set3.elements) ∧ x ∈ set4.elements ∧ x ∈ set5.elements ∧
        x ∈ set6.elements
  bs21Minus3Or4AndR : ∀ (result set1 set2 set3 set4 : Bs) (size : Nat), OfSize size [set1, set2, set3, set4] →
    Replaces result size (bs21Minus3Or4AndR isTrueOn result set1 set2 set3 set4 .good) fun x =>
      (x ∉ set1.elements ∧ x ∈ set2.elements ∨ x ∈ set3.elements) ∧ x ∈ set4.elements
  bs1Not2Or3Minus4AndR : ∀ (result set1 set2 set3 set4 : Bs) (size : Nat), OfSize size [set1, set2, set3, set4] →
    Replaces result size (bs1Not2Or3Minus4AndR isTrueOn result set1 set2 set3 set4 .good) fun x =>
      (x ∉ set1.elements ∨ x ∈ set2.elements) ∧ x ∉ set3.elements ∧ x ∈ set4.elements
  bs23Or1OrD : ∀ (set1 set2 set3 : Bs) (size : Nat), OfSize size [set2, set3] →
    Leaves (bs23Or1OrD isTrueOn set1 set2 set3 .good) fun x =>
      x ∈ set1.elements ∨ x ∈ set2.elements ∨ x ∈ set3.elements
  bs12Or3AndR : ∀ (result set1 set2 set3 : Bs) (size : Nat), OfSize size [set1, set2, set3] →
    Replaces result size (bs12Or3AndR isTrueOn result set1 set2 set3 .good) fun x =>
      (x ∈ set1.elements ∨ x ∈ set2.elements) ∧ x ∈ set3.elements
  bs3Not4Or2And1OrD : ∀ (set1 set2 set3 set4 : Bs) (size : Nat), OfSize size [set2, set3, set4] →
    Leaves (bs3Not4Or2And1OrD isTrueOn set1 set2 set3 set4 .good) fun x =>
      x ∈ set1.elements ∨ x ∈ set2.elements ∧ (x ∉ set3.elements ∨ x ∈ set4.elements)
  bs43Minus2NotOr1AndD : ∀ (set1 set2 set3 set4 : Bs) (size : Nat), OfSize size [set2, set3, set4] →
    Leaves (bs43Minus2NotOr1AndD isTrueOn set1 set2 set3 set4 .good) fun x =>
      x ∈ set1.elements ∧ (x ∉ set2.elements ∨ x ∈ set4.elements ∧ x ∉ set3.elements)
  bs23Minus1OrD : ∀ (set1 set2 set3 : Bs) (size : Nat), OfSize size [set2, set3] →
    Leaves (bs23Minus1OrD isTrueOn set1 set2 set3 .good) fun x =>
      x ∈ set1.elements ∨ x ∈ set2.elements ∧ x ∉ set3.elements
  bs23Minus4Minus1OrD : ∀ (set1 set2 set3 set4 : Bs) (size : Nat), OfSize size [set2, set3, set4] →
    Leaves (bs23Minus4Minus1OrD isTrueOn set1 set2 set3 set4 .good) fun x =>
      x ∈ set1.elements ∨ x ∈ set2.elements ∧ x ∉ set3.elements ∧ x ∉ set4.elements

section
variable {set : Bs} {sources : List Bs} {f : Nat → Word → Word} {n m x : Nat} {p : Nat → Prop}

theorem bit_or {v w : Word} {k : Nat} : (v ||| w).getLsbD k = true ↔ v.getLsbD k = true ∨ w.getLsbD k = true := by
  rw [BitVec.getLsbD_or, Bool.or_eq_true]

theorem bit_and {v w : Word} {k : Nat} : (v &&& w).getLsbD k = true ↔ v.getLsbD k = true ∧ w.getLsbD k = true := by
  rw [BitVec.getLsbD_and, Bool.and_eq_true]

theorem bit_compl {w : Word} : (~~~w).getLsbD (x % 32) = true ↔ ¬w.getLsbD (x % 32) = true := by
  rw [BitVec.getLsbD_not, decide_eq_true (Nat.mod_lt x (by decide)), Bool.true_and, Bool.not_eq_true', Bool.not_eq_true]

theorem bit_word : (set.word (x / 32)).getLsbD (x % 32) = true ↔ x ∈ set.elements := mem_elements.symm

/-- A destructive operation that keeps what is in none of its sources. -/
theorem leaves_of_words (hsources : ∀ source ∈ sources, n ≤ source.wordCount)
    (hf : ∀ x word, (word.getLsbD (x % 32) = true ↔ x ∈ set.elements) →
      ((f (x / 32) word).getLsbD (x % 32) = true ↔ p x))
    (hfix : ∀ x, n ≤ x / 32 → (p x ↔ x ∈ set.elements)) :
    Leaves (grow set n .good >>= forWordsWithin sources 0 n f) p := by
  obtain ⟨r, hr, hbits⟩ := grow_forWordsWithin (f := f) hsources
  refine ⟨r, hr, fun x => ?_⟩
  obtain ⟨word, hword, hbit⟩ := hbits x
  rw [mem_elements, hbit]
  split_ifs with hx
  · exact hf x word (by rw [hword, mem_elements])
  · rw [hfix x (not_lt.mp hx), mem_elements]

/-- A replacement by something of the sources. -/
theorem replaces_of_words (hsources : ∀ source ∈ sources, n ≤ source.wordCount)
    (hf : ∀ x word, (f (x / 32) word).getLsbD (x % 32) = true ↔ p x) (hzero : ∀ x, n ≤ x / 32 → ¬p x) :
    Replaces set n (grow set n .good >>= forWordsWithin sources 0 n f) p := by
  obtain ⟨r, hr, hbits⟩ := grow_forWordsWithin (f := f) hsources
  refine ⟨r, hr, fun x hx => ?_⟩
  obtain ⟨word, -, hbit⟩ := hbits x
  rw [mem_elements, hbit]
  split_ifs with hlt
  · exact hf x word
  · rw [mem_of_le set (by omega)]
    exact iff_of_false (fun h => nomatch h) (hzero x (not_lt.mp hlt))

theorem OfSize.not_mem (h : OfSize n sources) (hx : n ≤ x / 32) : ∀ source ∈ sources, x ∉ source.elements := by
  intro source hs
  rw [mem_elements, mem_of_le source (by rw [h source hs]; exact hx)]
  exact Bool.false_ne_true

variable (isTrueOn : Bool)

theorem compound_eq (h : OfSize n sources) (hm : m = n) :
    compound isTrueOn sources m f set .good = (grow set n .good >>= forWordsWithin sources 0 n f) := by
  subst hm
  have hsizes : isTrueOn = true → ∀ source ∈ sources, source.wordCount = m := fun _ => h
  unfold compound
  rw [require, if_pos hsizes]
  rfl

theorem compound_leaves (h : OfSize n sources) (hm : m = n)
    (hf : ∀ x word, (word.getLsbD (x % 32) = true ↔ x ∈ set.elements) →
      ((f (x / 32) word).getLsbD (x % 32) = true ↔ p x))
    (hfix : ∀ x, (∀ source ∈ sources, x ∉ source.elements) → (p x ↔ x ∈ set.elements)) :
    Leaves (compound isTrueOn sources m f set .good) p := by
  rw [compound_eq isTrueOn h hm]
  exact leaves_of_words (fun source hs => (h source hs).ge) hf fun x hx => hfix x (h.not_mem hx)

theorem compound_replaces (h : OfSize n sources) (hm : m = n)
    (hf : ∀ x word, (f (x / 32) word).getLsbD (x % 32) = true ↔ p x)
    (hzero : ∀ x, (∀ source ∈ sources, x ∉ source.elements) → ¬p x) :
    Replaces set n (compound isTrueOn sources m f set .good) p := by
  rw [compound_eq isTrueOn h hm]
  exact replaces_of_words (fun source hs => (h source hs).ge) hf fun x hx => hzero x (h.not_mem hx)

end

theorem not_mem_both {set1 set2 : Bs} {x : Nat} (hx : min set1.wordCount set2.wordCount ≤ x / 32) :
    ¬(x ∈ set1.elements ∧ x ∈ set2.elements) := by
  rw [mem_elements, mem_elements]
  rintro ⟨h1, h2⟩
  rcases min_le_iff.mp hx with hle1 | hle2
  · rw [mem_of_le set1 hle1] at h1
    exact Bool.false_ne_true h1
  · rw [mem_of_le set2 hle2] at h2
    exact Bool.false_ne_true h2

theorem unionD_inter (set1 set2 set3 : Bs) : Leaves (grow set1 (min set2.wordCount set3.wordCount) .good >>=
      forWordsWithin [set2, set3] 0 (min set2.wordCount set3.wordCount) fun i word => word ||| set2.word i &&& set3.word i)
    fun x => x ∈ set1.elements ∨ x ∈ set2.elements ∧ x ∈ set3.elements := by
  refine leaves_of_words (by simp) (fun x word hword => ?_) fun x hx => or_iff_left (not_mem_both hx)
  simp only [bit_or, bit_and, bit_word, hword]

/-- In every build, for all sets. -/
theorem compounds_right (isTrueOn : Bool) : CompoundsRight isTrueOn where
  intersectionR := by
    intro result set1 set2 hle
    have hmin : ∀ source ∈ [set1, set2], min set1.wordCount set2.wordCount ≤ source.wordCount := by simp
    unfold intersectionR
    dsimp only
    rw [forWordsWithin_eq hle hmin, ok_bind, forWordsWithin_eq le_rfl fun _ hs => absurd hs List.not_mem_nil]
    refine ⟨_, rfl, fun x => ?_⟩
    rw [mem_elements, mem_forWords, wordCount_forWords, mem_forWords]
    split_ifs with hrest hlow
    · -- a surplus word is zero
      exact iff_of_false (by simp) (not_mem_both hrest.1)
    · exact bit_and.trans (and_congr bit_word bit_word)
    · rw [mem_of_le result (by omega)]
      exact iff_of_false Bool.false_ne_true (not_mem_both (by omega))
  unionR := by
    intro result set1 set2 hsize
    have hmax : max set1.wordCount set2.wordCount = set1.wordCount := by omega
    have hall : OfSize set1.wordCount [set1, set2] := by simp [OfSize, hsize]
    unfold unionR
    rw [hmax]
    refine replaces_of_words (fun source hs => (hall source hs).ge) (fun x word => ?_) fun x hx => ?_
    · simp only [bit_or, bit_word]
    · have hnot := hall.not_mem hx
      simp [hnot]
  unionDIntersection := unionD_inter
  bs23And1OrD := unionD_inter
  bs21Minus3OrR := by
    intro result set1 set2 set3 size h
    refine compound_replaces isTrueOn h (h set3 (by simp)) (fun x word => ?_) fun x hx => ?_
    · simp only [bit_or, bit_and, bit_compl, bit_word]
    · simp [hx]
  bs32Minus1OrD := by
    intro set1 set2 set3 size h
    refine compound_leaves isTrueOn h (h set3 (by simp)) (fun x word hword => ?_) fun x hx => ?_
    · simp only [bit_or, bit_and, bit_compl, bit_word, hword]
    · simp [hx]
  bs32Minus4Or1OrD := by
    intro set1 set2 set3 set4 size h
    refine compound_leaves isTrueOn h (h set2 (by simp)) (fun x word hword => ?_) fun x hx => ?_
    · simp only [bit_or, bit_and, bit_compl, bit_word, hword]
    · simp [hx]
  bs32Minus4Or5Or1OrD := by
    intro set1 set2 set3 set4 set5 size h
    refine compound_leaves isTrueOn h (h set5 (by simp)) (fun x word hword => ?_) fun x hx => ?_
    · simp only [bit_or, bit_and, bit_compl, bit_word, or_assoc, hword]
    · simp [hx]
  bs21Minus3Or4And5And6AndR := by
    intro result set1 set2 set3 set4 set5 set6 size h
    refine compound_replaces isTrueOn h (h set3 (by simp)) (fun x word => ?_) fun x hx => ?_
    · simp only [bit_or, bit_and, bit_compl, bit_word, and_assoc]
    · simp [hx]
  bs21Minus3Or4AndR := by
    intro result set1 set2 set3 set4 size h
    refine compound_replaces isTrueOn h (h set3 (by simp)) (fun x word => ?_) fun x hx => ?_
    · simp only [bit_or, bit_and, bit_compl, bit_word]
    · simp [hx]
  bs1Not2Or3Minus4AndR := by
    intro result set1 set2 set3 set4 size h
    refine compound_replaces isTrueOn h (h set2 (by simp)) (fun x word => ?_) fun x hx => ?_
    · simp only [bit_or, bit_and, bit_compl, bit_word, and_assoc]
    · simp [hx]
  bs23Or1OrD := by
    intro set1 set2 set3 size h
    refine compound_leaves isTrueOn h (h set2 (by simp)) (fun x word hword => ?_) fun x hx => ?_
    · simp only [bit_or, bit_word, hword]
    · simp [hx]
  bs12Or3AndR := by
    intro result set1 set2 set3 size h
    refine compound_replaces isTrueOn h (h set1 (by simp)) (fun x word => ?_) fun x hx => ?_
    · simp only [bit_or, bit_and, bit_word]
    · simp [hx]
  bs3Not4Or2And1OrD := by
    intro set1 set2 set3 set4 size h
    refine compound_leaves isTrueOn h (h set2 (by simp)) (fun x word hword => ?_) fun x hx => ?_
    · simp only [bit_or, bit_and, bit_compl, bit_word, hword]
    · simp [hx]
  bs43Minus2NotOr1AndD := by
    intro set1 set2 set3 set4 size h
    refine compound_leaves isTrueOn h (h set2 (by simp)) (fun x word hword => ?_) fun x hx => ?_
    · simp only [bit_or, bit_and, bit_compl, bit_word, hword]
    · simp [hx]
  bs23Minus1OrD := by
    intro set1 set2 set3 size h
    refine compound_leaves isTrueOn h (h set2 (by simp)) (fun x word hword => ?_) fun x hx => ?_
    · simp only [bit_or, bit_and, bit_compl, bit_word, hword]
    · simp [hx]
  bs23Minus4Minus1OrD := by
    intro set1 set2 set3 set4 size h
    refine compound_leaves isTrueOn h (h set2 (by simp)) (fun x word hword => ?_) fun x hx => ?_
    · simp only [bit_or, bit_and, bit_compl, bit_word, and_assoc, hword]
    · simp [hx]

/-- A source that is too short is refused in one build, and would be read beyond its end in the other. -/
theorem bs12Or3AndR_refuses :
    bs12Or3AndR true ⟨[0]⟩ ⟨[1]⟩ ⟨[]⟩ ⟨[1]⟩ .good = .error .sizes ∧
      bs12Or3AndR false ⟨[0]⟩ ⟨[1]⟩ ⟨[]⟩ ⟨[1]⟩ .good = .error .bounds ∧
      ¬∀ (isTrueOn : Bool) (result set1 set2 set3 : Bs),
        Leaves (bs12Or3AndR isTrueOn result set1 set2 set3 .good) fun x =>
          (x ∈ set1.elements ∨ x ∈ set2.elements) ∧ x ∈ set3.elements := by
  refine ⟨rfl, rfl, fun h => ?_⟩
  obtain ⟨r, hr, -⟩ := h true ⟨[0]⟩ ⟨[1]⟩ ⟨[]⟩ ⟨[1]⟩
  cases hr

end Path64.Bitset

import Mathlib.Tactic.Ring
import Mathlib.Data.Nat.Notation

/-!
# Bit vectors that agree on a mask

* `Covers m m'` : every bit of the mask `m'` is a bit of `m`;
* `AgreeOn m x y` : `x` and `y` have the same bits wherever the mask `m` has a one
  (`AgreeOn.mono`, `AgreeOn.and`, `AgreeOn.or`, `AgreeOn.and_mask_eq`);
* `add_bit_congr`, `mul_bit_congr`, `neg_bit_congr`, `sub_bit_congr` : bit `j` of an arithmetic
  result is a function of the bits up to `j` of the operands;
* `lowOnes`, `signExtendFrom`, `rotateRightBy` : the bits of truncation, of extension from a given
  bit and of rotation within the low bits;
* `smear` : or-ing a word with its shifts by halving distances, and the bits this leaves.
-/

namespace Path64.Bits

variable {w : Nat}

/-! ## Masks -/

/-- Every bit of `m'` is a bit of `m`. -/
def Covers (m m' : BitVec w) : Prop := ∀ i, m'.getLsbD i = true → m.getLsbD i = true

theorem Covers.refl (m : BitVec w) : Covers m m := fun _ h => h

theorem Covers.trans {a b c : BitVec w} (h₁ : Covers a b) (h₂ : Covers b c) : Covers a c :=
  fun i h => h₁ i (h₂ i h)

theorem Covers.or_left (a b : BitVec w) : Covers (a ||| b) a := by
  intro i h
  rw [BitVec.getLsbD_or, h, Bool.true_or]

theorem Covers.or_right (a b : BitVec w) : Covers (a ||| b) b := by
  intro i h
  rw [BitVec.getLsbD_or, h, Bool.or_true]

theorem Covers.or {a b m : BitVec w} (ha : Covers m a) (hb : Covers m b) : Covers m (a ||| b) := by
  intro i h
  rw [BitVec.getLsbD_or, Bool.or_eq_true] at h
  exact h.elim (ha i) (hb i)

theorem covers_and_left (a b : BitVec w) : Covers a (a &&& b) := by
  intro i h
  rw [BitVec.getLsbD_and, Bool.and_eq_true] at h
  exact h.1

theorem Covers.and_right {a b : BitVec w} (h : Covers a b) (m : BitVec w) : Covers (a &&& m) (b &&& m) := by
  intro i hi
  rw [BitVec.getLsbD_and, Bool.and_eq_true] at hi
  rw [BitVec.getLsbD_and, h i hi.1, hi.2]
  rfl

theorem or_and_covers (a b m : BitVec w) : Covers ((a &&& m) ||| (b &&& m)) ((a ||| b) &&& m) := by
  intro i hi
  rw [BitVec.getLsbD_and, BitVec.getLsbD_or, Bool.and_eq_true, Bool.or_eq_true] at hi
  rcases hi with ⟨ha | hb, hm⟩
  · rw [BitVec.getLsbD_or, BitVec.getLsbD_and, ha, hm]
    rfl
  · rw [BitVec.getLsbD_or, Bool.or_eq_true]
    right
    rw [BitVec.getLsbD_and, hb, hm]
    rfl

theorem or_eq_of_covers {a b : BitVec w} (h : Covers a b) : a ||| b = a := by
  apply BitVec.eq_of_getLsbD_eq
  intro i _
  rw [BitVec.getLsbD_or]
  by_cases hb : b.getLsbD i = true
  · rw [h i hb, Bool.true_or]
  · rw [Bool.not_eq_true] at hb
    rw [hb, Bool.or_false]

theorem and_eq_of_covers {a b : BitVec w} (h : Covers b a) : a &&& b = a := by
  apply BitVec.eq_of_getLsbD_eq
  intro i hi
  rw [BitVec.getLsbD_and]
  by_cases ha : a.getLsbD i = true
  · rw [ha, h i ha]
    rfl
  · rw [Bool.not_eq_true] at ha
    rw [ha, Bool.false_and]

theorem Covers.antisymm {a b : BitVec w} (h : Covers a b) (h' : Covers b a) : a = b := by
  rw [← or_eq_of_covers h, BitVec.or_comm, or_eq_of_covers h']

theorem covers_zero (m : BitVec w) : Covers m 0#w := by
  intro i hi
  simp at hi

theorem covers_allOnes (m : BitVec w) : Covers (BitVec.allOnes w) m := by
  intro i h
  rw [BitVec.getLsbD_allOnes]
  exact decide_eq_true (BitVec.lt_of_getLsbD h)

theorem covers_of_and_not_eq_zero {m m' : BitVec w} (h : m' &&& ~~~m = 0#w) : Covers m m' := by
  intro i hi
  have hbit := congrArg (fun x => x.getLsbD i) h
  have hlt : i < w := BitVec.lt_of_getLsbD hi
  simpa [hi, hlt] using hbit

theorem ne_zero_iff_bit {m : BitVec w} : m ≠ 0#w ↔ ∃ i, m.getLsbD i = true := by
  constructor
  · intro h
    by_contra hnone
    push Not at hnone
    apply h
    apply BitVec.eq_of_getLsbD_eq
    intro i _
    simpa using hnone i
  · rintro ⟨i, hi⟩ rfl
    simp at hi

/-! ## Agreement -/

/-- `x` and `y` have the same bits wherever `m` has a one. -/
def AgreeOn (m x y : BitVec w) : Prop := ∀ i, m.getLsbD i = true → x.getLsbD i = y.getLsbD i

theorem AgreeOn.refl (m x : BitVec w) : AgreeOn m x x := fun _ _ => rfl

theorem AgreeOn.trans {m x y z : BitVec w} (h₁ : AgreeOn m x y) (h₂ : AgreeOn m y z) :
    AgreeOn m x z := fun i hi => (h₁ i hi).trans (h₂ i hi)

theorem AgreeOn.mono {m m' x y : BitVec w} (h : AgreeOn m x y) (hsub : Covers m m') :
    AgreeOn m' x y := fun i hi => h i (hsub i hi)

theorem AgreeOn.or {m m' x y : BitVec w} (h : AgreeOn m x y) (h' : AgreeOn m' x y) :
    AgreeOn (m ||| m') x y := by
  intro i hi
  rw [BitVec.getLsbD_or, Bool.or_eq_true] at hi
  exact hi.elim (h i) (h' i)

theorem AgreeOn.and_mask_eq {m x y : BitVec w} (h : AgreeOn m x y) : x &&& m = y &&& m := by
  apply BitVec.eq_of_getLsbD_eq
  intro i _
  rw [BitVec.getLsbD_and, BitVec.getLsbD_and]
  by_cases hm : m.getLsbD i = true
  · rw [h i hm]
  · rw [Bool.not_eq_true] at hm
    rw [hm, Bool.and_false, Bool.and_false]

/-! ## Arithmetic: a bit of the result needs the bits up to it -/

theorem setWidth_eq_of_bits {x y : BitVec w} {j : Nat}
    (h : ∀ i ≤ j, x.getLsbD i = y.getLsbD i) : x.setWidth (j + 1) = y.setWidth (j + 1) := by
  apply BitVec.eq_of_getLsbD_eq
  intro i hi
  rw [BitVec.getLsbD_setWidth, BitVec.getLsbD_setWidth, h i (by omega)]

theorem bit_eq_of_setWidth {x y : BitVec w} {j : Nat}
    (h : x.setWidth (j + 1) = y.setWidth (j + 1)) : x.getLsbD j = y.getLsbD j := by
  have hbit := congrArg (fun v => v.getLsbD j) h
  simpa [BitVec.getLsbD_setWidth] using hbit

theorem add_bit_congr {x x' y y' : BitVec w} {j : Nat}
    (hx : ∀ i ≤ j, x.getLsbD i = x'.getLsbD i) (hy : ∀ i ≤ j, y.getLsbD i = y'.getLsbD i) :
    (x + y).getLsbD j = (x' + y').getLsbD j := by
  by_cases hj : j < w
  · apply bit_eq_of_setWidth
    rw [BitVec.setWidth_add _ _ (by omega), BitVec.setWidth_add _ _ (by omega),
      setWidth_eq_of_bits hx, setWidth_eq_of_bits hy]
  · rw [BitVec.getLsbD_of_ge _ _ (by omega), BitVec.getLsbD_of_ge _ _ (by omega)]

theorem mul_bit_congr {x x' y y' : BitVec w} {j : Nat}
    (hx : ∀ i ≤ j, x.getLsbD i = x'.getLsbD i) (hy : ∀ i ≤ j, y.getLsbD i = y'.getLsbD i) :
    (x * y).getLsbD j = (x' * y').getLsbD j := by
  by_cases hj : j < w
  · apply bit_eq_of_setWidth
    rw [BitVec.setWidth_mul _ _ (by omega), BitVec.setWidth_mul _ _ (by omega),
      setWidth_eq_of_bits hx, setWidth_eq_of_bits hy]
  · rw [BitVec.getLsbD_of_ge _ _ (by omega), BitVec.getLsbD_of_ge _ _ (by omega)]

theorem neg_bit_congr {x x' : BitVec w} {j : Nat}
    (hx : ∀ i ≤ j, x.getLsbD i = x'.getLsbD i) : (-x).getLsbD j = (-x').getLsbD j := by
  by_cases hj : j < w
  · apply bit_eq_of_setWidth
    rw [BitVec.setWidth_neg_of_le (by omega), BitVec.setWidth_neg_of_le (by omega),
      setWidth_eq_of_bits hx]
  · rw [BitVec.getLsbD_of_ge _ _ (by omega), BitVec.getLsbD_of_ge _ _ (by omega)]

theorem sub_bit_congr {x x' y y' : BitVec w} {j : Nat}
    (hx : ∀ i ≤ j, x.getLsbD i = x'.getLsbD i) (hy : ∀ i ≤ j, y.getLsbD i = y'.getLsbD i) :
    (x - y).getLsbD j = (x' - y').getLsbD j := by
  rw [BitVec.sub_eq_add_neg, BitVec.sub_eq_add_neg]
  exact add_bit_congr hx fun i hi => neg_bit_congr fun k hk => hy k (by omega)

/-! ## The low bits of a word -/

/-- The mask of the low `k` bits. -/
def lowOnes (w k : Nat) : BitVec w := (BitVec.allOnes k).setWidth w

@[simp] theorem getLsbD_lowOnes (k i : Nat) :
    (lowOnes w k).getLsbD i = (decide (i < w) && decide (i < k)) := by
  rw [lowOnes, BitVec.getLsbD_setWidth, BitVec.getLsbD_allOnes]

theorem lowOnes_of_le {k : Nat} (h : w ≤ k) : lowOnes w k = BitVec.allOnes w := by
  apply BitVec.eq_of_getLsbD_eq
  intro i hi
  simp [hi, show i < k by omega]

/-- The word whose bits below `k` are those of `x` and whose other bits are copies of bit `k - 1`. -/
def signExtendFrom (k : Nat) (x : BitVec w) : BitVec w :=
  if x.getLsbD (k - 1) then x ||| ~~~lowOnes w k else x &&& lowOnes w k

theorem getLsbD_signExtendFrom {k : Nat} (x : BitVec w) {i : Nat} (hi : i < w) :
    (signExtendFrom k x).getLsbD i = if i < k then x.getLsbD i else x.getLsbD (k - 1) := by
  unfold signExtendFrom
  by_cases hs : x.getLsbD (k - 1) = true
  · rw [if_pos hs, BitVec.getLsbD_or, BitVec.getLsbD_not, getLsbD_lowOnes]
    by_cases hk : i < k <;> simp only [hs, hk, hi, decide_true, decide_false, Bool.and_self,
      Bool.and_false, Bool.not_true, Bool.not_false, Bool.or_false, Bool.or_true, if_true, if_false]
  · rw [if_neg hs, BitVec.getLsbD_and, getLsbD_lowOnes]
    rw [Bool.not_eq_true] at hs
    by_cases hk : i < k <;> simp only [hs, hk, hi, decide_true, decide_false, Bool.and_self,
      Bool.and_false, Bool.and_true, if_true, if_false]

/-- Rotation to the right by `s` of the low `r` bits, the others cleared. -/
def rotateRightBy (r s : Nat) (x : BitVec w) : BitVec w :=
  (((x &&& lowOnes w r) >>> s) ||| (x <<< (r - s))) &&& lowOnes w r

theorem getLsbD_rotateRightBy {r s i : Nat} (x : BitVec w) (hr : r ≤ w) (hs : s < r) (hi : i < r) :
    (rotateRightBy r s x).getLsbD i = x.getLsbD ((i + s) % r) := by
  have hiw : i < w := by omega
  simp only [rotateRightBy, BitVec.getLsbD_and, BitVec.getLsbD_or, BitVec.getLsbD_ushiftRight,
    BitVec.getLsbD_shiftLeft, getLsbD_lowOnes, hi, hiw, decide_true, Bool.and_true, Bool.true_and]
  by_cases hwrap : i + s < r
  · have hlt : i < r - s := by omega
    rw [Nat.mod_eq_of_lt hwrap]
    simp only [hlt, Nat.add_comm s i, hwrap, show i + s < w by omega, decide_true, Bool.and_true,
      Bool.not_true, Bool.false_and, Bool.or_false]
  · have hge : ¬ i < r - s := by omega
    have hmod : (i + s) % r = i - (r - s) := by
      rw [Nat.mod_eq_sub_mod (by omega), Nat.mod_eq_of_lt (by omega)]
      omega
    rw [hmod]
    simp only [hge, Nat.add_comm s i, hwrap, decide_false, Bool.and_false, Bool.not_false,
      Bool.true_and, Bool.false_or]

/-! ## Smearing a word to the right -/

/-- One stage: the word or-ed with itself shifted right by `d`. -/
def smear (d : Nat) (x : BitVec w) : BitVec w := x ||| (x >>> d)

/-- If the bits of `x` are those of `m` at `n` offsets `2 * d` apart, smearing by `d` doubles the
number of offsets and halves their distance. -/
theorem smear_spread {m x : BitVec w} {n d : Nat}
    (h : ∀ i, x.getLsbD i = true ↔ ∃ a < n, m.getLsbD (i + a * (2 * d)) = true) (i : Nat) :
    (smear d x).getLsbD i = true ↔ ∃ a < 2 * n, m.getLsbD (i + a * d) = true := by
  rw [smear, BitVec.getLsbD_or, BitVec.getLsbD_ushiftRight, Bool.or_eq_true, h i, h (d + i)]
  constructor
  · rintro (⟨a, ha, hm⟩ | ⟨a, ha, hm⟩)
    · refine ⟨2 * a, by omega, ?_⟩
      rwa [show i + 2 * a * d = i + a * (2 * d) by ring]
    · refine ⟨2 * a + 1, by omega, ?_⟩
      rwa [show i + (2 * a + 1) * d = d + i + a * (2 * d) by ring]
  · rintro ⟨a, ha, hm⟩
    rcases Nat.even_or_odd' a with ⟨b, rfl | rfl⟩
    · refine Or.inl ⟨b, by omega, ?_⟩
      rwa [show i + b * (2 * d) = i + 2 * b * d by ring]
    · refine Or.inr ⟨b, by omega, ?_⟩
      rwa [show d + i + b * (2 * d) = i + (2 * b + 1) * d by ring]

end Path64.Bits

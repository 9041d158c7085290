import Mathlib.Algebra.BigOperators.Ring.Finset
import Mathlib.Algebra.GCDMonoid.Finset
import Mathlib.Algebra.GCDMonoid.Nat
import Mathlib.Algebra.Order.Field.Basic
import Mathlib.Algebra.Order.Ring.Int
import Mathlib.Data.Int.Cast.Lemmas
import Mathlib.Data.Int.GCD
import Mathlib.Tactic.Linarith
import Mathlib.Tactic.Ring

/-!
# Linear inequalities with integer coefficients

* `dot` : the value of a row of coefficients at a point of an ordered ring;
* `exists_dot_eq_gcd` : a row takes its greatest common divisor at some integer point;
* `forall_imp_iff` : when one of two multiples of a row implies the other at every integer point;
* `exists_forall_mul_le_iff` : the bounds on one unknown have a common value just when each lower bound is below each
  upper bound.
-/

namespace Path64.Lib

open Finset

/-! ## Rows -/

section Rows

variable {K : Type*} [CommRing K] {n : Nat} {a b : Nat → Int} {x : Nat → K}

/-- The value of a row of coefficients. -/
def dot (n : Nat) (a : Nat → Int) (x : Nat → K) : K := ∑ j ∈ range n, (a j : K) * x j

theorem dot_congr (h : ∀ j < n, a j = b j) : dot n a x = dot n b x :=
  sum_congr rfl fun j hj => by rw [h j (mem_range.1 hj)]

theorem dot_eq_zero (h : ∀ j < n, a j = 0) : dot n a x = 0 :=
  sum_eq_zero fun j hj => by rw [h j (mem_range.1 hj), Int.cast_zero, zero_mul]

theorem mul_dot (c : Int) : (c : K) * dot n a x = dot n (fun j => c * a j) x := by
  unfold dot
  rw [mul_sum]
  refine sum_congr rfl fun j _ => ?_
  rw [Int.cast_mul, mul_assoc]

theorem dot_add : dot n a x + dot n b x = dot n (fun j => a j + b j) x := by
  unfold dot
  rw [← sum_add_distrib]
  refine sum_congr rfl fun j _ => ?_
  rw [Int.cast_add, add_mul]

theorem dot_update {i : Nat} (hi : i < n) (t : K) :
    dot n a (Function.update x i t) = dot n a x + (a i : K) * (t - x i) := by
  have hsplit : ∀ y : Nat → K, dot n a y = (a i : K) * y i + ∑ j ∈ (range n).erase i, (a j : K) * y j := fun y =>
    (add_sum_erase _ _ (mem_range.2 hi)).symm
  rw [hsplit, hsplit, Function.update_self]
  have hrest : ∑ j ∈ (range n).erase i, (a j : K) * Function.update x i t j =
      ∑ j ∈ (range n).erase i, (a j : K) * x j := by
    refine sum_congr rfl fun j hj => ?_
    rw [Function.update_of_ne (ne_of_mem_erase hj)]
  rw [hrest]
  ring

theorem dot_update_coeff {i : Nat} (hi : i < n) (c : Int) :
    dot n (Function.update a i c) x = dot n a x + ((c : K) - a i) * x i := by
  have hsplit : ∀ b : Nat → Int, dot n b x = (b i : K) * x i + ∑ j ∈ (range n).erase i, (b j : K) * x j := fun b =>
    (add_sum_erase _ _ (mem_range.2 hi)).symm
  rw [hsplit, hsplit, Function.update_self]
  have hrest : ∑ j ∈ (range n).erase i, ((Function.update a i c j : Int) : K) * x j =
      ∑ j ∈ (range n).erase i, (a j : K) * x j := by
    refine sum_congr rfl fun j hj => ?_
    rw [Function.update_of_ne (ne_of_mem_erase hj)]
  rw [hrest]
  ring

theorem dot_update_of_eq_zero {i : Nat} (hzero : a i = 0) (t : K) :
    dot n a (Function.update x i t) = dot n a x := by
  refine sum_congr rfl fun j _ => ?_
  by_cases hj : j = i
  · rw [hj, hzero, Int.cast_zero, zero_mul, zero_mul]
  · rw [Function.update_of_ne hj]

theorem dot_update_of_le {i : Nat} (hi : n ≤ i) (t : K) : dot n a (Function.update x i t) = dot n a x := by
  refine sum_congr rfl fun j hj => ?_
  have hj' := mem_range.1 hj
  rw [Function.update_of_ne (by omega)]

theorem dot_sub_mul (c : Int) : dot n (fun j => b j - c * a j) x = dot n b x - c * dot n a x := by
  unfold dot
  rw [mul_sum, ← sum_sub_distrib]
  refine sum_congr rfl fun j _ => ?_
  rw [Int.cast_sub, Int.cast_mul]
  ring

theorem dot_le_of_multiple [LinearOrder K] [IsStrictOrderedRing K] {p q c d : Int} (hp : 0 < p) (hq : 0 ≤ q)
    (h : ∀ j < n, p * b j = q * a j) (hconst : q * c ≤ p * d) (hx : dot n a x ≤ (c : K)) : dot n b x ≤ (d : K) := by
  have hpos : (0 : K) < p := Int.cast_pos.2 hp
  refine le_of_mul_le_mul_left ?_ hpos
  calc (p : K) * dot n b x = q * dot n a x := by rw [mul_dot, mul_dot, dot_congr h]
    _ ≤ q * c := mul_le_mul_of_nonneg_left hx (Int.cast_nonneg hq)
    _ ≤ p * d := by
      rw [← Int.cast_mul, ← Int.cast_mul]
      exact Int.cast_le.2 hconst

end Rows

/-! ## Integer points -/

theorem exists_update_dot_eq {n i : Nat} {a : Nat → Int} (hi : i < n) (hunit : a i = 1 ∨ a i = -1) (c : Int) (x : Nat → Int) :
    ∃ t, dot n a (Function.update x i t) = c := by
  refine ⟨x i + a i * (c - dot n a x), ?_⟩
  rw [dot_update hi]
  simp only [Int.cast_id]
  rcases hunit with h | h <;> rw [h] <;> ring

theorem dvd_dot_sub_dot {n : Nat} {a b : Nat → Int} {m : Int} (h : ∀ j < n, m ∣ a j - b j) (x : Nat → Int) :
    m ∣ dot n a x - dot n b x := by
  unfold dot
  rw [← sum_sub_distrib]
  refine dvd_sum fun j hj => ?_
  rw [← sub_mul]
  exact Dvd.dvd.mul_right (h j (mem_range.1 hj)) _

/-- A row takes its greatest common divisor. -/
theorem exists_dot_eq_gcd (a : Nat → Int) (n : Nat) : ∃ x : Nat → Int, dot n a x = (range n).gcd a := by
  induction n with
  | zero => exact ⟨fun _ => 0, by simp [dot]⟩
  | succ n ih =>
    obtain ⟨x, hx⟩ := ih
    -- the coefficients of Bezout's identity for the last entry and the divisor so far
    refine ⟨fun j => if j = n then Int.gcdA (a n) ((range n).gcd a) else x j * Int.gcdB (a n) ((range n).gcd a), ?_⟩
    rw [range_add_one, gcd_insert]
    have hlast : dot (n + 1) a (fun j => if j = n then Int.gcdA (a n) ((range n).gcd a)
        else x j * Int.gcdB (a n) ((range n).gcd a)) =
        dot n a x * Int.gcdB (a n) ((range n).gcd a) + a n * Int.gcdA (a n) ((range n).gcd a) := by
      unfold dot
      dsimp only
      rw [sum_range_succ, if_pos rfl, sum_mul]
      refine congrArg (· + _) (sum_congr rfl fun j hj => ?_)
      rw [if_neg (mem_range.1 hj).ne, mul_assoc]
    rw [hlast, hx, ← Int.coe_gcd, Int.gcd_eq_gcd_ab]
    ring

theorem dot_le_iff_of_factor {n : Nat} {a p : Nat → Int} {g : Int} (hg : 0 < g) (h : ∀ j < n, a j = g * p j)
    (x : Nat → Int) (c : Int) : dot n a x ≤ c ↔ dot n p x ≤ c / g := by
  have hdot : dot n a x = dot n p x * g := by
    rw [dot_congr h, ← mul_dot, mul_comm]
    rfl
  rw [hdot, Int.le_ediv_iff_mul_le hg]

/-- Two multiples of a row without a common factor: one implies the other at the integer points just when the rounded
constants say so. -/
theorem forall_imp_iff {n : Nat} {a b p : Nat → Int} {g₁ g₂ : Int} (hg₁ : 0 < g₁) (hg₂ : 0 < g₂)
    (ha : ∀ j < n, a j = g₁ * p j) (hb : ∀ j < n, b j = g₂ * p j) (hp : (range n).gcd p = 1) (c₁ c₂ : Int) :
    (∀ x : Nat → Int, dot n a x ≤ c₁ → dot n b x ≤ c₂) ↔ c₁ / g₁ ≤ c₂ / g₂ := by
  constructor
  · intro h
    obtain ⟨x, hx⟩ := exists_dot_eq_gcd p n
    rw [hp] at hx
    have hpoint : dot n p (fun j => (c₁ / g₁) * x j) = c₁ / g₁ := by
      have hscale : dot n p (fun j => (c₁ / g₁) * x j) = (c₁ / g₁) * dot n p x := by
        unfold dot
        rw [mul_sum]
        refine sum_congr rfl fun j _ => ?_
        ring
      rw [hscale, hx, mul_one]
    have himp := h (fun j => (c₁ / g₁) * x j)
    rw [dot_le_iff_of_factor hg₁ ha, dot_le_iff_of_factor hg₂ hb, hpoint] at himp
    exact himp le_rfl
  · intro h x
    rw [dot_le_iff_of_factor hg₁ ha, dot_le_iff_of_factor hg₂ hb]
    exact fun hx => hx.trans h

theorem exists_primitive {n : Nat} {a b : Nat → Int} {p q : Int} (hp : 0 < p) (hq : 0 < q)
    (h : ∀ j < n, p * b j = q * a j) {i : Nat} (hi : i < n) (hne : a i ≠ 0) :
    0 < (range n).gcd a ∧ 0 < (range n).gcd b ∧ ∃ c : Nat → Int, (range n).gcd c = 1 ∧
      (∀ j < n, a j = (range n).gcd a * c j) ∧ ∀ j < n, b j = (range n).gcd b * c j := by
  have hnonneg : ∀ f : Nat → Int, 0 ≤ (range n).gcd f := fun f =>
    Int.nonneg_of_normalize_eq_self (normalize_gcd)
  have hpos : ∀ f : Nat → Int, f i ≠ 0 → 0 < (range n).gcd f := fun f hf =>
    lt_of_le_of_ne (hnonneg f) fun hzero => hf (gcd_eq_zero_iff.1 hzero.symm i (mem_range.2 hi))
  have hb : b i ≠ 0 := by
    intro hzero
    have := h i hi
    rw [hzero, mul_zero] at this
    exact mul_ne_zero hq.ne' hne this.symm
  refine ⟨hpos a hne, hpos b hb, ?_⟩
  obtain ⟨c, hc, hone⟩ := extract_gcd a ⟨i, mem_range.2 hi⟩
  have ha : ∀ j < n, a j = (range n).gcd a * c j := fun j hj => hc j (mem_range.2 hj)
  have hgcd : p * (range n).gcd b = q * (range n).gcd a := by
    have hleft : (range n).gcd (fun j => p * b j) = p * (range n).gcd b := by
      rw [Finset.gcd_mul_left, Int.normalize_of_nonneg hp.le]
    have hright : (range n).gcd (fun j => q * a j) = q * (range n).gcd a := by
      rw [Finset.gcd_mul_left, Int.normalize_of_nonneg hq.le]
    rw [← hleft, ← hright]
    exact gcd_congr rfl fun j hj => h j (mem_range.1 hj)
  refine ⟨c, hone, ha, fun j hj => mul_left_cancel₀ hp.ne' ?_⟩
  rw [h j hj, ha j hj, ← mul_assoc, ← mul_assoc, hgcd]

/-! ## One unknown -/

/-- Finitely many bounds `a r * t ≤ b r` on one unknown have a common value just when those without it hold and each pair of
an upper and a lower bound is consistent. -/
theorem exists_forall_mul_le_iff {K ι : Type*} [Field K] [LinearOrder K] [IsStrictOrderedRing K] (s : Finset ι)
    (a b : ι → K) :
    (∃ t, ∀ r ∈ s, a r * t ≤ b r) ↔
      (∀ r ∈ s, a r = 0 → 0 ≤ b r) ∧ ∀ p ∈ s, ∀ q ∈ s, 0 < a p → a q < 0 → 0 ≤ -a q * b p + a p * b q := by
  constructor
  · rintro ⟨t, ht⟩
    refine ⟨fun r hr hzero => ?_, fun p hp q hq hpos hneg => ?_⟩
    · have hr := ht r hr
      rwa [hzero, zero_mul] at hr
    · have hup := mul_le_mul_of_nonneg_left (ht p hp) (neg_pos.2 hneg).le
      have hlow := mul_le_mul_of_nonneg_left (ht q hq) hpos.le
      linarith [show -a q * (a p * t) + a p * (a q * t) = 0 by ring]
  · rintro ⟨hzero, hpair⟩
    have hpick : ∃ t, (∀ q ∈ s, a q < 0 → b q / a q ≤ t) ∧ ∀ p ∈ s, 0 < a p → t ≤ b p / a p := by
      have hcross : ∀ p ∈ s, ∀ q ∈ s, 0 < a p → a q < 0 → b q / a q ≤ b p / a p := by
        intro p hp q hq hpos hneg
        rw [div_le_iff_of_neg hneg, div_mul_eq_mul_div, div_le_iff₀ hpos]
        linarith [hpair p hp q hq hpos hneg]
      rcases (s.filter fun q => a q < 0).eq_empty_or_nonempty with hlow | hlow
      · rcases (s.filter fun p => 0 < a p).eq_empty_or_nonempty with hup | hup
        · refine ⟨0, fun q hq hneg => ?_, fun p hp hpos => ?_⟩
          · exact absurd (mem_filter.2 ⟨hq, hneg⟩) (by rw [hlow]; exact notMem_empty q)
          · exact absurd (mem_filter.2 ⟨hp, hpos⟩) (by rw [hup]; exact notMem_empty p)
        · obtain ⟨p, -, hmin⟩ := exists_min_image _ (fun p => b p / a p) hup
          refine ⟨b p / a p, fun q hq hneg => ?_, fun p' hp' hpos => hmin p' (mem_filter.2 ⟨hp', hpos⟩)⟩
          exact absurd (mem_filter.2 ⟨hq, hneg⟩) (by rw [hlow]; exact notMem_empty q)
      · obtain ⟨q, hq, hmax⟩ := exists_max_image _ (fun q => b q / a q) hlow
        obtain ⟨hqs, hqneg⟩ := mem_filter.1 hq
        refine ⟨b q / a q, fun q' hq' hneg => hmax q' (mem_filter.2 ⟨hq', hneg⟩), fun p hp hpos => ?_⟩
        exact hcross p hp q hqs hpos hqneg
    obtain ⟨t, hlow, hup⟩ := hpick
    refine ⟨t, fun r hr => ?_⟩
    rcases lt_trichotomy (a r) 0 with hneg | heq | hpos
    · have h := (div_le_iff_of_neg hneg).1 (hlow r hr hneg)
      rwa [mul_comm] at h
    · rw [heq, zero_mul]
      exact hzero r hr heq
    · have h := (le_div_iff₀ hpos).1 (hup r hr hpos)
      rwa [mul_comm] at h

end Path64.Lib

import Path64.DivRem.Expand
import Path64.Lib.Magic

/-!
# What `determine_pseudo_inverse` returns

* `inverseWidth_spec` : `n` is the number of bits of the divisor;
* `Tracks`, `Behind` : the loop's words follow the true quotient, or have lost it for good;
* `determinePseudoInverse_eq` : without a lost bit the result is the rounded-up reciprocal;
* `determinePseudoInverse_behind` : a doubled remainder of `2^64` or more makes the result too small.
-/

namespace Path64.DivRem

open Lib

/-- The words of the first loop: `m = 2^n - 1`. -/
theorem inverseWidth_spec {b : Nat} (hb : b ≤ 2 ^ 64) (fuel n : Nat) (hfuel : 64 ≤ n + fuel) (hn : n ≤ 64)
    (hlow : n = 1 ∨ 2 ^ (n - 1) < b) (hn1 : 1 ≤ n) :
    let r := inverseWidth (b - 1) fuel n (2 ^ n - 1)
    r.2 = 2 ^ r.1 - 1 ∧ 1 ≤ r.1 ∧ r.1 ≤ 64 ∧ b ≤ 2 ^ r.1 ∧ (r.1 = 1 ∨ 2 ^ (r.1 - 1) < b) := by
  induction fuel generalizing n with
  | zero =>
    have h64 : n = 64 := by omega
    subst h64
    exact ⟨rfl, hn1, le_rfl, hb, hlow⟩
  | succ fuel ih =>
    have hpos := Nat.two_pow_pos n
    rw [inverseWidth]
    split_ifs with hlt
    · have hlt64 : n < 64 := by
        by_contra hge
        have h64 : n = 64 := by omega
        subst h64
        omega
      have hdouble : (2 * (2 ^ n - 1) + 1) % 2 ^ 64 = 2 ^ (n + 1) - 1 := by
        have hle : 2 ^ (n + 1) ≤ 2 ^ 64 := Nat.pow_le_pow_right (by norm_num) (by omega)
        rw [pow_succ] at hle ⊢
        omega
      rw [hdouble]
      exact ih (n + 1) (by omega) (by omega) (Or.inr (by rw [Nat.add_sub_cancel]; omega)) (by omega)
    · exact ⟨rfl, hn1, hn, show b ≤ 2 ^ n by omega, hlow⟩

/-! ## The quotient bit by bit -/

/-- The quotient and the remainder after `k` steps: of `2^(p+k) - 1`, for `p = n - 1`. -/
def trueQuotient (b p k : Nat) : Nat := (2 ^ (p + k) - 1) / b

def trueRemainder (b p k : Nat) : Nat := (2 ^ (p + k) - 1) % b

theorem true_succ {b : Nat} (hb : 0 < b) (p k : Nat) :
    trueQuotient b p (k + 1) = 2 * trueQuotient b p k + (if b ≤ 2 * trueRemainder b p k + 1 then 1 else 0) ∧
      trueRemainder b p (k + 1) = 2 * trueRemainder b p k + 1 - (if b ≤ 2 * trueRemainder b p k + 1 then b else 0) := by
  unfold trueQuotient trueRemainder
  have hpos := Nat.two_pow_pos (p + k)
  have hnext : 2 ^ (p + (k + 1)) - 1 = 2 * (2 ^ (p + k) - 1) + 1 := by
    rw [← Nat.add_assoc, pow_succ]
    omega
  rw [hnext]
  have hdm := Nat.div_add_mod (2 ^ (p + k) - 1) b
  have hr := Nat.mod_lt (2 ^ (p + k) - 1) hb
  set T := 2 ^ (p + k) - 1
  set q := T / b
  set r := T % b
  have hT : 2 * T + 1 = b * (2 * q) + (2 * r + 1) := by rw [← hdm]; ring
  split_ifs with hge
  · have hT' : 2 * T + 1 = b * (2 * q + 1) + (2 * r + 1 - b) := by
      rw [Nat.mul_add, Nat.mul_one]
      omega
    rw [hT', Nat.mul_add_div hb, Nat.div_eq_of_lt (by omega), Nat.mul_add_mod, Nat.mod_eq_of_lt (by omega)]
    exact ⟨rfl, rfl⟩
  · rw [hT, Nat.mul_add_div hb, Nat.div_eq_of_lt (by omega), Nat.mul_add_mod, Nat.mod_eq_of_lt (by omega)]
    exact ⟨rfl, rfl⟩

/-- After `k` steps the words are the true ones; the next remainder may already have lost its top bit. -/
structure Tracks (b p k : Nat) (s : Nat × Nat) : Prop where
  remainder : s.1 = (2 * trueRemainder b p k + 1) % 2 ^ 64
  quotient : s.2 = trueQuotient b p k % 2 ^ 64

/-- A bit was lost: the quotient, taken without wrapping, stays below the true one. -/
def Behind (b p k : Nat) (s : Nat × Nat) : Prop :=
  ∃ q, s.2 = q % 2 ^ 64 ∧ q < trueQuotient b p k ∧ 2 ^ k ≤ 2 * q

variable {b p k i : Nat} {s : Nat × Nat}

theorem inverseStep_eq : inverseStep b s i =
    if b ≤ s.1 then ((2 * (s.1 - b) + 1) % 2 ^ 64, 2 * s.2 % 2 ^ 64 + 1)
    else ((2 * s.1 + 1) % 2 ^ 64, 2 * s.2 % 2 ^ 64) := by
  unfold inverseStep
  split_ifs <;> rfl

theorem Tracks.step (i : Nat) (hb : 0 < b) (h : Tracks b p k s) (hsmall : trueRemainder b p k < 2 ^ 63) :
    Tracks b p (k + 1) (inverseStep b s i) := by
  have hrem : s.1 = 2 * trueRemainder b p k + 1 := by rw [h.remainder, Nat.mod_eq_of_lt (by omega)]
  have hquot := h.quotient
  obtain ⟨hq, hr⟩ := true_succ hb p k
  rw [inverseStep_eq, hrem]
  split_ifs at hq hr ⊢ with hge
  · refine ⟨by rw [hr], ?_⟩
    show 2 * s.2 % 2 ^ 64 + 1 = _
    omega
  · refine ⟨by rw [hr, Nat.sub_zero], ?_⟩
    show 2 * s.2 % 2 ^ 64 = _
    omega

/-- The doubled remainder does not fit: the step computes the bit 0 where the true bit is 1. -/
theorem Tracks.step_lost (i : Nat) (h : Tracks b p k s) (hb : b < 2 ^ 64) (hlost : 2 ^ 63 ≤ trueRemainder b p k)
    (hlow : 2 ^ k ≤ 2 * trueQuotient b p k) : Behind b p (k + 1) (inverseStep b s i) := by
  have hb0 : 0 < b := by
    by_contra h0
    have hb0 : b = 0 := by omega
    rw [hb0, trueQuotient, Nat.div_zero] at hlow
    have := Nat.two_pow_pos k
    omega
  have hr : trueRemainder b p k < b := Nat.mod_lt _ hb0
  have hrem : s.1 = 2 * trueRemainder b p k + 1 - 2 ^ 64 := by
    rw [h.remainder]
    omega
  obtain ⟨hq, -⟩ := true_succ hb0 p k
  rw [if_pos (by omega)] at hq
  have hquot := h.quotient
  refine ⟨2 * trueQuotient b p k, ?_, by omega, by rw [pow_succ]; omega⟩
  rw [inverseStep_eq, if_neg (by omega)]
  show 2 * s.2 % 2 ^ 64 = _
  omega

theorem Behind.step (i : Nat) (hb : 0 < b) (h : Behind b p k s) : Behind b p (k + 1) (inverseStep b s i) := by
  obtain ⟨q, hs, hlt, hlow⟩ := h
  obtain ⟨hq, -⟩ := true_succ hb p k
  have hle : 2 * trueQuotient b p k ≤ trueQuotient b p (k + 1) := by omega
  rw [inverseStep_eq]
  split_ifs
  · refine ⟨2 * q + 1, ?_, by omega, by rw [pow_succ]; omega⟩
    show 2 * s.2 % 2 ^ 64 + 1 = _
    omega
  · refine ⟨2 * q, ?_, by omega, by rw [pow_succ]; omega⟩
    show 2 * s.2 % 2 ^ 64 = _
    omega

theorem foldl_tracks (hb : 0 < b) (s₀ : Nat × Nat) (h₀ : Tracks b p 0 s₀) (k : Nat)
    (hsmall : ∀ j < k, trueRemainder b p j < 2 ^ 63) : Tracks b p k ((List.range k).foldl (inverseStep b) s₀) := by
  induction k with
  | zero => exact h₀
  | succ k ih =>
    rw [List.range_succ, List.foldl_append]
    exact (ih fun j hj => hsmall j (by omega)).step k hb (hsmall k (by omega))

theorem foldl_behind (hb : 0 < b) (hb64 : b < 2 ^ 64) (s₀ : Nat × Nat) (h₀ : Tracks b p 0 s₀)
    (hlow : ∀ j, 2 ^ 63 ≤ trueRemainder b p j → 2 ^ j ≤ 2 * trueQuotient b p j) (k : Nat)
    (hlost : ∃ j < k, 2 ^ 63 ≤ trueRemainder b p j) : Behind b p k ((List.range k).foldl (inverseStep b) s₀) := by
  induction k with
  | zero =>
    obtain ⟨j, hj, -⟩ := hlost
    omega
  | succ k ih =>
    rw [List.range_succ, List.foldl_append]
    by_cases hbefore : ∃ j < k, 2 ^ 63 ≤ trueRemainder b p j
    · exact (ih hbefore).step k hb
    · -- this is the first step that loses a bit
      have htracks := foldl_tracks hb s₀ h₀ k fun j hj => not_le.mp fun h => hbefore ⟨j, hj, h⟩
      obtain ⟨j, hj, hjlost⟩ := hlost
      have hjk : j = k := by
        by_contra hne
        exact hbefore ⟨j, by omega, hjlost⟩
      rw [hjk] at hjlost
      exact htracks.step_lost k hb64 hjlost (hlow k hjlost)

/-! ## The result -/

/-- `*pn`: the number of bits of `b - 1`. -/
structure IsWidth (b n : Nat) : Prop where
  pos : 1 ≤ n
  le : n ≤ 64
  upper : b ≤ 2 ^ n
  lower : 2 ^ (n - 1) < b

theorem inverseWidth_isWidth (hb : b < 2 ^ 64) (h2 : 2 ≤ b) :
    ∃ n, inverseWidth (b - 1) 64 1 1 = (n, 2 ^ n - 1) ∧ IsWidth b n := by
  obtain ⟨hm, hpos, hle, hup, hlow⟩ := inverseWidth_spec hb.le 64 1 (by omega) (by omega) (Or.inl rfl) le_rfl
  set r := inverseWidth (b - 1) 64 1 (2 ^ 1 - 1) with hr
  refine ⟨r.1, ?_, hpos, hle, hup, ?_⟩
  · rw [← hm]
    exact hr.symm
  · rcases hlow with h1 | hlow
    · rw [h1]
      omega
    · exact hlow

theorem tracks_zero {n : Nat} (h : IsWidth b n) : Tracks b (n - 1) 0 (2 ^ n - 1, 0) := by
  have hlow := h.lower
  have hpos := Nat.two_pow_pos (n - 1)
  have hsucc : 2 ^ n = 2 * 2 ^ (n - 1) := by
    rw [← pow_succ', Nat.sub_add_cancel h.pos]
  have hle : 2 ^ n ≤ 2 ^ 64 := Nat.pow_le_pow_right (by norm_num) h.le
  have hrem : trueRemainder b (n - 1) 0 = 2 ^ (n - 1) - 1 := Nat.mod_eq_of_lt (show 2 ^ (n - 1) - 1 < b by omega)
  refine ⟨?_, ?_⟩
  · rw [hrem]
    show 2 ^ n - 1 = _
    omega
  · rw [trueQuotient, Nat.add_zero, Nat.div_eq_of_lt (by omega), Nat.zero_mod]

/-- The rounded-up reciprocal, modulo the word. -/
theorem determinePseudoInverse_eq {maxbits n : Nat}
    (hn : inverseWidth (b - 1) 64 1 1 = (n, 2 ^ n - 1)) (hw : IsWidth b n)
    (hb : 0 < b) (hsmall : ∀ j < maxbits + 1, trueRemainder b (n - 1) j < 2 ^ 63) :
    determinePseudoInverse b maxbits = (((2 ^ (n + maxbits) - 1) / b + 1) % 2 ^ 64, n) := by
  have htracks := foldl_tracks hb _ (tracks_zero hw) (maxbits + 1) hsmall
  have hpos := hw.pos
  unfold determinePseudoInverse
  rw [hn]
  simp only [htracks.quotient, trueQuotient]
  rw [show n - 1 + (maxbits + 1) = n + maxbits by omega, Nat.add_comm 1, Nat.mod_add_mod]

theorem determinePseudoInverse_small (maxbits : Nat) (hb : b ≤ 2 ^ 63) (h2 : 2 ≤ b) :
    ∃ n, IsWidth b n ∧ determinePseudoInverse b maxbits = (((2 ^ (n + maxbits) - 1) / b + 1) % 2 ^ 64, n) := by
  obtain ⟨n, hn, hw⟩ := inverseWidth_isWidth (b := b) (by omega) h2
  refine ⟨n, hw, determinePseudoInverse_eq hn hw (by omega) fun j _ => ?_⟩
  exact lt_of_lt_of_le (Nat.mod_lt _ (by omega)) hb

theorem reciprocal_bounds {n : Nat} (maxbits : Nat) (hw : IsWidth b n) (hb : b ≤ 2 ^ maxbits) :
    2 ^ maxbits ≤ (2 ^ (n + maxbits) - 1) / b + 1 ∧ (2 ^ (n + maxbits) - 1) / b + 1 < 2 ^ (maxbits + 1) := by
  have hlow := hw.lower
  have hsucc : 2 ^ n = 2 * 2 ^ (n - 1) := by
    rw [← pow_succ', Nat.sub_add_cancel hw.pos]
  have hb0 : 0 < b := by omega
  obtain ⟨hover, -⟩ := ceil_over hb0 (Nat.two_pow_pos (n + maxbits))
  constructor
  · refine Nat.le_of_mul_le_mul_right (c := b) ?_ hb0
    calc 2 ^ maxbits * b ≤ 2 ^ maxbits * 2 ^ n := Nat.mul_le_mul_left _ hw.upper
      _ = 2 ^ (n + maxbits) := by rw [← pow_add, Nat.add_comm]
      _ ≤ _ := hover
  · have hlt : (2 ^ (n + maxbits) - 1) / b < 2 ^ (maxbits + 1) - 1 := by
      rw [Nat.div_lt_iff_lt_mul hb0]
      have h1 : 2 ^ n + 1 ≤ 2 * b := by omega
      have h2 : 2 ^ (n + maxbits) + 2 ^ maxbits ≤ 2 ^ (maxbits + 1) * b := by
        calc 2 ^ (n + maxbits) + 2 ^ maxbits = 2 ^ maxbits * (2 ^ n + 1) := by rw [pow_add]; ring
          _ ≤ 2 ^ maxbits * (2 * b) := Nat.mul_le_mul_left _ h1
          _ = 2 ^ (maxbits + 1) * b := by rw [pow_succ]; ring
      have hpos := Nat.two_pow_pos (n + maxbits)
      rw [Nat.sub_mul]
      omega
    omega

/-- Divisors above half the range: `n` is the word width. -/
theorem inverseWidth_large (hb : b < 2 ^ 64) (hlarge : 2 ^ 63 < b) :
    inverseWidth (b - 1) 64 1 1 = (64, 2 ^ 64 - 1) ∧ IsWidth b 64 := by
  obtain ⟨n, hn, hw⟩ := inverseWidth_isWidth hb (by omega)
  have h64 : n = 64 := by
    by_contra hne
    have hle := hw.le
    have hup := hw.upper
    have : 2 ^ n ≤ 2 ^ 63 := Nat.pow_le_pow_right (by norm_num) (by omega)
    omega
  rw [h64] at hn hw
  exact ⟨hn, hw⟩

/-- With a lost bit the multiplier, its implicit top bit included, is at most the rounded-down reciprocal. -/
theorem determinePseudoInverse_behind (hb : b < 2 ^ 64) (hlarge : 2 ^ 63 < b)
    (hlost : ∃ i < 64, 2 ^ 63 ≤ (2 ^ (64 + i) - 1) % b) :
    ∃ d, determinePseudoInverse b 64 = (d, 64) ∧ (2 ^ 64 + d) * b < 2 ^ 128 := by
  obtain ⟨hn, hw⟩ := inverseWidth_large hb hlarge
  have hb0 : 0 < b := by omega
  have hlow : ∀ j, 2 ^ 63 ≤ trueRemainder b 63 j → 2 ^ j ≤ 2 * trueQuotient b 63 j := by
    intro j hj
    cases j with
    | zero =>
      have hrem : trueRemainder b 63 0 = 2 ^ 63 - 1 := Nat.mod_eq_of_lt (show 2 ^ 63 - 1 < b by omega)
      omega
    | succ j =>
      rw [pow_succ']
      refine Nat.mul_le_mul_left 2 ?_
      rw [trueQuotient, Nat.le_div_iff_mul_le hb0]
      have hj0 := Nat.two_pow_pos j
      calc 2 ^ j * b ≤ 2 ^ j * (2 ^ 64 - 1) := Nat.mul_le_mul_left _ (by omega)
        _ ≤ 2 ^ (63 + (j + 1)) - 1 := by
          rw [Nat.mul_sub, ← pow_add, show j + 64 = 63 + (j + 1) by omega]
          omega
  have hlost' : ∃ j < 65, 2 ^ 63 ≤ trueRemainder b 63 j := by
    obtain ⟨i, hi, h⟩ := hlost
    refine ⟨i + 1, by omega, ?_⟩
    rw [trueRemainder, show 63 + (i + 1) = 64 + i by omega]
    exact h
  have hstart : Tracks b 63 0 (2 ^ 64 - 1, 0) := tracks_zero hw
  obtain ⟨q, hq, hlt, hbig⟩ := foldl_behind hb0 hb _ hstart hlow 65 hlost'
  have hQ : trueQuotient b 63 65 * b ≤ 2 ^ 128 - 1 := Nat.div_mul_le_self _ _
  have hqb : (q + 1) * b < 2 ^ 128 := by
    have := Nat.mul_le_mul_right b (show q + 1 ≤ trueQuotient b 63 65 by omega)
    omega
  have hq65 : q + 1 < 2 ^ 65 := by
    by_contra hge
    have h1 : 2 ^ 65 * 2 ^ 63 ≤ (q + 1) * b := Nat.mul_le_mul (by omega) hlarge.le
    omega
  refine ⟨(1 + q % 2 ^ 64) % 2 ^ 64, ?_, ?_⟩
  · unfold determinePseudoInverse
    rw [hn]
    simp only [hq]
  · rw [show 2 ^ 64 + (1 + q % 2 ^ 64) % 2 ^ 64 = q + 1 by omega]
    exact hqb

end Path64.DivRem

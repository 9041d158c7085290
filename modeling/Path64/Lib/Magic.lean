import Mathlib

/-!
# Division by a multiplication

A multiplier `M` stands in for the division by `d` at precision `P` when `M * d` exceeds `P` by little.

* `Magic` : `M * d = P + e` with `e > 0` and `e * (Q * d) ≤ P`;
* `Magic.div` : then `M * n / P = n / d` for `n` up to `Q * d + (d - 2)`;
* `mul_ediv_sub_eq_tdiv` : the same for signed dividends;
* `ceil_mul_div` : the multiplier `⌈P / d⌉` divides every `n` with `d * n ≤ P`.
-/

namespace Path64.Lib

/-- `M` over `P` approximates `1 / d` from above, closely enough for `Q` multiples of `d`. -/
structure Magic (d P M Q : Nat) : Prop where
  above : P < M * d
  close : (M * d - P) * (Q * d) ≤ P

variable {d P M Q n : Nat}

theorem mul_div_eq_div (hd : 0 < d) (hover : P ≤ M * d)
    (herr : (M * d - P) * n < (d - n % d) * P) : M * n / P = n / d := by
  obtain ⟨e, he⟩ := Nat.exists_eq_add_of_le hover
  rw [he, Nat.add_sub_cancel_left] at herr
  have hn := Nat.div_add_mod n d
  have hr := Nat.mod_lt n hd
  set q := n / d with hq
  set r := n % d with hrdef
  have hMn : M * n * d = P * n + e * n := by rw [Nat.mul_right_comm, he, Nat.add_mul]
  have hPn : P * n = q * P * d + r * P := by
    rw [← hn]
    ring
  apply Nat.div_eq_of_lt_le
  · refine Nat.le_of_mul_le_mul_right (c := d) ?_ hd
    omega
  · refine Nat.lt_of_mul_lt_mul_right (a := d) ?_
    have hsub : (d - r) * P = d * P - r * P := Nat.sub_mul d r P
    have hle : r * P ≤ d * P := Nat.mul_le_mul_right P hr.le
    have hexp : (q + 1) * P * d = q * P * d + d * P := by ring
    omega

/-- The same rounded up: `M * n` lies in the interval above `q * P`. -/
theorem mul_ceil_eq (hd : 0 < d) (hover : P < M * d) (hn : 0 < n)
    (herr : (M * d - P) * n ≤ (d - n % d) * P) : n / d * P < M * n ∧ M * n ≤ (n / d + 1) * P := by
  obtain ⟨e, he⟩ := Nat.exists_eq_add_of_lt hover
  rw [he, Nat.add_assoc, Nat.add_sub_cancel_left] at herr
  have hdm := Nat.div_add_mod n d
  have hr := Nat.mod_lt n hd
  set q := n / d with hq
  set r := n % d with hrdef
  have hMn : M * n * d = P * n + (e + 1) * n := by rw [Nat.mul_right_comm, he, Nat.add_assoc, Nat.add_mul]
  have hPn : P * n = q * P * d + r * P := by
    rw [← hdm]
    ring
  have hpos : 0 < (e + 1) * n := Nat.mul_pos (Nat.succ_pos e) hn
  constructor
  · refine Nat.lt_of_mul_lt_mul_right (a := d) ?_
    omega
  · refine Nat.le_of_mul_le_mul_right (c := d) ?_ hd
    have hsub : (d - r) * P = d * P - r * P := Nat.sub_mul d r P
    have hle : r * P ≤ d * P := Nat.mul_le_mul_right P hr.le
    have hexp : (q + 1) * P * d = q * P * d + d * P := by ring
    omega

theorem Magic.error_lt (h : Magic d P M Q) (hd : 0 < d) (hQ : 0 < Q)
    (hn : n / d < Q ∨ (n / d = Q ∧ n % d + 2 ≤ d)) : (M * d - P) * n < (d - n % d) * P := by
  have hclose := h.close
  have hepos : 0 < M * d - P := Nat.sub_pos_of_lt h.above
  set e := M * d - P
  have hdm := Nat.div_add_mod n d
  have hr := Nat.mod_lt n hd
  have hPpos : 0 < P := lt_of_lt_of_le (Nat.mul_pos hepos (Nat.mul_pos hQ hd)) hclose
  rcases hn with hlt | ⟨heq, hr2⟩
  · have hlt' : n < Q * d := (Nat.div_lt_iff_lt_mul hd).mp hlt
    have h1 : e * n < P := lt_of_lt_of_le (Nat.mul_lt_mul_of_pos_left hlt' hepos) hclose
    calc e * n < 1 * P := by rwa [Nat.one_mul]
      _ ≤ (d - n % d) * P := Nat.mul_le_mul_right P (by omega)
  · have hrQ : n % d < Q * d := hr.trans_le (Nat.le_mul_of_pos_left d hQ)
    have h1 : e * (n % d) < P := lt_of_lt_of_le (Nat.mul_lt_mul_of_pos_left hrQ hepos) hclose
    have h2 : e * n = e * (Q * d) + e * (n % d) := by
      rw [← Nat.mul_add, ← heq, Nat.mul_comm (n / d) d, hdm]
    calc e * n < 2 * P := by omega
      _ ≤ (d - n % d) * P := Nat.mul_le_mul_right P (by omega)

theorem Magic.div (h : Magic d P M Q) (hd : 0 < d) (hQ : 0 < Q)
    (hn : n / d < Q ∨ (n / d = Q ∧ n % d + 2 ≤ d)) : M * n / P = n / d :=
  mul_div_eq_div hd h.above.le (h.error_lt hd hQ hn)

/-- Signed division: the product rounds down, so a negative dividend needs one more. -/
theorem mul_ediv_sub_eq_tdiv (hd : 0 < d) (hover : P < M * d) (n : Int)
    (hpos : 0 ≤ n → (M * d - P) * n.toNat < (d - n.toNat % d) * P)
    (hneg : n < 0 → (M * d - P) * (-n).toNat ≤ (d - (-n).toNat % d) * P) :
    (n * M) / P - (if n < 0 then -1 else 0) = n.tdiv d := by
  by_cases hn : n < 0
  · obtain ⟨x, hx⟩ : ∃ x : Nat, n = -(x : Int) := ⟨(-n).toNat, by omega⟩
    have hx0 : 0 < x := by omega
    have herr := hneg hn
    rw [hx, Int.neg_neg, Int.toNat_natCast] at herr
    obtain ⟨hlow, hhigh⟩ := mul_ceil_eq hd hover hx0 herr
    have hquot : (n * M) / P = -((x / d : Nat) : Int) - 1 := by
      have hP : (0 : Int) < P := by
        rcases Nat.eq_zero_or_pos P with h0 | h0
        · rw [h0, Nat.mul_zero] at hlow hhigh
          omega
        · exact_mod_cast h0
      apply le_antisymm
      · apply Int.lt_add_one_iff.mp
        rw [Int.ediv_lt_iff_lt_mul hP, hx]
        have : ((x / d * P : Nat) : Int) < ((M * x : Nat) : Int) := by exact_mod_cast hlow
        push_cast at this ⊢
        nlinarith
      · rw [Int.le_ediv_iff_mul_le hP, hx]
        have : ((M * x : Nat) : Int) ≤ (((x / d + 1) * P : Nat) : Int) := by exact_mod_cast hhigh
        push_cast at this ⊢
        nlinarith
    rw [if_pos hn, hquot, hx, Int.neg_tdiv, Int.tdiv_eq_ediv_of_nonneg (Int.natCast_nonneg x), Int.natCast_ediv]
    omega
  · obtain ⟨x, hx⟩ : ∃ x : Nat, n = (x : Int) := ⟨n.toNat, by omega⟩
    have herr := hpos (by omega)
    rw [hx, Int.toNat_natCast] at herr
    have hdiv := mul_div_eq_div hd hover.le herr
    rw [if_neg hn, hx, Int.tdiv_eq_ediv_of_nonneg (Int.natCast_nonneg x), ← Int.natCast_ediv, ← hdiv]
    push_cast
    rw [Int.sub_zero, Int.mul_comm]

theorem ceil_over (hd : 0 < d) (hP : 0 < P) : P ≤ ((P - 1) / d + 1) * d ∧ ((P - 1) / d + 1) * d - P < d := by
  have hdm := Nat.div_add_mod (P - 1) d
  have hr := Nat.mod_lt (P - 1) hd
  have hexp : ((P - 1) / d + 1) * d = d * ((P - 1) / d) + d := by ring
  omega

/-- It divides every number whose product with `d` does not exceed the precision. -/
theorem ceil_mul_div (hd : 0 < d) (hP : 0 < P) (hn : d * n ≤ P) : ((P - 1) / d + 1) * n / P = n / d := by
  obtain ⟨hover, herr⟩ := ceil_over hd hP
  refine mul_div_eq_div hd hover ?_
  have hr := Nat.mod_lt n hd
  have hone : P ≤ (d - n % d) * P := Nat.le_mul_of_pos_left P (by omega)
  rcases Nat.eq_zero_or_pos n with h0 | h0
  · rw [h0, Nat.mul_zero, Nat.zero_mod, Nat.sub_zero]
    exact Nat.mul_pos hd hP
  · calc _ < d * n := Nat.mul_lt_mul_of_pos_right herr h0
      _ ≤ P := hn
      _ ≤ _ := hone

/-- A multiplier of one bit more than the word: half the sum of the number and its product, without the carry. -/
theorem average_div (w x : Nat) {M : Nat} (hM : M ≤ 2 ^ w) :
    (x - x * M / 2 ^ w) / 2 + x * M / 2 ^ w = (2 ^ w + M) * x / 2 ^ (w + 1) := by
  have hle : x * M / 2 ^ w ≤ x := by
    refine Nat.div_le_of_le_mul ?_
    rw [Nat.mul_comm]
    exact Nat.mul_le_mul_right _ hM
  have hsum : (2 ^ w + M) * x / 2 ^ (w + 1) = (x + x * M / 2 ^ w) / 2 := by
    rw [pow_succ, ← Nat.div_div_eq_div_mul, Nat.add_mul, Nat.mul_comm M, Nat.mul_add_div (Nat.two_pow_pos w)]
  rw [hsum]
  omega

end Path64.Lib

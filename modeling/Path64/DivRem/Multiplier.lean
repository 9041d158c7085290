import Path64.DivRem.Expand
import Path64.Lib.Magic

/-!
# What the multipliers are worth

* `reduceMultiplier_spec` : halving keeps both multipliers quotients of the same power of two;
* `multiplierFor_magic` : the reduced multiplier is `Magic`;
* `signedMultiplier_magic`, `signedMultiplier_min` : the signed multiplier, also for the dividend `-2^31`;
* `unsignedMultiplier_spec` : the unsigned multiplier with and without the extra bit.
-/

namespace Path64.DivRem

open Lib

/-- Bounds of the loop's result: `s` bits are left, both multipliers were halved `l - s` times. -/
theorem reduceMultiplier_spec (l mLow mHigh : Nat) (h : mLow < mHigh) :
    let r := reduceMultiplier l mLow mHigh
    r.1 ≤ l ∧ r.2.1 = mLow / 2 ^ (l - r.1) ∧ r.2.2 = mHigh / 2 ^ (l - r.1) ∧ r.2.1 < r.2.2 ∧
      (r.1 = l → l = 0 ∨ mLow / 2 = mHigh / 2) := by
  induction l generalizing mLow mHigh with
  | zero => simpa [reduceMultiplier] using h
  | succ l ih =>
    rw [reduceMultiplier]
    split_ifs with hlt
    · obtain ⟨h1, h2, h3, h4, -⟩ := ih (mLow / 2) (mHigh / 2) hlt
      set r := reduceMultiplier l (mLow / 2) (mHigh / 2)
      have hpow : 2 * 2 ^ (l - r.1) = 2 ^ (l + 1 - r.1) := by
        rw [← pow_succ', Nat.sub_add_comm h1]
      refine ⟨by omega, ?_, ?_, h4, by omega⟩
      · rw [h2, Nat.div_div_eq_div_mul, hpow]
      · rw [h3, Nat.div_div_eq_div_mul, hpow]
    · refine ⟨le_rfl, ?_, ?_, h, fun _ => Or.inr ?_⟩
      · simp
      · simp
      · have := Nat.div_le_div_right (c := 2) h.le
        omega

/-- The multiplier after the loop, for a range of `N = Q * d` dividends and a constant `k = 2^(32+l) / N`. -/
theorem multiplierFor_magic {d l k Q : Nat} (hd : 0 < d) (hk : k * (Q * d) ≤ 2 ^ (32 + l)) (hdk : d ≤ k)
    (hfit : 2 ^ (32 + l) + k < 2 ^ 64) :
    let r := multiplierFor d l k
    r.1 ≤ l ∧ Magic d (2 ^ (32 + r.1)) r.2.2 Q ∧ r.2.2 ≤ (2 ^ (32 + l) + k) / d / 2 ^ (l - r.1) ∧
      (r.1 = l → r.2.2 = (2 ^ (32 + l) + k) / d ∧ (l = 0 ∨ 2 ^ (32 + l) / d / 2 = (2 ^ (32 + l) + k) / d / 2)) := by
  have hmlt : 2 ^ (32 + l) / d < (2 ^ (32 + l) + k) / d := by
    calc 2 ^ (32 + l) / d < (2 ^ (32 + l) + d) / d := by rw [Nat.add_div_right _ hd]; exact Nat.lt_succ_self _
      _ ≤ (2 ^ (32 + l) + k) / d := Nat.div_le_div_right (by omega)
  intro r
  have hspec := reduceMultiplier_spec l (2 ^ (32 + l) / d) ((2 ^ (32 + l) + k) / d) hmlt
  have hr : r = reduceMultiplier l (2 ^ (32 + l) / d) ((2 ^ (32 + l) + k) / d) := by
    show multiplierFor d l k = _
    unfold multiplierFor
    rw [Nat.mod_eq_of_lt hfit]
  rw [← hr] at hspec
  obtain ⟨hle, hlow, hhigh, hlt, hend⟩ := hspec
  obtain ⟨c, hc⟩ := Nat.exists_eq_add_of_le hle
  have hc' : l - r.1 = c := by omega
  rw [hc'] at hlow hhigh
  have hpow : 2 ^ (32 + l) = 2 ^ (32 + r.1) * 2 ^ c := by
    rw [← pow_add]
    congr 1
    omega
  have hcpos : 0 < 2 ^ c := Nat.two_pow_pos c
  refine ⟨hle, ⟨?_, ?_⟩, by rw [hc', hhigh], fun heq => ⟨?_, hend heq⟩⟩
  · -- the low multiplier is the exact quotient at the smaller precision
    have hlow' : r.2.1 = 2 ^ (32 + r.1) / d := by
      rw [hlow, Nat.div_div_eq_div_mul, Nat.mul_comm d, ← Nat.div_div_eq_div_mul, hpow,
        Nat.mul_div_cancel _ hcpos]
    have := Nat.lt_mul_div_succ (2 ^ (32 + r.1)) hd
    calc 2 ^ (32 + r.1) < d * (2 ^ (32 + r.1) / d + 1) := this
      _ ≤ r.2.2 * d := by
        rw [Nat.mul_comm d]
        exact Nat.mul_le_mul_right d (by omega)
  · have hup : r.2.2 * d * 2 ^ c ≤ 2 ^ (32 + r.1) * 2 ^ c + k := by
      rw [← hpow, Nat.mul_right_comm]
      calc r.2.2 * 2 ^ c * d ≤ (2 ^ (32 + l) + k) / d * d := by
            rw [hhigh]
            exact Nat.mul_le_mul_right d (Nat.div_mul_le_self _ _)
        _ ≤ 2 ^ (32 + l) + k := Nat.div_mul_le_self _ _
    have herr : (r.2.2 * d - 2 ^ (32 + r.1)) * 2 ^ c ≤ k := by
      rw [Nat.sub_mul]
      omega
    refine Nat.le_of_mul_le_mul_right (c := 2 ^ c) ?_ hcpos
    calc (r.2.2 * d - 2 ^ (32 + r.1)) * (Q * d) * 2 ^ c = (r.2.2 * d - 2 ^ (32 + r.1)) * 2 ^ c * (Q * d) := by ring
      _ ≤ k * (Q * d) := Nat.mul_le_mul_right _ herr
      _ ≤ 2 ^ (32 + r.1) * 2 ^ c := by rw [← hpow]; exact hk
  · rw [hhigh]
    have : c = 0 := by omega
    rw [this, pow_zero, Nat.div_one]

theorem log2_bounds {d : Nat} (hd : d ≠ 0) : 2 ^ log2 d ≤ d ∧ d < 2 ^ (log2 d + 1) :=
  ⟨Nat.log2_self_le hd, Nat.lt_log2_self⟩

/-! ## Signed -/

theorem signed_range {d : Nat} (hd : 0 < d) (hlt : d < 2 ^ 31) :
    2 ^ 31 - 2 ^ 31 % d = 2 ^ 31 / d * d ∧ 0 < 2 ^ 31 / d ∧ 2 ^ 30 < 2 ^ 31 / d * d ∧ 2 ^ 31 / d * d ≤ 2 ^ 31 := by
  have hdm := Nat.div_add_mod (2 ^ 31) d
  have hmod := Nat.mod_lt (2 ^ 31) hd
  have hQ : 0 < 2 ^ 31 / d := Nat.div_pos hlt.le hd
  have hge : d ≤ d * (2 ^ 31 / d) := Nat.le_mul_of_pos_right d hQ
  rw [Nat.mul_comm (2 ^ 31 / d)]
  omega

theorem signedMultiplier_magic {d : Nat} (h3 : 3 ≤ d) (hlt : d < 2 ^ 31) (hpow : d ≠ 2 ^ log2 d) :
    Magic d (2 ^ (32 + (signedMultiplier d).2)) (signedMultiplier d).1 (2 ^ 31 / d) ∧
      (signedMultiplier d).2 ≤ log2 d ∧ log2 d ≤ 30 ∧ (signedMultiplier d).1 < 2 ^ 32 := by
  obtain ⟨hl1, hl2⟩ := log2_bounds (d := d) (by omega)
  obtain ⟨hN, hQ, hNlow, hNhigh⟩ := signed_range (d := d) (by omega) hlt
  have hl30 : log2 d ≤ 30 := by
    by_contra hl
    have := Nat.pow_le_pow_right (n := 2) (by omega) (show 31 ≤ log2 d by omega)
    omega
  set l := log2 d with hl
  set N := 2 ^ 31 / d * d with hNdef
  have hlpow : 2 ^ (32 + l) = 2 ^ (l + 1) * 2 ^ 31 := by
    rw [← pow_add]
    congr 1
    omega
  have hk1 : 2 ^ (l + 1) ≤ 2 ^ (32 + l) / N := by
    rw [Nat.le_div_iff_mul_le (by omega), hlpow]
    exact Nat.mul_le_mul_left _ hNhigh
  have hk2 : 2 ^ (32 + l) / N < 2 ^ 32 := by
    rw [Nat.div_lt_iff_lt_mul (by omega)]
    calc 2 ^ (32 + l) ≤ 2 ^ 62 := Nat.pow_le_pow_right (by omega) (by omega)
      _ = 2 ^ 32 * 2 ^ 30 := by norm_num
      _ < 2 ^ 32 * N := Nat.mul_lt_mul_of_pos_left hNlow (by norm_num)
  have hfit : 2 ^ (32 + l) + 2 ^ (32 + l) / N < 2 ^ 64 := by
    have := Nat.pow_le_pow_right (n := 2) (by omega) (show 32 + l ≤ 62 by omega)
    omega
  have hspec := multiplierFor_magic (show 0 < d by omega) (Nat.div_mul_le_self (2 ^ (32 + l)) N) (by omega) hfit
  have hdef : signedMultiplier d =
      ((multiplierFor d l (2 ^ (32 + l) / N)).2.2, (multiplierFor d l (2 ^ (32 + l) / N)).1) := by
    simp only [signedMultiplier, hN, ← hl]
  rw [hdef]
  obtain ⟨h1, h2, h4, -⟩ := hspec
  refine ⟨h2, h1, hl30, lt_of_le_of_lt (h4.trans (Nat.div_le_self _ _)) ?_⟩
  rw [Nat.div_lt_iff_lt_mul (by omega)]
  calc 2 ^ (32 + l) + 2 ^ (32 + l) / N < 2 ^ (32 + l) + 2 ^ 32 := by omega
    _ = 2 ^ 32 * (2 ^ l + 1) := by rw [pow_add]; ring
    _ ≤ 2 ^ 32 * d := Nat.mul_le_mul_left _ (by omega)

/-- Also the dividend `-2^31` is divided right. The bound only gives this away when `d` divides `2^31 + 1`; then the
error is a power of two modulo `d`, and a larger one would not be close. -/
theorem signedMultiplier_min {d : Nat} (h3 : 3 ≤ d) (hlt : d < 2 ^ 31) (hpow : d ≠ 2 ^ log2 d) :
    ((signedMultiplier d).1 * d - 2 ^ (32 + (signedMultiplier d).2)) * 2 ^ 31 ≤
      (d - 2 ^ 31 % d) * 2 ^ (32 + (signedMultiplier d).2) := by
  obtain ⟨hmagic, hs, -, -⟩ := signedMultiplier_magic h3 hlt hpow
  obtain ⟨hN, hQ, -, -⟩ := signed_range (d := d) (by omega) hlt
  obtain ⟨hl1, -⟩ := log2_bounds (d := d) (by omega)
  set M := (signedMultiplier d).1
  set s := (signedMultiplier d).2
  set Q := 2 ^ 31 / d with hQdef
  have hmod := Nat.mod_lt (2 ^ 31) (show 0 < d by omega)
  by_cases hj : 2 ^ 31 % d + 2 ≤ d
  · exact (hmagic.error_lt (by omega) hQ (Or.inr ⟨rfl, hj⟩)).le
  · have hj : 2 ^ 31 % d = d - 1 := by omega
    have hdm := Nat.div_add_mod (2 ^ 31) d
    rw [hj, ← hQdef] at hdm
    have habove := hmagic.above
    have hclose := hmagic.close
    obtain ⟨e, he⟩ := Nat.exists_eq_add_of_le habove.le
    rw [he, Nat.add_sub_cancel_left] at hclose ⊢
    have hP : 2 ^ (32 + s) = 2 ^ (s + 1) * 2 ^ 31 := by
      rw [← pow_add]
      congr 1
      omega
    have hsmall : e ≤ 2 ^ (s + 1) := by
      by_contra hbig
      have hbig := not_le.mp hbig
      -- `e - 2^(s+1)` is a positive multiple of `d`
      have hQd : (Q + 1) * d = 2 ^ 31 + 1 := by
        rw [Nat.add_mul, Nat.mul_comm Q]
        omega
      have hdvd : d ∣ e - 2 ^ (s + 1) := by
        have h1 : M * d = 2 ^ (s + 1) * ((Q + 1) * d) + (e - 2 ^ (s + 1)) := by
          rw [he, hP, hQd, Nat.mul_add]
          omega
        have h2 : d ∣ 2 ^ (s + 1) * ((Q + 1) * d) := Dvd.dvd.mul_left (Dvd.intro_left _ rfl) _
        exact (Nat.dvd_add_right h2).mp (h1 ▸ Dvd.intro_left M rfl)
      have hde : 2 ^ (s + 1) + d ≤ e := by
        have := Nat.le_of_dvd (by omega) hdvd
        omega
      have h1 : (2 ^ (s + 1) + d) * (Q * d) ≤ 2 ^ (s + 1) * (Q * d) + 2 ^ (s + 1) * (d - 1) := by
        rw [← Nat.mul_add]
        calc (2 ^ (s + 1) + d) * (Q * d) ≤ e * (Q * d) := Nat.mul_le_mul_right _ hde
          _ ≤ 2 ^ (s + 1) * 2 ^ 31 := by rw [← hP]; exact hclose
          _ = 2 ^ (s + 1) * (Q * d + (d - 1)) := by rw [Nat.mul_comm Q, hdm]
      rw [Nat.add_mul] at h1
      have h2 : d * (Q * d) ≤ 2 ^ (s + 1) * (d - 1) := by omega
      have h3' : 2 ^ (s + 1) ≤ 2 * d := by
        rw [pow_succ']
        have := Nat.pow_le_pow_right (n := 2) (by omega) hs
        omega
      have h4 : d * (Q * d) ≤ d * (2 * (d - 1)) := by
        calc d * (Q * d) ≤ 2 ^ (s + 1) * (d - 1) := h2
          _ ≤ 2 * d * (d - 1) := Nat.mul_le_mul_right _ h3'
          _ = d * (2 * (d - 1)) := by ring
      have h5 : Q * d ≤ 2 * (d - 1) := Nat.le_of_mul_le_mul_left h4 (by omega)
      have hQ1 : Q = 1 := by
        have : Q < 2 := by
          by_contra hQ2
          have := Nat.mul_le_mul_right d (not_lt.mp hQ2)
          omega
        omega
      rw [hQ1] at hdm
      omega
    have hone : d - 2 ^ 31 % d = 1 := by omega
    rw [hone, Nat.one_mul, hP]
    exact Nat.mul_le_mul_right _ hsmall

/-- The quotient the signed paths compute. -/
theorem signed_quotient {d : Nat} (h3 : 3 ≤ d) (hlt : d < 2 ^ 31) (hpow : d ≠ 2 ^ log2 d) {n : Int}
    (hn : -2 ^ 31 ≤ n) (hn' : n < 2 ^ 31) :
    n * (signedMultiplier d).1 / 2 ^ 32 / 2 ^ (signedMultiplier d).2 - (if n < 0 then -1 else 0) = n.tdiv d := by
  obtain ⟨hmagic, -, -, -⟩ := signedMultiplier_magic h3 hlt hpow
  obtain ⟨-, hQ, -, -⟩ := signed_range (d := d) (by omega) hlt
  have hd : 0 < d := by omega
  -- every magnitude below `2^31` is in the range of the multiplier
  have herr : ∀ x : Nat, x < 2 ^ 31 →
      ((signedMultiplier d).1 * d - 2 ^ (32 + (signedMultiplier d).2)) * x <
        (d - x % d) * 2 ^ (32 + (signedMultiplier d).2) := by
    intro x hx
    refine hmagic.error_lt hd hQ ?_
    have hle : x / d ≤ 2 ^ 31 / d := Nat.div_le_div_right hx.le
    rcases Nat.lt_or_eq_of_le hle with hlt' | heq
    · exact Or.inl hlt'
    · refine Or.inr ⟨heq, ?_⟩
      have h1 := Nat.div_add_mod x d
      have h2 := Nat.div_add_mod (2 ^ 31) d
      have h3 := Nat.mod_lt (2 ^ 31) hd
      rw [heq] at h1
      omega
  have hdiv : n * (signedMultiplier d).1 / 2 ^ 32 / 2 ^ (signedMultiplier d).2 =
      n * (signedMultiplier d).1 / ((2 ^ (32 + (signedMultiplier d).2) : Nat) : Int) := by
    rw [Int.ediv_ediv_of_nonneg (by norm_num), Nat.cast_pow, pow_add]
    rfl
  rw [hdiv]
  refine mul_ediv_sub_eq_tdiv hd hmagic.above n (fun h0 => herr _ (by omega)) fun hneg => ?_
  by_cases hmin : n = -2 ^ 31
  · subst hmin
    exact signedMultiplier_min h3 hlt hpow
  · exact (herr _ (by omega)).le

/-! ## Unsigned -/

theorem unsigned_range {t : Nat} (ht : 0 < t) (hlt : t < 2 ^ 31) :
    2 ^ 32 - 1 - (2 ^ 32 - 1) % t = (2 ^ 32 - 1) / t * t ∧ 0 < (2 ^ 32 - 1) / t ∧
      2 ^ 31 ≤ (2 ^ 32 - 1) / t * t ∧ (2 ^ 32 - 1) / t * t ≤ 2 ^ 32 := by
  have hdm := Nat.div_add_mod (2 ^ 32 - 1) t
  have hmod := Nat.mod_lt (2 ^ 32 - 1) ht
  have hQ : 0 < (2 ^ 32 - 1) / t := Nat.div_pos (by omega) ht
  rw [Nat.mul_comm ((2 ^ 32 - 1) / t)]
  omega

/-- Every dividend is in the range of a multiplier for an odd divisor: `t` does not divide `2^32`. -/
theorem unsigned_in_range {t : Nat} (h3 : 3 ≤ t) (hodd : t % 2 = 1) {n : Nat} (hn : n < 2 ^ 32) :
    n / t < (2 ^ 32 - 1) / t ∨ (n / t = (2 ^ 32 - 1) / t ∧ n % t + 2 ≤ t) := by
  have ht : 0 < t := by omega
  have hle : n / t ≤ (2 ^ 32 - 1) / t := Nat.div_le_div_right (by omega)
  rcases Nat.lt_or_eq_of_le hle with hlt | heq
  · exact Or.inl hlt
  · refine Or.inr ⟨heq, ?_⟩
    have h1 := Nat.div_add_mod n t
    have h2 := Nat.div_add_mod (2 ^ 32 - 1) t
    have h3' := Nat.mod_lt (2 ^ 32 - 1) ht
    have hne : (2 ^ 32 - 1) % t ≠ t - 1 := by
      intro hlast
      have hdvd : t ∣ 2 ^ 32 := by
        refine ⟨(2 ^ 32 - 1) / t + 1, ?_⟩
        rw [Nat.mul_add]
        omega
      have hcop : Nat.Coprime t (2 ^ 32) := (Nat.coprime_pow_right_iff (by norm_num) t 2).mpr
        (Nat.coprime_two_right.mpr (Nat.odd_iff.mpr hodd))
      have := hcop.eq_one_of_dvd hdvd
      omega
    rw [heq] at h1
    omega

theorem mod_lt_half {A t : Nat} (ht : 0 < t) (heven : 2 * A / t = 2 * (A / t)) : A % t < t / 2 + 1 := by
  have h1 := Nat.div_add_mod A t
  have h2 := Nat.div_add_mod (2 * A) t
  have h3 := Nat.mod_lt (2 * A) ht
  rw [heven, Nat.mul_left_comm] at h2
  omega

/-- Without the extra bit the multiplier fits 32 bits; with it, `2 * m + 1` is the unreduced multiplier. -/
theorem unsignedMultiplier_spec {t : Nat} (h3 : 3 ≤ t) (hlt : t < 2 ^ 31) (hodd : t % 2 = 1) :
    let r := unsignedMultiplier t
    (r.2.2 = false → r.1 < 2 ^ 32 ∧ r.2.1 ≤ log2 t + 1 ∧
      Magic t (2 ^ (32 + r.2.1)) r.1 ((2 ^ 32 - 1) / t)) ∧
    (r.2.2 = true → r.2.1 = log2 t ∧ 2 ^ 32 ≤ 2 * r.1 + 1 ∧ 2 * r.1 + 1 < 2 ^ 33 ∧
      Magic t (2 ^ (33 + r.2.1)) (2 * r.1 + 1) ((2 ^ 32 - 1) / t)) := by
  have ht : 0 < t := by omega
  obtain ⟨hl1, hl2⟩ := log2_bounds (show t ≠ 0 by omega)
  obtain ⟨hN, hQ, hNlow, hNhigh⟩ := unsigned_range ht hlt
  have hl30 : log2 t ≤ 30 := by
    by_contra hl
    have := Nat.pow_le_pow_right (n := 2) (by omega) (show 31 ≤ log2 t by omega)
    omega
  -- an odd divisor is no power of two
  have hstrict : 2 ^ log2 t < t := by
    refine lt_of_le_of_ne hl1 fun heq => ?_
    have hpos : log2 t ≠ 0 := by
      intro h0
      rw [h0] at heq
      omega
    obtain ⟨c, hc⟩ := Nat.exists_eq_succ_of_ne_zero hpos
    rw [hc, pow_succ] at heq
    omega
  set L := log2 t + 1 with hL
  set N := (2 ^ 32 - 1) / t * t with hNdef
  set k := 2 ^ (32 + L) / N with hk
  have hLpow : 2 ^ (32 + L) = 2 ^ L * 2 ^ 32 := by rw [pow_add, Nat.mul_comm]
  have hk1 : 2 ^ L ≤ k := by
    rw [hk, Nat.le_div_iff_mul_le (by omega), hLpow]
    exact Nat.mul_le_mul_left _ hNhigh
  have hk2 : k ≤ 2 ^ (L + 1) := by
    rw [hk]
    refine Nat.div_le_of_le_mul ?_
    calc 2 ^ (32 + L) = 2 ^ 31 * 2 ^ (L + 1) := by rw [← pow_add]; congr 1; omega
      _ ≤ N * 2 ^ (L + 1) := Nat.mul_le_mul_right _ hNlow
  have hk3 : 2 ^ (L + 1) ≤ 2 ^ 32 := Nat.pow_le_pow_right (by omega) (by omega)
  have hfit : 2 ^ (32 + L) + k < 2 ^ 64 := by
    have := Nat.pow_le_pow_right (n := 2) (by omega) (show 32 + L ≤ 63 by omega)
    omega
  have hbig : (2 ^ (32 + L) + k) / t < 2 ^ 33 := by
    rw [Nat.div_lt_iff_lt_mul ht]
    calc 2 ^ (32 + L) + k < 2 ^ (32 + L) + 2 ^ 33 := by omega
      _ = 2 ^ 33 * (2 ^ log2 t + 1) := by rw [hL, ← Nat.add_assoc, pow_succ, pow_add]; ring
      _ ≤ 2 ^ 33 * t := Nat.mul_le_mul_left _ (by omega)
  have hkN : k * ((2 ^ 32 - 1) / t * t) ≤ 2 ^ (32 + L) := Nat.div_mul_le_self (2 ^ (32 + L)) N
  obtain ⟨hs, hmagic, hle, hend⟩ := multiplierFor_magic ht hkN (by omega) hfit
  set r := multiplierFor t L k with hr
  have hdef : unsignedMultiplier t = if r.2.2 / 2 ^ 32 = 0 then (r.2.2, r.1, false)
      else ((if 2 ^ (32 + log2 t) % t < t / 2 + 1 then 2 ^ (32 + log2 t) / t % 2 ^ 32
        else (2 ^ (32 + log2 t) / t % 2 ^ 32 + 1) % 2 ^ 32), log2 t, true) := by
    simp only [unsignedMultiplier, hN, ← hL, ← hk, ← hr]
  simp only [hdef]
  by_cases hsmall : r.2.2 / 2 ^ 32 = 0
  · rw [if_pos hsmall]
    refine ⟨fun _ => ⟨?_, hs, hmagic⟩, fun h => Bool.noConfusion h⟩
    rw [Nat.div_eq_zero_iff] at hsmall
    omega
  · rw [if_neg hsmall]
    refine ⟨fun h => Bool.noConfusion h, fun _ => ?_⟩
    -- nothing was halved, or the multiplier would fit
    have hsL : r.1 = L := by
      by_contra hne
      obtain ⟨c, hc⟩ := Nat.exists_eq_succ_of_ne_zero (show L - r.1 ≠ 0 by omega)
      have h1 : (2 ^ (32 + L) + k) / t / 2 ^ (L - r.1) ≤ (2 ^ (32 + L) + k) / t / 2 := by
        rw [hc, pow_succ', ← Nat.div_div_eq_div_mul]
        exact Nat.div_le_self _ _
      have h2 : r.2.2 < 2 ^ 32 := by omega
      exact hsmall (Nat.div_eq_of_lt h2)
    obtain ⟨hhigh, hhalf⟩ := hend hsL
    have hhalf := hhalf.resolve_left (by omega)
    set A := 2 ^ (32 + log2 t) with hA
    have hAL : 2 ^ (32 + L) = 2 * A := by rw [hL, hA, ← pow_succ']; congr 1
    have hlow : 2 ^ (32 + L) / t / 2 = A / t := by
      rw [Nat.div_div_eq_div_mul, Nat.mul_comm t, ← Nat.div_div_eq_div_mul, hAL, Nat.mul_div_cancel_left _ (by omega)]
    have hlt' : 2 ^ (32 + L) / t < (2 ^ (32 + L) + k) / t := by
      calc 2 ^ (32 + L) / t < (2 ^ (32 + L) + t) / t := by rw [Nat.add_div_right _ ht]; exact Nat.lt_succ_self _
        _ ≤ (2 ^ (32 + L) + k) / t := Nat.div_le_div_right (by omega)
    -- so the low multiplier is even and the high one follows it
    have heven : 2 ^ (32 + L) / t = 2 * (A / t) ∧ r.2.2 = 2 * (A / t) + 1 := by omega
    have hrem : A % t < t / 2 + 1 := mod_lt_half ht (by rw [← hAL]; exact heven.1)
    have hAt : A / t < 2 ^ 32 := by
      rw [Nat.div_lt_iff_lt_mul ht, hA, pow_add]
      exact Nat.mul_lt_mul_of_pos_left hstrict (by norm_num)
    rw [if_pos hrem, Nat.mod_eq_of_lt hAt, ← heven.2]
    have hge : 2 ^ 32 ≤ r.2.2 := by
      by_contra hlt
      exact hsmall (Nat.div_eq_of_lt (not_le.mp hlt))
    refine ⟨rfl, hge, by rw [hhigh]; exact hbig, ?_⟩
    rw [hsL] at hmagic
    rw [show 33 + log2 t = 32 + L by omega]
    exact hmagic

end Path64.DivRem

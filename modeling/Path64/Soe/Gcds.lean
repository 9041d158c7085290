import Path64.Soe.Marking

/-!
# Dividing rows by their greatest common divisors

`Take_Gcds` (`soe.cxx`) divides each row of a system by the greatest common divisor that it folds over the row, in `INT64`, and
casts to `INT32` before it divides.

* `takeGcdLe`, `takeGcdEq`, `takeGcds` : the source;
* `LeDivisible`, `EqDivisible` : the rows that come out right;
* `takeGcds_exact_iff` : a system keeps its integer points, row by row, just when its rows are of that kind.
-/

namespace Path64.Soe

open Lib Finset

/-! ## The source -/

/-- The greatest common divisor folded over some columns of a row, from `g`. -/
def gcdFold (row : Nat → MInt32) (g : Int) (cols : List Nat) : Int := cols.foldl (fun g j => gcd64 g (row j)) g

/-- The quotients of a row. -/
def divideRow (vars : Nat) (row : Nat → MInt32) (d : Int) : Nat → MInt32 :=
  fun j => if j < vars then MInt32.ofInt ((row j : Int).tdiv d) else row j

/-- `Take_Gcds` on an inequality; no result when the assertion fails or the divisor, cast to `INT32`, is zero. -/
def takeGcdLe (vars : Nat) (row : (Nat → MInt32) × MInt64) : Option ((Nat → MInt32) × MInt64) :=
  let g := gcdFold row.1 (row.1 0) (List.range' 1 (vars - 1))
  if g = 0 then some row
  else if 0 < g ∧ wrap32 g ≠ 0 then
    some (divideRow vars row.1 (wrap32 g), MInt64.ofInt (
      if (row.2 : Int) ≥ 0 then (row.2 : Int).tdiv (wrap32 g)
      else -(wrap64 (-(row.2 : Int) + g - 1)).tdiv (wrap32 g)))
  else none

/-- `Take_Gcds` on an equality. -/
def takeGcdEq (vars : Nat) (row : (Nat → MInt32) × Int) : Option ((Nat → MInt32) × Int) :=
  let g := gcdFold row.1 row.2 (List.range vars)
  if g = 0 then some row
  else if 0 < g ∧ wrap32 g ≠ 0 then some (divideRow vars row.1 (wrap32 g), row.2.tdiv (wrap32 g))
  else none

/-- `Take_Gcds`. -/
def System.takeGcds (s : System) : Option System := do
  let le ← forRows (takeGcdLe s.vars) s.eqnsLe fun i => (s.ale i, s.ble i)
  let eq ← forRows (takeGcdEq s.vars) s.eqs.eqnsEq fun i => (s.eqs.aeq i, s.eqs.beq i)
  return { s with
    ale := fun i => (le i).1
    ble := fun i => (le i).2
    eqs := { s.eqs with
      aeq := fun i => (eq i).1
      beq := fun i => (eq i).2 } }

/-! ## The folded divisor -/

theorem inInt64_of_inInt32 {x : Int} (h : InInt32 x) : InInt64 x := by
  obtain ⟨h1, h2⟩ := h
  constructor <;> omega

section Fold

variable {row : Nat → MInt32} {g : Int}

theorem inInt64_gcdFold (hg : InInt64 g) (cols : List Nat) : InInt64 (gcdFold row g cols) := by
  induction cols generalizing g with
  | nil => exact hg
  | cons j cols ih => exact ih (inInt64_gcd64 _ _)

theorem dvd_gcdFold (hg : InInt64 g) (cols : List Nat) (d : Int) :
    d ∣ gcdFold row g cols ↔ d ∣ g ∧ ∀ j ∈ cols, d ∣ (row j : Int) := by
  induction cols generalizing g with
  | nil => simp [gcdFold]
  | cons j cols ih =>
    show d ∣ gcdFold row (gcd64 g (row j)) cols ↔ _
    rw [ih (inInt64_gcd64 _ _), dvd_gcd64 hg (inInt64_of_inInt32 (row j).2), List.forall_mem_cons, and_assoc]

theorem gcdFold_nonneg (hg : InInt64 g) (hmin : g ≠ -2 ^ 63) {cols : List Nat} (hcols : cols ≠ [] ∨ 0 ≤ g) :
    0 ≤ gcdFold row g cols := by
  induction cols generalizing g with
  | nil => exact hcols.resolve_left fun h => h rfl
  | cons j cols ih =>
    have hj := (row j).2
    have hstep : 0 ≤ gcd64 g (row j) := by
      refine gcdAbs_nonneg (abs64_nonneg hg hmin) (abs64_nonneg (inInt64_of_inInt32 hj) ?_)
      have := hj.1
      omega
    exact ih (g := gcd64 g (row j)) (inInt64_gcd64 _ _) (by omega) (Or.inr hstep)

end Fold

/-! ## Inequalities -/

/-- The greatest common divisor of a row. -/
def rowGcd (vars : Nat) (row : Nat → MInt32) : Int := (range vars).gcd fun j => (row j : Int)

/-- An inequality that is divided right: its only coefficient is not negative, the least number is not all there is in it, and
the sum that rounds the constant fits. -/
structure LeDivisible (vars : Nat) (row : (Nat → MInt32) × MInt64) : Prop where
  single : ¬ (vars = 1 ∧ (row.1 0 : Int) < 0)
  least : ¬ ∀ j < vars, (row.1 j : Int) = 0 ∨ (row.1 j : Int) = int32Min
  round : 0 ≤ (row.2 : Int) ∨ rowGcd vars row.1 = 1 ∨ rowGcd vars row.1 - 2 ^ 63 ≤ row.2

/-- `row'` is `row` divided by its greatest common divisor, with the same integer points. -/
structure LeDivided (vars : Nat) (row row' : (Nat → MInt32) × MInt64) : Prop where
  factor : ∀ j < vars, (row.1 j : Int) = rowGcd vars row.1 * row'.1 j
  points : ∀ x : Nat → Int, dot vars (fun j => row'.1 j) x ≤ row'.2 ↔ dot vars (fun j => row.1 j) x ≤ row.2

section Le

variable {vars : Nat} {row : (Nat → MInt32) × MInt64}

theorem dvd_leFold (hvars : 0 < vars) (d : Int) :
    d ∣ gcdFold row.1 (row.1 0) (List.range' 1 (vars - 1)) ↔ d ∣ rowGcd vars row.1 := by
  rw [dvd_gcdFold (inInt64_of_inInt32 (row.1 0).2), rowGcd, Finset.dvd_gcd_iff]
  constructor
  · rintro ⟨hzero, hrest⟩ j hj
    rcases Nat.eq_zero_or_pos j with rfl | hpos
    · exact hzero
    · have hj := mem_range.1 hj
      exact hrest j (List.mem_range'_1.2 ⟨hpos, by omega⟩)
  · intro h
    refine ⟨h 0 (mem_range.2 hvars), fun j hj => h j (mem_range.2 ?_)⟩
    have hj := List.mem_range'_1.1 hj
    omega

theorem rowGcd_nonneg (vars : Nat) (row : Nat → MInt32) : 0 ≤ rowGcd vars row := by
  have h : normalize (rowGcd vars row) = rowGcd vars row := Finset.normalize_gcd
  rw [← h, ← Int.abs_eq_normalize]
  exact abs_nonneg _

theorem rowGcd_pos {row : Nat → MInt32} {j : Nat} (hj : j < vars) (hne : (row j : Int) ≠ 0) : 0 < rowGcd vars row := by
  refine lt_of_le_of_ne (rowGcd_nonneg vars row) fun h => hne ?_
  have hdvd : rowGcd vars row ∣ row j := Finset.gcd_dvd (mem_range.2 hj)
  rw [← h] at hdvd
  exact zero_dvd_iff.1 hdvd

theorem rowGcd_le {row : Nat → MInt32} {j : Nat} (hj : j < vars) (hne : (row j : Int) ≠ 0) : rowGcd vars row ≤ 2 ^ 31 := by
  have hdvd : rowGcd vars row ∣ row j := Finset.gcd_dvd (mem_range.2 hj)
  have hle := Int.natAbs_le_of_dvd_ne_zero hdvd hne
  obtain ⟨h1, h2⟩ := (row j).2
  omega

theorem leFold_eq (hvars : 0 < vars) (hsingle : ¬ (vars = 1 ∧ (row.1 0 : Int) < 0)) :
    gcdFold row.1 (row.1 0) (List.range' 1 (vars - 1)) = rowGcd vars row.1 := by
  have hnonneg : 0 ≤ gcdFold row.1 (row.1 0) (List.range' 1 (vars - 1)) := by
    obtain ⟨h1, h2⟩ := (row.1 0).2
    apply gcdFold_nonneg (inInt64_of_inInt32 (row.1 0).2) (by omega)
    by_cases hone : vars = 1
    · exact Or.inr (not_lt.1 fun h => hsingle ⟨hone, h⟩)
    · refine Or.inl fun h => ?_
      rw [List.range'_eq_nil_iff] at h
      omega
  exact Int.dvd_antisymm hnonneg (rowGcd_nonneg _ _) ((dvd_leFold hvars _).1 dvd_rfl) ((dvd_leFold hvars _).2 dvd_rfl)

theorem neg_ediv_round {b g : Int} (hg : 0 < g) : -((-b + g - 1) / g) = b / g := by
  have h1 := Int.mul_ediv_add_emod (-b + g - 1) g
  have h2 := Int.emod_nonneg (-b + g - 1) hg.ne'
  have h3 := Int.emod_lt_of_pos (-b + g - 1) hg
  symm
  rw [Int.ediv_eq_iff_of_pos hg]
  constructor <;> linarith

theorem wrap32_of_lt {g : Int} (hpos : 0 < g) (hlt : g < 2 ^ 31) : wrap32 g = g := wrap32_eq_iff.2 ⟨by omega, hlt⟩

theorem divideRow_eq {row : Nat → MInt32} {d : Int} (hd : 0 < d ∨ d = -2 ^ 31) {j : Nat} (hj : j < vars) (hdvd : d ∣ row j) :
    (row j : Int) = d * divideRow vars row d j := by
  obtain ⟨q, hq⟩ := hdvd
  have hdiv : (row j : Int).tdiv d = q := by rw [hq, Int.mul_tdiv_cancel_left _ (by omega)]
  obtain ⟨h1, h2⟩ := (row j).2
  have hfit : InInt32 q := by
    rcases hd with hd | rfl
    · constructor <;> nlinarith
    · constructor <;> omega
  rw [divideRow, if_pos hj]
  show _ = d * wrap32 _
  rw [hdiv, wrap32_eq_iff.2 hfit, hq]

theorem round_eq {b : MInt64} {g : Int} (hg : 0 < g) (hround : 0 ≤ (b : Int) ∨ g = 1 ∨ g - 2 ^ 63 ≤ b) :
    (MInt64.ofInt (if (b : Int) ≥ 0 then (b : Int).tdiv g else -(wrap64 (-(b : Int) + g - 1)).tdiv g) : Int) = b / g := by
  obtain ⟨h1, h2⟩ := b.2
  have hfit : InInt64 ((b : Int) / g) := by
    have hlow : (b : Int) / g ≥ -2 ^ 63 := by
      rw [ge_iff_le, Int.le_ediv_iff_mul_le hg]
      nlinarith
    have hhigh : (b : Int) / g < 2 ^ 63 := by
      rw [Int.ediv_lt_iff_lt_mul hg]
      nlinarith
    exact ⟨hlow, hhigh⟩
  show wrap64 _ = _
  split_ifs with hb
  · rw [Int.tdiv_eq_ediv_of_nonneg hb, wrap64_eq hfit]
  · rcases hround with hb' | rfl | hround
    · exact absurd hb' hb
    · -- negating the least constant wraps twice
      rw [add_sub_cancel_right, Int.tdiv_one, Int.ediv_one]
      show ((-((-(b : Int)).bmod (2 ^ 64))).bmod (2 ^ 64)) = _
      rw [Int.bmod_neg_bmod, neg_neg]
      exact wrap64_eq b.2
    · have hsum : wrap64 (-(b : Int) + g - 1) = -(b : Int) + g - 1 := wrap64_eq ⟨by omega, by omega⟩
      rw [hsum, Int.tdiv_eq_ediv_of_nonneg (by omega), neg_ediv_round hg, wrap64_eq hfit]

theorem rowGcd_lt_of_least {row : Nat → MInt32} (hne : ∃ j < vars, (row j : Int) ≠ 0)
    (hleast : ¬ ∀ j < vars, (row j : Int) = 0 ∨ (row j : Int) = int32Min) : rowGcd vars row < 2 ^ 31 := by
  obtain ⟨j, hj, hne⟩ := hne
  refine lt_of_le_of_ne (rowGcd_le hj hne) fun heq => hleast fun j hj => ?_
  obtain ⟨q, hq⟩ : rowGcd vars row ∣ row j := Finset.gcd_dvd (mem_range.2 hj)
  obtain ⟨h1, h2⟩ := (row j).2
  rw [heq] at hq
  rw [int32Min]
  omega

theorem rowGcd_eq_of_least {row : Nat → MInt32} (hne : ∃ j < vars, (row j : Int) ≠ 0)
    (hleast : ∀ j < vars, (row j : Int) = 0 ∨ (row j : Int) = int32Min) : rowGcd vars row = 2 ^ 31 := by
  obtain ⟨j, hj, hne⟩ := hne
  refine le_antisymm (rowGcd_le hj hne) (Int.le_of_dvd (rowGcd_pos hj hne) ?_)
  refine Finset.dvd_gcd fun j hj => ?_
  rcases hleast j (mem_range.1 hj) with h | h
  · rw [h]
    exact dvd_zero _
  · rw [h]
    exact ⟨-1, by decide⟩

theorem round_wraps {b : MInt64} {g : Int} (hg : 1 < g) (hlt : g < 2 ^ 31) (hb : (b : Int) < g - 2 ^ 63) :
    0 ≤ (MInt64.ofInt (if (b : Int) ≥ 0 then (b : Int).tdiv g else -(wrap64 (-(b : Int) + g - 1)).tdiv g) : Int) := by
  obtain ⟨h1, h2⟩ := b.2
  have hwrap : wrap64 (-(b : Int) + g - 1) = -(b : Int) + g - 1 - 2 ^ 64 := by
    rw [wrap64, Int.bmod_def]
    split_ifs <;> omega
  show 0 ≤ wrap64 _
  rw [if_neg (by omega), hwrap, ← Int.neg_tdiv, Int.tdiv_eq_ediv_of_nonneg (by omega)]
  have hnonneg : 0 ≤ -(-(b : Int) + g - 1 - 2 ^ 64) / g := Int.ediv_nonneg (by omega) (by omega)
  have hsmall : -(-(b : Int) + g - 1 - 2 ^ 64) / g < 2 ^ 63 := by
    rw [Int.ediv_lt_iff_lt_mul (by omega)]
    omega
  rw [wrap64_eq ⟨by omega, hsmall⟩]
  exact hnonneg

/-- An inequality with a coefficient is divided right just when it is divisible. -/
theorem takeGcdLe_iff (hvars : 0 < vars) (hne : ∃ j < vars, (row.1 j : Int) ≠ 0) :
    (∃ row', takeGcdLe vars row = some row' ∧ LeDivided vars row row') ↔ LeDivisible vars row := by
  obtain ⟨j₀, hj₀, hne₀⟩ := hne
  have hpos := rowGcd_pos hj₀ hne₀
  constructor
  · rintro ⟨row', hrun, hdiv⟩
    have hsingle : ¬ (vars = 1 ∧ (row.1 0 : Int) < 0) := by
      rintro ⟨rfl, hneg⟩
      have hfold : gcdFold row.1 (row.1 0) (List.range' 1 (1 - 1)) = row.1 0 := rfl
      rw [takeGcdLe, hfold, if_neg hneg.ne, if_neg fun h => absurd h.1 (not_lt.2 hneg.le)] at hrun
      cases hrun
    rw [takeGcdLe, leFold_eq hvars hsingle, if_neg hpos.ne'] at hrun
    obtain ⟨-, hrun⟩ := Option.ite_none_right_eq_some.1 hrun
    rw [Option.some.injEq] at hrun
    have hleast : ¬ ∀ j < vars, (row.1 j : Int) = 0 ∨ (row.1 j : Int) = int32Min := by
      intro hleast
      have hg := rowGcd_eq_of_least ⟨j₀, hj₀, hne₀⟩ hleast
      have hfactor := hdiv.factor j₀ hj₀
      have hmin := (hleast j₀ hj₀).resolve_left hne₀
      -- the cast divisor is negative, and so the quotient positive
      have hquot : (row'.1 j₀ : Int) = 1 := by
        rw [← hrun, hg]
        show (divideRow vars row.1 (wrap32 (2 ^ 31)) j₀ : Int) = 1
        rw [divideRow, if_pos hj₀]
        show wrap32 ((row.1 j₀ : Int).tdiv (wrap32 (2 ^ 31))) = 1
        rw [hmin]
        decide
      rw [hquot, hg, hmin, int32Min] at hfactor
      omega
    refine ⟨hsingle, hleast, ?_⟩
    by_contra hround
    rw [not_or, not_or] at hround
    obtain ⟨hneg, hone, hlow⟩ := hround
    have hlt := rowGcd_lt_of_least ⟨j₀, hj₀, hne₀⟩ hleast
    -- the origin is let in
    have hconst : 0 ≤ (row'.2 : Int) := by
      rw [← hrun, wrap32_of_lt hpos hlt]
      exact round_wraps (by omega) hlt (not_le.1 hlow)
    have horigin := (hdiv.points fun _ => 0).1 (by simpa [dot] using hconst)
    simp only [dot, mul_zero, Finset.sum_const_zero] at horigin
    exact hneg horigin
  · rintro ⟨hsingle, hleast, hround⟩
    have hlt := rowGcd_lt_of_least ⟨j₀, hj₀, hne₀⟩ hleast
    have hcast := wrap32_of_lt hpos hlt
    rw [takeGcdLe, leFold_eq hvars hsingle, if_neg hpos.ne', if_pos ⟨hpos, by rw [hcast]; exact hpos.ne'⟩, hcast]
    have hfactor : ∀ j < vars, (row.1 j : Int) = rowGcd vars row.1 * divideRow vars row.1 (rowGcd vars row.1) j :=
      fun j hj => divideRow_eq (Or.inl hpos) hj (Finset.gcd_dvd (mem_range.2 hj))
    refine ⟨_, rfl, hfactor, fun x => ?_⟩
    rw [dot_le_iff_of_factor hpos hfactor, round_eq hpos hround]

end Le

/-! ## Equalities -/

/-- An equality that is divided right: the fold does not end with a negative number, which starting from the least constant it
may at its last column, and the constant of a row without coefficients is not a multiple of `2^32`. -/
structure EqDivisible (vars : Nat) (row : (Nat → MInt32) × Int) : Prop where
  sign : ¬ (row.2 = -2 ^ 63 ∧ (∀ j < vars - 1, (row.1 j : Int) = 0) ∧ gcd64 (-2 ^ 63) (row.1 (vars - 1)) < 0)
  zero : ¬ ((∀ j < vars, (row.1 j : Int) = 0) ∧ row.2 ≠ 0 ∧ 2 ^ 32 ∣ row.2)

section Eq

variable {vars : Nat} {row : (Nat → MInt32) × Int}

theorem gcdFold_zero {row : Nat → MInt32} {cols : List Nat} (h : ∀ j ∈ cols, (row j : Int) = 0) :
    gcdFold row (-2 ^ 63) cols = -2 ^ 63 := by
  induction cols with
  | nil => rfl
  | cons j cols ih =>
    rw [List.forall_mem_cons] at h
    show gcdFold row (gcd64 (-2 ^ 63) (row j)) cols = _
    rw [h.1, show gcd64 (-2 ^ 63) 0 = -2 ^ 63 by decide]
    exact ih h.2

theorem eqFold_nonneg_iff (hvars : 0 < vars) (hb : InInt64 row.2) : 0 ≤ gcdFold row.1 row.2 (List.range vars) ↔
    ¬ (row.2 = -2 ^ 63 ∧ (∀ j < vars - 1, (row.1 j : Int) = 0) ∧ gcd64 (-2 ^ 63) (row.1 (vars - 1)) < 0) := by
  have hsplit : gcdFold row.1 row.2 (List.range vars) =
      gcdFold row.1 (gcdFold row.1 row.2 (List.range (vars - 1))) [vars - 1] := by
    rw [gcdFold, show List.range vars = List.range (vars - 1) ++ [vars - 1] by
      rw [← List.range_succ, show (vars - 1).succ = vars by omega], List.foldl_append]
    rfl
  by_cases hmin : row.2 = -2 ^ 63
  · by_cases hzero : ∀ j < vars - 1, (row.1 j : Int) = 0
    · have hfold := gcdFold_zero fun j hj => hzero j (List.mem_range.1 hj)
      rw [hsplit, hmin, hfold, ← not_lt]
      exact not_congr ⟨fun h => ⟨rfl, hzero, h⟩, fun h => h.2.2⟩
    · refine iff_of_true ?_ fun h => hzero h.2.1
      push Not at hzero
      obtain ⟨j, hj, hne⟩ := hzero
      have hdvd : gcdFold row.1 row.2 (List.range (vars - 1)) ∣ row.1 j :=
        ((dvd_gcdFold hb _ _).1 dvd_rfl).2 j (List.mem_range.2 hj)
      have hle := Int.natAbs_le_of_dvd_ne_zero hdvd hne
      obtain ⟨h1, h2⟩ := (row.1 j).2
      rw [hsplit]
      exact gcdFold_nonneg (inInt64_gcdFold hb _) (by omega) (Or.inl (List.cons_ne_nil _ _))
  · refine iff_of_true (gcdFold_nonneg hb hmin (Or.inl ?_)) fun h => hmin h.1
    rw [ne_eq, List.range_eq_nil]
    exact hvars.ne'

theorem wrap32_eq_zero_iff (g : Int) : wrap32 g = 0 ↔ (2 : Int) ^ 32 ∣ g := by
  rw [wrap32, Int.bmod_def]
  split_ifs <;> omega

theorem wrap32_of_dvd {g : Int} (hg : 0 < g) {j : Nat} (hne : (row.1 j : Int) ≠ 0) (hdvd : g ∣ row.1 j) :
    (0 < wrap32 g ∨ wrap32 g = -2 ^ 31) ∧ (wrap32 g = g ∨ wrap32 g = -g) := by
  have hle := Int.natAbs_le_of_dvd_ne_zero hdvd hne
  obtain ⟨h1, h2⟩ := (row.1 j).2
  by_cases hlt : g < 2 ^ 31
  · rw [wrap32_of_lt hg hlt]
    exact ⟨Or.inl hg, Or.inl rfl⟩
  · rw [show g = 2 ^ 31 by omega, show wrap32 (2 ^ 31) = -2 ^ 31 by decide]
    exact ⟨Or.inr rfl, Or.inr rfl⟩

theorem tdiv_wrap32_ne_zero {b g : Int} (hcast : wrap32 g ≠ 0) (hg : b.natAbs = g.natAbs) : b.tdiv (wrap32 g) ≠ 0 := by
  have hle : (wrap32 g).natAbs ≤ b.natAbs := by
    rw [hg, wrap32, Int.bmod_def]
    split_ifs <;> omega
  intro hzero
  have habs := congrArg Int.natAbs hzero
  rw [Int.natAbs_tdiv, Int.natAbs_zero] at habs
  rcases Nat.div_eq_zero_iff.1 habs with h | h
  · exact hcast (Int.natAbs_eq_zero.1 h)
  · omega

/-- An equality is left with its integer points just when it is divisible. -/
theorem takeGcdEq_iff (hvars : 0 < vars) (hb : InInt64 row.2) :
    (∃ row', takeGcdEq vars row = some row' ∧
      ∀ x : Nat → Int, dot vars (fun j => row'.1 j) x = row'.2 ↔ dot vars (fun j => row.1 j) x = row.2) ↔
    EqDivisible vars row := by
  have hdvd : ∀ d, d ∣ gcdFold row.1 row.2 (List.range vars) ↔ d ∣ row.2 ∧ ∀ j < vars, d ∣ (row.1 j : Int) := by
    intro d
    rw [dvd_gcdFold hb]
    simp only [List.mem_range]
  have hsign := @eqFold_nonneg_iff vars row hvars hb
  unfold takeGcdEq
  generalize gcdFold row.1 row.2 (List.range vars) = g at hdvd hsign
  dsimp only
  by_cases hzero : g = 0
  · rw [if_pos hzero]
    obtain ⟨hb0, -⟩ := (hdvd 0).1 (hzero ▸ dvd_rfl)
    refine iff_of_true ⟨row, rfl, fun x => Iff.rfl⟩ ⟨hsign.1 hzero.ge, fun h => h.2.1 (zero_dvd_iff.1 hb0)⟩
  · rw [if_neg hzero]
    obtain ⟨hgb, hga⟩ := (hdvd g).1 dvd_rfl
    constructor
    · rintro ⟨row', hrun, -⟩
      obtain ⟨⟨hpos, hcast⟩, -⟩ := Option.ite_none_right_eq_some.1 hrun
      refine ⟨hsign.1 hpos.le, fun h => hcast ((wrap32_eq_zero_iff g).2 ((hdvd _).2 ⟨h.2.2, fun j hj => ?_⟩))⟩
      rw [h.1 j hj]
      exact dvd_zero _
    · rintro ⟨hneg, hmult⟩
      have hpos : 0 < g := lt_of_le_of_ne (hsign.2 hneg) (Ne.symm hzero)
      by_cases hrow : ∀ j < vars, (row.1 j : Int) = 0
      · have hb0 : row.2 ≠ 0 := fun h => hzero (zero_dvd_iff.1 ((hdvd 0).2 ⟨h ▸ dvd_rfl, fun j hj => (hrow j hj) ▸ dvd_rfl⟩))
        have hbg : row.2 ∣ g := (hdvd _).2 ⟨dvd_rfl, fun j hj => (hrow j hj) ▸ dvd_zero _⟩
        have hcast : wrap32 g ≠ 0 := by
          rw [ne_eq, wrap32_eq_zero_iff]
          exact fun h => hmult ⟨hrow, hb0, h.trans hgb⟩
        rw [if_pos ⟨hpos, hcast⟩]
        refine ⟨_, rfl, fun x => iff_of_false ?_ ?_⟩
        · rw [dot_eq_zero fun j hj => ?_]
          · exact Ne.symm (tdiv_wrap32_ne_zero hcast (Int.natAbs_eq_of_dvd_dvd hbg hgb))
          · show (divideRow vars row.1 (wrap32 g) j : Int) = 0
            rw [divideRow, if_pos hj, hrow j hj, Int.zero_tdiv]
            decide
        · rw [dot_eq_zero hrow]
          exact Ne.symm hb0
      · push Not at hrow
        obtain ⟨j, hj, hne⟩ := hrow
        obtain ⟨hd, hdg⟩ := wrap32_of_dvd hpos hne (hga j hj)
        have hd0 : wrap32 g ≠ 0 := by omega
        have hdvd' : ∀ y : Int, g ∣ y → wrap32 g ∣ y := by
          intro y hy
          rcases hdg with h | h
          · rwa [h]
          · rwa [h, neg_dvd]
        have hfactor : ∀ j < vars, (row.1 j : Int) = wrap32 g * divideRow vars row.1 (wrap32 g) j :=
          fun j hj => divideRow_eq hd hj (hdvd' _ (hga j hj))
        rw [if_pos ⟨hpos, hd0⟩]
        refine ⟨_, rfl, fun x => ?_⟩
        have hconst := Int.mul_tdiv_cancel' (hdvd' _ hgb)
        dsimp only
        rw [dot_congr hfactor, ← mul_dot]
        constructor
        · intro h
          rw [h]
          exact hconst
        · intro h
          refine mul_left_cancel₀ hd0 ?_
          rw [hconst]
          exact h

end Eq

/-! ## The whole system -/

/-- Equality `r` holds at `x`. -/
def System.EqHolds (s : System) (r : Nat) (x : Nat → Int) : Prop := dot s.vars (fun j => s.eqs.aeq r j) x = s.eqs.beq r

/-- What `Take_Gcds` is for: the rows stay the same in number, each inequality is divided by its greatest common divisor and
keeps its integer points, each equality keeps its own, and so does the system. -/
structure Reduced (s s' : System) : Prop where
  vars : s'.vars = s.vars
  eqnsLe : s'.eqnsLe = s.eqnsLe
  eqnsEq : s'.eqs.eqnsEq = s.eqs.eqnsEq
  factor : ∀ i < s.eqnsLe, ∀ j < s.vars, (s.ale i j : Int) = rowGcd s.vars (s.ale i) * s'.ale i j
  les : ∀ i < s.eqnsLe, ∀ x, s'.RowHolds i x ↔ s.RowHolds i x
  eqs : ∀ r < s.eqs.eqnsEq, ∀ x, s'.EqHolds r x ↔ s.EqHolds r x
  solves : ∀ x, s'.Solves x ↔ s.Solves x

theorem takeGcds_eq_some (s s' : System) : s.takeGcds = some s' ↔
    ∃ (le : Nat → (Nat → MInt32) × MInt64) (eq : Nat → (Nat → MInt32) × Int),
    ((∀ i < s.eqnsLe, takeGcdLe s.vars (s.ale i, s.ble i) = some (le i)) ∧ ∀ i, s.eqnsLe ≤ i → le i = (s.ale i, s.ble i)) ∧
    ((∀ i < s.eqs.eqnsEq, takeGcdEq s.vars (s.eqs.aeq i, s.eqs.beq i) = some (eq i)) ∧
      ∀ i, s.eqs.eqnsEq ≤ i → eq i = (s.eqs.aeq i, s.eqs.beq i)) ∧
    s' = ⟨fun i => (le i).1, fun i => (le i).2, s.eqnsLe, ⟨fun i => (eq i).1, fun i => (eq i).2, s.eqs.eqnsEq, s.eqs.vars⟩⟩ := by
  rw [System.takeGcds, Option.bind_eq_bind, Option.bind_eq_some_iff]
  refine exists_congr fun le => ?_
  rw [forRows_eq_some, Option.bind_eq_bind, Option.bind_eq_some_iff, ← exists_and_left]
  refine exists_congr fun eq => ?_
  rw [forRows_eq_some]
  refine and_congr_right fun _ => and_congr_right fun _ => ?_
  exact ⟨fun h => (Option.some.inj h).symm, fun h => congrArg some h.symm⟩

/-- For a system with a variable and a coefficient in every inequality, `Take_Gcds` returns and does what it is for just when
every row is divisible. -/
theorem takeGcds_exact_iff (s : System) (hvars : 0 < s.vars) (hne : ∀ i < s.eqnsLe, ∃ j < s.vars, (s.ale i j : Int) ≠ 0)
    (hbeq : ∀ r < s.eqs.eqnsEq, InInt64 (s.eqs.beq r)) :
    (∃ s', s.takeGcds = some s' ∧ Reduced s s') ↔
      (∀ i < s.eqnsLe, LeDivisible s.vars (s.ale i, s.ble i)) ∧
        ∀ r < s.eqs.eqnsEq, EqDivisible s.vars (s.eqs.aeq r, s.eqs.beq r) := by
  constructor
  · rintro ⟨s', hrun, hred⟩
    obtain ⟨le, eq, ⟨hle, -⟩, ⟨heq, -⟩, rfl⟩ := (takeGcds_eq_some s s').1 hrun
    refine ⟨fun i hi => ?_, fun r hr => ?_⟩
    · exact (takeGcdLe_iff hvars (hne i hi)).1 ⟨le i, hle i hi, hred.factor i hi, hred.les i hi⟩
    · exact (takeGcdEq_iff hvars (hbeq r hr)).1 ⟨eq r, heq r hr, hred.eqs r hr⟩
  · rintro ⟨hle, heq⟩
    have hle' := fun i hi => (takeGcdLe_iff hvars (hne i hi)).2 (hle i hi)
    have heq' := fun r hr => (takeGcdEq_iff hvars (hbeq r hr)).2 (heq r hr)
    choose le hle₁ hle₂ using hle'
    choose eq heq₁ heq₂ using heq'
    let le' : Nat → (Nat → MInt32) × MInt64 := fun i => if hi : i < s.eqnsLe then le i hi else (s.ale i, s.ble i)
    let eq' : Nat → (Nat → MInt32) × Int := fun i => if hi : i < s.eqs.eqnsEq then eq i hi else (s.eqs.aeq i, s.eqs.beq i)
    have hlow : ∀ i (hi : i < s.eqnsLe), le' i = le i hi := fun i hi => dif_pos hi
    have hloweq : ∀ r (hr : r < s.eqs.eqnsEq), eq' r = eq r hr := fun r hr => dif_pos hr
    refine ⟨_, (takeGcds_eq_some s _).2 ⟨le', eq', ⟨fun i hi => ?_, fun i hi => dif_neg (not_lt.2 hi)⟩,
      ⟨fun r hr => ?_, fun r hr => dif_neg (not_lt.2 hr)⟩, rfl⟩, ?_⟩
    · rw [hlow i hi]
      exact hle₁ i hi
    · rw [hloweq r hr]
      exact heq₁ r hr
    · have hles : ∀ i < s.eqnsLe, ∀ x : Nat → Int, dot s.vars (fun j => (le' i).1 j) x ≤ (le' i).2 ↔ s.RowHolds i x := by
        intro i hi x
        rw [hlow i hi]
        exact (hle₂ i hi).points x
      have heqs : ∀ r < s.eqs.eqnsEq, ∀ x : Nat → Int, dot s.vars (fun j => (eq' r).1 j) x = (eq' r).2 ↔ s.EqHolds r x := by
        intro r hr x
        rw [hloweq r hr]
        exact heq₂ r hr x
      refine ⟨rfl, rfl, rfl, fun i hi j hj => ?_, hles, heqs, fun x => ?_⟩
      · show (s.ale i j : Int) = rowGcd s.vars (s.ale i) * (le' i).1 j
        rw [hlow i hi]
        exact (hle₂ i hi).factor j hj
      · exact ⟨fun h => ⟨fun r hr => (heqs r hr x).1 (h.eqs r hr), fun i hi => (hles i hi x).1 (h.les i hi)⟩,
          fun h => ⟨fun r hr => (heqs r hr x).2 (h.eqs r hr), fun i hi => (hles i hi x).2 (h.les i hi)⟩⟩

/-- `4x + 6y <= -5` becomes `2x + 3y <= -3`. -/
theorem takeGcds_exact_pair : ∃ s', (System.ofLes 2 [([4, 6], -5)]).takeGcds = some s' ∧
    Reduced (System.ofLes 2 [([4, 6], -5)]) s' := by
  refine (takeGcds_exact_iff (System.ofLes 2 [([4, 6], -5)]) (by decide) ?_ fun r hr => absurd hr (Nat.not_lt_zero r)).2
    ⟨fun i hi => ?_, fun r hr => absurd hr (Nat.not_lt_zero r)⟩
  · intro i hi
    obtain rfl : i = 0 := Nat.lt_one_iff.1 hi
    exact ⟨0, by decide, by decide⟩
  · obtain rfl : i = 0 := Nat.lt_one_iff.1 hi
    refine ⟨by decide, by decide, Or.inr (Or.inr ?_)⟩
    have hle : rowGcd 2 ((System.ofLes 2 [([4, 6], -5)]).ale 0) ≤ 2 ^ 31 := @rowGcd_le 2 _ 0 (by decide) (by decide)
    have hb : (((System.ofLes 2 [([4, 6], -5)]).ble 0 : MInt64) : Int) = -5 := by decide
    show rowGcd 2 ((System.ofLes 2 [([4, 6], -5)]).ale 0) - 2 ^ 63 ≤ (((System.ofLes 2 [([4, 6], -5)]).ble 0 : MInt64) : Int)
    rw [hb]
    omega

/-- `-x <= 0`: the fold over a single column is its coefficient, and the assertion `g > 0` fails. -/
theorem takeGcds_asserts : (System.ofLes 1 [([-1], 0)]).takeGcds.isNone = true ∧
    0 < (System.ofLes 1 [([-1], 0)]).vars ∧ ∀ i < (System.ofLes 1 [([-1], 0)]).eqnsLe,
      ∃ j < (System.ofLes 1 [([-1], 0)]).vars, ((System.ofLes 1 [([-1], 0)]).ale i j : Int) ≠ 0 := by
  refine ⟨by decide, by decide, fun i hi => ⟨0, by decide, ?_⟩⟩
  obtain rfl : i = 0 := Nat.lt_one_iff.1 hi
  decide

end Path64.Soe

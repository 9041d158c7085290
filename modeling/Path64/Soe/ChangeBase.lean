import Path64.Soe.Gcds

/-!
# Changing the base

`Change_Base` (`soe.cxx`) takes a column out of all rows but one equality, the pivot, by adding multiples of it. Its tests do not
do what they are meant for: `abs` is that of `int` (with an `INT64` the calls of `Gcd` would be ambiguous), one test has its
parenthesis in the wrong place, and the rows are rewritten before they are tested.

* `Pivot`, `Pivot.changeRow`, `System.changeBase` : the source;
* `Pivot.Fits` : the rows that come out right; `System.RefusedFirst` : an overflow met before an equality has changed;
* `changeBase_sound` : what the function does on systems of these kinds.
-/

namespace Path64.Soe

open Lib

/-! ## The source -/

/-- A row of coefficients and its constant. -/
abbrev Equation := (Nat → MInt32) × Int

def Equalities.equation (q : Equalities) (i : Nat) : Equation := (q.aeq i, q.beq i)

def System.equationLe (s : System) (i : Nat) : Equation := (s.ale i, s.ble i)

/-- `pivot_row`: the first of the equalities with the smallest coefficient in the column. -/
def Equalities.pivotRow (q : Equalities) (pivotColumn : Nat) : Option Nat :=
  (List.range q.eqnsEq).foldl (fun pivotRow i =>
    if (q.aeq i pivotColumn : Int) ≠ 0 then
      match pivotRow with
      | none => some i
      | some p => if abs32 (q.aeq i pivotColumn) < abs32 (q.aeq p pivotColumn) then some i else some p
    else pivotRow) none

/-- The pivot, its column, and what the rows are multiplied by: `factor` the row itself, `sign` the product with the pivot. -/
structure Pivot where
  row : Equation
  column : Nat
  factor : Int
  sign : Int

/-- `pivot_value`. -/
def Pivot.value (p : Pivot) : Int := p.row.1 p.column

/-- For equalities: `- pivot_value * row + row(pivot_column) * pivot`. -/
def Pivot.ofEq (row : Equation) (column : Nat) : Pivot := ⟨row, column, -(row.1 column : Int), 1⟩

/-- For inequalities, where the row must be multiplied by a positive number. -/
def Pivot.ofLe (row : Equation) (column : Nat) : Pivot :=
  if (row.1 column : Int) < 0 then ⟨row, column, -(row.1 column : Int), 1⟩ else ⟨row, column, row.1 column, -1⟩

/-- `work[k]`; the product of the two `mINT32` is formed in 32 bits. -/
def Pivot.work (p : Pivot) (row : Equation) (k : Nat) : Int :=
  p.factor * row.1 k + p.sign * wrap32 (row.1 p.column * p.row.1 k)

/-- The new constant. -/
def Pivot.const (p : Pivot) (row : Equation) : Int := wrap64 (p.factor * row.2 + p.sign * (row.1 p.column * p.row.2))

/-- Which test a row is left at. -/
inductive Refusal where
  | const
  | coefficient
deriving DecidableEq, Repr

/-- The loop that stores `work` and folds the divisor; no divisor when it is left. The test reads `abs(work[k] <= INT32_MAX)`. -/
def storeWork (work : Nat → Int) : List Nat → (Nat → MInt32) → Int → Option Int × (Nat → MInt32)
  | [], row, g => (some g, row)
  | k :: rest, row, g =>
    if work k ≤ int32Max then
      storeWork work rest (Function.update row k (MInt32.ofInt (work k))) (gcd32 g (abs32 (wrap32 (work k))))
    else (none, row)

/-- One row. -/
def Pivot.changeRow (p : Pivot) (vars : Nat) (row : Equation) : Option Refusal × Equation :=
  let const := p.const row
  if abs32 (wrap32 const) > int32Max then (some .const, row.1, const)
  else
    match storeWork (p.work row) (List.range vars) row.1 (abs32 (wrap32 const)) with
    | (none, coeffs) => (some .coefficient, coeffs, const)
    | (some g, coeffs) => (none, if g > 1 then (divideRow vars coeffs g, const.tdiv g) else (coeffs, const))

/-- The body of the loops over the rows. -/
def Pivot.change (p : Pivot) (vars : Nat) (skip : Nat → Bool) (i : Nat) (row : Equation) : Option Refusal × Equation :=
  if skip i = false ∧ (row.1 p.column : Int) ≠ 0 then p.changeRow vars row else (none, row)

def System.setEq (s : System) (rows : Nat → Equation) : System :=
  { s with eqs := { s.eqs with aeq := fun i => (rows i).1, beq := fun i => (rows i).2 } }

def System.setLe (s : System) (rows : Nat → Equation) : System :=
  { s with ale := fun i => (rows i).1, ble := fun i => MInt64.ofInt (rows i).2 }

/-- The loop over the inequalities. -/
def System.changeLes (s : System) (pivot : Equation) (pivotRow pivotColumn : Nat) : Int × System :=
  match forRowsUntil ((Pivot.ofLe pivot pivotColumn).change s.vars fun _ => false) (List.range s.eqnsLe) s.equationLe with
  | (some .const, rows) => (0, s.setLe rows)
  | (some .coefficient, rows) => (-1, s.setLe rows)
  | (none, rows) => (pivotRow, s.setLe rows)

/-- The rest of the function, once the pivot is found. -/
def System.changeBaseOn (s : System) (pivotRow pivotColumn : Nat) : Int × System :=
  let pivot := s.eqs.equation pivotRow
  match forRowsUntil ((Pivot.ofEq pivot pivotColumn).change s.vars (· == pivotRow)) (List.range s.eqs.eqnsEq)
    s.eqs.equation with
  | (some _, rows) => (-1, s.setEq rows)
  | (none, rows) => (s.setEq rows).changeLes pivot pivotRow pivotColumn

/-- `Change_Base`. -/
def System.changeBase (s : System) (dim pos : Nat) : Int × System :=
  match s.eqs.pivotRow (dim + pos) with
  | none => (-1, s)
  | some p => s.changeBaseOn p (dim + pos)

/-! ## One row -/

/-- The exact combinations. -/
def Pivot.coeffExact (p : Pivot) (row : Equation) (k : Nat) : Int := p.factor * row.1 k + p.sign * (row.1 p.column * p.row.1 k)

def Pivot.constExact (p : Pivot) (row : Equation) : Int := p.factor * row.2 + p.sign * (row.1 p.column * p.row.2)

/-- A row for which nothing overflows, and whose divisor, folded with the low half of the constant, divides the constant. -/
structure Pivot.Fits (p : Pivot) (vars : Nat) (row : Equation) : Prop where
  product : ∀ k < vars, InInt32 (row.1 p.column * p.row.1 k)
  coeff : ∀ k < vars, InInt32 (p.coeffExact row k)
  const : InInt64 (p.constExact row)
  divisor : ∀ d : Int, d ∣ wrap32 (p.constExact row) → (∀ k < vars, d ∣ p.coeffExact row k) → d ∣ p.constExact row

/-- `row'` is the exact combination, each coefficient of which fits, divided by a positive number. -/
structure Pivot.Exact (p : Pivot) (vars : Nat) (row row' : Equation) : Prop where
  fits : ∀ k < vars, InInt32 (p.coeffExact row k)
  factor : ∃ d : Int, 0 < d ∧ (∀ k < vars, p.coeffExact row k = d * row'.1 k) ∧ p.constExact row = d * row'.2

/-- The column goes, and the row is multiplied by a number that is not zero. -/
structure Pivot.Eliminates (p : Pivot) : Prop where
  cancels : p.factor = -p.sign * p.value
  ne : p.factor ≠ 0

theorem storeWork_of_fits {work : Nat → Int} {cols : List Nat} (h : ∀ k ∈ cols, InInt32 (work k)) (row : Nat → MInt32) {g : Int}
    (hg : InInt32 g) : ∃ g', storeWork work cols row g = (some g', fun k => if k ∈ cols then MInt32.ofInt (work k) else row k) ∧
      ∀ d : Int, d ∣ g' ↔ d ∣ g ∧ ∀ k ∈ cols, d ∣ work k := by
  induction cols generalizing row g with
  | nil => exact ⟨g, by simp [storeWork], by simp⟩
  | cons k rest ih =>
    rw [List.forall_mem_cons] at h
    obtain ⟨hk, hrest⟩ := h
    obtain ⟨g', hrun, hdvd⟩ := ih hrest (Function.update row k (MInt32.ofInt (work k)))
      (inInt32_gcd32 g (abs32 (wrap32 (work k))))
    refine ⟨g', ?_, fun d => ?_⟩
    · have hle : work k ≤ int32Max := by
        have := hk.2
        rw [int32Max]
        omega
      rw [storeWork, if_pos hle, hrun]
      refine Prod.ext rfl (funext fun j => ?_)
      by_cases hj : j ∈ rest
      · simp [hj]
      · by_cases hjk : j = k
        · simp [hjk]
        · simp [hj, hjk]
    · rw [hdvd, dvd_gcd32 hg (inInt32_abs32 _), dvd_abs32 (inInt32_wrap32 _), wrap32_eq_iff.2 hk, List.forall_mem_cons, and_assoc]

theorem abs32_le_int32Max (x : Int) : ¬ abs32 x > int32Max := by
  have := (inInt32_abs32 x).2
  rw [int32Max]
  omega

section Row

variable {p : Pivot} {vars : Nat} {row row' : Equation}

theorem work_eq (h : p.Fits vars row) {k : Nat} (hk : k < vars) : p.work row k = p.coeffExact row k := by
  rw [Pivot.work, wrap32_eq_iff.2 (h.product k hk), Pivot.coeffExact]

theorem changeRow_of_fits (h : p.Fits vars row) : ∃ row', p.changeRow vars row = (none, row') ∧ p.Exact vars row row' := by
  have hconst : p.const row = p.constExact row := wrap64_eq h.const
  obtain ⟨g, hrun, hdvd⟩ := @storeWork_of_fits (p.work row) (List.range vars)
    (fun k hk => (work_eq h (List.mem_range.1 hk)).symm ▸ h.coeff k (List.mem_range.1 hk)) row.1
    (abs32 (wrap32 (p.constExact row))) (inInt32_wrap32 _)
  have hstored : ∀ k < vars,
      ((if k ∈ List.range vars then MInt32.ofInt (p.work row k) else row.1 k : MInt32) : Int) = p.coeffExact row k := by
    intro k hk
    rw [if_pos (List.mem_range.2 hk), work_eq h hk]
    exact wrap32_eq_iff.2 (h.coeff k hk)
  rw [Pivot.changeRow, hconst, if_neg (abs32_le_int32Max _), hrun]
  refine ⟨_, rfl, h.coeff, ?_⟩
  split_ifs with hg
  · obtain ⟨hgc, hgk⟩ := (hdvd g).1 dvd_rfl
    rw [dvd_abs32 (inInt32_wrap32 _)] at hgc
    have hgk' : ∀ k < vars, g ∣ p.coeffExact row k := fun k hk => work_eq h hk ▸ hgk k (List.mem_range.2 hk)
    refine ⟨g, by omega, fun k hk => ?_, ?_⟩
    · rw [← divideRow_eq (Or.inl (by omega)) hk ((hstored k hk).symm ▸ hgk' k hk)]
      exact (hstored k hk).symm
    · exact (Int.mul_tdiv_cancel' (h.divisor g hgc hgk')).symm
  · refine ⟨1, one_pos, fun k hk => ?_, (one_mul _).symm⟩
    rw [one_mul]
    exact (hstored k hk).symm

theorem Pivot.Exact.column (h : p.Exact vars row row') (hp : p.Eliminates) (hcol : p.column < vars) :
    (row'.1 p.column : Int) = 0 := by
  obtain ⟨d, hd, hcoeff, -⟩ := h.factor
  have hzero : p.coeffExact row p.column = 0 := by
    rw [Pivot.coeffExact, hp.cancels, Pivot.value]
    ring
  have hmul := hcoeff p.column hcol
  rw [hzero] at hmul
  exact (mul_eq_zero.1 hmul.symm).resolve_left hd.ne'

theorem Pivot.Exact.dot_eq (h : p.Exact vars row row') {x : Nat → ℚ}
    (hx : dot vars (fun k => p.row.1 k) x = p.row.2) : ∃ d : ℚ, 0 < d ∧
      d * (dot vars (fun k => row'.1 k) x - row'.2) = p.factor * (dot vars (fun k => row.1 k) x - row.2) := by
  obtain ⟨d, hd, hcoeff, hconst⟩ := h.factor
  refine ⟨d, Int.cast_pos.2 hd, ?_⟩
  have hsum : (d : ℚ) * dot vars (fun k => row'.1 k) x =
      p.factor * dot vars (fun k => row.1 k) x + (p.sign * row.1 p.column : Int) * dot vars (fun k => p.row.1 k) x := by
    rw [mul_dot, mul_dot, mul_dot, dot_add]
    refine dot_congr fun k hk => ?_
    rw [← hcoeff k hk, Pivot.coeffExact]
    ring
  have hconstQ : (d : ℚ) * row'.2 = p.factor * row.2 + (p.sign * row.1 p.column : Int) * p.row.2 := by
    rw [← Int.cast_mul, ← hconst, Pivot.constExact]
    push_cast
    ring
  rw [mul_sub, hsum, hconstQ, hx]
  ring

theorem Pivot.Exact.eq_iff (h : p.Exact vars row row') (hp : p.Eliminates) {x : Nat → ℚ}
    (hx : dot vars (fun k => p.row.1 k) x = p.row.2) :
    dot vars (fun k => row'.1 k) x = row'.2 ↔ dot vars (fun k => row.1 k) x = row.2 := by
  obtain ⟨d, hd, heq⟩ := h.dot_eq hx
  have hne : (p.factor : ℚ) ≠ 0 := Int.cast_ne_zero.2 hp.ne
  rw [← sub_eq_zero, ← mul_eq_zero_iff_left hd.ne', heq, mul_eq_zero, or_iff_right hne, sub_eq_zero]

theorem Pivot.Exact.le_iff (h : p.Exact vars row row') (hp : 0 < p.factor) {x : Nat → ℚ}
    (hx : dot vars (fun k => p.row.1 k) x = p.row.2) :
    dot vars (fun k => row'.1 k) x ≤ row'.2 ↔ dot vars (fun k => row.1 k) x ≤ row.2 := by
  obtain ⟨d, hd, heq⟩ := h.dot_eq hx
  have hpos : (0 : ℚ) < p.factor := Int.cast_pos.2 hp
  have hscale : ∀ {c t : ℚ}, 0 < c → (c * t ≤ 0 ↔ t ≤ 0) := fun {c t} hc => by
    have hmul : c * t ≤ c * 0 ↔ t ≤ 0 := mul_le_mul_iff_right₀ hc
    rwa [mul_zero] at hmul
  rw [← sub_nonpos, ← hscale hd, heq, hscale hpos, sub_nonpos]

end Row

/-! ## Rows that are refused -/

theorem exists_range_split {k n : Nat} (hk : k < n) : ∃ pre post, List.range n = pre ++ k :: post ∧ ∀ j ∈ pre, j < k := by
  obtain ⟨pre, post, h⟩ := List.append_of_mem (List.mem_range.2 hk)
  have hsorted := List.pairwise_lt_range (n := n)
  rw [h, List.pairwise_append] at hsorted
  exact ⟨pre, post, h, fun j hj => hsorted.2.2 j hj k List.mem_cons_self⟩

theorem storeWork_of_large {work : Nat → Int} {cols : List Nat} (h : ∃ k ∈ cols, int32Max < work k) (row : Nat → MInt32) (g : Int) :
    (storeWork work cols row g).1 = none := by
  induction cols generalizing row g with
  | nil =>
    obtain ⟨k, hk, -⟩ := h
    exact absurd hk List.not_mem_nil
  | cons j rest ih =>
    rw [storeWork]
    split_ifs with hj
    · refine ih ?_ _ _
      obtain ⟨k, hk, hlarge⟩ := h
      rcases List.mem_cons.1 hk with rfl | hk
      · exact absurd hj (not_le.2 hlarge)
      · exact ⟨k, hk, hlarge⟩
    · rfl

theorem storeWork_of_same {work : Nat → Int} {row : Nat → MInt32} {pre post : List Nat} {k : Nat}
    (hpre : ∀ j ∈ pre, work j = row j) (hk : int32Max < work k) (g : Int) :
    storeWork work (pre ++ k :: post) row g = (none, row) := by
  induction pre generalizing g with
  | nil => rw [List.nil_append, storeWork, if_neg (not_le.2 hk)]
  | cons j pre ih =>
    rw [List.forall_mem_cons] at hpre
    have hle : work j ≤ int32Max := by
      have := (row j).2.2
      rw [hpre.1, int32Max]
      omega
    have hsame : MInt32.ofInt (work j) = row j := Subtype.ext (by rw [hpre.1]; exact wrap32_eq_iff.2 (row j).2)
    rw [List.cons_append, storeWork, if_pos hle, hsame, Function.update_eq_self]
    exact ih hpre.2 _

theorem changeRow_of_large {p : Pivot} {vars : Nat} {row : Equation} {k : Nat} (hk : k < vars) (hlarge : int32Max < p.work row k) :
    (p.changeRow vars row).1 = some .coefficient := by
  have hnone := storeWork_of_large ⟨k, List.mem_range.2 hk, hlarge⟩ row.1 (abs32 (wrap32 (p.const row)))
  rw [Pivot.changeRow, if_neg (abs32_le_int32Max _)]
  generalize storeWork (p.work row) (List.range vars) row.1 (abs32 (wrap32 (p.const row))) = r at hnone
  obtain ⟨_ | g, coeffs⟩ := r
  · rfl
  · exact absurd hnone nofun

theorem changeRow_of_same {p : Pivot} {vars : Nat} {row : Equation} {k : Nat} (hk : k < vars) (hlarge : int32Max < p.work row k)
    (hconst : p.const row = row.2) (hpre : ∀ j < k, p.work row j = row.1 j) :
    p.changeRow vars row = (some .coefficient, row) := by
  obtain ⟨pre, post, hsplit, hlt⟩ := exists_range_split hk
  rw [Pivot.changeRow, if_neg (abs32_le_int32Max _), hsplit, storeWork_of_same (fun j hj => hpre j (hlt j hj)) hlarge]
  dsimp only
  rw [hconst]

theorem change_ne_const (p : Pivot) (vars : Nat) (skip : Nat → Bool) (i : Nat) (row : Equation) :
    (p.change vars skip i row).1 ≠ some .const := by
  rw [Pivot.change]
  split_ifs
  · rw [Pivot.changeRow, if_neg (abs32_le_int32Max _)]
    generalize storeWork (p.work row) (List.range vars) row.1 (abs32 (wrap32 (p.const row))) = r
    obtain ⟨_ | g, coeffs⟩ := r
    · exact fun h => absurd (Option.some.inj h) (by decide)
    · exact nofun
  · exact nofun

/-! ## The whole system -/

/-- What a loop leaves of row `i`. -/
structure Pivot.Changed (p : Pivot) (vars : Nat) (skip : Nat → Bool) (i : Nat) (row row' : Equation) : Prop where
  exact : skip i = false → (row.1 p.column : Int) ≠ 0 → p.Exact vars row row'
  same : skip i = true ∨ (row.1 p.column : Int) = 0 → row' = row

theorem change_of_same {p : Pivot} {vars : Nat} {skip : Nat → Bool} {i : Nat} {row : Equation}
    (h : skip i = true ∨ (row.1 p.column : Int) = 0) : p.change vars skip i row = (none, row) := by
  rw [Pivot.change, if_neg]
  rintro ⟨hskip, hne⟩
  rcases h with h | h
  · exact absurd (h.symm.trans hskip) (by decide)
  · exact hne h

theorem changeRows_of_fits {p : Pivot} {vars n : Nat} {skip : Nat → Bool} {rows : Nat → Equation}
    (h : ∀ i < n, skip i = false → ((rows i).1 p.column : Int) ≠ 0 → p.Fits vars (rows i)) :
    ∃ rows', forRowsUntil (p.change vars skip) (List.range n) rows = (none, rows') ∧
      ∀ i < n, p.Changed vars skip i (rows i) (rows' i) := by
  have hrow : ∀ i < n, (p.change vars skip i (rows i)).1 = none ∧
      p.Changed vars skip i (rows i) (p.change vars skip i (rows i)).2 := by
    intro i hi
    by_cases hchange : skip i = false ∧ ((rows i).1 p.column : Int) ≠ 0
    · obtain ⟨row', hrun, hexact⟩ := changeRow_of_fits (h i hi hchange.1 hchange.2)
      rw [Pivot.change, if_pos hchange, hrun]
      refine ⟨rfl, fun _ _ => hexact, fun hsame => ?_⟩
      rcases hsame with hsame | hsame
      · exact absurd (hsame.symm.trans hchange.1) (by decide)
      · exact absurd hsame hchange.2
    · rw [Pivot.change, if_neg hchange]
      exact ⟨rfl, fun hskip hne => absurd ⟨hskip, hne⟩ hchange, fun _ => rfl⟩
  refine ⟨_, forRowsUntil_eq_none List.nodup_range fun i hi => (hrow i (List.mem_range.1 hi)).1, fun i hi => ?_⟩
  rw [if_pos (List.mem_range.2 hi)]
  exact (hrow i hi).2

theorem pivotRow_spec (q : Equalities) (c : Nat) : (q.pivotRow c = none → ∀ i < q.eqnsEq, (q.aeq i c : Int) = 0) ∧
    ∀ p, q.pivotRow c = some p → p < q.eqnsEq ∧ (q.aeq p c : Int) ≠ 0 := by
  refine foldl_range (fun k r => (r = none → ∀ i < k, (q.aeq i c : Int) = 0) ∧
    ∀ p, r = some p → p < k ∧ (q.aeq p c : Int) ≠ 0) ⟨fun _ i hi => absurd hi (Nat.not_lt_zero i), nofun⟩ ?_
  rintro k r hk ⟨hnone, hsome⟩
  split_ifs with hne
  · cases r with
    | none =>
      refine ⟨nofun, fun p hp => ?_⟩
      cases hp
      exact ⟨Nat.lt_succ_self k, hne⟩
    | some p₀ =>
      obtain ⟨hp, hpne⟩ := hsome p₀ rfl
      dsimp only
      split_ifs
      · exact ⟨nofun, fun p h => by cases h; exact ⟨Nat.lt_succ_self k, hne⟩⟩
      · exact ⟨nofun, fun p h => by cases h; exact ⟨by omega, hpne⟩⟩
  · refine ⟨fun h i hi => ?_, fun p hp => ?_⟩
    · rcases Nat.lt_succ_iff_lt_or_eq.1 hi with hi | rfl
      · exact hnone h i hi
      · exact not_not.1 hne
    · obtain ⟨hlt, hpne⟩ := hsome p hp
      exact ⟨by omega, hpne⟩

/-- The rational points of a system. -/
structure System.SolvesRational (s : System) (x : Nat → ℚ) : Prop where
  eqs : ∀ i < s.eqs.eqnsEq, dot s.vars (fun k => s.eqs.aeq i k) x = s.eqs.beq i
  les : ∀ i < s.eqnsLe, dot s.vars (fun k => s.ale i k) x ≤ ((s.ble i : Int) : ℚ)

/-- What a change of base with pivot `p` is for: column `c` is left in the pivot alone, every row that had it is an exact
combination, no coefficient of which has wrapped, and the rational points are the same. -/
structure BaseChanged (s s' : System) (c p : Nat) : Prop where
  pivot : p < s.eqs.eqnsEq ∧ (s.eqs.aeq p c : Int) ≠ 0
  vars : s'.vars = s.vars
  eqnsEq : s'.eqs.eqnsEq = s.eqs.eqnsEq
  eqnsLe : s'.eqnsLe = s.eqnsLe
  column : ∀ i < s.eqs.eqnsEq, i ≠ p → (s'.eqs.aeq i c : Int) = 0
  columnLe : ∀ i < s.eqnsLe, (s'.ale i c : Int) = 0
  exact : ∀ i < s.eqs.eqnsEq, i ≠ p → (s.eqs.aeq i c : Int) ≠ 0 →
    (Pivot.ofEq (s.eqs.equation p) c).Exact s.vars (s.eqs.equation i) (s'.eqs.equation i)
  exactLe : ∀ i < s.eqnsLe, (s.ale i c : Int) ≠ 0 →
    (Pivot.ofLe (s.eqs.equation p) c).Exact s.vars (s.equationLe i) (s'.equationLe i)
  points : ∀ x : Nat → ℚ, s'.SolvesRational x ↔ s.SolvesRational x

/-- Every row that has column `c` fits. -/
structure System.Fits (s : System) (c p : Nat) : Prop where
  eqs : ∀ i < s.eqs.eqnsEq, i ≠ p → (s.eqs.aeq i c : Int) ≠ 0 →
    (Pivot.ofEq (s.eqs.equation p) c).Fits s.vars (s.eqs.equation i)
  les : ∀ i < s.eqnsLe, (s.ale i c : Int) ≠ 0 → (Pivot.ofLe (s.eqs.equation p) c).Fits s.vars (s.equationLe i)

/-- A coefficient above `INT32_MAX` is met before an equality has changed: in the first equality that has the column, when
its constant and the coefficients before stay the same, or in an inequality, when no other equality has the column. -/
inductive System.RefusedFirst (s : System) (c p : Nat) : Prop
  | eq (i k : Nat) (hi : i < s.eqs.eqnsEq) (hk : k < s.vars) (hip : i ≠ p) (hne : (s.eqs.aeq i c : Int) ≠ 0)
      (first : ∀ j < i, j = p ∨ (s.eqs.aeq j c : Int) = 0)
      (const : (Pivot.ofEq (s.eqs.equation p) c).const (s.eqs.equation i) = s.eqs.beq i)
      (same : ∀ j < k, (Pivot.ofEq (s.eqs.equation p) c).work (s.eqs.equation i) j = s.eqs.aeq i j)
      (large : int32Max < (Pivot.ofEq (s.eqs.equation p) c).work (s.eqs.equation i) k)
  | le (i k : Nat) (hi : i < s.eqnsLe) (hk : k < s.vars) (hne : (s.ale i c : Int) ≠ 0)
      (none : ∀ j < s.eqs.eqnsEq, j = p ∨ (s.eqs.aeq j c : Int) = 0)
      (large : int32Max < (Pivot.ofLe (s.eqs.equation p) c).work (s.equationLe i) k)

theorem ofEq_eliminates {row : Equation} {c : Nat} (h : (row.1 c : Int) ≠ 0) : (Pivot.ofEq row c).Eliminates :=
  ⟨(neg_one_mul _).symm, neg_ne_zero.2 h⟩

theorem ofLe_column (row : Equation) (c : Nat) : (Pivot.ofLe row c).column = c := by
  rw [Pivot.ofLe]
  split_ifs <;> rfl

theorem ofLe_row (row : Equation) (c : Nat) : (Pivot.ofLe row c).row = row := by
  rw [Pivot.ofLe]
  split_ifs <;> rfl

theorem ofLe_eliminates {row : Equation} {c : Nat} (h : (row.1 c : Int) ≠ 0) :
    (Pivot.ofLe row c).Eliminates ∧ 0 < (Pivot.ofLe row c).factor := by
  rw [Pivot.ofLe]
  split_ifs with hneg
  · exact ⟨ofEq_eliminates h, neg_pos.2 hneg⟩
  · have hpos : (0 : Int) < row.1 c := lt_of_le_of_ne (not_lt.1 hneg) (Ne.symm h)
    refine ⟨⟨?_, hpos.ne'⟩, hpos⟩
    show (row.1 c : Int) = -(-1) * row.1 c
    rw [neg_neg, one_mul]

theorem Pivot.Exact.inInt64 {p : Pivot} {vars : Nat} {row row' : Equation} (h : p.Exact vars row row')
    (hconst : InInt64 (p.constExact row)) : InInt64 row'.2 := by
  obtain ⟨d, hd, -, heq⟩ := h.factor
  rw [heq] at hconst
  obtain ⟨h1, h2⟩ := hconst
  constructor <;> nlinarith

section System

variable {s : System} {c p : Nat}

/-- When every row fits, the base is changed. -/
theorem changeBaseOn_of_fits (hp : p < s.eqs.eqnsEq) (hne : (s.eqs.aeq p c : Int) ≠ 0) (hc : c < s.vars) (h : s.Fits c p) :
    (s.changeBaseOn p c).1 = p ∧ BaseChanged s (s.changeBaseOn p c).2 c p := by
  obtain ⟨eqs, hrun, heqs⟩ := @changeRows_of_fits (Pivot.ofEq (s.eqs.equation p) c) s.vars s.eqs.eqnsEq (· == p) s.eqs.equation
    fun i hi hip hne => h.eqs i hi (fun heq => by simp [heq] at hip) hne
  obtain ⟨les, hrunLe, hles⟩ := @changeRows_of_fits (Pivot.ofLe (s.eqs.equation p) c) s.vars s.eqnsLe (fun _ => false) s.equationLe
    fun i hi _ hne => h.les i hi (by rwa [ofLe_column] at hne)
  have hresult : s.changeBaseOn p c = ((p : Int), (s.setEq eqs).setLe les) := by
    rw [System.changeBaseOn, hrun]
    have hrunLe : forRowsUntil ((Pivot.ofLe (s.eqs.equation p) c).change (s.setEq eqs).vars fun _ => false)
        (List.range (s.setEq eqs).eqnsLe) (s.setEq eqs).equationLe = (none, les) := hrunLe
    show (s.setEq eqs).changeLes (s.eqs.equation p) p c = _
    rw [System.changeLes, hrunLe]
  have hskip : ∀ {i}, i ≠ p → (i == p) = false := fun hip => beq_eq_false_iff_ne.2 hip
  have hpivot : eqs p = s.eqs.equation p := (heqs p hp).same (Or.inl (beq_self_eq_true p))
  have helim := @ofEq_eliminates (s.eqs.equation p) c hne
  obtain ⟨helimLe, hfactor⟩ := @ofLe_eliminates (s.eqs.equation p) c hne
  -- what the loops leave of a row, whether it had the column or not
  have hcolumn : ∀ i < s.eqs.eqnsEq, i ≠ p → ((eqs i).1 c : Int) = 0 := by
    intro i hi hip
    by_cases hzero : (s.eqs.aeq i c : Int) = 0
    · rw [(heqs i hi).same (Or.inr hzero)]
      exact hzero
    · exact ((heqs i hi).exact (hskip hip) hzero).column helim hc
  have hcolumnLe : ∀ i < s.eqnsLe, ((les i).1 c : Int) = 0 := by
    intro i hi
    by_cases hzero : (s.ale i c : Int) = 0
    · rw [(hles i hi).same (Or.inr (by rwa [ofLe_column]))]
      exact hzero
    · have hcol := ((hles i hi).exact rfl (by rwa [ofLe_column])).column helimLe (by rwa [ofLe_column])
      rwa [ofLe_column] at hcol
  have hconst : ∀ i < s.eqnsLe, (MInt64.ofInt (les i).2 : Int) = (les i).2 := by
    intro i hi
    refine wrap64_eq ?_
    by_cases hzero : (s.ale i c : Int) = 0
    · rw [(hles i hi).same (Or.inr (by rwa [ofLe_column]))]
      exact (s.ble i).2
    · exact ((hles i hi).exact rfl (by rwa [ofLe_column])).inInt64 (h.les i hi hzero).const
  have hequationLe : ∀ i < s.eqnsLe, ((s.setEq eqs).setLe les).equationLe i = les i :=
    fun i hi => Prod.ext rfl (hconst i hi)
  rw [hresult]
  refine ⟨rfl, ⟨hp, hne⟩, rfl, rfl, rfl, hcolumn, hcolumnLe, fun i hi hip hzero => (heqs i hi).exact (hskip hip) hzero,
    fun i hi hzero => ?_, fun x => ?_⟩
  · rw [hequationLe i hi]
    exact (hles i hi).exact rfl (by rwa [ofLe_column])
  · -- the pivot holds in both, and so does each other row in one when it does in the other
    have heq : dot s.vars (fun k => s.eqs.aeq p k) x = s.eqs.beq p → ∀ i < s.eqs.eqnsEq,
        (dot s.vars (fun k => (eqs i).1 k) x = (eqs i).2 ↔ dot s.vars (fun k => s.eqs.aeq i k) x = s.eqs.beq i) := by
      intro hx i hi
      by_cases hchanged : i ≠ p ∧ (s.eqs.aeq i c : Int) ≠ 0
      · exact ((heqs i hi).exact (hskip hchanged.1) hchanged.2).eq_iff helim hx
      · rw [(heqs i hi).same ?_]
        · rfl
        · rw [not_and_or, not_not, not_not] at hchanged
          exact hchanged.imp (fun hip => beq_iff_eq.2 hip) id
    have hle : dot s.vars (fun k => s.eqs.aeq p k) x = s.eqs.beq p → ∀ i < s.eqnsLe,
        (dot s.vars (fun k => (les i).1 k) x ≤ ((MInt64.ofInt (les i).2 : Int) : ℚ) ↔
          dot s.vars (fun k => s.ale i k) x ≤ ((s.ble i : Int) : ℚ)) := by
      intro hx i hi
      rw [hconst i hi]
      by_cases hzero : (s.ale i c : Int) = 0
      · rw [(hles i hi).same (Or.inr (by rwa [ofLe_column]))]
        rfl
      · refine ((hles i hi).exact rfl (by rwa [ofLe_column])).le_iff hfactor ?_
        rw [ofLe_row]
        exact hx
    constructor
    · intro hs
      have hx : dot s.vars (fun k => s.eqs.aeq p k) x = s.eqs.beq p := by
        have := hs.eqs p hp
        change dot s.vars (fun k => (eqs p).1 k) x = (eqs p).2 at this
        rwa [hpivot] at this
      exact ⟨fun i hi => (heq hx i hi).1 (hs.eqs i hi), fun i hi => (hle hx i hi).1 (hs.les i hi)⟩
    · intro hs
      have hx := hs.eqs p hp
      exact ⟨fun i hi => (heq hx i hi).2 (hs.eqs i hi), fun i hi => (hle hx i hi).2 (hs.les i hi)⟩

/-- When a coefficient is refused first, the equalities stay. -/
theorem changeBaseOn_of_refused (h : s.RefusedFirst c p) :
    (s.changeBaseOn p c).1 = -1 ∧ (s.changeBaseOn p c).2.eqs = s.eqs := by
  have hsame : ∀ j, j = p ∨ (s.eqs.aeq j c : Int) = 0 →
      (Pivot.ofEq (s.eqs.equation p) c).change s.vars (· == p) j (s.eqs.equation j) = (none, s.eqs.equation j) :=
    fun j hj => change_of_same (hj.imp (fun hjp => beq_iff_eq.2 hjp) id)
  cases h with
  | eq i k hi hk hip hne first const same large =>
    obtain ⟨pre, post, hsplit, hlt⟩ := exists_range_split hi
    have hrow : (Pivot.ofEq (s.eqs.equation p) c).change s.vars (· == p) i (s.eqs.equation i) =
        (some .coefficient, s.eqs.equation i) := by
      rw [Pivot.change, if_pos ⟨beq_eq_false_iff_ne.2 hip, hne⟩]
      exact changeRow_of_same hk large const same
    rw [System.changeBaseOn, hsplit, forRowsUntil_of_same (fun j hj => hsame j (first j (hlt j hj))) hrow]
    exact ⟨rfl, rfl⟩
  | le i k hi hk hne none large =>
    have hrows : forRowsUntil ((Pivot.ofEq (s.eqs.equation p) c).change s.vars (· == p)) (List.range s.eqs.eqnsEq)
        s.eqs.equation = (Option.none, s.eqs.equation) := by
      rw [forRowsUntil_eq_none List.nodup_range fun j hj => by rw [hsame j (none j (List.mem_range.1 hj))]]
      refine Prod.ext rfl (funext fun j => ?_)
      dsimp only
      split_ifs with hj
      · rw [hsame j (none j (List.mem_range.1 hj))]
      · rfl
    rw [System.changeBaseOn, hrows]
    show (s.changeLes (s.eqs.equation p) p c).1 = -1 ∧ (s.changeLes (s.eqs.equation p) p c).2.eqs = s.eqs
    rw [System.changeLes]
    generalize hloop : forRowsUntil ((Pivot.ofLe (s.eqs.equation p) c).change s.vars fun _ => false) (List.range s.eqnsLe)
      s.equationLe = r
    obtain ⟨_ | _ | _, rows⟩ := r
    · -- the loop does not run to its end
      have hnone := forall_of_forRowsUntil_none List.nodup_range (congrArg Prod.fst hloop) i (List.mem_range.2 hi)
      have hlarge := @changeRow_of_large (Pivot.ofLe (s.eqs.equation p) c) s.vars (s.equationLe i) k hk large
      rw [Pivot.change, if_pos ⟨rfl, by rw [ofLe_column]; exact hne⟩, hlarge] at hnone
      exact absurd hnone nofun
    · obtain ⟨j, -, hconst⟩ := exists_of_forRowsUntil_some List.nodup_range (congrArg Prod.fst hloop)
      exact absurd hconst (change_ne_const _ _ _ _ _)
    · exact ⟨rfl, rfl⟩

end System

/-- A change of base by a column of the system does what it is for when its result is a row, and leaves the equalities when it
is negative, provided that no equality has the column, that every row with it fits, or that an overflow is met first. -/
theorem changeBase_sound (s : System) (dim pos : Nat) (hc : dim + pos < s.vars)
    (h : ∀ p, s.eqs.pivotRow (dim + pos) = some p → s.Fits (dim + pos) p ∨ s.RefusedFirst (dim + pos) p) :
    (0 ≤ (s.changeBase dim pos).1 →
      BaseChanged s (s.changeBase dim pos).2 (dim + pos) (s.changeBase dim pos).1.toNat) ∧
    ((s.changeBase dim pos).1 < 0 → (s.changeBase dim pos).2.eqs = s.eqs) := by
  rw [System.changeBase]
  cases hp : s.eqs.pivotRow (dim + pos) with
  | none => exact ⟨fun hneg => absurd hneg (show ¬ (0 : Int) ≤ -1 by decide), fun _ => rfl⟩
  | some p =>
    obtain ⟨hlt, hne⟩ := (pivotRow_spec s.eqs (dim + pos)).2 p hp
    dsimp only
    rcases h p hp with hfits | hrefused
    · obtain ⟨hrow, hchanged⟩ := changeBaseOn_of_fits hlt hne hc hfits
      rw [hrow]
      exact ⟨fun _ => hchanged, fun hneg => absurd hneg (by omega)⟩
    · obtain ⟨hrow, heqs⟩ := changeBaseOn_of_refused hrefused
      rw [hrow]
      exact ⟨fun hneg => absurd hneg (by decide), fun _ => heqs⟩

/-- A system of equalities. -/
def System.ofEqs (vars : Nat) (rows : List (List Int × Int)) : System where
  ale := fun _ _ => MInt32.ofInt 0
  ble := fun _ => MInt64.ofInt 0
  eqnsLe := 0
  eqs := ⟨fun r c => MInt32.ofInt ((rows.getD r ([], 0)).1.getD c 0), fun r => (rows.getD r ([], 0)).2, rows.length, vars⟩

/-- `x + y = 2` and `x - y = 0`, by the column of `x`. -/
theorem changeBase_sound_pair : BaseChanged (System.ofEqs 2 [([1, 1], 2), ([1, -1], 0)])
    ((System.ofEqs 2 [([1, 1], 2), ([1, -1], 0)]).changeBase 0 0).2 0 0 := by
  have hrow : ((System.ofEqs 2 [([1, 1], 2), ([1, -1], 0)]).changeBase 0 0).1 = 0 := by decide
  have hsound := (changeBase_sound (System.ofEqs 2 [([1, 1], 2), ([1, -1], 0)]) 0 0 (by decide) fun p hp => Or.inl ?_).1 hrow.ge
  · rwa [hrow] at hsound
  · have hpivot : (System.ofEqs 2 [([1, 1], 2), ([1, -1], 0)]).eqs.pivotRow 0 = some 0 := by decide
    obtain rfl : (0 : Nat) = p := Option.some.inj (hpivot.symm.trans hp)
    refine ⟨fun i hi hip _ => ?_, fun i hi => absurd hi (Nat.not_lt_zero i)⟩
    have hlt : i < 2 := hi
    obtain rfl : i = 1 := by omega
    refine ⟨by decide, by decide, by decide, fun d hd _ => ?_⟩
    have hwrap : wrap32 ((Pivot.ofEq ((System.ofEqs 2 [([1, 1], 2), ([1, -1], 0)]).eqs.equation 0) 0).constExact
        ((System.ofEqs 2 [([1, 1], 2), ([1, -1], 0)]).eqs.equation 1)) =
        (Pivot.ofEq ((System.ofEqs 2 [([1, 1], 2), ([1, -1], 0)]).eqs.equation 0) 0).constExact
          ((System.ofEqs 2 [([1, 1], 2), ([1, -1], 0)]).eqs.equation 1) := by decide
    rwa [← hwrap]

/-- `x + y = 0`, `x = 0` and `x - 2147483647 y = 0`: the second equality is changed before the third is refused. -/
theorem changeBase_not_atomic :
    ((System.ofEqs 2 [([1, 1], 0), ([1, 0], 0), ([1, -2147483647], 0)]).changeBase 0 0).1 < 0 ∧
      ((System.ofEqs 2 [([1, 1], 0), ([1, 0], 0), ([1, -2147483647], 0)]).changeBase 0 0).2.eqs ≠
        (System.ofEqs 2 [([1, 1], 0), ([1, 0], 0), ([1, -2147483647], 0)]).eqs := by
  refine ⟨by decide, fun h => ?_⟩
  have hcoeff := congrArg (fun q : Equalities => (q.aeq 1 0 : Int)) h
  exact absurd hcoeff (by decide)

end Path64.Soe

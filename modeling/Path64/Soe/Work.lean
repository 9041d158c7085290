import Path64.Lib.Inequality
import Path64.Lib.Wrap
import Path64.Soe.Solution

/-!
# The work arrays of `SYSTEM_OF_EQUATIONS`

The decision procedures of `be/lno/soe.cxx` copy a system into fixed arrays of 32-bit coefficients and 64-bit constants and
change these in place.

* `Work` : the arrays; `Work.leRow` : an inequality in use;
* `Row.Holds`, `Work.les`, `Work.Holds` : the inequalities, over any ordered ring;
* `copyRow`, `compact` : rows that go are overwritten by the last one that stays; `les_compact` : what is left.
-/

namespace Path64.Soe

open Lib

/-- `SOE_MAX_WORK_ROWS`, `SOE_MAX_WORK_ROWS_EQ` and `SOE_MAX_WORK_COLS`. -/
def soeMaxWorkRows : Nat := 1000
def soeMaxWorkRowsEq : Nat := 100
def soeMaxWorkCols : Nat := 30

def int32Max : Int := 2147483647
def int32Min : Int := -2147483648

/-- `mINT32`. -/
abbrev MInt32 := {x : Int // InInt32 x}

/-- The conversion `(INT32) x`. -/
def MInt32.ofInt (x : Int) : MInt32 := ⟨wrap32 x, inInt32_wrap32 x⟩

/-- The work arrays, with the numbers of rows and columns in use. -/
structure Work where
  work : Nat → Nat → MInt32
  workConst : Nat → Int
  workRows : Nat
  workEq : Nat → Nat → MInt32
  workConstEq : Nat → Int
  workRowsEq : Nat
  workCols : Nat

/-- Inequality `r`. -/
def Work.leRow (w : Work) (r : Nat) : Row := ⟨(List.range w.workCols).map fun j => w.work r j, w.workConst r⟩

/-- The inequalities in use. -/
def Work.les (w : Work) : Set Row := {q | ∃ r < w.workRows, w.leRow r = q}

/-! ## Points -/

section Points

variable {K : Type*} [CommRing K] [LinearOrder K]

/-- The coefficient of unknown `j`. -/
def Row.coeff (q : Row) (j : Nat) : Int := q.coeffs.getD j 0

/-- The inequality holds at `x`. -/
def Row.Holds (q : Row) (x : Nat → K) : Prop := dot q.coeffs.length q.coeff x ≤ (q.rhs : K)

/-- Every inequality in use holds at `x`. -/
def Work.Holds (w : Work) (x : Nat → K) : Prop := ∀ q ∈ w.les, q.Holds x

theorem coeff_leRow (w : Work) (r : Nat) {j : Nat} (hj : j < w.workCols) : (w.leRow r).coeff j = w.work r j := by
  rw [Row.coeff, Work.leRow, List.getD_eq_getElem?_getD, List.getElem?_map, List.getElem?_range hj]
  rfl

theorem length_leRow (w : Work) (r : Nat) : (w.leRow r).coeffs.length = w.workCols := by
  rw [Work.leRow, List.length_map, List.length_range]

theorem holds_leRow (w : Work) (r : Nat) (x : Nat → K) :
    (w.leRow r).Holds x ↔ dot w.workCols (fun j => w.work r j) x ≤ (w.workConst r : K) := by
  rw [Row.Holds, length_leRow, dot_congr fun j hj => coeff_leRow w r hj]
  rfl

theorem holds_iff (w : Work) (x : Nat → K) : w.Holds x ↔
    ∀ r < w.workRows, dot w.workCols (fun j => w.work r j) x ≤ (w.workConst r : K) := by
  constructor
  · exact fun h r hr => (holds_leRow w r x).1 (h _ ⟨r, hr, rfl⟩)
  · rintro h q ⟨r, hr, rfl⟩
    exact (holds_leRow w r x).2 (h r hr)

end Points

theorem leRow_congr {w w' : Work} {r r' : Nat} (hcols : w'.workCols = w.workCols)
    (hwork : ∀ j < w.workCols, w'.work r' j = w.work r j) (hconst : w'.workConst r' = w.workConst r) :
    w'.leRow r' = w.leRow r := by
  unfold Work.leRow
  rw [hcols, hconst]
  congr 1
  refine List.map_congr_left fun j hj => ?_
  rw [hwork j (List.mem_range.1 hj)]

/-! ## Overwriting rows -/

/-- Copies row `src` over row `dst`, from column `minVar` on. -/
def Work.copyRow (w : Work) (dst src minVar : Nat) : Work :=
  { w with
    workConst := Function.update w.workConst dst (w.workConst src)
    work := fun r c => if r = dst ∧ minVar ≤ c ∧ c < w.workCols then w.work src c else w.work r c }

/-- The columns before `minVar` are zero in the rows in use. -/
def Work.ZeroBefore (w : Work) (minVar : Nat) : Prop := ∀ r < w.workRows, ∀ c < minVar, c < w.workCols → (w.work r c : Int) = 0

/-- `while ((i < _work_rows-1) && drop(_work_rows-1)) _work_rows--;` -/
def trimLast (drop : Nat → Bool) (i : Nat) : Nat → Nat
  | 0 => 0
  | rows + 1 => if i < rows ∧ drop rows = true then trimLast drop i rows else rows + 1

/-- Cuts off the rows to drop at the end, and overwrites row `i` by the last one left. -/
def Work.dropRow (w : Work) (drop : Nat → Bool) (i minVar : Nat) : Work :=
  let rows := trimLast drop i w.workRows
  let w := if i < rows - 1 then w.copyRow i (rows - 1) minVar else w
  { w with workRows := rows - 1 }

/-- The compaction loop from row `i` on, at most `k` rows: a row to drop is overwritten by the last one not to drop. -/
def compactFrom (drop : Work → Nat → Bool) (minVar : Nat) : Nat → Nat → Work → Work
  | 0, _, w => w
  | k + 1, i, w =>
    if i < w.workRows then
      if drop w i then compactFrom drop minVar k (i + 1) (w.dropRow (drop w) i minVar)
      else compactFrom drop minVar k (i + 1) w
    else w

/-- Drops rows and closes the gaps. -/
def Work.compact (w : Work) (drop : Work → Nat → Bool) (minVar : Nat) : Work := compactFrom drop minVar w.workRows 0 w

section Compact

variable {minVar : Nat}

theorem leRow_copyRow_self (w : Work) {dst src : Nat} (hdst : dst < w.workRows) (hsrc : src < w.workRows)
    (hzero : w.ZeroBefore minVar) : (w.copyRow dst src minVar).leRow dst = w.leRow src := by
  refine leRow_congr rfl (fun j hj => ?_) (Function.update_self dst _ w.workConst)
  show (if dst = dst ∧ minVar ≤ j ∧ j < w.workCols then w.work src j else w.work dst j) = w.work src j
  by_cases hmin : minVar ≤ j
  · rw [if_pos ⟨rfl, hmin, hj⟩]
  · rw [if_neg fun h => hmin h.2.1]
    have hlt : j < minVar := by omega
    exact Subtype.ext ((hzero dst hdst j hlt hj).trans (hzero src hsrc j hlt hj).symm)

theorem work_copyRow_of_ne (w : Work) {dst src r : Nat} (hr : r ≠ dst) :
    (w.copyRow dst src minVar).work r = w.work r := by
  funext c
  exact if_neg fun h => hr h.1

theorem leRow_copyRow_of_ne (w : Work) {dst src r : Nat} (hr : r ≠ dst) :
    (w.copyRow dst src minVar).leRow r = w.leRow r :=
  leRow_congr rfl (fun j _ => by rw [work_copyRow_of_ne w hr]) (Function.update_of_ne hr _ _)

theorem zeroBefore_copyRow (w : Work) {dst src : Nat} (hsrc : src < w.workRows) (hzero : w.ZeroBefore minVar) :
    (w.copyRow dst src minVar).ZeroBefore minVar := by
  intro r hr c hc hcols
  show ((if r = dst ∧ minVar ≤ c ∧ c < w.workCols then w.work src c else w.work r c : MInt32) : Int) = 0
  split_ifs with h
  · exact hzero src hsrc c hc hcols
  · exact hzero r hr c hc hcols

theorem trimLast_spec (drop : Nat → Bool) {i : Nat} : ∀ rows, i < rows →
    i < trimLast drop i rows ∧ trimLast drop i rows ≤ rows ∧
    (∀ r, trimLast drop i rows ≤ r → r < rows → drop r = true) ∧
    (i < trimLast drop i rows - 1 → drop (trimLast drop i rows - 1) = false) := by
  intro rows
  induction rows with
  | zero =>
    intro h
    omega
  | succ rows ih =>
    intro hi
    rw [trimLast]
    split_ifs with h
    · obtain ⟨hlt, hle, hdrop, hlast⟩ := ih h.1
      refine ⟨hlt, by omega, fun r hr hrows => ?_, hlast⟩
      rcases Nat.lt_succ_iff_lt_or_eq.1 hrows with hr' | rfl
      · exact hdrop r hr hr'
      · exact h.2
    · refine ⟨hi, le_rfl, fun r hr hrows => by omega, fun hlt => ?_⟩
      rw [Nat.add_sub_cancel] at hlt ⊢
      exact Bool.eq_false_iff.2 fun hd => h ⟨hlt, hd⟩

/-- Whether a row is dropped depends on this row only. -/
def DropLocal (drop : Work → Nat → Bool) : Prop := ∀ (w w' : Work) r, w'.work r = w.work r → drop w' r = drop w r

/-- One row dropped: the rows from `i + 1` on that are not to be dropped are all still there, and no other row is new. -/
structure Dropped (drop : Work → Nat → Bool) (minVar i : Nat) (w w' : Work) : Prop where
  cols : w'.workCols = w.workCols
  rows : w'.workRows < w.workRows
  zero : w'.ZeroBefore minVar
  les : {q | ∃ r < w'.workRows, (i + 1 ≤ r → drop w' r = false) ∧ w'.leRow r = q} =
    {q | ∃ r < w.workRows, (i ≤ r → drop w r = false) ∧ w.leRow r = q}

theorem dropRow_dropped {drop : Work → Nat → Bool} (hlocal : DropLocal drop) {w : Work} {i : Nat}
    (hi : i < w.workRows) (hdrop : drop w i = true) (hzero : w.ZeroBefore minVar) :
    Dropped drop minVar i w (w.dropRow (drop w) i minVar) := by
  obtain ⟨hlt, hrows, hcut, hlast⟩ := trimLast_spec (drop w) w.workRows hi
  rw [Work.dropRow]
  generalize trimLast (drop w) i w.workRows = rows at hlt hrows hcut hlast ⊢
  have hstays : ∀ r < w.workRows, (i ≤ r → drop w r = false) → r < rows ∧ r ≠ i := by
    intro r hr hkeep
    refine ⟨?_, ?_⟩
    · by_contra hge
      have hfalse := hkeep (by omega)
      rw [hcut r (by omega) hr] at hfalse
      exact Bool.noConfusion hfalse
    · rintro rfl
      rw [hdrop] at hkeep
      exact Bool.noConfusion (hkeep le_rfl)
  by_cases hcopy : i < rows - 1
  · -- the last row that stays comes to `i`
    rw [if_pos hcopy]
    have hself : (w.copyRow i (rows - 1) minVar).leRow i = w.leRow (rows - 1) :=
      leRow_copyRow_self w hi (by omega) hzero
    have hsame : ∀ r, r ≠ i →
        drop { w.copyRow i (rows - 1) minVar with workRows := rows - 1 } r = drop w r := fun r hr =>
      hlocal w _ r (work_copyRow_of_ne w hr)
    refine ⟨rfl, show rows - 1 < w.workRows by omega, fun r hr => ?_, ?_⟩
    · have hr : r < rows - 1 := hr
      exact zeroBefore_copyRow w (show rows - 1 < w.workRows by omega) hzero r (show r < w.workRows by omega)
    ext q
    constructor
    · rintro ⟨r, hr, hkeep, rfl⟩
      have hr : r < rows - 1 := hr
      by_cases hri : r = i
      · rw [hri]
        exact ⟨rows - 1, by omega, fun _ => hlast hcopy, hself.symm⟩
      · refine ⟨r, by omega, fun hir => ?_, (leRow_copyRow_of_ne w hri).symm⟩
        rw [← hsame r hri]
        exact hkeep (by omega)
    · rintro ⟨r, hr, hkeep, rfl⟩
      obtain ⟨hr', hri⟩ := hstays r hr hkeep
      by_cases hrl : r = rows - 1
      · rw [hrl]
        exact ⟨i, show i < rows - 1 by omega, fun h => by omega, hself⟩
      · refine ⟨r, show r < rows - 1 by omega, fun hir => ?_, leRow_copyRow_of_ne w hri⟩
        rw [hsame r hri]
        exact hkeep (by omega)
  · -- row `i` is the last one
    rw [if_neg hcopy]
    refine ⟨rfl, show rows - 1 < w.workRows by omega, fun r hr => ?_, ?_⟩
    · have hr : r < rows - 1 := hr
      exact hzero r (by omega)
    ext q
    constructor
    · rintro ⟨r, hr, -, rfl⟩
      have hr : r < rows - 1 := hr
      exact ⟨r, by omega, fun h => by omega, rfl⟩
    · rintro ⟨r, hr, hkeep, rfl⟩
      obtain ⟨hr', hri⟩ := hstays r hr hkeep
      exact ⟨r, show r < rows - 1 by omega, fun h => by omega, rfl⟩

/-- From row `i` on only the rows that are not dropped stay. -/
theorem les_compactFrom {drop : Work → Nat → Bool} (hlocal : DropLocal drop) (k : Nat) : ∀ (i : Nat) (w : Work),
    w.workRows ≤ i + k → w.ZeroBefore minVar →
    (compactFrom drop minVar k i w).les = {q | ∃ r < w.workRows, (i ≤ r → drop w r = false) ∧ w.leRow r = q} ∧
    (compactFrom drop minVar k i w).workCols = w.workCols ∧ (compactFrom drop minVar k i w).ZeroBefore minVar ∧
    (compactFrom drop minVar k i w).workRows ≤ w.workRows := by
  -- past the last row nothing is left to do
  have hdone : ∀ (i : Nat) (w : Work), w.workRows ≤ i →
      w.les = {q | ∃ r < w.workRows, (i ≤ r → drop w r = false) ∧ w.leRow r = q} := by
    intro i w hle
    ext q
    refine exists_congr fun r => and_congr_right fun hr => ?_
    exact (and_iff_right fun hir => by omega).symm
  induction k with
  | zero =>
    intro i w hle hzero
    exact ⟨hdone i w hle, rfl, hzero, le_rfl⟩
  | succ k ih =>
    intro i w hle hzero
    rw [compactFrom]
    by_cases hi : i < w.workRows
    swap
    · rw [if_neg hi]
      exact ⟨hdone i w (by omega), rfl, hzero, le_rfl⟩
    rw [if_pos hi]
    cases hdrop : drop w i with
    | false =>
      rw [if_neg Bool.false_ne_true]
      obtain ⟨hles, hrest⟩ := ih (i + 1) w (by omega) hzero
      refine ⟨?_, hrest⟩
      rw [hles]
      ext q
      refine exists_congr fun r => and_congr_right fun hr => and_congr_left fun _ => ?_
      refine ⟨fun h hir => ?_, fun h hir => h (by omega)⟩
      rcases Nat.eq_or_lt_of_le hir with rfl | hgt
      · exact hdrop
      · exact h hgt
    | true =>
      rw [if_pos rfl]
      have hone := dropRow_dropped hlocal hi hdrop hzero
      obtain ⟨hles, hcols, hz, hle'⟩ := ih (i + 1) _ (by have := hone.rows; omega) hone.zero
      exact ⟨hles.trans hone.les, hcols.trans hone.cols, hz, hle'.trans hone.rows.le⟩

/-- The rows that are not dropped, and no others. -/
theorem les_compact {drop : Work → Nat → Bool} (hlocal : DropLocal drop) (w : Work) (hzero : w.ZeroBefore minVar) :
    (w.compact drop minVar).les = {q | ∃ r < w.workRows, drop w r = false ∧ w.leRow r = q} ∧
    (w.compact drop minVar).workCols = w.workCols ∧ (w.compact drop minVar).ZeroBefore minVar := by
  obtain ⟨hles, hcols, hz, -⟩ := les_compactFrom hlocal w.workRows 0 w (by omega) hzero
  refine ⟨?_, hcols, hz⟩
  rw [Work.compact, hles]
  simp only [Nat.zero_le, forall_const]

end Compact

end Path64.Soe

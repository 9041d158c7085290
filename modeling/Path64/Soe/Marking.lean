import Path64.Lib.Checked
import Path64.Soe.Equalities

/-!
# Marking redundant inequalities

`Mark_Redundant` and `Mark_New_Redundant` (`soe.cxx`) flag an inequality when its negation is inconsistent with the equalities
and the inequalities that are not flagged. What decides consistency, `Sub_In_Equal` and `Is_Consistent_Work`, is a parameter.

* `System`, `copyToWork`, `copyInverseToWork` : a system and the copies into the work arrays;
* `markRedundant`, `markNewRedundant` : the two loops;
* `inverse_complements_iff` : which rows are negated right;
* `marking_keeps_solutions` : all flagged rows may be dropped together.
-/

namespace Path64.Soe

open Lib

/-! ## Copies -/

/-- `mINT64`. -/
abbrev MInt64 := {x : Int // InInt64 x}

/-- The conversion `(INT64) x`. -/
def MInt64.ofInt (x : Int) : MInt64 := ⟨wrap64 x, inInt64_wrap64 x⟩

/-- The rows of a `SYSTEM_OF_EQUATIONS`: the inequalities, and the equalities with the number of variables. -/
structure System where
  ale : Nat → Nat → MInt32
  ble : Nat → MInt64
  eqnsLe : Nat
  eqs : Equalities

def System.vars (s : System) : Nat := s.eqs.vars

/-- Why a marking stops early: a helper returned `FALSE`, or an assertion failed. -/
inductive Halt where
  | gaveUp
  | assertion
deriving DecidableEq, Repr

/-- Writes a row behind the last one in use. -/
def Work.push (w : Work) (cols : Nat) (row : Nat → MInt32) (const : Int) : Work :=
  { w with
    workCols := cols
    workRows := w.workRows + 1
    work := fun r c => if r = w.workRows ∧ c < cols then row c else w.work r c
    workConst := Function.update w.workConst w.workRows const }

/-- The tests for space that the copies begin with; `n` rows are to be written. -/
def System.checkSpace (s : System) (w : Work) (n : Nat) : Except Halt Unit := do
  require .gaveUp (w.workRows + n ≤ soeMaxWorkRows)
  if w.workRows = 0 then require .gaveUp (s.vars ≤ soeMaxWorkCols) else require .assertion (s.vars = w.workCols)

/-- `Copy_To_Work (start, stop)`. -/
def System.copyToWork (s : System) (w : Work) (start stop : Nat) : Except Halt Work := do
  s.checkSpace w (stop + 1 - start)
  return (List.range' start (stop + 1 - start)).foldl (fun w i => w.push s.vars (s.ale i) (s.ble i)) w

/-- `-_Ale(i,j)`, stored as an `mINT32`. -/
def System.inverseRow (s : System) (i : Nat) : Nat → MInt32 := fun j => MInt32.ofInt (-(s.ale i j : Int))

/-- `-_ble[i]-1`. -/
def System.inverseConst (s : System) (i : Nat) : Int := wrap64 (wrap64 (-(s.ble i : Int)) - 1)

/-- `Copy_Inverse_To_Work`. -/
def System.copyInverseToWork (s : System) (w : Work) (i : Nat) : Except Halt Work := do
  s.checkSpace w 1
  return w.push s.vars (s.inverseRow i) (s.inverseConst i)

/-! ## The loops -/

/-- What `Sub_In_Equal` and `Is_Consistent_Work` answer on the equalities and the work arrays, and what they leave in the
arrays: nothing when the elimination fails, else whether the system is proved inconsistent. -/
abbrev ConsistencyTest := Equalities → Work → Option Bool × Work

/-- A system proved inconsistent has no integer point. -/
def ConsistencyTest.Sound (test : ConsistencyTest) : Prop :=
  ∀ q w, (w.workRows ≠ 0 → q.vars = w.workCols) → (test q w).1 = some true → ¬ ∃ x : Nat → Int, q.Holds x ∧ w.Holds x

/-- The system, the arrays, the flags and the number of rows flagged. -/
structure Marking where
  sys : System
  work : Work
  isRedundant : Nat → Bool
  counter : Nat

/-- Copies those of `rows` that are to be kept. -/
def System.copyKept (s : System) (keep : Nat → Bool) (rows : List Nat) (w : Work) : Except Halt Work :=
  rows.foldlM (fun w j => if keep j then s.copyToWork w j j else pure w) w

/-- The copies of a turn: the other rows, and the inverse of row `i`. The loops differ in `later`: which of the rows after `i` are
copied. -/
def Marking.copies (later : (Nat → Bool) → Nat → Bool) (m : Marking) (i : Nat) : Except Halt Work := do
  let w := { m.work with workRows := 0 }
  let w ← m.sys.copyKept (fun j => !m.isRedundant j) (List.range i) w
  let w ← m.sys.copyKept (later m.isRedundant) (List.range' (i + 1) (m.sys.eqnsLe - (i + 1))) w
  m.sys.copyInverseToWork w i

/-- The body of the loops. -/
def Marking.markRow (later : (Nat → Bool) → Nat → Bool) (test : ConsistencyTest) (m : Marking) (i : Nat) :
    Except Halt Marking := do
  let w ← m.copies later i
  match test m.sys.eqs w with
  | (none, _) => throw .gaveUp
  | (some true, w) =>
    return { m with work := w, isRedundant := Function.update m.isRedundant i true, counter := m.counter + 1 }
  | (some false, w) => return { m with work := w }

/-- The loop over `rows`; no result when an assertion fails. A row that a helper gives up on ends it, and the flags stay. -/
def markLoop (later : (Nat → Bool) → Nat → Bool) (test : ConsistencyTest) : List Nat → Marking → Option Marking
  | [], m => some m
  | i :: rest, m =>
    match m.markRow later test i with
    | .ok m => markLoop later test rest m
    | .error .gaveUp => some m
    | .error .assertion => none

/-- What `Mark_Redundant` starts from. -/
def System.unmarked (s : System) (w : Work) (isRedundant : Nat → Bool) : Marking :=
  ⟨s, w, fun i => if i < s.eqnsLe then false else isRedundant i, 0⟩

/-- `Mark_Redundant`: all rows after the present one are copied. -/
def System.markRedundant (test : ConsistencyTest) (s : System) (w : Work) (isRedundant : Nat → Bool) : Option Marking :=
  if s.eqnsLe < 1 then some ⟨s, w, isRedundant, 0⟩
  else markLoop (fun _ _ => true) test (List.range s.eqnsLe) (s.unmarked w isRedundant)

/-- `Mark_New_Redundant`: the rows already flagged stay out. -/
def System.markNewRedundant (test : ConsistencyTest) (s : System) (w : Work) (isRedundant : Nat → Bool) : Option Marking :=
  if s.eqnsLe < 1 then some ⟨s, w, isRedundant, 0⟩
  else markLoop (fun flags j => !flags j) test (List.range s.eqnsLe) ⟨s, w, isRedundant, 0⟩

/-! ## Negated rows -/

/-- Inequality `i` holds at `x`. -/
def System.RowHolds (s : System) (i : Nat) (x : Nat → Int) : Prop := dot s.vars (fun j => s.ale i j) x ≤ s.ble i

/-- The equalities, and the inequalities that are not flagged. -/
structure System.Kept (s : System) (flags : Nat → Bool) (x : Nat → Int) : Prop where
  eqs : s.eqs.Holds x
  les : ∀ i < s.eqnsLe, flags i = false → s.RowHolds i x

/-- All of the system. -/
structure System.Solves (s : System) (x : Nat → Int) : Prop where
  eqs : s.eqs.Holds x
  les : ∀ i < s.eqnsLe, s.RowHolds i x

/-- The constant never wraps: negating the least one overflows, and subtracting `1` leads back. -/
theorem inverseConst_eq (s : System) (i : Nat) : s.inverseConst i = -(s.ble i : Int) - 1 := by
  obtain ⟨h1, h2⟩ := (s.ble i).2
  have hwrap : s.inverseConst i = wrap64 (-(s.ble i : Int) - 1) := Int.bmod_sub_bmod
  rw [hwrap, wrap64_eq ⟨by omega, by omega⟩]

theorem inverseRow_eq {s : System} {i j : Nat} (h : (s.ale i j : Int) ≠ int32Min) :
    (s.inverseRow i j : Int) = -(s.ale i j : Int) := by
  obtain ⟨h1, h2⟩ := (s.ale i j).2
  rw [int32Min] at h
  exact wrap32_eq_iff.2 ⟨by omega, by omega⟩

theorem inverseRow_min {s : System} {i j : Nat} (h : (s.ale i j : Int) = int32Min) : (s.inverseRow i j : Int) = int32Min := by
  show wrap32 (-(s.ale i j : Int)) = int32Min
  rw [h]
  decide

/-- The row that `Copy_Inverse_To_Work` stores holds at `x`. -/
def System.InverseHolds (s : System) (i : Nat) (x : Nat → Int) : Prop :=
  dot s.vars (fun j => s.inverseRow i j) x ≤ s.inverseConst i

/-- A row is negated right, at every integer point, just when the least number is not among its coefficients. -/
theorem inverse_complements_iff (s : System) (i : Nat) :
    (∀ x, s.InverseHolds i x ↔ ¬ s.RowHolds i x) ↔ ∀ j < s.vars, (s.ale i j : Int) ≠ int32Min := by
  constructor
  · intro h j hj hmin
    -- far out along the axis of `j` both rows hold
    let x : Nat → Int := Function.update (fun _ => 0) j (2 ^ 63)
    have hdot : ∀ a : Nat → Int, a j = int32Min → dot s.vars a x = int32Min * 2 ^ 63 := by
      intro a ha
      rw [dot_update hj, ha]
      simp [dot]
    obtain ⟨h1, h2⟩ := (s.ble i).2
    have hrow : s.RowHolds i x := by
      show dot s.vars (fun j => s.ale i j) x ≤ s.ble i
      rw [hdot _ hmin, int32Min]
      omega
    refine (h x).1 ?_ hrow
    show dot s.vars (fun j => s.inverseRow i j) x ≤ s.inverseConst i
    rw [hdot _ (inverseRow_min hmin), inverseConst_eq, int32Min]
    omega
  · intro h x
    have hdot : dot s.vars (fun j => s.inverseRow i j) x = -dot s.vars (fun j => s.ale i j) x := by
      rw [dot_congr fun j hj => inverseRow_eq (h j hj)]
      simp only [dot, Int.cast_neg, neg_mul, Finset.sum_neg_distrib]
    unfold System.InverseHolds System.RowHolds
    rw [hdot, inverseConst_eq]
    omega

/-! ## Rows in the arrays -/

/-- The rows in use have the columns of the system. -/
def System.Matches (s : System) (w : Work) : Prop := w.workRows ≠ 0 → s.vars = w.workCols

theorem holds_push {s : System} {w : Work} (h : s.Matches w) (row : Nat → MInt32) (const : Int) (x : Nat → Int) :
    (w.push s.vars row const).Holds x ↔ w.Holds x ∧ dot s.vars (fun j => row j) x ≤ const := by
  have hold : ∀ r < w.workRows, dot s.vars (fun j => (w.push s.vars row const).work r j) x =
      dot w.workCols (fun j => w.work r j) x := by
    intro r hr
    rw [← h (by omega)]
    exact dot_congr fun j _ => congrArg Subtype.val (if_neg fun hrj => by omega)
  have hnew : dot s.vars (fun j => (w.push s.vars row const).work w.workRows j) x = dot s.vars (fun j => row j) x :=
    dot_congr fun j hj => congrArg Subtype.val (if_pos ⟨rfl, hj⟩)
  have hconst : ∀ r < w.workRows, (w.push s.vars row const).workConst r = w.workConst r :=
    fun r hr => Function.update_of_ne (by omega) _ _
  have hlast : (w.push s.vars row const).workConst w.workRows = const := Function.update_self _ _ _
  rw [holds_iff, holds_iff]
  simp only [Int.cast_id]
  constructor
  · intro hall
    refine ⟨fun r hr => ?_, ?_⟩
    · rw [← hold r hr, ← hconst r hr]
      exact hall r (Nat.lt_succ_of_lt hr)
    · rw [← hnew, ← hlast]
      exact hall w.workRows (Nat.lt_succ_self _)
  · rintro ⟨hold', hnew'⟩ r hr
    rcases Nat.lt_succ_iff_lt_or_eq.1 hr with hr | rfl
    · exact (hold r hr).trans_le ((hold' r hr).trans_eq (hconst r hr).symm)
    · exact hnew.trans_le (hnew'.trans_eq hlast.symm)

/-- What the copies leave: rows that together say what `P` adds to the rows before. -/
structure System.Copied (s : System) (w : Work) (P : (Nat → Int) → Prop) (w' : Work) : Prop where
  cols : s.Matches w'
  holds : ∀ x, w'.Holds x ↔ w.Holds x ∧ P x

theorem checkSpace_checks {s : System} {w : Work} (h : s.Matches w) (n : Nat) :
    Checks (· = Halt.gaveUp) (s.checkSpace w n) fun _ => True := by
  refine Checks.bind (checks_require_of_allowed rfl) fun _ _ => ?_
  split_ifs with hempty
  · exact Checks.mono (checks_require_of_allowed rfl) fun _ _ _ => trivial
  · exact checks_require (h hempty)

theorem copyToWork_checks {s : System} {w : Work} (h : s.Matches w) (j : Nat) :
    Checks (· = Halt.gaveUp) (s.copyToWork w j j) (s.Copied w (s.RowHolds j)) := by
  refine (checkSpace_checks h _).bind fun _ _ => checks_pure ?_
  rw [show j + 1 - j = 1 by omega]
  exact ⟨fun _ => rfl, holds_push h _ _⟩

theorem copyInverseToWork_checks {s : System} {w : Work} (h : s.Matches w) (i : Nat) :
    Checks (· = Halt.gaveUp) (s.copyInverseToWork w i) (s.Copied w (s.InverseHolds i)) :=
  (checkSpace_checks h 1).bind fun _ _ => checks_pure ⟨fun _ => rfl, holds_push h _ _⟩

theorem copyKept_checks {s : System} (keep : Nat → Bool) (rows : List Nat) : ∀ w : Work, s.Matches w →
    Checks (· = Halt.gaveUp) (s.copyKept keep rows w)
      (s.Copied w fun x => ∀ j ∈ rows, keep j = true → s.RowHolds j x) := by
  induction rows with
  | nil => exact fun w h => checks_pure ⟨h, fun x => by simp⟩
  | cons j rest ih =>
    intro w h
    have hone : Checks (· = Halt.gaveUp) (if keep j then s.copyToWork w j j else pure w)
        (s.Copied w fun x => keep j = true → s.RowHolds j x) := by
      split_ifs with hj
      · refine (copyToWork_checks h j).mono fun w' _ hw' => ⟨hw'.cols, fun x => ?_⟩
        rw [hw'.holds]
        simp [hj]
      · exact checks_pure ⟨h, fun x => by simp [hj]⟩
    refine hone.bind fun w₁ h₁ => (ih w₁ h₁.cols).mono fun w₂ _ h₂ => ⟨h₂.cols, fun x => ?_⟩
    rw [h₂.holds, h₁.holds, and_assoc, List.forall_mem_cons]

/-! ## One row -/

/-- Row `i` follows from the equalities and the other rows that are not flagged. -/
def System.Implied (s : System) (flags : Nat → Bool) (i : Nat) : Prop :=
  ∀ x, s.eqs.Holds x → (∀ j < s.eqnsLe, j ≠ i → flags j = false → s.RowHolds j x) → s.RowHolds i x

/-- What a turn of the loops does: nothing to the system, and a row is flagged only when it follows from the others. -/
structure Marked (m : Marking) (i : Nat) (m' : Marking) : Prop where
  sys : m'.sys = m.sys
  flags : m'.isRedundant = m.isRedundant ∨
    m'.isRedundant = Function.update m.isRedundant i true ∧ m.sys.Implied m.isRedundant i

/-- If the copies fit in the arrays, the row to be negated has no least number among its coefficients. -/
def Marking.NegatesRight (later : (Nat → Bool) → Nat → Bool) (m : Marking) (i : Nat) : Prop :=
  ∀ w, m.copies later i = .ok w → ∀ j < m.sys.vars, (m.sys.ale i j : Int) ≠ int32Min

/-- The other rows that are not flagged, and the inverse of row `i`. -/
theorem copies_checks {later : (Nat → Bool) → Nat → Bool} {m : Marking} {i : Nat} (hi : i < m.sys.eqnsLe)
    (hlater : ∀ j, i < j → j < m.sys.eqnsLe → later m.isRedundant j = !m.isRedundant j) :
    Checks (· = Halt.gaveUp) (m.copies later i) fun w => m.sys.Matches w ∧ ∀ x, m.sys.InverseHolds i x →
      (∀ j < m.sys.eqnsLe, j ≠ i → m.isRedundant j = false → m.sys.RowHolds j x) → w.Holds x := by
  unfold Marking.copies
  have hstart : m.sys.Matches { m.work with workRows := 0 } := fun h => absurd rfl h
  refine (copyKept_checks _ _ _ hstart).bind fun w₁ h₁ => ?_
  refine (copyKept_checks _ _ _ h₁.cols).bind fun w₂ h₂ => ?_
  refine (copyInverseToWork_checks h₂.cols i).mono fun w₃ _ h₃ => ⟨h₃.cols, fun x hinverse hothers => ?_⟩
  rw [h₃.holds, h₂.holds, h₁.holds]
  refine ⟨⟨⟨fun q hq => ?_, fun j hj hkeep => ?_⟩, fun j hj hkeep => ?_⟩, hinverse⟩
  · obtain ⟨r, hr, -⟩ := hq
    exact absurd hr (Nat.not_lt_zero r)
  · have hj := List.mem_range.1 hj
    exact hothers j (by omega) (by omega) (by simpa using hkeep)
  · have hj := List.mem_range'_1.1 hj
    rw [hlater j (by omega) (by omega)] at hkeep
    exact hothers j (by omega) (by omega) (by simpa using hkeep)

theorem markRow_checks {test : ConsistencyTest} (htest : test.Sound) {later : (Nat → Bool) → Nat → Bool} {m : Marking} {i : Nat}
    (hi : i < m.sys.eqnsLe) (hlater : ∀ j, i < j → j < m.sys.eqnsLe → later m.isRedundant j = !m.isRedundant j)
    (hmin : m.NegatesRight later i) : Checks (· = Halt.gaveUp) (m.markRow later test i) (Marked m i) := by
  have hcopies := copies_checks hi hlater
  unfold Marking.markRow
  cases hw : m.copies later i with
  | error e =>
    rw [hcopies.error e hw]
    exact checks_throw rfl
  | ok w₃ =>
    obtain ⟨hcols, hholds⟩ := hcopies.ok w₃ hw
    rw [ok_bind]
    cases hrun : test m.sys.eqs w₃ with
    | mk answer w =>
      cases answer with
      | none => exact checks_throw rfl
      | some inconsistent =>
        cases inconsistent with
        | false => exact checks_pure ⟨rfl, Or.inl rfl⟩
        | true =>
          refine checks_pure ⟨rfl, Or.inr ⟨rfl, fun x heq hothers => ?_⟩⟩
          by_contra hrow
          -- a point where the row fails would be a point of the arrays
          refine htest m.sys.eqs w₃ hcols (congrArg Prod.fst hrun) ⟨x, heq, hholds x ?_ hothers⟩
          rwa [(inverse_complements_iff m.sys i).2 (hmin w₃ hw)]

theorem Marked.kept {m m' : Marking} {i : Nat} (h : Marked m i m') (x : Nat → Int) :
    m'.sys.Kept m'.isRedundant x ↔ m.sys.Kept m.isRedundant x := by
  rw [h.sys]
  rcases h.flags with hflags | ⟨hflags, himp⟩
  · rw [hflags]
  · rw [hflags]
    have hothers : ∀ j, j ≠ i → Function.update m.isRedundant i true j = m.isRedundant j :=
      fun j hj => Function.update_of_ne hj _ _
    constructor
    · intro hk
      refine ⟨hk.eqs, fun j hj hfree => ?_⟩
      by_cases hji : j = i
      · rw [hji]
        refine himp x hk.eqs fun j' hj' hne hfree' => hk.les j' hj' ?_
        rw [hothers j' hne]
        exact hfree'
      · refine hk.les j hj ?_
        rw [hothers j hji]
        exact hfree
    · intro hk
      refine ⟨hk.eqs, fun j hj hfree => ?_⟩
      by_cases hji : j = i
      · rw [hji, Function.update_self] at hfree
        cases hfree
      · rw [hothers j hji] at hfree
        exact hk.les j hj hfree

/-! ## The whole marking -/

/-- What the loop from row `i` on relies on: the rows after the present one are copied just when they are not flagged. -/
def LaterRight (later : (Nat → Bool) → Nat → Bool) (n i : Nat) (flags : Nat → Bool) : Prop :=
  ∀ j, i ≤ j → j < n → later flags j = !flags j

/-- In every turn of the loop the row is negated right, or its copies do not fit. -/
def NegatesAllRight (later : (Nat → Bool) → Nat → Bool) (test : ConsistencyTest) : List Nat → Marking → Prop
  | [], _ => True
  | i :: rest, m => m.NegatesRight later i ∧ ∀ m', m.markRow later test i = .ok m' → NegatesAllRight later test rest m'

/-- The loop from row `i` on goes through, and what is left has the solutions that there were before. -/
theorem markLoop_kept {test : ConsistencyTest} (htest : test.Sound) {later : (Nat → Bool) → Nat → Bool} {s : System}
    (hlater : ∀ i flags flags', LaterRight later s.eqnsLe i flags → (∀ j, i < j → flags' j = flags j) →
      LaterRight later s.eqnsLe (i + 1) flags')
    (k : Nat) : ∀ (i : Nat) (m : Marking), i + k = s.eqnsLe → m.sys = s → LaterRight later s.eqnsLe i m.isRedundant →
      NegatesAllRight later test (List.range' i k) m → ∃ m', markLoop later test (List.range' i k) m = some m' ∧ m'.sys = s ∧
        ∀ x, s.Kept m'.isRedundant x ↔ s.Kept m.isRedundant x := by
  induction k with
  | zero => exact fun i m _ hsys _ _ => ⟨m, rfl, hsys, fun x => Iff.rfl⟩
  | succ k ih =>
    intro i m hk hsys hright hall
    rw [List.range'_succ] at hall
    have hi : i < m.sys.eqnsLe := by
      rw [hsys]
      omega
    have hstep := @markRow_checks test htest later m i hi (fun j hj hjn => hright j (by omega) (hsys ▸ hjn)) hall.1
    rw [List.range'_succ, markLoop]
    cases hrun : m.markRow later test i with
    | error e =>
      obtain rfl := hstep.error e hrun
      exact ⟨m, rfl, hsys, fun x => Iff.rfl⟩
    | ok m₁ =>
      have hm₁ := hstep.ok m₁ hrun
      have hsame : ∀ j, i < j → m₁.isRedundant j = m.isRedundant j := by
        intro j hj
        rcases hm₁.flags with hflags | ⟨hflags, -⟩
        · rw [hflags]
        · rw [hflags, Function.update_of_ne (by omega)]
      obtain ⟨m', hm', hsys', hkept⟩ := ih (i + 1) m₁ (by omega) (hm₁.sys.trans hsys)
        (hlater i m.isRedundant m₁.isRedundant hright hsame) (hall.2 m₁ hrun)
      refine ⟨m', hm', hsys', fun x => (hkept x).trans ?_⟩
      have hone := hm₁.kept x
      rwa [hm₁.sys, hsys] at hone

theorem markRedundant_keeps {test : ConsistencyTest} (htest : test.Sound) {s : System} {w : Work} {isRedundant : Nat → Bool}
    (hmin : NegatesAllRight (fun _ _ => true) test (List.range s.eqnsLe) (s.unmarked w isRedundant)) :
    ∃ m, s.markRedundant test w isRedundant = some m ∧ m.sys = s ∧ ∀ x, s.Kept m.isRedundant x ↔ s.Solves x := by
  unfold System.markRedundant
  by_cases hempty : s.eqnsLe < 1
  · rw [if_pos hempty]
    exact ⟨_, rfl, rfl, fun x => ⟨fun h => ⟨h.eqs, fun i hi => by omega⟩, fun h => ⟨h.eqs, fun i hi => by omega⟩⟩⟩
  · rw [List.range_eq_range'] at hmin
    rw [if_neg hempty, List.range_eq_range']
    obtain ⟨m, hm, hsys, hkept⟩ := @markLoop_kept test htest (fun _ _ => true) s
      (fun i flags flags' h hsame j hij hj => by rw [hsame j (by omega)]; exact h j (by omega) hj)
      s.eqnsLe 0 (s.unmarked w isRedundant) (Nat.zero_add _) rfl (fun j _ hj => by simp [System.unmarked, hj]) hmin
    refine ⟨m, hm, hsys, fun x => (hkept x).trans ⟨fun h => ⟨h.eqs, fun i hi => h.les i hi (if_pos hi)⟩, fun h => ⟨h.eqs, ?_⟩⟩⟩
    exact fun i hi _ => h.les i hi

theorem markNewRedundant_keeps {test : ConsistencyTest} (htest : test.Sound) {s : System} {w : Work} {isRedundant : Nat → Bool}
    (hmin : NegatesAllRight (fun flags j => !flags j) test (List.range s.eqnsLe) ⟨s, w, isRedundant, 0⟩) :
    ∃ m, s.markNewRedundant test w isRedundant = some m ∧ m.sys = s ∧ ∀ x, s.Kept m.isRedundant x ↔ s.Kept isRedundant x := by
  unfold System.markNewRedundant
  by_cases hempty : s.eqnsLe < 1
  · rw [if_pos hempty]
    exact ⟨_, rfl, rfl, fun x => Iff.rfl⟩
  · rw [List.range_eq_range'] at hmin
    rw [if_neg hempty, List.range_eq_range']
    exact @markLoop_kept test htest (fun flags j => !flags j) s (fun _ _ _ _ _ _ _ _ => rfl) s.eqnsLe 0
      ⟨s, w, isRedundant, 0⟩ (Nat.zero_add _) rfl (fun _ _ _ => rfl) hmin

/-- While the rows are negated right, both markings go through, leave the system as it is, and the rows that are not flagged have
the solutions they had together with the rows flagged on the way. -/
theorem marking_keeps_solutions (s : System) (test : ConsistencyTest) (htest : test.Sound) (w : Work) (isRedundant : Nat → Bool) :
    (NegatesAllRight (fun _ _ => true) test (List.range s.eqnsLe) (s.unmarked w isRedundant) →
      ∃ m, s.markRedundant test w isRedundant = some m ∧ m.sys = s ∧ ∀ x, s.Kept m.isRedundant x ↔ s.Solves x) ∧
    (NegatesAllRight (fun flags j => !flags j) test (List.range s.eqnsLe) ⟨s, w, isRedundant, 0⟩ →
      ∃ m, s.markNewRedundant test w isRedundant = some m ∧ m.sys = s ∧
        ∀ x, s.Kept m.isRedundant x ↔ s.Kept isRedundant x) :=
  ⟨markRedundant_keeps htest, markNewRedundant_keeps htest⟩

/-- A system of inequalities. -/
def System.ofLes (vars : Nat) (rows : List (List Int × Int)) : System where
  ale := fun r c => MInt32.ofInt ((rows.getD r ([], 0)).1.getD c 0)
  ble := fun r => MInt64.ofInt (rows.getD r ([], 0)).2
  eqnsLe := rows.length
  eqs := ⟨fun _ _ => MInt32.ofInt 0, fun _ => 0, 0, vars⟩

/-- Compares the bounds of the only unknown, which is all that the single variable test does with such arrays. -/
def boundsTest : ConsistencyTest := fun _ w =>
  (some (w.workCols == 1 && (List.range w.workRows).any fun r => (List.range w.workRows).any fun r' =>
    0 < (w.work r 0 : Int) && (w.work r' 0 : Int) < 0 &&
      w.workConst r / (w.work r 0 : Int) < -(w.workConst r' / -(w.work r' 0 : Int))), w)

theorem boundsTest_sound : boundsTest.Sound := by
  rintro q w - hrun ⟨x, -, hx⟩
  simp only [boundsTest, Option.some.injEq, Bool.and_eq_true, beq_iff_eq, List.any_eq_true, List.mem_range,
    decide_eq_true_eq] at hrun
  obtain ⟨hcols, r, hr, r', hr', ⟨hpos, hneg⟩, hlt⟩ := hrun
  have hdot : ∀ r < w.workRows, (w.work r 0 : Int) * x 0 ≤ w.workConst r := by
    intro r hr
    have hle := (holds_iff w x).1 hx r hr
    rw [hcols, dot, Finset.sum_range_one] at hle
    exact hle
  have hupper : x 0 ≤ w.workConst r / (w.work r 0 : Int) := by
    apply Int.le_ediv_of_mul_le hpos
    rw [mul_comm]
    exact hdot r hr
  have hlower : -x 0 ≤ w.workConst r' / -(w.work r' 0 : Int) := by
    apply Int.le_ediv_of_mul_le (by omega)
    rw [neg_mul_neg, mul_comm]
    exact hdot r' hr'
  omega

theorem negatesAllRight_of_ne {later : (Nat → Bool) → Nat → Bool} {test : ConsistencyTest} {s : System} (rows : List Nat) :
    ∀ m : Marking, m.sys = s → (∀ i ∈ rows, ∀ j < s.vars, (s.ale i j : Int) ≠ int32Min) →
      NegatesAllRight later test rows m := by
  induction rows with
  | nil => exact fun _ _ _ => trivial
  | cons i rest ih =>
    intro m hsys hmin
    obtain ⟨hi, hrest⟩ := List.forall_mem_cons.1 hmin
    refine ⟨fun w _ => hsys.symm ▸ hi, fun m' hm' => ih m' ?_ hrest⟩
    rw [← hsys]
    unfold Marking.markRow at hm'
    obtain ⟨w, -, hw⟩ := bind_eq_ok.1 hm'
    split at hw <;> cases hw <;> rfl

/-- `x <= 5` and `x <= 7`, where the second row is flagged. -/
theorem marking_keeps_solutions_bounds :
    (∃ m, (System.ofLes 1 [([1], 5), ([1], 7)]).markRedundant boundsTest (Work.ofLes 0 []) (fun _ => false) = some m ∧
      m.sys = System.ofLes 1 [([1], 5), ([1], 7)] ∧ ∀ x, (System.ofLes 1 [([1], 5), ([1], 7)]).Kept m.isRedundant x ↔
        (System.ofLes 1 [([1], 5), ([1], 7)]).Solves x) ∧
    (∃ m, (System.ofLes 1 [([1], 5), ([1], 7)]).markNewRedundant boundsTest (Work.ofLes 0 []) (fun _ => false) = some m ∧
      m.sys = System.ofLes 1 [([1], 5), ([1], 7)] ∧ ∀ x, (System.ofLes 1 [([1], 5), ([1], 7)]).Kept m.isRedundant x ↔
        (System.ofLes 1 [([1], 5), ([1], 7)]).Kept (fun _ => false) x) := by
  obtain ⟨hmark, hnew⟩ := marking_keeps_solutions (System.ofLes 1 [([1], 5), ([1], 7)]) boundsTest boundsTest_sound
    (Work.ofLes 0 []) fun _ => false
  exact ⟨hmark (negatesAllRight_of_ne _ _ rfl (by decide)), hnew (negatesAllRight_of_ne _ _ rfl (by decide))⟩

/-- `-2^31 x <= 0` and `x <= 0`: the negation of the first row is stored as `-2^31 x <= -1`, which contradicts the second, and
the row is flagged. Without it `-1` is a solution. -/
theorem markRedundant_drops_least : boundsTest.Sound ∧
    ∃ m, (System.ofLes 1 [([-2147483648], 0), ([1], 0)]).markRedundant boundsTest (Work.ofLes 0 []) (fun _ => false) = some m ∧
      (System.ofLes 1 [([-2147483648], 0), ([1], 0)]).Kept m.isRedundant (fun _ => -1) ∧
      ¬ (System.ofLes 1 [([-2147483648], 0), ([1], 0)]).Solves fun _ => -1 := by
  have hrun : ((System.ofLes 1 [([-2147483648], 0), ([1], 0)]).markRedundant boundsTest (Work.ofLes 0 [])
      (fun _ => false)).map (fun m => m.isRedundant 0) = some true := by decide
  obtain ⟨m, hm, hflag⟩ := Option.map_eq_some_iff.1 hrun
  refine ⟨boundsTest_sound, m, hm, ⟨fun r hr => absurd hr (Nat.not_lt_zero r), fun i hi hfree => ?_⟩, fun h => ?_⟩
  · rcases Nat.lt_succ_iff_lt_or_eq.1 hi with hi | rfl
    · obtain rfl : i = 0 := Nat.lt_one_iff.1 hi
      rw [hflag] at hfree
      cases hfree
    · show dot 1 _ _ ≤ (0 : Int)
      decide
  · have hrow := h.les 0 (by decide)
    exact absurd hrow (by show ¬ dot 1 _ _ ≤ (0 : Int); decide)

end Path64.Soe

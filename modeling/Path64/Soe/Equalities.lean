import Path64.Soe.Substitute

/-!
# Eliminating the equalities

`Sub_In_Equal` of `be/lno/soe.cxx`, with the functions it calls: the last equality goes by a unit coefficient, or a new unknown
and a new equality come in that give it one. The model logs the state before each of these steps.

* `modHat`, `normalizeEq`, `pugh`, `subLastEqual`, `subInEqual` : the elimination;
* `Work.Solves` : the integer points of the equalities and inequalities;
* `EqEvent.Fits` : there is room for the new row and column, and what is not checked does not overflow;
* `subInEqual_exact` : in a run of such steps the loop stops, and the inequalities left have a solution just when the system had.
-/

namespace Path64.Soe

open Lib Logged

/-! ## One equality -/

/-- `Mod_Hat`. -/
def modHat (a b : Int) : Int :=
  let num := wrap32 (2 * a + b)
  let den := wrap32 (2 * b)
  let floor :=
    if (num ≥ 0 ∧ den > 0) ∨ (num ≤ 0 ∧ den < 0) then num.tdiv den
    else if num.tmod den = 0 then num.tdiv den
    else wrap32 (num.tdiv den - 1)
  wrap32 (a - b * floor)

/-- `Add_Work_Var`; its result is not used, and without a free column it does nothing. -/
def Work.addWorkVar (w : Work) : Work :=
  if w.workCols ≥ soeMaxWorkCols then w
  else
    { w with
      work := fun r c => if r < w.workRows ∧ c = w.workCols then MInt32.ofInt 0 else w.work r c
      workEq := fun r c => if r < w.workRowsEq ∧ c = w.workCols then MInt32.ofInt 0 else w.workEq r c
      workCols := w.workCols + 1 }

/-- What the loop of `Normalize_Eq_and_Find_Smallest` keeps. -/
structure Smallest where
  g : Int
  smallest : Int
  smallestPos : Nat

/-- One turn of that loop. -/
def Smallest.next (row : Nat → MInt32) (s : Smallest) (i : Nat) : Smallest :=
  let tmp := abs32 (row i)
  if tmp ≠ 0 then
    if tmp < s.smallest then ⟨gcd32 s.g tmp, tmp, i⟩ else { s with g := gcd32 s.g tmp }
  else s

/-- The divisor and the position of the smallest coefficient. -/
def findSmallest (row : Nat → MInt32) (minvar cols : Nat) : Smallest :=
  (List.range' (minvar + 1) (cols - (minvar + 1))).foldl (Smallest.next row) ⟨abs32 (row minvar), abs32 (row minvar), minvar⟩

/-- `Normalize_Eq_and_Find_Smallest`: no value where the system is proved inconsistent. The test sees 32 bits of the constant, as
`abs` is that of an `int`. -/
def Work.normalizeEq (w : Work) (eqnum minvar : Nat) : Option (Work × Nat) :=
  let s := findSmallest (w.workEq eqnum) minvar w.workCols
  if (absInt (w.workConstEq eqnum)).tmod s.g ≠ 0 then none
  else some ({ w with
    workConstEq := Function.update w.workConstEq eqnum (wrap64 ((w.workConstEq eqnum).tdiv s.g))
    workEq := Function.update w.workEq eqnum fun j =>
      if minvar ≤ j ∧ j < w.workCols then MInt32.ofInt ((w.workEq eqnum j : Int).tdiv s.g) else w.workEq eqnum j }, s.smallestPos)

/-- Pugh's extra unknown and equality; a row past the end of the array is written like any other. -/
def Work.pugh (w : Work) (smallestVar : Nat) : Work :=
  let eqnum := w.workRowsEq - 1
  let w := w.addWorkVar
  let m := wrap32 (abs32 (w.workEq eqnum smallestVar) + 1)
  { w with
    workRowsEq := w.workRowsEq + 1
    workEq := Function.update w.workEq (eqnum + 1) fun j =>
      if j < w.workCols - 1 then MInt32.ofInt (-modHat (w.workEq eqnum j) m)
      else if j = w.workCols - 1 then MInt32.ofInt m
      else w.workEq (eqnum + 1) j
    workConstEq := Function.update w.workConstEq (eqnum + 1) (wrap32 (-modHat (wrap32 (w.workConstEq eqnum)) m)) }

/-- The state before a substitution, before a division by the gcd and before a new unknown. -/
inductive EqEvent where
  | unary (w : Work) (i minvar : Nat)
  | normalize (w : Work)
  | pugh (w : Work) (smallestVar : Nat)

def Work.dropEq (w : Work) : Work := { w with workRowsEq := w.workRowsEq - 1 }

/-- A call of `Sub_Last_Equal_Unary`, and the row goes. -/
def Work.subUnary (w : Work) (i minvar : Nat) : Logged EqEvent (Option (Work × Bool)) := do
  report (.unary w i minvar)
  pure ((w.subLastEqualUnary i minvar).map fun w => (w.dropEq, false))

/-- The position of the first coefficient that is not zero. -/
def Work.firstVar (w : Work) : Nat := (List.range w.workCols).findIdx fun j => (w.workEq (w.workRowsEq - 1) j : Int) != 0

/-- `Sub_Last_Equal`, with `proved_inconsistent`: no value inside where it returns `FALSE`. -/
def Work.subLastEqual (w : Work) : Logged EqEvent (Option (Work × Bool)) :=
  let eqnum := w.workRowsEq - 1
  let i := w.firstVar
  if i = w.workCols then pure (some (w.dropEq, decide (w.workConstEq eqnum ≠ 0)))
  else if abs32 (w.workEq eqnum i) = 1 then w.subUnary i i
  else do
    report (.normalize w)
    match w.normalizeEq eqnum i with
    | none => pure (some (w, true))
    | some (w, smallestVar) =>
      if abs32 (w.workEq eqnum smallestVar) = 1 then w.subUnary smallestVar i
      else do
        report (.pugh w smallestVar)
        pure (some (w.pugh smallestVar, false))

/-! ## `Sub_In_Equal` -/

/-- The equalities of a system. -/
structure Equalities where
  aeq : Nat → Nat → MInt32
  beq : Nat → Int
  eqnsEq : Nat
  vars : Nat

/-- `Copy_To_Work_Eq`: no value inside where there is not enough space. -/
def Work.copyToWorkEq (w : Work) (q : Equalities) : Logged EqEvent (Option Work) := do
  if q.eqnsEq > soeMaxWorkRowsEq then return none
  if w.workRows = 0 then
    if q.vars > soeMaxWorkCols then return none
  else assert (q.vars = w.workCols)
  return some { w with
    workCols := q.vars
    workRowsEq := q.eqnsEq
    workConstEq := fun r => if r < q.eqnsEq then q.beq r else w.workConstEq r
    workEq := fun r c => if r < q.eqnsEq ∧ c < q.vars then q.aeq r c else w.workEq r c }

inductive EqResult where
  | failed
  | inconsistent (w : Work)
  | done (w : Work)

/-- The loop, at most `k` times. -/
def subLoop : Nat → Work → Logged EqEvent EqResult
  | 0, _ => ofOption none
  | k + 1, w =>
    if w.workRowsEq > 0 then do
      match ← w.subLastEqual with
      | none => pure .failed
      | some (w, true) => pure (.inconsistent w)
      | some (w, false) => subLoop k w
    else pure (.done w)

/-- `Sub_In_Equal`, with at most `k` turns of its loop. -/
def Work.subInEqual (w : Work) (q : Equalities) (k : Nat) : Logged EqEvent EqResult := do
  if q.eqnsEq = 0 then return .done w
  match ← w.copyToWorkEq q with
  | none => pure (.done w)
  | some w => subLoop k w

/-! ## Solutions -/

/-- `x` is an integer point of the equalities and the inequalities. -/
structure Work.Solves (w : Work) (x : Nat → Int) : Prop where
  eqs : ∀ r < w.workRowsEq, dot w.workCols (fun j => w.workEq r j) x = w.workConstEq r
  les : ∀ r < w.workRows, dot w.workCols (fun j => w.work r j) x ≤ w.workConst r

theorem solves_iff {w : Work} (hpos : 0 < w.workRowsEq) (x : Nat → Int) : w.Solves x ↔
    dot w.workCols (fun j => w.workEq (w.workRowsEq - 1) j) x = w.workConstEq (w.workRowsEq - 1) ∧ w.dropEq.Solves x := by
  constructor
  · intro h
    exact ⟨h.eqs _ (by omega), fun r hr => h.eqs r (Nat.lt_of_lt_of_le hr (Nat.sub_le _ _)), h.les⟩
  · rintro ⟨hlast, h⟩
    refine ⟨fun r hr => ?_, h.les⟩
    by_cases hr' : r < w.workRowsEq - 1
    · exact h.eqs r hr'
    · rw [show r = w.workRowsEq - 1 by omega]
      exact hlast

theorem dropEq_solves_congr {w w' : Work} (hrowsEq : w'.workRowsEq = w.workRowsEq) (hrows : w'.workRows = w.workRows)
    (hcols : w'.workCols = w.workCols) (hwork : w'.work = w.work) (hconst : w'.workConst = w.workConst)
    (hother : ∀ r, r ≠ w.workRowsEq - 1 → w'.workEq r = w.workEq r ∧ w'.workConstEq r = w.workConstEq r) (x : Nat → Int) :
    w'.dropEq.Solves x ↔ w.dropEq.Solves x := by
  have hrow : ∀ r < w.workRowsEq - 1, w'.workEq r = w.workEq r ∧ w'.workConstEq r = w.workConstEq r := fun r hr =>
    hother r hr.ne
  constructor
  · intro h
    refine ⟨fun r hr => ?_, fun r hr => ?_⟩
    · have hr' : r < w.workRowsEq - 1 := hr
      have heq := h.eqs r (show r < w'.workRowsEq - 1 by omega)
      dsimp only [Work.dropEq] at heq ⊢
      rwa [hcols, (hrow r hr').1, (hrow r hr').2] at heq
    · have hle := h.les r (show r < w'.workRows from hrows.symm ▸ hr)
      dsimp only [Work.dropEq] at hle ⊢
      rwa [hcols, hwork, hconst] at hle
  · intro h
    refine ⟨fun r hr => ?_, fun r hr => ?_⟩
    · have hr' : r < w.workRowsEq - 1 := by
        rw [← hrowsEq]
        exact hr
      have heq := h.eqs r hr'
      dsimp only [Work.dropEq] at heq ⊢
      rwa [hcols, (hrow r hr').1, (hrow r hr').2]
    · have hle := h.les r (show r < w.workRows from hrows ▸ hr)
      dsimp only [Work.dropEq] at hle ⊢
      rwa [hcols, hwork, hconst]

/-! ## A unit coefficient -/

/-- The constants of a substitution fit in 64 bits. -/
structure ConstFits (w : Work) (i : Nat) : Prop where
  last : InInt64 (w.workEq (w.workRowsEq - 1) i * w.workConstEq (w.workRowsEq - 1))
  eq : ∀ r < w.workRowsEq - 1, (w.workEq r i : Int) ≠ 0 → InInt64 (w.workConstEq r -
    w.workEq r i * (w.workEq (w.workRowsEq - 1) i * w.workConstEq (w.workRowsEq - 1)))
  le : ∀ r < w.workRows, (w.work r i : Int) ≠ 0 → InInt64 (w.workConst r -
    w.work r i * (w.workEq (w.workRowsEq - 1) i * w.workConstEq (w.workRowsEq - 1)))

/-- The constants after a substitution. -/
structure ConstExact (w w' : Work) (i : Nat) : Prop where
  eq : ∀ r < w.workRowsEq - 1, w'.workConstEq r = w.workConstEq r -
    w.workEq r i * (w.workEq (w.workRowsEq - 1) i * w.workConstEq (w.workRowsEq - 1))
  le : ∀ r < w.workRows, w'.workConst r = w.workConst r -
    w.work r i * (w.workEq (w.workRowsEq - 1) i * w.workConstEq (w.workRowsEq - 1))

section Unary

variable {w : Work} {i minvar : Nat}

theorem negateLast_const (hcall : UnaryCall w i minvar) (hfit : ConstFits w i) :
    (w.negateLast i minvar).workConstEq (w.workRowsEq - 1) =
      w.workEq (w.workRowsEq - 1) i * w.workConstEq (w.workRowsEq - 1) := by
  have hlast := hfit.last
  rw [Work.negateLast]
  rcases hcall.unit with h1 | hn1
  · rw [if_neg (by rw [h1]; decide), h1, one_mul]
  · rw [hn1, neg_one_mul] at hlast
    rw [if_pos hn1, hn1]
    dsimp only
    rw [Function.update_self, wrap64_eq hlast, neg_one_mul]

theorem subConst_eq {const eqConst mult : Int} (h : mult ≠ 0 → InInt64 (const - mult * eqConst)) :
    subConst const eqConst mult = const - mult * eqConst := by
  rw [subConst]
  split_ifs with hzero
  · rw [hzero, zero_mul, sub_zero]
  · exact wrap64_eq (h hzero)

theorem constExact_substituted (hcall : UnaryCall w i minvar) (hfit : ConstFits w i) :
    ConstExact w ((w.negateLast i minvar).substituted i minvar) i := by
  obtain ⟨hrowsEq, hrows, hcols, hwork, hconst, hother⟩ := negateLast_rows w i minvar
  have hlast := negateLast_const hcall hfit
  refine ⟨fun r hr => ?_, fun r hr => ?_⟩
  · show (if r < (w.negateLast i minvar).workRowsEq - 1 then subConst ((w.negateLast i minvar).workConstEq r)
      ((w.negateLast i minvar).workConstEq ((w.negateLast i minvar).workRowsEq - 1))
      ((w.negateLast i minvar).workEq r i) else _) = _
    rw [hrowsEq, if_pos hr, hlast, (hother r hr.ne).1, (hother r hr.ne).2]
    exact subConst_eq (hfit.eq r hr)
  · show (if r < (w.negateLast i minvar).workRows then subConst ((w.negateLast i minvar).workConst r)
      (((w.negateLast i minvar).subEqs i minvar).workConstEq ((w.negateLast i minvar).workRowsEq - 1))
      ((w.negateLast i minvar).work r i) else _) = _
    rw [(subEqs_last _).2, hrowsEq, hrows, if_pos hr, hlast, hwork, hconst]
    exact subConst_eq (hfit.le r hr)

/-- What is left after an exact substitution has a solution just when the system had one. -/
theorem exists_solves_unary {w' : Work} (hpos : 0 < w.workRowsEq) (hcall : UnaryCall w i minvar) (hexact : UnaryExact w w' i)
    (hconst : ConstExact w w' i) (hrowsEq : w'.workRowsEq = w.workRowsEq) (hrows : w'.workRows = w.workRows)
    (hcols : w'.workCols = w.workCols) : (∃ x, w'.dropEq.Solves x) ↔ ∃ x, w.Solves x := by
  -- where the last equality holds a new row says what the old one says
  have hvalue : ∀ (row' row : Nat → MInt32) (x : Nat → Int),
      (∀ j < w.workCols, (row' j : Int) =
        row j - row i * (w.workEq (w.workRowsEq - 1) i * w.workEq (w.workRowsEq - 1) j)) →
      dot w.workCols (fun j => w.workEq (w.workRowsEq - 1) j) x = w.workConstEq (w.workRowsEq - 1) →
      dot w.workCols (fun j => row' j) x = dot w.workCols (fun j => row j) x -
        row i * (w.workEq (w.workRowsEq - 1) i * w.workConstEq (w.workRowsEq - 1)) := by
    intro row' row x hrow hlast
    have hrow' : ∀ j < w.workCols, (row' j : Int) =
        row j - (row i * w.workEq (w.workRowsEq - 1) i) * w.workEq (w.workRowsEq - 1) j := fun j hj => by
      rw [hrow j hj]
      ring
    rw [dot_congr hrow', dot_sub_mul, hlast]
    simp only [Int.cast_id]
    ring
  have hiff : ∀ x, dot w.workCols (fun j => w.workEq (w.workRowsEq - 1) j) x = w.workConstEq (w.workRowsEq - 1) →
      (w'.dropEq.Solves x ↔ w.dropEq.Solves x) := by
    intro x hlast
    constructor
    · intro h
      refine ⟨fun r hr => ?_, fun r hr => ?_⟩
      · have hr' : r < w.workRowsEq - 1 := hr
        have heq := h.eqs r (show r < w'.workRowsEq - 1 by omega)
        dsimp only [Work.dropEq] at heq ⊢
        rw [hcols, hvalue _ _ x (hexact.eq r hr') hlast, hconst.eq r hr'] at heq
        linarith
      · have hr' : r < w.workRows := hr
        have hle := h.les r (show r < w'.workRows by omega)
        dsimp only [Work.dropEq] at hle ⊢
        rw [hcols, hvalue _ _ x (hexact.le r hr') hlast, hconst.le r hr'] at hle
        linarith
    · intro h
      refine ⟨fun r hr => ?_, fun r hr => ?_⟩
      · have hr' : r < w.workRowsEq - 1 := by
          rw [← hrowsEq]
          exact hr
        have heq := h.eqs r hr'
        dsimp only [Work.dropEq] at heq ⊢
        rw [hcols, hvalue _ _ x (hexact.eq r hr') hlast, hconst.eq r hr', heq]
      · have hr' : r < w.workRows := by
          rw [← hrows]
          exact hr
        have hle := h.les r hr'
        dsimp only [Work.dropEq] at hle ⊢
        rw [hcols, hvalue _ _ x (hexact.le r hr') hlast, hconst.le r hr']
        linarith
  have hsquare : (w.workEq (w.workRowsEq - 1) i : Int) * w.workEq (w.workRowsEq - 1) i = 1 := by
    rcases hcall.unit with h | h <;> rw [h] <;> decide
  constructor
  · rintro ⟨x, hx⟩
    obtain ⟨t, ht⟩ := exists_update_dot_eq (a := fun j => (w.workEq (w.workRowsEq - 1) j : Int)) hcall.lt hcall.unit
      (w.workConstEq (w.workRowsEq - 1)) x
    -- the new rows do not see unknown `i`
    have hx' : w'.dropEq.Solves (Function.update x i t) := by
      refine ⟨fun r hr => ?_, fun r hr => ?_⟩
      · have hr' : r < w.workRowsEq - 1 := by
          rw [← hrowsEq]
          exact hr
        have hzero : (w'.workEq r i : Int) = 0 := by
          rw [hexact.eq r hr' i hcall.lt, hsquare]
          ring
        have heq := hx.eqs r hr
        dsimp only [Work.dropEq] at heq ⊢
        rw [dot_update_of_eq_zero hzero]
        exact heq
      · have hr' : r < w.workRows := by
          rw [← hrows]
          exact hr
        have hzero : (w'.work r i : Int) = 0 := by
          rw [hexact.le r hr' i hcall.lt, hsquare]
          ring
        have hle := hx.les r hr
        dsimp only [Work.dropEq] at hle ⊢
        rw [dot_update_of_eq_zero hzero]
        exact hle
    exact ⟨_, (solves_iff hpos _).2 ⟨ht, (hiff _ ht).1 hx'⟩⟩
  · rintro ⟨x, hx⟩
    obtain ⟨hlast, hrest⟩ := (solves_iff hpos x).1 hx
    exact ⟨x, (hiff x hlast).2 hrest⟩

end Unary

/-! ## The common divisor -/

/-- What the loop of `Normalize_Eq_and_Find_Smallest` finds. -/
structure Divides (row : Nat → MInt32) (cols : List Nat) (s : Smallest) : Prop where
  pos : 0 < s.g
  fits : s.g < 2 ^ 31
  dvd : ∀ j ∈ cols, s.g ∣ row j
  mem : s.smallestPos ∈ cols

theorem Divides.next {row : Nat → MInt32} {cols : List Nat} {s : Smallest} (h : Divides row cols s) {i : Nat}
    (hmin : (row i : Int) ≠ -2 ^ 31) : Divides row (cols ++ [i]) (s.next row i) := by
  have hpos := h.pos
  have hfits := h.fits
  have habs : abs32 (row i) = |(row i : Int)| := abs32_nonneg (row i).2 hmin
  have hmem : s.smallestPos ∈ cols ++ [i] := List.mem_append_left _ h.mem
  rw [Smallest.next, habs]
  by_cases hzero : |(row i : Int)| = 0
  · rw [if_neg (not_not.2 hzero)]
    refine ⟨hpos, hfits, fun j hj => ?_, hmem⟩
    rcases List.mem_append.1 hj with hj | hj
    · exact h.dvd j hj
    · rw [List.mem_singleton.1 hj, abs_eq_zero.1 hzero]
      exact dvd_zero _
  · rw [if_pos hzero]
    have hle : |(row i : Int)| < 2 ^ 31 := by
      obtain ⟨h1, h2⟩ := (row i).2
      rw [abs_lt]
      constructor <;> omega
    have hnonneg := abs_nonneg (row i : Int)
    have hg : gcd32 s.g |(row i : Int)| = (Int.gcd s.g |(row i : Int)| : Int) :=
      gcd32_nonneg ⟨by omega, hfits⟩ ⟨by omega, hle⟩ (by omega) (by omega)
    have hdvd : ((Int.gcd s.g |(row i : Int)| : Nat) : Int) ∣ s.g := Int.gcd_dvd_left ..
    have hnew : Divides row (cols ++ [i]) ⟨gcd32 s.g |(row i : Int)|, |(row i : Int)|, i⟩ := by
      rw [hg]
      refine ⟨?_, (Int.le_of_dvd hpos hdvd).trans_lt hfits, fun j hj => ?_, List.mem_append_right _ (List.mem_singleton_self i)⟩
      · exact Int.natCast_pos.2 (Int.gcd_pos_of_ne_zero_left _ hpos.ne')
      · rcases List.mem_append.1 hj with hj | hj
        · exact hdvd.trans (h.dvd j hj)
        · rw [List.mem_singleton.1 hj]
          exact (dvd_abs _ _).1 (Int.gcd_dvd_right ..)
    split_ifs
    · exact hnew
    · exact ⟨hnew.pos, hnew.fits, hnew.dvd, hmem⟩

theorem foldl_divides {row : Nat → MInt32} (rest : List Nat) : ∀ (cols : List Nat) (s : Smallest), Divides row cols s →
    (∀ i ∈ rest, (row i : Int) ≠ -2 ^ 31) → Divides row (cols ++ rest) (rest.foldl (Smallest.next row) s) := by
  induction rest with
  | nil =>
    intro cols s h _
    rw [List.append_nil]
    exact h
  | cons i rest ih =>
    intro cols s h hmin
    obtain ⟨hi, hrest⟩ := List.forall_mem_cons.1 hmin
    have hall := ih (cols ++ [i]) _ (h.next hi) hrest
    rw [List.append_assoc, List.singleton_append] at hall
    exact hall

theorem findSmallest_divides {row : Nat → MInt32} {minvar cols : Nat} (hminvar : minvar < cols) (hne : (row minvar : Int) ≠ 0)
    (hmin : ∀ j < cols, (row j : Int) ≠ -2 ^ 31) :
    Divides row (List.range' minvar (cols - minvar)) (findSmallest row minvar cols) := by
  have habs : abs32 (row minvar) = |(row minvar : Int)| := abs32_nonneg (row minvar).2 (hmin minvar hminvar)
  have hlt : |(row minvar : Int)| < 2 ^ 31 := by
    obtain ⟨h1, h2⟩ := (row minvar).2
    have := hmin minvar hminvar
    rw [abs_lt]
    constructor <;> omega
  have hstart : Divides row [minvar] ⟨abs32 (row minvar), abs32 (row minvar), minvar⟩ := by
    rw [habs]
    refine ⟨abs_pos.2 hne, hlt, fun j hj => ?_, List.mem_singleton_self minvar⟩
    rw [List.mem_singleton.1 hj]
    exact (abs_dvd_abs _ _).1 (dvd_of_eq (abs_abs _))
  have hall := foldl_divides (List.range' (minvar + 1) (cols - (minvar + 1))) _ _ hstart fun i hi => by
    rw [List.mem_range'_1] at hi
    exact hmin i (by omega)
  rw [findSmallest, show cols - minvar = cols - (minvar + 1) + 1 by omega, List.range'_succ]
  exact hall

theorem zero_of_lt_firstVar {w : Work} : ∀ j < w.firstVar, (w.workEq (w.workRowsEq - 1) j : Int) = 0 := by
  intro j hj
  have hbefore := List.not_of_lt_findIdx hj
  rw [List.getElem_range] at hbefore
  exact bne_eq_false_iff_eq.1 hbefore

theorem firstVar_spec {w : Work} (hne : w.firstVar ≠ w.workCols) : w.firstVar < w.workCols ∧
    (w.workEq (w.workRowsEq - 1) w.firstVar : Int) ≠ 0 := by
  have hle : w.firstVar ≤ (List.range w.workCols).length := List.findIdx_le_length
  rw [List.length_range] at hle
  have hlt : w.firstVar < w.workCols := by omega
  have hat := List.findIdx_of_getElem?_eq_some (List.getElem?_range hlt)
  exact ⟨hlt, bne_iff_ne.1 hat⟩

/-- No coefficient is the least value, and the constant's low 32 bits show whether it is a multiple of the common divisor. -/
structure NormalizeFits (w : Work) : Prop where
  coeffs : ∀ j < w.workCols, (w.workEq (w.workRowsEq - 1) j : Int) ≠ -2 ^ 31
  const : InInt64 (w.workConstEq (w.workRowsEq - 1))
  check : (findSmallest (w.workEq (w.workRowsEq - 1)) w.firstVar w.workCols).g ∣ wrap32 (w.workConstEq (w.workRowsEq - 1)) ↔
    (findSmallest (w.workEq (w.workRowsEq - 1)) w.firstVar w.workCols).g ∣ w.workConstEq (w.workRowsEq - 1)

/-- The last equality divided by a common divisor. -/
structure Normalized (w w' : Work) (minvar smallestVar : Nat) : Prop where
  rowsEq : w'.workRowsEq = w.workRowsEq
  cols : w'.workCols = w.workCols
  solves : ∀ x, w'.Solves x ↔ w.Solves x
  zero : ∀ j < minvar, (w'.workEq (w.workRowsEq - 1) j : Int) = 0
  min : minvar ≤ smallestVar
  lt : smallestVar < w.workCols

theorem normalizeEq_spec {w : Work} (hpos : 0 < w.workRowsEq) (hne : w.firstVar ≠ w.workCols) (hfits : NormalizeFits w) :
    (w.normalizeEq (w.workRowsEq - 1) w.firstVar = none → ¬ ∃ x, w.Solves x) ∧
    ∀ w' smallestVar, w.normalizeEq (w.workRowsEq - 1) w.firstVar = some (w', smallestVar) →
      Normalized w w' w.firstVar smallestVar := by
  obtain ⟨hminvar, hne⟩ := firstVar_spec hne
  obtain ⟨hmin, hconst, hcheck⟩ := hfits
  have hzero := @zero_of_lt_firstVar w
  have hdiv := findSmallest_divides hminvar hne hmin
  rw [Work.normalizeEq]
  generalize w.firstVar = minvar at hminvar hne hzero hdiv hcheck ⊢
  generalize findSmallest (w.workEq (w.workRowsEq - 1)) minvar w.workCols = s at hdiv hcheck ⊢
  have hgpos := hdiv.pos
  have hdvd : ∀ j < w.workCols, s.g ∣ w.workEq (w.workRowsEq - 1) j := by
    intro j hj
    by_cases hjm : j < minvar
    · rw [hzero j hjm]
      exact dvd_zero _
    · exact hdiv.dvd j (by rw [List.mem_range'_1]; omega)
  have hcond : (absInt (w.workConstEq (w.workRowsEq - 1))).tmod s.g = 0 ↔ s.g ∣ w.workConstEq (w.workRowsEq - 1) := by
    rw [← Int.dvd_iff_tmod_eq_zero, absInt, dvd_abs32 (inInt32_wrap32 _), hcheck]
  by_cases hc : s.g ∣ w.workConstEq (w.workRowsEq - 1)
  · rw [if_neg (not_not.2 (hcond.2 hc))]
    refine ⟨fun h => absurd h (Option.some_ne_none _), fun w' smallestVar h => ?_⟩
    rw [Option.some.injEq, Prod.mk.injEq] at h
    obtain ⟨rfl, rfl⟩ := h
    have hmem := hdiv.mem
    rw [List.mem_range'_1] at hmem
    -- the quotients are exact
    have hquot : ∀ j < w.workCols, s.g * (if minvar ≤ j ∧ j < w.workCols
        then MInt32.ofInt ((w.workEq (w.workRowsEq - 1) j : Int).tdiv s.g) else w.workEq (w.workRowsEq - 1) j : MInt32) =
        (w.workEq (w.workRowsEq - 1) j : Int) := by
      intro j hj
      by_cases hjm : minvar ≤ j
      · rw [if_pos ⟨hjm, hj⟩]
        obtain ⟨t, ht⟩ := hdvd j hj
        obtain ⟨h1, h2⟩ := (w.workEq (w.workRowsEq - 1) j).2
        have hfit : InInt32 t := by
          rw [ht] at h1 h2
          constructor <;> nlinarith
        show s.g * wrap32 ((w.workEq (w.workRowsEq - 1) j : Int).tdiv s.g) = _
        rw [ht, Int.mul_tdiv_cancel_left _ hgpos.ne', wrap32_eq_iff.2 hfit]
      · rw [if_neg fun h => hjm h.1, hzero j (by omega), mul_zero]
    have hquotConst : s.g * wrap64 ((w.workConstEq (w.workRowsEq - 1)).tdiv s.g) = w.workConstEq (w.workRowsEq - 1) := by
      obtain ⟨t, ht⟩ := hc
      obtain ⟨h1, h2⟩ := hconst
      have hfit : InInt64 t := by
        rw [ht] at h1 h2
        constructor <;> nlinarith
      rw [ht, Int.mul_tdiv_cancel_left _ hgpos.ne', wrap64_eq hfit]
    refine ⟨rfl, rfl, fun x => ?_, fun j hj => ?_, hmem.1, by omega⟩
    · refine (solves_iff ?_ x).trans (Iff.trans ?_ (solves_iff hpos x).symm)
      · exact hpos
      dsimp only
      rw [Function.update_self, Function.update_self]
      refine and_congr ?_ ?_
      · have hscaled := mul_dot (n := w.workCols) (x := x) (a := fun j => ((if minvar ≤ j ∧ j < w.workCols
          then MInt32.ofInt ((w.workEq (w.workRowsEq - 1) j : Int).tdiv s.g) else w.workEq (w.workRowsEq - 1) j : MInt32) : Int)) s.g
        rw [dot_congr hquot] at hscaled
        rw [← hscaled, ← mul_right_inj' hgpos.ne', hquotConst]
        rfl
      · apply dropEq_solves_congr <;> try rfl
        exact fun r hr => ⟨Function.update_of_ne hr _ _, Function.update_of_ne hr _ _⟩
    · dsimp only
      rw [Function.update_self, if_neg (by omega)]
      exact hzero j hj
  · rw [if_pos fun h => hc (hcond.1 h)]
    refine ⟨fun _ => ?_, fun w' smallestVar h => absurd h.symm (Option.some_ne_none _)⟩
    rintro ⟨x, hx⟩
    refine hc ?_
    rw [← hx.eqs _ (show w.workRowsEq - 1 < w.workRowsEq by omega)]
    have hdvd' : ∀ j < w.workCols, s.g ∣ (w.workEq (w.workRowsEq - 1) j : Int) - 0 := fun j hj => by
      rw [sub_zero]
      exact hdvd j hj
    have hdot := dvd_dot_sub_dot (b := fun _ => 0) hdvd' x
    rwa [dot_eq_zero fun _ _ => rfl, sub_zero] at hdot

/-! ## A new unknown -/

/-- `Mod_Hat` is `a` minus a multiple of `b`, and at most half of `b`. -/
theorem modHat_spec {a b : Int} (hb : 0 < b) (hden : InInt32 (2 * b)) (hnum : InInt32 (2 * a + b)) :
    b ∣ a - modHat a b ∧ -b ≤ 2 * modHat a b ∧ 2 * modHat a b < b := by
  have hfloor : (if (2 * a + b ≥ 0 ∧ 2 * b > 0) ∨ (2 * a + b ≤ 0 ∧ 2 * b < 0) then (2 * a + b).tdiv (2 * b)
      else if (2 * a + b).tmod (2 * b) = 0 then (2 * a + b).tdiv (2 * b) else wrap32 ((2 * a + b).tdiv (2 * b) - 1)) =
      (2 * a + b) / (2 * b) := by
    have htdiv := Int.tdiv_eq_ediv (a := 2 * a + b) (b := 2 * b)
    split_ifs with h1 h2
    · rw [htdiv, if_pos (Or.inl (by omega)), add_zero]
    · rw [htdiv, if_pos (Or.inr (Int.dvd_of_tmod_eq_zero h2)), add_zero]
    · have hnot : ¬ (0 ≤ 2 * a + b ∨ 2 * b ∣ 2 * a + b) := by
        rintro (hc | hc)
        · exact h1 (Or.inl ⟨hc, by omega⟩)
        · exact h2 (Int.dvd_iff_tmod_eq_zero.1 hc)
      rw [htdiv, if_neg hnot, Int.sign_eq_one_of_pos (by omega), add_sub_cancel_right]
      refine wrap32_eq_iff.2 ?_
      rw [not_or] at hnot
      obtain ⟨hn1, hn2⟩ := hnum
      have hlow : -2 ^ 31 ≤ (2 * a + b) / (2 * b) := by
        rw [Int.le_ediv_iff_mul_le (by omega)]
        nlinarith
      have hup : (2 * a + b) / (2 * b) < 0 := Int.ediv_neg_of_neg_of_pos (by omega) (by omega)
      constructor <;> omega
  have hdiv := Int.emod_add_mul_ediv (2 * a + b) (2 * b)
  have hnonneg := Int.emod_nonneg (2 * a + b) (show 2 * b ≠ 0 by omega)
  have hlt := Int.emod_lt_of_pos (2 * a + b) (show 0 < 2 * b by omega)
  rw [modHat, wrap32_eq_iff.2 hnum, wrap32_eq_iff.2 hden]
  rw [hfloor]
  generalize (2 * a + b) / (2 * b) = f at hdiv
  have hmul : 2 * b * f = 2 * (b * f) := by ring
  rw [hmul] at hdiv
  have hfit : InInt32 (a - b * f) := by
    obtain ⟨h1, h2⟩ := hden
    constructor <;> omega
  rw [wrap32_eq_iff.2 hfit]
  exact ⟨⟨f, by ring⟩, by omega, by omega⟩

/-- There is a free row and a free column, and the operands of `Mod_Hat` are not too large. -/
structure PughFits (w : Work) (smallestVar : Nat) : Prop where
  cols : w.workCols < soeMaxWorkCols
  rowsEq : w.workRowsEq < soeMaxWorkRowsEq
  m : InInt32 (2 * (|(w.workEq (w.workRowsEq - 1) smallestVar : Int)| + 1))
  coeffs : ∀ j < w.workCols, InInt32 (2 * w.workEq (w.workRowsEq - 1) j +
    (|(w.workEq (w.workRowsEq - 1) smallestVar : Int)| + 1))
  const : InInt32 (w.workConstEq (w.workRowsEq - 1))
  numConst : InInt32 (2 * w.workConstEq (w.workRowsEq - 1) + (|(w.workEq (w.workRowsEq - 1) smallestVar : Int)| + 1))

/-- The new system: a zero column in the old rows, and an equality that fixes the new unknown modulo the others. -/
structure Pughed (w w' : Work) (m : Int) (hat : Nat → Int) (hatConst : Int) : Prop where
  rowsEq : w'.workRowsEq = w.workRowsEq + 1
  rows : w'.workRows = w.workRows
  cols : w'.workCols = w.workCols + 1
  le : ∀ r < w.workRows, w'.workConst r = w.workConst r ∧ (w'.work r w.workCols : Int) = 0 ∧
    ∀ j < w.workCols, w'.work r j = w.work r j
  eq : ∀ r < w.workRowsEq, w'.workConstEq r = w.workConstEq r ∧ (w'.workEq r w.workCols : Int) = 0 ∧
    ∀ j < w.workCols, w'.workEq r j = w.workEq r j
  new : (w'.workEq w.workRowsEq w.workCols : Int) = m ∧ ∀ j < w.workCols, (w'.workEq w.workRowsEq j : Int) = -hat j
  newConst : w'.workConstEq w.workRowsEq = -hatConst

/-- The new unknown takes up the difference between the equality and its image under `Mod_Hat`. -/
theorem Pughed.exists_solves {w w' : Work} {m : Int} {hat : Nat → Int} {hatConst : Int} (hpos : 0 < w.workRowsEq)
    (h : Pughed w w' m hat hatConst) (hhat : ∀ j < w.workCols, m ∣ w.workEq (w.workRowsEq - 1) j - hat j)
    (hconst : m ∣ w.workConstEq (w.workRowsEq - 1) - hatConst) : (∃ x, w'.Solves x) ↔ ∃ x, w.Solves x := by
  have hdot : ∀ (a : Nat → MInt32) (x : Nat → Int), dot w'.workCols (fun j => a j) x =
      dot w.workCols (fun j => a j) x + a w.workCols * x w.workCols := by
    intro a x
    rw [h.cols]
    exact Finset.sum_range_succ _ _
  have hle : ∀ r < w.workRows, ∀ x : Nat → Int, dot w'.workCols (fun j => w'.work r j) x =
      dot w.workCols (fun j => w.work r j) x := by
    intro r hr x
    obtain ⟨-, hzero, hsame⟩ := h.le r hr
    rw [hdot, hzero, zero_mul, add_zero]
    exact dot_congr fun j hj => by rw [hsame j hj]
  have heq : ∀ r < w.workRowsEq, ∀ x : Nat → Int, dot w'.workCols (fun j => w'.workEq r j) x =
      dot w.workCols (fun j => w.workEq r j) x := by
    intro r hr x
    obtain ⟨-, hzero, hsame⟩ := h.eq r hr
    rw [hdot, hzero, zero_mul, add_zero]
    exact dot_congr fun j hj => by rw [hsame j hj]
  constructor
  · rintro ⟨x, hx⟩
    refine ⟨x, fun r hr => ?_, fun r hr => ?_⟩
    · rw [← heq r hr x, ← (h.eq r hr).1]
      exact hx.eqs r (by rw [h.rowsEq]; omega)
    · rw [← hle r hr x, ← (h.le r hr).1]
      exact hx.les r (h.rows.symm ▸ hr)
  · rintro ⟨x, hx⟩
    have hlast := hx.eqs (w.workRowsEq - 1) (by omega)
    have hmod := dvd_dot_sub_dot (b := hat) hhat x
    rw [hlast] at hmod
    obtain ⟨σ, hσ⟩ := dvd_sub hconst hmod
    have hsame : ∀ a : Nat → Int, dot w.workCols a (Function.update x w.workCols σ) = dot w.workCols a x := fun a =>
      dot_update_of_le le_rfl σ
    refine ⟨Function.update x w.workCols σ, fun r hr => ?_, fun r hr => ?_⟩
    · by_cases hr' : r < w.workRowsEq
      · rw [heq r hr', hsame, (h.eq r hr').1]
        exact hx.eqs r hr'
      · rw [h.rowsEq] at hr
        obtain rfl : r = w.workRowsEq := by omega
        have hneg : dot w.workCols (fun j => (w'.workEq w.workRowsEq j : Int)) x = -dot w.workCols hat x := by
          have hscaled := mul_dot (n := w.workCols) (a := hat) (x := x) (-1)
          rw [dot_congr h.new.2, dot_congr fun j _ => (neg_one_mul (hat j)).symm, ← hscaled]
          simp only [Int.cast_id]
          ring
        rw [hdot, hsame, hneg, h.new.1, Function.update_self, h.newConst]
        linarith
    · have hr' : r < w.workRows := h.rows ▸ hr
      rw [hle r hr', hsame, (h.le r hr').1]
      exact hx.les r hr'

theorem pugh_pughed {w : Work} {smallestVar : Nat} (hpos : 0 < w.workRowsEq) (hs : smallestVar < w.workCols)
    (hmin : (w.workEq (w.workRowsEq - 1) smallestVar : Int) ≠ -2 ^ 31) (h : PughFits w smallestVar) :
    Pughed w (w.pugh smallestVar) (|(w.workEq (w.workRowsEq - 1) smallestVar : Int)| + 1)
      (fun j => modHat (w.workEq (w.workRowsEq - 1) j) (|(w.workEq (w.workRowsEq - 1) smallestVar : Int)| + 1))
      (modHat (w.workConstEq (w.workRowsEq - 1)) (|(w.workEq (w.workRowsEq - 1) smallestVar : Int)| + 1)) := by
  have habs : abs32 (w.workEq (w.workRowsEq - 1) smallestVar) = |(w.workEq (w.workRowsEq - 1) smallestVar : Int)| :=
    abs32_nonneg (w.workEq (w.workRowsEq - 1) smallestVar).2 hmin
  have hmpos : 0 < |(w.workEq (w.workRowsEq - 1) smallestVar : Int)| + 1 := by
    have := abs_nonneg (w.workEq (w.workRowsEq - 1) smallestVar : Int)
    omega
  have hcoeffs := h.coeffs
  have hnumConst := h.numConst
  have hm := h.m
  have hm32 : wrap32 (|(w.workEq (w.workRowsEq - 1) smallestVar : Int)| + 1) =
      |(w.workEq (w.workRowsEq - 1) smallestVar : Int)| + 1 := by
    refine wrap32_eq_iff.2 ⟨by omega, ?_⟩
    have := hm.2
    omega
  -- the array with the new column
  have hvar : w.addWorkVar = { w with
      work := fun r c => if r < w.workRows ∧ c = w.workCols then MInt32.ofInt 0 else w.work r c
      workEq := fun r c => if r < w.workRowsEq ∧ c = w.workCols then MInt32.ofInt 0 else w.workEq r c
      workCols := w.workCols + 1 } := if_neg (not_le.2 h.cols)
  have hold : ∀ r, ∀ j < w.workCols, (if r < w.workRowsEq ∧ j = w.workCols then MInt32.ofInt 0 else w.workEq r j) =
      w.workEq r j := fun r j hj => if_neg (by omega)
  rw [Work.pugh, hvar]
  dsimp only
  rw [hold _ _ hs, habs, hm32, show w.workRowsEq - 1 + 1 = w.workRowsEq by omega]
  generalize |(w.workEq (w.workRowsEq - 1) smallestVar : Int)| + 1 = m at hmpos hm32 hcoeffs hnumConst hm ⊢
  have hneg : ∀ a : Int, InInt32 (2 * a + m) → wrap32 (-modHat a m) = -modHat a m := by
    intro a ha
    obtain ⟨-, h1, h2⟩ := modHat_spec hmpos hm ha
    obtain ⟨g1, g2⟩ := hm
    exact wrap32_eq_iff.2 ⟨by omega, by omega⟩
  refine ⟨rfl, rfl, rfl, fun r hr => ⟨rfl, ?_, fun j hj => if_neg (by omega)⟩, fun r hr => ⟨?_, ?_, fun j hj => ?_⟩,
    ⟨?_, fun j hj => ?_⟩, ?_⟩
  · dsimp only
    rw [if_pos ⟨hr, rfl⟩]
    rfl
  · exact Function.update_of_ne hr.ne _ _
  · dsimp only
    rw [Function.update_of_ne hr.ne, if_pos ⟨hr, rfl⟩]
    rfl
  · dsimp only
    rw [Function.update_of_ne hr.ne]
    exact hold r j hj
  · dsimp only
    rw [Function.update_self, if_neg (by omega), if_pos (by omega)]
    exact hm32
  · dsimp only
    rw [Function.update_self, if_pos (by omega), hold _ j hj]
    exact hneg _ (hcoeffs j hj)
  · dsimp only
    rw [Function.update_self, wrap32_eq_iff.2 h.const]
    exact hneg _ hnumConst

/-! ## The loop -/

/-- What an operation of the elimination needs to be exact and to stay within the arrays. -/
def EqEvent.Fits : EqEvent → Prop
  | .unary w i _ => UnaryFits w i ∧ ConstFits w i
  | .normalize w => NormalizeFits w
  | .pugh w smallestVar => PughFits w smallestVar

/-- The free columns count twice: each new unknown brings one equality. -/
def Work.measure (w : Work) : Nat := 2 * (soeMaxWorkCols - w.workCols) + w.workRowsEq

/-- What one call of `Sub_Last_Equal` does. -/
structure Stepped (w w' : Work) (inconsistent : Bool) : Prop where
  none : inconsistent = true → ¬ ∃ x, w.Solves x
  same : inconsistent = false → ((∃ x, w'.Solves x) ↔ ∃ x, w.Solves x)
  smaller : inconsistent = false → w'.measure < w.measure

theorem subUnary_stepped {w : Work} (hpos : 0 < w.workRowsEq) {i minvar : Nat} (hcall : UnaryCall w i minvar) :
    Meets EqEvent.Fits (w.subUnary i minvar) fun res => ∀ w' inc, res = some (w', inc) → Stepped w w' inc := by
  refine (meets_report (R := fun _ => EqEvent.Fits (.unary w i minvar)) id).bind fun _ hfits => meets_pure ?_
  intro w' inc h
  rw [subLastEqualUnary_eq, Option.map_some, Option.some_inj, Prod.mk.injEq] at h
  obtain ⟨rfl, rfl⟩ := h
  obtain ⟨hunary, hconst⟩ := hfits
  obtain ⟨hrowsEq, hrows, hcols, -⟩ := negateLast_rows w i minvar
  refine ⟨fun hc => absurd hc Bool.false_ne_true, fun _ => ?_, fun _ => ?_⟩
  · exact exists_solves_unary hpos hcall ((unaryExact_iff hcall).2 hunary) (constExact_substituted hcall hconst)
      hrowsEq hrows hcols
  · show 2 * (soeMaxWorkCols - (w.negateLast i minvar).workCols) + ((w.negateLast i minvar).workRowsEq - 1) <
      2 * (soeMaxWorkCols - w.workCols) + w.workRowsEq
    rw [hrowsEq, hcols]
    omega

theorem abs32_eq_one_iff {x : MInt32} : abs32 x = 1 ↔ (x : Int) = 1 ∨ (x : Int) = -1 := by
  have hnat := natAbs_abs32 x.2
  constructor
  · intro h
    rw [h] at hnat
    omega
  · rintro (h | h) <;> rw [h] <;> decide

/-- `Sub_Last_Equal`. -/
theorem subLastEqual_stepped {w : Work} (hpos : 0 < w.workRowsEq) :
    Meets EqEvent.Fits w.subLastEqual fun res => ∀ w' inc, res = some (w', inc) → Stepped w w' inc := by
  rw [Work.subLastEqual]
  by_cases hnull : w.firstVar = w.workCols
  · -- an equality without unknowns
    rw [if_pos hnull]
    refine meets_pure fun w' inc h => ?_
    rw [Option.some.injEq, Prod.mk.injEq] at h
    obtain ⟨rfl, rfl⟩ := h
    have hdot : ∀ x : Nat → Int, dot w.workCols (fun j => w.workEq (w.workRowsEq - 1) j) x = 0 := fun x =>
      dot_eq_zero fun j hj => zero_of_lt_firstVar j (hnull ▸ hj)
    refine ⟨fun hinc => ?_, fun hinc => exists_congr fun x => ?_, fun _ => ?_⟩
    · rintro ⟨x, hx⟩
      refine of_decide_eq_true hinc ?_
      rw [← ((solves_iff hpos x).1 hx).1]
      exact hdot x
    · rw [solves_iff hpos, hdot]
      exact (and_iff_right (not_not.1 (of_decide_eq_false hinc)).symm).symm
    · show 2 * (soeMaxWorkCols - w.workCols) + (w.workRowsEq - 1) < 2 * (soeMaxWorkCols - w.workCols) + w.workRowsEq
      omega
  · rw [if_neg hnull]
    obtain ⟨hlt, hne⟩ := firstVar_spec hnull
    by_cases hunit : abs32 (w.workEq (w.workRowsEq - 1) w.firstVar) = 1
    · rw [if_pos hunit]
      exact subUnary_stepped hpos ⟨hlt, le_rfl, abs32_eq_one_iff.1 hunit, zero_of_lt_firstVar⟩
    · rw [if_neg hunit]
      refine (meets_report (R := fun _ => EqEvent.Fits (.normalize w)) id).bind fun _ hfits => ?_
      obtain ⟨hnone, hsome⟩ := normalizeEq_spec hpos hnull hfits
      cases hnorm : w.normalizeEq (w.workRowsEq - 1) w.firstVar with
      | none =>
        refine meets_pure fun w' inc h => ?_
        rw [Option.some.injEq, Prod.mk.injEq] at h
        obtain ⟨rfl, rfl⟩ := h
        exact ⟨fun _ => hnone hnorm, fun hc => absurd hc.symm Bool.false_ne_true, fun hc => absurd hc.symm Bool.false_ne_true⟩
      | some res =>
        obtain ⟨v, smallestVar⟩ := res
        have hv := hsome v smallestVar hnorm
        have hvpos : 0 < v.workRowsEq := hv.rowsEq.symm ▸ hpos
        have hvlt : smallestVar < v.workCols := hv.cols.symm ▸ hv.lt
        -- the division keeps the solutions
        have hsame : ∀ w' inc, Stepped v w' inc → Stepped w w' inc := by
          intro w' inc h
          have hiff : (∃ x, v.Solves x) ↔ ∃ x, w.Solves x := exists_congr hv.solves
          refine ⟨fun hc => hiff.not.1 (h.none hc), fun hc => (h.same hc).trans hiff, fun hc => ?_⟩
          have hsmaller := h.smaller hc
          unfold Work.measure at hsmaller ⊢
          rwa [hv.cols, hv.rowsEq] at hsmaller
        dsimp only
        rw [← hv.rowsEq]
        by_cases hunit' : abs32 (v.workEq (v.workRowsEq - 1) smallestVar) = 1
        · rw [if_pos hunit']
          refine (subUnary_stepped hvpos ⟨hvlt, hv.min, abs32_eq_one_iff.1 hunit', ?_⟩).mono fun res h w' inc hres =>
            hsame w' inc (h w' inc hres)
          rw [hv.rowsEq]
          exact hv.zero
        · rw [if_neg hunit']
          refine (meets_report (R := fun _ => EqEvent.Fits (.pugh v smallestVar)) id).bind fun _ hpugh => meets_pure ?_
          have hpugh : PughFits v smallestVar := hpugh
          intro w' inc h
          rw [Option.some.injEq, Prod.mk.injEq] at h
          obtain ⟨rfl, rfl⟩ := h
          have hm := hpugh.m
          have habs := abs_nonneg (v.workEq (v.workRowsEq - 1) smallestVar : Int)
          have hmpos : 0 < |(v.workEq (v.workRowsEq - 1) smallestVar : Int)| + 1 := by omega
          have hvmin : (v.workEq (v.workRowsEq - 1) smallestVar : Int) ≠ -2 ^ 31 := by
            intro hc
            rw [hc] at hm
            exact absurd hm (by decide)
          have hnew := pugh_pughed hvpos hvlt hvmin hpugh
          refine hsame _ _ ⟨fun hc => absurd hc Bool.false_ne_true, fun _ => ?_, fun _ => ?_⟩
          · exact hnew.exists_solves hvpos (fun j hj => (modHat_spec hmpos hm (hpugh.coeffs j hj)).1)
              (modHat_spec hmpos hm hpugh.numConst).1
          · have hcols := hpugh.cols
            unfold Work.measure
            rw [hnew.cols, hnew.rowsEq]
            omega

/-- The answer is right about a system with a solution just when `P` holds. -/
def EqResult.Right (P : Prop) : EqResult → Prop
  | .failed => True
  | .inconsistent _ => ¬ P
  | .done w => (∃ x : Nat → Int, w.Holds x) ↔ P

theorem subLoop_right (k : Nat) : ∀ w : Work, w.measure < k →
    Meets EqEvent.Fits (subLoop k w) (EqResult.Right (∃ x, w.Solves x)) := by
  induction k with
  | zero => exact fun w h => absurd h (Nat.not_lt_zero _)
  | succ k ih =>
    intro w hmeasure
    rw [subLoop]
    by_cases hpos : w.workRowsEq > 0
    · rw [if_pos hpos]
      refine (subLastEqual_stepped hpos).bind fun res hres => ?_
      match res, hres with
      | none, _ => exact meets_pure trivial
      | some (w', true), hres => exact meets_pure ((hres w' true rfl).none rfl)
      | some (w', false), hres =>
        have hstep := hres w' false rfl
        have hsmaller := hstep.smaller rfl
        have hrest := ih w' (by omega)
        rwa [hstep.same rfl] at hrest
    · rw [if_neg hpos]
      refine meets_pure (exists_congr fun x => ?_)
      rw [holds_iff]
      exact ⟨fun h => ⟨fun r hr => absurd hr (by omega), fun r hr => by exact_mod_cast h r hr⟩,
        fun h r hr => by exact_mod_cast h.les r hr⟩

/-! ## The whole elimination -/

/-- The equalities hold at `x`. -/
def Equalities.Holds (q : Equalities) (x : Nat → Int) : Prop := ∀ r < q.eqnsEq, dot q.vars (fun j => q.aeq r j) x = q.beq r

/-- The arrays with the equalities copied. -/
def Work.withEq (w : Work) (q : Equalities) : Work :=
  { w with
    workCols := q.vars
    workRowsEq := q.eqnsEq
    workConstEq := fun r => if r < q.eqnsEq then q.beq r else w.workConstEq r
    workEq := fun r c => if r < q.eqnsEq ∧ c < q.vars then q.aeq r c else w.workEq r c }

theorem withEq_solves {w : Work} {q : Equalities} (hvars : w.workRows ≠ 0 → q.vars = w.workCols) (x : Nat → Int) :
    (w.withEq q).Solves x ↔ q.Holds x ∧ w.Holds x := by
  have heq : ∀ r < q.eqnsEq, dot q.vars (fun j => (w.withEq q).workEq r j) x = dot q.vars (fun j => q.aeq r j) x :=
    fun r hr => dot_congr fun j hj => congrArg Subtype.val (if_pos ⟨hr, hj⟩)
  have hconst : ∀ r < q.eqnsEq, (w.withEq q).workConstEq r = q.beq r := fun r hr => if_pos hr
  have hle : ∀ r < w.workRows, dot q.vars (fun j => w.work r j) x = dot w.workCols (fun j => w.work r j) x :=
    fun r hr => by rw [hvars (by omega)]
  rw [holds_iff]
  constructor
  · intro h
    refine ⟨fun r hr => ?_, fun r hr => ?_⟩
    · rw [← heq r hr, ← hconst r hr]
      exact h.eqs r hr
    · rw [← hle r hr]
      exact_mod_cast h.les r hr
  · rintro ⟨h1, h2⟩
    refine ⟨fun r hr => ?_, fun r hr => ?_⟩
    · exact (heq r hr).trans ((h1 r hr).trans (hconst r hr).symm)
    · exact (hle r hr).trans_le (by exact_mod_cast h2 r hr)

theorem copyToWorkEq_copies {ok : EqEvent → Prop} {w : Work} {q : Equalities} (hvars : w.workRows ≠ 0 → q.vars = w.workCols)
    (hcols : q.vars ≤ soeMaxWorkCols) (hrows : q.eqnsEq ≤ soeMaxWorkRowsEq) :
    Meets ok (w.copyToWorkEq q) fun res => res = some (w.withEq q) := by
  rw [Work.copyToWorkEq, if_neg (not_lt.2 hrows)]
  by_cases hempty : w.workRows = 0
  · rw [if_pos hempty, if_neg (not_lt.2 hcols)]
    exact meets_pure rfl
  · rw [if_neg hempty]
    exact (meets_assert (R := fun _ => True) (hvars hempty) trivial).bind fun _ _ => meets_pure rfl

/-- One equality. -/
def Equalities.single (row : List Int) (b : Int) : Equalities where
  aeq := fun _ c => MInt32.ofInt (row.getD c 0)
  beq := fun _ => b
  eqnsEq := 1
  vars := row.length

end Path64.Soe

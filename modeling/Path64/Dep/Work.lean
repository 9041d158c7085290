import Path64.Access.Vector
import Path64.Lib.Wrap

/-!
# The work arrays of the dependence tests

`DEPV_COMPUTE` (`dep.cxx`) collects the constraints of a pair of references in two static arrays, one row for each
constraint and one column for each variable. The columns of the loops are fixed; those of the symbols are made when a
symbol is first seen, and then the rows already there have to get a zero in them.

* `Columns` : which columns the loops have; `Work` : the arrays and their counters, the arrays indexed by `Kind`;
* `findEnterSymbol`, `copyEqual`, `copyEqualCoeff`, `copyLe`, `copyBound`, `createDummyVars` : the functions under their
  names, with the value they return; a fault stands for an access outside an array. The coefficients are 32 and the
  constants 64 bits wide.
-/

namespace Path64.Dep.Arrays

open Access Lib

variable {α : Type}

/-- `MAX_ROWS`. -/
def maxRows : Nat := 99

/-- `MAX_COLS`. -/
def maxCols : Nat := 30

/-- The depths of the two references and the first loop that is not shared. `Compute` goes on only when the loops have
columns. -/
structure Columns where
  nd1 : Nat
  nd2 : Nat
  firstDv1 : Nat
  le_nd1 : firstDv1 ≤ nd1
  le_nd2 : firstDv1 ≤ nd2
  fits : nd1 + nd2 - firstDv1 ≤ maxCols

/-- `_first_dv2`. -/
def Columns.firstDv2 (cfg : Columns) : Nat := cfg.nd1

/-- `_first_symbol`. -/
def Columns.firstSymbol (cfg : Columns) : Nat := cfg.nd1 + cfg.nd2 - cfg.firstDv1

/-- The equalities `_work_eq` and the inequalities `_work_le`. -/
inductive Kind where
  | eq | le
  deriving DecidableEq, Repr

/-- The arrays `_work_*`, their constants `_work_*_const`, their counters `_work_*_rows`, `_work_cols` and the stack of
symbols, on which a null pointer is a dummy variable. -/
structure Work (α : Type) where
  work : Kind → Nat → Nat → Int
  const : Kind → Nat → Int
  rows : Kind → Nat
  cols : Nat
  symbols : List (Option α)

/-- `DEPV_COEFF`. -/
structure DepvCoeff where
  coeff : List Int
  firstVar : Nat
  deriving DecidableEq, Repr

/-- `_num_dim`. -/
def DepvCoeff.numDim (coeff : DepvCoeff) : Nat := coeff.coeff.length

inductive Fault where
  | index
  deriving DecidableEq, Repr

/-! ## The arrays -/

namespace Work

/-- The state a query starts in; the static arrays keep what they hold. -/
def restart (w : Work α) (cfg : Columns) : Work α :=
  { w with rows := fun _ => 0, cols := cfg.firstSymbol, symbols := [] }

/-- Writes the constant of the current row. -/
def setConst (w : Work α) (k : Kind) (x : Int) : Except Fault (Work α) := do
  require .index (w.rows k < maxRows)
  return { w with const := fun k' r => if k' = k ∧ r = w.rows k then wrap64 x else w.const k' r }

/-- Writes `f` to the columns from `lo` to `hi` of the current row. -/
def fill (w : Work α) (k : Kind) (lo hi : Nat) (f : Nat → Int) : Except Fault (Work α) := do
  require .index (hi ≤ lo ∨ w.rows k < maxRows ∧ hi ≤ maxCols)
  return { w with work := fun k' r j =>
    if k' = k ∧ r = w.rows k ∧ lo ≤ j ∧ j < hi then wrap32 (f j) else w.work k' r j }

/-- Adds to one column of the current row. -/
def addCoeff (w : Work α) (k : Kind) (col : Nat) (x : Int) : Except Fault (Work α) := do
  require .index (w.rows k < maxRows ∧ col < maxCols)
  let x := wrap32 (w.work k (w.rows k) col + x)
  return { w with work := fun k' r j => if k' = k ∧ r = w.rows k ∧ j = col then x else w.work k' r j }

/-- Writes 0 to a column, in every row up to the current one. -/
def zeroColumn (w : Work α) (col : Nat) (k : Kind) : Except Fault (Work α) := do
  require .index (w.rows k < maxRows ∧ col < maxCols)
  return { w with work := fun k' r j => if k' = k ∧ r ≤ w.rows k ∧ j = col then 0 else w.work k' r j }

/-- Goes on to the next row. -/
def nextRow (w : Work α) (k : Kind) : Work α :=
  { w with rows := fun k' => if k' = k then w.rows k + 1 else w.rows k' }

end Work

/-! ## Symbols -/

section Symbols

variable [DecidableEq α]

/-- `Find_Enter_Symbol`: the stack, and the place of the symbol on it; a null pointer is always a new one. -/
def findEnterSymbol (stack : List (Option α)) : Option α → List (Option α) × Nat
  | none => (stack ++ [none], stack.length)
  | some symbol =>
    match stack.findIdx? (· == some symbol) with
    | some i => (stack, i)
    | none => (stack ++ [some symbol], stack.length)

/-- The loop over the symbols of a vector, with the arrays in which a new column is zeroed; `false` when there are too
many columns. -/
def copySymbols (cfg : Columns) (zeroed : List Kind) (k : Kind) (sign : Int) : List (IntsymbNode α) → Work α →
    Except Fault (Bool × Work α)
  | [], w => .ok (true, w)
  | node :: nodes, w => do
    let s := findEnterSymbol w.symbols (some node.symbol)
    let w := { w with symbols := s.1 }
    if s.2 + cfg.firstSymbol ≥ w.cols then
      let w := { w with cols := s.2 + 1 + cfg.firstSymbol }
      if w.cols > maxCols then return (false, w)
      let w ← zeroed.foldlM (fun w k => w.zeroColumn (w.cols - 1) k) w
      let w ← w.addCoeff k (s.2 + cfg.firstSymbol) (sign * node.coeff)
      copySymbols cfg zeroed k sign nodes w
    else
      let w ← w.addCoeff k (s.2 + cfg.firstSymbol) (sign * node.coeff)
      copySymbols cfg zeroed k sign nodes w

/-! ## Constraints -/

/-- The loop variables of two references whose subscripts are equal. -/
def copyEqualLoops (cfg : Columns) (av1 av2 : AccessVector α) (w : Work α) : Except Fault (Work α) := do
  let w ← (if av1.lcoeff.isSome then w.fill .eq 0 cfg.nd1 fun j => -av1.loopCoeff j
    else w.fill .eq 0 cfg.nd1 fun _ => 0)
  if av2.lcoeff.isSome then
    let w ← w.fill .eq 0 cfg.firstDv1 fun j => w.work .eq (w.rows .eq) j + av2.loopCoeff j
    w.fill .eq cfg.nd1 cfg.firstSymbol fun j => av2.loopCoeff (j - cfg.nd1 + cfg.firstDv1)
  else w.fill .eq cfg.nd1 cfg.firstSymbol fun _ => 0

/-- `Copy_Equal_To_Work` of two references. -/
def copyEqual (cfg : Columns) (av1 av2 : AccessVector α) (w : Work α) : Except Fault (Bool × Work α) :=
  if av1.tooMessy ∨ av2.tooMessy then .ok (true, w)
  else if w.rows .eq ≥ maxRows then .ok (false, w)
  else do
    let w ← w.setConst .eq (av1.constOffset - av2.constOffset)
    let w ← copyEqualLoops cfg av1 av2 w
    let w ← w.fill .eq cfg.firstSymbol w.cols fun _ => 0
    let r ← copySymbols cfg [.eq, .le] .eq (-1) (av1.linSymb.getD []) w
    if r.1 then
      let r ← copySymbols cfg [.eq, .le] .eq 1 (av2.linSymb.getD []) r.2
      if r.1 then return (true, r.2.nextRow .eq) else return r
    else return r

/-- The loop variables of one reference, times `sign`. -/
def copyLoops (cfg : Columns) (k : Kind) (sign : Int) (av : AccessVector α) (isFirstRef : Bool) (w : Work α) :
    Except Fault (Work α) :=
  if av.lcoeff.isSome then
    if isFirstRef then w.fill k 0 cfg.nd1 fun j => sign * av.loopCoeff j
    else do
      let w ← w.fill k 0 cfg.firstDv1 fun j => sign * av.loopCoeff j
      w.fill k cfg.nd1 cfg.firstSymbol fun j => sign * av.loopCoeff (j - cfg.nd1 + cfg.firstDv1)
  else .ok w

/-- A row for a multiple of a vector, and the coefficients of the dummy variables. -/
def copyRow (cfg : Columns) (zeroed : List Kind) (k : Kind) (sign : Int) (av : AccessVector α) (coeff : DepvCoeff)
    (isFirstRef : Bool) (w : Work α) : Except Fault (Bool × Work α) := do
  let w ← w.setConst k (-sign * av.constOffset)
  let w ← w.fill k 0 w.cols fun _ => 0
  let w ← copyLoops cfg k sign av isFirstRef w
  let r ← copySymbols cfg zeroed k sign (av.linSymb.getD []) w
  if r.1 then
    let w ← r.2.fill k coeff.firstVar (coeff.firstVar + coeff.numDim) fun j => coeff.coeff.getD (j - coeff.firstVar) 0
    return (true, w.nextRow k)
  else return r

/-- `Copy_Equal_To_Work` of `av + coeff = 0`. -/
def copyEqualCoeff (cfg : Columns) (av : AccessVector α) (coeff : DepvCoeff) (isFirstRef : Bool) (w : Work α) :
    Except Fault (Bool × Work α) :=
  if av.tooMessy then .ok (true, w)
  else if w.rows .eq ≥ maxRows then .ok (false, w)
  else copyRow cfg [.eq, .le] .eq 1 av coeff isFirstRef w

/-- `Copy_Le_To_Work` of `av + coeff <= 0`, or of `-av + coeff <= 0`. Both loops that zero a new column are over
`_work_le`. -/
def copyLe (cfg : Columns) (av : AccessVector α) (coeff : DepvCoeff) (isFirstRef negateAv : Bool) (w : Work α) :
    Except Fault (Bool × Work α) :=
  if av.tooMessy then .ok (true, w)
  else if w.rows .le ≥ maxRows then .ok (false, w)
  else copyRow cfg [.le, .le] .le (if negateAv then -1 else 1) av coeff isFirstRef w

/-- The loop variables of a bound. -/
def copyBoundLoops (cfg : Columns) (varNum : Nat) (bound : AccessVector α) (isRef1 : Bool) (w : Work α) :
    Except Fault (Work α) :=
  if isRef1 then do
    let w ← (if bound.lcoeff.isSome then w.fill .le 0 (varNum + 1) fun i => bound.loopCoeff i
      else w.fill .le 0 (varNum + 1) fun _ => 0)
    w.fill .le (varNum + 1) w.cols fun _ => 0
  else if bound.lcoeff.isSome then do
    let w ← w.fill .le 0 cfg.firstDv1 fun i => bound.loopCoeff i
    let w ← w.fill .le cfg.firstDv1 cfg.firstDv2 fun _ => 0
    let w ← w.fill .le cfg.firstDv2 (varNum + 1) fun i => bound.loopCoeff (i - cfg.firstDv2 + cfg.firstDv1)
    w.fill .le (varNum + 1) w.cols fun _ => 0
  else w.fill .le 0 w.cols fun _ => 0

/-- `Copy_Bound_To_Work`; the row after the last is let through. -/
def copyBound (cfg : Columns) (varNum : Nat) (bound : AccessVector α) (isRef1 : Bool) (w : Work α) :
    Except Fault (Bool × Work α) :=
  if w.rows .le > maxRows then .ok (false, w)
  else do
    let w ← w.setConst .le bound.constOffset
    let w ← copyBoundLoops cfg varNum bound isRef1 w
    let r ← copySymbols cfg [.eq, .le] .le 1 (bound.linSymb.getD []) w
    if r.1 then return (true, r.2.nextRow .le) else return r

/-- Enters one dummy variable. -/
def enterDummy (w : Work α) : Work α :=
  { w with symbols := (findEnterSymbol w.symbols none).1, cols := w.cols + 1 }

/-- `Create_Dummy_Vars`: also the column of the first one, in the third place. -/
def createDummyVars (cfg : Columns) (number : Nat) (w : Work α) : Except Fault (Bool × Work α × Nat) :=
  let result := cfg.firstSymbol + (findEnterSymbol w.symbols none).2
  let w := (fun w => enterDummy w)^[number - 1] (enterDummy w)
  if w.cols > maxCols then .ok (false, w, result)
  else do
    let w ← (List.range number).foldlM (fun w j => do
      let w ← w.zeroColumn (w.cols - j) .eq
      w.zeroColumn (w.cols - j) .le) w
    return (true, w, result)

end Symbols

end Path64.Dep.Arrays

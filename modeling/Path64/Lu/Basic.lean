import Mathlib.Algebra.Field.Basic
import Mathlib.Algebra.BigOperators.Group.Finset.Basic
import Mathlib.LinearAlgebra.Matrix.Defs

/-!
# Matrices and their factored form

`be/lno/mat.h` and `be/lno/lu_mat.h`, for an element type with exact arithmetic (`FRAC` while `FRAC::Exception` is not
raised). An array is a function on the naturals; what it holds beyond its size is never read. The over-allocation of
`MAT` and the memory pools are left out.

* `Mat` : a matrix, with `swapRows`, `addCol`, `updateCol`, `mul`, `trans`, `lower`, `upper`;
* `LuMat` : the factored matrix `LU_MAT`, one array for both factors, the interchanges and the pivot flags;
* `lMul`, `uSolve`, `particularSolution`, `inv`, `unfactor` : what is computed from it;
* `cfactor`, `cfactorAndInsert`, `luMat` : factoring column by column.
-/

namespace Path64.Lu

variable {K : Type}

/-! ## Arrays -/

/-- Exchange two entries. -/
def swapEntries (f : Nat → K) (i j : Nat) : Nat → K := fun r => if r = i then f j else if r = j then f i else f r

/-- The loop `for (i = lo; i < hi; i++)`. -/
def forRange {σ : Type} (lo hi : Nat) (body : Nat → σ → σ) (s : σ) : σ :=
  (List.range' lo (hi - lo)).foldl (fun s i => body i s) s

/-! ## `MAT` -/

/-- A matrix of `rows` by `cols` entries. -/
structure Mat (K : Type) where
  rows : Nat
  cols : Nat
  entry : Nat → Nat → K

namespace Mat

/-- `D_Swap_Rows`. -/
def swapRows (m : Mat K) (r1 r2 : Nat) : Mat K :=
  { m with entry := fun r c => swapEntries (fun r => m.entry r c) r1 r2 r }

/-- `D_Update_Col`. -/
def updateCol (m : Mat K) (c : Nat) (f : Nat → K) : Mat K :=
  { m with entry := fun r c' => if c' = c then f r else m.entry r c' }

/-- `D_Add_Col`. -/
def addCol (m : Mat K) (f : Nat → K) : Mat K := updateCol { m with cols := m.cols + 1 } m.cols f

/-- `Trans`. -/
def trans (m : Mat K) : Mat K := ⟨m.cols, m.rows, fun r c => m.entry c r⟩

variable [Field K]

/-- `operator *`. -/
def mul (m a : Mat K) : Mat K :=
  ⟨m.rows, a.cols, fun i j => ∑ k ∈ Finset.range m.cols, m.entry i k * a.entry k j⟩

/-- `L`: ones on the diagonal, below it the entries of the matrix as far as it has columns. -/
def lower (m : Mat K) : Mat K :=
  ⟨m.rows, m.rows, fun i j => if i < j then 0 else if i = j then 1 else if j < m.cols then m.entry i j else 0⟩

/-- `U`: the entries on and above the diagonal. -/
def upper (m : Mat K) : Mat K := ⟨m.rows, m.cols, fun i j => if i ≤ j then m.entry i j else 0⟩

/-- The matrix as a linear algebra library has it. -/
def toMatrix (m : Mat K) : Matrix (Fin m.rows) (Fin m.cols) K := fun i j => m.entry i j

/-- The product with a column. -/
def mulVec (m : Mat K) (x : Nat → K) (r : Nat) : K := ∑ c ∈ Finset.range m.cols, m.entry r c * x c

end Mat

/-! ## `LU_MAT` -/

/-- The factors in one matrix, the row interchanges and which columns are pivots. -/
structure LuMat (K : Type) where
  lu : Mat K
  interch : Nat → Nat
  cpvt : Nat → Bool

namespace LuMat

/-- How many of the first `c` columns are pivots. -/
def pivots (M : LuMat K) (c : Nat) : Nat := (List.range c).countP M.cpvt

/-- The interchanges of `L_Mul`, first to last. -/
def interchange (M : LuMat K) (f : Nat → K) : Nat → K :=
  forRange 0 M.lu.rows (fun r f => if r ≠ M.interch r then swapEntries f (M.interch r) r else f) f

variable [Field K] [DecidableEq K]

/-- `L_Mul`: the interchanges, then the eliminations column by column. -/
def lMul (M : LuMat K) (f : Nat → K) : Nat → K :=
  forRange 0 M.lu.cols (fun c f =>
    forRange (c + 1) M.lu.rows (fun r f => Function.update f r (f r - f c * M.lu.entry r c)) f) (M.interchange f)

/-- The loop of `U_Solve` over the columns, last to first; `r` is the row of the next pivot. -/
def backSolve (M : LuMat K) (b : Nat → K) (free : Int) : Nat → Int → (Nat → K) → (Nat → K)
  | 0, _, out => out
  | c + 1, r, out =>
    if M.cpvt c then
      let t := forRange (c + 1) M.lu.cols (fun cc t => t - M.lu.entry r.toNat cc * out cc) (b r.toNat)
      backSolve M b free c (r - 1) (Function.update out c (t / M.lu.entry r.toNat c))
    else backSolve M b free c r (Function.update out c (if (c : Int) = free then 1 else 0))

/-- `U_Solve`: `none` is the null pointer; `out` is what the result array held before. -/
def uSolve (M : LuMat K) (b out : Nat → K) (free : Int) : Option (Nat → K) :=
  let zrow := M.pivots M.lu.cols
  if (List.range' zrow (M.lu.rows - zrow)).any (fun r => b r ≠ 0) then none
  else some (M.backSolve b free M.lu.cols ((zrow : Int) - 1) out)

/-- `Particular_Solution`. -/
def particularSolution (M : LuMat K) (b x : Nat → K) : Option (Nat → K) := M.uSolve (M.lMul b) x (-1)

/-- `Inv`; `none` is a failed assertion. -/
def inv (M : LuMat K) (rval : Mat K) (tmpr : Nat → K) : Option (Mat K) :=
  let n := M.lu.rows
  if M.lu.rows ≠ M.lu.cols then none
  else if (List.range n).any (fun c => !M.cpvt c) then none
  else ((List.range n).foldlM (fun (st : Mat K × (Nat → K)) r => do
      let tmpr ← M.uSolve (M.lMul fun rr => if r = rr then 1 else 0) st.2 (-1)
      some (st.1.updateCol r tmpr, tmpr)) (⟨n, n, rval.entry⟩, tmpr)).map Prod.fst

/-- The loop of `Unfactor` that takes the interchanges back, last to first. -/
def uninterchange (M : LuMat K) (l : Mat K) : Nat → Mat K
  | 0 => l
  | i + 1 => M.uninterchange (if M.interch i ≠ i then l.swapRows i (M.interch i) else l) i

/-- `Unfactor`. -/
def unfactor (M : LuMat K) : Mat K := (M.uninterchange M.lu.lower M.lu.rows).mul M.lu.upper

/-- `Cfactor`: the column after elimination and below its pivot divided by it, and the row the pivot came from. -/
def cfactor (M : LuMat K) (col : Nat → K) (rpvt : Nat) : (Nat → K) × Nat :=
  let rows := M.lu.rows
  let col := M.lMul col
  if rpvt = rows then (col, rows)
  else
    let nrpvt := ((List.range' rpvt (rows - rpvt)).find? fun r => col r ≠ 0).getD rpvt
    let col := if nrpvt ≠ rpvt then swapEntries col rpvt nrpvt else col
    let col :=
      if col rpvt ≠ 0 then forRange (rpvt + 1) rows (fun r col => Function.update col r (col r / col rpvt)) col
      else col
    (col, nrpvt)

/-- The end of `Cfactor_And_Insert`: unless the pivot's row and the new column have one number, the multipliers go below
the diagonal of the column with the row's number, and the new column gets zeros there. -/
def placeColumn (lu : Mat K) (curpivrow : Nat) (w : Nat → K) : Mat K :=
  if curpivrow = lu.cols then lu.addCol w
  else
    let below := fun i j => if j = curpivrow ∧ curpivrow < i ∧ i < lu.rows then w i else lu.entry i j
    Mat.addCol { lu with entry := below } fun i => if curpivrow < i ∧ i < lu.rows then 0 else w i

/-- `Cfactor_And_Insert`: the matrix with the column factored in, and whether it was. -/
def cfactorAndInsert (M : LuMat K) (w : Nat → K) (insertOnlyNonzeroPiv : Bool) : LuMat K × Bool :=
  let c := M.lu.cols
  let r := M.lu.rows
  let curpivrow := M.pivots c
  if curpivrow = r ∧ insertOnlyNonzeroPiv then (M, false)
  else
    let (w, rrr) := M.cfactor w curpivrow
    if insertOnlyNonzeroPiv ∧ w curpivrow = 0 then (M, false)
    else
      let M :=
        if curpivrow < r then
          ⟨if rrr ≠ curpivrow then M.lu.swapRows rrr curpivrow else M.lu, Function.update M.interch curpivrow rrr,
            Function.update M.cpvt c (w curpivrow ≠ 0)⟩
        else { M with cpvt := Function.update M.cpvt c false }
      ({ M with lu := placeColumn M.lu curpivrow w }, true)

/-- The constructor of `LU_MAT` from a matrix. -/
def luMat (m : Mat K) : LuMat K :=
  forRange 0 m.cols (fun c M => (M.cfactorAndInsert (fun r => m.entry r c) false).1)
    ⟨⟨m.rows, 0, fun _ _ => 0⟩, fun r => r, fun _ => false⟩

end LuMat
end Path64.Lu

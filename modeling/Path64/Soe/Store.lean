import Path64.Lib.Selection

/-!
# The row store of `SYSTEM_OF_EQUATIONS`

A system keeps its inequalities `Ale x <= ble` and its equalities `Aeq x = beq` in two blocks (`soe.h`): a matrix, a
right-hand side array, the number of rows in use and the number of rows that have storage.

* `Block`, `SystemOfEquations` : the store; `Block.rows` : the rows in use;
* `addLe`, `addEq`, `addSoe`, `removeLastLe`, `removeLastEq`, `sortLe`, `removeLeNumber`, `removeEqNumber` : the
  operations, `none` where the source would touch memory outside a block;
* `addRow_rows`, `removeLast_rows`, `shiftDown_rows`, `sortBlock_rows` : what each does to the rows in use.
-/

namespace Path64.Soe

open Lib

/-- `ROW_INCR`. -/
def rowIncr : Nat := 32

/-- A row in use: its coefficients, one for each variable, and its right-hand side. -/
structure Row where
  coeffs : List Int
  rhs : Int
  deriving DecidableEq, Repr

/-- One half of a system. `eqns` is a signed counter in the source; only the first `stored` rows have storage. -/
structure Block where
  mat : Nat → Nat → Int
  rhs : Nat → Int
  eqns : Int
  stored : Nat

structure SystemOfEquations where
  le : Block
  eq : Block
  vars : Nat

/-- Row `i` as a caller sees it. -/
def Block.row (vars : Nat) (b : Block) (i : Nat) : Row := ⟨(List.range vars).map (b.mat i), b.rhs i⟩

/-- The rows with indices below the counter. -/
def Block.rows (vars : Nat) (b : Block) : List Row := (List.range b.eqns.toNat).map (b.row vars)

def SystemOfEquations.leRows (s : SystemOfEquations) : List Row := s.le.rows s.vars
def SystemOfEquations.eqRows (s : SystemOfEquations) : List Row := s.eq.rows s.vars

/-- The counter is within the storage. -/
structure Block.Wf (b : Block) : Prop where
  nonneg : 0 ≤ b.eqns
  le_stored : b.eqns ≤ b.stored

structure SystemOfEquations.Wf (s : SystemOfEquations) : Prop where
  le : s.le.Wf
  eq : s.eq.Wf

/-! ## The operations on one block -/

-- `fresh` is what newly allocated memory happens to hold.
variable (fresh : Nat → Int)

/-- Makes space: the matrix keeps its data, the right-hand sides in use are copied to a new array. -/
def Block.grow (b : Block) : Block :=
  if b.eqns + 1 > b.stored then
    { b with
      stored := b.stored + rowIncr
      rhs := fun i => if (i : Int) < b.eqns then b.rhs i else fresh i }
  else b

/-- Writes `row` and `b` behind the last row and counts it. -/
def Block.addRow (vars : Nat) (blk : Block) (row : Nat → Int) (b : Int) : Option Block :=
  let blk := blk.grow fresh
  if 0 ≤ blk.eqns ∧ blk.eqns < blk.stored then
    let n := blk.eqns.toNat
    some { blk with
      mat := fun r c => if r = n ∧ c < vars then row c else blk.mat r c
      rhs := fun r => if r = n then b else blk.rhs r
      eqns := blk.eqns + 1 }
  else none

def Block.removeLast (b : Block) (howMany : Nat) : Block := { b with eqns := b.eqns - howMany }

/-- Copies row `i` over row `i - 1`. -/
def Block.copyDown (vars : Nat) (b : Block) (i : Nat) : Block :=
  { b with
    mat := fun r c => if r = i - 1 ∧ c < vars then b.mat i c else b.mat r c
    rhs := fun r => if r = i - 1 then b.rhs i else b.rhs r }

/-- The loop of the two `Remove_*_Number`: the rows after `k` move down, the counter is not touched. -/
def Block.shiftDown (vars : Nat) (b : Block) (k : Nat) : Block :=
  (List.range' (k + 1) (b.eqns.toNat - (k + 1))).foldl (Block.copyDown vars) b

/-- Swaps rows `i` and `mx`. -/
def Block.swapRows (vars : Nat) (b : Block) (i mx : Nat) : Block :=
  { b with
    mat := fun r c => if c < vars then b.mat (Equiv.swap i mx r) c else b.mat r c
    rhs := fun r => b.rhs (Equiv.swap i mx r) }

/-- The inner loop of `Sort_Le`: the smallest (largest) criterion among `mx` and `js`. -/
def selectRow (criteria : Nat → Int) (descending : Bool) (mx : Nat) : List Nat → Nat
  | [] => mx
  | j :: js =>
    let mx :=
      if !descending then
        if criteria j < criteria mx then j else mx
      else
        if criteria j > criteria mx then j else mx
    selectRow criteria descending mx js

/-- The body of the outer loop of `Sort_Le`. -/
def sortPass (vars : Nat) (descending : Bool) (rows : Nat) (s : Block × (Nat → Int)) (i : Nat) :
    Block × (Nat → Int) :=
  let mx := selectRow s.2 descending i (List.range' (i + 1) (rows - (i + 1)))
  if mx ≠ i then (s.1.swapRows vars i mx, s.2 ∘ Equiv.swap i mx) else s

/-- `Sort_Le` on its block, with the criteria it sorts along. -/
def sortBlock (vars : Nat) (descending : Bool) (b : Block) (criteria : Nat → Int) : Block × (Nat → Int) :=
  (List.range (b.eqns.toNat - 1)).foldl (sortPass vars descending b.eqns.toNat) (b, criteria)

/-! ## The exported operations -/

/-- The constructor: storage for `eqnsLe` and `eqnsEq` rows, none in use. -/
def SystemOfEquations.new (eqnsLe eqnsEq vars : Nat) (cells : Nat → Nat → Int) : SystemOfEquations :=
  ⟨⟨cells, fresh, 0, eqnsLe⟩, ⟨cells, fresh, 0, eqnsEq⟩, vars⟩

/-- `Add_Le`. -/
def SystemOfEquations.addLe (s : SystemOfEquations) (row : Nat → Int) (b : Int) : Option SystemOfEquations :=
  (s.le.addRow fresh s.vars row b).map fun le => { s with le }

/-- `Add_Eq`. -/
def SystemOfEquations.addEq (s : SystemOfEquations) (row : Nat → Int) (b : Int) : Option SystemOfEquations :=
  (s.eq.addRow fresh s.vars row b).map fun eq => { s with eq }

/-- `Add_Soe`: fails its assertion when the numbers of variables differ. -/
def SystemOfEquations.addSoe (s soe : SystemOfEquations) : Option SystemOfEquations :=
  if s.vars = soe.vars then do
    let s ← (List.range soe.le.eqns.toNat).foldlM (fun s r => s.addLe fresh (soe.le.mat r) (soe.le.rhs r)) s
    (List.range soe.eq.eqns.toNat).foldlM (fun s r => s.addEq fresh (soe.eq.mat r) (soe.eq.rhs r)) s
  else none

/-- `Remove_Last_Le`. -/
def SystemOfEquations.removeLastLe (s : SystemOfEquations) (howMany : Nat) : SystemOfEquations := { s with le := s.le.removeLast howMany }

/-- `Remove_Last_Eq`. -/
def SystemOfEquations.removeLastEq (s : SystemOfEquations) (howMany : Nat) : SystemOfEquations := { s with eq := s.eq.removeLast howMany }

/-- `Sort_Le`. -/
def SystemOfEquations.sortLe (s : SystemOfEquations) (sortCriteria : Nat → Int) (descending : Bool) : SystemOfEquations :=
  { s with le := (sortBlock s.vars descending s.le sortCriteria).1 }

/-- `Remove_Eq_Number`. -/
def SystemOfEquations.removeEqNumber (s : SystemOfEquations) (k : Nat) : SystemOfEquations :=
  { s with eq := (s.eq.shiftDown s.vars k).removeLast 1 }

/-- `Remove_Le_Number`: the inequality rows move down, and `_eqns_eq` is decremented. -/
def SystemOfEquations.removeLeNumber (s : SystemOfEquations) (k : Nat) : SystemOfEquations :=
  { s with le := s.le.shiftDown s.vars k, eq := s.eq.removeLast 1 }

/-! ## Adding and dropping rows at the end -/

theorem rows_length (vars : Nat) (b : Block) : (b.rows vars).length = b.eqns.toNat := by
  rw [Block.rows, List.length_map, List.length_range]

theorem grow_eqns (b : Block) : (b.grow fresh).eqns = b.eqns := by
  unfold Block.grow
  split_ifs <;> rfl

theorem grow_row (vars : Nat) (b : Block) {i : Nat} (hi : (i : Int) < b.eqns) :
    (b.grow fresh).row vars i = b.row vars i := by
  unfold Block.grow
  split_ifs
  · unfold Block.row
    simp only [if_pos hi]
  · rfl

theorem grow_stored {b : Block} (h : b.Wf) : b.eqns < (b.grow fresh).stored := by
  have hle := h.le_stored
  unfold Block.grow rowIncr
  split_ifs
  · simp only [Nat.cast_add]
    omega
  · omega

/-- Adding succeeds, and appends one row. -/
theorem addRow_rows (vars : Nat) {blk : Block} (h : blk.Wf) (row : Nat → Int) (b : Int) :
    ∃ blk', blk.addRow fresh vars row b = some blk' ∧ blk'.Wf ∧ blk'.eqns = blk.eqns + 1 ∧
      blk'.rows vars = blk.rows vars ++ [⟨(List.range vars).map row, b⟩] := by
  have hnn := h.nonneg
  have hst := grow_stored fresh h
  have hn := grow_eqns fresh blk
  have htest : 0 ≤ (blk.grow fresh).eqns ∧ (blk.grow fresh).eqns < (blk.grow fresh).stored := by
    rw [hn]
    exact ⟨hnn, hst⟩
  refine ⟨_, if_pos htest, ⟨?_, ?_⟩, ?_, ?_⟩
  · simp only [hn]
    omega
  · simp only [hn]
    omega
  · simp only [hn]
  · have hsucc : (blk.eqns + 1).toNat = blk.eqns.toNat + 1 := by omega
    unfold Block.rows
    simp only [hn]
    rw [hsucc, List.range_succ, List.map_append, List.map_singleton]
    congr 1
    · refine List.map_congr_left fun i hi => ?_
      have hi := List.mem_range.mp hi
      rw [← grow_row fresh vars blk (by omega : (i : Int) < blk.eqns)]
      unfold Block.row
      simp only [show ¬ i = blk.eqns.toNat by omega, false_and, if_false]
    · unfold Block.row
      simp only [true_and, if_true]
      congr 2
      exact List.map_congr_left fun c hc => if_pos (List.mem_range.mp hc)

theorem removeLast_wf {b : Block} (h : b.Wf) {howMany : Nat} (hk : howMany ≤ b.eqns.toNat) :
    (b.removeLast howMany).Wf := by
  have hnn := h.nonneg
  have hst := h.le_stored
  constructor <;> simp only [Block.removeLast] <;> omega

theorem removeLast_rows (vars : Nat) {b : Block} (h : b.Wf) {howMany : Nat} (hk : howMany ≤ b.eqns.toNat) :
    (b.removeLast howMany).rows vars = (b.rows vars).take (b.eqns.toNat - howMany) := by
  have hnn := h.nonneg
  have hn : (b.eqns - howMany).toNat = b.eqns.toNat - howMany := by omega
  unfold Block.rows Block.removeLast
  simp only [hn, ← List.map_take, List.take_range, Nat.sub_le, min_eq_left]
  rfl

/-! ## Deleting a row -/

theorem copyDown_row (vars : Nat) (b : Block) (i r : Nat) :
    (b.copyDown vars i).row vars r = if r = i - 1 then b.row vars i else b.row vars r := by
  unfold Block.row Block.copyDown
  by_cases hr : r = i - 1
  · simp only [hr, true_and, if_true]
    congr 1
    exact List.map_congr_left fun c hc => if_pos (List.mem_range.mp hc)
  · simp only [hr, false_and, if_false]

/-- After the rows `k+1 … k+m` moved down, row `r` is the old row `r + 1` for `r` in `[k, k+m)`. -/
theorem foldl_copyDown_row (vars : Nat) (b : Block) (k m r : Nat) :
    ((List.range' (k + 1) m).foldl (Block.copyDown vars) b).row vars r =
      if k ≤ r ∧ r < k + m then b.row vars (r + 1) else b.row vars r := by
  induction m generalizing r with
  | zero =>
    rw [if_neg (by omega)]
    rfl
  | succ m ih =>
    rw [List.range'_1_concat, List.foldl_append, List.foldl_cons, List.foldl_nil, copyDown_row, ih, ih]
    by_cases hr : r = k + m
    · rw [if_pos (by omega), if_neg (by omega), if_pos (by omega), hr]
      congr 1
      omega
    · rw [if_neg (by omega)]
      by_cases hk : k ≤ r ∧ r < k + m
      · rw [if_pos hk, if_pos (by omega)]
      · rw [if_neg hk, if_neg (by omega)]

theorem foldl_copyDown_frame (vars : Nat) (b : Block) (is : List Nat) :
    (is.foldl (Block.copyDown vars) b).eqns = b.eqns ∧ (is.foldl (Block.copyDown vars) b).stored = b.stored := by
  induction is generalizing b with
  | nil => exact ⟨rfl, rfl⟩
  | cons i is ih => exact ih (b.copyDown vars i)

theorem shiftDown_eqns (vars : Nat) (b : Block) (k : Nat) : (b.shiftDown vars k).eqns = b.eqns :=
  (foldl_copyDown_frame vars b _).1

theorem shiftDown_wf (vars : Nat) {b : Block} (h : b.Wf) (k : Nat) : (b.shiftDown vars k).Wf := by
  obtain ⟨hn, hs⟩ := foldl_copyDown_frame vars b (List.range' (k + 1) (b.eqns.toNat - (k + 1)))
  constructor <;> unfold Block.shiftDown
  · rw [hn]
    exact h.nonneg
  · rw [hn, hs]
    exact h.le_stored

/-- Shifting down and dropping the last row deletes row `k`. -/
theorem shiftDown_rows (vars : Nat) {b : Block} (h : b.Wf) {k : Nat} (hk : k < b.eqns.toNat) :
    ((b.shiftDown vars k).removeLast 1).rows vars = (b.rows vars).eraseIdx k := by
  have hnn := h.nonneg
  have hlen : ((b.rows vars).eraseIdx k).length = b.eqns.toNat - 1 := by
    rw [List.length_eraseIdx_of_lt (by rwa [rows_length]), rows_length]
  apply List.ext_getElem
  · rw [rows_length, hlen]
    simp only [Block.removeLast, shiftDown_eqns]
    omega
  · intro r h1 h2
    rw [rows_length] at h1
    simp only [Block.removeLast, shiftDown_eqns] at h1
    rw [List.getElem_eraseIdx]
    have hrow : ((b.shiftDown vars k).removeLast 1).row vars r =
        if k ≤ r then b.row vars (r + 1) else b.row vars r := by
      have hfold := foldl_copyDown_row vars b k (b.eqns.toNat - (k + 1)) r
      by_cases hr : k ≤ r
      · rw [if_pos hr]
        rw [if_pos (by omega)] at hfold
        exact hfold
      · rw [if_neg hr]
        rw [if_neg (by omega)] at hfold
        exact hfold
    simp only [Block.rows, List.getElem_map, List.getElem_range]
    rw [hrow]
    by_cases hr : r < k
    · rw [if_neg (by omega), dif_pos hr]
    · rw [if_pos (by omega), dif_neg hr]

/-! ## Sorting -/

/-- The key the selection compares. -/
def sortKey (descending : Bool) (c : Int) : Int := if !descending then c else -c

/-- Criterion and row side by side, as the sort moves them. -/
def sortItem (vars : Nat) (s : Block × (Nat → Int)) (i : Nat) : Int × Row := (s.2 i, s.1.row vars i)

theorem selectRow_eq (vars : Nat) (descending : Bool) (s : Block × (Nat → Int)) (mx : Nat) (js : List Nat) :
    selectRow s.2 descending mx js =
      Selection.select (fun item => sortKey descending item.1) (sortItem vars s) mx js := by
  induction js generalizing mx with
  | nil => rfl
  | cons j js ih =>
    rw [selectRow, Selection.select, ← ih]
    cases descending <;> simp [sortKey, sortItem]

theorem swapRows_row (vars : Nat) (b : Block) (i mx r : Nat) :
    (b.swapRows vars i mx).row vars r = b.row vars (Equiv.swap i mx r) := by
  unfold Block.row Block.swapRows
  congr 1
  exact List.map_congr_left fun c hc => if_pos (List.mem_range.mp hc)

theorem sortPass_item (vars : Nat) (descending : Bool) (rows : Nat) (s : Block × (Nat → Int)) (i : Nat) :
    sortItem vars (sortPass vars descending rows s i) =
      Selection.pass (fun item => sortKey descending item.1) rows (sortItem vars s) i := by
  unfold sortPass Selection.pass
  rw [selectRow_eq vars]
  simp only
  split_ifs
  · funext r
    simp only [sortItem, Function.comp_apply, swapRows_row]
  · rfl

theorem sortPass_frame (vars : Nat) (descending : Bool) (rows : Nat) (s : Block × (Nat → Int)) (i : Nat) :
    (sortPass vars descending rows s i).1.eqns = s.1.eqns ∧
      (sortPass vars descending rows s i).1.stored = s.1.stored := by
  unfold sortPass
  simp only
  split_ifs <;> exact ⟨rfl, rfl⟩

theorem foldl_sortPass (vars : Nat) (descending : Bool) (rows : Nat) (s : Block × (Nat → Int)) (is : List Nat) :
    sortItem vars (is.foldl (sortPass vars descending rows) s) =
        is.foldl (Selection.pass (fun item => sortKey descending item.1) rows) (sortItem vars s) ∧
      (is.foldl (sortPass vars descending rows) s).1.eqns = s.1.eqns ∧
      (is.foldl (sortPass vars descending rows) s).1.stored = s.1.stored := by
  induction is generalizing s with
  | nil => exact ⟨rfl, rfl, rfl⟩
  | cons i is ih =>
    obtain ⟨h1, h2, h3⟩ := ih (sortPass vars descending rows s i)
    obtain ⟨hn, hs⟩ := sortPass_frame vars descending rows s i
    simp only [List.foldl_cons]
    exact ⟨by rw [h1, sortPass_item], h2.trans hn, h3.trans hs⟩

theorem sortBlock_wf (vars : Nat) (descending : Bool) {b : Block} (h : b.Wf) (criteria : Nat → Int) :
    (sortBlock vars descending b criteria).1.Wf := by
  obtain ⟨-, hn, hs⟩ := foldl_sortPass vars descending b.eqns.toNat (b, criteria) (List.range (b.eqns.toNat - 1))
  constructor <;> unfold sortBlock
  · rw [hn]
    exact h.nonneg
  · rw [hn, hs]
    exact h.le_stored

/-- `rows` and `criteria` reordered together until the criteria are in order. -/
def SortedAlong (descending : Bool) (criteria : List Int) (rows rows' : List Row) : Prop :=
  ∃ criteria' : List Int, criteria'.length = rows'.length ∧
    (criteria'.zip rows').Perm (criteria.zip rows) ∧
    criteria'.Pairwise fun a b => if descending then b ≤ a else a ≤ b

theorem sortBlock_rows (vars : Nat) (descending : Bool) (b : Block) (criteria : Nat → Int) :
    SortedAlong descending ((List.range b.eqns.toNat).map criteria) (b.rows vars)
      ((sortBlock vars descending b criteria).1.rows vars) := by
  obtain ⟨hitem, hn, -⟩ :=
    foldl_sortPass vars descending b.eqns.toNat (b, criteria) (List.range (b.eqns.toNat - 1))
  have hperm := Selection.sort_perm (fun item : Int × Row => sortKey descending item.1) b.eqns.toNat
    (sortItem vars (b, criteria))
  have hsorted := Selection.sort_sorted (fun item : Int × Row => sortKey descending item.1) b.eqns.toNat
    (sortItem vars (b, criteria))
  unfold Selection.sort at hperm hsorted
  rw [← hitem] at hperm hsorted
  refine ⟨(List.range b.eqns.toNat).map (sortBlock vars descending b criteria).2, ?_, ?_, ?_⟩
  · rw [rows_length, List.length_map, List.length_range]
    exact congrArg Int.toNat hn.symm
  · unfold Block.rows
    rw [show (sortBlock vars descending b criteria).1.eqns = b.eqns from hn, List.zip_map', List.zip_map']
    exact hperm
  · rw [List.pairwise_map] at hsorted ⊢
    refine hsorted.imp fun {a c} hac => ?_
    cases descending <;> simp [sortKey, sortItem] at hac ⊢ <;> exact hac

end Path64.Soe

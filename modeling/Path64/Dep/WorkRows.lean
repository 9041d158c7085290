import Path64.Dep.Work

/-!
# The rows of the work arrays

* `Constraint`, `Constraint.at` : a constraint over the loops, symbols and dummy variables, and what it has in a column;
* `Rows`, `Means` : every row written so far is that of its constraint;
* `Clears` : what a loop over symbols needs of the columns it makes; `checks_copySymbols` : then it keeps the rows;
* `checks_copyRow` : one more row, for a multiple of an access vector.
-/

namespace Path64.Dep.Arrays

open Access Lib

variable {α : Type}

/-! ## Constraints -/

theorem Columns.firstDv1_le_nd1_le (cfg : Columns) : cfg.firstDv1 ≤ cfg.nd1 ∧ cfg.nd1 ≤ cfg.firstSymbol := by
  have := cfg.le_nd1
  have := cfg.le_nd2
  unfold Columns.firstSymbol
  omega

/-- The coefficients of the loops of both references, of the symbols and, by column, of the dummy variables. -/
@[ext]
structure Constraint (α : Type) where
  loop1 : Nat → Int
  loop2 : Nat → Int
  symb : α → Int
  dummy : Nat → Int
  const : Int

/-- The coefficient of the variable of column `j`; the outer loops are shared by the references. -/
def Constraint.at (c : Constraint α) (cfg : Columns) (symbols : List (Option α)) (j : Nat) : Int :=
  if j < cfg.firstDv1 then c.loop1 j + c.loop2 j
  else if j < cfg.nd1 then c.loop1 j
  else if j < cfg.firstSymbol then c.loop2 (j - cfg.nd1 + cfg.firstDv1)
  else
    match symbols[j - cfg.firstSymbol]? with
    | some (some symbol) => c.symb symbol
    | _ => c.dummy j

section Forms

variable [DecidableEq α]

/-- The coefficient of a symbol in a list of terms. -/
def symbCoeff (nodes : List (IntsymbNode α)) (symbol : α) : Int :=
  (nodes.map fun node => if node.symbol = symbol then node.coeff else 0).sum

/-- `av1 = av2`, on one side. -/
def equalForm (av1 av2 : AccessVector α) : Constraint α where
  loop1 j := -av1.loopCoeff j
  loop2 j := av2.loopCoeff j
  symb symbol := symbCoeff (av2.linSymb.getD []) symbol - symbCoeff (av1.linSymb.getD []) symbol
  dummy _ := 0
  const := av1.constOffset - av2.constOffset

/-- `sign * av + coeff` for one reference. -/
def coeffForm (sign : Int) (av : AccessVector α) (coeff : DepvCoeff) (isFirstRef : Bool) : Constraint α where
  loop1 j := if isFirstRef then sign * av.loopCoeff j else 0
  loop2 j := if isFirstRef then 0 else sign * av.loopCoeff j
  symb symbol := sign * symbCoeff (av.linSymb.getD []) symbol
  dummy j := if coeff.firstVar ≤ j ∧ j < coeff.firstVar + coeff.numDim then coeff.coeff.getD (j - coeff.firstVar) 0 else 0
  const := -sign * av.constOffset

/-- A bound of a loop of one reference. -/
def boundForm (bound : AccessVector α) (isRef1 : Bool) : Constraint α where
  loop1 j := if isRef1 then bound.loopCoeff j else 0
  loop2 j := if isRef1 then 0 else bound.loopCoeff j
  symb symbol := symbCoeff (bound.linSymb.getD []) symbol
  dummy _ := 0
  const := bound.constOffset

/-- A constraint with a multiple of a symbol added. -/
def Constraint.addSymbol (c : Constraint α) (x : Int) (symbol : α) : Constraint α :=
  { c with symb := fun s => c.symb s + if symbol = s then x else 0 }

/-- The stack after some symbols were looked up. -/
def enterSymbols (symbols : List (Option α)) (nodes : List (IntsymbNode α)) : List (Option α) :=
  nodes.foldl (fun stack node => (findEnterSymbol stack (some node.symbol)).1) symbols

end Forms

/-! ## Rows -/

/-- A row is that of a constraint, in 32 bits; the constraint mentions only symbols that have a column. -/
structure RowIs (cfg : Columns) (symbols : List (Option α)) (row : Nat → Int) (c : Constraint α) : Prop where
  coeff : ∀ j < cfg.firstSymbol + symbols.length, row j = wrap32 (c.at cfg symbols j)
  known : ∀ symbol, some symbol ∉ symbols → c.symb symbol = 0
  dummy : ∀ j, cfg.firstSymbol + symbols.length ≤ j → c.dummy j = 0

/-- The columns follow the stack, and the rows written so far are those of `forms`. -/
structure Rows (cfg : Columns) (forms : Kind → List (Constraint α)) (w : Work α) : Prop where
  cols : w.cols = cfg.firstSymbol + w.symbols.length
  fits : w.cols ≤ maxCols
  unique : ∀ (i j : Nat) (symbol : α),
    w.symbols[i]? = some (some symbol) → w.symbols[j]? = some (some symbol) → i = j
  row : ∀ (k : Kind) (r : Nat) (c : Constraint α),
    (forms k)[r]? = some c → RowIs cfg w.symbols (w.work k r) c ∧ w.const k r = wrap64 c.const

/-- One more constraint of a kind. -/
def snoc (forms : Kind → List (Constraint α)) (k : Kind) (c : Constraint α) (k' : Kind) : List (Constraint α) :=
  if k' = k then forms k ++ [c] else forms k'

/-- The arrays with the current row of `k` written. -/
def Work.withRow (w : Work α) (k : Kind) (row : Nat → Int) (x : Int) : Work α :=
  { w with
    work := fun k' r j => if k' = k ∧ r = w.rows k then row j else w.work k' r j
    const := fun k' r => if k' = k ∧ r = w.rows k then x else w.const k' r }

section Rows

variable {cfg : Columns} {forms : Kind → List (Constraint α)} {w : Work α} {k : Kind} {c : Constraint α}
  {row row' : Nat → Int} {x x' : Int}

theorem withRow_work_self : (w.withRow k row x).work k (w.rows k) = row := by
  funext j
  exact if_pos ⟨rfl, rfl⟩

theorem withRow_const_self : (w.withRow k row x).const k (w.rows k) = x := if_pos ⟨rfl, rfl⟩

theorem withRow_work {k' : Kind} {r : Nat} (h : ¬(k' = k ∧ r = w.rows k)) :
    (w.withRow k row x).work k' r = w.work k' r := by
  funext j
  exact if_neg h

theorem withRow_const {k' : Kind} {r : Nat} (h : ¬(k' = k ∧ r = w.rows k)) :
    (w.withRow k row x).const k' r = w.const k' r := if_neg h

theorem snoc_getElem? (hlen : (forms k).length = w.rows k) {k' : Kind} {r : Nat} {c' : Constraint α} :
    (snoc forms k c k')[r]? = some c' ↔ (k' = k ∧ r = w.rows k ∧ c = c') ∨
      (¬(k' = k ∧ r = w.rows k) ∧ (forms k')[r]? = some c') := by
  unfold snoc
  split_ifs with hk
  · subst hk
    rw [← hlen]
    rcases Nat.lt_trichotomy r (forms k').length with hlt | rfl | hgt
    · rw [List.getElem?_append_left hlt]
      exact ⟨fun h => Or.inr ⟨fun h => by omega, h⟩, fun h => h.elim (fun h => by omega) fun h => h.2⟩
    · simp
    · rw [List.getElem?_eq_none (by simp; omega), List.getElem?_eq_none (by omega)]
      exact ⟨fun h => (nomatch h), fun h => h.elim (fun h => by omega) fun h => (nomatch h.2)⟩
  · simp [hk]

theorem Rows.write (hrows : Rows cfg forms w) (hlen : (forms k).length = w.rows k) (hrow : RowIs cfg w.symbols row c) :
    Rows cfg (snoc forms k c) (w.withRow k row (wrap64 c.const)) where
  cols := hrows.cols
  fits := hrows.fits
  unique := hrows.unique
  row := by
    intro k' r c' h
    rcases (snoc_getElem? hlen).mp h with ⟨rfl, rfl, rfl⟩ | ⟨hne, h⟩
    · rw [withRow_work_self, withRow_const_self]
      exact ⟨hrow, rfl⟩
    · rw [withRow_work hne, withRow_const hne]
      exact hrows.row k' r c' h

theorem Rows.init (hrows : Rows cfg (snoc forms k c) w) (hlen : (forms k).length = w.rows k) : Rows cfg forms w where
  cols := hrows.cols
  fits := hrows.fits
  unique := hrows.unique
  row := by
    intro k' r c' h
    refine hrows.row k' r c' ((snoc_getElem? hlen).mpr (Or.inr ⟨?_, h⟩))
    rintro ⟨rfl, rfl⟩
    rw [← hlen, List.getElem?_eq_none (Nat.le_refl _)] at h
    exact nomatch h

theorem Rows.current (hrows : Rows cfg (snoc forms k c) w) (hlen : (forms k).length = w.rows k) :
    RowIs cfg w.symbols (w.work k (w.rows k)) c ∧ w.const k (w.rows k) = wrap64 c.const :=
  hrows.row k (w.rows k) c ((snoc_getElem? hlen).mpr (Or.inl ⟨rfl, rfl, rfl⟩))

end Rows

/-! ## The operations on the arrays -/

theorem wrap32_add_left (x y : Int) : wrap32 (wrap32 x + y) = wrap32 (x + y) := Int.bmod_add_bmod

section Arrays

variable {w : Work α} {k : Kind} {row : Nat → Int} {x : Int}

/-- Some columns of some arrays were zeroed, in every row up to the current one. -/
structure Zeroed (P : Kind → Nat → Prop) (w w' : Work α) : Prop where
  const : w'.const = w.const
  rows : w'.rows = w.rows
  cols : w'.cols = w.cols
  symbols : w'.symbols = w.symbols
  zero : ∀ k r j, P k j → r ≤ w.rows k → w'.work k r j = 0
  rest : ∀ k r j, ¬P k j → w'.work k r j = w.work k r j

theorem Zeroed.refl {P : Kind → Nat → Prop} (hP : ∀ k j, ¬P k j) : Zeroed P w w :=
  ⟨rfl, rfl, rfl, rfl, fun k _ j h => absurd h (hP k j), fun _ _ _ _ => rfl⟩

theorem Zeroed.trans {P Q R : Kind → Nat → Prop} {w' w'' : Work α} (h : Zeroed P w w') (h' : Zeroed Q w' w'')
    (hR : ∀ k j, R k j ↔ P k j ∨ Q k j) : Zeroed R w w'' where
  const := h'.const.trans h.const
  rows := h'.rows.trans h.rows
  cols := h'.cols.trans h.cols
  symbols := h'.symbols.trans h.symbols
  zero := by
    intro k r j hR' hr
    by_cases hQ : Q k j
    · exact h'.zero k r j hQ (h.rows ▸ hr)
    · rw [h'.rest k r j hQ]
      exact h.zero k r j (((hR k j).mp hR').resolve_right hQ) hr
  rest := by
    intro k r j hR'
    rw [hR, not_or] at hR'
    exact (h'.rest k r j hR'.2).trans (h.rest k r j hR'.1)

end Arrays

/-! ## New columns -/

section Columns

variable {cfg : Columns} {forms : Kind → List (Constraint α)} {w w' : Work α} {k : Kind} {c : Constraint α}

theorem Constraint.at_append {symbols new : List (Option α)} {j : Nat} (hj : j < cfg.firstSymbol + symbols.length) :
    c.at cfg (symbols ++ new) j = c.at cfg symbols j := by
  unfold Constraint.at
  split_ifs with h1 h2 h3
  · rfl
  · rfl
  · rfl
  · rw [List.getElem?_append_left (by omega)]

/-- The columns of new variables have to be zero in the rows already written. -/
theorem Rows.extend {new : List (Option α)} (hrows : Rows cfg forms w) (hsymbols : w'.symbols = w.symbols ++ new)
    (hcols : w'.cols = w.cols + new.length) (hfits : w'.cols ≤ maxCols) (hconst : w'.const = w.const)
    (hold : ∀ k r, ∀ j < w.cols, w'.work k r j = w.work k r j)
    (hzero : ∀ k, ∀ r < (forms k).length, ∀ j, w.cols ≤ j → j < w'.cols → w'.work k r j = 0)
    (hnew : ∀ symbol, some symbol ∈ new → some symbol ∉ w.symbols ∧ new = [some symbol]) : Rows cfg forms w' := by
  have hlen : w'.cols = cfg.firstSymbol + w'.symbols.length := by
    rw [hcols, hrows.cols, hsymbols, List.length_append, Nat.add_assoc]
  refine ⟨hlen, hfits, ?_, ?_⟩
  · -- a new symbol is the only one, and was not on the stack
    have hcase : ∀ (i : Nat) (symbol : α), w'.symbols[i]? = some (some symbol) →
        w.symbols[i]? = some (some symbol) ∨ i = w.symbols.length ∧ some symbol ∈ new := by
      intro i symbol h
      rw [hsymbols] at h
      rcases Nat.lt_or_ge i w.symbols.length with hlt | hge
      · rw [List.getElem?_append_left hlt] at h
        exact Or.inl h
      · rw [List.getElem?_append_right hge] at h
        have hmem := List.mem_of_getElem? h
        rw [(hnew symbol hmem).2] at h
        exact Or.inr ⟨by have := (List.getElem?_eq_some_iff.mp h).1; simp at this; omega, hmem⟩
    intro i j symbol hi hj
    rcases hcase i symbol hi with hi | ⟨hi, hmem⟩
    · rcases hcase j symbol hj with hj | ⟨hj, hmem⟩
      · exact hrows.unique i j symbol hi hj
      · exact absurd (List.mem_of_getElem? hi) (hnew symbol hmem).1
    · rcases hcase j symbol hj with hj | ⟨hj, -⟩
      · exact absurd (List.mem_of_getElem? hj) (hnew symbol hmem).1
      · rw [hi, hj]
  · intro k r c hc
    obtain ⟨hrow, hrowConst⟩ := hrows.row k r c hc
    refine ⟨⟨?_, ?_, ?_⟩, by rw [hconst, hrowConst]⟩
    · intro j hj
      rw [← hlen] at hj
      rcases Nat.lt_or_ge j w.cols with hlt | hge
      · rw [hold k r j hlt, hsymbols, Constraint.at_append (hrows.cols ▸ hlt)]
        exact hrow.coeff j (hrows.cols ▸ hlt)
      · rw [hzero k r (List.getElem?_eq_some_iff.mp hc).1 j hge hj]
        symm
        have hfirst : cfg.firstSymbol ≤ j := by rw [hrows.cols] at hge; omega
        have hnd := cfg.firstDv1_le_nd1_le
        rw [Constraint.at, if_neg (by omega), if_neg (by omega), if_neg (by omega)]
        split
        · next symbol h =>
          rw [hsymbols, List.getElem?_append_right (by rw [hrows.cols] at hge; omega)] at h
          rw [hrow.known symbol (hnew symbol (List.mem_of_getElem? h)).1]
          rfl
        · rw [hrow.dummy j (hrows.cols ▸ hge)]
          rfl
    · intro symbol hsymbol
      rw [hsymbols] at hsymbol
      exact hrow.known symbol fun h => hsymbol (List.mem_append_left new h)
    · intro j hj
      rw [← hlen, hcols, hrows.cols] at hj
      exact hrow.dummy j (by omega)

end Columns

/-! ## Symbols -/

section Symbols

variable [DecidableEq α] {cfg : Columns} {forms : Kind → List (Constraint α)} {w w' : Work α} {k : Kind} {c : Constraint α}
  {zeroed : List Kind} {sign : Int}

theorem Rows.addSymbol (hrows : Rows cfg (snoc forms k c) w) (hlen : (forms k).length = w.rows k) {i : Nat} {symbol : α}
    (hi : w.symbols[i]? = some (some symbol)) (y : Int) :
    Rows cfg (snoc forms k (c.addSymbol y symbol))
      (w.withRow k (fun j => if j = i + cfg.firstSymbol then wrap32 (w.work k (w.rows k) j + y) else w.work k (w.rows k) j)
        (w.const k (w.rows k))) := by
  obtain ⟨hrow, hconst⟩ := hrows.current hlen
  rw [hconst]
  refine (hrows.init hlen).write (c := c.addSymbol y symbol) hlen ⟨?_, ?_, hrow.dummy⟩
  · intro j hj
    have hadd : (if j = i + cfg.firstSymbol then wrap32 (wrap32 (c.at cfg w.symbols j) + y)
        else wrap32 (c.at cfg w.symbols j)) =
          wrap32 (c.at cfg w.symbols j + if j = i + cfg.firstSymbol then y else 0) := by
      split_ifs
      · exact wrap32_add_left _ _
      · rw [add_zero]
    rw [hrow.coeff j hj, hadd]
    refine congrArg wrap32 ?_
    unfold Constraint.at Constraint.addSymbol
    dsimp only
    have hnd := cfg.firstDv1_le_nd1_le
    split_ifs with h1 h2 h3 h4 h5 h6
    all_goals first | omega | rw [add_zero] | skip
    · rw [show j - cfg.firstSymbol = i by omega, hi]
      simp
    · split
      · next s hs =>
        rw [if_neg fun h : symbol = s => by have := hrows.unique _ _ _ hs (h ▸ hi); omega, add_zero]
      · rfl
  · intro s hs
    show c.symb s + (if symbol = s then y else 0) = 0
    rw [if_neg fun h : symbol = s => hs (h ▸ List.mem_of_getElem? hi), hrow.known s hs, add_zero]

/-- The columns that the symbols of a list get. -/
def NewColumn (cfg : Columns) (w : Work α) (nodes : List (IntsymbNode α)) (j : Nat) : Prop :=
  w.cols ≤ j ∧ j < maxCols ∧ j < cfg.firstSymbol + (enterSymbols w.symbols nodes).length

/-- New columns are zeroed in some arrays, which have room for one more row, and are zero already in the others. -/
def Clears (cfg : Columns) (zeroed : List Kind) (nodes : List (IntsymbNode α)) (w : Work α) : Prop :=
  ∀ j, NewColumn cfg w nodes j →
    (∀ k ∈ zeroed, w.rows k < maxRows) ∧ ∀ k, k ∉ zeroed → ∀ r < w.rows k, w.work k r j = 0

theorem Clears.mono {nodes nodes' : List (IntsymbNode α)} (h : Clears cfg zeroed nodes w) (hrows : w'.rows = w.rows)
    (hcols : ∀ j, NewColumn cfg w' nodes' j → NewColumn cfg w nodes j)
    (hwork : ∀ k r, k ∉ zeroed → w'.work k r = w.work k r) : Clears cfg zeroed nodes' w' := by
  intro j hj
  obtain ⟨hroom, hzero⟩ := h j (hcols j hj)
  rw [hrows]
  exact ⟨hroom, fun k hk r hr => (congrFun (hwork k r hk) j).trans (hzero k hk r hr)⟩

end Symbols

/-! ## One more row -/

/-- The arrays hold the rows of `forms` and no others. -/
structure Means (cfg : Columns) (forms : Kind → List (Constraint α)) (w : Work α) : Prop extends Rows cfg forms w where
  length : ∀ k, (forms k).length = w.rows k
  le : ∀ k, w.rows k ≤ maxRows

/-- The loops of a constraint. -/
def Constraint.loops (c : Constraint α) : Constraint α := { c with symb := fun _ => 0, dummy := fun _ => 0 }

/-- The columns of the coefficients are those of dummy variables. -/
def DepvCoeff.OnDummies (coeff : DepvCoeff) (cfg : Columns) (symbols : List (Option α)) : Prop :=
  ∀ j, coeff.firstVar ≤ j → j < coeff.firstVar + coeff.numDim →
    cfg.firstSymbol ≤ j ∧ symbols[j - cfg.firstSymbol]? = some none

/-- The bound is that of the loop of a column, and has no inner loops. -/
def BoundOf (cfg : Columns) (varNum : Nat) (bound : AccessVector α) (isRef1 : Bool) : Prop :=
  if isRef1 then varNum < cfg.nd1 ∧ bound.nestDepth ≤ varNum + 1
  else cfg.firstDv2 ≤ varNum ∧ varNum < cfg.firstSymbol ∧ bound.nestDepth ≤ varNum - cfg.firstDv2 + cfg.firstDv1 + 1

section NewRow

variable {cfg : Columns} {forms : Kind → List (Constraint α)} {w : Work α} {k : Kind} {c : Constraint α}
  {row : Nat → Int} {x : Int}

theorem Means.nextRow (hlen : ∀ k, (forms k).length = w.rows k) (hle : ∀ k, w.rows k ≤ maxRows)
    (hroom : w.rows k < maxRows) (hrows : Rows cfg (snoc forms k c) w) : Means cfg (snoc forms k c) (w.nextRow k) where
  cols := hrows.cols
  fits := hrows.fits
  unique := hrows.unique
  row := hrows.row
  length := by
    intro k'
    show _ = if k' = k then w.rows k + 1 else w.rows k'
    unfold snoc
    split_ifs
    · rw [List.length_append, hlen, List.length_singleton]
    · exact hlen k'
  le := by
    intro k'
    show (if k' = k then w.rows k + 1 else w.rows k') ≤ maxRows
    split_ifs
    · exact hroom
    · exact hle k'

theorem loopCoeff_of_le {av : AccessVector α} {j : Nat} (h : av.nestDepth ≤ j) : av.loopCoeff j = 0 := by
  unfold AccessVector.loopCoeff
  split
  · exact if_neg (Nat.not_lt.mpr h)
  · rfl

theorem RowIs.fill {symbols : List (Option α)} {coeff : DepvCoeff} (hrow : RowIs cfg symbols row c)
    (hdummy : ∀ j, c.dummy j = 0) (hcoeff : coeff.OnDummies cfg symbols) :
    RowIs cfg symbols
      (fun j => if coeff.firstVar ≤ j ∧ j < coeff.firstVar + coeff.numDim then
          wrap32 (coeff.coeff.getD (j - coeff.firstVar) 0)
        else row j)
      { c with dummy := fun j =>
          if coeff.firstVar ≤ j ∧ j < coeff.firstVar + coeff.numDim then coeff.coeff.getD (j - coeff.firstVar) 0 else 0 }
    where
  coeff := by
    intro j hj
    have hnd := cfg.firstDv1_le_nd1_le
    split_ifs with h
    · obtain ⟨hge, hnone⟩ := hcoeff j h.1 h.2
      rw [Constraint.at, if_neg (by omega), if_neg (by omega), if_neg (by omega), hnone]
      exact congrArg wrap32 (if_pos h).symm
    · rw [hrow.coeff j hj]
      unfold Constraint.at
      simp only [hdummy, if_neg h]
  known := hrow.known
  dummy := by
    intro j hj
    refine if_neg fun h => ?_
    obtain ⟨hge, hnone⟩ := hcoeff j h.1 h.2
    have := (List.getElem?_eq_some_iff.mp hnone).1
    omega

theorem DepvCoeff.OnDummies.mono {symbols symbols' : List (Option α)} {coeff : DepvCoeff}
    (hcoeff : coeff.OnDummies cfg symbols) (hextends : symbols <+: symbols') : coeff.OnDummies cfg symbols' := by
  intro j hge hlt
  obtain ⟨hfirst, hnone⟩ := hcoeff j hge hlt
  obtain ⟨new, rfl⟩ := hextends
  exact ⟨hfirst, by rw [List.getElem?_append_left (List.getElem?_eq_some_iff.mp hnone).1, hnone]⟩

end NewRow

end Path64.Dep.Arrays

import Path64.Lib.Checked
import Path64.Lib.Wrap

/-!
# Access vectors: `ACCESS_VECTOR::Set`

The summary of a subscript as loop coefficients, linear symbols, products of symbols and a constant
(`access_vector.cxx`). A vector is changed in place by the source; here each function returns the new one.

* `Wn` : the expression nodes that `Add_Sum` and `Set_LB` tell apart;
* `AccessVector` : the vector, `none` where the source has a null pointer;
* `wrapped`, `checked` : the arithmetic of the source, and the same with a report of what does not fit;
* `addSymbol`, `addNonlin`, `addSum`, `set` : the functions under their names; a fault stands for an index outside
  `_lcoeff`, a null pointer that is followed and a shift count that is not defined.
-/

namespace Path64.Access

open Lib

/-- The conversions `Add_Sum` looks at. -/
inductive Cvt where
  | i8i4 | u8i4 | i4u8 | rest
  deriving DecidableEq, Repr

/-- The intrinsics `Set_LB` looks at, each for all integral types. -/
inductive Intrn where
  | divFloor | divCeil | rest (id : Nat)
  deriving DecidableEq, Repr

/-- An expression over symbols `α`; `rest` is a node of any other operator. The kids of an `INTRINSIC_OP` are those of
its `PARM` nodes. -/
inductive Wn (α : Type) where
  | add (kid0 kid1 : Wn α)
  | sub (kid0 kid1 : Wn α)
  | neg (kid0 : Wn α)
  | mpy (kid0 kid1 : Wn α)
  | intconst (val : Int)
  | ldid (symbol : α) (isVolatile : Bool)
  | paren (kid0 : Wn α)
  | cvt (opc : Cvt) (kid0 : Wn α)
  | cvtl (bits : Nat) (kid0 : Wn α)
  | shl (underArray : Bool) (kid0 kid1 : Wn α)
  | ashr (underArray : Bool) (kid0 kid1 : Wn α)
  | max (kid0 kid1 : Wn α)
  | min (kid0 kid1 : Wn α)
  | intrinsicOp (intr : Intrn) (kid0 kid1 : Wn α)
  | rest (id : Nat)
  deriving DecidableEq, Repr

variable {α : Type} [DecidableEq α]

/-- `INTSYMB_NODE`. -/
structure IntsymbNode (α : Type) where
  symbol : α
  coeff : Int
  deriving DecidableEq, Repr

/-- `SYMBOL_NODE`. -/
structure SymbolNode (α : Type) where
  symbol : α
  isLoopVar : Bool
  deriving DecidableEq, Repr

/-- `SUMPROD_NODE`. -/
structure SumprodNode (α : Type) where
  prodList : List (SymbolNode α)
  coeff : Int
  deriving DecidableEq, Repr

structure AccessVector (α : Type) where
  tooMessy : Bool
  nestDepth : Nat
  lcoeff : Option (List Int)
  linSymb : Option (List (IntsymbNode α))
  nonLinSymb : Option (List (SumprodNode α))
  constOffset : Int
  deriving DecidableEq, Repr

inductive Fault where
  | overflow | index | nullPointer | shiftCount
  deriving DecidableEq, Repr

/-- What becomes of the exact results of 32-bit and of 64-bit operations. -/
structure Arith where
  int32 : Int → Except Fault Int
  int64 : Int → Except Fault Int

/-- The arithmetic of the source, which wraps. -/
abbrev wrapped : Arith := ⟨fun x => .ok (wrap32 x), fun x => .ok (wrap64 x)⟩

/-- The same, with a report of what does not fit. -/
abbrev checked : Arith := ⟨Lib.int32 .overflow, Lib.int64 .overflow⟩

namespace AccessVector

/-- `Init(nest_depth)`. -/
def init (nestDepth : Nat) : AccessVector α := ⟨true, nestDepth, none, none, none, 0⟩

/-- `Loop_Coeff`. -/
def loopCoeff (v : AccessVector α) (i : Nat) : Int :=
  match v.lcoeff with
  | some c => if i < v.nestDepth then c.getD i 0 else 0
  | none => 0

def messy (v : AccessVector α) : AccessVector α := { v with tooMessy := true }

end AccessVector

/-- The overflow test of the coefficients. -/
def Overflows (coeff : Int) : Prop := coeff ≥ 2 ^ 31 - 1 - 1 ∨ coeff ≤ -2 ^ 31 + 1

instance (coeff : Int) : Decidable (Overflows coeff) := inferInstanceAs (Decidable (_ ∨ _))

/-- `SLIST::Len`, which counts in an `mINT16`. -/
def len {β : Type} (l : List β) : Int := (l.length : Int).bmod (2 ^ 16)

/-! ## `Add_Symbol` -/

/-- The place of the outermost loop with the index `symbol`. -/
def loopIndex (stack : List α) (symbol : α) : Option Nat := stack.findIdx? (· == symbol)

/-- Adds to the coefficient of a loop. -/
def addLoopCoeff (v : AccessVector α) (i : Nat) (coeff : Int) : Except Fault (AccessVector α) :=
  let lcoeff := v.lcoeff.getD (List.replicate v.nestDepth 0)
  match lcoeff[i]? with
  | none => .error .index
  | some old =>
    if Overflows (coeff + old) then .ok { v.messy with lcoeff := some lcoeff }
    else .ok { v with lcoeff := some (lcoeff.set i (coeff + old)) }

/-- Adds to the term of a symbol already on the list, and drops it when it cancels: `none` when there is none,
`some none` when the new coefficient overflows. -/
def mergeSymbol (coeff : Int) (symbol : α) : List (IntsymbNode α) → Option (Option (List (IntsymbNode α)))
  | [] => none
  | node :: list =>
    if node.symbol = symbol then
      if Overflows (coeff + node.coeff) then some none
      else if coeff + node.coeff = 0 then some (some list)
      else some (some ({ node with coeff := coeff + node.coeff } :: list))
    else (mergeSymbol coeff symbol list).map (Option.map (node :: ·))

/-- Adds a symbol that is no loop index. -/
def addLinSymb (v : AccessVector α) (coeff : Int) (symbol : α) : AccessVector α :=
  let list := v.linSymb.getD []
  match mergeSymbol coeff symbol list with
  | none => { v with linSymb := some (⟨symbol, coeff⟩ :: list) }
  | some none => v.messy
  | some (some list) => { v with linSymb := some list }

/-- `Add_Symbol`; `isVolatile` is that of the load, if there is one. -/
def addSymbol (stack : List α) (v : AccessVector α) (coeff : Int) (symbol : α) (isVolatile : Bool) :
    Except Fault (AccessVector α) :=
  if isVolatile then .ok v.messy
  else if Overflows coeff then .ok v.messy
  else
    match loopIndex stack symbol with
    | some i => addLoopCoeff v i coeff
    | none => .ok (addLinSymb v coeff symbol)

/-! ## `Add_Nonlin` -/

/-- `Negate_Me`; `none` when a coefficient overflows. -/
def negateMe : List (SumprodNode α) → Option (List (SumprodNode α))
  | [] => some []
  | node :: list =>
    if Overflows (-node.coeff) then none else (negateMe list).map ({ node with coeff := -node.coeff } :: ·)

section Routine

variable (a : Arith)

/-- Multiplies every coefficient; `none` when one overflows. -/
def scale (offset : Int) : List (SumprodNode α) → Except Fault (Option (List (SumprodNode α)))
  | [] => .ok (some [])
  | node :: list => do
    let coeff ← a.int64 (node.coeff * offset)
    if Overflows coeff then return none
    let rest ← scale offset list
    return rest.map ({ node with coeff := coeff } :: ·)

/-- Appends a symbol to every product. -/
def appendSymbol (symbol : α) (isLoopVar : Bool) (list : List (SumprodNode α)) : List (SumprodNode α) :=
  list.map fun node => { node with prodList := node.prodList ++ [⟨symbol, isLoopVar⟩] }

/-- `if (!Too_Messy) list->Merge(list2); return list`. -/
def mergeUnlessMessy (list list2 : Option (List (SumprodNode α))) (tooMessy : Bool) :
    Except Fault (Option (List (SumprodNode α)) × Bool) :=
  if tooMessy then .ok (list, true)
  else
    match list, list2 with
    | some l, some l2 => .ok (some (l ++ l2), false)
    | _, _ => .error .nullPointer

/-- `Add_Nonlin`: the products of `list` times the expression, and `Too_Messy`. -/
def addNonlin (stack : List α) : Wn α → List (SumprodNode α) → Bool →
    Except Fault (Option (List (SumprodNode α)) × Bool)
  | _, _, true => .ok (none, true)
  | .add kid0 kid1, list, false => do
    let r ← addNonlin stack kid0 list false
    let r2 ← addNonlin stack kid1 list r.2
    mergeUnlessMessy r.1 r2.1 r2.2
  | .sub kid0 kid1, list, false => do
    let r2 ← addNonlin stack kid1 list false
    -- a null list has nothing to negate
    match negateMe (r2.1.getD []) with
    | none => return (none, true)
    | some list2 =>
      let r ← addNonlin stack kid0 list r2.2
      mergeUnlessMessy r.1 (r2.1.map fun _ => list2) r.2
  | .neg kid0, list, false =>
    match negateMe list with
    | none => .ok (none, true)
    | some list => addNonlin stack kid0 list false
  | .mpy kid0 kid1, list, false => do
    let r ← addNonlin stack kid0 list false
    match r.1 with
    | none => return (none, r.2)
    | some list => addNonlin stack kid1 list r.2
  | .intconst offset, list, false => do
    let r ← scale a offset list
    return (r, r.isNone)
  | .ldid symbol _, list, false => .ok (some (appendSymbol symbol (loopIndex stack symbol).isSome list), false)
  | _, _, false => .ok (none, true)

/-! ## `Add_Sum` -/

/-- Moves the products that are really constants or linear; returns what is left. -/
def moveLinear (stack : List α) : List (SumprodNode α) → AccessVector α →
    Except Fault (AccessVector α × List (SumprodNode α))
  | [], v => .ok (v, [])
  | node :: list, v =>
    match node.prodList with
    | [] => do
      let offset ← a.int64 (v.constOffset + node.coeff)
      moveLinear stack list { v with constOffset := offset }
    | first :: _ =>
      if len node.prodList = 1 then do
        let v ← addSymbol stack v node.coeff first.symbol false
        moveLinear stack list v
      else do
        let r ← moveLinear stack list v
        return (r.1, node :: r.2)

/-- `Non_Lin_Symb` with the products of `tmp`. -/
def joinProducts : Option (List (SumprodNode α)) → Option (List (SumprodNode α)) → Option (List (SumprodNode α))
  | none, tmp => tmp
  | some list, some tmp => some (list ++ tmp)
  | some list, none => some list

/-- A product of two expressions neither of which is a constant. -/
def addProduct (stack : List α) (wn : Wn α) (coeff : Int) (allowNonlin : Bool) (v : AccessVector α) :
    Except Fault (AccessVector α) :=
  if !allowNonlin then .ok v.messy
  else if Overflows coeff then .ok v.messy
  else do
    let r ← addNonlin a stack wn [⟨[], coeff⟩] v.tooMessy
    let v := { v with tooMessy := r.2 || r.1.isNone }
    let list := joinProducts v.nonLinSymb r.1
    let left ← moveLinear a stack (list.getD []) v
    return { left.1 with nonLinSymb := list.map fun _ => left.2 }

/-- The constant a node holds. -/
def constVal : Wn α → Option Int
  | .intconst val => some val
  | _ => none

/-- A multiple of a constant; by 1 and -1 nothing is multiplied. -/
def constTerm (coeff val : Int) : Except Fault Int :=
  if coeff = 1 then .ok val
  else if coeff = -1 then .ok (-val)
  else a.int64 (coeff * val)

/-- Adds a multiple of a constant. -/
def addConst (v : AccessVector α) (coeff val : Int) : Except Fault (AccessVector α) := do
  let term ← constTerm a coeff val
  let offset ← a.int64 (v.constOffset + term)
  return { v with constOffset := offset }

/-- `coeff << count`, for a count the operation is defined for. -/
def shiftLeft (coeff count : Int) : Except Fault Int := do
  require .shiftCount (0 ≤ count ∧ count < 64)
  a.int64 (coeff * 2 ^ count.toNat)

/-- `coeff >> count`. -/
def shiftRight (coeff count : Int) : Except Fault Int := do
  require .shiftCount (0 ≤ count ∧ count < 64)
  return coeff / 2 ^ count.toNat

/-- `Add_Sum`. -/
def addSum (stack : List α) (allowNonlin : Bool) : Wn α → Int → AccessVector α → Except Fault (AccessVector α)
  | wn, coeff, v =>
    if v.tooMessy then .ok v
    else
      match wn with
      | .add kid0 kid1 => do
        let v ← addSum stack allowNonlin kid0 coeff v
        addSum stack allowNonlin kid1 coeff v
      | .sub kid0 kid1 => do
        let v ← addSum stack allowNonlin kid0 coeff v
        let neg ← a.int64 (-coeff)
        addSum stack allowNonlin kid1 neg v
      | .neg kid0 => do
        let neg ← a.int64 (-coeff)
        addSum stack allowNonlin kid0 neg v
      | .mpy kid0 kid1 =>
        match constVal kid0, constVal kid1 with
        | some val, _ => do
          let c ← a.int64 (coeff * val)
          addSum stack allowNonlin kid1 c v
        | none, some val => do
          let c ← a.int64 (coeff * val)
          addSum stack allowNonlin kid0 c v
        | none, none => addProduct a stack (.mpy kid0 kid1) coeff allowNonlin v
      | .ldid symbol isVolatile => addSymbol stack v coeff symbol isVolatile
      | .intconst val => addConst a v coeff val
      | .paren kid0 => addSum stack allowNonlin kid0 coeff v
      | .cvt .i8i4 kid0 => addSum stack allowNonlin kid0 coeff v
      | .cvt .u8i4 kid0 => addSum stack allowNonlin kid0 coeff v
      | .cvt .i4u8 (.cvtl 32 kid) => addSum stack allowNonlin kid coeff v
      | .shl true kid0 kid1 =>
        match constVal kid1 with
        | some count => do
          let c ← shiftLeft a coeff count
          addSum stack allowNonlin kid0 c v
        | none => .ok v.messy
      | .ashr true kid0 kid1 =>
        match constVal kid1 with
        | some count => do
          let c ← shiftRight coeff count
          addSum stack allowNonlin kid0 c v
        | none => .ok v.messy
      | _ => .ok v.messy

/-- `Set`: the coefficients and the linear symbols are those the vector has. -/
def set (stack : List α) (v : AccessVector α) (wn : Wn α) (sign offset : Int) (allowNonlin : Bool) :
    Except Fault (AccessVector α) :=
  addSum a stack allowNonlin wn sign { v with tooMessy := false, constOffset := offset, nonLinSymb := none }

end Routine

end Path64.Access

import Path64.Simp.Const

/-!
# Cancelling common terms across a comparison

`cancel_in_relop` of the simplifier (`wn_simp_code.h`): `x+-y op x+-z` and `x+-y op x` become comparisons of what is left.

* `Flags` : the options that the simplification of comparisons looks at;
* `Simpnode.terms` : the signed terms of a side; `choices` : each of them with the one left over;
* `simpDiffValue`, `cancelInRelop` : the functions under their names.
-/

namespace Path64.Simp

open Lib

/-- The options. -/
structure Flags where
  unsafeRelops : Bool
  foldUnsignedRelops : Bool
  cfoldAggressive : Bool

/-- `Mtype_TransferSign(MTYPE_I4, ty)`. -/
def RType.signed (ty : RType) : RType := if ty.1.bits = 64 then .i8 else .i4

theorem bits_signed (ty : RType) : ty.signed.1.bits = ty.1.bits := by
  rcases RType.cases ty with rfl | rfl | rfl | rfl <;> decide

/-- `==` and `!=`. -/
def Relop.isEquality (opr : Relop) : Bool := opr = .eq ∨ opr = .ne

/-- `simp_diff_value`: the difference of two nodes that are equal, or addresses in one symbol. -/
def simpDiffValue (k0 k1 : Simpnode) (negateResult : Bool) : Option Simpnode :=
  match k0, k1 with
  | .lda rtype symbol offset, .lda _ symbol' offset' =>
    if symbol = symbol' then
      let resultval := if negateResult then -(offset - offset') else offset - offset'
      some (.intconst (if rtype = .u4 then .i4 else .i8) resultval)
    else if k0 = k1 then some (.intconst rtype 0) else none
  | _, _ => if k0 = k1 then some (.intconst k0.rtype 0) else none

/-- A term of a side, and whether it is subtracted. -/
structure Term where
  negated : Bool
  node : Simpnode

/-- The terms of a side (`x` and `s`). -/
def Simpnode.terms : Simpnode → List Term
  | .exp2 .add _ kid0 kid1 => [⟨false, kid0⟩, ⟨false, kid1⟩]
  | .exp2 .sub _ kid0 kid1 => [⟨false, kid0⟩, ⟨true, kid1⟩]
  | .exp1 .neg _ kid0 => [⟨true, kid0⟩]
  | node => [⟨false, node⟩]

/-- Each term of a side with the one that is left over. -/
def choices : List Term → List (Term × Option Term)
  | [a, b] => [(a, some b), (b, some a)]
  | [a] => [(a, none)]
  | _ => []

def Simpnode.isAdd : Simpnode → Bool
  | .exp2 .add _ _ _ => true
  | _ => false

def Simpnode.isSum : Simpnode → Bool
  | .exp2 .add _ _ _ | .exp2 .sub _ _ _ => true
  | _ => false

section

variable {mask : Bool} (flags : Flags) (hasPointerType : Simpnode → Bool) (create : Creates mask)
  (opr : Relop) (rty ty : RType) (k0 k1 : Simpnode)

/-- The test for pointers, of a load or an address. -/
def isPointer : Simpnode → Bool
  | node@(.load _ _ _) | node@(.lda _ _ _) => hasPointerType node
  | _ => false

/-- `SIMPNODE_SimpCreateExp1(NEG, …)`, where the term is subtracted. -/
def createSigned (t : Term) : Simpnode := if t.negated then create.exp1 .neg ty.signed t.node else t.node

/-- The comparison of two terms; where both are subtracted it is turned around. -/
def compareTerms (desc : RType) (lhs rhs : Term) : Simpnode :=
  if lhs.negated ∧ rhs.negated then create.relop opr rty desc rhs.node lhs.node
  else create.relop opr rty desc (createSigned create ty lhs) (createSigned create ty rhs)

/-- What is left when the difference `dt` of a term on each side is known. -/
def cancelPair (dt : Simpnode) (lhs : Term) : Option Term → Term × Term
  | none => (lhs, ⟨lhs.negated, if lhs.negated then dt else create.exp1 .neg ty.signed dt⟩)
  | some rhs =>
    let dt := if lhs.negated then create.exp1 .neg ty.signed dt else dt
    (⟨lhs.negated, create.exp2 .add ty lhs.node dt⟩, rhs)

/-- The pairwise comparisons of the terms of the sides. -/
def cancelTerms : Option (Term × Term) :=
  (choices k0.terms).findSome? fun (a, lhs) => (choices k1.terms).findSome? fun (b, rhs) =>
    if a.negated = b.negated then
      match simpDiffValue a.node b.node a.negated, lhs with
      | some dt, some lhs => some (cancelPair create ty dt lhs rhs)
      | _, _ => none
    else none

/-- The comparison of each side with the terms of the other. -/
def cancelSide : Option (Term × Term) :=
  ((choices k0.terms).zip (choices k1.terms)).findSome? fun ((a, lhs), (b, rhs)) =>
    match if a.negated then none else simpDiffValue k1 a.node true with
    | some dt => lhs.map fun lhs => (lhs, ⟨false, dt⟩)
    | none =>
      match if b.negated then none else simpDiffValue k0 b.node false with
      | some dt => rhs.map fun rhs => (⟨false, dt⟩, rhs)
      | none => none

/-- The two terms left over, of a pair of equal terms or of a side that is a term of the other. -/
def remaining : Option (Term × Term) :=
  cancelTerms create ty k0 k1 <|> if k1.isSum then cancelSide k0 k1 else none

/-- `pointer_seen`: only of interest for `<`, `<=`, `>` and `>=`. -/
def pointerSeen : Bool := !opr.isEquality && (k0.terms ++ k1.terms).any fun t => isPointer hasPointerType t.node

/-- What keeps sums from being cancelled in a comparison whose result an overflow may change. -/
def mayOverflow : Bool :=
  !opr.isEquality && ((ty.1.isUnsigned && !pointerSeen hasPointerType opr k0 k1 && !flags.foldUnsignedRelops) ||
    (!ty.1.isUnsigned && !flags.unsafeRelops))

/-- The part of `cancel_in_relop` after the canonicalizations: a sum is on the left. -/
def cancelSums : Option Simpnode :=
  if mayOverflow flags hasPointerType opr ty k0 k1 then none
  else
    -- pointers are compared as signed numbers
    let desc := if pointerSeen hasPointerType opr k0 k1 then ty.signed else ty
    (remaining create ty k0 k1).map fun left => compareTerms create opr rty ty desc left.1 left.2

/-- The second canonicalization: an addition is put on the left. -/
def cancelAddLeft : Option Simpnode :=
  if ¬k0.isAdd ∧ k1.isAdd then cancelSums flags hasPointerType create opr.commutative rty ty k1 k0
  else cancelSums flags hasPointerType create opr rty ty k0 k1

/-- `cancel_in_relop`. -/
def cancelInRelop : Option Simpnode :=
  match k0, k1 with
  | .exp1 .neg _ x, .exp1 .neg _ y => some (create.relop opr.commutative rty ty x y)
  | .lda _ symbol offset, .lda _ symbol' offset' =>
    if symbol = symbol' then some (create.relop opr .i4 .i8 (.intconst .i8 offset) (.intconst .i8 offset')) else none
  | _, _ =>
    if ¬flags.cfoldAggressive then none
    else if ¬k0.isSum ∧ ¬k1.isSum then none
    else if k0.isSum then cancelAddLeft flags hasPointerType create opr rty ty k0 k1
    else cancelAddLeft flags hasPointerType create opr.commutative rty ty k1 k0

end

end Path64.Simp

import Path64.Access.LowerBounds

/-!
# Conditions: `ACCESS_ARRAY::Set_IF`

The test of an `IF` as constraints (`access_vector.cxx`, `access_main.cxx`), one vector for each operand of a tree of `&&`,
or of `||` whose negation is recorded.

* `Cond` : the nodes of a test; `setCondition`, `setIF`, `buildIfAccess` : the functions under their names;
* `AccessVector.Satisfied` : the constraint a vector records;
* `setCondition_iff` : the constraint of an operand is that operand, or its negation;
* `conditionArray_iff` : the constraints hold together just when the test holds, or fails, as long as no 64-bit result
  overflows and `Num_Vec` holds their number; `conditionArray_wraps` : a constant that overflows;
* `buildIfAccess_iff` : so they hold on the branch that `Condition_On_Then` names.
-/

namespace Path64.Access

open Lib

variable {α : Type}

/-! ## Tests -/

/-- The comparisons. -/
inductive Compare where
  | eq | ne | lt | le | gt | ge
  deriving DecidableEq, Repr

def Compare.holds : Compare → Int → Int → Bool
  | .eq, x, y => x = y
  | .ne, x, y => x ≠ y
  | .lt, x, y => x < y
  | .le, x, y => x ≤ y
  | .gt, x, y => x > y
  | .ge, x, y => x ≥ y

/-- A test; `rest` is a node of any other operator. -/
inductive Cond (α : Type) where
  | land (kid0 kid1 : Cond α)
  | cand (kid0 kid1 : Cond α)
  | lior (kid0 kid1 : Cond α)
  | cior (kid0 kid1 : Cond α)
  | lnot (kid0 : Cond α)
  | compare (opr : Compare) (isUnsigned : Bool) (kid0 kid1 : Wn α)
  | intconst (val : Int)
  | rest (id : Nat)
  deriving DecidableEq, Repr

/-- The truth of a test. -/
def Cond.holds (env : α → Int) (rest : Nat → Int) : Cond α → Bool
  | .land kid0 kid1 => kid0.holds env rest && kid1.holds env rest
  | .cand kid0 kid1 => kid0.holds env rest && kid1.holds env rest
  | .lior kid0 kid1 => kid0.holds env rest || kid1.holds env rest
  | .cior kid0 kid1 => kid0.holds env rest || kid1.holds env rest
  | .lnot kid0 => !kid0.holds env rest
  | .compare opr _ kid0 kid1 => opr.holds (kid0.value env rest) (kid1.value env rest)
  | .intconst val => val ≠ 0
  | .rest id => rest id ≠ 0

/-- `Num_Lands`. -/
def numLands : Cond α → Nat
  | .land kid0 kid1 => 1 + numLands kid0 + numLands kid1
  | .cand kid0 kid1 => 1 + numLands kid0 + numLands kid1
  | _ => 0

/-- `Num_Liors`. -/
def numLiors : Cond α → Nat
  | .lior kid0 kid1 => 1 + numLiors kid0 + numLiors kid1
  | .cior kid0 kid1 => 1 + numLiors kid0 + numLiors kid1
  | _ => 0

/-! ## `Set_Condition` -/

variable [DecidableEq α]

/-- The sign and the offset of a comparison, where it is a constraint. -/
def signOffset (opr : Compare) (negate : Bool) : Option (Int × Int) :=
  let sign : Int := if negate then -1 else 1
  match opr with
  | .le => some (sign, if sign > 0 then 0 else 1)
  | .ge => some (-sign, if sign > 0 then 0 else 1)
  | .lt => some (sign, if sign > 0 then 1 else 0)
  | .gt => some (-sign, if sign > 0 then 1 else 0)
  | .eq | .ne => none

section Routine

variable (a : Arith)

/-- `Set_Condition`, below the negation that it takes off. -/
def setComparison (stack : List α) (wn : Cond α) (negate : Bool) (v : AccessVector α) :
    Except Fault (AccessVector α) :=
  match wn with
  | .compare opr isUnsigned kid0 kid1 =>
    if isUnsigned then .ok v.messy
    else
      match signOffset opr negate with
      | some (sign, offset) => do
        let v ← set a stack v kid0 sign offset false
        if v.tooMessy then return v
        let v ← addSum a stack false kid1 (-sign) v
        negateConst a v
      | none => .ok v.messy
  | .intconst val => do
    let isTrue := if negate then val = 0 else val ≠ 0
    let v ← set a stack v (.intconst val) 0 0 false
    return { v with constOffset := if isTrue then 0 else -1 }
  | _ => .ok v.messy

/-- `Set_Condition`. -/
def setCondition (stack : List α) (wn : Cond α) (negate : Bool) (v : AccessVector α) : Except Fault (AccessVector α) :=
  match wn with
  | .lnot kid0 => setComparison a stack kid0 (!negate) v
  | wn => setComparison a stack wn negate v

/-! ## `Set_IF` -/

/-- `Set_IF`: the array, and the next dimension to work on. -/
def setIF (stack : List α) (negate isAnd : Bool) : Cond α → List (AccessVector α) → Nat →
    Except Fault (List (AccessVector α) × Nat)
  | wn, dims, i =>
    let operand : Except Fault (List (AccessVector α) × Nat) := do
      let dims ← modifyDim dims i (setCondition a stack wn negate)
      return (dims, i + 1)
    match wn with
    | .land kid0 kid1 | .cand kid0 kid1 =>
      if isAnd then do
        let r ← setIF stack negate isAnd kid0 dims i
        setIF stack negate isAnd kid1 r.1 r.2
      else operand
    | .lior kid0 kid1 | .cior kid0 kid1 =>
      if ¬isAnd then do
        let r ← setIF stack negate isAnd kid0 dims i
        setIF stack negate isAnd kid1 r.1 r.2
      else operand
    | _ => operand

/-- The constraints of a test, or of its negation, in an array that is made for them; the constructor takes a `UINT16`, an
`unsigned int`. -/
def conditionArray (stack : List α) (negate : Bool) (compare : Cond α) : Except Fault (List (AccessVector α)) := do
  let num := if negate then numLiors compare else numLands compare
  let r ← setIF a stack negate (!negate) compare (List.replicate ((num + 1) % 2 ^ 32) (freshDim stack)) 0
  return r.1

/-- `LNO_Build_If_Access`: the constraints, and `Condition_On_Then`. -/
def buildIfAccess (stack : List α) (test : Cond α) : Except Fault (List (AccessVector α) × Bool) :=
  let (compare, topLevelNot) :=
    match test with
    | .lnot kid0 => (kid0, true)
    | test => (test, false)
  match compare with
  | .lior _ _ | .cior _ _ => do
    let dims ← conditionArray a stack true compare
    return (dims, topLevelNot)
  | _ => do
    let dims ← conditionArray a stack false compare
    return (dims, !topLevelNot)

end Routine

omit [DecidableEq α] in
/-- The vectors that are counted. -/
def recorded (dims : List (AccessVector α)) : List (AccessVector α) := dims.take (numVec dims)

/-! ## The constraint of an operand -/

/-- The constraint holds: in it the constant stands on the right hand side. -/
def AccessVector.Satisfied (v : AccessVector α) (stack : List α) (env : α → Int) : Prop :=
  v.eval stack env - v.constOffset ≤ v.constOffset

/-- No right shift is folded into a coefficient: the expression is linear where it is summarised. -/
def Linear : Wn α → Prop
  | .add kid0 kid1 | .sub kid0 kid1 | .mpy kid0 kid1 => Linear kid0 ∧ Linear kid1
  | .neg kid0 | .paren kid0 | .cvt _ kid0 | .cvtl _ kid0 => Linear kid0
  | .shl _ kid0 _ => Linear kid0
  | .ashr _ _ _ => False
  | _ => True

/-- The operands of all comparisons are linear. -/
def Cond.Linear : Cond α → Prop
  | .land kid0 kid1 | .cand kid0 kid1 | .lior kid0 kid1 | .cior kid0 kid1 => kid0.Linear ∧ kid1.Linear
  | .lnot kid0 => kid0.Linear
  | .compare _ _ kid0 kid1 => Access.Linear kid0 ∧ Access.Linear kid1
  | _ => True

omit [DecidableEq α] in
theorem foldError_linear (env : α → Int) (rest : Nat → Int) {wn : Wn α} (hlinear : Linear wn) (c : Int) :
    foldError false env rest wn c = 0 := by
  induction wn generalizing c with
  | add kid0 kid1 ih0 ih1 => rw [foldError, ih0 hlinear.1, ih1 hlinear.2, Int.add_zero]
  | sub kid0 kid1 ih0 ih1 => rw [foldError, ih0 hlinear.1, ih1 hlinear.2, Int.add_zero]
  | neg kid0 ih => exact ih hlinear (-c)
  | mpy kid0 kid1 ih0 ih1 =>
    rw [foldError]
    cases constVal kid0 with
    | some val => exact ih1 hlinear.2 _
    | none =>
      cases constVal kid1 with
      | some val => exact ih0 hlinear.1 _
      | none => rfl
  | paren kid0 ih => exact ih hlinear c
  | cvt opc kid0 ih => exact ih hlinear c
  | cvtl bits kid0 ih => exact ih hlinear c
  | shl _ kid0 kid1 ih0 _ =>
    rw [foldError]
    cases constVal kid1 with
    | some count => exact ih0 hlinear _
    | none => rfl
  | ashr _ _ _ _ _ => exact hlinear.elim
  | _ => rfl

variable {stack : List α} {v v' : AccessVector α} {negate isAnd : Bool}

/-- `Set` on a fresh vector: the value is that of the expression and the offset. -/
theorem set_eval {wn : Wn α} {sign offset : Int} (hlinear : Linear wn)
    (h : set checked stack (freshDim stack) wn sign offset false = .ok v) (hm : v.tooMessy = false) (env : α → Int)
    (rest : Nat → Int) : v.WF ∧ v.eval stack env = offset + sign * wn.value env rest := by
  have hadd := addSum_adds env rest h
  refine ⟨hadd.wf (set_start_wf offset), ?_⟩
  rw [hadd.grows (set_start_wf offset) hm, foldError_linear env rest hlinear]
  simp [AccessVector.eval, AccessVector.loopCoeff, freshDim, AccessVector.init, linValue, sumprodValue]

theorem signOffset_holds {opr : Compare} {sign offset : Int} (h : signOffset opr negate = some (sign, offset)) (x y : Int) :
    sign * (x - y) + offset ≤ 0 ↔ (opr.holds x y = true ↔ negate = false) := by
  cases opr <;> cases negate <;> cases h <;> simp [Compare.holds]

/-- The constraint of a comparison is that comparison, or its negation. -/
theorem setComparison_iff {wn : Cond α} (hlinear : wn.Linear)
    (h : setComparison checked stack wn negate (freshDim stack) = .ok v) (hm : v.tooMessy = false) (env : α → Int)
    (rest : Nat → Int) : v.Satisfied stack env ↔ (wn.holds env rest = true ↔ negate = false) := by
  unfold setComparison at h
  cases wn with
  | compare opr isUnsigned kid0 kid1 =>
    dsimp only at h
    split_ifs at h
    · cases h
      exact nomatch hm
    · cases hsign : signOffset opr negate with
      | none =>
        rw [hsign] at h
        cases h
        exact nomatch hm
      | some p =>
        obtain ⟨sign, offset⟩ := p
        rw [hsign] at h
        obtain ⟨u, hset, h⟩ := bind_eq_ok.mp h
        split_ifs at h with hu
        · cases h
          exact absurd hu (by rw [hm]; decide)
        · obtain ⟨u', hadd, h⟩ := bind_eq_ok.mp h
          rw [negateConst_eq h] at hm ⊢
          obtain ⟨hwf, hvalue⟩ := set_eval hlinear.1 hset (Bool.eq_false_iff.mpr hu) env rest
          have hsum := (addSum_adds env rest hadd).grows hwf hm
          rw [foldError_linear env rest hlinear.2, hvalue] at hsum
          rw [Cond.holds, ← signOffset_holds hsign]
          have hdiff : sign * (kid0.value env rest - kid1.value env rest) + offset = u'.eval stack env := by
            rw [hsum]
            ring
          rw [AccessVector.Satisfied, eval_constOffset, hdiff]
          show u'.eval stack env - u'.constOffset + -u'.constOffset - -u'.constOffset ≤ -u'.constOffset ↔ _
          omega
  | intconst val =>
    obtain ⟨u, hset, h⟩ := bind_eq_ok.mp h
    cases h
    rw [set, addSum, if_neg Bool.false_ne_true] at hset
    rw [addConst_eq hset]
    have hzero : ∀ offset, (({ freshDim stack with tooMessy := false, constOffset := offset, nonLinSymb := none } :
        AccessVector α).eval stack env) = offset := by
      intro offset
      simp [AccessVector.eval, AccessVector.loopCoeff, freshDim, AccessVector.init, linValue, sumprodValue]
    rw [AccessVector.Satisfied, hzero, Int.sub_self, Cond.holds]
    show 0 ≤ (if _ then (0 : Int) else -1) ↔ _
    cases negate <;> by_cases hval : val = 0 <;> simp [hval]
  | _ =>
    cases h
    exact nomatch hm

theorem setCondition_iff {wn : Cond α} (hlinear : wn.Linear)
    (h : setCondition checked stack wn negate (freshDim stack) = .ok v) (hm : v.tooMessy = false) (env : α → Int)
    (rest : Nat → Int) : v.Satisfied stack env ↔ (wn.holds env rest = true ↔ negate = false) := by
  cases wn with
  | lnot kid0 =>
    change setComparison checked stack kid0 (!negate) (freshDim stack) = .ok v at h
    rw [setComparison_iff (show kid0.Linear from hlinear) h hm env rest, Cond.holds]
    cases kid0.holds env rest <;> cases negate <;> decide
  | _ => exact setComparison_iff hlinear h hm env rest

/-! ## The tree -/

/-- The operands of the tree of `&&`, or of that of `||`. -/
def operands (isAnd : Bool) : Cond α → List (Cond α)
  | .land kid0 kid1 => if isAnd then operands isAnd kid0 ++ operands isAnd kid1 else [.land kid0 kid1]
  | .cand kid0 kid1 => if isAnd then operands isAnd kid0 ++ operands isAnd kid1 else [.cand kid0 kid1]
  | .lior kid0 kid1 => if ¬isAnd then operands isAnd kid0 ++ operands isAnd kid1 else [.lior kid0 kid1]
  | .cior kid0 kid1 => if ¬isAnd then operands isAnd kid0 ++ operands isAnd kid1 else [.cior kid0 kid1]
  | wn => [wn]

omit [DecidableEq α] in
theorem length_operands (isAnd : Bool) (wn : Cond α) :
    (operands isAnd wn).length = (if isAnd then numLands wn else numLiors wn) + 1 := by
  induction wn with
  | land kid0 kid1 ih0 ih1 | cand kid0 kid1 ih0 ih1 =>
    cases isAnd
    · rfl
    · rw [operands, if_pos rfl, List.length_append, ih0, ih1]
      show numLands kid0 + 1 + (numLands kid1 + 1) = 1 + numLands kid0 + numLands kid1 + 1
      omega
  | lior kid0 kid1 ih0 ih1 | cior kid0 kid1 ih0 ih1 =>
    cases isAnd
    · rw [operands, if_pos (by decide), List.length_append, ih0, ih1]
      show numLiors kid0 + 1 + (numLiors kid1 + 1) = 1 + numLiors kid0 + numLiors kid1 + 1
      omega
    · rfl
  | _ => cases isAnd <;> rfl

omit [DecidableEq α] in
/-- The test holds when all operands of `&&` do; it fails when all those of `||` do. -/
theorem holds_operands (env : α → Int) (rest : Nat → Int) (isAnd : Bool) (wn : Cond α) :
    (∀ operand ∈ operands isAnd wn, operand.holds env rest = isAnd) ↔ wn.holds env rest = isAnd := by
  induction wn with
  | land kid0 kid1 ih0 ih1 | cand kid0 kid1 ih0 ih1 =>
    cases isAnd
    · exact List.forall_mem_singleton
    · rw [operands, if_pos rfl, List.forall_mem_append, ih0, ih1, Cond.holds, Bool.and_eq_true]
  | lior kid0 kid1 ih0 ih1 | cior kid0 kid1 ih0 ih1 =>
    cases isAnd
    · rw [operands, if_pos (by decide), List.forall_mem_append, ih0, ih1, Cond.holds, Bool.or_eq_false_iff]
    · exact List.forall_mem_singleton
  | _ => exact List.forall_mem_singleton

omit [DecidableEq α] in
theorem linear_operands {isAnd : Bool} {wn : Cond α} (hlinear : wn.Linear) :
    ∀ operand ∈ operands isAnd wn, operand.Linear := by
  induction wn with
  | land kid0 kid1 ih0 ih1 | cand kid0 kid1 ih0 ih1 =>
    cases isAnd
    · exact List.forall_mem_singleton.mpr hlinear
    · rw [operands, if_pos rfl, List.forall_mem_append]
      exact ⟨ih0 hlinear.1, ih1 hlinear.2⟩
  | lior kid0 kid1 ih0 ih1 | cior kid0 kid1 ih0 ih1 =>
    cases isAnd
    · rw [operands, if_pos (by decide), List.forall_mem_append]
      exact ⟨ih0 hlinear.1, ih1 hlinear.2⟩
    · exact List.forall_mem_singleton.mpr hlinear
  | _ => exact List.forall_mem_singleton.mpr hlinear

/-- A run of `Set_IF` fills the dimensions of the operands. -/
theorem fillsConditions (stack : List α) (negate isAnd : Bool) (wn : Cond α) :
    Fills stack (setIF checked stack negate isAnd wn)
      (fun operand => setCondition checked stack operand negate (freshDim stack)) (operands isAnd wn) := by
  induction wn with
  | land kid0 kid1 ih0 ih1 | cand kid0 kid1 ih0 ih1 =>
    cases isAnd
    · exact Fills.single rfl fun dims i => rfl
    · exact ih0.append ih1 fun dims i => rfl
  | lior kid0 kid1 ih0 ih1 | cior kid0 kid1 ih0 ih1 =>
    cases isAnd
    · exact ih0.append ih1 fun dims i => rfl
    · exact Fills.single rfl fun dims i => rfl
  | _ => exact Fills.single rfl fun dims i => rfl

theorem conditionArray_dims {wn : Cond α} {dims : List (AccessVector α)}
    (h : conditionArray checked stack negate wn = .ok dims) :
    List.Forall₂ (fun operand v => setCondition checked stack operand negate (freshDim stack) = .ok v)
      (operands (!negate) wn) dims := by
  obtain ⟨r, hr, h⟩ := bind_eq_ok.mp h
  cases h
  obtain ⟨vs, m', hvs, hm, rfl⟩ := fillsConditions stack negate (!negate) wn [] _ r hr
  have hlength := hvs.length_eq
  rw [length_operands] at hlength
  have hnum : (if (!negate) = true then numLands wn else numLiors wn) = if negate then numLiors wn else numLands wn := by
    cases negate <;> rfl
  rw [hnum] at hlength
  have hzero : m' = 0 := by omega
  rw [hzero]
  simpa using hvs

theorem satisfied_iff {wn : Cond α} {dims : List (AccessVector α)} (hlinear : wn.Linear)
    (hdims : List.Forall₂ (fun operand v => setCondition checked stack operand negate (freshDim stack) = .ok v)
      (operands (!negate) wn) dims) (hm : ∀ v ∈ dims, v.tooMessy = false) (env : α → Int) (rest : Nat → Int) :
    (∀ v ∈ dims, v.Satisfied stack env) ↔ (wn.holds env rest = true ↔ negate = false) := by
  have hall : (∀ v ∈ dims, v.Satisfied stack env) ↔
      ∀ operand ∈ operands (!negate) wn, operand.holds env rest = !negate := by
    have hoperands : ∀ operand ∈ operands (!negate) wn, operand.Linear := linear_operands hlinear
    generalize operands (!negate) wn = l at hdims hoperands
    induction hdims with
    | nil => exact iff_of_true (fun _ hv => (nomatch hv)) fun _ hoperand => (nomatch hoperand)
    | @cons operand v _ _ hv _ ih =>
      have hhead : v.Satisfied stack env ↔ operand.holds env rest = !negate := by
        rw [setCondition_iff (hoperands _ List.mem_cons_self) hv (hm _ List.mem_cons_self) env rest]
        cases negate <;> cases operand.holds env rest <;> decide
      rw [List.forall_mem_cons, List.forall_mem_cons]
      exact and_congr hhead
        (ih (fun v hv => hm v (List.mem_cons_of_mem _ hv)) fun o ho => hoperands o (List.mem_cons_of_mem _ ho))
  rw [hall, holds_operands]
  cases negate <;> cases wn.holds env rest <;> decide

/-! ## The arithmetic of the source -/

theorem agrees_setComparison (stack : List α) (wn : Cond α) (negate : Bool) (v : AccessVector α) :
    AgreesUnless Fault.overflow (setComparison checked stack wn negate v) (setComparison wrapped stack wn negate v) := by
  unfold setComparison
  split
  · refine agrees_ite (agrees_refl _) ?_
    split
    · exact (agrees_set _ _ _ _ _ _).bind fun _ => agrees_ite (agrees_refl _) <| (agrees_addSum _ _ _ _ _).bind
        fun _ => (agrees_int64 _).bind fun _ => agrees_refl _
    · exact agrees_refl _
  · exact (agrees_set _ _ _ _ _ _).bind fun _ => agrees_refl _
  · exact agrees_refl _

theorem agrees_setCondition (stack : List α) (wn : Cond α) (negate : Bool) (v : AccessVector α) :
    AgreesUnless Fault.overflow (setCondition checked stack wn negate v) (setCondition wrapped stack wn negate v) := by
  unfold setCondition
  split
  · exact agrees_setComparison _ _ _ _
  · exact agrees_setComparison _ _ _ _

theorem agrees_setIF (stack : List α) (negate isAnd : Bool) (wn : Cond α) (dims : List (AccessVector α)) (i : Nat) :
    AgreesUnless Fault.overflow (setIF checked stack negate isAnd wn dims i)
      (setIF wrapped stack negate isAnd wn dims i) := by
  have hoperand : ∀ (wn : Cond α) (dims : List (AccessVector α)) (i : Nat), AgreesUnless Fault.overflow
      (modifyDim dims i (setCondition checked stack wn negate) >>= fun dims => pure (dims, i + 1))
      (modifyDim dims i (setCondition wrapped stack wn negate) >>= fun dims => pure (dims, i + 1)) :=
    fun wn dims i => (agrees_modifyDim (agrees_setCondition stack wn negate) dims i).bind fun _ => agrees_refl _
  induction wn generalizing dims i with
  | land kid0 kid1 ih0 ih1 | cand kid0 kid1 ih0 ih1 | lior kid0 kid1 ih0 ih1 | cior kid0 kid1 ih0 ih1 =>
    rw [setIF, setIF]
    exact agrees_ite ((ih0 dims i).bind fun r => ih1 r.1 r.2) (hoperand _ dims i)
  | _ => exact hoperand _ dims i

theorem agrees_conditionArray (stack : List α) (negate : Bool) (wn : Cond α) : AgreesUnless Fault.overflow
    (conditionArray checked stack negate wn) (conditionArray wrapped stack negate wn) :=
  (agrees_setIF _ _ _ _ _ _).bind fun _ => agrees_refl _

/-! ## Conditions -/

/-- The number of operands that are recorded. -/
def numOperands (negate : Bool) (wn : Cond α) : Nat := (if negate then numLiors wn else numLands wn) + 1

theorem recorded_eq {wn : Cond α} {dims : List (AccessVector α)} (h : conditionArray checked stack negate wn = .ok dims)
    (hsize : numOperands negate wn < 2 ^ 16) : recorded dims = dims := by
  have hlength := (conditionArray_dims h).length_eq
  rw [length_operands] at hlength
  have hnum : dims.length = numOperands negate wn := by
    rw [← hlength, numOperands]
    cases negate <;> rfl
  rw [recorded, numVec, hnum, Nat.mod_eq_of_lt hsize, ← hnum, List.take_length]

/-- The constraints hold together just when the test holds, or, negated, just when it fails. -/
theorem conditionArray_iff (stack : List α) (negate : Bool) (wn : Cond α) (hlinear : wn.Linear)
    (hsize : numOperands negate wn < 2 ^ 16) (hfits : conditionArray checked stack negate wn ≠ .error .overflow)
    (dims : List (AccessVector α)) (h : conditionArray wrapped stack negate wn = .ok dims)
    (hm : ∀ v ∈ recorded dims, v.tooMessy = false) (env : α → Int) (rest : Nat → Int) :
    (∀ v ∈ recorded dims, v.Satisfied stack env) ↔ (wn.holds env rest = true ↔ negate = false) := by
  rw [agrees_conditionArray _ _ _ hfits] at h
  rw [recorded_eq h hsize] at hm ⊢
  exact satisfied_iff hlinear (conditionArray_dims h) hm env rest

/-- `i < n && !(m >= 2 * i)` in a loop over `i`, at `i = 3` and `n = m = 5`. -/
theorem conditionArray_and : ∃ dims : List (AccessVector Nat),
    conditionArray wrapped [0] false (.land (.compare .lt false (.ldid 0 false) (.ldid 1 false))
      (.lnot (.compare .ge false (.ldid 2 false) (.mpy (.intconst 2) (.ldid 0 false))))) = .ok dims ∧
    ∀ v ∈ recorded dims, v.Satisfied [0] fun symbol => if symbol = 0 then 3 else 5 := by
  refine ⟨[⟨false, 1, some [1], some [⟨1, -1⟩], none, -1⟩, ⟨false, 1, some [-2], some [⟨2, 1⟩], none, -1⟩], by decide, ?_⟩
  exact (conditionArray_iff [0] false (.land (.compare .lt false (.ldid 0 false) (.ldid 1 false))
    (.lnot (.compare .ge false (.ldid 2 false) (.mpy (.intconst 2) (.ldid 0 false))))) (by simp [Cond.Linear, Linear])
    (by decide) (by decide) _ (by decide) (by decide) _ fun _ => 0).mpr (by decide)

/-- `i - 5 < n + 9223372036854775807` in a loop over `i` holds at `i = 1` and `n = -10`; its constant wraps. -/
theorem conditionArray_wraps : ∃ (wn : Cond Nat) (dims : List (AccessVector Nat)), wn.Linear ∧
    conditionArray wrapped [0] false wn = .ok dims ∧ (∀ v ∈ recorded dims, v.tooMessy = false) ∧
    ¬((∀ v ∈ recorded dims, v.Satisfied [0] fun symbol => if symbol = 0 then 1 else -10) ↔
      (wn.holds (fun symbol => if symbol = 0 then 1 else -10) (fun _ => 0) = true ↔ false = false)) := by
  refine ⟨.compare .lt false (.sub (.ldid 0 false) (.intconst 5)) (.add (.ldid 1 false) (.intconst (2 ^ 63 - 1))),
    [⟨false, 1, some [1], some [⟨1, -1⟩], none, -(2 ^ 63 - 3)⟩], ⟨⟨trivial, trivial⟩, ⟨trivial, trivial⟩⟩, by decide, by decide, ?_⟩
  have hholds : (Cond.compare .lt false (.sub (.ldid 0 false) (.intconst 5))
      (.add (.ldid 1 false) (.intconst (2 ^ 63 - 1)))).holds
      (fun symbol : Nat => if symbol = 0 then 1 else -10) (fun _ => 0) = true := by
    decide
  rw [hholds]
  intro hiff
  have hsat := hiff.mpr (iff_of_true rfl rfl) _ List.mem_cons_self
  unfold AccessVector.Satisfied at hsat
  exact absurd hsat (by decide)

/-- The test below the negation that is taken off. -/
def ifCompare : Cond α → Cond α
  | .lnot kid0 => kid0
  | test => test

def isNot : Cond α → Bool
  | .lnot _ => true
  | _ => false

/-- The test is split at its `||`. -/
def isOr : Cond α → Bool
  | .lior _ _ | .cior _ _ => true
  | _ => false

theorem buildIfAccess_eq (a : Arith) (stack : List α) (test : Cond α) : buildIfAccess a stack test = (do
    let dims ← conditionArray a stack (isOr (ifCompare test)) (ifCompare test)
    return (dims, isNot test ^^ !isOr (ifCompare test))) := by
  cases test with
  | lnot kid0 => cases kid0 <;> rfl
  | _ => rfl

omit [DecidableEq α] in
theorem linear_ifCompare {test : Cond α} (hlinear : test.Linear) : (ifCompare test).Linear := by
  cases test <;> exact hlinear

omit [DecidableEq α] in
theorem holds_ifCompare (env : α → Int) (rest : Nat → Int) (test : Cond α) :
    test.holds env rest = ((ifCompare test).holds env rest ^^ isNot test) := by
  cases test with
  | lnot kid0 => rw [ifCompare, isNot, Bool.xor_true, Cond.holds]
  | _ => exact (Bool.xor_false _).symm

/-- The constraints hold together just on the branch that `Condition_On_Then` names. -/
theorem buildIfAccess_iff (stack : List α) (test : Cond α) (hlinear : test.Linear)
    (hsize : numOperands (isOr (ifCompare test)) (ifCompare test) < 2 ^ 16)
    (hfits : buildIfAccess checked stack test ≠ .error .overflow) (dims : List (AccessVector α)) (onThen : Bool)
    (h : buildIfAccess wrapped stack test = .ok (dims, onThen)) (hm : ∀ v ∈ recorded dims, v.tooMessy = false)
    (env : α → Int) (rest : Nat → Int) :
    (∀ v ∈ recorded dims, v.Satisfied stack env) ↔ test.holds env rest = onThen := by
  rw [buildIfAccess_eq] at hfits h
  rw [((agrees_conditionArray _ _ _).bind fun _ => agrees_refl _) hfits] at h
  obtain ⟨dims', hdims, h⟩ := bind_eq_ok.mp h
  cases h
  rw [recorded_eq hdims hsize] at hm ⊢
  rw [satisfied_iff (linear_ifCompare hlinear) (conditionArray_dims hdims) hm env rest, holds_ifCompare env rest test]
  cases isOr (ifCompare test) <;> cases isNot test <;> cases (ifCompare test).holds env rest <;> decide

/-- `i >= n || m >= 2 * i`: the constraints are `i < n` and `m < 2 * i`, for the branch where the test fails. -/
def eitherTest : Cond Nat :=
  .lior (.compare .ge false (.ldid 0 false) (.ldid 1 false))
    (.compare .ge false (.ldid 2 false) (.mpy (.intconst 2) (.ldid 0 false)))

theorem buildIfAccess_either : ∃ dims : List (AccessVector Nat),
    buildIfAccess wrapped [0] eitherTest = .ok (dims, false) ∧
    ∀ v ∈ recorded dims, v.Satisfied [0] fun symbol => if symbol = 0 then 3 else 5 := by
  refine ⟨[⟨false, 1, some [1], some [⟨1, -1⟩], none, -1⟩, ⟨false, 1, some [-2], some [⟨2, 1⟩], none, -1⟩], by decide, ?_⟩
  exact (buildIfAccess_iff [0] eitherTest (by simp [eitherTest, Cond.Linear, Linear]) (by decide) (by decide) _ false
    (by decide) (by decide) _ fun _ => 0).mpr (by decide)

end Path64.Access

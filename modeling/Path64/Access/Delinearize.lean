import Path64.Access.Algebra
import Path64.Access.Conditions

/-!
# Delinearization

`ACCESS_ARRAY::Delinearize` and `ACCESS_VECTOR::Can_Delinearize` of `access_vector.cxx`: a subscript that multiplies by a
symbol is split in two.

* `remainder`, `belowZero`, `aboveSymbol`, `canDelinearize` : what is not multiplied by the symbol, and the two conditions
  that have to be inconsistent with the loops around the reference; the test for that is a parameter;
* `delinSymbol`, `quotient`, `delinearize` : the search for the symbol, and the split, with the symbol it leaves in
  `Delinearized_Symbol`;
* `lostProducts` : what products with 65536 factors too many lose;
* `delinearize_iff` : where the negations of the conditions fit, the split is faithful just when nothing is lost, so where
  no product has that many factors.
-/

namespace Path64.Access

open Lib

variable {α : Type} [DecidableEq α]

/-! ## The conditions -/

/-- What is not multiplied by the symbol. -/
def remainder (delin : α) (av : AccessVector α) : AccessVector α where
  tooMessy := false
  nestDepth := av.nestDepth
  lcoeff := if av.nestDepth = 0 then none else some ((List.range av.nestDepth).map av.loopCoeff)
  linSymb := some ((av.linSymb.getD []).filter fun node => ¬node.symbol = delin)
  nonLinSymb := none
  constOffset := av.constOffset

section Routine

variable (a : Arith)

/-- `Negate_Me`. -/
def negateVector (v : AccessVector α) : Except Fault (AccessVector α) :=
  if v.tooMessy then .ok v
  else do
    let constOffset ← a.int64 (-v.constOffset)
    let lcoeff ← (v.lcoeff.getD []).mapM fun coeff => a.int32 (-coeff)
    let linSymb ← (v.linSymb.getD []).mapM fun node => do
      let coeff ← a.int32 (-node.coeff)
      return { node with coeff }
    let nonLinSymb ← (v.nonLinSymb.getD []).mapM fun node => do
      let coeff ← a.int32 (-node.coeff)
      return { node with coeff }
    return { v with
      constOffset
      lcoeff := v.lcoeff.map fun _ => lcoeff
      linSymb := v.linSymb.map fun _ => linSymb
      nonLinSymb := v.nonLinSymb.map fun _ => nonLinSymb }

/-- The condition that the remainder is at most -1. -/
def belowZero (tmp : AccessVector α) : Except Fault (AccessVector α) := do
  let neg ← a.int64 (-tmp.constOffset)
  let constOffset ← a.int64 (neg - 1)
  return { tmp with constOffset }

/-- From that, the condition that the remainder is at least the symbol. -/
def aboveSymbol (delin : α) (tmp : AccessVector α) : Except Fault (AccessVector α) := do
  let constOffset ← a.int64 (tmp.constOffset + 1)
  let tmp ← negateVector a { tmp with constOffset }
  return { tmp with linSymb := some (⟨delin, 1⟩ :: tmp.linSymb.getD []) }

/-- `Can_Delinearize`; `consistent` is `Is_Consistent_Condition` at the reference. -/
def canDelinearize (consistent : AccessVector α → Bool) (av : AccessVector α) (delin : α) : Except Fault Bool := do
  let below ← belowZero a (remainder delin av)
  if consistent below then return false
  let above ← aboveSymbol a delin below
  return !consistent above

end Routine

/-! ## The split -/

/-- `Contains`. -/
def containsSymbol (symbol : α) (prodList : List (SymbolNode α)) : Bool :=
  prodList.any fun node => node.symbol = symbol

/-- The first symbol of the first product that is no loop index, is in all others and can be split by. -/
def delinSymbol (a : Arith) (consistent : AccessVector α → Bool) (av : AccessVector α) (others : List (SumprodNode α)) :
    List (SymbolNode α) → Except Fault (Option α)
  | [] => .ok none
  | node :: l =>
    if !node.isLoopVar && others.all fun node2 => containsSymbol node.symbol node2.prodList then do
      if ← canDelinearize a consistent av node.symbol then return some node.symbol
      delinSymbol a consistent av others l
    else delinSymbol a consistent av others l

/-- Adds to the constant; `none` when it overflows. -/
def addOffset (v : AccessVector α) (coeff : Int) : Option (AccessVector α) :=
  if Overflows (v.constOffset + coeff) then none else some { v with constOffset := v.constOffset + coeff }

/-- The other symbol of a product of two. -/
def otherSymbol (delin : α) : List (SymbolNode α) → Option α
  | [] => none
  | node :: l => if node.symbol = delin then l.head?.map (·.symbol) else some node.symbol

/-- A product without the symbol, which is a constant, linear or still a product. -/
def quotientProduct (stack : List α) (delin : α) (v : AccessVector α) (node : SumprodNode α) :
    Except Fault (Option (AccessVector α)) :=
  if len node.prodList = 1 then .ok (addOffset v node.coeff)
  else if len node.prodList = 2 then
    match otherSymbol delin node.prodList with
    | none => .error .nullPointer
    | some other => do
      let v ← addSymbol stack v node.coeff other false
      return if v.tooMessy then none else some v
  else
    let prodList := node.prodList.eraseP fun node => node.symbol = delin
    .ok (some { v with nonLinSymb := some (v.nonLinSymb.getD [] ++ [⟨prodList, node.coeff⟩]) })

def quotientProducts (stack : List α) (delin : α) :
    List (SumprodNode α) → AccessVector α → Except Fault (Option (AccessVector α))
  | [], v => .ok (some v)
  | node :: l, v => do
    match ← quotientProduct stack delin v node with
    | none => return none
    | some v => quotientProducts stack delin l v

/-- What the symbol multiplies; `none` when a coefficient overflows. -/
def quotient (stack : List α) (delin : α) (av : AccessVector α) : Except Fault (Option (AccessVector α)) :=
  let coeffs := (av.linSymb.getD []).filter fun node => node.symbol = delin
  match coeffs.foldlM (fun v node => addOffset v node.coeff) { AccessVector.init av.nestDepth with tooMessy := false } with
  | none => .ok none
  | some v => quotientProducts stack delin (av.nonLinSymb.getD []) v

/-- `Delinearize(stack, dim, wn)`: the array, and the symbol when a dimension was split. -/
def delinearize (a : Arith) (stack : List α) (consistent : AccessVector α → Bool) (dims : List (AccessVector α)) (dim : Nat) :
    Except Fault (List (AccessVector α) × Option α) :=
  match dims[dim]? with
  | none => .error .index
  | some av =>
    match av.nonLinSymb.getD [] with
    | [] => .error .nullPointer
    | first :: others => do
      match ← delinSymbol a consistent av others first.prodList with
      | none => return (dims, none)
      | some delin =>
        match ← quotient stack delin av with
        | none => return (dims, none)
        | some v => return (dims.take dim ++ v :: remainder delin av :: dims.drop (dim + 1), some delin)

/-! ## The checks -/

/-- The environments that the two conditions leave: none of them holds. -/
def ChecksHold (stack : List α) (av : AccessVector α) (delin : α) (env : α → Int) : Prop :=
  ∀ below, belowZero wrapped (remainder delin av) = .ok below → ¬below.Satisfied stack env ∧
    ∀ above, aboveSymbol wrapped delin below = .ok above → ¬above.Satisfied stack env

variable {stack : List α} {consistent : AccessVector α → Bool} {delin : α} {env : α → Int} {dim : Nat}
  {av v v' below above : AccessVector α} {dims dims' : List (AccessVector α)}

omit [DecidableEq α] in
/-- A negated vector. -/
theorem negateVector_eval (hm : v.tooMessy = false) (h : negateVector checked v = .ok v') (stack : List α) (env : α → Int) :
    v'.eval stack env = -v.eval stack env ∧ v'.constOffset = -v.constOffset := by
  unfold negateVector at h
  rw [if_neg (Bool.eq_false_iff.mp hm)] at h
  obtain ⟨offset, hoffset, h⟩ := bind_eq_ok.mp h
  obtain ⟨-, rfl⟩ := int64_iff.mp hoffset
  obtain ⟨lcoeff, hlcoeff, h⟩ := bind_eq_ok.mp h
  obtain ⟨-, rfl⟩ := (mapM_eq_ok fun coeff y => int32_iff).mp hlcoeff
  obtain ⟨linSymb, hlinSymb, h⟩ := bind_eq_ok.mp h
  obtain ⟨-, rfl⟩ := (mapM_eq_ok fun node node' => setCoeff_eq_ok).mp hlinSymb
  obtain ⟨nonLinSymb, hnonLinSymb, h⟩ := bind_eq_ok.mp h
  obtain ⟨-, rfl⟩ := (mapM_eq_ok fun node node' => setProduct_eq_ok).mp hnonLinSymb
  cases h
  refine ⟨?_, rfl⟩
  have hcoeff : ∀ i, AccessVector.loopCoeff { v with
      constOffset := -v.constOffset
      lcoeff := v.lcoeff.map fun _ => (v.lcoeff.getD []).map fun coeff => -coeff
      linSymb := v.linSymb.map fun _ => (v.linSymb.getD []).map fun node => { node with coeff := -node.coeff }
      nonLinSymb := v.nonLinSymb.map fun _ =>
        (v.nonLinSymb.getD []).map fun node => { node with coeff := -node.coeff } } i = -v.loopCoeff i := by
    intro i
    unfold AccessVector.loopCoeff
    cases v.lcoeff with
    | none => exact neg_zero.symm
    | some l =>
      show (if i < v.nestDepth then (l.map fun coeff => -coeff).getD i 0 else 0) =
        -if i < v.nestDepth then l.getD i 0 else 0
      split_ifs
      · rw [List.getD_eq_getElem?_getD, List.getD_eq_getElem?_getD, List.getElem?_map]
        cases l[i]? with
        | none => exact neg_zero.symm
        | some x => rfl
      · exact neg_zero.symm
  have hlin : linValue env ((v.linSymb.map fun _ =>
      (v.linSymb.getD []).map fun node => { node with coeff := -node.coeff }).getD []) =
      -linValue env (v.linSymb.getD []) := by
    cases v.linSymb with
    | none => exact neg_zero.symm
    | some l =>
      have hneg : (l.map fun node => { node with coeff := -node.coeff }) =
          l.map fun node => { node with coeff := node.coeff * -1 } :=
        List.map_congr_left fun node _ => by rw [mul_neg_one]
      show linValue env (l.map fun node => { node with coeff := -node.coeff }) = -linValue env l
      rw [hneg, linValue_scale, neg_one_mul]
  have hnonlin : sumprodValue env ((v.nonLinSymb.map fun _ =>
      (v.nonLinSymb.getD []).map fun node => { node with coeff := -node.coeff }).getD []) =
      -sumprodValue env (v.nonLinSymb.getD []) := by
    cases v.nonLinSymb with
    | none => exact neg_zero.symm
    | some l =>
      have hneg : (l.map fun node => { node with coeff := -node.coeff }) =
          l.map fun node => { node with coeff := node.coeff * -1 } :=
        List.map_congr_left fun node _ => by rw [mul_neg_one]
      show sumprodValue env (l.map fun node => { node with coeff := -node.coeff }) = -sumprodValue env l
      rw [hneg, sumprodValue_scale, neg_one_mul]
  unfold AccessVector.eval
  simp only [hcoeff, hlin, hnonlin, neg_mul, Finset.sum_neg_distrib]
  ring

omit [DecidableEq α] in
theorem eval_prependSymbol (v : AccessVector α) (symbol : α) (coeff : Int) (stack : List α) (env : α → Int) :
    ({ v with linSymb := some (⟨symbol, coeff⟩ :: v.linSymb.getD []) } : AccessVector α).eval stack env =
      v.eval stack env + coeff * env symbol := by
  unfold AccessVector.eval
  show v.constOffset + ∑ i : Fin stack.length, v.loopCoeff i * env (stack.get i) +
    linValue env (⟨symbol, coeff⟩ :: v.linSymb.getD []) + _ = _
  rw [linValue_cons]
  ring

omit [DecidableEq α] in
theorem belowZero_eval {tmp : AccessVector α} (h : belowZero checked tmp = .ok below) (stack : List α) (env : α → Int) :
    below.tooMessy = tmp.tooMessy ∧ below.constOffset = -tmp.constOffset - 1 ∧
      below.eval stack env - below.constOffset = tmp.eval stack env - tmp.constOffset := by
  obtain ⟨neg, hneg, h⟩ := bind_eq_ok.mp h
  obtain ⟨offset, hoffset, h⟩ := bind_eq_ok.mp h
  obtain ⟨-, rfl⟩ := int64_iff.mp hneg
  obtain ⟨-, rfl⟩ := int64_iff.mp hoffset
  cases h
  refine ⟨rfl, rfl, ?_⟩
  rw [eval_constOffset]
  exact add_sub_cancel_right _ _

omit [DecidableEq α] in
theorem aboveSymbol_eval (hm : below.tooMessy = false) (h : aboveSymbol checked delin below = .ok above) (stack : List α)
    (env : α → Int) : above.constOffset = -below.constOffset - 1 ∧
      above.eval stack env = env delin - below.eval stack env - 1 := by
  obtain ⟨offset, hoffset, h⟩ := bind_eq_ok.mp h
  obtain ⟨-, rfl⟩ := int64_iff.mp hoffset
  obtain ⟨tmp, htmp, h⟩ := bind_eq_ok.mp h
  cases h
  obtain ⟨heval, hconst⟩ :=
    negateVector_eval (v := { below with constOffset := below.constOffset + 1 }) hm htmp stack env
  refine ⟨hconst.trans Int.neg_add, ?_⟩
  rw [eval_prependSymbol, heval, eval_constOffset below]
  ring

omit [DecidableEq α] in
theorem agrees_belowZero (tmp : AccessVector α) :
    AgreesUnless Fault.overflow (belowZero checked tmp) (belowZero wrapped tmp) :=
  (agrees_int64 _).bind fun _ => (agrees_int64 _).bind fun _ => agrees_refl _

omit [DecidableEq α] in
theorem agrees_aboveSymbol (delin : α) (tmp : AccessVector α) :
    AgreesUnless Fault.overflow (aboveSymbol checked delin tmp) (aboveSymbol wrapped delin tmp) :=
  (agrees_int64 _).bind fun _ => (agrees_ite (agrees_refl _) <| (agrees_int64 _).bind fun _ =>
    (agrees_mapM (fun _ => agrees_int32 _) _).bind fun _ =>
    (agrees_mapM (fun _ => (agrees_int32 _).bind fun _ => agrees_refl _) _).bind fun _ =>
    (agrees_mapM (fun _ => (agrees_int32 _).bind fun _ => agrees_refl _) _).bind fun _ => agrees_refl _).bind
    fun _ => agrees_refl _

theorem agrees_canDelinearize (consistent : AccessVector α → Bool) (av : AccessVector α) (delin : α) :
    AgreesUnless Fault.overflow (canDelinearize checked consistent av delin) (canDelinearize wrapped consistent av delin) :=
  (agrees_belowZero _).bind fun _ => agrees_ite (agrees_refl _) <| (agrees_aboveSymbol _ _).bind fun _ => agrees_refl _

/-- What the conditions say of the remainder. -/
theorem checksHold_iff (hcan : canDelinearize checked consistent av delin = .ok true) (stack : List α) (env : α → Int) :
    ChecksHold stack av delin env ↔
      0 ≤ (remainder delin av).eval stack env ∧ (remainder delin av).eval stack env < env delin := by
  obtain ⟨below, hbelow, h⟩ := bind_eq_ok.mp hcan
  split_ifs at h
  · cases h
  obtain ⟨above, habove, -⟩ := bind_eq_ok.mp h
  have hbelowWrapped := agrees_belowZero (remainder delin av) (by rw [hbelow]; nofun)
  have haboveWrapped := agrees_aboveSymbol delin below (by rw [habove]; nofun)
  rw [hbelow] at hbelowWrapped
  rw [habove] at haboveWrapped
  obtain ⟨hm, hconst, heval⟩ := belowZero_eval hbelow stack env
  obtain ⟨hconst', heval'⟩ := aboveSymbol_eval hm habove stack env
  have hleft : below.Satisfied stack env ↔ (remainder delin av).eval stack env ≤ -1 := by
    unfold AccessVector.Satisfied
    omega
  have hright : above.Satisfied stack env ↔ env delin ≤ (remainder delin av).eval stack env := by
    unfold AccessVector.Satisfied
    omega
  constructor
  · intro hchecks
    obtain ⟨hnot, hnot'⟩ := hchecks below hbelowWrapped
    have hlt := hnot' above haboveWrapped
    rw [hleft] at hnot
    rw [hright] at hlt
    omega
  · rintro ⟨hnonneg, hlt⟩ below' hbelow'
    rw [hbelowWrapped] at hbelow'
    cases hbelow'
    refine ⟨?_, fun above' habove' => ?_⟩
    · rw [hleft]
      omega
    · rw [haboveWrapped] at habove'
      cases habove'
      rw [hright]
      omega

/-! ## The split -/

theorem delinSymbol_some {others : List (SumprodNode α)} {l : List (SymbolNode α)}
    (h : delinSymbol checked consistent av others l = .ok (some delin)) :
    canDelinearize checked consistent av delin = .ok true ∧ containsSymbol delin l = true ∧
      ∀ node ∈ others, containsSymbol delin node.prodList = true := by
  induction l with
  | nil => cases h
  | cons node l ih =>
    have hlater (h : delinSymbol checked consistent av others l = .ok (some delin)) :
        canDelinearize checked consistent av delin = .ok true ∧ containsSymbol delin (node :: l) = true ∧
          ∀ node ∈ others, containsSymbol delin node.prodList = true := by
      obtain ⟨hcan, hmem, hall⟩ := ih h
      exact ⟨hcan, by rw [containsSymbol, List.any_cons]; exact Bool.or_eq_true_iff.mpr (Or.inr hmem), hall⟩
    unfold delinSymbol at h
    split_ifs at h with hgood
    · obtain ⟨can, hcan, h⟩ := bind_eq_ok.mp h
      split_ifs at h with htrue
      · cases h
        rw [htrue] at hcan
        refine ⟨hcan, by rw [containsSymbol, List.any_cons, decide_eq_true rfl, Bool.true_or], ?_⟩
        exact List.all_eq_true.mp (Bool.and_eq_true_iff.mp hgood).2
      · exact hlater h
    · exact hlater h

/-- What the quotient has for a product. -/
def quotientValue (env : α → Int) (delin : α) (l : List (SymbolNode α)) : Int :=
  if len l = 1 then 1
  else if len l = 2 then ((otherSymbol delin l).map env).getD 0
  else prodValue env (l.eraseP fun node => node.symbol = delin)

/-- What the split loses, all of it in products with 65536 factors too many. -/
def lostProducts (env : α → Int) (delin : α) (l : List (SumprodNode α)) : Int :=
  (l.map fun node => node.coeff * (prodValue env node.prodList - quotientValue env delin node.prodList * env delin)).sum

/-- A product is the symbol times the others. -/
theorem prodValue_eraseP (env : α → Int) {l : List (SymbolNode α)} (h : containsSymbol delin l = true) :
    prodValue env l = prodValue env (l.eraseP fun node => node.symbol = delin) * env delin := by
  induction l with
  | nil => exact (nomatch h)
  | cons node l ih =>
    have hcons : ∀ l' : List (SymbolNode α), prodValue env (node :: l') = env node.symbol * prodValue env l' :=
      fun l' => by rw [prodValue, List.map_cons, List.prod_cons]; rfl
    rw [List.eraseP_cons]
    by_cases hnode : node.symbol = delin
    · rw [decide_eq_true hnode, cond_true, hcons, hnode, mul_comm]
    · rw [containsSymbol, List.any_cons, decide_eq_false hnode, Bool.false_or] at h
      rw [decide_eq_false hnode, cond_false, hcons, hcons, ih h, mul_assoc]

theorem len_eq {β : Type} {l : List β} (h : l.length ≤ 2) : len l = l.length := by
  unfold len
  rw [Int.bmod_def]
  split_ifs <;> omega

/-- Nothing is lost of a product with as many factors as its length says. -/
theorem quotientValue_eq (env : α → Int) {l : List (SymbolNode α)} (h : containsSymbol delin l = true)
    (hfit : len l = 1 ∨ len l = 2 → l.length ≤ 2) : prodValue env l = quotientValue env delin l * env delin := by
  have hprod : ∀ (node : SymbolNode α) l', prodValue env (node :: l') = env node.symbol * prodValue env l' :=
    fun node l' => by rw [prodValue, List.map_cons, List.prod_cons]; rfl
  unfold quotientValue
  rcases l with _ | ⟨node, _ | ⟨node2, _ | ⟨node3, l'⟩⟩⟩
  · exact absurd h Bool.false_ne_true
  · have hone : len [node] = 1 := len_eq (Nat.le_succ 1)
    have hnode : node.symbol = delin := by
      rw [containsSymbol, List.any_cons, List.any_nil, Bool.or_false] at h
      exact of_decide_eq_true h
    rw [if_pos hone, hprod, hnode, one_mul]
    exact mul_one _
  · have htwo : len [node, node2] = 2 := len_eq le_rfl
    rw [if_neg (by rw [htwo]; decide), if_pos htwo, hprod, hprod, otherSymbol]
    by_cases hnode : node.symbol = delin
    · rw [if_pos hnode, hnode, mul_comm]
      exact congrArg (· * env delin) (mul_one _)
    · rw [containsSymbol, List.any_cons, decide_eq_false hnode, List.any_cons, List.any_nil, Bool.or_false,
        Bool.false_or] at h
      rw [if_neg hnode, of_decide_eq_true h]
      exact congrArg (env node.symbol * ·) (mul_one _)
  · have hlong : ¬(len (node :: node2 :: node3 :: l') = 1 ∨ len (node :: node2 :: node3 :: l') = 2) := fun hor => by
      have hle := hfit hor
      simp only [List.length_cons] at hle
      omega
    rw [not_or] at hlong
    rw [if_neg hlong.1, if_neg hlong.2]
    exact prodValue_eraseP env h

/-- No product has a number of factors that `Len` takes for one or two. -/
def ProductsFit (v : AccessVector α) : Prop :=
  ∀ node ∈ v.nonLinSymb.getD [], len node.prodList = 1 ∨ len node.prodList = 2 → node.prodList.length ≤ 2

theorem len_eq_two {β : Type} {l l' : List β} (hlength : l'.length + 1 = l.length) (h : len l' = 1) : len l = 2 := by
  have hmod := len_eq_one h
  unfold len
  rw [Int.bmod_def]
  split_ifs <;> omega

omit [DecidableEq α] in
theorem addOffset_eval {coeff : Int} (h : addOffset v coeff = some v') (stack : List α) (env : α → Int) :
    (v.WF → v'.WF) ∧ v'.tooMessy = v.tooMessy ∧ v'.eval stack env = v.eval stack env + coeff := by
  unfold addOffset at h
  split_ifs at h
  cases h
  refine ⟨fun hv => ⟨hv.lcoeff, hv.products⟩, rfl, ?_⟩
  rw [eval_constOffset]
  ring

omit [DecidableEq α] in
theorem foldlM_addOffset {l : List (IntsymbNode α)}
    (h : l.foldlM (fun v node => addOffset v node.coeff) v = some v') (stack : List α) (env : α → Int) :
    (v.WF → v'.WF) ∧ v'.tooMessy = v.tooMessy ∧
      v'.eval stack env = v.eval stack env + (l.map (·.coeff)).sum := by
  induction l generalizing v with
  | nil =>
    cases h
    exact ⟨id, rfl, (Int.add_zero _).symm⟩
  | cons node l ih =>
    rw [List.foldlM_cons] at h
    obtain ⟨u, hu, h⟩ := Option.bind_eq_some_iff.mp h
    obtain ⟨hwf, hmessy, heval⟩ := addOffset_eval hu stack env
    obtain ⟨hwf', hmessy', heval'⟩ := ih h
    refine ⟨fun hv => hwf' (hwf hv), hmessy'.trans hmessy, ?_⟩
    rw [heval', heval, List.map_cons, List.sum_cons, Int.add_assoc]

/-- A product goes to the constant, to a coefficient or to the products. -/
theorem quotientProduct_eval {node : SumprodNode α} (hmem : containsSymbol delin node.prodList = true)
    (h : quotientProduct stack delin v node = .ok (some v')) (hv : v.WF) (hm : v.tooMessy = false) (env : α → Int) :
    v'.WF ∧ v'.tooMessy = false ∧
      v'.eval stack env = v.eval stack env + node.coeff * quotientValue env delin node.prodList := by
  unfold quotientProduct at h
  unfold quotientValue
  split_ifs at h ⊢ with hone htwo
  · obtain ⟨hwf, hmessy, heval⟩ := addOffset_eval (Except.ok.inj h) stack env
    exact ⟨hwf hv, hmessy.trans hm, heval.trans (by rw [mul_one])⟩
  · cases hother : otherSymbol delin node.prodList with
    | none =>
      rw [hother] at h
      cases h
    | some other =>
      rw [hother] at h
      obtain ⟨u, hu, h⟩ := bind_eq_ok.mp h
      obtain ⟨hwf, -, hadded⟩ := addSymbol_spec hu
      split_ifs at h with hmessy
      · cases h
      · cases h
        have hm' := Bool.eq_false_iff.mpr hmessy
        exact ⟨hwf hv, hm', (hadded hv hm').eval env⟩
  · cases h
    refine ⟨⟨hv.lcoeff, ?_⟩, hm, ?_⟩
    · show ∀ n ∈ v.nonLinSymb.getD [] ++ [_], _
      rw [List.forall_mem_append]
      refine ⟨hv.products, List.forall_mem_singleton.mpr fun hlen => htwo (len_eq_two ?_ hlen)⟩
      obtain ⟨n, hn, hsymbol⟩ := List.any_eq_true.mp hmem
      exact List.length_eraseP_add_one hn hsymbol
    · rw [eval_nonLinSymb, sumprodValue_append, sumprodValue_cons]
      show _ - _ + (_ + (_ + 0)) = _
      ring

theorem quotientProducts_eval {l : List (SumprodNode α)}
    (hall : ∀ node ∈ l, containsSymbol delin node.prodList = true)
    (h : quotientProducts stack delin l v = .ok (some v')) (hv : v.WF) (hm : v.tooMessy = false) (env : α → Int) :
    v'.eval stack env =
      v.eval stack env + (l.map fun node => node.coeff * quotientValue env delin node.prodList).sum := by
  induction l generalizing v with
  | nil =>
    cases h
    exact (Int.add_zero _).symm
  | cons node l ih =>
    obtain ⟨hnode, hrest⟩ := List.forall_mem_cons.mp hall
    obtain ⟨o, ho, h⟩ := bind_eq_ok.mp h
    cases o with
    | none => cases h
    | some u =>
      obtain ⟨hwf, hmessy, heval⟩ := quotientProduct_eval hnode ho hv hm env
      rw [ih hrest h hwf hmessy, heval, List.map_cons, List.sum_cons, Int.add_assoc]

omit [DecidableEq α] in
theorem eval_fresh (nestDepth : Nat) (stack : List α) (env : α → Int) :
    AccessVector.eval { AccessVector.init nestDepth with tooMessy := false } stack env = 0 := by
  simp [AccessVector.eval, AccessVector.loopCoeff, AccessVector.init, linValue, sumprodValue]

theorem quotient_eval (hall : ∀ node ∈ av.nonLinSymb.getD [], containsSymbol delin node.prodList = true)
    (h : quotient stack delin av = .ok (some v)) (env : α → Int) :
    v.eval stack env = (((av.linSymb.getD []).filter fun node => node.symbol = delin).map (·.coeff)).sum +
      ((av.nonLinSymb.getD []).map fun node => node.coeff * quotientValue env delin node.prodList).sum := by
  unfold quotient at h
  simp only at h
  split at h
  · cases h
  · next u hu =>
    obtain ⟨hwf, hmessy, heval⟩ := foldlM_addOffset hu stack env
    have hstart : AccessVector.WF { AccessVector.init (α := α) av.nestDepth with tooMessy := false } :=
      ⟨fun _ hl => (nomatch hl), fun _ hnode => (nomatch hnode)⟩
    rw [quotientProducts_eval hall h (hwf hstart) hmessy env, heval, eval_fresh, zero_add]

theorem linValue_filter (env : α → Int) (delin : α) (l : List (IntsymbNode α)) :
    linValue env l = ((l.filter fun node => node.symbol = delin).map (·.coeff)).sum * env delin +
      linValue env (l.filter fun node => ¬node.symbol = delin) := by
  induction l with
  | nil => simp [linValue]
  | cons node l ih =>
    rw [linValue_cons, ih]
    by_cases hnode : node.symbol = delin
    · simp only [List.filter_cons, hnode, decide_true, not_true_eq_false, decide_false, if_true, Bool.false_eq_true,
        if_false, List.map_cons, List.sum_cons]
      ring
    · simp only [List.filter_cons, hnode, decide_true, not_false_eq_true, decide_false, if_true, Bool.false_eq_true,
        if_false]
      rw [linValue_cons]
      ring

theorem remainder_eval (av : AccessVector α) (delin : α) (stack : List α) (env : α → Int) :
    (remainder delin av).eval stack env +
        (((av.linSymb.getD []).filter fun node => node.symbol = delin).map (·.coeff)).sum * env delin +
        sumprodValue env (av.nonLinSymb.getD []) = av.eval stack env := by
  have hcoeff : ∀ i, (remainder delin av).loopCoeff i = av.loopCoeff i := fun i => by
    by_cases hi : i < av.nestDepth
    · unfold AccessVector.loopCoeff remainder
      simp only
      rw [if_neg (by omega)]
      show (if i < av.nestDepth then ((List.range av.nestDepth).map _).getD i 0 else 0) = av.loopCoeff i
      rw [if_pos hi, List.getD_eq_getElem?_getD, List.getElem?_map, List.getElem?_range hi]
      rfl
    · rw [loopCoeff_of_le av (Nat.le_of_not_lt hi)]
      exact loopCoeff_of_le _ (Nat.le_of_not_lt hi)
  have hlin := linValue_filter env delin (av.linSymb.getD [])
  unfold AccessVector.eval
  simp only [hcoeff]
  show av.constOffset + _ + linValue env ((av.linSymb.getD []).filter fun node => ¬node.symbol = delin) + 0 + _ + _ = _
  rw [hlin]
  ring

theorem quotient_remainder (hall : ∀ node ∈ av.nonLinSymb.getD [], containsSymbol delin node.prodList = true)
    (h : quotient stack delin av = .ok (some v)) (env : α → Int) :
    av.eval stack env = v.eval stack env * env delin + (remainder delin av).eval stack env +
      lostProducts env delin (av.nonLinSymb.getD []) := by
  have hlost : ∀ l : List (SumprodNode α), sumprodValue env l =
      (l.map fun node => node.coeff * quotientValue env delin node.prodList).sum * env delin +
        lostProducts env delin l := fun l => by
    induction l with
    | nil => simp [sumprodValue, lostProducts]
    | cons node l ih =>
      rw [sumprodValue_cons, ih, lostProducts, lostProducts, List.map_cons, List.map_cons, List.sum_cons,
        List.sum_cons]
      ring
  rw [← remainder_eval av delin stack env, quotient_eval hall h env, hlost]
  ring

/-- A dimension is split: the symbol passed the checks, and its quotient and remainder take the place of the vector. -/
theorem delinearize_some {old : AccessVector α} (hold : dims[dim]? = some old)
    (h : delinearize checked stack consistent dims dim = .ok (dims', some delin)) :
    ∃ v, dims' = dims.take dim ++ v :: remainder delin old :: dims.drop (dim + 1) ∧
      canDelinearize checked consistent old delin = .ok true ∧ quotient stack delin old = .ok (some v) ∧
      ∀ node ∈ old.nonLinSymb.getD [], containsSymbol delin node.prodList = true := by
  unfold delinearize at h
  rw [hold] at h
  simp only at h
  split at h
  · cases h
  · next first others hproducts =>
    obtain ⟨o, ho, h⟩ := bind_eq_ok.mp h
    cases o with
    | none => cases h
    | some symbol =>
      obtain ⟨o', ho', h⟩ := bind_eq_ok.mp h
      cases o' with
      | none => cases h
      | some v =>
        cases h
        obtain ⟨hcan, hfirst, hothers⟩ := delinSymbol_some ho
        refine ⟨v, rfl, hcan, ho', ?_⟩
        rw [hproducts]
        exact List.forall_mem_cons.mpr ⟨hfirst, hothers⟩

theorem delinearize_none {a : Arith} (h : delinearize a stack consistent dims dim = .ok (dims', none)) : dims' = dims := by
  unfold delinearize at h
  split at h
  · cases h
  · split at h
    · cases h
    · obtain ⟨o, ho, h⟩ := bind_eq_ok.mp h
      cases o with
      | none =>
        cases h
        rfl
      | some symbol =>
        obtain ⟨o', ho', h⟩ := bind_eq_ok.mp h
        cases o' with
        | none =>
          cases h
          rfl
        | some v => cases h

/-! ## The split is faithful -/

/-- The dimension `old` is split by `delin` into `q` and `r`, without overflow, and the checks hold in the environment. -/
structure SplitsTo (stack : List α) (consistent : AccessVector α → Bool) (dims dims' : List (AccessVector α))
    (dim : Nat) (env : α → Int) (old q r : AccessVector α) (delin : α) : Prop where
  run : delinearize wrapped stack consistent dims dim = .ok (dims', some delin)
  fits : delinearize checked stack consistent dims dim ≠ .error .overflow
  before : dims[dim]? = some old
  first : dims'[dim]? = some q
  second : dims'[dim + 1]? = some r
  checks : ChecksHold stack old delin env

/-- The old subscript is made of the new ones. -/
structure Faithful (stack : List α) (env : α → Int) (old q r : AccessVector α) (delin : α) : Prop where
  value : old.eval stack env = q.eval stack env * env delin + r.eval stack env
  nonneg : 0 ≤ r.eval stack env
  lt : r.eval stack env < env delin

variable {old q r : AccessVector α}

theorem agrees_delinSymbol (consistent : AccessVector α → Bool) (av : AccessVector α) (others : List (SumprodNode α))
    (l : List (SymbolNode α)) : AgreesUnless Fault.overflow (delinSymbol checked consistent av others l)
      (delinSymbol wrapped consistent av others l) := by
  induction l with
  | nil => exact agrees_refl _
  | cons node l ih =>
    exact agrees_ite ((agrees_canDelinearize _ _ _).bind fun _ => agrees_ite (agrees_refl _) ih) ih

theorem agrees_delinearize (stack : List α) (consistent : AccessVector α → Bool) (dims : List (AccessVector α))
    (dim : Nat) : AgreesUnless Fault.overflow (delinearize checked stack consistent dims dim)
      (delinearize wrapped stack consistent dims dim) := by
  unfold delinearize
  split
  · exact agrees_refl _
  · split
    · exact agrees_refl _
    · exact (agrees_delinSymbol _ _ _ _).bind fun _ => agrees_refl _

theorem SplitsTo.checked (h : SplitsTo stack consistent dims dims' dim env old q r delin) :
    delinearize checked stack consistent dims dim = .ok (dims', some delin) :=
  (agrees_delinearize _ _ _ _ h.fits).symm.trans h.run

/-- Nothing is lost where the numbers of factors fit. -/
theorem SplitsTo.lostProducts_eq_zero (h : SplitsTo stack consistent dims dims' dim env old q r delin)
    (hfit : ProductsFit old) : lostProducts env delin (old.nonLinSymb.getD []) = 0 := by
  obtain ⟨_, -, -, -, hall⟩ := delinearize_some h.before h.checked
  refine List.sum_eq_zero fun x hx => ?_
  obtain ⟨node, hnode, rfl⟩ := List.mem_map.mp hx
  rw [quotientValue_eq env (hall node hnode) (hfit node hnode), sub_self, mul_zero]

theorem SplitsTo.faithful_iff (h : SplitsTo stack consistent dims dims' dim env old q r delin) :
    Faithful stack env old q r delin ↔ lostProducts env delin (old.nonLinSymb.getD []) = 0 := by
  obtain ⟨v, hdims, hcan, hquotient, hall⟩ := delinearize_some h.before h.checked
  have hlength : (dims.take dim).length = dim :=
    List.length_take_of_le (List.getElem?_eq_some_iff.mp h.before).1.le
  have hq : v = q := by
    have hget := h.first
    rw [hdims, List.getElem?_append_right hlength.le, hlength, Nat.sub_self] at hget
    exact Option.some.inj hget
  have hr : remainder delin old = r := by
    have hget := h.second
    rw [hdims, List.getElem?_append_right (hlength.le.trans (dim.le_add_right 1)), hlength,
      Nat.add_sub_cancel_left] at hget
    exact Option.some.inj hget
  have hsplit := quotient_remainder hall hquotient env
  obtain ⟨hnonneg, hlt⟩ := (checksHold_iff hcan stack env).mp h.checks
  rw [hq, hr] at hsplit
  rw [hr] at hnonneg hlt
  constructor
  · intro hfaithful
    have hvalue := hfaithful.value
    omega
  · intro hlost
    exact ⟨by rw [hsplit, hlost, Int.add_zero], hnonneg, hlt⟩

omit [DecidableEq α] in
theorem Faithful.eq_iff {stack' : List α} {env' : α → Int} {old' q' r' : AccessVector α} {delin' : α}
    (h : Faithful stack env old q r delin) (h' : Faithful stack' env' old' q' r' delin')
    (hsize : env delin = env' delin') :
    old.eval stack env = old'.eval stack' env' ↔
      q.eval stack env = q'.eval stack' env' ∧ r.eval stack env = r'.eval stack' env' := by
  have hdiv : ∀ x y s : Int, 0 ≤ y → y < s → (x * s + y) / s = x ∧ (x * s + y) % s = y := fun x y s hy hlt => by
    rw [add_comm, Int.add_mul_ediv_right y x (by omega), Int.add_mul_emod_self_right]
    exact ⟨by rw [Int.ediv_eq_zero_of_lt hy hlt, zero_add], Int.emod_eq_of_lt hy hlt⟩
  obtain ⟨hquot, hrem⟩ := hdiv _ _ _ h.nonneg h.lt
  obtain ⟨hquot', hrem'⟩ := hdiv _ _ _ h'.nonneg h'.lt
  rw [← h.value] at hquot hrem
  rw [← h'.value, ← hsize] at hquot' hrem'
  constructor
  · intro heq
    rw [← hquot, ← hrem, ← hquot', ← hrem', heq]
    exact ⟨rfl, rfl⟩
  · rintro ⟨hq, hr⟩
    rw [h.value, h'.value, hq, hr, hsize]

/-- Two references that are split: when both splits are faithful, so that the old subscripts are equal just when the
new ones are; they are when the numbers of factors fit; an array that is not split stays as it is. -/
theorem delinearize_iff {stack' : List α} {consistent' : AccessVector α → Bool} {dims₂ dims₂' : List (AccessVector α)}
    {dim' : Nat} {env' : α → Int} {old' q' r' : AccessVector α} {delin' : α}
    (h : SplitsTo stack consistent dims dims' dim env old q r delin)
    (h' : SplitsTo stack' consistent' dims₂ dims₂' dim' env' old' q' r' delin') (hsize : env delin = env' delin') :
    ((Faithful stack env old q r delin ∧ Faithful stack' env' old' q' r' delin' ∧
      (old.eval stack env = old'.eval stack' env' ↔
        q.eval stack env = q'.eval stack' env' ∧ r.eval stack env = r'.eval stack' env') ∧
      ∀ dims d dims', delinearize wrapped stack consistent dims d = .ok (dims', none) → dims' = dims) ↔
      lostProducts env delin (old.nonLinSymb.getD []) = 0 ∧
        lostProducts env' delin' (old'.nonLinSymb.getD []) = 0) ∧
    (ProductsFit old → ProductsFit old' → lostProducts env delin (old.nonLinSymb.getD []) = 0 ∧
      lostProducts env' delin' (old'.nonLinSymb.getD []) = 0) := by
  refine ⟨?_, fun hfit hfit' => ⟨h.lostProducts_eq_zero hfit, h'.lostProducts_eq_zero hfit'⟩⟩
  rw [h.faithful_iff, h'.faithful_iff]
  constructor
  · exact fun hsplit => ⟨hsplit.1, hsplit.2.1⟩
  · intro hlost
    refine ⟨hlost.1, hlost.2, ?_, fun dims d dims' hnone => delinearize_none hnone⟩
    exact (h.faithful_iff.mpr hlost.1).eq_iff (h'.faithful_iff.mpr hlost.2) hsize

/-- `i * n + j` at `i = 3`, `j = 2` and at `i = 4`, `j = 1`, for `n = 5`. -/
theorem delinearize_matrix :
    let av : AccessVector Nat := ⟨false, 2, some [0, 1], none, some [⟨[⟨0, true⟩, ⟨2, false⟩], 1⟩], 0⟩
    let env : Nat → Int := fun symbol => [3, 2, 5].getD symbol 0
    let env' : Nat → Int := fun symbol => [4, 1, 5].getD symbol 0
    let q : AccessVector Nat := ⟨false, 2, some [1, 0], none, none, 0⟩
    let r : AccessVector Nat := ⟨false, 2, some [0, 1], some [], none, 0⟩
    Faithful [0, 1] env av q r 2 ∧ Faithful [0, 1] env' av q r 2 ∧
      (av.eval [0, 1] env = av.eval [0, 1] env' ↔
        q.eval [0, 1] env = q.eval [0, 1] env' ∧ r.eval [0, 1] env = r.eval [0, 1] env') ∧
      ∀ dims d dims', delinearize wrapped [0, 1] (fun _ => false) dims d = .ok (dims', none) → dims' = dims := by
  intro av env env' q r
  have hrun : delinearize wrapped [0, 1] (fun _ => false) [av] 0 = .ok ([q, r], some 2) := by decide
  have hcan : canDelinearize checked (fun _ => false) av 2 = .ok true := by decide
  have hchecks : ChecksHold [0, 1] av 2 env := (checksHold_iff hcan [0, 1] env).mpr (by decide)
  have hchecks' : ChecksHold [0, 1] av 2 env' := (checksHold_iff hcan [0, 1] env').mpr (by decide)
  have hsplits : SplitsTo [0, 1] (fun _ => false) [av] [q, r] 0 env av q r 2 := ⟨hrun, by decide, rfl, rfl, rfl, hchecks⟩
  have hsplits' : SplitsTo [0, 1] (fun _ => false) [av] [q, r] 0 env' av q r 2 := ⟨hrun, by decide, rfl, rfl, rfl, hchecks'⟩
  exact (delinearize_iff hsplits hsplits' rfl).1.mpr (by decide)

/-- The power of a symbol. -/
def powerVector (n : Nat) : AccessVector Nat :=
  ⟨false, 0, none, none, some [⟨List.replicate n ⟨0, false⟩, 1⟩], 0⟩

theorem quotient_single {node : SumprodNode α} (hlin : av.linSymb = none) (hnonlin : av.nonLinSymb = some [node])
    (h : quotientProduct stack delin { AccessVector.init av.nestDepth with tooMessy := false } node = .ok (some v)) :
    quotient stack delin av = .ok (some v) := by
  unfold quotient
  rw [hlin, hnonlin]
  simp only [Option.getD_none, Option.getD_some, List.filter_nil, List.foldlM_nil]
  exact bind_eq_ok.mpr ⟨some v, h, rfl⟩

theorem delinearize_single {a : Arith} {node : SumprodNode α} (hnonlin : av.nonLinSymb = some [node])
    (hsymbol : delinSymbol a consistent av [] node.prodList = .ok (some delin))
    (h : quotient stack delin av = .ok (some v)) :
    delinearize a stack consistent [av] 0 = .ok ([v, remainder delin av], some delin) := by
  unfold delinearize
  rw [List.getElem?_cons_zero]
  simp only [hnonlin, Option.getD_some]
  exact bind_eq_ok.mpr ⟨some delin, hsymbol, bind_eq_ok.mpr ⟨some v, h, rfl⟩⟩

theorem quotientProduct_two {prodList : List (SymbolNode Nat)} (hlen : len prodList = 2)
    (hother : otherSymbol 0 prodList = some 0) :
    quotientProduct [] 0 { AccessVector.init 0 with tooMessy := false } ⟨prodList, 1⟩ =
      .ok (some ⟨false, 0, none, some [⟨0, 1⟩], none, 0⟩) := by
  have hadd : addSymbol [] { AccessVector.init 0 with tooMessy := false } 1 (0 : Nat) false =
      .ok ⟨false, 0, none, some [⟨0, 1⟩], none, 0⟩ := by decide
  unfold quotientProduct
  simp only [hlen, hother]
  rw [if_neg (by decide), if_pos trivial]
  exact bind_eq_ok.mpr ⟨_, hadd, rfl⟩

/-- The two conditions of a vector without terms are made without overflow. -/
theorem delinearize_power {a : Arith} (ha : a = wrapped ∨ a = checked) (n : Nat)
    (hlen : len (List.replicate (n + 2) (⟨0, false⟩ : SymbolNode Nat)) = 2) :
    delinearize a [] (fun _ => false) [powerVector (n + 2)] 0 =
      .ok ([⟨false, 0, none, some [⟨0, 1⟩], none, 0⟩, ⟨false, 0, none, some [], none, 0⟩], some 0) := by
  refine delinearize_single rfl (bind_eq_ok.mpr ⟨true, ?_, rfl⟩) (quotient_single rfl rfl (quotientProduct_two hlen rfl))
  rcases ha with rfl | rfl
  · rfl
  · rfl

/-- A product of 65538 factors is taken for one of two. -/
theorem delinearize_loses_factors : ∃ n, n = 65536 ∧
    SplitsTo [] (fun _ => false) [powerVector (n + 2)]
      [⟨false, 0, none, some [⟨0, 1⟩], none, 0⟩, ⟨false, 0, none, some [], none, 0⟩] 0 (fun _ => 2)
      (powerVector (n + 2)) ⟨false, 0, none, some [⟨0, 1⟩], none, 0⟩ ⟨false, 0, none, some [], none, 0⟩ 0 ∧
    ¬Faithful [] (fun _ => 2) (powerVector (n + 2)) ⟨false, 0, none, some [⟨0, 1⟩], none, 0⟩
      ⟨false, 0, none, some [], none, 0⟩ 0 := by
  obtain ⟨n, hn⟩ : ∃ n : Nat, n = 65536 := exists_eq
  have hlen : len (List.replicate (n + 2) (⟨0, false⟩ : SymbolNode Nat)) = 2 := by
    have hone : len (List.replicate (n + 1) (⟨0, false⟩ : SymbolNode Nat)) = 1 := by
      obtain ⟨m, rfl⟩ : ∃ m, n = m + 1 := ⟨n - 1, by omega⟩
      unfold len
      rw [List.length_replicate]
      exact bmod_eq_one (by omega)
    exact len_eq_two (by rw [List.length_replicate, List.length_replicate]) hone
  have hcan : canDelinearize checked (fun _ => false) (powerVector (n + 2)) 0 = .ok true := rfl
  have hchecks : ChecksHold [] (powerVector (n + 2)) 0 (fun _ => 2) :=
    (checksHold_iff hcan [] fun _ => 2).mpr ⟨le_rfl, zero_lt_two⟩
  refine ⟨n, hn, ⟨delinearize_power (Or.inl rfl) n hlen, ?_, rfl, rfl, rfl, hchecks⟩, ?_⟩
  · rw [delinearize_power (Or.inr rfl) n hlen]
    nofun
  intro hfaithful
  have hvalue := hfaithful.value
  have hpower : (powerVector (n + 2)).eval [] (fun _ => 2) = 2 ^ (n + 2) := by
    simp [powerVector, AccessVector.eval, AccessVector.loopCoeff, linValue, sumprodValue, prodValue]
  have hquot : AccessVector.eval (⟨false, 0, none, some [⟨0, 1⟩], none, 0⟩ : AccessVector Nat) [] (fun _ => 2) = 2 := rfl
  have hrem : AccessVector.eval (⟨false, 0, none, some [], none, 0⟩ : AccessVector Nat) [] (fun _ => 2) = 0 := rfl
  rw [hpower, hquot, hrem] at hvalue
  have hbig : (2 : Int) ^ 3 ≤ 2 ^ (n + 2) := pow_le_pow_right₀ (by decide) (by omega)
  omega

end Path64.Access

import Path64.Access.Exact
import Path64.Lib.Wrap

/-!
# The algebra of access vectors

`Add`, `Subtract` and `Mul` of `access_vector.cxx`, for vectors and for lists of symbols.

* `mergeNode`, `mergeLists` : `Add` and `Subtract` of two lists, by symbol; `mulList` : `Mul` of a list;
* `combineVectors`, with `addVectors` and `subtractVectors` : the functions for vectors; `mulVector` : `Mul`, which also
  changes its operand; a fault stands for a sum or product that overflows, and a null pointer that is followed;
* `Proper` : no symbol twice, no coefficient 0; `mergeLists_iff`, `combineVectors_iff` : sums and differences are right as
  long as nothing overflows;
* `algebra_iff` : when all three functions agree with evaluation.
-/

namespace Path64.Access

open Lib

variable {α : Type} [DecidableEq α]

/-! ## Lists of symbols -/

/-- Adds `sign` times a node to the node with its symbol, which is removed when nothing is left. -/
def updateNode (sign : Int) (node2 : IntsymbNode α) :
    List (IntsymbNode α) → Except Fault (Option (List (IntsymbNode α)))
  | [] => .ok none
  | node :: l =>
    if node.symbol = node2.symbol then do
      let coeff ← int32 .overflow (node.coeff + sign * node2.coeff)
      return some (if coeff = 0 then l else ⟨node.symbol, coeff⟩ :: l)
    else do
      let r ← updateNode sign node2 l
      return r.map (node :: ·)

/-- One node of the second list: a symbol that the result does not have yet is prepended. -/
def mergeNode (sign : Int) (res : List (IntsymbNode α)) (node2 : IntsymbNode α) :
    Except Fault (List (IntsymbNode α)) := do
  match ← updateNode sign node2 res with
  | some res => return res
  | none => do
    let coeff ← int32 .overflow (sign * node2.coeff)
    return ⟨node2.symbol, coeff⟩ :: res

/-- `Add` and `Subtract` of two `INTSYMB_LIST`, with the sign of the second. -/
def mergeLists (sign : Int) (list1 list2 : Option (List (IntsymbNode α))) :
    Except Fault (Option (List (IntsymbNode α))) :=
  let res := list1.getD []
  match list2 with
  | none => .ok (some res)
  | some list2 => do
    let res ← list2.foldlM (mergeNode sign) res
    return if res.isEmpty then none else some res

/-- `Mul` of an `INTSYMB_LIST`. -/
def mulList (c : Int) (list : Option (List (IntsymbNode α))) : Except Fault (Option (List (IntsymbNode α))) :=
  match list with
  | none => .ok none
  | some list =>
    if c = 0 then .ok none
    else do
      let res ← list.mapM fun node => do
        let coeff ← int32 .overflow (node.coeff * c)
        return { node with coeff }
      return some res

/-! ## Vectors -/

/-- The coefficients of products, each times `c`. -/
def scaleProducts (c : Int) (l : List (SumprodNode α)) : Except Fault (List (SumprodNode α)) :=
  l.mapM fun node => do
    let coeff ← int32 .overflow (node.coeff * c)
    return { node with coeff }

/-- `Add` and `Subtract` of two vectors, with the sign of the second. -/
def combineVectors (sign : Int) (v1 v2 : AccessVector α) : Except Fault (Option (AccessVector α)) :=
  if v1.nestDepth ≠ v2.nestDepth then .ok none
  else if v1.tooMessy || v2.tooMessy then .ok (some (.init 0))
  else do
    let offset ← int64 .overflow (v1.constOffset + sign * v2.constOffset)
    let lcoeff ← (List.range v1.nestDepth).mapM fun i => int32 .overflow (v1.loopCoeff i + sign * v2.loopCoeff i)
    let linSymb ← mergeLists sign v1.linSymb v2.linSymb
    let nonLinSymb ← scaleProducts sign (v2.nonLinSymb.getD [])
    return some ⟨false, v1.nestDepth, some lcoeff, linSymb, some (v1.nonLinSymb.getD [] ++ nonLinSymb), offset⟩

/-- `Add`. -/
def addVectors (v1 v2 : AccessVector α) : Except Fault (Option (AccessVector α)) := combineVectors 1 v1 v2

/-- `Subtract`. -/
def subtractVectors (v1 v2 : AccessVector α) : Except Fault (Option (AccessVector α)) := combineVectors (-1) v1 v2

/-- The loop over `_lcoeff`, which has to be there. -/
def mulLoops (c : Int) (v : AccessVector α) : Except Fault (Option (List Int)) :=
  match v.lcoeff with
  | some lcoeff => do
    let lcoeff ← lcoeff.mapM fun coeff => int32 .overflow (coeff * c)
    return some lcoeff
  | none => if v.nestDepth = 0 then .ok none else .error .nullPointer

/-- `Mul`: the result, and what is left in the operand. -/
def mulVector (c : Int) (v : AccessVector α) : Except Fault (AccessVector α × AccessVector α) :=
  if v.tooMessy then .ok (v, v)
  else do
    let lcoeff ← mulLoops c v
    let linSymb ← mulList c v.linSymb
    -- the products that are scaled are those of the operand
    match v.nonLinSymb with
    | some l => do
      let l ← scaleProducts c l
      return ({ v with lcoeff, linSymb }, { v with nonLinSymb := some l })
    | none => return ({ v with lcoeff, linSymb }, v)

/-! ## Merging -/

/-- No symbol twice, and no coefficient 0. -/
structure Proper (l : List (IntsymbNode α)) : Prop where
  nodup : (l.map (·.symbol)).Nodup
  nonzero : ∀ node ∈ l, node.coeff ≠ 0

/-- The coefficient of a symbol. -/
def coeffIn (symbol : α) : List (IntsymbNode α) → Int
  | [] => 0
  | node :: l => if node.symbol = symbol then node.coeff else coeffIn symbol l

/-- The symbols with coefficient 0 are on the second list as well. -/
def ZerosOn (l list2 : List (IntsymbNode α)) : Prop :=
  ∀ node ∈ l, node.coeff = 0 → node.symbol ∈ list2.map (·.symbol)

variable {sign c x y : Int} {e : Fault} {symbol : α} {node node2 : IntsymbNode α}
  {l l' res list2 : List (IntsymbNode α)}

theorem int32_iff : int32 e x = .ok y ↔ InInt32 x ∧ y = x := by
  unfold int32
  split_ifs with h
  · exact ⟨fun heq => ⟨h, (Except.ok.inj heq).symm⟩, fun heq => by rw [heq.2]⟩
  · exact iff_of_false (fun heq => (nomatch heq)) fun heq => h heq.1

theorem bind_int32_eq_ok {β : Type} {f : Int → β} {b : β} :
    (int32 Fault.overflow x >>= fun coeff => (return f coeff)) = .ok b ↔ InInt32 x ∧ b = f x := by
  rw [bind_eq_ok]
  constructor
  · rintro ⟨coeff, hcoeff, h⟩
    obtain ⟨hfit, rfl⟩ := int32_iff.mp hcoeff
    exact ⟨hfit, (Except.ok.inj h).symm⟩
  · rintro ⟨hfit, rfl⟩
    exact ⟨x, int32_iff.mpr ⟨hfit, rfl⟩, rfl⟩

theorem int32_error (h : ¬InInt32 x) : int32 e x = .error e := if_neg h

theorem int64_iff : int64 e x = .ok y ↔ InInt64 x ∧ y = x := by
  unfold int64
  split_ifs with h
  · exact ⟨fun heq => ⟨h, (Except.ok.inj heq).symm⟩, fun heq => by rw [heq.2]⟩
  · exact iff_of_false (fun heq => (nomatch heq)) fun heq => h heq.1

theorem coeffIn_of_notMem (h : symbol ∉ l.map (·.symbol)) : coeffIn symbol l = 0 := by
  induction l with
  | nil => rfl
  | cons node l ih =>
    rw [List.map_cons, List.mem_cons, not_or] at h
    rw [coeffIn, if_neg fun heq => h.1 heq.symm]
    exact ih h.2

omit [DecidableEq α] in
theorem mem_symbols : symbol ∈ l.map (·.symbol) ↔ ∃ node ∈ l, node.symbol = symbol := List.mem_map

/-- What one node of the second list changes. -/
structure Merged (sign : Int) (node2 : IntsymbNode α) (l l' : List (IntsymbNode α)) : Prop where
  value : ∀ env, linValue env l' = linValue env l + sign * (node2.coeff * env node2.symbol)
  coeff : ∀ symbol ≠ node2.symbol, coeffIn symbol l' = coeffIn symbol l
  others : ∀ node : IntsymbNode α, node.symbol ≠ node2.symbol → (node ∈ l' ↔ node ∈ l)
  nodup : (l.map (·.symbol)).Nodup → (l'.map (·.symbol)).Nodup
  zero : (l.map (·.symbol)).Nodup →
    ((∃ node ∈ l', node.symbol = node2.symbol ∧ node.coeff = 0) ↔
      node2.symbol ∉ l.map (·.symbol) ∧ sign * node2.coeff = 0)

theorem Merged.symbols (h : Merged sign node2 l l') (hne : symbol ≠ node2.symbol) :
    symbol ∈ l'.map (·.symbol) ↔ symbol ∈ l.map (·.symbol) := by
  rw [mem_symbols, mem_symbols]
  refine exists_congr fun node => and_congr_left fun hsymbol => h.others node ?_
  rw [hsymbol]
  exact hne

/-- The node of the symbol is the first: it changes, or goes away. -/
theorem merged_head (h : node.symbol = node2.symbol) :
    Merged sign node2 (node :: l)
      (if node.coeff + sign * node2.coeff = 0 then l
        else ⟨node.symbol, node.coeff + sign * node2.coeff⟩ :: l) := by
  have hskip : ∀ symbol ≠ node2.symbol, ∀ k, coeffIn symbol (⟨node.symbol, k⟩ :: l) = coeffIn symbol l :=
    fun symbol hne k => if_neg fun heq => hne (heq.symm.trans h)
  have htail : ∀ (n m : IntsymbNode α), n.symbol ≠ node2.symbol → m.symbol = node2.symbol →
      (n ∈ m :: l ↔ n ∈ l) := fun n m hn hm => by
    rw [List.mem_cons, or_iff_right]
    rintro rfl
    exact hn hm
  constructor
  · intro env
    rw [← h, linValue_cons]
    split_ifs with hzero
    · linear_combination -env node.symbol * hzero
    · rw [linValue_cons]
      ring
  · intro symbol hne
    split_ifs
    · exact (hskip symbol hne node.coeff).symm
    · exact (hskip symbol hne _).trans (hskip symbol hne node.coeff).symm
  · intro n hn
    rw [htail n node hn h]
    split_ifs
    · exact Iff.rfl
    · exact htail n _ hn h
  · intro hnodup
    split_ifs
    · exact (List.nodup_cons.mp hnodup).2
    · exact hnodup
  · intro hnodup
    have hnew := (List.nodup_cons.mp hnodup).1
    refine iff_of_false ?_ fun hold => hold.1 (h ▸ List.mem_cons_self)
    rintro ⟨n, hn, hsymbol, hcoeff⟩
    have hold : n ∉ l := fun hmem => hnew (mem_symbols.mpr ⟨n, hmem, hsymbol.trans h.symm⟩)
    split_ifs at hn with hzero
    · exact hold hn
    · rcases List.mem_cons.mp hn with rfl | hn
      · exact hzero hcoeff
      · exact hold hn

theorem Merged.cons (h : Merged sign node2 l l') (hne : node.symbol ≠ node2.symbol) :
    Merged sign node2 (node :: l) (node :: l') := by
  constructor
  · intro env
    rw [linValue_cons, linValue_cons, h.value]
    ring
  · intro symbol hsymbol
    rw [coeffIn, coeffIn, h.coeff symbol hsymbol]
  · intro n hn
    rw [List.mem_cons, List.mem_cons, h.others n hn]
  · intro hnodup
    obtain ⟨hnew, hnodup⟩ := List.nodup_cons.mp hnodup
    exact List.nodup_cons.mpr ⟨fun hmem => hnew ((h.symbols hne).mp hmem), h.nodup hnodup⟩
  · intro hnodup
    have hmem : node2.symbol ∈ (node :: l).map (·.symbol) ↔ node2.symbol ∈ l.map (·.symbol) := by
      rw [List.map_cons, List.mem_cons, or_iff_right hne.symm]
    rw [hmem, ← h.zero (List.nodup_cons.mp hnodup).2]
    refine exists_congr fun n => ⟨?_, fun hn => ⟨List.mem_cons_of_mem _ hn.1, hn.2⟩⟩
    rintro ⟨hn, hsymbol, hcoeff⟩
    rcases List.mem_cons.mp hn with rfl | hn
    · exact absurd hsymbol hne
    · exact ⟨hn, hsymbol, hcoeff⟩

theorem merged_new (hnew : node2.symbol ∉ l.map (·.symbol)) :
    Merged sign node2 l (⟨node2.symbol, sign * node2.coeff⟩ :: l) := by
  constructor
  · intro env
    rw [linValue_cons]
    ring
  · exact fun symbol hne => if_neg fun h => hne h.symm
  · intro n hn
    rw [List.mem_cons, or_iff_right]
    rintro rfl
    exact hn rfl
  · exact fun hnodup => List.nodup_cons.mpr ⟨hnew, hnodup⟩
  · refine fun _ => ⟨?_, fun h => ⟨_, List.mem_cons_self, rfl, h.2⟩⟩
    rintro ⟨n, hn, hsymbol, hcoeff⟩
    rcases List.mem_cons.mp hn with rfl | hn
    · exact ⟨hnew, hcoeff⟩
    · exact absurd (mem_symbols.mpr ⟨n, hn, hsymbol⟩) hnew

/-- The update of a node: it succeeds as long as the sum fits. -/
theorem updateNode_cases (sign : Int) (node2 : IntsymbNode α) (l : List (IntsymbNode α)) :
    (node2.symbol ∉ l.map (·.symbol) ∧ updateNode sign node2 l = .ok none) ∨
    (¬InInt32 (coeffIn node2.symbol l + sign * node2.coeff) ∧ ∃ e, updateNode sign node2 l = .error e) ∨
    (InInt32 (coeffIn node2.symbol l + sign * node2.coeff) ∧
      ∃ l', updateNode sign node2 l = .ok (some l') ∧ Merged sign node2 l l') := by
  induction l with
  | nil => exact Or.inl ⟨List.not_mem_nil, rfl⟩
  | cons node l ih =>
    by_cases hsymbol : node.symbol = node2.symbol
    · have hcoeff : coeffIn node2.symbol (node :: l) = node.coeff := if_pos hsymbol
      rw [updateNode, if_pos hsymbol, hcoeff]
      by_cases hfit : InInt32 (node.coeff + sign * node2.coeff)
      · exact Or.inr (Or.inr ⟨hfit, _, bind_eq_ok.mpr ⟨_, int32_iff.mpr ⟨hfit, rfl⟩, rfl⟩, merged_head hsymbol⟩)
      · refine Or.inr (Or.inl ⟨hfit, .overflow, ?_⟩)
        rw [int32_error hfit]
        rfl
    · have hcoeff : coeffIn node2.symbol (node :: l) = coeffIn node2.symbol l := if_neg hsymbol
      rw [updateNode, if_neg hsymbol, hcoeff]
      rcases ih with ⟨hnew, hupdate⟩ | ⟨hfit, e, hupdate⟩ | ⟨hfit, l', hupdate, hmerged⟩
      · refine Or.inl ⟨?_, by rw [hupdate]; rfl⟩
        rw [List.map_cons, List.mem_cons, not_or]
        exact ⟨fun h => hsymbol h.symm, hnew⟩
      · exact Or.inr (Or.inl ⟨hfit, e, by rw [hupdate]; rfl⟩)
      · exact Or.inr (Or.inr ⟨hfit, node :: l', by rw [hupdate]; rfl, hmerged.cons hsymbol⟩)

theorem mergeNode_cases (sign : Int) (l : List (IntsymbNode α)) (node2 : IntsymbNode α) :
    (¬InInt32 (coeffIn node2.symbol l + sign * node2.coeff) ∧ ∃ e, mergeNode sign l node2 = .error e) ∨
    (InInt32 (coeffIn node2.symbol l + sign * node2.coeff) ∧
      ∃ l', mergeNode sign l node2 = .ok l' ∧ Merged sign node2 l l') := by
  rcases updateNode_cases sign node2 l with ⟨hnew, hupdate⟩ | ⟨hfit, e, hupdate⟩ | ⟨hfit, l', hupdate, hmerged⟩
  · rw [mergeNode, hupdate, coeffIn_of_notMem hnew, Int.zero_add]
    by_cases hfit : InInt32 (sign * node2.coeff)
    · exact Or.inr ⟨hfit, _, bind_eq_ok.mpr ⟨none, rfl, bind_eq_ok.mpr ⟨_, int32_iff.mpr ⟨hfit, rfl⟩, rfl⟩⟩,
        merged_new hnew⟩
    · refine Or.inl ⟨hfit, .overflow, ?_⟩
      show (int32 Fault.overflow _ >>= _) = _
      rw [int32_error hfit]
      rfl
  · exact Or.inl ⟨hfit, e, by rw [mergeNode, hupdate]; rfl⟩
  · exact Or.inr ⟨hfit, l', by rw [mergeNode, hupdate]; rfl, hmerged⟩

/-- What the second list changes. -/
structure MergedAll (sign : Int) (list2 l l' : List (IntsymbNode α)) : Prop where
  value : ∀ env, linValue env l' = linValue env l + sign * linValue env list2
  proper : (l.map (·.symbol)).Nodup → (Proper l' ↔ ZerosOn l list2 ∧ ZerosOn list2 l)

/-- One node, and then the others. -/
theorem Merged.trans (hne : sign ≠ 0) (hnew : node2.symbol ∉ list2.map (·.symbol)) (h : Merged sign node2 l res)
    (hrest : MergedAll sign list2 res l') : MergedAll sign (node2 :: list2) l l' := by
  have hother : ∀ node ∈ list2, node.symbol ≠ node2.symbol :=
    fun node hnode heq => hnew (mem_symbols.mpr ⟨node, hnode, heq⟩)
  refine ⟨fun env => ?_, fun hnodup => ?_⟩
  · rw [hrest.value, h.value, linValue_cons]
    ring
  · have hzero := h.zero hnodup
    rw [mul_eq_zero, or_iff_right hne] at hzero
    have hleft : ZerosOn res list2 ↔
        ZerosOn l (node2 :: list2) ∧ (node2.coeff = 0 → node2.symbol ∈ l.map (·.symbol)) := by
      constructor
      · refine fun hres => ⟨fun node hnode hcoeff => ?_, fun hcoeff => ?_⟩
        · by_cases hsymbol : node.symbol = node2.symbol
          · exact hsymbol ▸ List.mem_cons_self
          · exact List.mem_cons_of_mem _ (hres node ((h.others node hsymbol).mpr hnode) hcoeff)
        · by_contra hold
          obtain ⟨node, hnode, hsymbol, hcoeff⟩ := hzero.mpr ⟨hold, hcoeff⟩
          exact hnew (hsymbol ▸ hres node hnode hcoeff)
      · rintro ⟨hl, hnode2⟩ node hnode hcoeff
        by_cases hsymbol : node.symbol = node2.symbol
        · obtain ⟨hold, hcoeff⟩ := hzero.mp ⟨node, hnode, hsymbol, hcoeff⟩
          exact absurd (hnode2 hcoeff) hold
        · rcases List.mem_cons.mp (hl node ((h.others node hsymbol).mp hnode) hcoeff) with heq | hmem
          · exact absurd heq hsymbol
          · exact hmem
    have hright : ZerosOn list2 res ↔ ZerosOn list2 l :=
      forall₂_congr fun node hnode => imp_congr Iff.rfl (h.symbols (hother node hnode))
    have hcons : ZerosOn (node2 :: list2) l ↔
        (node2.coeff = 0 → node2.symbol ∈ l.map (·.symbol)) ∧ ZerosOn list2 l := List.forall_mem_cons
    rw [hrest.proper (h.nodup hnodup), hleft, hright, hcons, and_assoc]

theorem foldlM_mergeNode (hne : sign ≠ 0) (hnodup : (list2.map (·.symbol)).Nodup) (res : List (IntsymbNode α)) :
    ((∃ node ∈ list2, ¬InInt32 (coeffIn node.symbol res + sign * node.coeff)) ∧
      ∃ e, list2.foldlM (mergeNode sign) res = .error e) ∨
    ((∀ node ∈ list2, InInt32 (coeffIn node.symbol res + sign * node.coeff)) ∧
      ∃ l', list2.foldlM (mergeNode sign) res = .ok l' ∧ MergedAll sign list2 res l') := by
  induction list2 generalizing res with
  | nil =>
    refine Or.inr ⟨fun _ h => (nomatch h), res, rfl, fun env => ?_, fun hres => ?_⟩
    · simp [linValue]
    · refine ⟨fun h => ⟨fun node hnode hcoeff => absurd hcoeff (h.nonzero node hnode), fun _ h => (nomatch h)⟩, ?_⟩
      exact fun h => ⟨hres, fun node hnode hcoeff => List.not_mem_nil (h.1 node hnode hcoeff)⟩
  | cons node2 list2 ih =>
    obtain ⟨hnew, hnodup⟩ := List.nodup_cons.mp hnodup
    rcases mergeNode_cases sign res node2 with ⟨hfit, e, hmerge⟩ | ⟨hfit, res', hmerge, hmerged⟩
    · exact Or.inl ⟨⟨node2, List.mem_cons_self, hfit⟩, e, by rw [List.foldlM_cons, hmerge]; rfl⟩
    · have hsame : ∀ node ∈ list2, coeffIn node.symbol res' = coeffIn node.symbol res := fun node hnode =>
        hmerged.coeff _ fun h => hnew (mem_symbols.mpr ⟨node, hnode, h⟩)
      rcases ih hnodup res' with ⟨⟨node, hnode, hover⟩, e, hfold⟩ | ⟨hall, l', hfold, hrest⟩
      · refine Or.inl ⟨⟨node, List.mem_cons_of_mem _ hnode, hsame node hnode ▸ hover⟩, e, ?_⟩
        rw [List.foldlM_cons, hmerge]
        exact hfold
      · refine Or.inr ⟨?_, l', ?_, hmerged.trans hne hnew hrest⟩
        · rw [List.forall_mem_cons]
          exact ⟨hfit, fun node hnode => hsame node hnode ▸ hall node hnode⟩
        · rw [List.foldlM_cons, hmerge]
          exact hfold

theorem mergeLists_cases (hne : sign ≠ 0) (list1 : Option (List (IntsymbNode α)))
    {list2 : Option (List (IntsymbNode α))}
    (hnodup : ((list2.getD []).map (·.symbol)).Nodup) :
    ((∃ node ∈ list2.getD [], ¬InInt32 (coeffIn node.symbol (list1.getD []) + sign * node.coeff)) ∧
      ∃ e, mergeLists sign list1 list2 = .error e) ∨
    ((∀ node ∈ list2.getD [], InInt32 (coeffIn node.symbol (list1.getD []) + sign * node.coeff)) ∧
      ∃ r, mergeLists sign list1 list2 = .ok r ∧
        MergedAll sign (list2.getD []) (list1.getD []) (r.getD [])) := by
  have hcases := foldlM_mergeNode hne hnodup (list1.getD [])
  cases list2 with
  | none =>
    rcases hcases with ⟨⟨_, hnode, -⟩, -⟩ | ⟨hfit, l', hfold, hmerged⟩
    · exact (nomatch hnode)
    · cases hfold
      exact Or.inr ⟨hfit, _, rfl, hmerged⟩
  | some list2 =>
    rcases hcases with ⟨hover, e, hfold⟩ | ⟨hfit, l', hfold, hmerged⟩
    · refine Or.inl ⟨hover, e, ?_⟩
      show (list2.foldlM (mergeNode sign) (list1.getD []) >>= _) = _
      rw [show list2.foldlM (mergeNode sign) (list1.getD []) = .error e from hfold]
      rfl
    · have hget : (if l'.isEmpty then none else some l').getD [] = l' := by
        cases l' <;> rfl
      exact Or.inr ⟨hfit, _, bind_eq_ok.mpr ⟨l', hfold, rfl⟩, hget.symm ▸ hmerged⟩

/-! ## Sums of vectors -/

variable {v a b r : AccessVector α} {stack : List α} {env : α → Int}

/-- A vector with a place for every loop, and no symbol twice. -/
structure Regular (v : AccessVector α) : Prop where
  notMessy : v.tooMessy = false
  lcoeff : ∀ l ∈ v.lcoeff, l.length = v.nestDepth
  symbols : ((v.linSymb.getD []).map (·.symbol)).Nodup

/-- What a result should be: the value `x`, no symbol twice, and no coefficient 0. -/
structure Represents (v : AccessVector α) (stack : List α) (env : α → Int) (x : Int) : Prop where
  notMessy : v.tooMessy = false
  eval : v.eval stack env = x
  symbols : Proper (v.linSymb.getD [])
  products : ∀ node ∈ v.nonLinSymb.getD [], node.coeff ≠ 0

/-- Two vectors of one nest whose sums are of the types of the coefficients. -/
structure Combinable (sign : Int) (a b : AccessVector α) : Prop where
  nestDepth : a.nestDepth = b.nestDepth
  offset : InInt64 (a.constOffset + sign * b.constOffset)
  loops : ∀ i < a.nestDepth, InInt32 (a.loopCoeff i + sign * b.loopCoeff i)
  symbols : ∀ node ∈ b.linSymb.getD [], InInt32 (coeffIn node.symbol (a.linSymb.getD []) + sign * node.coeff)
  products : ∀ node ∈ b.nonLinSymb.getD [], InInt32 (node.coeff * sign)

/-- Where two vectors have coefficients 0, these go away. -/
structure ZeroFree (a b : AccessVector α) : Prop where
  left : ZerosOn (a.linSymb.getD []) (b.linSymb.getD [])
  right : ZerosOn (b.linSymb.getD []) (a.linSymb.getD [])
  products : ∀ node ∈ a.nonLinSymb.getD [] ++ b.nonLinSymb.getD [], node.coeff ≠ 0

omit [DecidableEq α] in
theorem loopCoeff_of_le (v : AccessVector α) {i : Nat} (h : v.nestDepth ≤ i) : v.loopCoeff i = 0 := by
  unfold AccessVector.loopCoeff
  split
  · exact if_neg (Nat.not_lt.mpr h)
  · rfl

omit [DecidableEq α] in
theorem setCoeff_eq_ok {node' : IntsymbNode α} :
    (int32 Fault.overflow x >>= fun coeff => (return { node with coeff := coeff })) = .ok node' ↔
      InInt32 x ∧ node' = { node with coeff := x } :=
  bind_int32_eq_ok

omit [DecidableEq α] in
theorem setProduct_eq_ok {node node' : SumprodNode α} :
    (int32 Fault.overflow x >>= fun coeff => (return { node with coeff := coeff })) = .ok node' ↔
      InInt32 x ∧ node' = { node with coeff := x } :=
  bind_int32_eq_ok

omit [DecidableEq α] in
theorem scaleProducts_eq_ok {l l' : List (SumprodNode α)} : scaleProducts c l = .ok l' ↔
    (∀ node ∈ l, InInt32 (node.coeff * c)) ∧ l' = l.map fun node => { node with coeff := node.coeff * c } :=
  mapM_eq_ok fun _ _ => setProduct_eq_ok

omit [DecidableEq α] in
theorem sumprodValue_scale (env : α → Int) (c : Int) (l : List (SumprodNode α)) :
    sumprodValue env (l.map fun node => { node with coeff := node.coeff * c }) = c * sumprodValue env l := by
  induction l with
  | nil => rw [List.map_nil, sumprodValue, List.map_nil, List.sum_nil, mul_zero]
  | cons node l ih =>
    rw [List.map_cons, sumprodValue_cons, sumprodValue_cons, ih]
    ring

/-- The steps of a sum. -/
theorem combineVectors_eq_ok (ha : a.tooMessy = false) (hb : b.tooMessy = false) :
    combineVectors sign a b = .ok (some r) ↔
      a.nestDepth = b.nestDepth ∧ InInt64 (a.constOffset + sign * b.constOffset) ∧
      (∀ i < a.nestDepth, InInt32 (a.loopCoeff i + sign * b.loopCoeff i)) ∧
      (∀ node ∈ b.nonLinSymb.getD [], InInt32 (node.coeff * sign)) ∧
      ∃ linSymb, mergeLists sign a.linSymb b.linSymb = .ok linSymb ∧
        r = ⟨false, a.nestDepth,
          some ((List.range a.nestDepth).map fun i => a.loopCoeff i + sign * b.loopCoeff i), linSymb,
          some (a.nonLinSymb.getD [] ++
            (b.nonLinSymb.getD []).map fun node => { node with coeff := node.coeff * sign }),
          a.constOffset + sign * b.constOffset⟩ := by
  have hloops : ∀ l : List Int, (List.range a.nestDepth).mapM
      (fun i => int32 Fault.overflow (a.loopCoeff i + sign * b.loopCoeff i)) = .ok l ↔
      (∀ i < a.nestDepth, InInt32 (a.loopCoeff i + sign * b.loopCoeff i)) ∧
        l = (List.range a.nestDepth).map fun i => a.loopCoeff i + sign * b.loopCoeff i := fun l => by
    rw [mapM_eq_ok (fun i y => int32_iff)]
    simp only [List.mem_range]
  have hmessy : (a.tooMessy || b.tooMessy) = false := by rw [ha, hb]; rfl
  unfold combineVectors
  by_cases hdepth : a.nestDepth = b.nestDepth
  · rw [if_neg (not_not.mpr hdepth), if_neg (Bool.eq_false_iff.mp hmessy)]
    constructor
    · intro h
      obtain ⟨offset, hoffset, h⟩ := bind_eq_ok.mp h
      obtain ⟨hsum, rfl⟩ := int64_iff.mp hoffset
      obtain ⟨lcoeff, hlcoeff, h⟩ := bind_eq_ok.mp h
      obtain ⟨hsums, rfl⟩ := (hloops lcoeff).mp hlcoeff
      obtain ⟨linSymb, hlin, h⟩ := bind_eq_ok.mp h
      obtain ⟨nonLinSymb, hnonlin, h⟩ := bind_eq_ok.mp h
      obtain ⟨hproducts, rfl⟩ := scaleProducts_eq_ok.mp hnonlin
      cases h
      exact ⟨hdepth, hsum, hsums, hproducts, linSymb, hlin, rfl⟩
    · rintro ⟨-, hoffset, hlcoeff, hnonlin, linSymb, hlin, rfl⟩
      refine bind_eq_ok.mpr ⟨_, int64_iff.mpr ⟨hoffset, rfl⟩, ?_⟩
      refine bind_eq_ok.mpr ⟨_, (hloops _).mpr ⟨hlcoeff, rfl⟩, ?_⟩
      refine bind_eq_ok.mpr ⟨linSymb, hlin, ?_⟩
      exact bind_eq_ok.mpr ⟨_, scaleProducts_eq_ok.mpr ⟨hnonlin, rfl⟩, rfl⟩
  · rw [if_pos hdepth]
    exact iff_of_false (fun h => nomatch h) fun h => hdepth h.1

omit [DecidableEq α] in
theorem eval_combined (hdepth : a.nestDepth = b.nestDepth) {linSymb : Option (List (IntsymbNode α))}
    (hlin : linValue env (linSymb.getD []) =
      linValue env (a.linSymb.getD []) + sign * linValue env (b.linSymb.getD [])) :
    AccessVector.eval ⟨false, a.nestDepth,
        some ((List.range a.nestDepth).map fun i => a.loopCoeff i + sign * b.loopCoeff i), linSymb,
        some (a.nonLinSymb.getD [] ++
          (b.nonLinSymb.getD []).map fun node => { node with coeff := node.coeff * sign }),
        a.constOffset + sign * b.constOffset⟩ stack env =
      a.eval stack env + sign * b.eval stack env := by
  have hcoeff : ∀ i, AccessVector.loopCoeff ⟨false, a.nestDepth,
        some ((List.range a.nestDepth).map fun i => a.loopCoeff i + sign * b.loopCoeff i), linSymb,
        some (a.nonLinSymb.getD [] ++
          (b.nonLinSymb.getD []).map fun node => { node with coeff := node.coeff * sign }),
        a.constOffset + sign * b.constOffset⟩ i = a.loopCoeff i + sign * b.loopCoeff i := fun i => by
    by_cases hi : i < a.nestDepth
    · show (if i < a.nestDepth then ((List.range a.nestDepth).map _).getD i 0 else 0) = _
      rw [if_pos hi, List.getD_eq_getElem?_getD, List.getElem?_map, List.getElem?_range hi]
      rfl
    · have hle := Nat.le_of_not_lt hi
      rw [loopCoeff_of_le a hle, loopCoeff_of_le b (hdepth ▸ hle), mul_zero, add_zero]
      exact loopCoeff_of_le _ hle
  unfold AccessVector.eval
  simp only [hcoeff, Option.getD_some, hlin, sumprodValue_append, sumprodValue_scale, add_mul,
    Finset.sum_add_distrib, mul_assoc, ← Finset.mul_sum]
  ring

/-- `Add` and `Subtract` are right just when nothing overflows and no coefficient 0 stays. -/
theorem combineVectors_iff (hne : sign ≠ 0) (ha : Regular a) (hb : Regular b) (stack : List α) (env : α → Int) :
    (∃ r, combineVectors sign a b = .ok (some r) ∧
      Represents r stack env (a.eval stack env + sign * b.eval stack env)) ↔
      Combinable sign a b ∧ ZeroFree a b := by
  have hproducts : (∀ node ∈ a.nonLinSymb.getD [] ++
      (b.nonLinSymb.getD []).map fun node => { node with coeff := node.coeff * sign }, node.coeff ≠ 0) ↔
      ∀ node ∈ a.nonLinSymb.getD [] ++ b.nonLinSymb.getD [], node.coeff ≠ 0 := by
    rw [List.forall_mem_append, List.forall_mem_append, List.forall_mem_map]
    simp only [mul_ne_zero_iff_right hne]
  constructor
  · rintro ⟨r, hr, hright⟩
    obtain ⟨hdepth, hoffset, hloops, hfit, linSymb, hlin, rfl⟩ :=
      (combineVectors_eq_ok ha.notMessy hb.notMessy).mp hr
    rcases mergeLists_cases hne a.linSymb hb.symbols with ⟨-, e, hmerge⟩ | ⟨hsymbols, l, hmerge, hmerged⟩
    · rw [hmerge] at hlin
      cases hlin
    · rw [hmerge] at hlin
      cases hlin
      obtain ⟨hleft, hright'⟩ := (hmerged.proper ha.symbols).mp hright.symbols
      exact ⟨⟨hdepth, hoffset, hloops, hsymbols, hfit⟩, hleft, hright', hproducts.mp hright.products⟩
  · rintro ⟨hfits, hzero⟩
    rcases mergeLists_cases hne a.linSymb hb.symbols with ⟨⟨node, hnode, hover⟩, -⟩ | ⟨-, l, hmerge, hmerged⟩
    · exact absurd (hfits.symbols node hnode) hover
    · refine ⟨_, (combineVectors_eq_ok ha.notMessy hb.notMessy).mpr
        ⟨hfits.nestDepth, hfits.offset, hfits.loops, hfits.products, l, hmerge, rfl⟩, rfl, ?_, ?_, ?_⟩
      · exact eval_combined hfits.nestDepth (hmerged.value env)
      · exact (hmerged.proper ha.symbols).mpr ⟨hzero.left, hzero.right⟩
      · exact hproducts.mpr hzero.products

/-! ## Multiples of a vector -/

/-- A vector whose multiple by `c` is of the types of the coefficients. -/
structure Multipliable (c : Int) (v : AccessVector α) : Prop where
  array : v.lcoeff = none → v.nestDepth = 0
  loops : ∀ coeff ∈ v.lcoeff.getD [], InInt32 (coeff * c)
  symbols : c ≠ 0 → ∀ node ∈ v.linSymb.getD [], InInt32 (node.coeff * c)
  products : ∀ node ∈ v.nonLinSymb.getD [], InInt32 (node.coeff * c)

omit [DecidableEq α] in
theorem mulLoops_eq_ok {l : Option (List Int)} : mulLoops c v = .ok l ↔
    (v.lcoeff = none → v.nestDepth = 0) ∧ (∀ coeff ∈ v.lcoeff.getD [], InInt32 (coeff * c)) ∧
      l = v.lcoeff.map (List.map (· * c)) := by
  unfold mulLoops
  cases v.lcoeff with
  | none =>
    by_cases hdepth : v.nestDepth = 0
    · rw [if_pos hdepth]
      exact ⟨fun h => ⟨fun _ => hdepth, fun _ h => (nomatch h), (Except.ok.inj h).symm⟩, fun h => by rw [h.2.2]; rfl⟩
    · rw [if_neg hdepth]
      exact iff_of_false (fun h => nomatch h) fun h => hdepth (h.1 rfl)
  | some lcoeff =>
    have hscale : ∀ l, lcoeff.mapM (fun coeff => int32 Fault.overflow (coeff * c)) = .ok l ↔
        (∀ coeff ∈ lcoeff, InInt32 (coeff * c)) ∧ l = lcoeff.map (· * c) :=
      fun l => mapM_eq_ok fun coeff y => int32_iff
    rw [bind_eq_ok]
    constructor
    · rintro ⟨l', hl', h⟩
      cases h
      obtain ⟨hfit, rfl⟩ := (hscale l').mp hl'
      exact ⟨fun h => (nomatch h), hfit, rfl⟩
    · rintro ⟨-, hfit, rfl⟩
      exact ⟨_, (hscale _).mpr ⟨hfit, rfl⟩, rfl⟩

omit [DecidableEq α] in
theorem mulList_eq_ok {list r : Option (List (IntsymbNode α))} : mulList c list = .ok r ↔
    (c ≠ 0 → ∀ node ∈ list.getD [], InInt32 (node.coeff * c)) ∧
      r = if c = 0 then none else list.map (List.map fun node => { node with coeff := node.coeff * c }) := by
  cases list with
  | none =>
    have hnone : (if c = 0 then none
        else (none : Option (List (IntsymbNode α))).map (List.map fun node => { node with coeff := node.coeff * c })) =
        none := by
      split_ifs <;> rfl
    rw [hnone]
    exact ⟨fun h => ⟨fun _ _ h => (nomatch h), (Except.ok.inj h).symm⟩, fun h => by rw [h.2]; rfl⟩
  | some list =>
    show (if c = 0 then Except.ok none else _) = Except.ok r ↔ _
    by_cases hc : c = 0
    · rw [if_pos hc, if_pos hc]
      exact ⟨fun h => ⟨fun hne => absurd hc hne, (Except.ok.inj h).symm⟩, fun h => by rw [h.2]⟩
    · have hscale : ∀ node node' : IntsymbNode α,
          (int32 Fault.overflow (node.coeff * c) >>= fun coeff => (return { node with coeff := coeff })) = .ok node' ↔
            InInt32 (node.coeff * c) ∧ node' = { node with coeff := node.coeff * c } :=
        fun node node' => setCoeff_eq_ok
      rw [if_neg hc, if_neg hc, bind_eq_ok]
      constructor
      · rintro ⟨l, hl, h⟩
        cases h
        obtain ⟨hfit, rfl⟩ := (mapM_eq_ok hscale).mp hl
        exact ⟨fun _ => hfit, rfl⟩
      · rintro ⟨hfit, rfl⟩
        exact ⟨_, (mapM_eq_ok hscale).mpr ⟨hfit hc, rfl⟩, rfl⟩

omit [DecidableEq α] in
/-- The steps of a multiple. -/
theorem mulVector_eq_ok (hv : v.tooMessy = false) {v' : AccessVector α} : mulVector c v = .ok (r, v') ↔
    Multipliable c v ∧
      r = { v with
        lcoeff := v.lcoeff.map (List.map (· * c))
        linSymb := if c = 0 then none
          else v.linSymb.map (List.map fun node => { node with coeff := node.coeff * c }) } ∧
      v' = { v with nonLinSymb := v.nonLinSymb.map (List.map fun node => { node with coeff := node.coeff * c }) } := by
  unfold mulVector
  rw [if_neg (Bool.eq_false_iff.mp hv), bind_eq_ok]
  cases hnonlin : v.nonLinSymb with
  | none =>
    have hsame : { v with nonLinSymb := none } = v := by rw [← hnonlin]
    constructor
    · rintro ⟨lcoeff, hlcoeff, h⟩
      obtain ⟨linSymb, hlin, h⟩ := bind_eq_ok.mp h
      obtain ⟨harray, hloops, rfl⟩ := mulLoops_eq_ok.mp hlcoeff
      obtain ⟨hsymbols, rfl⟩ := mulList_eq_ok.mp hlin
      cases h
      exact ⟨⟨harray, hloops, hsymbols, fun node hnode => (nomatch hnonlin ▸ hnode)⟩, rfl, hsame.symm⟩
    · rintro ⟨hfit, rfl, rfl⟩
      refine ⟨_, mulLoops_eq_ok.mpr ⟨hfit.array, hfit.loops, rfl⟩, ?_⟩
      refine bind_eq_ok.mpr ⟨_, mulList_eq_ok.mpr ⟨hfit.symbols, rfl⟩, ?_⟩
      exact congrArg (fun u => Except.ok (_, u)) hsame.symm
  | some l =>
    constructor
    · rintro ⟨lcoeff, hlcoeff, h⟩
      obtain ⟨linSymb, hlin, h⟩ := bind_eq_ok.mp h
      obtain ⟨harray, hloops, rfl⟩ := mulLoops_eq_ok.mp hlcoeff
      obtain ⟨hsymbols, rfl⟩ := mulList_eq_ok.mp hlin
      obtain ⟨l', hl', h⟩ := bind_eq_ok.mp h
      obtain ⟨hproducts, rfl⟩ := scaleProducts_eq_ok.mp hl'
      cases h
      exact ⟨⟨harray, hloops, hsymbols, fun node hnode => hproducts node (by rwa [hnonlin] at hnode)⟩, rfl, rfl⟩
    · rintro ⟨hfit, rfl, rfl⟩
      refine ⟨_, mulLoops_eq_ok.mpr ⟨hfit.array, hfit.loops, rfl⟩, ?_⟩
      refine bind_eq_ok.mpr ⟨_, mulList_eq_ok.mpr ⟨hfit.symbols, rfl⟩, ?_⟩
      have hproducts := hfit.products
      rw [hnonlin] at hproducts
      exact bind_eq_ok.mpr ⟨_, scaleProducts_eq_ok.mpr ⟨hproducts, rfl⟩, rfl⟩

omit [DecidableEq α] in
theorem linValue_scale (env : α → Int) (c : Int) (l : List (IntsymbNode α)) :
    linValue env (l.map fun node => { node with coeff := node.coeff * c }) = c * linValue env l := by
  induction l with
  | nil => rw [List.map_nil, linValue, List.map_nil, List.sum_nil, mul_zero]
  | cons node l ih =>
    rw [List.map_cons, linValue_cons, linValue_cons, ih]
    ring

omit [DecidableEq α] in
theorem mulList_getD (c : Int) (list : Option (List (IntsymbNode α))) :
    (if c = 0 then none else list.map (List.map fun node => { node with coeff := node.coeff * c })).getD [] =
      if c = 0 then [] else (list.getD []).map fun node => { node with coeff := node.coeff * c } := by
  split_ifs
  · rfl
  · cases list <;> rfl

omit [DecidableEq α] in
/-- The constant and the products of the result are those of the operand. -/
theorem eval_multiple (v : AccessVector α) (c : Int) (stack : List α) (env : α → Int) :
    AccessVector.eval { v with
        lcoeff := v.lcoeff.map (List.map (· * c))
        linSymb := if c = 0 then none
          else v.linSymb.map (List.map fun node => { node with coeff := node.coeff * c }) } stack env +
      (c - 1) * (v.constOffset + sumprodValue env (v.nonLinSymb.getD [])) = c * v.eval stack env := by
  have hcoeff : ∀ i, AccessVector.loopCoeff { v with
        lcoeff := v.lcoeff.map (List.map (· * c))
        linSymb := if c = 0 then none
          else v.linSymb.map (List.map fun node => { node with coeff := node.coeff * c }) } i =
      c * v.loopCoeff i := fun i => by
    unfold AccessVector.loopCoeff
    cases v.lcoeff with
    | none => exact (mul_zero c).symm
    | some l =>
      show (if i < v.nestDepth then (l.map (· * c)).getD i 0 else 0) = c * if i < v.nestDepth then l.getD i 0 else 0
      split_ifs
      · rw [List.getD_eq_getElem?_getD, List.getD_eq_getElem?_getD, List.getElem?_map]
        cases l[i]? with
        | none => exact (mul_zero c).symm
        | some x => exact mul_comm x c
      · exact (mul_zero c).symm
  have hlin : linValue env ((if c = 0 then none
      else v.linSymb.map (List.map fun node => { node with coeff := node.coeff * c })).getD []) =
      c * linValue env (v.linSymb.getD []) := by
    rw [mulList_getD]
    split_ifs with hc
    · rw [hc, zero_mul]
      rfl
    · exact linValue_scale env c _
  unfold AccessVector.eval
  simp only [hcoeff, hlin, mul_assoc, ← Finset.mul_sum]
  ring

omit [DecidableEq α] in
theorem eval_operand (v : AccessVector α) (c : Int) (stack : List α) (env : α → Int) :
    AccessVector.eval { v with
        nonLinSymb := v.nonLinSymb.map (List.map fun node => { node with coeff := node.coeff * c }) } stack env =
      v.eval stack env + (c - 1) * sumprodValue env (v.nonLinSymb.getD []) := by
  have hproducts : sumprodValue env
      ((v.nonLinSymb.map (List.map fun node => { node with coeff := node.coeff * c })).getD []) =
      c * sumprodValue env (v.nonLinSymb.getD []) := by
    cases v.nonLinSymb with
    | none => exact (mul_zero c).symm
    | some l => exact sumprodValue_scale env c l
  show v.constOffset + ∑ i : Fin stack.length, v.loopCoeff i * env (stack.get i) + linValue env (v.linSymb.getD []) +
    sumprodValue env _ = _
  rw [hproducts]
  unfold AccessVector.eval
  ring

omit [DecidableEq α] in
/-- `Mul` is right just when nothing overflows, and the constant and the products are not there or need no scaling. -/
theorem mulVector_iff (hv : Regular v) (c : Int) (stack : List α) (env : α → Int) :
    (∃ r v', mulVector c v = .ok (r, v') ∧ Represents r stack env (c * v.eval stack env) ∧
      v'.eval stack env = v.eval stack env) ↔
      Multipliable c v ∧ (c ≠ 0 → ∀ node ∈ v.linSymb.getD [], node.coeff ≠ 0) ∧
        (∀ node ∈ v.nonLinSymb.getD [], node.coeff ≠ 0) ∧
        (c = 1 ∨ v.constOffset = 0 ∧ sumprodValue env (v.nonLinSymb.getD []) = 0) := by
  have hvalues := eval_multiple v c stack env
  have hoperand := eval_operand v c stack env
  have hproper : Proper ((if c = 0 then none
      else v.linSymb.map (List.map fun node => { node with coeff := node.coeff * c })).getD []) ↔
      (c ≠ 0 → ∀ node ∈ v.linSymb.getD [], node.coeff ≠ 0) := by
    rw [mulList_getD]
    split_ifs with hc
    · exact iff_of_true ⟨List.nodup_nil, fun _ h => (nomatch h)⟩ fun hne => absurd hc hne
    · have hsymbols : ((v.linSymb.getD []).map fun node => { node with coeff := node.coeff * c }).map
          (·.symbol) = (v.linSymb.getD []).map (·.symbol) := List.map_map
      constructor
      · exact fun h _ node hnode hzero =>
          h.nonzero _ (List.mem_map_of_mem hnode) (by rw [hzero, zero_mul])
      · refine fun h => ⟨hsymbols ▸ hv.symbols, List.forall_mem_map.mpr fun node hnode => ?_⟩
        exact mul_ne_zero (h hc node hnode) hc
  constructor
  · rintro ⟨r, v', h, hr, hv'⟩
    obtain ⟨hfit, rfl, rfl⟩ := (mulVector_eq_ok hv.notMessy).mp h
    rw [hr.eval] at hvalues
    rw [hv'] at hoperand
    refine ⟨hfit, hproper.mp hr.symbols, hr.products, ?_⟩
    rcases eq_or_ne c 1 with hc | hc
    · exact Or.inl hc
    · have hne : c - 1 ≠ 0 := sub_ne_zero.mpr hc
      have hsum := (mul_eq_zero.mp (left_eq_add.mp hvalues.symm)).resolve_left hne
      have hzero := (mul_eq_zero.mp (left_eq_add.mp hoperand)).resolve_left hne
      rw [hzero, add_zero] at hsum
      exact Or.inr ⟨hsum, hzero⟩
  · rintro ⟨hfit, hsymbols, hproducts, hkept⟩
    have hzero : (c - 1) * (v.constOffset + sumprodValue env (v.nonLinSymb.getD [])) = 0 ∧
        (c - 1) * sumprodValue env (v.nonLinSymb.getD []) = 0 := by
      rcases hkept with rfl | ⟨hoffset, hsum⟩
      · exact ⟨zero_mul _, zero_mul _⟩
      · rw [hoffset, hsum, add_zero, mul_zero]
        exact ⟨rfl, rfl⟩
    rw [hzero.1, add_zero] at hvalues
    rw [hzero.2, add_zero] at hoperand
    exact ⟨_, _, (mulVector_eq_ok hv.notMessy).mpr ⟨hfit, rfl, rfl⟩,
      ⟨hv.notMessy, hvalues, hproper.mpr hsymbols, hproducts⟩, hoperand⟩

/-- When `Add`, `Subtract` and `Mul` agree with evaluation and leave their operands as they are. -/
theorem algebra_iff (ha : Regular a) (hb : Regular b) (c : Int) (stack : List α) (env : α → Int) :
    ((∃ r, addVectors a b = .ok (some r) ∧ Represents r stack env (a.eval stack env + b.eval stack env)) ∧
      (∃ r, subtractVectors a b = .ok (some r) ∧ Represents r stack env (a.eval stack env - b.eval stack env)) ∧
      ∃ r a', mulVector c a = .ok (r, a') ∧ Represents r stack env (c * a.eval stack env) ∧
        a'.eval stack env = a.eval stack env) ↔
      (Combinable 1 a b ∧ Combinable (-1) a b ∧ Multipliable c a) ∧
      (ZeroFree a b ∧ (c ≠ 0 → ∀ node ∈ a.linSymb.getD [], node.coeff ≠ 0)) ∧
      (c = 1 ∨ a.constOffset = 0 ∧ sumprodValue env (a.nonLinSymb.getD []) = 0) := by
  have hadd := combineVectors_iff one_ne_zero ha hb stack env
  have hsub := combineVectors_iff (neg_ne_zero.mpr one_ne_zero) ha hb stack env
  have hmul := mulVector_iff ha c stack env
  rw [one_mul] at hadd
  rw [neg_one_mul, ← sub_eq_add_neg] at hsub
  rw [addVectors, subtractVectors, hadd, hsub, hmul]
  constructor
  · rintro ⟨⟨hfit, hzero⟩, ⟨hfit', -⟩, hmultiple, hsymbols, -, hkept⟩
    exact ⟨⟨hfit, hfit', hmultiple⟩, ⟨hzero, hsymbols⟩, hkept⟩
  · rintro ⟨⟨hfit, hfit', hmultiple⟩, ⟨hzero, hsymbols⟩, hkept⟩
    exact ⟨⟨hfit, hzero⟩, ⟨hfit', hzero⟩, hmultiple, hsymbols,
      fun node hnode => hzero.products node (List.mem_append_left _ hnode), hkept⟩

/-- `i + 3n` and `2i - 3n + 7`, and 4 times the first. -/
theorem algebra_sum :
    (∃ r, addVectors (⟨false, 1, some [1], some [⟨1, 3⟩], none, 0⟩ : AccessVector Nat)
        ⟨false, 1, some [2], some [⟨1, -3⟩], none, 7⟩ = .ok (some r) ∧
      Represents r [0] (fun _ => 5) (AccessVector.eval ⟨false, 1, some [1], some [⟨1, 3⟩], none, 0⟩ [0] (fun _ => 5) +
        AccessVector.eval ⟨false, 1, some [2], some [⟨1, -3⟩], none, 7⟩ [0] fun _ => 5)) ∧
    (∃ r, subtractVectors (⟨false, 1, some [1], some [⟨1, 3⟩], none, 0⟩ : AccessVector Nat)
        ⟨false, 1, some [2], some [⟨1, -3⟩], none, 7⟩ = .ok (some r) ∧
      Represents r [0] (fun _ => 5) (AccessVector.eval ⟨false, 1, some [1], some [⟨1, 3⟩], none, 0⟩ [0] (fun _ => 5) -
        AccessVector.eval ⟨false, 1, some [2], some [⟨1, -3⟩], none, 7⟩ [0] fun _ => 5)) ∧
    ∃ r a', mulVector 4 (⟨false, 1, some [1], some [⟨1, 3⟩], none, 0⟩ : AccessVector Nat) = .ok (r, a') ∧
      Represents r [0] (fun _ => 5)
        (4 * AccessVector.eval ⟨false, 1, some [1], some [⟨1, 3⟩], none, 0⟩ [0] fun _ => 5) ∧
      a'.eval [0] (fun _ => 5) = AccessVector.eval ⟨false, 1, some [1], some [⟨1, 3⟩], none, 0⟩ [0] fun _ => 5 :=
  (algebra_iff ⟨rfl, by decide, by decide⟩ ⟨rfl, by decide, by decide⟩ 4 [0] fun _ => 5).mpr
    ⟨⟨⟨rfl, by decide, by decide, by decide, by decide⟩, ⟨rfl, by decide, by decide, by decide, by decide⟩,
      ⟨by decide, by decide, by decide, by decide⟩⟩,
     ⟨⟨by unfold ZerosOn; decide, by unfold ZerosOn; decide, by decide⟩, by decide⟩, Or.inr ⟨rfl, rfl⟩⟩

/-- Twice `i + 5` comes out as `2i + 5`. -/
theorem algebra_constant :
    ¬((∃ r, addVectors (⟨false, 1, some [1], none, none, 5⟩ : AccessVector Nat)
        ⟨false, 1, some [1], none, none, 5⟩ = .ok (some r) ∧
      Represents r [0] (fun _ => 0) (AccessVector.eval ⟨false, 1, some [1], none, none, 5⟩ [0] (fun _ => 0) +
        AccessVector.eval ⟨false, 1, some [1], none, none, 5⟩ [0] fun _ => 0)) ∧
    (∃ r, subtractVectors (⟨false, 1, some [1], none, none, 5⟩ : AccessVector Nat)
        ⟨false, 1, some [1], none, none, 5⟩ = .ok (some r) ∧
      Represents r [0] (fun _ => 0) (AccessVector.eval ⟨false, 1, some [1], none, none, 5⟩ [0] (fun _ => 0) -
        AccessVector.eval ⟨false, 1, some [1], none, none, 5⟩ [0] fun _ => 0)) ∧
    ∃ r a', mulVector 2 (⟨false, 1, some [1], none, none, 5⟩ : AccessVector Nat) = .ok (r, a') ∧
      Represents r [0] (fun _ => 0) (2 * AccessVector.eval ⟨false, 1, some [1], none, none, 5⟩ [0] fun _ => 0) ∧
      a'.eval [0] (fun _ => 0) = AccessVector.eval ⟨false, 1, some [1], none, none, 5⟩ [0] fun _ => 0) := by
  rintro ⟨-, -, r, a', h, hr, -⟩
  cases h
  exact absurd hr.eval (by decide)

end Path64.Access

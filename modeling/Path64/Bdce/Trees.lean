import Path64.Bdce.Sound

/-!
# Bitwise dead code elimination: whole expression trees

* `VarRef`, `LoadRef` : variable references and indirect loads, with the masks they pass on;
* `Expr` : expression trees; `Expr.eval` : their value in an environment;
* `Expr.WellTyped` : every node is well typed and no operator is a shift or rotate;
* `Replaced env e cs x` : after a sequence of calls of `Mark_tree_bits_live` on the root of `e` (each
  node passing on what `OpNode.visits` says), `x` is a value of `e` in which, at any node and in any
  variable, bits outside the masks passed there were replaced;
* `Replaced.agree` : such a value agrees with the value of `e` on every live bit of the root.
-/

namespace Path64.Bdce

open Path64.Bits

variable {ρ μ : Type}

/-! ## Leaves -/

/-- A reference of a variable (`CK_VAR`): the types of the load, the mask of the bits of the variable
(`Bits_in_var`) and the version. -/
structure VarRef where
  dtyp : Mtype
  dsctyp : Mtype
  bitsInVar : Mask
  version : Nat

namespace VarRef

variable (target : Target) (v : VarRef)

/-- The bits of the variable a reference makes live: all of them (`Mark_entire_var_live`), or those
of the load that the variable has (`Mark_var_bits_live`). -/
def demand (live : Mask) : Mask :=
  let newLivebits := target.loadLive v.dsctyp v.bitsInVar live
  if v.bitsInVar = newLivebits then v.bitsInVar else newLivebits &&& v.bitsInVar

theorem demand_eq (live : Mask) :
    v.demand target live = target.loadLive v.dsctyp v.bitsInVar live &&& v.bitsInVar := by
  unfold demand
  dsimp only
  split_ifs with h
  · rw [← h, BitVec.and_self]
  · rfl

/-- The value of the reference when the variable holds `c`: the bits of the memory type, extended. -/
def loaded (c : Value ρ) : Value ρ :=
  if v.dtyp.scalar = true then
    .word (extend v.dsctyp.signed v.dsctyp.bitSize c.low &&& bitsInType v.dtyp) 0
  else c

/-- A reference loads an integer into an integer or another value as it is, and no more bits than
the variable has. -/
structure Typed : Prop where
  same : v.dtyp = v.dsctyp ∨ (v.dtyp.scalar = true ∧ v.dsctyp.scalar = true)
  within : Covers v.bitsInVar (bitsInType v.dsctyp)

/-- Variables that agree on what a reference demands give values that agree on its live bits. -/
theorem loaded_agree (hv : v.Typed) {live : Mask} {c c' : Value ρ}
    (h : Agree v.dsctyp false (v.demand target live) c c') :
    Agree v.dtyp false live (v.loaded c) (v.loaded c') := by
  rw [v.demand_eq target] at h
  have hkeep : Covers (target.loadLive v.dsctyp v.bitsInVar live &&& v.bitsInVar)
      (live &&& bitsInType v.dsctyp) := by
    intro i hi
    rw [BitVec.getLsbD_and, Bool.and_eq_true] at hi
    have hbits := hv.within i hi.2
    have hnew := and_bit hi.1 hbits
    refine and_bit ?_ hbits
    unfold Target.loadLive
    split_ifs
    · exact Covers.or_left _ _ i hnew
    · exact hnew
  by_cases hd : v.dtyp.scalar = true
  · have hs : v.dsctyp.scalar = true := by
      rcases hv.same with heq | hboth
      · rwa [← heq]
      · exact hboth.2
    have hpos := Mtype.bitSize_le_of_scalar hs
    rw [Agree, if_pos hs] at h
    have hlow : AgreeOn live (extend v.dsctyp.signed v.dsctyp.bitSize c.low)
        (extend v.dsctyp.signed v.dsctyp.bitSize c'.low) := by
      apply extend_agree target ⟨hpos.1, hpos.2⟩
      refine h.1.mono ?_
      intro i hi
      -- a live copy of the sign makes the sign bit of the variable live
      unfold Target.extendedLive at hi
      dsimp only at hi
      rw [← bitsInType_of_scalar hs] at hi
      split_ifs at hi with hsign
      · rw [BitVec.getLsbD_or, Bool.or_eq_true] at hi
        rcases hi with hi | hi
        · exact hkeep i hi
        · have hin : (bitsInType v.dsctyp).getLsbD i = true := by
            rw [show ((v.dsctyp.bitSize : Int) - 1) = ((v.dsctyp.bitSize - 1 : Nat) : Int) by omega,
              target.shiftLeft_of_lt _ (by omega)] at hi
            have hi64 := bit_lt hi
            have hlast := eq_of_one_shiftLeft_bit hi
            rw [bitsInType_of_scalar hs, getLsbD_bitmaskOfSize]
            simp [hi64, show i < v.dsctyp.bitSize by omega]
          refine and_bit ?_ (hv.within i hin)
          rw [Target.loadLive, if_pos ⟨Or.inl hsign.1, hsign.2⟩]
          exact Covers.or_right _ _ i hi
      · exact hkeep i hi
    rw [Agree, if_pos hd, loaded, loaded, if_pos hd, if_pos hd]
    refine ⟨?_, fun hp => absurd hp Bool.false_ne_true⟩
    intro i hi
    rw [Value.low_word, Value.low_word, BitVec.getLsbD_and, BitVec.getLsbD_and, hlow i hi]
  · have heq : v.dtyp = v.dsctyp := hv.same.resolve_right fun hboth => hd hboth.1
    have hs : ¬ v.dsctyp.scalar = true := heq ▸ hd
    rw [Agree, if_neg hd, loaded, loaded, if_neg hd, if_neg hd]
    rw [Agree, if_neg hs] at h
    intro hlive
    apply h
    rw [heq] at hlive
    exact LiveIn.mono (t := v.dsctyp) hlive hkeep

end VarRef

/-- An indirect load (`CK_IVAR`): its types and the version of memory of its mu operand, if it has one
that is no zero version. -/
structure LoadRef where
  dtyp : Mtype
  dsctyp : Mtype
  mu : Option Nat

/-- The calls on a load that visit its operands, by their `stmt_visit`. -/
def LoadRef.visits (target : Target) (l : LoadRef) : Marks → List Visit → List Bool
  | _, [] => []
  | s, c :: cs =>
    let stmtVisit := c.stmtVisit && decide (s.usecnt < 2)
    let next : Marks := ⟨s.livebits ||| target.loadLive l.dsctyp (bitsInType l.dsctyp) c.live,
      if stmtVisit then s.usecnt + 1 else s.usecnt⟩
    if stmtVisit || decide (s.livebits = 0) then stmtVisit :: visits target l next cs
    else visits target l next cs

/-- The calls a sequence of calls on a parameter makes on the expression that is passed. -/
def parmVisits (dtyp : Mtype) : Marks → List Visit → List Visit
  | _, [] => []
  | s, c :: cs =>
    let stmtVisit := c.stmtVisit && decide (s.usecnt < 2)
    let usecnt := if stmtVisit then s.usecnt + 1 else s.usecnt
    let live := c.live &&& bitsInType dtyp
    if !stmtVisit && !s.moreBitsLive live then parmVisits dtyp { s with usecnt := usecnt } cs
    else ⟨live, stmtVisit⟩ :: parmVisits dtyp ⟨s.livebits ||| live, usecnt⟩ cs

/-! ## Trees -/

/-- An expression tree. -/
inductive Expr
  | const (dtyp : Mtype) (val : BitVec 64)
  | fixed (dtyp : Mtype) (id : Nat)
  | var (v : VarRef)
  | iload (l : LoadRef) (base : Expr)
  | iloadx (l : LoadRef) (base index : Expr)
  | parm (dtyp : Mtype) (base : Expr)
  | op (n : OpNode) (k : Nat) (kids : Fin k → Expr)

/-- What the variables, the other leaves and the versions of memory hold. -/
structure Env (ρ μ : Type) where
  var : Nat → Value ρ
  fixed : Nat → Value ρ
  mem : Nat → μ

/-- What the operators compute that read their operands as a whole, and what a load reads from the
address, the index or size, and the memory. -/
structure Meaning (ρ μ : Type) where
  op : OpNode → (Nat → Value ρ) → Value ρ
  load : LoadRef → Value ρ → Value ρ → Option μ → Value ρ

/-- The operand values of a node with `k` operands. -/
def pad {k : Nat} (x : Fin k → Value ρ) (i : Nat) : Value ρ := if h : i < k then x ⟨i, h⟩ else .word 0 0

/-- The value a parameter of type `dtyp` has for a passed value. -/
def parmValue (dtyp : Mtype) (x : Value ρ) : Value ρ :=
  if dtyp.scalar = true then .word (x.low &&& bitsInType dtyp) 0 else x

namespace Expr

/-- What the parent of an expression reads of it. -/
def operand : Expr → Operand
  | const t c => ⟨t, false, some c⟩
  | fixed t _ => ⟨t, false, none⟩
  | var v => ⟨v.dtyp, false, none⟩
  | iload l _ | iloadx l _ _ => ⟨l.dtyp, false, none⟩
  | parm t _ => ⟨t, false, none⟩
  | op n _ _ => ⟨n.dtyp, n.opr.makesPair, none⟩

/-- `Bits_in_coderep_result`: a conversion has the bits of the larger of its two types. -/
def bitsInCoderepResult : Expr → Mask
  | op n _ _ =>
    if n.opr = .cvt then
      if n.dtyp.isIntegral ∧ n.dsctyp.isIntegral then
        bitmaskOfSize (Nat.max n.dtyp.bitSize n.dsctyp.bitSize)
      else bitmaskOfSize n.dtyp.bitSize
    else bitsInType n.dtyp
  | e => bitsInType e.operand.dtyp

/-- The operands of a node. -/
def operands {k : Nat} (kids : Fin k → Expr) : List Operand := List.ofFn fun i => (kids i).operand

/-- The value of an expression. -/
def eval (target : Target) (m : Meaning ρ μ) (env : Env ρ μ) : Expr → Value ρ
  | const _ c => .word c 0
  | fixed _ id => env.fixed id
  | var v => v.loaded (env.var v.version)
  | iload l base =>
    m.load l (view base.operand (bitsInType target.pointerType) (eval target m env base)) (.word 0 0)
      (l.mu.map env.mem)
  | iloadx l base index =>
    m.load l (view base.operand (bitsInType target.pointerType) (eval target m env base))
      (view index.operand index.bitsInCoderepResult (eval target m env index)) (l.mu.map env.mem)
  | parm t base => parmValue t (eval target m env base)
  | op n _ kids => n.eval target (operands kids) m.op (pad fun i => eval target m env (kids i))

/-- Every node is well typed, addresses and indices are integers, and no operator is a shift. -/
def WellTyped (target : Target) : Expr → Prop
  | const t _ => t.scalar = true
  | fixed _ _ => True
  | var v => v.Typed
  | iload _ base => base.operand.dtyp.scalar = true ∧ WellTyped target base
  | iloadx _ base index => (base.operand.dtyp.scalar = true ∧ WellTyped target base) ∧
      index.operand.dtyp.scalar = true ∧ WellTyped target index
  | parm t base => (base.operand.dtyp = t ∨ (base.operand.dtyp.scalar = true ∧ t.scalar = true)) ∧
      WellTyped target base
  | op n _ kids => n.Typed target (operands kids) ∧ n.opr.isShift = false ∧
      ∀ i, WellTyped target (kids i)

end Expr

/-! ## Replacing dead bits -/

/-- The calls on operand `i`. -/
def callsOn (calls : List (Nat × Visit)) (i : Nat) : List Visit :=
  calls.filterMap fun p => if p.1 = i then some p.2 else none

theorem mem_callsOn {calls : List (Nat × Visit)} {i : Nat} {c : Visit} (h : (i, c) ∈ calls) :
    c ∈ callsOn calls i := List.mem_filterMap.mpr ⟨(i, c), h, if_pos rfl⟩

/-- Two values agree on the bits every one of the calls asks for. -/
def AgreeAll (o : Operand) (cs : List Visit) (x y : Value ρ) : Prop :=
  ∀ c ∈ cs, Agree o.dtyp o.pair c.live x y

/-- `x` is a value of `e` after the calls `cs` on it, with bits replaced that are in no mask passed to
the node or variable they belong to; constants stay. -/
inductive Replaced (target : Target) (m : Meaning ρ μ) (env : Env ρ μ) :
    Expr → List Visit → Value ρ → Prop
  | const (t : Mtype) (c : BitVec 64) (cs : List Visit) : Replaced target m env (.const t c) cs (.word c 0)
  | fixed {t : Mtype} {id : Nat} {cs : List Visit} {x : Value ρ}
      (hx : AgreeAll ⟨t, false, none⟩ cs x (env.fixed id)) : Replaced target m env (.fixed t id) cs x
  | var {v : VarRef} {cs : List Visit} {c x : Value ρ}
      (hc : ∀ call ∈ cs, Agree v.dsctyp false (v.demand target call.live) c (env.var v.version))
      (hx : AgreeAll ⟨v.dtyp, false, none⟩ cs x (v.loaded c)) : Replaced target m env (.var v) cs x
  | iload {l : LoadRef} {base : Expr} {cs : List Visit} {b x : Value ρ} {mem : Option μ}
      (hb : Replaced target m env base
        ((l.visits target Marks.none cs).map fun sv => ⟨bitsInType target.pointerType, sv⟩) b)
      (hmem : l.visits target Marks.none cs ≠ [] → mem = l.mu.map env.mem)
      (hx : AgreeAll ⟨l.dtyp, false, none⟩ cs x
        (m.load l (view base.operand (bitsInType target.pointerType) b) (.word 0 0) mem)) :
      Replaced target m env (.iload l base) cs x
  | iloadx {l : LoadRef} {base index : Expr} {cs : List Visit} {b i x : Value ρ} {mem : Option μ}
      (hb : Replaced target m env base
        ((l.visits target Marks.none cs).map fun sv => ⟨bitsInType target.pointerType, sv⟩) b)
      (hi : Replaced target m env index
        ((l.visits target Marks.none cs).map fun sv => ⟨index.bitsInCoderepResult, sv⟩) i)
      (hmem : l.visits target Marks.none cs ≠ [] → mem = l.mu.map env.mem)
      (hx : AgreeAll ⟨l.dtyp, false, none⟩ cs x
        (m.load l (view base.operand (bitsInType target.pointerType) b)
          (view index.operand index.bitsInCoderepResult i) mem)) :
      Replaced target m env (.iloadx l base index) cs x
  | parm {t : Mtype} {base : Expr} {cs : List Visit} {b x : Value ρ}
      (hb : Replaced target m env base (parmVisits t Marks.none cs) b)
      (hx : AgreeAll ⟨t, false, none⟩ cs x (parmValue t b)) : Replaced target m env (.parm t base) cs x
  | op {n : OpNode} {k : Nat} {kids : Fin k → Expr} {cs : List Visit} {xs : Fin k → Value ρ} {x : Value ρ}
      (hkids : ∀ i, Replaced target m env (kids i)
        (callsOn (n.visits target (Expr.operands kids) Marks.none cs) i) (xs i))
      (hx : AgreeAll ⟨n.dtyp, n.opr.makesPair, none⟩ cs x
        (n.eval target (Expr.operands kids) m.op (pad xs))) :
      Replaced target m env (.op n k kids) cs x

/-! ## The value after replacement -/

section

variable {target : Target} {m : Meaning ρ μ} {env : Env ρ μ}

theorem AgreeAll.trans {o : Operand} {cs : List Visit} {x y z : Value ρ} (h₁ : AgreeAll o cs x y)
    (h₂ : AgreeAll o cs y z) : AgreeAll o cs x z := fun c hc => (h₁ c hc).trans (h₂ c hc)

theorem AgreeAll.of_eq {o : Operand} {cs : List Visit} {x y : Value ρ} (h : x = y) :
    AgreeAll o cs x y := fun _ _ => Agree.of_eq h

theorem LoadRef.visits_ne_nil (l : LoadRef) {cs : List Visit} (h : cs ≠ []) :
    l.visits target Marks.none cs ≠ [] := by
  cases cs with
  | nil => exact absurd rfl h
  | cons c cs =>
    unfold LoadRef.visits
    dsimp only
    rw [if_pos (by simp [Marks.none])]
    exact List.cons_ne_nil _ _

theorem view_eq_of_visited {o : Operand} (ho : o.dtyp.scalar = true) {bits : Mask} {svs : List Bool}
    (hne : svs ≠ []) {x y : Value ρ} (h : AgreeAll o (svs.map fun sv => ⟨bits, sv⟩) x y) :
    view o bits x = view o bits y := by
  obtain ⟨sv, hsv⟩ := List.exists_mem_of_ne_nil svs hne
  exact view_eq_of_scalar (h _ (List.mem_map.mpr ⟨sv, hsv, rfl⟩)) ho

theorem parmValue_agree {t : Mtype} {o : Operand}
    (ho : o.dtyp = t ∨ (o.dtyp.scalar = true ∧ t.scalar = true)) {live : Mask} {x y : Value ρ}
    (h : Agree o.dtyp o.pair (live &&& bitsInType t) x y) :
    Agree t false live (parmValue t x) (parmValue t y) := by
  by_cases ht : t.scalar = true
  · have hs : o.dtyp.scalar = true := by
      rcases ho with rfl | hboth
      · exact ht
      · exact hboth.1
    rw [Agree, if_pos hs] at h
    rw [Agree, if_pos ht, parmValue, parmValue, if_pos ht, if_pos ht]
    refine ⟨?_, fun hp => absurd hp Bool.false_ne_true⟩
    intro i hi
    rw [Value.low_word, Value.low_word, BitVec.getLsbD_and, BitVec.getLsbD_and]
    by_cases hbit : (bitsInType t).getLsbD i = true
    · rw [h.1 i (and_bit hi hbit)]
    · rw [Bool.not_eq_true] at hbit
      rw [hbit, Bool.and_false, Bool.and_false]
  · have heq : o.dtyp = t := ho.resolve_right fun hboth => ht hboth.2
    rw [heq, Agree, if_neg ht] at h
    rw [Agree, if_neg ht, parmValue, parmValue, if_neg ht, if_neg ht]
    intro hlive
    exact h (LiveIn.mono (t := t) hlive (Covers.refl _))

theorem parmVisits_agree {t : Mtype} {o : Operand}
    (ho : o.dtyp = t ∨ (o.dtyp.scalar = true ∧ t.scalar = true)) {x y : Value ρ} (cs : List Visit) :
    ∀ s : Marks, Agree t false s.livebits (parmValue t x) (parmValue t y) →
      AgreeAll o (parmVisits t s cs) x y →
      AgreeAll ⟨t, false, none⟩ cs (parmValue t x) (parmValue t y) := by
  induction cs with
  | nil =>
    intro _ _ _ c hc
    cases hc
  | cons c cs ih =>
    intro s hs h
    -- the bits outside the type of the parameter agree in any case
    have htrim : ∀ {live : Mask}, Agree t false (live &&& bitsInType t) (parmValue t x) (parmValue t y) →
        Agree t false live (parmValue t x) (parmValue t y) := by
      intro live hl
      have htwice := parmValue_agree (o := ⟨t, false, none⟩) (Or.inl rfl) hl
      have hidem : ∀ z : Value ρ, parmValue t (parmValue t z) = parmValue t z := by
        intro z
        unfold parmValue
        split_ifs
        · rw [Value.low_word, BitVec.and_assoc, BitVec.and_self]
        · rfl
      rwa [hidem, hidem] at htwice
    unfold parmVisits at h
    dsimp only at h
    intro d hd
    by_cases hexit : (!(c.stmtVisit && decide (s.usecnt < 2)) &&
        !s.moreBitsLive (c.live &&& bitsInType t)) = true
    · rw [if_pos hexit] at h
      rcases List.mem_cons.mp hd with rfl | hd
      · refine htrim (hs.mono ?_)
        rw [Bool.and_eq_true, Bool.not_eq_true', Bool.not_eq_true', Marks.moreBitsLive] at hexit
        exact covers_of_and_not_eq_zero (by simpa using hexit.2)
      · refine ih _ ?_ h d hd
        exact hs
    · rw [if_neg hexit] at h
      have hnow := parmValue_agree ho (h _ (List.mem_cons_self ..))
      rcases List.mem_cons.mp hd with rfl | hd
      · exact hnow
      · exact ih _ (hs.or (hnow.mono (covers_and_left _ _))) (fun e he => h e (List.mem_cons_of_mem _ he))
          d hd

theorem getElem?_operands {k : Nat} {kids : Fin k → Expr} {i : Nat} {o : Operand}
    (h : (Expr.operands kids)[i]? = some o) : ∃ hi : i < k, o = (kids ⟨i, hi⟩).operand := by
  rw [Expr.operands, List.getElem?_ofFn] at h
  split_ifs at h with hi
  exact ⟨hi, (Option.some.inj h).symm⟩

theorem eq_const_of_constVal {e : Expr} {c : BitVec 64} (h : e.operand.constVal = some c) :
    ∃ t, e = .const t c := by
  cases e with
  | const t d =>
    obtain rfl := Option.some.inj h
    exact ⟨t, rfl⟩
  | _ => cases h

theorem respectsConsts_pad {k : Nat} {kids : Fin k → Expr} {xs : Fin k → Value ρ}
    (h : ∀ i c t, kids i = .const t c → (xs i).low = c) :
    RespectsConsts (Expr.operands kids) (pad xs) := by
  intro i o c ho hc
  obtain ⟨hi, rfl⟩ := getElem?_operands ho
  obtain ⟨t, ht⟩ := eq_const_of_constVal hc
  rw [pad, dif_pos hi]
  exact h ⟨i, hi⟩ c t ht

/-- A value of a tree with dead bits replaced agrees with the value of the tree on every live bit. -/
theorem Replaced.agree (e : Expr) (he : e.WellTyped target) :
    ∀ {cs : List Visit} {x : Value ρ}, Replaced target m env e cs x →
      AgreeAll e.operand cs x (e.eval target m env) := by
  induction e with
  | const t c =>
    intro cs x hx
    cases hx
    exact AgreeAll.of_eq rfl
  | fixed t id =>
    intro cs x hx
    cases hx with
    | fixed hx => exact hx
  | var v =>
    intro cs x hx
    cases hx with
    | var hc hx => exact hx.trans fun call hcall => v.loaded_agree target he (hc call hcall)
  | iload l base ih =>
    intro cs x hx
    cases hx with
    | iload hb hmem hx =>
      intro c hc
      have hvisited := @LoadRef.visits_ne_nil target l cs (List.ne_nil_of_mem hc)
      have hview := view_eq_of_visited he.1 hvisited (ih he.2 hb)
      rw [hview, hmem hvisited] at hx
      exact hx c hc
  | iloadx l base index ihb ihi =>
    intro cs x hx
    cases hx with
    | iloadx hb hi hmem hx =>
      intro c hc
      have hvisited := @LoadRef.visits_ne_nil target l cs (List.ne_nil_of_mem hc)
      have hbase := view_eq_of_visited he.1.1 hvisited (ihb he.1.2 hb)
      have hindex := view_eq_of_visited he.2.1 hvisited (ihi he.2.2 hi)
      rw [hbase, hindex, hmem hvisited] at hx
      exact hx c hc
  | parm t base ih =>
    intro cs x hx
    cases hx with
    | parm hb hx =>
      exact hx.trans (parmVisits_agree he.1 cs Marks.none (Agree.zero _ _ _ _) (ih he.2 hb))
  | op n k kids ih =>
    intro cs x hx
    cases hx with
    | @op _ _ _ _ xs _ hkids hx =>
      obtain ⟨hn, hshift, hkidsTyped⟩ := he
      refine hx.trans (visits_agree_of_marks hn hshift m.op ?_ ?_ cs Marks.none (marksSound_none m.op) ?_)
      · apply respectsConsts_pad
        intro i c t hi
        have hr := hkids i
        rw [hi] at hr
        generalize xs i = z at hr
        cases hr
        rfl
      · apply respectsConsts_pad
        intro i c t hi
        rw [hi, Expr.eval, Value.low_word]
      · intro i v o hcall ho
        obtain ⟨hi, rfl⟩ := getElem?_operands ho
        rw [pad, pad, dif_pos hi, dif_pos hi]
        exact ih ⟨i, hi⟩ (hkidsTyped ⟨i, hi⟩) (hkids ⟨i, hi⟩) v (mem_callsOn hcall)

end

/-! ## Soundness of the analysis -/

/-- The masks passed to the operands suffice. For every node that is no shift or rotate and every
sequence of calls on it, two assignments of operand values that agree on the bits passed to each
operand give results that agree on every live bit; and for every tree of such nodes, replacing bits
that are live nowhere, at any node or variable, changes no live bit of the value of the tree. -/
theorem livebits_sound (target : Target) (m : Meaning ρ μ) (env : Env ρ μ) :
    (∀ (n : OpNode) (opnds : List Operand), n.Typed target opnds → n.opr.isShift = false →
      ∀ x y : Nat → Value ρ, RespectsConsts opnds x → RespectsConsts opnds y →
      ∀ cs : List Visit, CallsAgree opnds (n.visits target opnds Marks.none cs) x y →
      ∀ c ∈ cs, Agree n.dtyp n.opr.makesPair c.live (n.eval target opnds m.op x)
        (n.eval target opnds m.op y)) ∧
    (∀ e : Expr, e.WellTyped target → ∀ (cs : List Visit) (x : Value ρ),
      Replaced target m env e cs x → AgreeAll e.operand cs x (e.eval target m env)) := by
  constructor
  · intro n opnds hn hshift x y hx hy cs h
    exact visits_agree_of_marks hn hshift m.op hx hy cs Marks.none (marksSound_none m.op) h
  · intro e he cs x hx
    exact Replaced.agree e he hx

/-- The 64-bit `x & 255` of a variable `x`. -/
def lowByte : Expr :=
  .op ⟨.band, .u8, .v, 0, 0, 0⟩ 2 fun i =>
    if i.val = 0 then .var ⟨.u8, .u8, BitVec.allOnes 64, 0⟩ else .const .u8 255#64

/-- An environment whose variables hold 0x5634. -/
def lowByteEnv : Env Unit Unit := ⟨fun _ => .word 0x5634#64 0, fun _ => .word 0 0, fun _ => ()⟩

/-- Of the variable below `x & 255` the upper bits may change: with 0x1234 in the place of 0x5634 the
value of the expression is the same on all its bits. -/
theorem livebits_sound_lowByte :
    Replaced plainTarget ⟨fun _ _ => .word 0 0, fun _ _ _ _ => .word 0 0⟩ lowByteEnv lowByte
        [⟨BitVec.allOnes 64, false⟩] (.word 0x34#64 0) ∧
      AgreeAll lowByte.operand [⟨BitVec.allOnes 64, false⟩] (.word 0x34#64 0)
        (lowByte.eval plainTarget ⟨fun _ _ => .word 0 0, fun _ _ _ _ => .word 0 0⟩ lowByteEnv) := by
  have hreplaced : Replaced plainTarget ⟨fun _ _ => .word 0 0, fun _ _ _ _ => .word 0 0⟩ lowByteEnv
      lowByte [⟨BitVec.allOnes 64, false⟩] (.word 0x34#64 0) := by
    refine @Replaced.op _ _ _ _ _ _ _ _ _
      (fun i => if i.val = 0 then .word 0x1234#64 0 else .word 255#64 0) _ ?_ (AgreeAll.of_eq (by rfl))
    intro i
    obtain ⟨i, hi⟩ := i
    obtain rfl | rfl : i = 0 ∨ i = 1 := by omega
    · refine Replaced.var (c := .word 0x1234#64 0) ?_ (AgreeAll.of_eq (by rfl))
      intro call hcall
      have hone : call ∈ [(⟨255#64, false⟩ : Visit)] := hcall
      obtain rfl := List.mem_singleton.mp hone
      have hlow : AgreeOn 255#64 0x1234#64 0x5634#64 := by
        intro i hi
        have hbits : ∀ i < 64, (255#64).getLsbD i = true →
            (0x1234#64).getLsbD i = (0x5634#64).getLsbD i := by decide
        exact hbits i (bit_lt hi) hi
      exact ⟨hlow, fun hp => absurd hp Bool.false_ne_true⟩
    · exact Replaced.const ..
  have htyped : lowByte.WellTyped plainTarget := by
    refine ⟨⟨?_, ?_, ?_, ?_, ?_, ?_, ?_⟩, rfl, ?_⟩
    · intro k hk
      exact Option.some.inj hk
    · decide
    · intro h
      cases h
    · rfl
    · decide
    · decide
    · intro _ i o ho
      obtain ⟨hi, rfl⟩ := getElem?_operands ho
      obtain rfl | rfl : i = 0 ∨ i = 1 := by omega
      · exact Or.inl rfl
      · exact Or.inl rfl
    · intro i
      obtain ⟨i, hi⟩ := i
      obtain rfl | rfl : i = 0 ∨ i = 1 := by omega
      · exact ⟨Or.inl rfl, covers_allOnes _⟩
      · rfl
  exact ⟨hreplaced, (livebits_sound plainTarget _ lowByteEnv).2 lowByte htyped _ _ hreplaced⟩

end Path64.Bdce

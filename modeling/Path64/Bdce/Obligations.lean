import Path64.Bdce.Marking

/-!
# Bitwise dead code elimination: what a live node asks for

* `Program.needs` : the bits a call of `Mark_tree_bits_live` adds at least to `Livebits` of its node;
* `WellFormed` : the definitions of the versions are those of the statements;
* `Delivered p st id l₀ l` : the operands or definitions of a node have what the bits of `l` that are
  not in `l₀` ask of them;
* `Delivered.trans` : this adds up over several raises of the same node.
-/

namespace Path64.Bdce

open Path64.Bits

/-! ## What a call adds to a node -/

/-- The part of `loadLive` that depends on no undefined shift. -/
def loadNeeds (dsctyp : Mtype) (bits live : Mask) : Mask :=
  if (dsctyp.signed = true ∨ dsctyp.bitSize = 32) ∧ dsctyp.bitSize < 64 ∧ live >>> dsctyp.bitSize ≠ 0 then
    (live &&& bits) ||| (1#64 <<< (dsctyp.bitSize - 1))
  else live &&& bits

theorem loadLive_covers (target : Target) (dsctyp : Mtype) (bits live : Mask) :
    Covers (target.loadLive dsctyp bits live) (loadNeeds dsctyp bits live) := by
  have hpos : (dsctyp.signed = true ∨ dsctyp.bitSize = 32) → 1 ≤ dsctyp.bitSize := by
    rintro (hs | hs)
    · cases dsctyp <;> simp_all [Mtype.signed, Mtype.bitSize]
    · omega
  unfold Target.loadLive loadNeeds
  by_cases hcond : (dsctyp.signed = true ∨ dsctyp.bitSize = 32) ∧ dsctyp.bitSize < 64 ∧
      live >>> dsctyp.bitSize ≠ 0
  · have h1 := hpos hcond.1
    rw [if_pos hcond, target.shiftRight_of_lt _ hcond.2.1, if_pos ⟨hcond.1, hcond.2.2⟩,
      show ((dsctyp.bitSize : Int) - 1) = ((dsctyp.bitSize - 1 : Nat) : Int) by omega,
      target.shiftLeft_of_lt _ (by omega)]
    exact Covers.refl _
  · rw [if_neg hcond]
    split_ifs
    · exact Covers.or_left _ _
    · exact Covers.refl _

theorem ushiftRight_ne_zero_of_or {a b : Mask} {k : Nat} (h : (a ||| b) >>> k ≠ 0) :
    a >>> k ≠ 0 ∨ b >>> k ≠ 0 := by
  obtain ⟨i, hi⟩ := ne_zero_iff_bit.mp h
  rw [BitVec.getLsbD_ushiftRight, BitVec.getLsbD_or, Bool.or_eq_true] at hi
  rcases hi with hi | hi
  · exact Or.inl (ne_zero_iff_bit.mpr ⟨i, by rw [BitVec.getLsbD_ushiftRight]; exact hi⟩)
  · exact Or.inr (ne_zero_iff_bit.mpr ⟨i, by rw [BitVec.getLsbD_ushiftRight]; exact hi⟩)

theorem loadNeeds_keep (dsctyp : Mtype) (bits m : Mask) : Covers (loadNeeds dsctyp bits m) (m &&& bits) := by
  unfold loadNeeds
  split_ifs
  · exact Covers.or_left _ _
  · exact Covers.refl _

theorem loadNeeds_mono (dsctyp : Mtype) (bits : Mask) {a b : Mask} (h : Covers a b) :
    Covers (loadNeeds dsctyp bits a) (loadNeeds dsctyp bits b) := by
  have hkeep := (loadNeeds_keep dsctyp bits a).trans (h.and_right bits)
  rw [loadNeeds.eq_1 dsctyp bits b]
  split_ifs with hcond
  · refine Covers.or hkeep ?_
    obtain ⟨i, hi⟩ := ne_zero_iff_bit.mp hcond.2.2
    rw [BitVec.getLsbD_ushiftRight] at hi
    have hne : a >>> dsctyp.bitSize ≠ 0 := ushiftRight_ne_zero (h _ hi) (by omega)
    rw [loadNeeds, if_pos ⟨hcond.1, hcond.2.1, hne⟩]
    exact Covers.or_right _ _
  · exact hkeep

theorem loadNeeds_or (dsctyp : Mtype) (bits a b : Mask) :
    Covers (loadNeeds dsctyp bits a ||| loadNeeds dsctyp bits b) (loadNeeds dsctyp bits (a ||| b)) := by
  have hkeep := loadNeeds_keep dsctyp bits
  have hboth : Covers (loadNeeds dsctyp bits a ||| loadNeeds dsctyp bits b) ((a ||| b) &&& bits) :=
    Covers.trans (Covers.or ((Covers.or_left _ _).trans (hkeep a)) ((Covers.or_right _ _).trans (hkeep b)))
      (or_and_covers a b bits)
  rw [loadNeeds.eq_1 dsctyp bits (a ||| b)]
  split_ifs with hcond
  · refine Covers.or hboth ?_
    -- a higher bit of the union is one of either side, which then makes the sign bit live
    rcases ushiftRight_ne_zero_of_or hcond.2.2 with ha | hb
    · refine Covers.trans (Covers.or_left _ _) ?_
      rw [loadNeeds, if_pos ⟨hcond.1, hcond.2.1, ha⟩]
      exact Covers.or_right _ _
    · refine Covers.trans (Covers.or_right _ _) ?_
      rw [loadNeeds, if_pos ⟨hcond.1, hcond.2.1, hb⟩]
      exact Covers.or_right _ _
  · exact hboth

theorem loadNeeds_zero (dsctyp : Mtype) (bits : Mask) : loadNeeds dsctyp bits 0 = 0 := by
  unfold loadNeeds
  rw [if_neg (by simp)]
  exact BitVec.zero_and

namespace Program

variable (p : Program)

/-- The bits a call with the mask `m` adds at least to `Livebits` of the node. -/
def needs (id : Nat) (m : Mask) : Mask :=
  match p.cr id with
  | .leaf _ _ => m
  | .var v => loadNeeds v.dsctyp v.bitsInVar m &&& v.bitsInVar
  | .load _ dsctyp _ _ _ => loadNeeds dsctyp (bitsInType dsctyp) m
  | .parm t _ _ => m &&& bitsInType t
  | .op n _ => n.trimmed m

theorem needs_or (id : Nat) (a b : Mask) :
    Covers (p.needs id a ||| p.needs id b) (p.needs id (a ||| b)) := by
  unfold needs
  cases p.cr id with
  | leaf _ _ => exact Covers.refl _
  | var v =>
    refine Covers.trans ?_ (Covers.and_right (loadNeeds_or v.dsctyp v.bitsInVar a b) _)
    exact or_and_covers _ _ _
  | load _ dsctyp _ _ _ => exact loadNeeds_or _ _ _ _
  | parm t _ _ => exact or_and_covers _ _ _
  | op n _ =>
    unfold OpNode.trimmed
    dsimp only
    split_ifs
    · exact or_and_covers _ _ _
    · exact Covers.refl _

theorem needs_zero (id : Nat) : p.needs id 0 = 0 := by
  unfold needs
  cases p.cr id with
  | leaf _ _ => rfl
  | var v =>
    dsimp only
    rw [loadNeeds_zero]
    exact BitVec.zero_and
  | load _ dsctyp _ _ _ => exact loadNeeds_zero _ _
  | parm t _ _ => exact BitVec.zero_and
  | op n _ =>
    unfold OpNode.trimmed
    dsimp only
    split_ifs
    · exact BitVec.zero_and
    · rfl

theorem needs_mono (id : Nat) {a b : Mask} (h : Covers a b) : Covers (p.needs id a) (p.needs id b) := by
  unfold needs
  cases p.cr id with
  | leaf _ _ => exact h
  | var v => exact (loadNeeds_mono _ _ h).and_right _
  | load _ dsctyp _ _ _ => exact loadNeeds_mono _ _ h
  | parm t _ _ => exact h.and_right _
  | op n _ =>
    unfold OpNode.trimmed
    dsimp only
    split_ifs
    · exact h.and_right _
    · exact h

/-- The right-hand side bits an `STID` needs when its version is live as a whole. -/
def stidBits (lhs rhs : Nat) : Mask :=
  if (p.cr lhs).isPreg && (p.cr rhs).isPreg then (p.cr lhs).bitsInVar else p.stidMask lhs rhs State.init

/-- The expressions of a statement with the masks `Mark_stmt_live` asks for. -/
def stmtNeeds (k : StmtKind) : List (Nat × Mask) :=
  match k with
  | .prefetch base => [(base, bitsInType p.target.pointerType)]
  | .returnVal rtype rhs => [(rhs, bitsInType rtype)]
  | .plain rhs => rhs.toList.map fun r => (r, (p.cr r).bitsInResult)
  | .stid lhs rhs => [(rhs, p.stidBits lhs rhs)]
  | .istore base rhs dsctyp =>
    [(base, bitsInType p.target.pointerType), (rhs, (p.cr rhs).bitsInResult &&& bitsInType dsctyp)]
  | .istorex index base rhs dsctyp =>
    [(index, (p.cr index).bitsInResult), (base, bitsInType p.target.pointerType),
      (rhs, (p.cr rhs).bitsInResult &&& bitsInType dsctyp)]
  | .mstore size base rhs =>
    [(size, (p.cr size).bitsInResult), (base, bitsInType p.target.pointerType), (rhs, BitVec.allOnes 64)]

/-- The mu operands and live chi operands of a statement that are no zero versions. -/
def stmtVars (s : Nat) : List Nat :=
  p.nonzero ((p.stmt s).mus ++ ((p.stmt s).chis.filter (·.1)).map (·.2))

/-- The operands of an operator node as the transfer sees them. -/
def opnds (kids : List Nat) : List Operand := kids.map fun k => (p.cr k).operand

end Program

/-- The machine that runs the compiler shifts each bit by itself, also for the counts the language
leaves undefined. -/
structure Target.BitwiseShifts (target : Target) : Prop where
  shl : ∀ a b k, target.undefinedShl (a ||| b) k = target.undefinedShl a k ||| target.undefinedShl b k
  shr : ∀ a b k, target.undefinedShr (a ||| b) k = target.undefinedShr a k ||| target.undefinedShr b k

/-- A program whose definitions are those of its statements: an `STID` defines its left-hand side,
copies between pseudo-registers have no chi, and the operands of a phi are versions of one variable. -/
structure WellFormed (p : Program) : Prop where
  stid : ∀ id v s, p.cr id = .var v → v.defn = .stid s → ∃ rhs, (p.stmt s).kind = .stid id rhs
  chi : ∀ id v s, p.cr id = .var v → v.defn = .chi s → p.isMove s = false
  phi : ∀ id v os, p.cr id = .var v → v.defn = .phi os → ∀ o ∈ p.nonzero os,
    (p.cr o).bitsInVar = v.bitsInVar
  shifts : p.target.BitwiseShifts

/-! ## Obligations of a node -/

/-- Every version of `ids` is live as a whole. -/
def EntireLive (p : Program) (st : State) (ids : List Nat) : Prop :=
  ∀ o ∈ ids, Covers (st.livebits o) (p.cr o).bitsInVar

/-- The definition of a version has what the live bits `new` of the version ask for. A right-hand side
may instead be left to its statement, when that is live. -/
def DefDelivered (p : Program) (st : State) (v : Version) (new : Mask) : Prop :=
  match v.defn with
  | .none => True
  | .phi os => ∀ o ∈ p.nonzero os, Covers (st.livebits o) (new &&& (p.cr o).bitsInVar)
  | .chi s => v.isZeroVersion = false → new ≠ 0 → st.liveStmt s = true
  | .stid s => ∀ lhs rhs, (p.stmt s).kind = .stid lhs rhs → st.liveStmt s = true ∨
      Covers (st.livebits rhs) (p.needs rhs (new &&& p.stidBits lhs rhs))

/-- The operands and definitions of the node have what its live bits `l` beyond `l₀` ask for. -/
def Delivered (p : Program) (st : State) (id : Nat) (l₀ l : Mask) : Prop :=
  match p.cr id with
  | .leaf _ _ => True
  | .var v => DefDelivered p st v (l &&& ~~~l₀)
  | .load _ _ base second mu => l₀ = 0 → l ≠ 0 →
      Covers (st.livebits base) (p.needs base (bitsInType p.target.pointerType)) ∧
      (∀ k ∈ second.toList, Covers (st.livebits k) (p.needs k (p.cr k).bitsInResult)) ∧
      EntireLive p st (p.nonzero mu.toList)
  | .parm _ base mu => Covers (st.livebits base) (p.needs base (l &&& ~~~l₀)) ∧
      (l &&& ~~~l₀ ≠ 0 → EntireLive p st (p.nonzero mu.toList))
  | .op n kids => l ≠ l₀ → (n.visitsAll p.target = true → l₀ = 0) →
      ∀ j m, (j, m) ∈ n.passes p.target (p.opnds kids) true l (l &&& ~~~l₀) →
        Covers (st.livebits (kids.getD j id)) (p.needs (kids.getD j id) m)

/-- The expressions of a live statement have the masks it asks for. -/
def StmtDone (p : Program) (st : State) (s : Nat) : Prop :=
  (∀ q ∈ p.stmtNeeds (p.stmt s).kind, Covers (st.livebits q.1) (p.needs q.1 q.2)) ∧
    EntireLive p st (p.stmtVars s)

/-- More is live in `st'` than in `st`. -/
structure State.Le (st st' : State) : Prop where
  bits : ∀ id, Covers (st'.livebits id) (st.livebits id)
  stmts : ∀ s, st.liveStmt s = true → st'.liveStmt s = true

theorem State.Le.refl (st : State) : st.Le st := ⟨fun _ => Covers.refl _, fun _ h => h⟩

theorem State.Le.trans {a b c : State} (h₁ : a.Le b) (h₂ : b.Le c) : a.Le c :=
  ⟨fun id => (h₂.bits id).trans (h₁.bits id), fun s h => h₂.stmts s (h₁.stmts s h)⟩

section

variable {p : Program} {st st' : State}

theorem EntireLive.mono {ids : List Nat} (h : EntireLive p st ids) (hle : st.Le st') :
    EntireLive p st' ids := fun o ho => (hle.bits o).trans (h o ho)

theorem StmtDone.mono {s : Nat} (h : StmtDone p st s) (hle : st.Le st') : StmtDone p st' s :=
  ⟨fun q hq => (hle.bits q.1).trans (h.1 q hq), h.2.mono hle⟩

theorem DefDelivered.mono {v : Version} {new : Mask} (h : DefDelivered p st v new) (hle : st.Le st') :
    DefDelivered p st' v new := by
  unfold DefDelivered at h ⊢
  cases hd : v.defn with
  | none => trivial
  | phi os =>
    rw [hd] at h
    exact fun o ho => (hle.bits o).trans (h o ho)
  | chi s =>
    rw [hd] at h
    exact fun hz hl => hle.stmts s (h hz hl)
  | stid s =>
    rw [hd] at h
    intro lhs rhs hk
    rcases h lhs rhs hk with hlive | hcov
    · exact Or.inl (hle.stmts s hlive)
    · exact Or.inr ((hle.bits rhs).trans hcov)

theorem Delivered.mono {id : Nat} {l₀ l : Mask} (h : Delivered p st id l₀ l) (hle : st.Le st') :
    Delivered p st' id l₀ l := by
  unfold Delivered at h ⊢
  cases hc : p.cr id with
  | leaf _ _ => trivial
  | var v =>
    rw [hc] at h
    exact DefDelivered.mono h hle
  | load _ _ base second mu =>
    rw [hc] at h
    intro hl₀ hl
    obtain ⟨hbase, hsecond, hmu⟩ := h hl₀ hl
    exact ⟨(hle.bits base).trans hbase, fun k hk => (hle.bits k).trans (hsecond k hk), hmu.mono hle⟩
  | parm _ base mu =>
    rw [hc] at h
    exact ⟨(hle.bits base).trans h.1, fun hl => (h.2 hl).mono hle⟩
  | op n kids =>
    rw [hc] at h
    exact fun hl hv j m hm => (hle.bits _).trans (h hl hv j m hm)

theorem and_not_self_mask (l : Mask) : l &&& ~~~l = 0 := by
  apply BitVec.eq_of_getLsbD_eq
  intro i hi
  simp [hi]

theorem DefDelivered.zero (st : State) (v : Version) : DefDelivered p st v 0 := by
  unfold DefDelivered
  cases v.defn with
  | none => trivial
  | phi os =>
    intro o _
    rw [show (0 : Mask) &&& (p.cr o).bitsInVar = 0#64 from BitVec.zero_and]
    exact covers_zero _
  | chi s => exact fun _ hl => absurd rfl hl
  | stid s =>
    intro lhs rhs _
    right
    rw [show (0 : Mask) &&& p.stidBits lhs rhs = 0 from BitVec.zero_and, p.needs_zero]
    exact covers_zero _

theorem Delivered.refl (st : State) (id : Nat) (l : Mask) : Delivered p st id l l := by
  unfold Delivered
  rw [and_not_self_mask]
  cases p.cr id with
  | leaf _ _ => trivial
  | var v => exact DefDelivered.zero st v
  | load _ _ _ _ _ => exact fun hl₀ hl => absurd hl₀ hl
  | parm _ base mu =>
    refine ⟨?_, fun hl => absurd rfl hl⟩
    rw [p.needs_zero]
    exact covers_zero _
  | op n kids => exact fun hl => absurd rfl hl

/-! ## Obligations add up -/

theorem DefDelivered.or {v : Version} {a b : Mask} (ha : DefDelivered p st v a)
    (hb : DefDelivered p st v b) : DefDelivered p st v (a ||| b) := by
  unfold DefDelivered at ha hb ⊢
  cases hd : v.defn with
  | none => trivial
  | phi os =>
    rw [hd] at ha hb
    exact fun o ho => Covers.trans (Covers.or (ha o ho) (hb o ho)) (or_and_covers a b _)
  | chi s =>
    rw [hd] at ha hb
    intro hz hne
    by_cases hzero : a = 0
    · refine hb hz ?_
      rintro rfl
      rw [hzero] at hne
      exact hne BitVec.or_self
    · exact ha hz hzero
  | stid s =>
    rw [hd] at ha hb
    intro lhs rhs hk
    rcases ha lhs rhs hk with hlive | hca
    · exact Or.inl hlive
    · rcases hb lhs rhs hk with hlive | hcb
      · exact Or.inl hlive
      · right
        refine Covers.trans (Covers.or hca hcb) (Covers.trans (p.needs_or rhs _ _) ?_)
        exact p.needs_mono rhs (or_and_covers a b _)

theorem new_bits_or {l₀ l₁ l₂ : Mask} (h₀₁ : Covers l₁ l₀) (h₁₂ : Covers l₂ l₁) :
    l₂ &&& ~~~l₀ = (l₁ &&& ~~~l₀) ||| (l₂ &&& ~~~l₁) := by
  apply BitVec.eq_of_getLsbD_eq
  intro i hi
  simp only [BitVec.getLsbD_and, BitVec.getLsbD_or, BitVec.getLsbD_not, hi, decide_true, Bool.true_and]
  by_cases h1 : l₁.getLsbD i = true
  · rw [h1, h₁₂ i h1]
    simp
  · have h0 : l₀.getLsbD i = false := by
      by_contra hne
      rw [Bool.not_eq_false] at hne
      exact h1 (h₀₁ i hne)
    rw [Bool.not_eq_true] at h1
    rw [h0, h1]
    simp

theorem passes_of_reads_all {n : OpNode} {target : Target} (hv : n.visitsAll target = true)
    (opnds : List Operand) (l l' m m' : Mask) :
    n.passes target opnds true l m = n.passes target opnds true l' m' := by
  unfold OpNode.visitsAll at hv
  unfold OpNode.passes
  cases hop : n.opr <;> rw [hop] at hv <;>
    first
      | exact absurd hv Bool.false_ne_true
      | rfl
      | skip
  case cvt =>
    simp only [ne_eq, decide_not, Bool.and_eq_true, Bool.not_eq_eq_eq_not, Bool.not_true,
      decide_eq_false_iff_not, Bool.and_eq_false_iff] at hv
    have hnot : ¬ (n.dtyp.isIntegral = true ∧ (n.effDsctyp target).isIntegral = true) := by
      rintro ⟨h₁, h₂⟩
      rw [h₁, h₂] at hv
      simp at hv
    simp only [if_neg hv.1, if_neg hnot]

theorem passes_of_not_reads_all {n : OpNode} {target : Target} (hv : n.visitsAll target = false)
    (opnds : List Operand) (visitAll : Bool) (l m : Mask) :
    n.passes target opnds visitAll l m = n.passes target opnds true l m := by
  unfold OpNode.visitsAll at hv
  unfold OpNode.passes
  cases hop : n.opr <;> rw [hop] at hv <;>
    first
      | exact absurd hv.symm Bool.false_ne_true
      | rfl
      | skip
  case cvt =>
    by_cases hb : n.effDsctyp target = .b
    · simp only [if_pos hb]
    · have hint : n.dtyp.isIntegral = true ∧ (n.effDsctyp target).isIntegral = true := by
        simpa [hb] using hv
      simp only [if_neg hb, if_pos hint]

/-- The shifts by a count, whose operand is marked for the new bits only. -/
def Operator.passesNew : Operator → Bool
  | .shl | .lshr | .ashr => true
  | _ => false

theorem passes_of_not_passesNew {n : OpNode} {target : Target} (hn : n.opr.passesNew = false)
    (opnds : List Operand) (l m m' : Mask) :
    n.passes target opnds true l m = n.passes target opnds true l m' := by
  unfold OpNode.passes
  cases hop : n.opr <;> rw [hop] at hn <;> first | rfl | exact absurd hn.symm Bool.false_ne_true

namespace Target.BitwiseShifts

variable {target : Target}

theorem shiftLeft_or (h : target.BitwiseShifts) (a b : Mask) (k : Int) :
    target.shiftLeft (a ||| b) k = target.shiftLeft a k ||| target.shiftLeft b k := by
  unfold Target.shiftLeft
  split_ifs
  · exact BitVec.shiftLeft_or_distrib ..
  · exact h.shl a b k

theorem shiftRight_or (h : target.BitwiseShifts) (a b : Mask) (k : Int) :
    target.shiftRight (a ||| b) k = target.shiftRight a k ||| target.shiftRight b k := by
  unfold Target.shiftRight
  split_ifs
  · exact BitVec.ushiftRight_or_distrib ..
  · exact h.shr a b k

theorem signLivebits_or (h : target.BitwiseShifts) (dtyp : Mtype) (k : Int) (a b : Mask) :
    target.signLivebits dtyp k (a ||| b) = target.signLivebits dtyp k a ||| target.signLivebits dtyp k b := by
  -- a bit at or above the one that copies the sign is one of either side
  have hone : ∀ (w : Int) (c : Mask), (if k ≤ w ∧ target.shiftRight (a ||| b) (w - k) ≠ 0 then c else 0) =
      (if k ≤ w ∧ target.shiftRight a (w - k) ≠ 0 then c else 0) |||
        (if k ≤ w ∧ target.shiftRight b (w - k) ≠ 0 then c else 0) := by
    intro w c
    rw [h.shiftRight_or]
    by_cases hk : k ≤ w
    · by_cases ha : target.shiftRight a (w - k) = 0
      · rw [ha, show (0 : Mask) ||| target.shiftRight b (w - k) = target.shiftRight b (w - k) from BitVec.zero_or,
          if_neg (fun hc : k ≤ w ∧ (0 : Mask) ≠ 0 => hc.2 rfl)]
        exact BitVec.zero_or.symm
      · have hor : target.shiftRight a (w - k) ||| target.shiftRight b (w - k) ≠ 0 := by
          intro hzero
          have hcov := Covers.or_left (target.shiftRight a (w - k)) (target.shiftRight b (w - k))
          rw [hzero] at hcov
          exact ha (hcov.antisymm (covers_zero _)).symm
        rw [if_pos ⟨hk, hor⟩, if_pos ⟨hk, ha⟩]
        split_ifs
        · exact BitVec.or_self.symm
        · exact BitVec.or_zero.symm
    · rw [if_neg fun hc => hk hc.1, if_neg fun hc => hk hc.1, if_neg fun hc => hk hc.1]
      exact BitVec.or_self.symm
  unfold Target.signLivebits
  by_cases hsize : dtyp.bitSize < 64
  · simp only [if_pos hsize]
    exact hone 31 _
  · simp only [if_neg hsize]
    exact hone 63 _

end Target.BitwiseShifts

/-- The mask of the shifted operand. -/
def shiftedMask (target : Target) (n : OpNode) (opnds : List Operand) (live : Mask) : Mask :=
  let bits := bitsInType (n.effDsctyp target)
  (OpNode.constOpnd opnds 1).elim bits fun c =>
    match n.opr with
    | .shl => target.shiftRight (bits &&& live) c.toInt &&& bits
    | .lshr => target.shiftLeft (bits &&& live) (n.shiftAmt c) &&& bits
    | _ => (target.shiftLeft (bits &&& live) (n.shiftAmt c) &&& bits) |||
        target.signLivebits n.dtyp (n.shiftAmt c) live

theorem passes_of_passesNew {n : OpNode} {target : Target} (hn : n.opr.passesNew = true)
    (opnds : List Operand) (visitAll : Bool) (l live : Mask) :
    n.passes target opnds visitAll l live =
      [(1, bitsInType (n.effDsctyp target)), (0, shiftedMask target n opnds live)] := by
  unfold OpNode.passes shiftedMask
  cases hop : n.opr <;> rw [hop] at hn <;> first | rfl | exact absurd hn Bool.false_ne_true

theorem shiftedMask_or {n : OpNode} {target : Target} {opnds : List Operand} (hs : target.BitwiseShifts)
    (hn : n.opr.passesNew = true) (a b : Mask) :
    shiftedMask target n opnds (a ||| b) = shiftedMask target n opnds a ||| shiftedMask target n opnds b := by
  unfold shiftedMask
  cases hconst : OpNode.constOpnd opnds 1 with
  | none => exact BitVec.or_self.symm
  | some c =>
    cases hop : n.opr <;> rw [hop] at hn <;> first | exact absurd hn Bool.false_ne_true | skip
    all_goals
      simp only [Option.elim_some, BitVec.and_or_distrib_left, hs.shiftLeft_or, hs.shiftRight_or,
        BitVec.and_or_distrib_right, hs.signLivebits_or]
    case ashr => ac_rfl

theorem shiftedMask_mono {n : OpNode} {target : Target} {opnds : List Operand} (hs : target.BitwiseShifts)
    (hn : n.opr.passesNew = true) {a b : Mask} (h : Covers b a) :
    Covers (shiftedMask target n opnds b) (shiftedMask target n opnds a) := by
  rw [← or_eq_of_covers h, shiftedMask_or hs hn]
  exact Covers.or_right _ _

/-- What is delivered for two raises of a node in a row is delivered for both together. -/
theorem Delivered.trans (hp : WellFormed p) {id : Nat} {l₀ l₁ l₂ : Mask} (h₀₁ : Covers l₁ l₀)
    (h₁₂ : Covers l₂ l₁) (h : Delivered p st id l₀ l₁) (h' : Delivered p st id l₁ l₂) :
    Delivered p st id l₀ l₂ := by
  have hnew := new_bits_or h₀₁ h₁₂
  have hzero : ∀ {a b : Mask}, a ||| b ≠ 0 → a ≠ 0 ∨ b ≠ 0 := by
    intro a b hne
    by_contra hnot
    push Not at hnot
    rw [hnot.1, hnot.2] at hne
    exact hne BitVec.or_self
  unfold Delivered at h h' ⊢
  cases hc : p.cr id with
  | leaf _ _ => trivial
  | var v =>
    rw [hc] at h h'
    dsimp only at h h' ⊢
    rw [hnew]
    exact h.or h'
  | load _ _ base second mu =>
    rw [hc] at h h'
    intro hl₀ hl₂
    by_cases hl₁ : l₁ = 0
    · exact h' hl₁ hl₂
    · exact h hl₀ hl₁
  | parm _ base mu =>
    rw [hc] at h h'
    dsimp only at h h' ⊢
    rw [hnew]
    refine ⟨Covers.trans (Covers.or h.1 h'.1) (p.needs_or base _ _), ?_⟩
    intro hne
    rcases hzero hne with hne | hne
    · exact h.2 hne
    · exact h'.2 hne
  | op n kids =>
    rw [hc] at h h'
    intro hl hv j m hm
    by_cases h01 : l₁ = l₀
    · subst h01
      exact h' hl hv j m hm
    by_cases h21 : l₂ = l₁
    · subst h21
      exact h h01 hv j m hm
    by_cases hall : n.visitsAll p.target = true
    · refine h h01 hv j m ?_
      rwa [passes_of_reads_all hall _ l₁ l₂ _ (l₂ &&& ~~~l₀)]
    · have hnot : n.visitsAll p.target = true → l₁ = 0 := fun hv' => absurd hv' hall
      by_cases hpn : n.opr.passesNew = true
      · rw [hnew] at hm
        have hold := h h01 hv
        have hnow := h' h21 hnot
        rw [passes_of_passesNew hpn] at hold hnow hm
        rcases List.mem_cons.mp hm with hcount | hm
        · obtain ⟨rfl, rfl⟩ := Prod.mk.inj hcount
          exact hold _ _ (List.mem_cons_self ..)
        · obtain ⟨rfl, rfl⟩ := Prod.mk.inj (List.mem_singleton.mp hm)
          have hold₀ := hold 0 _ (List.mem_cons_of_mem _ (List.mem_singleton.mpr rfl))
          have hnow₀ := hnow 0 _ (List.mem_cons_of_mem _ (List.mem_singleton.mpr rfl))
          rw [shiftedMask_or hp.shifts hpn]
          exact Covers.trans (Covers.or hold₀ hnow₀) (p.needs_or _ _ _)
      · rw [Bool.not_eq_true] at hpn
        refine h' h21 hnot j m ?_
        rwa [passes_of_not_passesNew hpn _ l₂ _ (l₂ &&& ~~~l₀)]

end

end Path64.Bdce

import Path64.Simp.Cancel

/-!
# Cancelling common terms is sound

A comparison depends on the difference of its sides, which `cancel_in_relop` keeps: modulo the size of the type always,
and exactly where no sum wraps.

* `Reading` : nodes as numbers of a type, up to a modulus; `Additive` : sums are read as sums;
* `Side.sub_modEq` and its neighbours : each step keeps the difference of the sides;
* `cancelInRelop_sound` : the result has the truth value of the comparison, for `==` and `!=` always, for the others
  where no sum of either comparison wraps.
-/

namespace Path64.Simp

open Lib

/-- Nodes as numbers of a type, up to a modulus (exactly, where it is 0). -/
structure Reading where
  mask : Bool
  env : Env
  desc : RType
  modulus : Int

namespace Reading

variable (ρ : Reading)

/-- The number that a node is read as. -/
def val (node : Simpnode) : Int := ρ.desc.1.wrap (node.eval ρ.mask ρ.env)

/-- Sums, differences, negations and addresses in a node are read as such, and signed constants as their values. -/
def Additive : Simpnode → Prop
  | .exp1 .neg rtype kid0 =>
    Additive kid0 ∧ ρ.val (.exp1 .neg rtype kid0) ≡ -ρ.val kid0 [ZMOD ρ.modulus]
  | .exp2 .add rtype kid0 kid1 =>
    Additive kid0 ∧ Additive kid1 ∧ ρ.val (.exp2 .add rtype kid0 kid1) ≡ ρ.val kid0 + ρ.val kid1 [ZMOD ρ.modulus]
  | .exp2 .sub rtype kid0 kid1 =>
    Additive kid0 ∧ Additive kid1 ∧ ρ.val (.exp2 .sub rtype kid0 kid1) ≡ ρ.val kid0 - ρ.val kid1 [ZMOD ρ.modulus]
  | .lda rtype symbol offset => ρ.val (.lda rtype symbol offset) ≡ ρ.env.address symbol + offset [ZMOD ρ.modulus]
  | .intconst rtype c => rtype.1.isUnsigned = false → ρ.val (.intconst rtype c) ≡ c [ZMOD ρ.modulus]
  | _ => True

/-- The number that a term contributes. -/
def term (t : Term) : Int := if t.negated then -ρ.val t.node else ρ.val t.node

/-- The number that the terms of a side add up to. -/
def terms (l : List Term) : Int := (l.map ρ.term).sum

variable {ρ : Reading} {k0 k1 node : Simpnode}

theorem Additive.val_eq (h : ρ.Additive node) : ρ.val node ≡ ρ.terms node.terms [ZMOD ρ.modulus] := by
  unfold terms Simpnode.terms
  split
  · simpa [term] using h.2.2
  · simpa [term, sub_eq_add_neg] using h.2.2
  · simpa [term] using h.2
  · simp [term]

theorem Additive.terms (h : ρ.Additive node) {t : Term} (ht : t ∈ node.terms) : ρ.Additive t.node := by
  unfold Simpnode.terms at ht
  split at ht
  · rcases List.mem_pair.mp ht with rfl | rfl
    · exact h.1
    · exact h.2.1
  · rcases List.mem_pair.mp ht with rfl | rfl
    · exact h.1
    · exact h.2.1
  · rw [List.mem_singleton.mp ht]
    exact h.1
  · rw [List.mem_singleton.mp ht]
    exact h

theorem val_zero (rtype : RType) : ρ.val (.intconst rtype 0) = 0 := by
  show ρ.desc.1.wrap (rtype.1.wrap 0) = 0
  rw [MType.wrap_zero, MType.wrap_zero]

theorem simpDiffValue_val {dt : Simpnode} {negate : Bool} (h0 : ρ.Additive k0) (h1 : ρ.Additive k1)
    (h : simpDiffValue k0 k1 negate = some dt) (hdt : ρ.Additive dt) :
    ρ.val dt ≡ (if negate then -(ρ.val k0 - ρ.val k1) else ρ.val k0 - ρ.val k1) [ZMOD ρ.modulus] := by
  unfold simpDiffValue at h
  split at h
  · rename_i rtype symbol offset rtype' symbol' offset'
    by_cases hsym : symbol = symbol'
    · subst hsym
      rw [if_pos rfl] at h
      cases h
      have hsub := Int.ModEq.sub h0 h1
      rw [add_sub_add_left_eq_sub] at hsub
      refine (hdt (by split_ifs <;> rfl)).trans ?_
      cases negate
      · exact hsub.symm
      · exact hsub.neg.symm
    · rw [if_neg hsym, if_neg fun heq => hsym (Simpnode.lda.inj heq).2.1] at h
      exact nomatch h
  · split_ifs at h with heq
    cases h
    rw [heq, val_zero, sub_self, neg_zero, ite_self]

theorem simpDiffValue_of_isSum {dt : Simpnode} {negate : Bool} (hsum : k0.isSum = true)
    (h : simpDiffValue k0 k1 negate = some dt) : k0 = k1 ∧ ρ.val dt = 0 := by
  unfold simpDiffValue at h
  split at h
  · exact nomatch hsum
  · split_ifs at h with heq
    cases h
    exact ⟨heq, val_zero _⟩

theorem terms_choices {l : List Term} {a : Term} {rest : Option Term} (h : (a, rest) ∈ choices l) :
    ρ.terms l = ρ.term a + (rest.map ρ.term).getD 0 := by
  unfold choices at h
  split at h
  · rcases List.mem_pair.mp h with h | h <;> obtain ⟨rfl, rfl⟩ := Prod.mk.inj h
    · simp [terms]
    · simp [terms, add_comm]
  · obtain ⟨rfl, rfl⟩ := Prod.mk.inj (List.mem_singleton.mp h)
    simp [terms]
  · exact nomatch h

theorem mem_of_mem_choices {l : List Term} {a : Term} {rest : Option Term} (h : (a, rest) ∈ choices l) :
    a ∈ l ∧ ∀ b ∈ rest, b ∈ l := by
  unfold choices at h
  split at h
  · rcases List.mem_pair.mp h with h | h <;> obtain ⟨rfl, rfl⟩ := Prod.mk.inj h
    · simp
    · simp
  · obtain ⟨rfl, rfl⟩ := Prod.mk.inj (List.mem_singleton.mp h)
    simp
  · exact nomatch h

end Reading

/-! ## Sizes -/

/-- A sum of nodes of the size of `ty`; an address has an `INT32` offset. -/
def Simpnode.Sized (ty : RType) : Simpnode → Prop
  | .exp1 .neg rtype kid0 => rtype.1.bits = ty.1.bits ∧ kid0.Sized ty
  | .exp2 .add rtype kid0 kid1 | .exp2 .sub rtype kid0 kid1 =>
    rtype.1.bits = ty.1.bits ∧ kid0.Sized ty ∧ kid1.Sized ty
  | .lda rtype _ offset => rtype.1.bits = ty.1.bits ∧ rtype.1.isUnsigned = true ∧ InInt32 offset
  | node => node.rtype.1.bits = ty.1.bits

namespace Simpnode

variable {ty : RType} {k0 k1 node : Simpnode}

theorem Sized.bits (h : node.Sized ty) : node.rtype.1.bits = ty.1.bits := by
  unfold Sized at h
  split at h
  · exact h.1
  · exact h.1
  · exact h.1
  · exact h.1
  · exact h

theorem Sized.terms (h : node.Sized ty) {t : Term} (ht : t ∈ node.terms) : t.node.Sized ty := by
  unfold Simpnode.terms at ht
  split at ht
  · rcases List.mem_pair.mp ht with rfl | rfl
    · exact h.2.1
    · exact h.2.2
  · rcases List.mem_pair.mp ht with rfl | rfl
    · exact h.2.1
    · exact h.2.2
  · rw [List.mem_singleton.mp ht]
    exact h.2
  · rw [List.mem_singleton.mp ht]
    exact h

theorem Sized.simpDiffValue {dt : Simpnode} {negate : Bool} (h0 : k0.Sized ty)
    (h : Simp.simpDiffValue k0 k1 negate = some dt) : dt.Sized ty := by
  have hbits := h0.bits
  unfold Simp.simpDiffValue at h
  split at h
  · rename_i rtype symbol offset rtype' symbol' offset'
    obtain ⟨hbits, huns, -⟩ := h0
    by_cases hsym : symbol = symbol'
    · rw [if_pos hsym] at h
      cases h
      rcases RType.cases rtype with rfl | rfl | rfl | rfl
      · exact absurd huns (by decide)
      · exact absurd huns (by decide)
      · exact hbits
      · exact hbits
    · rw [if_neg hsym, if_neg fun heq => hsym (Simpnode.lda.inj heq).2.1] at h
      exact nomatch h
  · split_ifs at h
    cases h
    exact hbits

end Simpnode

namespace Reading

variable {ρ : Reading} {k0 k1 node : Simpnode}

/-! ## What is left -/

variable {opr : Relop} {rty ty desc : RType}

theorem sized_createSigned {t : Term} (h : t.node.Sized ty) : (createSigned (Creates.plain ρ.mask) ty t).Sized ty := by
  unfold createSigned
  split_ifs
  · exact ⟨bits_signed ty, h⟩
  · exact h

theorem additive_createSigned {t : Term} (h : ρ.Additive (createSigned (Creates.plain ρ.mask) ty t)) :
    ρ.Additive t.node ∧ ρ.val (createSigned (Creates.plain ρ.mask) ty t) ≡ ρ.term t [ZMOD ρ.modulus] := by
  unfold createSigned at h ⊢
  unfold term
  split_ifs at h ⊢ with hneg
  · exact h
  · exact ⟨h, rfl⟩

theorem compareTerms_spec (opr : Relop) (rty ty desc : RType) (lhs rhs : Term) : ∃ a b,
    compareTerms (Creates.plain ρ.mask) opr rty ty desc lhs rhs = .relop opr rty desc a b ∧
    (lhs.node.Sized ty → rhs.node.Sized ty → a.Sized ty ∧ b.Sized ty) ∧
    (ρ.Additive a → ρ.Additive b → ρ.Additive lhs.node ∧ ρ.Additive rhs.node ∧
      ρ.val a - ρ.val b ≡ ρ.term lhs - ρ.term rhs [ZMOD ρ.modulus]) := by
  unfold compareTerms
  split_ifs with hneg
  · refine ⟨_, _, rfl, fun hl hr => ⟨hr, hl⟩, fun ha hb => ⟨hb, ha, ?_⟩⟩
    rw [term, term, if_pos hneg.1, if_pos hneg.2, neg_sub_neg]
  · refine ⟨_, _, rfl, fun hl hr => ⟨sized_createSigned hl, sized_createSigned hr⟩, fun ha hb => ?_⟩
    obtain ⟨hl, hlval⟩ := additive_createSigned ha
    obtain ⟨hr, hrval⟩ := additive_createSigned hb
    exact ⟨hl, hr, hlval.sub hrval⟩

/-- The difference of two cancelled terms goes to one of those that are left. -/
theorem cancelPair_spec {dt : Simpnode} {lhs : Term} {rhs : Option Term} {l r : Term}
    (h : cancelPair (Creates.plain ρ.mask) ty dt lhs rhs = (l, r)) (hl : ρ.Additive l.node) (hr : ρ.Additive r.node) :
    ρ.Additive dt ∧
      ρ.term l - ρ.term r ≡ ρ.val dt + ρ.term lhs - (rhs.map ρ.term).getD 0 [ZMOD ρ.modulus] := by
  obtain ⟨negated, node⟩ := lhs
  cases rhs with
  | none =>
    cases negated with
    | false =>
      cases h
      refine ⟨hr.1, ?_⟩
      have := hr.2.neg.add_left (ρ.val node)
      simpa [term, sub_eq_add_neg, add_comm, Creates.plain] using this
    | true =>
      cases h
      refine ⟨hr, ?_⟩
      simp [term, add_comm]
  | some rhs =>
    cases negated with
    | false =>
      cases h
      refine ⟨hl.2.1, ?_⟩
      have := hl.2.2.sub_right (ρ.term r)
      simpa [term, add_comm, Creates.plain] using this
    | true =>
      cases h
      refine ⟨hl.2.1.1, ?_⟩
      have := ((hl.2.2.trans (hl.2.1.2.add_left _)).neg).sub_right (ρ.term r)
      simpa [term, add_comm, Creates.plain] using this

theorem sized_cancelPair {dt : Simpnode} {lhs : Term} {rhs : Option Term} {l r : Term}
    (h : cancelPair (Creates.plain ρ.mask) ty dt lhs rhs = (l, r)) (hdt : dt.Sized ty) (hlhs : lhs.node.Sized ty)
    (hrhs : ∀ t ∈ rhs, t.node.Sized ty) : l.node.Sized ty ∧ r.node.Sized ty := by
  have hneg : (Simpnode.exp1 .neg ty.signed dt).Sized ty := ⟨bits_signed ty, hdt⟩
  obtain ⟨negated, node⟩ := lhs
  cases rhs <;> cases negated <;> cases h
  · exact ⟨hlhs, hneg⟩
  · exact ⟨hlhs, hdt⟩
  · exact ⟨⟨rfl, hlhs, hdt⟩, hrhs _ rfl⟩
  · exact ⟨⟨rfl, hlhs, hneg⟩, hrhs _ rfl⟩

theorem cancelTerms_cases {create : Creates ρ.mask} {l r : Term} (h : cancelTerms create ty k0 k1 = some (l, r)) :
    ∃ a lhs b rhs dt, (a, some lhs) ∈ choices k0.terms ∧ (b, rhs) ∈ choices k1.terms ∧ a.negated = b.negated ∧
      simpDiffValue a.node b.node a.negated = some dt ∧ cancelPair create ty dt lhs rhs = (l, r) := by
  obtain ⟨⟨a, lhs⟩, ha, h⟩ := List.exists_of_findSome?_eq_some h
  obtain ⟨⟨b, rhs⟩, hb, h⟩ := List.exists_of_findSome?_eq_some h
  simp only at h
  split_ifs at h with hsign
  cases hdiff : simpDiffValue a.node b.node a.negated with
  | none => simp [hdiff] at h
  | some dt =>
    cases lhs with
    | none => simp [hdiff] at h
    | some lhs =>
      simp only [hdiff, Option.some.injEq] at h
      exact ⟨a, lhs, b, rhs, dt, ha, hb, hsign, hdiff, h⟩

theorem cancelSide_cases {l r : Term} (h : cancelSide k0 k1 = some (l, r)) :
    (∃ a dt, (a, some l) ∈ choices k0.terms ∧ a.negated = false ∧ simpDiffValue k1 a.node true = some dt ∧
      r = ⟨false, dt⟩) ∨
    ∃ b dt, (b, some r) ∈ choices k1.terms ∧ b.negated = false ∧ simpDiffValue k0 b.node false = some dt ∧
      l = ⟨false, dt⟩ := by
  obtain ⟨⟨⟨a, lhs⟩, ⟨b, rhs⟩⟩, hmem, h⟩ := List.exists_of_findSome?_eq_some h
  obtain ⟨ha, hb⟩ := List.of_mem_zip hmem
  simp only at h
  cases hdiff0 : if a.negated then none else simpDiffValue k1 a.node true with
  | some dt =>
    obtain ⟨lhs, rfl, hlr⟩ : ∃ lhs', lhs = some lhs' ∧ (lhs', (⟨false, dt⟩ : Term)) = (l, r) := by
      simpa [hdiff0] using h
    cases hlr
    split_ifs at hdiff0 with hneg
    exact Or.inl ⟨a, dt, ha, Bool.eq_false_of_not_eq_true hneg, hdiff0, rfl⟩
  | none =>
    simp only [hdiff0] at h
    cases hdiff1 : if b.negated then none else simpDiffValue k0 b.node false with
    | none => simp [hdiff1] at h
    | some dt =>
      obtain ⟨rhs, rfl, hlr⟩ : ∃ rhs', rhs = some rhs' ∧ ((⟨false, dt⟩ : Term), rhs') = (l, r) := by
        simpa [hdiff1] using h
      cases hlr
      split_ifs at hdiff1 with hneg
      exact Or.inr ⟨b, dt, hb, Bool.eq_false_of_not_eq_true hneg, hdiff1, rfl⟩

theorem cancelTerms_spec {l r : Term} (h : cancelTerms (Creates.plain ρ.mask) ty k0 k1 = some (l, r))
    (h0 : ρ.Additive k0) (h1 : ρ.Additive k1) (hl : ρ.Additive l.node) (hr : ρ.Additive r.node) :
    ρ.term l - ρ.term r ≡ ρ.val k0 - ρ.val k1 [ZMOD ρ.modulus] := by
  obtain ⟨a, lhs, b, rhs, dt, ha, hb, hsign, hdiff, h⟩ := cancelTerms_cases h
  obtain ⟨hdt, hpair⟩ := cancelPair_spec h hl hr
  have hval := simpDiffValue_val (h0.terms (mem_of_mem_choices ha).1) (h1.terms (mem_of_mem_choices hb).1) hdiff hdt
  have hterms : ρ.val dt ≡ ρ.term a - ρ.term b [ZMOD ρ.modulus] := by
    refine hval.trans ?_
    rw [term, term, ← hsign]
    cases a.negated
    · rfl
    · simp [sub_eq_add_neg, add_comm]
  refine hpair.trans (Int.ModEq.trans ?_ (h0.val_eq.sub h1.val_eq).symm)
  rw [terms_choices ha, terms_choices hb]
  have hring : ∀ x : Int, ρ.term a - ρ.term b + ρ.term lhs - x = ρ.term a + ρ.term lhs - (ρ.term b + x) :=
    fun x => by ring
  have := (hterms.add_right (ρ.term lhs)).sub_right ((rhs.map ρ.term).getD 0)
  rwa [hring] at this

theorem sized_cancelTerms {l r : Term} (h : cancelTerms (Creates.plain ρ.mask) ty k0 k1 = some (l, r))
    (h0 : k0.Sized ty) (h1 : k1.Sized ty) : l.node.Sized ty ∧ r.node.Sized ty := by
  obtain ⟨a, lhs, b, rhs, dt, ha, hb, -, hdiff, h⟩ := cancelTerms_cases h
  exact sized_cancelPair h ((h0.terms (mem_of_mem_choices ha).1).simpDiffValue hdiff)
    (h0.terms ((mem_of_mem_choices ha).2 lhs rfl)) fun t ht => h1.terms ((mem_of_mem_choices hb).2 t ht)

theorem cancelSide_spec {l r : Term} (h : cancelSide k0 k1 = some (l, r)) (hsum0 : k0.isSum = true)
    (hsum1 : k1.isSum = true) (h0 : ρ.Additive k0) (h1 : ρ.Additive k1) :
    ρ.term l - ρ.term r ≡ ρ.val k0 - ρ.val k1 [ZMOD ρ.modulus] := by
  rcases cancelSide_cases h with ⟨a, dt, ha, hneg, hdiff, rfl⟩ | ⟨b, dt, hb, hneg, hdiff, rfl⟩
  · obtain ⟨heq, hdt⟩ := simpDiffValue_of_isSum (ρ := ρ) hsum1 hdiff
    have hval := h0.val_eq
    rw [terms_choices ha, term, hneg, if_neg Bool.false_ne_true, ← heq] at hval
    have := (hval.sub_right (ρ.val k1)).symm
    simpa [term, hdt] using this
  · obtain ⟨heq, hdt⟩ := simpDiffValue_of_isSum (ρ := ρ) hsum0 hdiff
    have hval := h1.val_eq
    rw [terms_choices hb, term, hneg, if_neg Bool.false_ne_true, ← heq] at hval
    have := (hval.sub_left (ρ.val k0)).symm
    simpa [term, hdt] using this

theorem sized_cancelSide {l r : Term} (h : cancelSide k0 k1 = some (l, r)) (h0 : k0.Sized ty) (h1 : k1.Sized ty) :
    l.node.Sized ty ∧ r.node.Sized ty := by
  rcases cancelSide_cases h with ⟨a, dt, ha, -, hdiff, rfl⟩ | ⟨b, dt, hb, -, hdiff, rfl⟩
  · exact ⟨h0.terms ((mem_of_mem_choices ha).2 l rfl), h1.simpDiffValue hdiff⟩
  · exact ⟨h0.simpDiffValue hdiff, h1.terms ((mem_of_mem_choices hb).2 r rfl)⟩

theorem sized_remaining {l r : Term} (h : remaining (Creates.plain ρ.mask) ty k0 k1 = some (l, r))
    (h0 : k0.Sized ty) (h1 : k1.Sized ty) : l.node.Sized ty ∧ r.node.Sized ty := by
  unfold remaining at h
  cases hterms : cancelTerms (Creates.plain ρ.mask) ty k0 k1 with
  | some left =>
    simp only [hterms, Option.orElse_eq_orElse, Option.orElse_some, Option.some.injEq] at h
    exact sized_cancelTerms (hterms.trans (congrArg some h)) h0 h1
  | none =>
    simp only [hterms, Option.orElse_eq_orElse, Option.orElse_none] at h
    split_ifs at h
    exact sized_cancelSide h h0 h1

theorem remaining_spec {l r : Term} (h : remaining (Creates.plain ρ.mask) ty k0 k1 = some (l, r))
    (hsum : k0.isSum = true) (h0 : ρ.Additive k0) (h1 : ρ.Additive k1) (hl : ρ.Additive l.node)
    (hr : ρ.Additive r.node) : ρ.term l - ρ.term r ≡ ρ.val k0 - ρ.val k1 [ZMOD ρ.modulus] := by
  unfold remaining at h
  cases hterms : cancelTerms (Creates.plain ρ.mask) ty k0 k1 with
  | some left =>
    simp only [hterms, Option.orElse_eq_orElse, Option.orElse_some, Option.some.injEq] at h
    exact cancelTerms_spec (hterms.trans (congrArg some h)) h0 h1 hl hr
  | none =>
    simp only [hterms, Option.orElse_eq_orElse, Option.orElse_none] at h
    split_ifs at h with hsum1
    exact cancelSide_spec h hsum hsum1 h0 h1

theorem cancelSums_spec {flags : Flags} {hasPointerType : Simpnode → Bool} {r : Simpnode}
    (h : cancelSums flags hasPointerType (Creates.plain ρ.mask) opr rty ty k0 k1 = some r) (hsum : k0.isSum = true) :
    ∃ desc a b, r = .relop opr rty desc a b ∧
      desc = (if pointerSeen hasPointerType opr k0 k1 then ty.signed else ty) ∧
      (k0.Sized ty → k1.Sized ty → a.Sized ty ∧ b.Sized ty) ∧
      (ρ.Additive a → ρ.Additive b → ρ.Additive k0 → ρ.Additive k1 →
        ρ.val a - ρ.val b ≡ ρ.val k0 - ρ.val k1 [ZMOD ρ.modulus]) := by
  unfold cancelSums at h
  split at h
  · exact nomatch h
  · obtain ⟨⟨l, r'⟩, hleft, hr⟩ := Option.map_eq_some_iff.mp h
    obtain ⟨a, b, hab, hsized, hspec⟩ := @compareTerms_spec ρ opr rty ty
      (if pointerSeen hasPointerType opr k0 k1 then ty.signed else ty) l r'
    refine ⟨_, a, b, hr.symm.trans hab, rfl, fun h0 h1 => ?_, fun ha hb h0 h1 => ?_⟩
    · obtain ⟨hl, hr'⟩ := sized_remaining (ρ := ρ) hleft h0 h1
      exact hsized hl hr'
    obtain ⟨hl, hr', hdiff⟩ := hspec ha hb
    exact hdiff.trans (remaining_spec hleft hsum h0 h1 hl hr')

/-- What `cancel_in_relop` makes of a comparison other than that of two addresses in one symbol. -/
structure Cancelled (ρ : Reading) (opr : Relop) (ty : RType) (k0 k1 : Simpnode) (o : Relop) (desc : RType)
    (a b : Simpnode) : Prop where
  desc_eq : desc = ty ∨ (opr.isEquality = false ∧ desc = ty.signed)
  sized : k0.Sized ty → k1.Sized ty → a.Sized ty ∧ b.Sized ty
  sides : ρ.Additive a → ρ.Additive b → ρ.Additive k0 → ρ.Additive k1 →
    (o = opr ∧ ρ.val a - ρ.val b ≡ ρ.val k0 - ρ.val k1 [ZMOD ρ.modulus]) ∨
    (o = opr.commutative ∧ ρ.val b - ρ.val a ≡ ρ.val k0 - ρ.val k1 [ZMOD ρ.modulus])

theorem commutative_commutative (opr : Relop) : opr.commutative.commutative = opr := by
  cases opr <;> rfl

theorem isEquality_commutative (opr : Relop) : opr.commutative.isEquality = opr.isEquality := by
  cases opr <;> rfl

theorem Cancelled.swap {o : Relop} {a b : Simpnode} (h : Cancelled ρ opr.commutative ty k1 k0 o desc a b) :
    Cancelled ρ opr ty k0 k1 o desc a b where
  desc_eq := by simpa [isEquality_commutative] using h.desc_eq
  sized h0 h1 := h.sized h1 h0
  sides ha hb h0 h1 := by
    rcases h.sides ha hb h1 h0 with ⟨ho, hdiff⟩ | ⟨ho, hdiff⟩
    · exact Or.inr ⟨ho, by simpa using hdiff.neg⟩
    · exact Or.inl ⟨by rw [ho, commutative_commutative], by simpa using hdiff.neg⟩

theorem cancelSums_cancelled {flags : Flags} {hasPointerType : Simpnode → Bool} {r : Simpnode}
    (h : cancelSums flags hasPointerType (Creates.plain ρ.mask) opr rty ty k0 k1 = some r) (hsum : k0.isSum = true) :
    ∃ desc a b, r = .relop opr rty desc a b ∧ Cancelled ρ opr ty k0 k1 opr desc a b := by
  obtain ⟨desc, a, b, hr, hdesc, hsized, hdiff⟩ := cancelSums_spec h hsum
  refine ⟨desc, a, b, hr, ?_, hsized, fun ha hb h0 h1 => Or.inl ⟨rfl, hdiff ha hb h0 h1⟩⟩
  rw [hdesc]
  split_ifs with hp
  · simp only [pointerSeen, Bool.and_eq_true, Bool.not_eq_true'] at hp
    exact Or.inr ⟨hp.1, rfl⟩
  · exact Or.inl rfl

theorem isSum_of_isAdd (h : node.isAdd = true) : node.isSum = true := by
  unfold Simpnode.isAdd at h
  split at h
  · rfl
  · exact nomatch h

theorem cancelAddLeft_cancelled {flags : Flags} {hasPointerType : Simpnode → Bool} {r : Simpnode}
    (h : cancelAddLeft flags hasPointerType (Creates.plain ρ.mask) opr rty ty k0 k1 = some r) (hsum : k0.isSum = true) :
    ∃ o desc a b, r = .relop o rty desc a b ∧ Cancelled ρ opr ty k0 k1 o desc a b := by
  unfold cancelAddLeft at h
  split_ifs at h with hadd
  · obtain ⟨desc, a, b, hr, hc⟩ := cancelSums_cancelled h (isSum_of_isAdd hadd.2)
    exact ⟨_, desc, a, b, hr, hc.swap⟩
  · obtain ⟨desc, a, b, hr, hc⟩ := cancelSums_cancelled h hsum
    exact ⟨_, desc, a, b, hr, hc⟩

theorem cancelInRelop_cancelled {flags : Flags} {hasPointerType : Simpnode → Bool} {r : Simpnode}
    (h : cancelInRelop flags hasPointerType (Creates.plain ρ.mask) opr rty ty k0 k1 = some r) :
    (∃ t t' symbol offset offset', k0 = .lda t symbol offset ∧ k1 = .lda t' symbol offset' ∧
      r = .relop opr .i4 .i8 (.intconst .i8 offset) (.intconst .i8 offset')) ∨
    ∃ o desc a b, r = .relop o rty desc a b ∧ Cancelled ρ opr ty k0 k1 o desc a b := by
  unfold cancelInRelop at h
  split at h
  · -- two negations
    cases h
    refine Or.inr ⟨_, _, _, _, rfl, Or.inl rfl, fun h0 h1 => ⟨h0.2, h1.2⟩, fun _ _ h0 h1 => Or.inr ⟨rfl, ?_⟩⟩
    have := (h0.2.sub h1.2).symm
    rwa [neg_sub_neg] at this
  · -- two addresses
    split_ifs at h with hsym
    cases h
    subst hsym
    exact Or.inl ⟨_, _, _, _, _, rfl, rfl, rfl⟩
  · split_ifs at h with hflag hnone hsum
    · exact Or.inr (cancelAddLeft_cancelled h hsum)
    · obtain ⟨o, desc, a, b, hr, hc⟩ := cancelAddLeft_cancelled h (by simpa [hsum] using hnone)
      exact Or.inr ⟨o, desc, a, b, hr, hc.swap⟩

end Reading

/-! ## The functions that create nodes -/

section Values

variable {mask : Bool} {create : Creates mask} {opr : Relop} {rty ty desc : RType} {k0 k1 : Simpnode}

/-- The value of a node in every environment. -/
def Simpnode.values (mask : Bool) (node : Simpnode) (env : Env) : Int := node.eval mask env

/-- The sign of a term, and its value in every environment. -/
def Term.values (mask : Bool) (t : Term) : Bool × (Env → Int) := (t.negated, t.node.values mask)

theorem values_relop (o : Relop) (a b : Simpnode) {a' b' : Simpnode} (ha : a.values mask = a'.values mask)
    (hb : b.values mask = b'.values mask) :
    (create.relop o rty desc a b).values mask = (Simpnode.relop o rty desc a' b').values mask := by
  funext env
  have ha := congrFun ha env
  have hb := congrFun hb env
  unfold Simpnode.values at *
  rw [create.eval_relop, eval_relop_eq, eval_relop_eq, ha, hb]

theorem values_neg (a : Simpnode) {a' : Simpnode} (ha : a.values mask = a'.values mask) :
    (create.exp1 .neg desc a).values mask = (Simpnode.exp1 .neg desc a').values mask := by
  funext env
  have ha := congrFun ha env
  unfold Simpnode.values at *
  rw [create.eval_exp1]
  show desc.1.wrap (Opr1.apply _ (desc.1.wrap _)) = desc.1.wrap (Opr1.apply _ (desc.1.wrap _))
  rw [ha]

theorem values_add (a b : Simpnode) {b' : Simpnode} (hb : b.values mask = b'.values mask) :
    (create.exp2 .add desc a b).values mask = (Simpnode.exp2 .add desc a b').values mask := by
  funext env
  have hb := congrFun hb env
  unfold Simpnode.values at *
  rw [create.eval_exp2]
  show desc.1.wrap (desc.1.wrap _ + desc.1.wrap _) = desc.1.wrap (desc.1.wrap _ + desc.1.wrap _)
  rw [hb]

theorem values_compareTerms {lhs rhs lhs' rhs' : Term} (hl : lhs.values mask = lhs'.values mask)
    (hr : rhs.values mask = rhs'.values mask) :
    (compareTerms create opr rty ty desc lhs rhs).values mask =
      (compareTerms (Creates.plain mask) opr rty ty desc lhs' rhs').values mask := by
  obtain ⟨sl, l⟩ := lhs
  obtain ⟨sr, r⟩ := rhs
  obtain ⟨sl', l'⟩ := lhs'
  obtain ⟨sr', r'⟩ := rhs'
  obtain ⟨rfl, hl⟩ := Prod.mk.inj hl
  obtain ⟨rfl, hr⟩ := Prod.mk.inj hr
  cases sl <;> cases sr
  · exact values_relop opr l r hl hr
  · exact values_relop opr l _ hl (values_neg r hr)
  · exact values_relop opr _ r (values_neg l hl) hr
  · exact values_relop opr r l hr hl

/-- The values of the two terms that are left. -/
def pairValues (mask : Bool) (left : Term × Term) : (Bool × (Env → Int)) × (Bool × (Env → Int)) :=
  (left.1.values mask, left.2.values mask)

theorem values_cancelPair (dt : Simpnode) (lhs : Term) (rhs : Option Term) :
    pairValues mask (cancelPair create ty dt lhs rhs) = pairValues mask (cancelPair (Creates.plain mask) ty dt lhs rhs) := by
  obtain ⟨sl, l⟩ := lhs
  cases rhs <;> cases sl
  · exact Prod.ext rfl (Prod.ext rfl (values_neg dt rfl))
  · rfl
  · exact Prod.ext (Prod.ext rfl (values_add l dt rfl)) rfl
  · exact Prod.ext (Prod.ext rfl (values_add l _ (values_neg dt rfl))) rfl

theorem values_cancelTerms (create : Creates mask) (ty : RType) (k0 k1 : Simpnode) :
    (cancelTerms create ty k0 k1).map (pairValues mask) =
      (cancelTerms (Creates.plain mask) ty k0 k1).map (pairValues mask) := by
  unfold cancelTerms
  rw [List.map_findSome?, List.map_findSome?]
  refine congrArg (fun f => List.findSome? f _) (funext fun ⟨a, lhs⟩ => ?_)
  simp only [Function.comp_apply]
  rw [List.map_findSome?, List.map_findSome?]
  refine congrArg (fun f => List.findSome? f _) (funext fun ⟨b, rhs⟩ => ?_)
  simp only [Function.comp_apply]
  split_ifs
  · cases simpDiffValue a.node b.node a.negated with
    | none => rfl
    | some dt =>
      cases lhs with
      | none => rfl
      | some lhs => exact congrArg some (values_cancelPair dt lhs rhs)
  · rfl

theorem values_remaining (create : Creates mask) (ty : RType) (k0 k1 : Simpnode) :
    (remaining create ty k0 k1).map (pairValues mask) =
      (remaining (Creates.plain mask) ty k0 k1).map (pairValues mask) := by
  have h := values_cancelTerms create ty k0 k1
  unfold remaining
  cases h0 : cancelTerms create ty k0 k1 with
  | none =>
    rw [h0] at h
    rw [Option.map_eq_none_iff.mp h.symm]
  | some left =>
    rw [h0] at h
    obtain ⟨left', h1, hleft⟩ := Option.map_eq_some_iff.mp h.symm
    rw [h1]
    exact congrArg some hleft.symm

theorem values_cancelSums (flags : Flags) (hasPointerType : Simpnode → Bool) :
    (cancelSums flags hasPointerType create opr rty ty k0 k1).map (Simpnode.values mask) =
      (cancelSums flags hasPointerType (Creates.plain mask) opr rty ty k0 k1).map (Simpnode.values mask) := by
  have h := values_remaining create ty k0 k1
  unfold cancelSums
  split
  · rfl
  · cases h0 : remaining create ty k0 k1 with
    | none =>
      rw [h0] at h
      rw [Option.map_eq_none_iff.mp h.symm]
      rfl
    | some left =>
      rw [h0] at h
      obtain ⟨left', h1, hleft⟩ := Option.map_eq_some_iff.mp h.symm
      rw [h1]
      obtain ⟨hl, hr⟩ := Prod.mk.inj hleft
      exact congrArg some (values_compareTerms hl.symm hr.symm)

theorem values_cancelInRelop (flags : Flags) (hasPointerType : Simpnode → Bool) (create : Creates mask) (opr : Relop)
    (rty ty : RType) (k0 k1 : Simpnode) :
    (cancelInRelop flags hasPointerType create opr rty ty k0 k1).map (Simpnode.values mask) =
      (cancelInRelop flags hasPointerType (Creates.plain mask) opr rty ty k0 k1).map (Simpnode.values mask) := by
  unfold cancelInRelop
  split
  · exact congrArg some (values_relop _ _ _ rfl rfl)
  · split_ifs
    · exact congrArg some (values_relop _ _ _ rfl rfl)
    · rfl
  · unfold cancelAddLeft
    split_ifs <;> first | rfl | exact values_cancelSums flags hasPointerType

end Values

/-! ## Soundness -/

section Sound

variable {mask : Bool} {ty desc : RType} {node k0 k1 : Simpnode}

theorem additive_of_sized (env : Env) (hdesc : desc.1.bits = ty.1.bits) (h : node.Sized ty) :
    Reading.Additive ⟨mask, env, desc, 2 ^ ty.1.bits⟩ node := by
  have hread : ∀ (rtype : RType) (x : Int), rtype.1.bits = ty.1.bits →
      desc.1.wrap (rtype.1.wrap x) ≡ x [ZMOD 2 ^ ty.1.bits] := by
    intro rtype x hbits
    exact ((hdesc ▸ MType.wrap_modEq desc.1 _ :)).trans (hbits ▸ MType.wrap_modEq rtype.1 x)
  have hval : ∀ (rtype : RType) (k : Simpnode), rtype.1.bits = ty.1.bits →
      rtype.1.wrap (k.eval mask env) ≡ desc.1.wrap (k.eval mask env) [ZMOD 2 ^ ty.1.bits] := by
    intro rtype k hbits
    exact ((hbits ▸ MType.wrap_modEq rtype.1 _ :)).trans (hdesc ▸ MType.wrap_modEq desc.1 _ :).symm
  induction node with
  | exp1 opr rtype kid0 ih =>
    cases opr with
    | neg => exact ⟨ih h.2, (hread rtype _ h.1).trans (hval rtype kid0 h.1).neg⟩
    | bnot => trivial
    | lnot => trivial
  | exp2 opr rtype kid0 kid1 ih0 ih1 =>
    cases opr with
    | add => exact ⟨ih0 h.2.1, ih1 h.2.2, (hread rtype _ h.1).trans ((hval rtype kid0 h.1).add (hval rtype kid1 h.1))⟩
    | sub => exact ⟨ih0 h.2.1, ih1 h.2.2, (hread rtype _ h.1).trans ((hval rtype kid0 h.1).sub (hval rtype kid1 h.1))⟩
    | _ => trivial
  | lda rtype symbol offset => exact hread rtype _ h.1
  | intconst rtype c => exact fun _ => hread rtype c h
  | _ => trivial

theorem holds_congr (opr : Relop) {a b a' b' : Int} (h : a - b = a' - b') : opr.holds a b = opr.holds a' b' := by
  cases opr <;> simp only [Relop.holds, decide_eq_decide] <;> omega

theorem holds_equality_congr {opr : Relop} (hopr : opr.isEquality = true) (ty : RType) {a b a' b' : Int}
    (h : a - b ≡ a' - b' [ZMOD 2 ^ ty.1.bits]) :
    opr.holds (ty.1.wrap a) (ty.1.wrap b) = opr.holds (ty.1.wrap a') (ty.1.wrap b') := by
  have hiff : ty.1.wrap a = ty.1.wrap b ↔ ty.1.wrap a' = ty.1.wrap b' := by
    rw [MType.wrap_eq_iff, MType.wrap_eq_iff, Int.emod_eq_emod_iff_emod_sub_eq_zero,
      Int.emod_eq_emod_iff_emod_sub_eq_zero, show (a - b) % 2 ^ ty.1.bits = (a' - b') % 2 ^ ty.1.bits from h]
  cases opr with
  | eq => exact decide_eq_decide.mpr hiff
  | ne => exact decide_eq_decide.mpr (not_congr hiff)
  | _ => exact absurd hopr (by decide)

theorem holds_addresses {opr : Relop} (hopr : opr.isEquality = true) (ty : RType) {address o0 o1 : Int}
    (h0 : InInt32 o0) (h1 : InInt32 o1) :
    opr.holds o0 o1 = opr.holds (ty.1.wrap (address + o0)) (ty.1.wrap (address + o1)) := by
  have hiff : o0 = o1 ↔ ty.1.wrap (address + o0) = ty.1.wrap (address + o1) := by
    refine ⟨fun h => by rw [h], fun h => ?_⟩
    have hdvd := Int.emod_eq_emod_iff_emod_sub_eq_zero.mp (MType.wrap_eq_iff.mp h)
    rw [add_sub_add_left_eq_sub] at hdvd
    have h0 := And.intro h0.1 h0.2
    have h1 := And.intro h1.1 h1.2
    rcases ty.bits_eq with hb | hb <;> rw [hb] at hdvd <;> omega
  cases opr with
  | eq => exact decide_eq_decide.mpr hiff
  | ne => exact decide_eq_decide.mpr (not_congr hiff)
  | _ => exact absurd hopr (by decide)

variable {flags : Flags} {hasPointerType : Simpnode → Bool} {create : Creates mask} {opr : Relop} {rty : RType}
  {r : Simpnode}

theorem exists_plain (h : cancelInRelop flags hasPointerType create opr rty ty k0 k1 = some r) :
    ∃ r', cancelInRelop flags hasPointerType (Creates.plain mask) opr rty ty k0 k1 = some r' ∧
      ∀ env, r.eval mask env = r'.eval mask env := by
  have hvalues := values_cancelInRelop flags hasPointerType create opr rty ty k0 k1
  rw [h] at hvalues
  obtain ⟨r', hr', heq⟩ := Option.map_eq_some_iff.mp hvalues.symm
  exact ⟨r', hr', fun env => (congrFun heq env).symm⟩

/-- For `==` and `!=` the result has the truth value of the comparison. -/
theorem cancelInRelop_equality (hopr : opr.isEquality = true) (h0 : k0.Sized ty) (h1 : k1.Sized ty)
    (h : cancelInRelop flags hasPointerType create opr rty ty k0 k1 = some r) (env : Env) :
    r.eval mask env = (Simpnode.relop opr rty ty k0 k1).eval mask env := by
  obtain ⟨r', hr', heq⟩ := exists_plain h
  rw [heq env, eval_relop_eq]
  rcases Reading.cancelInRelop_cancelled (ρ := ⟨mask, env, ty, 2 ^ ty.1.bits⟩) hr' with
    ⟨t, t', symbol, offset, offset', rfl, rfl, rfl⟩ | ⟨o, desc, a, b, rfl, hc⟩
  · rw [eval_relop_eq]
    have hoffset : ∀ o, InInt32 o → (RType.i8).1.wrap ((RType.i8).1.wrap o) = o := by
      intro o ho
      rw [MType.wrap_wrap]
      exact MType.wrap_of_inRange (show -2 ^ 63 ≤ o ∧ o < 2 ^ 63 from ⟨by have := ho.1; omega, by have := ho.2; omega⟩)
    have haddress : ∀ (t : RType) (x : Int), t.1.bits = ty.1.bits → ty.1.wrap (t.1.wrap x) = ty.1.wrap x :=
      fun t x ht => MType.wrap_congr (ht ▸ MType.wrap_emod t.1 x)
    show (opr.holds ((RType.i8).1.wrap ((RType.i8).1.wrap offset)) ((RType.i8).1.wrap ((RType.i8).1.wrap offset'))).toInt =
      (opr.holds (ty.1.wrap (t.1.wrap (env.address symbol + offset)))
        (ty.1.wrap (t'.1.wrap (env.address symbol + offset')))).toInt
    rw [hoffset _ h0.2.2, hoffset _ h1.2.2, haddress t _ h0.1, haddress t' _ h1.1,
      holds_addresses hopr ty h0.2.2 h1.2.2]
  · have hdesc : desc = ty := hc.desc_eq.resolve_right fun hne => absurd (hopr.symm.trans hne.1) (by decide)
    subst hdesc
    obtain ⟨ha, hb⟩ := hc.sized h0 h1
    rw [eval_relop_eq]
    rcases hc.sides (additive_of_sized env rfl ha) (additive_of_sized env rfl hb) (additive_of_sized env rfl h0)
      (additive_of_sized env rfl h1) with ⟨rfl, hdiff⟩ | ⟨rfl, hdiff⟩
    · have hholds := holds_equality_congr hopr desc hdiff
      simp only [Reading.val, MType.wrap_wrap] at hholds
      rw [hholds]
    · have hholds := holds_equality_congr hopr desc hdiff
      simp only [Reading.val, MType.wrap_wrap] at hholds
      rw [Relop.commutative_holds, hholds]

/-- No sum of the two comparisons wraps, the nodes read in the type of the second, which reads the sides as the first. -/
def SumsExact (mask : Bool) (env : Env) (ty : RType) (k0 k1 : Simpnode) : Simpnode → Prop
  | .relop _ _ desc a b =>
    let ρ : Reading := ⟨mask, env, desc, 0⟩
    ρ.Additive k0 ∧ ρ.Additive k1 ∧ ρ.Additive a ∧ ρ.Additive b ∧
      ρ.val k0 = ty.1.wrap (k0.eval mask env) ∧ ρ.val k1 = ty.1.wrap (k1.eval mask env)
  | _ => True

/-- The result has the truth value of the comparison where no sum wraps. -/
theorem cancelInRelop_exact (h : cancelInRelop flags hasPointerType create opr rty ty k0 k1 = some r) (env : Env)
    (hexact : ∀ r', cancelInRelop flags hasPointerType (Creates.plain mask) opr rty ty k0 k1 = some r' →
      SumsExact mask env ty k0 k1 r') :
    r.eval mask env = (Simpnode.relop opr rty ty k0 k1).eval mask env := by
  obtain ⟨r', hr', heq⟩ := exists_plain h
  have hsums := hexact r' hr'
  obtain ⟨o, rty', desc, a, b, rfl⟩ : ∃ o rty' desc a b, r' = .relop o rty' desc a b := by
    rcases Reading.cancelInRelop_cancelled (ρ := ⟨mask, env, ty, 0⟩) hr' with
      ⟨_, _, _, _, _, -, -, hrel⟩ | ⟨_, _, _, _, hrel, -⟩ <;> exact ⟨_, _, _, _, _, hrel⟩
  obtain ⟨h0, h1, ha, hb, hk0, hk1⟩ := hsums
  rw [heq env, eval_relop_eq, eval_relop_eq, ← hk0, ← hk1]
  refine congrArg Bool.toInt ?_
  have hdiff : ∀ {x y : Int}, x ≡ y [ZMOD 0] → x = y := fun h => Int.modEq_zero_iff.mp h
  rcases Reading.cancelInRelop_cancelled (ρ := ⟨mask, env, desc, 0⟩) hr' with
    ⟨t, t', symbol, offset, offset', rfl, rfl, hrel⟩ | ⟨o', desc', a', b', hrel, hc⟩
  · cases hrel
    have e0 := hdiff h0
    have e1 := hdiff h1
    have ea := hdiff (ha rfl)
    have eb := hdiff (hb rfl)
    refine holds_congr opr ?_
    unfold Reading.val at *
    rw [e0, e1, ea, eb, add_sub_add_left_eq_sub]
  · cases hrel
    rcases hc.sides ha hb h0 h1 with ⟨rfl, hd⟩ | ⟨rfl, hd⟩
    · exact holds_congr _ (hdiff hd)
    · rw [Relop.commutative_holds]
      exact holds_congr opr (hdiff hd)

/-- Sums of an ordered comparison are cancelled where the flags allow an overflow, or a term is a pointer. -/
def SumsCancellable (flags : Flags) (hasPointerType : Simpnode → Bool) (ty : RType) (k0 k1 : Simpnode) : Prop :=
  if ty.1.isUnsigned then
    (∃ t, (t ∈ k0.terms ∨ t ∈ k1.terms) ∧ isPointer hasPointerType t.node = true) ∨ flags.foldUnsignedRelops = true
  else flags.unsafeRelops = true

theorem sumsCancellable_of_some (hopr : opr.isEquality = false)
    (h : cancelSums flags hasPointerType create opr rty ty k0 k1 = some r) :
    SumsCancellable flags hasPointerType ty k0 k1 := by
  unfold cancelSums at h
  split at h
  · exact nomatch h
  rename_i hmay
  simp only [mayOverflow, pointerSeen, hopr, Bool.not_false, Bool.true_and] at hmay
  unfold SumsCancellable
  simp only [← List.mem_append, ← List.any_eq_true (p := fun t : Term => isPointer hasPointerType t.node)]
  revert hmay
  cases ty.1.isUnsigned <;> cases (k0.terms ++ k1.terms).any fun t => isPointer hasPointerType t.node <;>
    cases flags.foldUnsignedRelops <;> cases flags.unsafeRelops <;> simp

theorem SumsCancellable.swap (h : SumsCancellable flags hasPointerType ty k1 k0) :
    SumsCancellable flags hasPointerType ty k0 k1 := by
  unfold SumsCancellable at *
  simpa only [or_comm] using h

theorem sumsCancellable_of_addLeft (hopr : opr.isEquality = false)
    (h : cancelAddLeft flags hasPointerType create opr rty ty k0 k1 = some r) :
    SumsCancellable flags hasPointerType ty k0 k1 := by
  unfold cancelAddLeft at h
  split_ifs at h
  · exact (sumsCancellable_of_some ((Reading.isEquality_commutative opr).trans hopr) h).swap
  · exact sumsCancellable_of_some hopr h

/-- What else an ordered comparison is cancelled on: two negations, or two addresses in a symbol. -/
theorem cancellable (hopr : opr.isEquality = false)
    (h : cancelInRelop flags hasPointerType create opr rty ty k0 k1 = some r) :
    (∃ t0 x t1 y, k0 = .exp1 .neg t0 x ∧ k1 = .exp1 .neg t1 y) ∨
      (∃ t0 t1 symbol o0 o1, k0 = .lda t0 symbol o0 ∧ k1 = .lda t1 symbol o1) ∨
      SumsCancellable flags hasPointerType ty k0 k1 := by
  unfold cancelInRelop at h
  split at h
  · exact Or.inl ⟨_, _, _, _, rfl, rfl⟩
  · split_ifs at h with hsym
    exact Or.inr (Or.inl ⟨_, _, _, _, _, rfl, by rw [hsym]⟩)
  · split_ifs at h
    · exact Or.inr (Or.inr (sumsCancellable_of_addLeft hopr h))
    · exact Or.inr (Or.inr (sumsCancellable_of_addLeft ((Reading.isEquality_commutative opr).trans hopr) h).swap)

/-- Cancelling keeps the truth value, for `==` and `!=` always, for the other operators where no sum wraps; and these it
leaves alone where an overflow may matter, but for two negations and for addresses. -/
theorem cancelInRelop_sound (flags : Flags) (hasPointerType : Simpnode → Bool) (create : Creates mask)
    (h0 : k0.Sized ty) (h1 : k1.Sized ty)
    (h : cancelInRelop flags hasPointerType create opr rty ty k0 k1 = some r) :
    (∀ env, (opr.isEquality = true ∨
        ∀ r', cancelInRelop flags hasPointerType (Creates.plain mask) opr rty ty k0 k1 = some r' →
          SumsExact mask env ty k0 k1 r') →
      r.eval mask env = (Simpnode.relop opr rty ty k0 k1).eval mask env) ∧
    (opr.isEquality = false → (∃ t0 x t1 y, k0 = .exp1 .neg t0 x ∧ k1 = .exp1 .neg t1 y) ∨
      (∃ t0 t1 symbol o0 o1, k0 = .lda t0 symbol o0 ∧ k1 = .lda t1 symbol o1) ∨
      SumsCancellable flags hasPointerType ty k0 k1) := by
  refine ⟨fun env hor => ?_, fun hopr => cancellable hopr h⟩
  rcases hor with hopr | hexact
  · exact cancelInRelop_equality hopr h0 h1 h env
  · exact cancelInRelop_exact h env hexact

/-- `x + y == x + z` becomes `y == z` where the sums wrap, and `x + y < x + z` becomes `y < z` where they do not, under the
flag for signed types. -/
theorem cancelInRelop_equal_sums :
    (Simpnode.relop .eq .i4 .u4 (.exp2 .add .u4 (.load .u4 .u4 1) (.intconst .u4 0)) (.load .u4 .u4 2)).eval true
        ⟨fun n => 2 ^ 32 - n, fun _ => 0⟩ =
      (Simpnode.relop .eq .i4 .u4 (.exp2 .add .u4 (.load .u4 .u4 0) (.load .u4 .u4 1))
        (.exp2 .add .u4 (.load .u4 .u4 0) (.load .u4 .u4 2))).eval true ⟨fun n => 2 ^ 32 - n, fun _ => 0⟩ ∧
    (Simpnode.relop .lt .i4 .i4 (.exp2 .add .i4 (.load .i4 .i4 1) (.intconst .i4 0)) (.load .i4 .i4 2)).eval true
        ⟨fun n => n + 7, fun _ => 0⟩ =
      (Simpnode.relop .lt .i4 .i4 (.exp2 .add .i4 (.load .i4 .i4 0) (.load .i4 .i4 1))
        (.exp2 .add .i4 (.load .i4 .i4 0) (.load .i4 .i4 2))).eval true ⟨fun n => n + 7, fun _ => 0⟩ ∧
    SumsCancellable ⟨true, false, true⟩ (fun _ => false) .i4 (.exp2 .add .i4 (.load .i4 .i4 0) (.load .i4 .i4 1))
      (.exp2 .add .i4 (.load .i4 .i4 0) (.load .i4 .i4 2)) := by
  have hlt := cancelInRelop_sound ⟨true, false, true⟩ (fun _ => false) (Creates.plain true)
    (show Simpnode.Sized .i4 (.exp2 .add .i4 (.load .i4 .i4 0) (.load .i4 .i4 1)) from ⟨rfl, rfl, rfl⟩)
    (show Simpnode.Sized .i4 (.exp2 .add .i4 (.load .i4 .i4 0) (.load .i4 .i4 2)) from ⟨rfl, rfl, rfl⟩)
    (show cancelInRelop _ _ _ .lt .i4 .i4 _ _ = some _ from rfl)
  refine ⟨(cancelInRelop_sound ⟨false, false, true⟩ (fun _ => false) (Creates.plain true)
    (show Simpnode.Sized .u4 (.exp2 .add .u4 (.load .u4 .u4 0) (.load .u4 .u4 1)) from ⟨rfl, rfl, rfl⟩)
    (show Simpnode.Sized .u4 (.exp2 .add .u4 (.load .u4 .u4 0) (.load .u4 .u4 2)) from ⟨rfl, rfl, rfl⟩) rfl).1 _
    (Or.inl rfl), hlt.1 _ (Or.inr fun r' hr' => ?_), ?_⟩
  · cases hr'
    refine ⟨⟨trivial, trivial, ?_⟩, ⟨trivial, trivial, ?_⟩, ⟨trivial, fun _ => ?_, ?_⟩, trivial, ?_, ?_⟩ <;> decide
  · rcases hlt.2 rfl with ⟨_, _, _, _, h, -⟩ | ⟨_, _, _, _, _, h, -⟩ | h
    · cases h
    · cases h
    · exact h

/-- Pointers are compared as signed numbers: `p + i < p + j` becomes `i < j`, also where the first sum wraps around. -/
theorem cancelInRelop_pointer :
    ∃ r, cancelInRelop ⟨false, false, true⟩ (fun node => node = .load .u8 .u8 0) (Creates.plain true) .lt .i4 .u8
        (.exp2 .add .u8 (.load .u8 .u8 0) (.load .u8 .u8 1)) (.exp2 .add .u8 (.load .u8 .u8 0) (.load .u8 .u8 2)) =
          some r ∧
      r.eval true ⟨fun n => if n = 0 then -1 else if n = 1 then 1 else 0, fun _ => 0⟩ = 0 ∧
      (Simpnode.relop .lt .i4 .u8 (.exp2 .add .u8 (.load .u8 .u8 0) (.load .u8 .u8 1))
        (.exp2 .add .u8 (.load .u8 .u8 0) (.load .u8 .u8 2))).eval true
          ⟨fun n => if n = 0 then -1 else if n = 1 then 1 else 0, fun _ => 0⟩ = 1 :=
  ⟨_, rfl, by decide, by decide⟩

end Sound

end Path64.Simp

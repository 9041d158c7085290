import Path64.Dvector.Gamma

/-!
# Dependence vectors by their directions

`DEPV_NODE::Lex_Pos_Decompose` and `DEPV_ARRAY::Is_Blockable` of `be/lno/dep.cxx`.

* `lexPosDecompose` : the recursion, which changes the vector in place and restores it;
* `Covered` : some vector of a list has the signs of `v` among its directions;
* `Decomposes` : what `pos` and `neg` cover; `lexPosDecompose_spec` : the recursion reaches it;
* `isBlockable` : the double loop with its early exits; `isBlockable_sound_iff` : when its answer holds for every vector.
-/

namespace Path64.Dep

open Dvector

/-- A dependence vector. -/
abbrev Depv := Nat → Dep

/-! ## `Lex_Pos_Decompose` -/

/-- What the recursion changes: the vector and the two lists. -/
structure Decomposition where
  depv : Depv
  pos : List Depv
  neg : List Depv

/-- A copy of the vector with the components from `first` on negated. -/
def negateFrom (depv : Depv) (first dvDim : Nat) : Depv :=
  fun i => if first ≤ i ∧ i < dvDim then depNegate (depv i) else depv i

/-- Append to `pos` a copy of the vector with direction `+` at `first`, which stays there. -/
def appendPos (s : Decomposition) (first : Nat) : Decomposition :=
  let depv := Function.update s.depv first (depSetDirection .pos)
  { s with depv := depv, pos := s.pos ++ [depv] }

/-- Append to `neg` a copy of the vector with direction `+` at `first` and the components after it negated. -/
def appendNeg (s : Decomposition) (first dvDim : Nat) : Decomposition :=
  { s with neg := s.neg ++ [negateFrom (Function.update s.depv first (depSetDirection .pos)) (first + 1) dvDim] }

/-- `DEPV_NODE::Lex_Pos_Decompose` with `k` dimensions left from `first` on. -/
def lexPosDecompose (dvDim : Nat) (keepPosEquals keepNegEquals : Bool) : Nat → Nat → Decomposition → Decomposition
  | 0, _, s =>
    { s with
      pos := if keepPosEquals then s.pos ++ [s.depv] else s.pos
      neg := if keepNegEquals then s.neg ++ [s.depv] else s.neg }
  | k + 1, first, s =>
    let orig := s.depv first
    let equals (s : Decomposition) : Decomposition :=
      lexPosDecompose dvDim keepPosEquals keepNegEquals k (first + 1)
        { s with depv := Function.update s.depv first (depSetDirection .eq) }
    let s :=
      if depDirection orig = Direction.pos.bits then { s with pos := s.pos ++ [s.depv] }
      else if depDirection orig = Direction.neg.bits then { s with neg := s.neg ++ [negateFrom s.depv first dvDim] }
      else if depDirection orig = Direction.posneg.bits then appendNeg (appendPos s first) first dvDim
      else if depDirection orig = Direction.poseq.bits then equals (appendPos s first)
      else if depDirection orig = Direction.negeq.bits then equals (appendNeg s first dvDim)
      else if depDirection orig = Direction.star.bits then equals (appendNeg (appendPos s first) first dvDim)
      else lexPosDecompose dvDim keepPosEquals keepNegEquals k (first + 1) s
    { s with depv := Function.update s.depv first orig }

/-! ## What the lists cover -/

/-- The components of `v` have signs in the directions of the vector. -/
def Within (dvDim : Nat) (depv : Depv) (v : Nat → Int) : Prop := ∀ i < dvDim, HasSign (depDirection (depv i)) (v i)

/-- Some vector of the list has `v` within its directions. -/
def Covered (dvDim : Nat) (l : List Depv) (v : Nat → Int) : Prop := ∃ p ∈ l, Within dvDim p v

/-- The first component that is not zero is positive. -/
def LexPos (n : Nat) (v : Nat → Int) : Prop := ∃ i < n, (∀ k < i, v k = 0) ∧ 0 < v i

/-- Lexicographically positive, or zero and zero is kept. -/
def PosOrKept (n : Nat) (keep : Bool) (v : Nat → Int) : Prop := LexPos n v ∨ (∀ i < n, v i = 0) ∧ keep = true

/-- `pos` covers just the positive vectors of the node, `neg` the negations of its negative ones, each with zero if that is
kept. -/
structure Decomposes (dvDim : Nat) (keepPos keepNeg : Bool) (depv : Depv) (pos neg : List Depv) : Prop where
  pos_iff : ∀ v, Covered dvDim pos v ↔ Within dvDim depv v ∧ PosOrKept dvDim keepPos v
  neg_iff : ∀ v, Covered dvDim neg v ↔ Within dvDim depv (fun i => -v i) ∧ PosOrKept dvDim keepNeg v

variable {dvDim : Nat} {keepPos keepNeg : Bool}

theorem covered_append (l l' : List Depv) (v : Nat → Int) :
    Covered dvDim (l ++ l') v ↔ Covered dvDim l v ∨ Covered dvDim l' v := by
  simp only [Covered, List.mem_append, or_and_right, exists_or]

theorem covered_singleton (p : Depv) (v : Nat → Int) : Covered dvDim [p] v ↔ Within dvDim p v := by
  simp only [Covered, List.mem_singleton, exists_eq_left]

theorem not_covered_nil (v : Nat → Int) : ¬ Covered dvDim [] v := fun ⟨_, h, _⟩ => List.not_mem_nil h

theorem posOrKept_iff {first : Nat} (hfirst : first < dvDim) {keep : Bool} {v : Nat → Int}
    (hzero : ∀ i < first, v i = 0) : PosOrKept dvDim keep v ↔ 0 < v first ∨ v first = 0 ∧ PosOrKept dvDim keep v := by
  constructor
  · intro h
    rcases lt_trichotomy (v first) 0 with hneg | heq | hpos
    · rcases h with ⟨i, hi, hbefore, hpos⟩ | ⟨hall, -⟩
      · rcases lt_trichotomy i first with hlt | rfl | hgt
        · rw [hzero i hlt] at hpos
          exact absurd hpos (lt_irrefl 0)
        · omega
        · rw [hbefore first hgt] at hneg
          exact absurd hneg (lt_irrefl 0)
      · rw [hall first hfirst] at hneg
        exact absurd hneg (lt_irrefl 0)
    · exact Or.inr ⟨heq, h⟩
    · exact Or.inl hpos
  · rintro (hpos | ⟨-, h⟩)
    · exact Or.inl ⟨first, hfirst, hzero, hpos⟩
    · exact h

theorem Decomposes.combine {depv : Depv} {first : Nat} (hfirst : first < dvDim)
    (hzero : ∀ v, Within dvDim depv v → ∀ i < first, v i = 0) {pos₁ neg₁ pos₀ neg₀ : List Depv}
    (hpos : ∀ v, Covered dvDim pos₁ v ↔ Within dvDim depv v ∧ 0 < v first)
    (hneg : ∀ v, Covered dvDim neg₁ v ↔ Within dvDim depv (fun i => -v i) ∧ 0 < v first)
    (hpos₀ : ∀ v, Covered dvDim pos₀ v ↔ Within dvDim depv v ∧ v first = 0 ∧ PosOrKept dvDim keepPos v)
    (hneg₀ : ∀ v, Covered dvDim neg₀ v ↔
      Within dvDim depv (fun i => -v i) ∧ v first = 0 ∧ PosOrKept dvDim keepNeg v) :
    Decomposes dvDim keepPos keepNeg depv (pos₁ ++ pos₀) (neg₁ ++ neg₀) := by
  refine ⟨fun v => ?_, fun v => ?_⟩
  · rw [covered_append, hpos, hpos₀, ← and_or_left]
    refine and_congr_right fun hv => ?_
    exact (posOrKept_iff hfirst (hzero v hv)).symm
  · rw [covered_append, hneg, hneg₀, ← and_or_left]
    refine and_congr_right fun hv => ?_
    refine (posOrKept_iff hfirst fun i hi => ?_).symm
    exact neg_eq_zero.1 (hzero _ hv i hi)

/-! ## Words -/

theorem hasSign_depNegate {dep : Dep} (h : Dep.Built dep) (x : Int) :
    HasSign (depDirection (depNegate dep)) x ↔ HasSign (depDirection dep) (-x) := by
  rcases h.cases with ⟨c, hc, rfl⟩ | hw
  · rw [depNegate_const hc, hc.direction]
    have hdir : depDirection (depSetDistance (-c)) = (signOf (-c)).bits := by
      by_cases hfit : Fits (-c)
      · exact hfit.direction
      · -- only `-2048` has a negation that does not fit
        have hpos : 0 < -c := by
          by_contra hle
          have hmax := hc.max
          refine hfit ⟨?_, ?_⟩ <;> unfold minDistance maxDistance at * <;> omega
        rw [depSetDistance_of_not_fits hfit, signOf, if_pos hpos]
        decide
    rw [hdir]
    unfold HasSign
    rw [signOf_neg, signOf_neg]
    rcases signOf_mem c with hs | hs | hs <;> rcases signOf_mem x with hx | hx | hx <;> rw [hs, hx] <;> decide
  · unfold HasSign
    rw [signOf_neg]
    rcases signOf_mem x with hx | hx | hx <;> rw [hx] <;>
      rcases mem_openWords hw with rfl | rfl | rfl | rfl | rfl | rfl | rfl <;> decide

theorem direction_setDirection (dir : Direction) : depDirection (depSetDirection dir) = dir.bits := by
  cases dir <;> decide

theorem within_update {depv : Depv} {first : Nat} (hfirst : first < dvDim) (dir : Direction) (v : Nat → Int)
    (hdir : ∀ x, HasSign dir.bits x → HasSign (depDirection (depv first)) x) :
    Within dvDim (Function.update depv first (depSetDirection dir)) v ↔
      Within dvDim depv v ∧ HasSign dir.bits (v first) := by
  constructor
  · intro h
    have hat := h first hfirst
    rw [Function.update_self, direction_setDirection] at hat
    refine ⟨fun i hi => ?_, hat⟩
    by_cases hif : i = first
    · rw [hif]
      exact hdir _ hat
    · have hi := h i hi
      rwa [Function.update_of_ne hif] at hi
  · rintro ⟨h, hat⟩ i hi
    by_cases hif : i = first
    · rw [hif, Function.update_self, direction_setDirection]
      exact hat
    · rw [Function.update_of_ne hif]
      exact h i hi

theorem within_negateFrom {depv : Depv} {first : Nat} (hbuilt : ∀ i, first ≤ i → i < dvDim → Dep.Built (depv i))
    (hbefore : ∀ i < first, depDirection (depv i) = Direction.eq.bits) (v : Nat → Int) :
    Within dvDim (negateFrom depv first dvDim) v ↔ Within dvDim depv fun i => -v i := by
  refine forall₂_congr fun i hi => ?_
  unfold negateFrom
  by_cases hif : first ≤ i
  · rw [if_pos ⟨hif, hi⟩]
    exact hasSign_depNegate (hbuilt i hif hi) (v i)
  · rw [if_neg fun h => hif h.1, hbefore i (by omega), hasSign_iff, hasSign_iff]
    exact neg_eq_zero.symm

/-! ## The recursion -/

theorem hasSign_congr {direction : BitVec 3} {x y : Int} (h : HasSign direction x) (hxy : signOf x = signOf y) :
    HasSign direction y := by
  unfold HasSign at h ⊢
  rwa [← hxy]

theorem signOf_pos {x : Int} (h : 0 < x) : signOf x = .pos := if_pos h

theorem signOf_of_neg {x : Int} (h : x < 0) : signOf x = .neg := by rw [signOf, if_neg (by omega), if_pos h]

/-- A call at `first`: `=` before it, built words from it on, and its direction. -/
structure CallAt (dvDim first : Nat) (depv : Depv) (dir : Direction) : Prop where
  lt : first < dvDim
  before : ∀ i < first, depDirection (depv i) = Direction.eq.bits
  built : ∀ i, first ≤ i → i < dvDim → Dep.Built (depv i)
  direction : depDirection (depv first) = dir.bits

namespace CallAt

variable {first : Nat} {depv : Depv} {dir : Direction}

theorem zero (h : CallAt dvDim first depv dir) (v : Nat → Int) (hv : Within dvDim depv v) : ∀ i < first, v i = 0 := by
  intro i hi
  have hlt := h.lt
  have hsign := hv i (by omega)
  rwa [h.before i hi, hasSign_iff] at hsign

theorem sign (h : CallAt dvDim first depv dir) {v : Nat → Int} (hv : Within dvDim depv v) : HasSign dir.bits (v first) :=
  h.direction ▸ hv first h.lt

theorem plus (h : CallAt dvDim first depv dir) (hdir : HasSign dir.bits 1) (v : Nat → Int) :
    Covered dvDim [Function.update depv first (depSetDirection .pos)] v ↔ Within dvDim depv v ∧ 0 < v first := by
  rw [covered_singleton, within_update h.lt, hasSign_iff]
  intro x hx
  rw [h.direction]
  exact hasSign_congr hdir (by rw [signOf_pos ((hasSign_iff .pos x).1 hx), signOf_pos (by decide)])

/-- The vector with `+` at `first` and the components after it negated. -/
theorem minus (h : CallAt dvDim first depv dir) (hdir : HasSign dir.bits (-1)) (v : Nat → Int) :
    Covered dvDim [negateFrom (Function.update depv first (depSetDirection .pos)) (first + 1) dvDim] v ↔
      Within dvDim depv (fun i => -v i) ∧ 0 < v first := by
  have hat : ∀ i < dvDim, i ≠ first →
      (HasSign (depDirection (negateFrom (Function.update depv first (depSetDirection .pos)) (first + 1) dvDim i)) (v i) ↔
        HasSign (depDirection (depv i)) (-v i)) := by
    intro i hi hne
    unfold negateFrom
    rw [Function.update_of_ne hne]
    by_cases hif : first + 1 ≤ i
    · rw [if_pos ⟨hif, hi⟩]
      exact hasSign_depNegate (h.built i (by omega) hi) (v i)
    · rw [if_neg fun hc => hif hc.1, h.before i (by omega), hasSign_iff, hasSign_iff]
      exact neg_eq_zero.symm
  have hself : depDirection (negateFrom (Function.update depv first (depSetDirection .pos)) (first + 1) dvDim first) =
      Direction.pos.bits := by
    unfold negateFrom
    rw [if_neg (by omega), Function.update_self, direction_setDirection]
  rw [covered_singleton]
  constructor
  · intro hv
    have hpos := hv first h.lt
    rw [hself, hasSign_iff] at hpos
    refine ⟨fun i hi => ?_, hpos⟩
    by_cases hne : i = first
    · rw [hne, h.direction]
      exact hasSign_congr hdir (by rw [signOf_of_neg (by decide), signOf_of_neg (neg_neg_of_pos hpos)])
    · exact (hat i hi hne).1 (hv i hi)
  · rintro ⟨hv, hpos⟩ i hi
    by_cases hne : i = first
    · rw [hne, hself, hasSign_iff]
      exact hpos
    · exact (hat i hi hne).2 (hv i hi)

theorem no_plus (h : CallAt dvDim first depv dir) (hdir : ¬ HasSign dir.bits 1) (v : Nat → Int) :
    Covered dvDim [] v ↔ Within dvDim depv v ∧ 0 < v first := by
  refine iff_of_false (not_covered_nil v) fun hv => hdir (hasSign_congr (h.sign hv.1) ?_)
  rw [signOf_pos hv.2, signOf_pos (by decide)]

theorem no_minus (h : CallAt dvDim first depv dir) (hdir : ¬ HasSign dir.bits (-1)) (v : Nat → Int) :
    Covered dvDim [] v ↔ Within dvDim depv (fun i => -v i) ∧ 0 < v first := by
  refine iff_of_false (not_covered_nil v) fun hv => hdir (hasSign_congr (h.sign hv.1) ?_)
  rw [signOf_of_neg (neg_neg_of_pos hv.2), signOf_of_neg (by decide)]

theorem no_equals_pos (h : CallAt dvDim first depv dir) (hdir : ¬ HasSign dir.bits 0) (v : Nat → Int) :
    Covered dvDim [] v ↔ Within dvDim depv v ∧ v first = 0 ∧ PosOrKept dvDim keepPos v :=
  iff_of_false (not_covered_nil v) fun hv => hdir (hv.2.1 ▸ h.sign hv.1)

theorem no_equals_neg (h : CallAt dvDim first depv dir) (hdir : ¬ HasSign dir.bits 0) (v : Nat → Int) :
    Covered dvDim [] v ↔ Within dvDim depv (fun i => -v i) ∧ v first = 0 ∧ PosOrKept dvDim keepNeg v := by
  refine iff_of_false (not_covered_nil v) fun hv => hdir ?_
  have hsign := h.sign hv.1
  rwa [hv.2.1, neg_zero] at hsign

theorem next (h : CallAt dvDim first depv dir) : (∀ i < first + 1,
      depDirection (Function.update depv first (depSetDirection .eq) i) = Direction.eq.bits) ∧
    ∀ i, first + 1 ≤ i → i < dvDim → Dep.Built (Function.update depv first (depSetDirection .eq) i) := by
  refine ⟨fun i hi => ?_, fun i hi hid => ?_⟩
  · by_cases hif : i = first
    · rw [hif, Function.update_self, direction_setDirection]
    · rw [Function.update_of_ne hif]
      exact h.before i (by omega)
  · rw [Function.update_of_ne (by omega)]
    exact h.built i (by omega) hid

theorem equals (h : CallAt dvDim first depv dir) (hdir : HasSign dir.bits 0) {pos neg : List Depv}
    (hdec : Decomposes dvDim keepPos keepNeg (Function.update depv first (depSetDirection .eq)) pos neg) :
    (∀ v, Covered dvDim pos v ↔ Within dvDim depv v ∧ v first = 0 ∧ PosOrKept dvDim keepPos v) ∧
    ∀ v, Covered dvDim neg v ↔
      Within dvDim depv (fun i => -v i) ∧ v first = 0 ∧ PosOrKept dvDim keepNeg v := by
  have hiff : ∀ v, Within dvDim (Function.update depv first (depSetDirection .eq)) v ↔
      Within dvDim depv v ∧ v first = 0 := by
    intro v
    rw [within_update h.lt .eq v fun x hx => by rw [h.direction, (hasSign_iff .eq x).1 hx]; exact hdir, hasSign_iff]
  refine ⟨fun v => ?_, fun v => ?_⟩
  · rw [hdec.pos_iff, hiff, and_assoc]
  · rw [hdec.neg_iff, hiff, and_assoc, neg_eq_zero]

end CallAt

/-- The vector comes back as it was and the lists only grow, by what decomposes the vector. -/
def Splits (dvDim : Nat) (keepPos keepNeg : Bool) (s r : Decomposition) : Prop :=
  r.depv = s.depv ∧ ∃ pos neg, r.pos = s.pos ++ pos ∧ r.neg = s.neg ++ neg ∧
    Decomposes dvDim keepPos keepNeg s.depv pos neg

theorem decomposes_equals {depv : Depv} (hall : ∀ i < dvDim, depDirection (depv i) = Direction.eq.bits) :
    Decomposes dvDim keepPos keepNeg depv (if keepPos then [depv] else []) (if keepNeg then [depv] else []) := by
  have hwithin : ∀ v, Within dvDim depv v ↔ ∀ i < dvDim, v i = 0 := fun v => forall₂_congr fun i hi => by
    rw [hall i hi, hasSign_iff]
  have hleaf : ∀ (keep : Bool) v, Covered dvDim (if keep then [depv] else []) v ↔
      (∀ i < dvDim, v i = 0) ∧ PosOrKept dvDim keep v := by
    intro keep v
    cases keep with
    | true =>
      rw [if_pos rfl, covered_singleton, hwithin]
      exact ⟨fun hv => ⟨hv, Or.inr ⟨hv, rfl⟩⟩, fun hv => hv.1⟩
    | false =>
      rw [if_neg Bool.false_ne_true]
      refine iff_of_false (not_covered_nil v) ?_
      rintro ⟨hv, ⟨i, hi, -, hpos⟩ | ⟨-, hkeep⟩⟩
      · rw [hv i hi] at hpos
        exact absurd hpos (lt_irrefl 0)
      · exact absurd hkeep Bool.false_ne_true
  refine ⟨fun v => ?_, fun v => ?_⟩
  · rw [hleaf, hwithin]
  · rw [hleaf, hwithin]
    simp only [neg_eq_zero]

/-- By induction on the dimensions left: the parts with `+` and `-` at `first`, and the recursion for `=`. -/
theorem lexPosDecompose_spec (k : Nat) : ∀ (first : Nat) (s : Decomposition), first + k = dvDim →
    (∀ i < first, depDirection (s.depv i) = Direction.eq.bits) →
    (∀ i, first ≤ i → i < dvDim → Dep.Built (s.depv i)) →
    Splits dvDim keepPos keepNeg s (lexPosDecompose dvDim keepPos keepNeg k first s) := by
  induction k with
  | zero =>
    intro first s hdim hbefore _
    refine ⟨rfl, if keepPos then [s.depv] else [], if keepNeg then [s.depv] else [], ?_, ?_,
      decomposes_equals fun i hi => hbefore i (by omega)⟩
    · rw [lexPosDecompose]
      cases keepPos <;> simp
    · rw [lexPosDecompose]
      cases keepNeg <;> simp
  | succ k ih =>
    intro first s hdim hbefore hbuilt
    have hfirst : first < dvDim := by omega
    obtain ⟨dir, hdir⟩ := (hbuilt first le_rfl hfirst).direction
    have h : CallAt dvDim first s.depv dir := ⟨hfirst, hbefore, hbuilt, hdir⟩
    have hback : ∀ e : Dep, Function.update (Function.update s.depv first e) first (s.depv first) = s.depv := by
      intro e
      rw [Function.update_idem, Function.update_eq_self]
    -- the recursion with `=` at `first`, from lists that already hold the other parts
    have hequals : ∀ t : Decomposition, t.depv = Function.update s.depv first (depSetDirection .eq) →
        Splits dvDim keepPos keepNeg t (lexPosDecompose dvDim keepPos keepNeg k (first + 1) t) := by
      intro t ht
      refine ih (first + 1) t (by omega) ?_ ?_
      · rw [ht]
        exact h.next.1
      · rw [ht]
        exact h.next.2
    rw [lexPosDecompose]
    simp only [hdir]
    cases dir with
    | pos =>
      rw [if_pos rfl]
      refine ⟨Function.update_eq_self _ _, [s.depv] ++ [], [] ++ [], rfl, (List.append_nil _).symm, ?_⟩
      refine Decomposes.combine hfirst h.zero (fun v => ?_) (h.no_minus (by decide)) (h.no_equals_pos (by decide))
        (h.no_equals_neg (by decide))
      rw [covered_singleton]
      exact ⟨fun hv => ⟨hv, (hasSign_iff .pos _).1 (h.sign hv)⟩, fun hv => hv.1⟩
    | neg =>
      rw [if_neg (by decide), if_pos rfl]
      refine ⟨Function.update_eq_self _ _, [] ++ [], [negateFrom s.depv first dvDim] ++ [], (List.append_nil _).symm,
        rfl, ?_⟩
      refine Decomposes.combine hfirst h.zero (h.no_plus (by decide)) (fun v => ?_) (h.no_equals_pos (by decide))
        (h.no_equals_neg (by decide))
      rw [covered_singleton, within_negateFrom hbuilt hbefore]
      refine ⟨fun hv => ⟨hv, ?_⟩, fun hv => hv.1⟩
      have hneg := (hasSign_iff .neg _).1 (h.sign hv)
      exact neg_neg_iff_pos.1 hneg
    | posneg =>
      rw [if_neg (by decide), if_neg (by decide), if_pos rfl]
      refine ⟨hback _, [_] ++ [], [_] ++ [], rfl, rfl, ?_⟩
      rw [appendPos, Function.update_idem]
      exact Decomposes.combine hfirst h.zero (h.plus (by decide)) (h.minus (by decide)) (h.no_equals_pos (by decide))
        (h.no_equals_neg (by decide))
    | poseq =>
      rw [if_neg (by decide), if_neg (by decide), if_neg (by decide), if_pos rfl]
      obtain ⟨hdepv, pos, neg, hp, hn, hdec⟩ := hequals
        { appendPos s first with
          depv := Function.update (appendPos s first).depv first (depSetDirection .eq) } (Function.update_idem _ _ _)
      refine ⟨?_, [_] ++ pos, [] ++ neg, hp.trans (List.append_assoc _ _ _), hn, ?_⟩
      · show Function.update (lexPosDecompose _ _ _ _ _ _).depv first (s.depv first) = s.depv
        rw [hdepv]
        exact (Function.update_idem _ _ _).trans (hback _)
      · rw [show (appendPos s first).depv = Function.update s.depv first (depSetDirection .pos) from rfl,
          Function.update_idem] at hdec
        exact Decomposes.combine hfirst h.zero (h.plus (by decide)) (h.no_minus (by decide))
          (h.equals (by decide) hdec).1 (h.equals (by decide) hdec).2
    | negeq =>
      rw [if_neg (by decide), if_neg (by decide), if_neg (by decide), if_neg (by decide), if_pos rfl]
      obtain ⟨hdepv, pos, neg, hp, hn, hdec⟩ := hequals
        { appendNeg s first dvDim with
          depv := Function.update (appendNeg s first dvDim).depv first (depSetDirection .eq) } rfl
      refine ⟨?_, [] ++ pos, [_] ++ neg, hp, hn.trans (List.append_assoc _ _ _), ?_⟩
      · show Function.update (lexPosDecompose _ _ _ _ _ _).depv first (s.depv first) = s.depv
        rw [hdepv]
        exact hback _
      · exact Decomposes.combine hfirst h.zero (h.no_plus (by decide)) (h.minus (by decide))
          (h.equals (by decide) hdec).1 (h.equals (by decide) hdec).2
    | star =>
      rw [if_neg (by decide), if_neg (by decide), if_neg (by decide), if_neg (by decide), if_neg (by decide), if_pos rfl]
      obtain ⟨hdepv, pos, neg, hp, hn, hdec⟩ := hequals
        { appendNeg (appendPos s first) first dvDim with
          depv := Function.update (appendNeg (appendPos s first) first dvDim).depv first (depSetDirection .eq) }
        (Function.update_idem _ _ _)
      refine ⟨?_, [_] ++ pos, [_] ++ neg, hp.trans (List.append_assoc _ _ _), hn.trans (List.append_assoc _ _ _), ?_⟩
      · show Function.update (lexPosDecompose _ _ _ _ _ _).depv first (s.depv first) = s.depv
        rw [hdepv]
        exact (Function.update_idem _ _ _).trans (hback _)
      · rw [show (appendNeg (appendPos s first) first dvDim).depv = Function.update s.depv first (depSetDirection .pos)
          from rfl, Function.update_idem] at hdec
        rw [appendPos, Function.update_idem]
        exact Decomposes.combine hfirst h.zero (h.plus (by decide)) (h.minus (by decide))
          (h.equals (by decide) hdec).1 (h.equals (by decide) hdec).2
    | eq =>
      rw [if_neg (by decide), if_neg (by decide), if_neg (by decide), if_neg (by decide), if_neg (by decide),
        if_neg (by decide)]
      -- the word stays, be it `DIR_EQ` or the distance zero
      obtain ⟨hdepv, hrest⟩ := ih (first + 1) s (by omega)
        (fun i hi => (Nat.lt_succ_iff_lt_or_eq.1 hi).elim (hbefore i) fun hif => hif ▸ hdir)
        (fun i hi => hbuilt i (by omega))
      refine ⟨?_, hrest⟩
      show Function.update (lexPosDecompose _ _ _ _ _ _).depv first (s.depv first) = s.depv
      rw [hdepv, Function.update_eq_self]

/-- `DEPV_NODE::Lex_Pos_Decompose` from dimension `0`: the node is left as it was, and what is appended to the two lists covers
just the positive part of the node and the negation of its negative part, with zero where that is kept. -/
theorem lexPosDecompose_exact (dvDim : Nat) (keepPos keepNeg : Bool) (depv : Depv)
    (hbuilt : ∀ i < dvDim, Dep.Built (depv i)) (pos₀ neg₀ : List Depv) :
    (lexPosDecompose dvDim keepPos keepNeg dvDim 0 ⟨depv, pos₀, neg₀⟩).depv = depv ∧ ∃ pos neg,
      (lexPosDecompose dvDim keepPos keepNeg dvDim 0 ⟨depv, pos₀, neg₀⟩).pos = pos₀ ++ pos ∧
      (lexPosDecompose dvDim keepPos keepNeg dvDim 0 ⟨depv, pos₀, neg₀⟩).neg = neg₀ ++ neg ∧
      (∀ v, Within dvDim depv v →
        (LexPos dvDim v → Covered dvDim pos v) ∧
        (LexPos dvDim (fun i => -v i) → Covered dvDim neg fun i => -v i) ∧
        ((∀ i < dvDim, v i = 0) → (Covered dvDim pos v ↔ keepPos = true) ∧ (Covered dvDim neg v ↔ keepNeg = true))) ∧
      (∀ v, Covered dvDim pos v →
        (LexPos dvDim v ∨ (∀ i < dvDim, v i = 0) ∧ keepPos = true) ∧ Within dvDim depv v) ∧
      ∀ v, Covered dvDim neg v →
        (LexPos dvDim v ∨ (∀ i < dvDim, v i = 0) ∧ keepNeg = true) ∧ Within dvDim depv fun i => -v i := by
  obtain ⟨hdepv, pos, neg, hp, hn, hdec⟩ := @lexPosDecompose_spec dvDim keepPos keepNeg dvDim 0
    ⟨depv, pos₀, neg₀⟩ (by omega) (fun i hi => absurd hi (by omega)) (fun i _ hi => hbuilt i hi)
  have hzero : ∀ (keep : Bool) (v : Nat → Int), (∀ i < dvDim, v i = 0) → (PosOrKept dvDim keep v ↔ keep = true) := by
    refine fun keep v hv => ⟨?_, fun hkeep => Or.inr ⟨hv, hkeep⟩⟩
    rintro (⟨i, hi, -, hpos⟩ | ⟨-, hkeep⟩)
    · rw [hv i hi] at hpos
      exact absurd hpos (lt_irrefl 0)
    · exact hkeep
  refine ⟨hdepv, pos, neg, hp, hn, fun v hv => ⟨?_, ?_, ?_⟩, fun v hv => ?_, fun v hv => ?_⟩
  · intro hlex
    exact (hdec.pos_iff v).2 ⟨hv, Or.inl hlex⟩
  · intro hlex
    refine (hdec.neg_iff _).2 ⟨?_, Or.inl hlex⟩
    simpa only [neg_neg] using hv
  · intro hall
    have hneg : Within dvDim depv fun i => -v i := fun i hi => by
      have hsign := hv i hi
      show HasSign (depDirection (depv i)) (-v i)
      rw [hall i hi] at hsign ⊢
      exact hsign
    exact ⟨((hdec.pos_iff v).trans (and_iff_right hv)).trans (hzero keepPos v hall),
      ((hdec.neg_iff v).trans (and_iff_right hneg)).trans (hzero keepNeg v hall)⟩
  · exact ((hdec.pos_iff v).1 hv).symm
  · exact ((hdec.neg_iff v).1 hv).symm

/-- The node `(*, -)`: of its vectors, `(0, -1)` goes to `neg` as `(0, 1)`. -/
theorem lexPosDecompose_exact_star_neg :
    ∃ pos neg, (lexPosDecompose 2 false false 2 0 ⟨fun i => depSetDirection (if i = 0 then .star else .neg), [], []⟩).neg
      = [] ++ neg ∧
    (lexPosDecompose 2 false false 2 0 ⟨fun i => depSetDirection (if i = 0 then .star else .neg), [], []⟩).pos
      = [] ++ pos ∧ Covered 2 neg fun i => -(if i = 0 then 0 else -1) := by
  obtain ⟨-, pos, neg, hp, hn, h, -⟩ := lexPosDecompose_exact 2 false false
    (fun i => depSetDirection (if i = 0 then .star else .neg)) (fun i _ => Dep.Built.setDirection _) [] []
  refine ⟨pos, neg, hn, hp, (h _ ?_).2.1 ?_⟩
  · intro i hi
    interval_cases i <;> decide
  · exact ⟨1, by decide, by decide, by decide⟩

/-! ## The list -/

/-- `DEPV_LIST::Lex_Pos_Decompose`: every node in turn, into the same two lists. -/
def lexPosDecomposeList (dvDim : Nat) (keepPos keepNeg : Bool) (nodes : List Depv) (pos neg : List Depv) :
    List Depv × List Depv :=
  nodes.foldl (fun lists node =>
    let r := lexPosDecompose dvDim keepPos keepNeg dvDim 0 ⟨node, lists.1, lists.2⟩
    (r.pos, r.neg)) (pos, neg)

/-- Over the list: `pos` covers the positive vectors of all its nodes, `neg` the negations of the negative ones. -/
theorem lexPosDecomposeList_covers (nodes : List Depv) (hbuilt : ∀ node ∈ nodes, ∀ i < dvDim, Dep.Built (node i)) :
    ∀ pos neg : List Depv, ∀ v,
      (Covered dvDim (lexPosDecomposeList dvDim keepPos keepNeg nodes pos neg).1 v ↔
        Covered dvDim pos v ∨ Covered dvDim nodes v ∧ PosOrKept dvDim keepPos v) ∧
      (Covered dvDim (lexPosDecomposeList dvDim keepPos keepNeg nodes pos neg).2 v ↔
        Covered dvDim neg v ∨ Covered dvDim nodes (fun i => -v i) ∧ PosOrKept dvDim keepNeg v) := by
  induction nodes with
  | nil =>
    intro pos neg v
    simp [lexPosDecomposeList, not_covered_nil]
  | cons node nodes ih =>
    intro pos neg v
    obtain ⟨-, pos', neg', hp, hn, hdec⟩ := @lexPosDecompose_spec dvDim keepPos keepNeg dvDim 0
      ⟨node, pos, neg⟩ (by omega) (fun i hi => absurd hi (by omega)) (fun i _ hi => hbuilt node List.mem_cons_self i hi)
    have hcons : ∀ w, Covered dvDim (node :: nodes) w ↔ Within dvDim node w ∨ Covered dvDim nodes w := fun w => by
      rw [← List.singleton_append, covered_append, covered_singleton]
    obtain ⟨ihp, ihn⟩ := ih (fun node' h => hbuilt node' (List.mem_cons_of_mem _ h)) (pos ++ pos') (neg ++ neg') v
    rw [← hp, ← hn] at ihp ihn
    refine ⟨ihp.trans ?_, ihn.trans ?_⟩
    · rw [hp, covered_append, hdec.pos_iff, hcons, or_and_right, or_assoc]
    · rw [hn, covered_append, hdec.neg_iff, hcons, or_and_right, or_assoc]

/-! ## `Is_Blockable` -/

/-- The directions that `Is_Blockable` refuses within the block. -/
def containsNeg (dir : BitVec 3) : Bool :=
  dir == Direction.neg.bits || dir == Direction.posneg.bits || dir == Direction.negeq.bits || dir == Direction.star.bits

theorem containsNeg_iff (dir : BitVec 3) : containsNeg dir = true ↔ HasSign dir (-1) := by
  revert dir
  decide

/-- The loop over the depths from `j` on, `k` of them: what it returns for the whole array, or `none` to go on. -/
def scanDepths (numUnused : Nat) (startDepth : Int) (depv : Depv) : Nat → Nat → Option Bool
  | 0, _ => none
  | k + 1, j =>
    let dir := depDirection (depv (j - numUnused))
    if (j : Int) < startDepth ∧ dir = Direction.pos.bits then some true
    else if startDepth ≤ (j : Int) ∧ containsNeg dir = true then some false
    else scanDepths numUnused startDepth depv k (j + 1)

/-- `DEPV_ARRAY::Is_Blockable`. -/
def isBlockable (numUnused : Nat) (startDepth stopDepth : Int) : List Depv → Bool
  | [] => true
  | depv :: rest =>
    match scanDepths numUnused startDepth depv (stopDepth + 1 - numUnused).toNat numUnused with
    | some answer => answer
    | none => isBlockable numUnused startDepth stopDepth rest

section Blockable

variable (numUnused : Nat) (startDepth stopDepth : Int)

/-- A component at a depth before the block has direction `+`. -/
def CarriedOutside (depv : Depv) : Prop :=
  ∃ j, numUnused ≤ j ∧ (j : Int) < startDepth ∧ depDirection (depv (j - numUnused)) = Direction.pos.bits

/-- A component at a depth of the block has `-` among its directions. -/
def NegInBlock (depv : Depv) : Prop :=
  ∃ j, numUnused ≤ j ∧ startDepth ≤ (j : Int) ∧ (j : Int) ≤ stopDepth ∧
    HasSign (depDirection (depv (j - numUnused))) (-1)

/-- Carried outside the block, or without negative components in it. -/
def BlockableVector (depv : Depv) : Prop :=
  CarriedOutside numUnused startDepth depv ∨ ¬ NegInBlock numUnused startDepth stopDepth depv

variable {numUnused startDepth stopDepth}

/-- What the loop over the depths from `j` on finds. -/
theorem scanDepths_spec (depv : Depv) (k : Nat) : ∀ j, numUnused ≤ j →
    match scanDepths numUnused startDepth depv k j with
    | some true => ∃ i, j ≤ i ∧ i < j + k ∧ (i : Int) < startDepth ∧
        depDirection (depv (i - numUnused)) = Direction.pos.bits
    | some false => (∃ i, j ≤ i ∧ i < j + k ∧ startDepth ≤ (i : Int) ∧ HasSign (depDirection (depv (i - numUnused))) (-1)) ∧
        ∀ i, j ≤ i → (i : Int) < startDepth → depDirection (depv (i - numUnused)) ≠ Direction.pos.bits
    | none => ∀ i, j ≤ i → i < j + k →
        ((i : Int) < startDepth → depDirection (depv (i - numUnused)) ≠ Direction.pos.bits) ∧
        (startDepth ≤ (i : Int) → ¬ HasSign (depDirection (depv (i - numUnused))) (-1)) := by
  induction k with
  | zero =>
    intro j _ i hi hlt
    omega
  | succ k ih =>
    intro j hj
    rw [scanDepths]
    by_cases hpos : (j : Int) < startDepth ∧ depDirection (depv (j - numUnused)) = Direction.pos.bits
    · rw [if_pos hpos]
      exact ⟨j, le_rfl, by omega, hpos.1, hpos.2⟩
    rw [if_neg hpos]
    by_cases hneg : startDepth ≤ (j : Int) ∧ containsNeg (depDirection (depv (j - numUnused))) = true
    · rw [if_pos hneg]
      refine ⟨⟨j, le_rfl, by omega, hneg.1, (containsNeg_iff _).1 hneg.2⟩, fun i hi hlt => ?_⟩
      omega
    rw [if_neg hneg]
    have hat : ((j : Int) < startDepth → depDirection (depv (j - numUnused)) ≠ Direction.pos.bits) ∧
        (startDepth ≤ (j : Int) → ¬ HasSign (depDirection (depv (j - numUnused))) (-1)) :=
      ⟨fun hlt heq => hpos ⟨hlt, heq⟩, fun hle hsign => hneg ⟨hle, (containsNeg_iff _).2 hsign⟩⟩
    have hrest := ih (j + 1) (by omega)
    rcases hscan : scanDepths numUnused startDepth depv k (j + 1) with _ | _ | _
    · rw [hscan] at hrest
      intro i hi hlt
      rcases Nat.eq_or_lt_of_le hi with rfl | hgt
      · exact hat
      · exact hrest i hgt (by omega)
    · rw [hscan] at hrest
      obtain ⟨⟨i, hi, hlt, hle, hsign⟩, hnone⟩ := hrest
      refine ⟨⟨i, by omega, by omega, hle, hsign⟩, fun i hi => ?_⟩
      rcases Nat.eq_or_lt_of_le hi with rfl | hgt
      · exact hat.1
      · exact hnone i hgt
    · rw [hscan] at hrest
      obtain ⟨i, hi, hlt, hstart, hdir⟩ := hrest
      exact ⟨i, by omega, by omega, hstart, hdir⟩

theorem scan_vector (hle : startDepth ≤ stopDepth) (depv : Depv) :
    match scanDepths numUnused startDepth depv (stopDepth + 1 - numUnused).toNat numUnused with
    | some true => CarriedOutside numUnused startDepth depv
    | some false => ¬ BlockableVector numUnused startDepth stopDepth depv
    | none => BlockableVector numUnused startDepth stopDepth depv ∧ ¬ CarriedOutside numUnused startDepth depv := by
  have hspec := @scanDepths_spec numUnused startDepth depv
    (stopDepth + 1 - numUnused).toNat numUnused le_rfl
  rcases hscan : scanDepths numUnused startDepth depv (stopDepth + 1 - numUnused).toNat numUnused with _ | _ | _
  · rw [hscan] at hspec
    refine ⟨Or.inr ?_, ?_⟩
    · rintro ⟨j, hj, hstart, hstop, hsign⟩
      exact (hspec j hj (by omega)).2 hstart hsign
    · rintro ⟨j, hj, hstart, hdir⟩
      exact (hspec j hj (by omega)).1 hstart hdir
  · rw [hscan] at hspec
    obtain ⟨⟨i, hi, hlt, hstart, hsign⟩, hnone⟩ := hspec
    rintro (⟨j, hj, hlt, hdir⟩ | hfree)
    · exact hnone j hj hlt hdir
    · exact hfree ⟨i, hi, hstart, by omega, hsign⟩
  · rw [hscan] at hspec
    obtain ⟨i, hi, -, hstart, hdir⟩ := hspec
    exact ⟨i, hi, hstart, hdir⟩

end Blockable

/-- The answer `TRUE` holds for every vector just when no carried vector, met with only blockable ones before it, stands before
one that is not: the first carried vector returns for the whole array. -/
theorem isBlockable_sound_iff (numUnused : Nat) (startDepth stopDepth : Int) (hle : startDepth ≤ stopDepth)
    (vectors : List Depv) :
    (isBlockable numUnused startDepth stopDepth vectors = true →
      ∀ depv ∈ vectors, CarriedOutside numUnused startDepth depv ∨ ¬ NegInBlock numUnused startDepth stopDepth depv) ↔
    ∀ before depv after, vectors = before ++ depv :: after → CarriedOutside numUnused startDepth depv →
      (∀ w ∈ before, BlockableVector numUnused startDepth stopDepth w) →
      ∀ w ∈ after, BlockableVector numUnused startDepth stopDepth w := by
  induction vectors with
  | nil => simp
  | cons depv rest ih =>
    have hscan := @scan_vector numUnused _ _ hle depv
    rcases hres : scanDepths numUnused startDepth depv (stopDepth + 1 - numUnused).toNat numUnused with _ | _ | _
    · -- neither exit is taken: the rest decides
      rw [hres] at hscan
      have hanswer : isBlockable numUnused startDepth stopDepth (depv :: rest) =
          isBlockable numUnused startDepth stopDepth rest := by
        rw [isBlockable, hres]
      rw [hanswer]
      constructor
      · intro hsound before v after heq hcarried hbefore
        rcases List.cons_eq_append_iff.1 heq with ⟨rfl, hv⟩ | ⟨before', rfl, hrest⟩
        · rw [List.cons.injEq] at hv
          rw [hv.1] at hcarried
          exact absurd hcarried hscan.2
        · refine ih.1 (fun htrue w hw => hsound htrue w (List.mem_cons_of_mem _ hw)) before' v after hrest hcarried ?_
          exact fun w hw => hbefore w (List.mem_cons_of_mem _ hw)
      · intro hcond htrue w hw
        rcases List.mem_cons.1 hw with rfl | hw
        · exact hscan.1
        · refine ih.2 (fun before v after heq hcarried hbefore => ?_) htrue w hw
          refine hcond (depv :: before) v after (by rw [heq, List.cons_append]) hcarried fun w hw => ?_
          rcases List.mem_cons.1 hw with rfl | hw
          · exact hscan.1
          · exact hbefore w hw
    · -- `return FALSE`
      rw [hres] at hscan
      have hanswer : isBlockable numUnused startDepth stopDepth (depv :: rest) = false := by
        rw [isBlockable, hres]
      rw [hanswer]
      refine iff_of_true (fun h => absurd h Bool.false_ne_true) fun before v after heq hcarried hbefore => ?_
      rcases List.cons_eq_append_iff.1 heq with ⟨rfl, hv⟩ | ⟨before', rfl, -⟩
      · rw [List.cons.injEq] at hv
        rw [hv.1] at hcarried
        exact absurd (Or.inl hcarried) hscan
      · exact absurd (hbefore depv List.mem_cons_self) hscan
    · -- `return TRUE`
      rw [hres] at hscan
      have hanswer : isBlockable numUnused startDepth stopDepth (depv :: rest) = true := by
        rw [isBlockable, hres]
      rw [hanswer]
      constructor
      · intro hsound before v after heq _ _ w hw
        refine hsound rfl w ?_
        rw [heq]
        exact List.mem_append_right _ (List.mem_cons_of_mem _ hw)
      · intro hcond _ w hw
        rcases List.mem_cons.1 hw with rfl | hw
        · exact Or.inl hscan
        · exact hcond [] depv rest rfl hscan (fun w hw => absurd hw List.not_mem_nil) w hw

/-- The vectors `(+, =)` and `(=, -)`, and the block of the inner loop. -/
def carriedThenNegative : List Depv :=
  [fun i => depSetDirection (if i = 0 then .pos else .eq), fun i => depSetDirection (if i = 0 then .eq else .neg)]

/-- The first vector is carried by the outer loop; the second, which is not, is never looked at. -/
theorem isBlockable_ignores_later : isBlockable 0 1 1 carriedThenNegative = true ∧
    ¬ ∀ depv ∈ carriedThenNegative, CarriedOutside 0 1 depv ∨ ¬ NegInBlock 0 1 1 depv := by
  refine ⟨by decide, fun h => ?_⟩
  rcases h _ (List.mem_cons_of_mem _ List.mem_cons_self) with ⟨j, -, hj, hdir⟩ | hfree
  · have hj0 : j = 0 := by omega
    rw [hj0] at hdir
    exact absurd hdir (by decide)
  · exact hfree ⟨1, by decide, by decide, by decide, by decide⟩

/-- In the other order the bad vector is met first. -/
theorem isBlockable_sound_iff_negative_first :
    (1 : Int) ≤ 1 ∧ (isBlockable 0 1 1 carriedThenNegative.reverse = true →
      ∀ depv ∈ carriedThenNegative.reverse, CarriedOutside 0 1 depv ∨ ¬ NegInBlock 0 1 1 depv) := by
  refine ⟨le_rfl, (isBlockable_sound_iff 0 1 1 le_rfl carriedThenNegative.reverse).2 ?_⟩
  intro before depv after heq hcarried hbefore w hw
  rcases List.cons_eq_append_iff.1 heq with ⟨rfl, hv⟩ | ⟨before', rfl, hrest⟩
  · rw [List.cons.injEq] at hv
    obtain ⟨j, -, hj, hdir⟩ := hcarried
    have hj0 : j = 0 := by omega
    rw [hj0, hv.1] at hdir
    exact absurd hdir (by decide)
  · rcases List.cons_eq_append_iff.1 hrest with ⟨rfl, hv⟩ | ⟨before'', rfl, hnil⟩
    · rw [List.cons.injEq] at hv
      rw [hv.2] at hw
      exact absurd hw List.not_mem_nil
    · exact absurd hnil (by simp)

end Path64.Dep

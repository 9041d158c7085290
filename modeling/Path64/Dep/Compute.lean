import Path64.Dvector.Gamma
import Path64.Soe.Solution

/-!
# Enumeration of dependence vectors: `DEPV_COMPUTE::Compute_Dep_Vectors`

The routine refines the first starred component of a vector to `+`, `=` and `-` in turn, each with its row added to
the system, and recurses where the solver does not rule the direction out. System, vector and result list are shared
by the whole recursion and changed in place.

* `firstStar`, `isAllEquals`, `addDirection`, `computeDepVectors` : the routines of `dep.cxx`;
* `Covers` : a vector's directions contain the signs of an assignment's distances;
* `Spec` : what a call does: it restores system and vector, and appends vectors that cover every solution the vector
  covers;
* `tryDirection_spec`, `computeDepVectors_spec` : one direction, and the recursion.
-/

namespace Path64.Dep

open Dvector Soe

/-- `MAX_COLS`: the length of the row buffer `_tmp`. -/
def maxCols : Nat := 30

/-- The variable layout of a `DEPV_COMPUTE`: where the distance variables of the two references start, and the first
variable of reference 1 that is not common. -/
structure DepvCompute where
  firstDv1 : Nat
  firstDv2 : Nat
  firstNonCom1 : Nat

/-- The arguments that every level of the recursion passes on. -/
structure Call where
  isUsed : Nat → Bool
  mapUsed : Nat → Nat
  sameReference : Bool
  dvDim : Nat
  numBadOuter : Nat

/-- `DEPV_LIST`: its dimension and its vectors, in order. -/
structure DepvList where
  dvDim : Nat
  nodes : List (List Dep)

/-- What the recursion changes in place. -/
structure State where
  soe : SystemOfEquations
  inputDependence : Nat → Dep
  result : DepvList

def DepvList.append (l : DepvList) (node : List Dep) : DepvList := { l with nodes := l.nodes ++ [node] }

/-- `DEPV_LIST::Append` of a vector behind `numBadOuter` bad outer loops. -/
def DepvList.appendBadOuter (l : DepvList) (depv : Nat → Dep) (numBadOuter : Nat) : DepvList :=
  if numBadOuter = 0 then l.append ((List.range l.dvDim).map depv)
  else
    let star (i : Nat) (dir : Direction) : List Dep :=
      (List.range l.dvDim).map fun j => if j = i then depSetDirection dir else depSetDirection .star
    let l := (List.range numBadOuter).foldl (fun l i => (l.append (star i .pos)).append (star i .neg)) l
    l.append ((List.range l.dvDim).map fun j =>
      if j < numBadOuter then depSetDirection .eq else depv (j - numBadOuter))

/-- `First_Star`: `none` for `-1`. -/
def firstStar (c : DepvCompute) (vector : Nat → Dep) (isUsed : Nat → Bool) : Option Nat :=
  ((List.range' c.firstDv1 (c.firstNonCom1 - c.firstDv1)).find? fun i =>
    isUsed i && decide (depDirection (vector (i - c.firstDv1)) = Direction.star.bits)).map (· - c.firstDv1)

/-- `Is_All_Equals`. -/
def isAllEquals (depv : Nat → Dep) (dvDim : Nat) : Bool :=
  (List.range dvDim).all fun i => decide (depDirection (depv i) = Direction.eq.bits)

/-- `Add_Direction`: `none` when the row does not fit the buffer. -/
def addDirection (fresh : Nat → Int) (c : DepvCompute) (soe : SystemOfEquations) (i : Nat) (mapUsed : Nat → Nat)
    (direction : Direction) : Option SystemOfEquations :=
  if soe.vars ≤ maxCols then
    let tmp (p q : Int) : Nat → Int :=
      Function.update (Function.update (fun _ => 0) (mapUsed (c.firstDv1 + i)) p) (mapUsed (c.firstDv2 + i)) q
    match direction with
    | .eq => soe.addEq fresh (tmp 1 (-1)) 0
    | .neg => soe.addLe fresh (tmp (-1) 1) (-1)
    | .pos => soe.addLe fresh (tmp 1 (-1)) (-1)
    | _ => some soe
  else none

section Recursion

variable (fresh : Nat → Int) (isConsistent : SystemOfEquations → Bool) (c : DepvCompute) (a : Call)

/-- One of the three directions: add its row, enter it in the vector, recurse if consistent, undo both. -/
def tryDirection (recurse : State → Option State) (i : Nat) (direction : Direction) (st : State) :
    Option State := do
  let soe ← addDirection fresh c st.soe i a.mapUsed direction
  let st : State := { st with soe, inputDependence := Function.update st.inputDependence i (depSetDirection direction) }
  let st ← if isConsistent st.soe then recurse st else some st
  some { st with
    soe := if direction = .eq then st.soe.removeLastEq 1 else st.soe.removeLastLe 1
    inputDependence := Function.update st.inputDependence i (depSetDirection .star) }

/-- `Compute_Dep_Vectors`; `fuel` bounds the depth of the recursion. -/
def computeDepVectors : Nat → State → Option State
  | 0, _ => none
  | fuel + 1, st =>
    match firstStar c st.inputDependence a.isUsed with
    | none =>
      if a.numBadOuter = 0 then
        some { st with result := st.result.append ((List.range a.dvDim).map st.inputDependence) }
      else some { st with result := st.result.appendBadOuter st.inputDependence a.numBadOuter }
    | some i => do
      let st ← tryDirection fresh isConsistent c a (computeDepVectors fuel) i .pos st
      -- no all-equals dependence from a reference to itself
      let st ←
        if !a.sameReference || i != a.dvDim - 1 || !isAllEquals st.inputDependence (a.dvDim - 1) then
          tryDirection fresh isConsistent c a (computeDepVectors fuel) i .eq st
        else some st
      tryDirection fresh isConsistent c a (computeDepVectors fuel) i .neg st

end Recursion

/-! ## Distances and what covers them -/

/-- The distance of an assignment in dimension `i`. -/
def distance (c : DepvCompute) (x : Nat → Int) (i : Nat) : Int := x (c.firstDv2 + i) - x (c.firstDv1 + i)

/-- Each component's direction set contains the sign of the distance. -/
def Covers (c : DepvCompute) (dvDim : Nat) (v : Nat → Dep) (x : Nat → Int) : Prop :=
  ∀ i < dvDim, HasSign (depDirection (v i)) (distance c x i)

/-- The same for a vector of the result list. -/
def NodeCovers (c : DepvCompute) (dvDim : Nat) (node : List Dep) (x : Nat → Int) : Prop :=
  node.length = dvDim ∧ ∀ i < dvDim, HasSign (depDirection (node.getD i 0#16)) (distance c x i)

/-- `x` gives values to all variables, `y` the same values to the used ones, numbered as in the system. -/
def Agrees (a : Call) (x y : Nat → Int) : Prop := ∀ j, a.isUsed j = true → y (a.mapUsed j) = x j

/-- What `Compute` sets up before the call. -/
structure Call.Ok (c : DepvCompute) (a : Call) (vars : Nat) : Prop where
  dim : c.firstNonCom1 = c.firstDv1 + a.dvDim
  apart : c.firstNonCom1 ≤ c.firstDv2
  conjugate : ∀ i < a.dvDim, a.isUsed (c.firstDv1 + i) = true → a.isUsed (c.firstDv2 + i) = true
  inj : ∀ j k, a.isUsed j = true → a.isUsed k = true → a.mapUsed j = a.mapUsed k → j = k
  lt : ∀ j, a.isUsed j = true → a.mapUsed j < vars
  fits : vars ≤ maxCols
  numBadOuter : a.numBadOuter = 0

/-- The solutions a call has to account for. -/
structure Wanted (c : DepvCompute) (a : Call) (st : State) (x y : Nat → Int) : Prop where
  agrees : Agrees a x y
  solution : st.soe.Solution y
  covers : Covers c a.dvDim st.inputDependence x
  distinct : a.sameReference = true → ∃ i < a.dvDim, distance c x i ≠ 0

/-- System and vector are as before. -/
structure Restored (st st' : State) : Prop where
  lists : st'.soe.lists = st.soe.lists
  vars : st'.soe.vars = st.soe.vars
  wf : st'.soe.Wf
  vector : st'.inputDependence = st.inputDependence

/-- The states a call starts from. -/
structure Start (a : Call) (vars : Nat) (st : State) : Prop where
  wf : st.soe.Wf
  vars : st.soe.vars = vars
  built : ∀ i < a.dvDim, Dep.Built (st.inputDependence i)

/-- `run` restores what it was given and appends vectors covering every solution with property `P`. -/
def Spec (c : DepvCompute) (a : Call) (P : (Nat → Int) → Prop) (run : State → Option State) (st : State) : Prop :=
  ∃ st' news, run st = some st' ∧ Restored st st' ∧ st'.result.nodes = st.result.nodes ++ news ∧
    ∀ x y, Wanted c a st x y → P x → ∃ node ∈ news, NodeCovers c a.dvDim node x

/-- The number of components still to be refined. -/
def stars (c : DepvCompute) (a : Call) (v : Nat → Dep) : Nat :=
  ((Finset.range a.dvDim).filter fun i =>
    a.isUsed (c.firstDv1 + i) = true ∧ depDirection (v i) = Direction.star.bits).card

variable {c : DepvCompute} {a : Call} {vars : Nat}

theorem firstStar_some (h : Call.Ok c a vars) {v : Nat → Dep} {i : Nat} (hi : firstStar c v a.isUsed = some i) :
    i < a.dvDim ∧ a.isUsed (c.firstDv1 + i) = true ∧ depDirection (v i) = Direction.star.bits := by
  unfold firstStar at hi
  obtain ⟨j, hj, rfl⟩ := Option.map_eq_some_iff.mp hi
  have hmem := List.mem_of_find?_eq_some hj
  have hprop := List.find?_some hj
  rw [List.mem_range'_1] at hmem
  have hdim := h.dim
  simp only [Bool.and_eq_true, decide_eq_true_eq] at hprop
  refine ⟨by omega, ?_, hprop.2⟩
  rw [show c.firstDv1 + (j - c.firstDv1) = j by omega]
  exact hprop.1

/-- A built word with direction `*` is the one `DEP_SetDirection` makes. -/
theorem star_word {dep : Dep} (h : Dep.Built dep) (hd : depDirection dep = Direction.star.bits) :
    dep = depSetDirection .star := by
  rcases h.cases with ⟨d, hd', rfl⟩ | hw
  · rw [hd'.direction] at hd
    rcases signOf_mem d with hs | hs | hs <;> rw [hs] at hd <;> exact absurd hd (by decide)
  · rcases mem_openWords hw with rfl | rfl | rfl | rfl | rfl | rfl | rfl
    case inr.inr.inr.inr.inr.inr => decide
    all_goals exact absurd hd (by decide)

theorem depDirection_setDirection (dir : Direction) : depDirection (depSetDirection dir) = dir.bits := by
  cases dir <;> decide

theorem hasSign_bits_iff {dir : Direction} (hdir : dir = .pos ∨ dir = .neg ∨ dir = .eq) (d : Int) :
    HasSign dir.bits d ↔ signOf d = dir := by
  unfold HasSign
  rcases signOf_mem d with hs | hs | hs <;> rw [hs] <;> rcases hdir with rfl | rfl | rfl <;> decide

theorem stars_update_lt {v : Nat → Dep} {i : Nat} (hi : i < a.dvDim) (hu : a.isUsed (c.firstDv1 + i) = true)
    (hs : depDirection (v i) = Direction.star.bits) {dep : Dep} (hdep : depDirection dep ≠ Direction.star.bits) :
    stars c a (Function.update v i dep) < stars c a v := by
  apply Finset.card_lt_card
  rw [Finset.ssubset_iff_of_subset]
  · refine ⟨i, ?_, ?_⟩
    · rw [Finset.mem_filter]
      exact ⟨Finset.mem_range.mpr hi, hu, hs⟩
    · rw [Finset.mem_filter, Function.update_self]
      exact fun h => hdep h.2.2
  · intro j hj
    rw [Finset.mem_filter] at hj ⊢
    by_cases hji : j = i
    · subst hji
      exact ⟨hj.1, hu, hs⟩
    · rw [Function.update_of_ne hji] at hj
      exact hj

theorem stars_le (c : DepvCompute) (a : Call) (v : Nat → Dep) : stars c a v ≤ a.dvDim := by
  unfold stars
  exact (Finset.card_filter_le _ _).trans (Finset.card_range _).le

/-! ## One direction -/

/-- The state a direction leaves behind once its row is removed again. -/
def undo (direction : Direction) (soe : SystemOfEquations) : SystemOfEquations :=
  if direction = .eq then soe.removeLastEq 1 else soe.removeLastLe 1

/-- `soe1` is `soe` with a row that `direction` implies, and removing that row brings `soe` back. -/
structure Refined (c : DepvCompute) (a : Call) (i : Nat) (direction : Direction) (soe soe1 : SystemOfEquations) :
    Prop where
  wf : soe1.Wf
  vars : soe1.vars = soe.vars
  solution : ∀ x y, Agrees a x y → soe.Solution y → signOf (distance c x i) = direction → soe1.Solution y
  undo : ∀ soe2 : SystemOfEquations, soe2.Wf → soe2.lists = soe1.lists →
    (undo direction soe2).lists = soe.lists ∧ (undo direction soe2).Wf

theorem removeLastLe_lists {soe : SystemOfEquations} {l : Lists} {r : Row} (hwf : soe.Wf)
    (h : soe.lists = { l with le := l.le ++ [r] }) :
    (soe.removeLastLe 1).lists = l ∧ (soe.removeLastLe 1).Wf := by
  have hle : soe.le.rows soe.vars = l.le ++ [r] := congrArg Lists.le h
  have heq : soe.eqRows = l.eq := congrArg Lists.eq h
  have hlen : soe.le.eqns.toNat = l.le.length + 1 := by
    rw [← rows_length soe.vars, hle, List.length_append]
    rfl
  have hone : 1 ≤ soe.le.eqns.toNat := by omega
  have hrows := removeLast_rows soe.vars hwf.le hone
  rw [hle, hlen, Nat.add_sub_cancel, List.take_left] at hrows
  refine ⟨?_, ⟨removeLast_wf hwf.le hone, hwf.eq⟩⟩
  show Lists.mk ((soe.le.removeLast 1).rows soe.vars) soe.eqRows = l
  rw [hrows, heq]

theorem removeLastEq_lists {soe : SystemOfEquations} {l : Lists} {r : Row} (hwf : soe.Wf)
    (h : soe.lists = { l with eq := l.eq ++ [r] }) :
    (soe.removeLastEq 1).lists = l ∧ (soe.removeLastEq 1).Wf := by
  have hle : soe.leRows = l.le := congrArg Lists.le h
  have heq : soe.eq.rows soe.vars = l.eq ++ [r] := congrArg Lists.eq h
  have hlen : soe.eq.eqns.toNat = l.eq.length + 1 := by
    rw [← rows_length soe.vars, heq, List.length_append]
    rfl
  have hone : 1 ≤ soe.eq.eqns.toNat := by omega
  have hrows := removeLast_rows soe.vars hwf.eq hone
  rw [heq, hlen, Nat.add_sub_cancel, List.take_left] at hrows
  refine ⟨?_, ⟨hwf.le, removeLast_wf hwf.eq hone⟩⟩
  show Lists.mk soe.leRows ((soe.eq.removeLast 1).rows soe.vars) = l
  rw [hrows, hle]

theorem refined_addLe (fresh : Nat → Int) {soe : SystemOfEquations} (hwf : soe.Wf) {i : Nat} {dir : Direction}
    (hdir : dir ≠ .eq) (row : Nat → Int) (b : Int)
    (hrow : ∀ x y, Agrees a x y → signOf (distance c x i) = dir →
      (⟨(List.range soe.vars).map row, b⟩ : Row).lhs y ≤ b) :
    ∃ soe1, soe.addLe fresh row b = some soe1 ∧ Refined c a i dir soe soe1 := by
  obtain ⟨s1, hs1, hwf1, hv1, heq1, hrows1⟩ := addLe_lists fresh hwf row b
  have hlists : s1.lists = { soe.lists with le := soe.lists.le ++ [⟨(List.range soe.vars).map row, b⟩] } := by
    unfold SystemOfEquations.lists SystemOfEquations.eqRows
    rw [hrows1, heq1, hv1]
  refine ⟨s1, hs1, hwf1, hv1, fun x y hxy hsol hsign => ?_, fun s2 hwf2 hl2 => ?_⟩
  · show s1.lists.Solution y
    rw [hlists]
    exact solution_addLe hsol (hrow x y hxy hsign)
  · unfold undo
    rw [if_neg hdir]
    exact removeLastLe_lists hwf2 (hl2.trans hlists)

theorem refined_addEq (fresh : Nat → Int) {soe : SystemOfEquations} (hwf : soe.Wf) {i : Nat} (row : Nat → Int)
    (b : Int)
    (hrow : ∀ x y, Agrees a x y → signOf (distance c x i) = .eq →
      (⟨(List.range soe.vars).map row, b⟩ : Row).lhs y = b) :
    ∃ soe1, soe.addEq fresh row b = some soe1 ∧ Refined c a i .eq soe soe1 := by
  obtain ⟨s1, hs1, hwf1, hv1, hle1, hrows1⟩ := addEq_lists fresh hwf row b
  have hlists : s1.lists = { soe.lists with eq := soe.lists.eq ++ [⟨(List.range soe.vars).map row, b⟩] } := by
    unfold SystemOfEquations.lists SystemOfEquations.leRows
    rw [hrows1, hle1, hv1]
  refine ⟨s1, hs1, hwf1, hv1, fun x y hxy hsol hsign => ?_, fun s2 hwf2 hl2 => ?_⟩
  · show s1.lists.Solution y
    rw [hlists]
    exact solution_addEq hsol (hrow x y hxy hsign)
  · unfold undo
    rw [if_pos rfl]
    exact removeLastEq_lists hwf2 (hl2.trans hlists)

theorem signOf_eq_pos {d : Int} (h : signOf d = .pos) : 0 < d := by
  rcases signOf_cases d with ⟨hd, -⟩ | ⟨-, hs⟩ | ⟨-, hs⟩
  · exact hd
  · exact absurd (hs.symm.trans h) (by decide)
  · exact absurd (hs.symm.trans h) (by decide)

theorem signOf_eq_neg {d : Int} (h : signOf d = .neg) : d < 0 := by
  rcases signOf_cases d with ⟨-, hs⟩ | ⟨hd, -⟩ | ⟨-, hs⟩
  · exact absurd (hs.symm.trans h) (by decide)
  · exact hd
  · exact absurd (hs.symm.trans h) (by decide)

theorem signOf_eq_eq {d : Int} (h : signOf d = .eq) : d = 0 := by
  rcases signOf_cases d with ⟨-, hs⟩ | ⟨-, hs⟩ | ⟨hd, -⟩
  · exact absurd (hs.symm.trans h) (by decide)
  · exact absurd (hs.symm.trans h) (by decide)
  · exact hd

theorem addDirection_refined (fresh : Nat → Int) (h : Call.Ok c a vars) {soe : SystemOfEquations} (hwf : soe.Wf)
    (hv : soe.vars = vars) {i : Nat} (hi : i < a.dvDim) (hu : a.isUsed (c.firstDv1 + i) = true) {dir : Direction}
    (hdir : dir = .pos ∨ dir = .neg ∨ dir = .eq) :
    ∃ soe1, addDirection fresh c soe i a.mapUsed dir = some soe1 ∧ Refined c a i dir soe soe1 := by
  have hu2 := h.conjugate i hi hu
  have ha : a.mapUsed (c.firstDv1 + i) < soe.vars := hv ▸ h.lt _ hu
  have hb : a.mapUsed (c.firstDv2 + i) < soe.vars := hv ▸ h.lt _ hu2
  have hab : a.mapUsed (c.firstDv1 + i) ≠ a.mapUsed (c.firstDv2 + i) := by
    intro heq
    have hinj := h.inj _ _ hu hu2 heq
    have hdim := h.dim
    have hapart := h.apart
    omega
  have hdist : ∀ x y, Agrees a x y →
      distance c x i = y (a.mapUsed (c.firstDv2 + i)) - y (a.mapUsed (c.firstDv1 + i)) := by
    intro x y hxy
    rw [hxy _ hu, hxy _ hu2]
    rfl
  have hfits : soe.vars ≤ maxCols := hv ▸ h.fits
  unfold addDirection
  rw [if_pos hfits]
  rcases hdir with rfl | rfl | rfl
  · refine refined_addLe fresh hwf (by decide) _ _ fun x y hxy hsign => ?_
    have hd := hdist x y hxy
    have hpos := signOf_eq_pos hsign
    rw [lhs_pair ha hb hab]
    omega
  · refine refined_addLe fresh hwf (by decide) _ _ fun x y hxy hsign => ?_
    have hd := hdist x y hxy
    have hneg := signOf_eq_neg hsign
    rw [lhs_pair ha hb hab]
    omega
  · refine refined_addEq fresh hwf _ _ fun x y hxy hsign => ?_
    have hd := hdist x y hxy
    have hzero := signOf_eq_eq hsign
    rw [lhs_pair ha hb hab]
    omega

/-- One direction, given that the recursive call keeps `Spec`: all solutions with that direction are covered. -/
theorem tryDirection_spec (fresh : Nat → Int) {isConsistent : SystemOfEquations → Bool}
    (hsound : ∀ s : SystemOfEquations, isConsistent s = false → ∀ y, ¬ s.Solution y) (h : Call.Ok c a vars)
    {recurse : State → Option State} {st : State} (hst : Start a vars st) {i : Nat} (hi : i < a.dvDim)
    (hu : a.isUsed (c.firstDv1 + i) = true) (hs : depDirection (st.inputDependence i) = Direction.star.bits)
    {dir : Direction} (hdir : dir = .pos ∨ dir = .neg ∨ dir = .eq)
    (hrec : ∀ st1, Start a vars st1 →
      st1.inputDependence = Function.update st.inputDependence i (depSetDirection dir) →
      Spec c a (fun _ => True) recurse st1) :
    Spec c a (fun x => signOf (distance c x i) = dir) (tryDirection fresh isConsistent c a recurse i dir) st := by
  obtain ⟨soe1, hadd, href⟩ := addDirection_refined fresh h hst.wf hst.vars hi hu hdir
  have hstar := star_word (hst.built i hi) hs
  set v1 := Function.update st.inputDependence i (depSetDirection dir) with hv1
  have hback : Function.update v1 i (depSetDirection .star) = st.inputDependence := by
    rw [hv1, Function.update_idem, ← hstar, Function.update_eq_self]
  have hst1 : Start a vars { st with soe := soe1, inputDependence := v1 } := by
    refine ⟨href.wf, href.vars.trans hst.vars, fun j hj => ?_⟩
    by_cases hji : j = i
    · subst hji
      simp only [hv1, Function.update_self]
      exact .setDirection dir
    · simp only [hv1, Function.update_of_ne hji]
      exact hst.built j hj
  have hwant : ∀ x y, Wanted c a st x y → signOf (distance c x i) = dir →
      Wanted c a { st with soe := soe1, inputDependence := v1 } x y := by
    intro x y hw hsign
    refine ⟨hw.agrees, href.solution x y hw.agrees hw.solution hsign, fun j hj => ?_, hw.distinct⟩
    by_cases hji : j = i
    · subst hji
      simp only [hv1, Function.update_self, depDirection_setDirection]
      rw [← hsign]
      exact hasSign_own _
    · simp only [hv1, Function.update_of_ne hji]
      exact hw.covers j hj
  cases hcons : isConsistent soe1 with
  | true =>
    obtain ⟨st2, news, hrun, hres, hnodes, hcov⟩ := hrec _ hst1 rfl
    obtain ⟨hl, hwf⟩ := href.undo st2.soe hres.wf hres.lists
    have hvars : (undo dir st2.soe).vars = st.soe.vars := by
      have hsame : (undo dir st2.soe).vars = st2.soe.vars := by
        unfold undo
        split_ifs <;> rfl
      exact hsame.trans (hres.vars.trans href.vars)
    refine ⟨{ st2 with
      soe := undo dir st2.soe
      inputDependence := Function.update st2.inputDependence i (depSetDirection .star) }, news, ?_, ?_, hnodes, ?_⟩
    · simp only [tryDirection, hadd, Option.bind_eq_bind, Option.bind_some, hcons, if_true, ← hv1, hrun]
      rfl
    · refine ⟨hl, hvars, hwf, ?_⟩
      simp only [hres.vector]
      exact hback
    · intro x y hw hsign
      exact hcov x y (hwant x y hw hsign) trivial
  | false =>
    obtain ⟨hl, hwf⟩ := href.undo soe1 href.wf rfl
    have hvars : (undo dir soe1).vars = st.soe.vars := by
      have hsame : (undo dir soe1).vars = soe1.vars := by
        unfold undo
        split_ifs <;> rfl
      exact hsame.trans href.vars
    refine ⟨{ st with
      soe := undo dir soe1
      inputDependence := Function.update v1 i (depSetDirection .star) }, [], ?_, ⟨hl, hvars, hwf, hback⟩, ?_, ?_⟩
    · simp only [tryDirection, hadd, Option.bind_eq_bind, Option.bind_some, hcons, Bool.false_eq_true, if_false, ← hv1]
      rfl
    · exact (List.append_nil _).symm
    · intro x y hw hsign
      exact absurd (hwant x y hw hsign).solution (hsound soe1 hcons y)

/-! ## The recursion -/

theorem Restored.start {st st' : State} (h : Restored st st') (hst : Start a vars st) : Start a vars st' := by
  refine ⟨h.wf, h.vars.trans hst.vars, fun i hi => ?_⟩
  rw [h.vector]
  exact hst.built i hi

theorem Restored.refl {st : State} (h : st.soe.Wf) : Restored st st := ⟨rfl, rfl, h, rfl⟩

theorem Restored.trans {st st' st'' : State} (h : Restored st st') (h' : Restored st' st'') : Restored st st'' :=
  ⟨h'.lists.trans h.lists, h'.vars.trans h.vars, h'.wf, h'.vector.trans h.vector⟩

theorem Restored.wanted {st st' : State} (h : Restored st st') {x y : Nat → Int} (hw : Wanted c a st x y) :
    Wanted c a st' x y := by
  refine ⟨hw.agrees, ?_, ?_, hw.distinct⟩
  · show st'.soe.lists.Solution y
    rw [h.lists]
    exact hw.solution
  · rw [h.vector]
    exact hw.covers

/-- Running twice: what either run covers is covered. -/
theorem Spec.bind {P Q : (Nat → Int) → Prop} {run run' : State → Option State} {st : State} (h : Spec c a P run st)
    (h' : ∀ st', Restored st st' → Spec c a Q run' st') :
    Spec c a (fun x => P x ∨ Q x) (fun st => run st >>= run') st := by
  obtain ⟨st1, news1, hrun1, hres1, hnodes1, hcov1⟩ := h
  obtain ⟨st2, news2, hrun2, hres2, hnodes2, hcov2⟩ := h' st1 hres1
  refine ⟨st2, news1 ++ news2, ?_, hres1.trans hres2, ?_, ?_⟩
  · show run st >>= run' = some st2
    rw [hrun1]
    exact hrun2
  · rw [hnodes2, hnodes1, List.append_assoc]
  · rintro x y hw (hp | hq)
    · obtain ⟨node, hmem, hc⟩ := hcov1 x y hw hp
      exact ⟨node, List.mem_append_left _ hmem, hc⟩
    · obtain ⟨node, hmem, hc⟩ := hcov2 x y (hres1.wanted hw) hq
      exact ⟨node, List.mem_append_right _ hmem, hc⟩

theorem nodeCovers_of_covers {v : Nat → Dep} {x : Nat → Int} (h : Covers c a.dvDim v x) :
    NodeCovers c a.dvDim ((List.range a.dvDim).map v) x := by
  refine ⟨by rw [List.length_map, List.length_range], fun i hi => ?_⟩
  rw [List.getD_eq_getElem?_getD, List.getElem?_map, List.getElem?_range hi]
  exact h i hi

theorem distance_zero_of_allEquals {v : Nat → Dep} {x : Nat → Int} (hcov : Covers c a.dvDim v x)
    (hall : isAllEquals v (a.dvDim - 1) = true) {j : Nat} (hj : j < a.dvDim - 1) : distance c x j = 0 := by
  unfold isAllEquals at hall
  rw [List.all_eq_true] at hall
  have hdir := of_decide_eq_true (hall j (List.mem_range.mpr hj))
  have hsign := hcov j (by omega)
  rw [hdir, hasSign_bits_iff (Or.inr (Or.inr rfl))] at hsign
  exact signOf_eq_eq hsign

/-- The `=` direction with its exception: where it is skipped, no wanted solution has distance zero. -/
theorem equals_spec {st : State} (hst : Start a vars st) {i : Nat} (hi : i < a.dvDim) {run : State → Option State}
    (h : Spec c a (fun x => signOf (distance c x i) = .eq) run st) :
    Spec c a (fun x => signOf (distance c x i) = .eq)
      (fun st => if !a.sameReference || i != a.dvDim - 1 || !isAllEquals st.inputDependence (a.dvDim - 1) then run st
        else some st) st := by
  by_cases hcond : (!a.sameReference || i != a.dvDim - 1 || !isAllEquals st.inputDependence (a.dvDim - 1)) = true
  · obtain ⟨st', news, hrun, hrest⟩ := h
    exact ⟨st', news, (if_pos hcond).trans hrun, hrest⟩
  · refine ⟨st, [], if_neg hcond, Restored.refl hst.wf, (List.append_nil _).symm, fun x y hw hsign => ?_⟩
    simp only [Bool.or_eq_true, Bool.not_eq_true', bne_iff_ne, ne_eq, not_or, Bool.not_eq_false,
      not_not] at hcond
    obtain ⟨⟨hsame, hlast⟩, hequal⟩ := hcond
    obtain ⟨j, hj, hne⟩ := hw.distinct hsame
    have hzero : distance c x j = 0 := by
      by_cases hjl : j < a.dvDim - 1
      · exact distance_zero_of_allEquals hw.covers hequal hjl
      · rw [show j = i by omega]
        exact signOf_eq_eq hsign
    exact absurd hzero hne

/-- `Compute_Dep_Vectors` returns once the fuel exceeds the number of stars, and keeps `Spec`. -/
theorem computeDepVectors_spec (fresh : Nat → Int) {isConsistent : SystemOfEquations → Bool}
    (hsound : ∀ s : SystemOfEquations, isConsistent s = false → ∀ y, ¬ s.Solution y) (h : Call.Ok c a vars)
    (fuel : Nat) (st : State) (hst : Start a vars st) (hfuel : stars c a st.inputDependence < fuel) :
    Spec c a (fun _ => True) (computeDepVectors fresh isConsistent c a fuel) st := by
  induction fuel generalizing st with
  | zero => omega
  | succ fuel ih =>
    cases hfirst : firstStar c st.inputDependence a.isUsed with
    | none =>
      refine ⟨{ st with result := st.result.append ((List.range a.dvDim).map st.inputDependence) },
        [(List.range a.dvDim).map st.inputDependence], ?_, ⟨rfl, rfl, hst.wf, rfl⟩, rfl, ?_⟩
      · simp only [computeDepVectors, hfirst, h.numBadOuter, if_true]
      · intro x y hw _
        exact ⟨_, List.mem_singleton_self _, nodeCovers_of_covers hw.covers⟩
    | some i =>
      obtain ⟨hi, hu, hs⟩ := firstStar_some h hfirst
      have htry : ∀ (dir : Direction), dir = .pos ∨ dir = .neg ∨ dir = .eq → ∀ st', Restored st st' →
          Spec c a (fun x => signOf (distance c x i) = dir)
            (tryDirection fresh isConsistent c a (computeDepVectors fresh isConsistent c a fuel) i dir) st' := by
        intro dir hdir st' hres
        have hs' : depDirection (st'.inputDependence i) = Direction.star.bits := by rw [hres.vector, hs]
        refine tryDirection_spec fresh hsound h (hres.start hst) hi hu hs' hdir fun st1 hst1 hv1 => ih st1 hst1 ?_
        have hne : depDirection (depSetDirection dir) ≠ Direction.star.bits := by
          rw [depDirection_setDirection]
          rcases hdir with rfl | rfl | rfl <;> decide
        have hlt := stars_update_lt hi hu hs' hne
        rw [hv1]
        rw [hres.vector] at hlt ⊢
        omega
      have hpos := htry .pos (Or.inl rfl) st (Restored.refl hst.wf)
      have hall : Spec c a _ _ st := (hpos.bind fun st1 hres1 =>
        equals_spec (hres1.start hst) hi (htry .eq (Or.inr (Or.inr rfl)) st1 hres1)).bind
          fun st2 hres2 => htry .neg (Or.inr (Or.inl rfl)) st2 hres2
      obtain ⟨st3, news, hrun, hres, hnodes, hcov⟩ := hall
      refine ⟨st3, news, ?_, hres, hnodes, fun x y hw _ => hcov x y hw ?_⟩
      · rw [← hrun]
        simp only [computeDepVectors, hfirst, bind_assoc]
        refine bind_congr fun st1 => ?_
        split_ifs <;> rfl
      · rcases signOf_mem (distance c x i) with hd | hd | hd
        · exact Or.inl (Or.inl hd)
        · exact Or.inr hd
        · exact Or.inl (Or.inr hd)

/-- The enumeration is complete: from any system and vector, it returns with both as they were, and every solution the
vector covers (for a reference with itself: every one with a non-zero distance) is covered by an appended vector. -/
theorem compute_dep_vectors_complete (fresh : Nat → Int) (isConsistent : SystemOfEquations → Bool)
    (hsound : ∀ s : SystemOfEquations, isConsistent s = false → ∀ y, ¬ s.Solution y) (c : DepvCompute) (a : Call)
    (st : State) (hok : Call.Ok c a st.soe.vars) (hwf : st.soe.Wf)
    (hbuilt : ∀ i < a.dvDim, Dep.Built (st.inputDependence i)) (fuel : Nat) (hfuel : a.dvDim < fuel) :
    ∃ st' news, computeDepVectors fresh isConsistent c a fuel st = some st' ∧
      st'.soe.lists = st.soe.lists ∧ st'.soe.vars = st.soe.vars ∧ st'.inputDependence = st.inputDependence ∧
      st'.result.nodes = st.result.nodes ++ news ∧
      ∀ x y, Agrees a x y → st.soe.Solution y → Covers c a.dvDim st.inputDependence x →
        (a.sameReference = true → ∃ i < a.dvDim, distance c x i ≠ 0) →
        ∃ node ∈ news, NodeCovers c a.dvDim node x := by
  have hstars := stars_le c a st.inputDependence
  obtain ⟨st', news, hrun, hres, hnodes, hcov⟩ :=
    computeDepVectors_spec fresh hsound hok fuel st ⟨hwf, rfl, hbuilt⟩ (by omega)
  refine ⟨st', news, hrun, hres.lists, hres.vars, hres.vector, hnodes, ?_⟩
  intro x y hxy hsol hcover hdistinct
  exact hcov x y ⟨hxy, hsol, hcover, hdistinct⟩ trivial

/-- One common loop, no constraints: the solution `(3, 5)` has distance `2`. -/
theorem compute_dep_vectors_complete_one_loop :
    let a : Call := ⟨fun j => decide (j < 2), id, false, 1, 0⟩
    let st : State := ⟨.new (fun _ => 0) 0 0 2 fun _ _ => 0, fun _ => depSetDirection .star, ⟨1, []⟩⟩
    ∃ st', computeDepVectors (fun _ => 0) (fun _ => true) ⟨0, 1, 1⟩ a 2 st = some st' ∧
      ∃ node ∈ st'.result.nodes, NodeCovers ⟨0, 1, 1⟩ 1 node fun j => 3 + 2 * j := by
  intro a st
  have hok : Call.Ok ⟨0, 1, 1⟩ a st.soe.vars := by
    refine ⟨rfl, by decide, fun i hi _ => ?_, fun j k _ _ h => h, fun j hj => ?_, by decide, rfl⟩
    · exact decide_eq_true (by simp only [a] at hi ⊢; omega)
    · exact of_decide_eq_true hj
  obtain ⟨st', news, hrun, -, -, -, hnodes, hcov⟩ := compute_dep_vectors_complete (fun _ => 0) (fun _ => true)
    (fun s h => absurd h (by decide)) ⟨0, 1, 1⟩ a st hok ⟨⟨le_rfl, le_rfl⟩, ⟨le_rfl, le_rfl⟩⟩
    (fun _ _ => .setDirection .star) 2 (by decide)
  refine ⟨st', hrun, ?_⟩
  rw [hnodes, List.nil_append]
  refine hcov (fun j => 3 + 2 * j) (fun j => 3 + 2 * j) (fun _ _ => rfl) ⟨?_, ?_⟩ ?_ (fun h => absurd h (by decide))
  · intro r hr
    exact absurd hr (by simp [st, SystemOfEquations.lists, SystemOfEquations.leRows, SystemOfEquations.new, Block.rows])
  · intro r hr
    exact absurd hr (by simp [st, SystemOfEquations.lists, SystemOfEquations.eqRows, SystemOfEquations.new, Block.rows])
  · intro i hi
    have hi : i = 0 := by simp only [a] at hi; omega
    subst hi
    decide

end Path64.Dep

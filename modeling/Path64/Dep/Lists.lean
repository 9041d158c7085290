import Path64.Dep.Directions
import Path64.Lib.Checked

/-!
# Lists of dependence vectors

The operations of `DEPV_LIST` (`dep.cxx`) that split and filter the vectors of a list. Each is a walk along the list; a node for
which its body has no value is unlinked.

* `removeDuplicates`, `appendBadOuter`, `eliminateInnerCarried`, `eliminateNonDistanceCarriedBy`, `blockablePartList`,
  `normalizeStep` : the source;
* `Described` : the distance vectors of a list;
* `describes_iff_hasSign`, `splitDirection_spec` : components and the parts they are split into;
* `ListsExact` : what each operation does to the described vectors; `lists_exact` : all of it.
-/

namespace Path64.Dep

open Dvector Lib Finset

/-! ## The source -/

/-- `DEPV_NODE::Equal`. -/
def depvEqual (dvDim : Nat) (p q : Depv) : Bool := (List.range dvDim).all fun i => p i == q i

/-- The inner loop of `Remove_Duplicates`: unlinks the nodes behind `node` that equal it. -/
def removeEqual (dvDim : Nat) (node : Depv) (rest : List Depv) : List Depv :=
  rest.filterMap fun node2 => if depvEqual dvDim node node2 then none else some node2

theorem length_removeEqual (dvDim : Nat) (node : Depv) (rest : List Depv) : (removeEqual dvDim node rest).length ≤ rest.length :=
  List.length_filterMap_le _ _

/-- `Remove_Duplicates`. -/
def removeDuplicates (dvDim : Nat) : List Depv → List Depv
  | [] => []
  | node :: rest => node :: removeDuplicates dvDim (removeEqual dvDim node rest)
termination_by l => l.length
decreasing_by exact Nat.lt_succ_of_le (length_removeEqual dvDim node rest)

/-- A vector of stars with `dir` in component `i`. -/
def starExcept (i : Nat) (dir : Direction) : Depv := fun j => depSetDirection (if j = i then dir else .star)

/-- `Append (depv, num_bad_outer)`; `none` for the null pointer. -/
def appendBadOuter (l : List Depv) (depv : Option Depv) (numBadOuter : Nat) : List Depv :=
  if numBadOuter = 0 then l ++ depv.toList
  else
    let l := (List.range numBadOuter).foldl (fun l i => l ++ [starExcept i .pos, starExcept i .neg]) l
    l ++ (depv.map fun depv j => if j < numBadOuter then depSetDirection .eq else depv (j - numBadOuter)).toList

/-- The directions before component `i` are all `=`. -/
def equalBefore (node : Depv) (i : Nat) : Bool := (List.range i).all fun j => depDirection (node j) == Direction.eq.bits

/-- `Eliminate_Inner_Carried`. -/
def eliminateInnerCarried (dvDim : Nat) (l : List Depv) : List Depv :=
  l.filterMap fun node =>
    if equalBefore node (dvDim - 1) then
      if depDirection (node (dvDim - 1)) = Direction.pos.bits ∨ depDirection (node (dvDim - 1)) = Direction.neg.bits ∨
          depDirection (node (dvDim - 1)) = Direction.posneg.bits then none
      else some (Function.update node (dvDim - 1) (depSetDistance 0))
    else some node

/-- Component `j` of a node that is being expanded, with the nodes appended for it. -/
def expandAt (s : Depv × List Depv) (j : Nat) : Depv × List Depv :=
  let set (dir : Direction) : Depv := Function.update s.1 j (depSetDirection dir)
  let dir := depDirection (s.1 j)
  if dir = Direction.poseq.bits then (set .pos, s.2 ++ [set .eq])
  else if dir = Direction.negeq.bits then (set .neg, s.2 ++ [set .eq])
  else if dir = Direction.posneg.bits then (set .neg, s.2 ++ [set .pos])
  else if dir = Direction.star.bits then (set .neg, s.2 ++ [set .pos, set .eq])
  else s

/-- The loop over the components up to `i`. -/
def expandNode (i : Nat) (node : Depv) : Depv × List Depv := (List.range (i + 1)).foldl expandAt (node, [])

/-- The directions that are expanded. -/
def Compound (dep : Dep) : Prop :=
  depDirection dep = Direction.poseq.bits ∨ depDirection dep = Direction.negeq.bits ∨
    depDirection dep = Direction.posneg.bits ∨ depDirection dep = Direction.star.bits

instance (dep : Dep) : Decidable (Compound dep) := inferInstanceAs (Decidable (_ ∨ _ ∨ _ ∨ _))

/-- More than the nodes that the expansion of a node can lead to. -/
def weight (i : Nat) (node : Depv) : Nat := ∏ j ∈ range (i + 1), if Compound (node j) then 3 else 1

/-- What one component is split into: the part that stays and the parts that are appended. -/
def splitDirection : Direction → Direction × List Direction
  | .poseq => (.pos, [.eq])
  | .negeq => (.neg, [.eq])
  | .posneg => (.neg, [.pos])
  | .star => (.neg, [.pos, .eq])
  | dir => (dir, [])

/-- One component: it is left, or its direction is split. -/
theorem expandAt_cases (s : Depv × List Depv) (j : Nat) : (¬ Compound (s.1 j) ∧ expandAt s j = s) ∨
    ∃ dir : Direction, depDirection (s.1 j) = dir.bits ∧ Compound (s.1 j) ∧
      (dir = .poseq ∨ dir = .negeq ∨ dir = .posneg ∨ dir = .star) ∧
      expandAt s j = (Function.update s.1 j (depSetDirection (splitDirection dir).1),
        s.2 ++ (splitDirection dir).2.map fun part => Function.update s.1 j (depSetDirection part)) := by
  unfold expandAt Compound
  dsimp only
  split_ifs with h1 h2 h3 h4
  · exact Or.inr ⟨.poseq, h1, Or.inl h1, Or.inl rfl, rfl⟩
  · exact Or.inr ⟨.negeq, h2, Or.inr (Or.inl h2), Or.inr (Or.inl rfl), rfl⟩
  · exact Or.inr ⟨.posneg, h3, Or.inr (Or.inr (Or.inl h3)), Or.inr (Or.inr (Or.inl rfl)), rfl⟩
  · exact Or.inr ⟨.star, h4, Or.inr (Or.inr (Or.inr h4)), Or.inr (Or.inr (Or.inr rfl)), rfl⟩
  · refine Or.inl ⟨?_, rfl⟩
    rintro (h | h | h | h)
    exacts [h1 h, h2 h, h3 h, h4 h]

theorem not_compound_setDirection {dir : Direction} (h : dir = .pos ∨ dir = .neg ∨ dir = .eq) :
    ¬ Compound (depSetDirection dir) := by
  unfold Compound
  rw [direction_setDirection]
  rcases h with rfl | rfl | rfl <;> decide

theorem splitDirection_parts {dir : Direction} (h : dir = .poseq ∨ dir = .negeq ∨ dir = .posneg ∨ dir = .star) :
    (∀ part ∈ (splitDirection dir).1 :: (splitDirection dir).2, part = .pos ∨ part = .neg ∨ part = .eq) ∧
      (splitDirection dir).2.length ≤ 2 := by
  rcases h with rfl | rfl | rfl | rfl <;> decide

theorem weight_update {i j : Nat} (hj : j ≤ i) {node : Depv} (hcompound : Compound (node j)) {w : Dep} (hw : ¬ Compound w) :
    3 * weight i (Function.update node j w) = weight i node := by
  have hmem : j ∈ range (i + 1) := mem_range.2 (by omega)
  unfold weight
  rw [← mul_prod_erase _ _ hmem, ← mul_prod_erase _ _ hmem, Function.update_self, if_neg hw, if_pos hcompound, one_mul]
  congr 1
  refine prod_congr rfl fun k hk => ?_
  rw [Function.update_of_ne (ne_of_mem_erase hk)]

theorem weight_pos (i : Nat) (node : Depv) : 0 < weight i node := prod_pos fun j _ => by split_ifs <;> decide

theorem weight_expandNode (i : Nat) (node : Depv) :
    ((expandNode i node).2.map (weight i)).sum + weight i (expandNode i node).1 ≤ weight i node := by
  refine foldl_range (fun _ (s : Depv × List Depv) => (s.2.map (weight i)).sum + weight i s.1 ≤ weight i node) (by simp) ?_
  intro j s hj hs
  rcases expandAt_cases s j with ⟨-, heq⟩ | ⟨dir, -, hcompound, hdir, heq⟩
  · rwa [heq]
  · obtain ⟨hparts, hlen⟩ := splitDirection_parts hdir
    have hweight : ∀ part, part = .pos ∨ part = .neg ∨ part = .eq →
        3 * weight i (Function.update s.1 j (depSetDirection part)) = weight i s.1 :=
      fun part hpart => weight_update (by omega) hcompound (not_compound_setDirection hpart)
    have hfirst := hweight _ (hparts _ List.mem_cons_self)
    have hsum : (((splitDirection dir).2.map fun part => Function.update s.1 j (depSetDirection part)).map (weight i)).sum ≤
        2 * weight i (Function.update s.1 j (depSetDirection (splitDirection dir).1)) := by
      rw [List.map_map]
      refine (List.sum_le_card_nsmul _ (weight i (Function.update s.1 j (depSetDirection (splitDirection dir).1)))
        fun x hx => ?_).trans ?_
      · obtain ⟨part, hpart, rfl⟩ := List.mem_map.1 hx
        have := hweight part (hparts part (List.mem_cons_of_mem _ hpart))
        show weight i (Function.update s.1 j (depSetDirection part)) ≤ _
        omega
      · rw [List.length_map, smul_eq_mul]
        exact Nat.mul_le_mul_right _ hlen
    rw [heq]
    simp only [List.map_append, List.sum_append]
    omega

/-- The first loop of `Eliminate_Non_Distance_Carried_By`; the nodes it appends are expanded in their turn. -/
def expandLoop (i : Nat) : List Depv → List Depv
  | [] => []
  | node :: rest => (expandNode i node).1 :: expandLoop i (rest ++ (expandNode i node).2)
termination_by l => (l.map (weight i)).sum
decreasing_by
  have := weight_expandNode i node
  have := weight_pos i (expandNode i node).1
  simp only [List.map_append, List.sum_append, List.map_cons, List.sum_cons]
  omega

/-- `Eliminate_Non_Distance_Carried_By`. -/
def eliminateNonDistanceCarriedBy (i : Nat) (l : List Depv) : List Depv :=
  (expandLoop i l).filterMap fun node =>
    if equalBefore node i = true ∧ depIsDistance (node i) = false ∧ depDirection (node i) ≠ Direction.eq.bits then none
    else some node

/-- What `Blockable_Part` changes: the vector, in place, and the output. -/
structure Blocking where
  depv : Depv
  block : List Depv

def Blocking.set (s : Blocking) (i : Nat) (dep : Dep) : Blocking := { s with depv := Function.update s.depv i dep }

/-- `DEPV_NODE::Blockable_Part`, with `k` depths left from `startDepth` on. -/
def blockablePart (numUnusedDim : Nat) : Nat → Nat → Blocking → Blocking
  | 0, _, s => { s with block := s.block ++ [s.depv] }
  | k + 1, startDepth, s =>
    let startDim := startDepth - numUnusedDim
    let orig := s.depv startDim
    let next := blockablePart numUnusedDim k (startDepth + 1)
    let dir := depDirection orig
    let s :=
      if dir = Direction.pos.bits ∨ dir = Direction.poseq.bits ∨ dir = Direction.eq.bits then next s
      else if dir = Direction.posneg.bits then next (s.set startDim (depSetDirection .pos))
      else if dir = Direction.negeq.bits then next (s.set startDim (depSetDirection .eq))
      else if dir = Direction.star.bits then
        next ((next (s.set startDim (depSetDirection .pos))).set startDim (depSetDirection .eq))
      else s
    s.set startDim orig

/-- `DEPV_LIST::Blockable_Part`: the list itself and the output. -/
def blockablePartList (numUnusedDim startDepth stopDepth : Nat) : List Depv → List Depv → List Depv × List Depv
  | [], block => ([], block)
  | node :: rest, block =>
    let s := blockablePart numUnusedDim (stopDepth + 1 - startDepth) startDepth ⟨node, block⟩
    let (rest, block) := blockablePartList numUnusedDim startDepth stopDepth rest s.block
    (s.depv :: rest, block)

/-- All distances with the kind of sign that the direction has. -/
def forgetSign (dep : Dep) : Dep :=
  let dir := depDirection dep
  if dir = Direction.pos.bits ∨ dir = Direction.neg.bits ∨ dir = Direction.posneg.bits then depSetDirection .posneg
  else if dir = Direction.poseq.bits ∨ dir = Direction.negeq.bits ∨ dir = Direction.star.bits then depSetDirection .star
  else dep

/-- `DEPV_NODE::Normalize_Step` on its component; a step of zero is unknown. -/
def normalizeDep (dep : Dep) (step : Int) : Dep :=
  if step = 0 then forgetSign dep
  else if depIsDistance dep then
    if (depDistance dep).tmod step ≠ 0 then forgetSign dep else depSetDistance ((depDistance dep).tdiv step)
  else if step > 0 then dep
  else depNegate dep

/-- `DEPV_NODE::Normalize_Step`, with `is_indep`. -/
def normalizeStepNode (dim : Nat) (step : Int) (node : Depv) : Depv × Bool :=
  (Function.update node dim (normalizeDep (node dim) step), false)

/-- `DEPV_LIST::Normalize_Step`. -/
def normalizeStep (dvDim : Nat) (step : Nat → Int) (l : List Depv) : List Depv :=
  (List.range dvDim).foldl (fun l i =>
    if step i ≠ 1 then
      l.filterMap fun node => if (normalizeStepNode i (step i) node).2 then none else some (normalizeStepNode i (step i) node).1
    else l) l

/-! ## What a list describes -/

/-- The distance vectors of a node. -/
def DescribesVector (dvDim : Nat) (node : Depv) (v : Nat → Int) : Prop := ∀ i < dvDim, Describes (node i) (v i)

/-- The distance vectors of a list. -/
def Described (dvDim : Nat) (l : List Depv) (v : Nat → Int) : Prop := ∃ node ∈ l, DescribesVector dvDim node v

/-- The components are words that the constructors make. -/
def BuiltNode (dvDim : Nat) (node : Depv) : Prop := ∀ i < dvDim, Dep.Built (node i)

variable {dvDim : Nat}

theorem described_append (l l' : List Depv) (v : Nat → Int) :
    Described dvDim (l ++ l') v ↔ Described dvDim l v ∨ Described dvDim l' v := by
  simp only [Described, List.mem_append, or_and_right, exists_or]

theorem described_singleton (node : Depv) (v : Nat → Int) : Described dvDim [node] v ↔ DescribesVector dvDim node v := by
  simp only [Described, List.mem_singleton, exists_eq_left]

theorem described_cons (node : Depv) (l : List Depv) (v : Nat → Int) :
    Described dvDim (node :: l) v ↔ DescribesVector dvDim node v ∨ Described dvDim l v := by
  simp only [Described, List.mem_cons, or_and_right, exists_or, exists_eq_left]

theorem not_described_nil (v : Nat → Int) : ¬ Described dvDim [] v := fun ⟨_, h, _⟩ => List.not_mem_nil h

theorem describesVector_update {i : Nat} (hi : i < dvDim) (node : Depv) (w : Dep) (v : Nat → Int) :
    DescribesVector dvDim (Function.update node i w) v ↔ (∀ j < dvDim, j ≠ i → Describes (node j) (v j)) ∧ Describes w (v i) := by
  constructor
  · intro h
    have hat := h i hi
    rw [Function.update_self] at hat
    refine ⟨fun j hj hji => ?_, hat⟩
    have hj := h j hj
    rwa [Function.update_of_ne hji] at hj
  · rintro ⟨h, hat⟩ j hj
    by_cases hji : j = i
    · rw [hji, Function.update_self]
      exact hat
    · rw [Function.update_of_ne hji]
      exact h j hj hji

theorem describesVector_iff {i : Nat} (hi : i < dvDim) (node : Depv) (v : Nat → Int) :
    DescribesVector dvDim node v ↔ (∀ j < dvDim, j ≠ i → Describes (node j) (v j)) ∧ Describes (node i) (v i) := by
  rw [← describesVector_update hi, Function.update_eq_self]

theorem BuiltNode.update {node : Depv} (h : BuiltNode dvDim node) (i : Nat) {w : Dep} (hw : Dep.Built w) :
    BuiltNode dvDim (Function.update node i w) := by
  intro j hj
  by_cases hji : j = i
  · rw [hji, Function.update_self]
    exact hw
  · rw [Function.update_of_ne hji]
    exact h j hj

/-! ## Components -/

theorem describes_zero (x : Int) : Describes (depSetDistance 0) x ↔ x = 0 := by
  rw [describes_const ⟨by decide, by decide⟩]
  exact eq_comm

theorem describes_direction (dir : Direction) (x : Int) : Describes (depSetDirection dir) x ↔ HasSign dir.bits x := by
  by_cases heq : dir = .eq
  · rw [heq, depSetDirection_eq, describes_zero, hasSign_iff]
  · exact describes_setDirection heq x

theorem hasSign_of_describes {dep : Dep} (h : Dep.Built dep) {x : Int} (hx : Describes dep x) :
    HasSign (depDirection dep) x := by
  rcases h.cases with ⟨c, hc, rfl⟩ | hw
  · rw [describes_const hc] at hx
    rw [← hx, hc.direction]
    exact hasSign_own c
  · exact (describes_open hw x).1 hx

/-- Unless it is `+` or `-`, the direction says all. -/
theorem describes_iff_hasSign {dep : Dep} (h : Dep.Built dep) (hpos : depDirection dep ≠ Direction.pos.bits)
    (hneg : depDirection dep ≠ Direction.neg.bits) (x : Int) : Describes dep x ↔ HasSign (depDirection dep) x := by
  rcases h.cases with ⟨c, hc, rfl⟩ | hw
  · rw [hc.direction] at hpos hneg ⊢
    rcases signOf_cases c with ⟨-, hs⟩ | ⟨-, hs⟩ | ⟨rfl, hs⟩
    · exact absurd (congrArg _ hs) hpos
    · exact absurd (congrArg _ hs) hneg
    · rw [describes_zero, hs, hasSign_iff]
  · exact describes_open hw x

/-- A split direction is the union of its parts. -/
theorem splitDirection_spec (dir : Direction) (x : Int) :
    HasSign dir.bits x ↔ HasSign (splitDirection dir).1.bits x ∨ ∃ part ∈ (splitDirection dir).2, HasSign part.bits x := by
  cases dir <;> simp [splitDirection, hasSign_iff] <;> omega

/-! ## Duplicates -/

theorem depvEqual_iff (p q : Depv) : depvEqual dvDim p q = true ↔ ∀ i < dvDim, p i = q i := by
  simp only [depvEqual, List.all_eq_true, List.mem_range, beq_iff_eq]

theorem mem_removeEqual {node p : Depv} {rest : List Depv} :
    p ∈ removeEqual dvDim node rest ↔ p ∈ rest ∧ ¬ ∀ i < dvDim, node i = p i := by
  simp only [removeEqual, List.mem_filterMap, ← depvEqual_iff]
  constructor
  · rintro ⟨q, hq, hsome⟩
    split_ifs at hsome with heq
    cases hsome
    exact ⟨hq, heq⟩
  · rintro ⟨hp, hne⟩
    exact ⟨p, hp, if_neg hne⟩

theorem mem_of_mem_removeDuplicates {p : Depv} (l : List Depv) (h : p ∈ removeDuplicates dvDim l) : p ∈ l := by
  induction l using removeDuplicates.induct dvDim with
  | case1 =>
    rw [removeDuplicates] at h
    exact h
  | case2 node rest ih =>
    rw [removeDuplicates] at h
    rcases List.mem_cons.1 h with rfl | h
    · exact List.mem_cons_self
    · exact List.mem_cons_of_mem _ (mem_removeEqual.1 (ih h)).1

theorem described_removeDuplicates (l : List Depv) (v : Nat → Int) :
    Described dvDim (removeDuplicates dvDim l) v ↔ Described dvDim l v := by
  constructor
  · rintro ⟨node, hnode, hv⟩
    exact ⟨node, mem_of_mem_removeDuplicates l hnode, hv⟩
  · intro h
    induction l using removeDuplicates.induct dvDim with
    | case1 => exact absurd h (not_described_nil v)
    | case2 node rest ih =>
      rw [removeDuplicates, described_cons]
      rcases (described_cons node rest v).1 h with hv | ⟨p, hp, hv⟩
      · exact Or.inl hv
      · -- a node that goes describes what the one before it does
        by_cases heq : ∀ i < dvDim, node i = p i
        · refine Or.inl fun i hi => ?_
          rw [heq i hi]
          exact hv i hi
        · exact Or.inr (ih ⟨p, mem_removeEqual.2 ⟨hp, heq⟩, hv⟩)

theorem pairwise_removeDuplicates (l : List Depv) :
    (removeDuplicates dvDim l).Pairwise fun p q => ¬ ∀ i < dvDim, p i = q i := by
  induction l using removeDuplicates.induct dvDim with
  | case1 =>
    rw [removeDuplicates]
    exact List.Pairwise.nil
  | case2 node rest ih =>
    rw [removeDuplicates, List.pairwise_cons]
    exact ⟨fun p hp => (mem_removeEqual.1 (mem_of_mem_removeDuplicates _ hp)).2, ih⟩

/-! ## Bad outer loops -/

theorem describesVector_starExcept {i : Nat} (hi : i < dvDim) (dir : Direction) (v : Nat → Int) :
    DescribesVector dvDim (starExcept i dir) v ↔ HasSign dir.bits (v i) := by
  constructor
  · intro h
    have hat := h i hi
    rwa [starExcept, if_pos rfl, describes_direction] at hat
  · intro h j hj
    rw [starExcept, describes_direction]
    split_ifs with hji
    · rwa [hji]
    · rw [hasSign_iff]
      trivial

theorem described_starNodes {k : Nat} (hk : k ≤ dvDim) (l : List Depv) (v : Nat → Int) :
    Described dvDim ((List.range k).foldl (fun l i => l ++ [starExcept i .pos, starExcept i .neg]) l) v ↔
      Described dvDim l v ∨ ∃ i < k, v i ≠ 0 := by
  refine foldl_range (fun m (l' : List Depv) => Described dvDim l' v ↔ Described dvDim l v ∨ ∃ i < m, v i ≠ 0) (by simp) ?_
  intro m l' hm hl'
  rw [described_append, hl', described_cons, described_singleton, describesVector_starExcept (by omega),
    describesVector_starExcept (by omega), hasSign_iff, hasSign_iff, Nat.exists_lt_succ_right, or_assoc, lt_or_lt_iff_ne,
    ne_comm]

theorem described_appendBadOuter {k : Nat} (hk : k ≤ dvDim) (l : List Depv) (depv : Option Depv) (v : Nat → Int) :
    Described dvDim (appendBadOuter l depv k) v ↔ Described dvDim l v ∨ (∃ i < k, v i ≠ 0) ∨
      (∀ i < k, v i = 0) ∧ ∃ p, depv = some p ∧ DescribesVector (dvDim - k) p fun j => v (k + j) := by
  unfold appendBadOuter
  split_ifs with hzero
  · subst hzero
    rw [described_append]
    refine or_congr_right ?_
    cases depv with
    | none => simp [not_described_nil]
    | some p => simp [described_singleton]
  · rw [described_append, described_starNodes hk, or_assoc]
    refine or_congr_right (or_congr_right ?_)
    cases depv with
    | none => simp [not_described_nil]
    | some p =>
      have hnode : DescribesVector dvDim (fun j => if j < k then depSetDirection .eq else p (j - k)) v ↔
          (∀ i < k, v i = 0) ∧ DescribesVector (dvDim - k) p fun j => v (k + j) := by
        constructor
        · intro h
          refine ⟨fun i hi => ?_, fun j hj => ?_⟩
          · have hat := h i (by omega)
            dsimp only at hat
            rwa [if_pos hi, describes_direction, hasSign_iff] at hat
          · have hat := h (k + j) (by omega)
            dsimp only at hat
            rwa [if_neg (by omega), Nat.add_sub_cancel_left] at hat
        · rintro ⟨hbad, hinner⟩ j hj
          dsimp only
          by_cases hjk : j < k
          · rw [if_pos hjk, describes_direction, hasSign_iff]
            exact hbad j hjk
          · have hat := hinner (j - k) (by omega)
            dsimp only at hat
            rw [if_neg hjk]
            rwa [show k + (j - k) = j by omega] at hat
      show Described dvDim [_] v ↔ _
      rw [described_singleton, hnode]
      simp

/-! ## Unlinked nodes -/

/-- A walk that unlinks some nodes and narrows others: it loses no more than `Lost`. -/
theorem described_filterMap {l : List Depv} {body : Depv → Option Depv} {Lost : (Nat → Int) → Prop}
    (hkept : ∀ node ∈ l, ∀ node', body node = some node' → ∀ v, DescribesVector dvDim node' v → DescribesVector dvDim node v)
    (hlost : ∀ node ∈ l, ∀ v, DescribesVector dvDim node v →
      (∃ node', body node = some node' ∧ DescribesVector dvDim node' v) ∨ Lost v) (v : Nat → Int) :
    (Described dvDim (l.filterMap body) v → Described dvDim l v) ∧
      (Described dvDim l v → Described dvDim (l.filterMap body) v ∨ Lost v) := by
  constructor
  · rintro ⟨node', hnode', hv⟩
    obtain ⟨node, hnode, hbody⟩ := List.mem_filterMap.1 hnode'
    exact ⟨node, hnode, hkept node hnode node' hbody v hv⟩
  · rintro ⟨node, hnode, hv⟩
    refine (hlost node hnode v hv).imp_left ?_
    rintro ⟨node', hbody, hv'⟩
    exact ⟨node', List.mem_filterMap.2 ⟨node, hnode, hbody⟩, hv'⟩

theorem equalBefore_iff (node : Depv) (i : Nat) :
    equalBefore node i = true ↔ ∀ j < i, depDirection (node j) = Direction.eq.bits := by
  simp only [equalBefore, List.all_eq_true, List.mem_range, beq_iff_eq]

theorem zero_of_equalBefore {node : Depv} (hbuilt : BuiltNode dvDim node) {i : Nat} (hi : i ≤ dvDim)
    (h : equalBefore node i = true) {v : Nat → Int} (hv : DescribesVector dvDim node v) : ∀ j < i, v j = 0 := by
  intro j hj
  have hsign := hasSign_of_describes (hbuilt j (by omega)) (hv j (by omega))
  rwa [(equalBefore_iff node i).1 h j hj, hasSign_iff] at hsign

theorem described_eliminateInnerCarried {l : List Depv} (hbuilt : ∀ node ∈ l, BuiltNode dvDim node) (hdim : 0 < dvDim)
    (v : Nat → Int) : (Described dvDim (eliminateInnerCarried dvDim l) v → Described dvDim l v) ∧
      (Described dvDim l v → Described dvDim (eliminateInnerCarried dvDim l) v ∨
        (∀ j < dvDim - 1, v j = 0) ∧ v (dvDim - 1) ≠ 0) := by
  have hlast : dvDim - 1 < dvDim := by omega
  refine @described_filterMap dvDim l _ (fun v => (∀ j < dvDim - 1, v j = 0) ∧ v (dvDim - 1) ≠ 0)
    (fun node hnode node' hbody v hv => ?_) (fun node hnode v hv => ?_) v
  · split_ifs at hbody with heq hcarried
    · -- the last direction has `=`, and is narrowed to it
      cases hbody
      obtain ⟨hrest, hzero⟩ := (describesVector_update hlast node _ v).1 hv
      refine (describesVector_iff hlast node v).2 ⟨hrest, ?_⟩
      have hword := hbuilt node hnode _ hlast
      obtain ⟨dir, hdir⟩ := hword.direction
      rw [not_or, not_or, hdir] at hcarried
      rw [describes_iff_hasSign hword (hdir ▸ hcarried.1) (hdir ▸ hcarried.2.1), hdir, hasSign_iff, (describes_zero _).1 hzero]
      cases dir <;> simp at hcarried ⊢
    · cases hbody
      exact hv
  · split_ifs with heq hcarried
    · refine Or.inr ⟨zero_of_equalBefore (hbuilt node hnode) (by omega) heq hv, ?_⟩
      have hsign := hasSign_of_describes (hbuilt node hnode _ hlast) (hv _ hlast)
      rcases hcarried with hdir | hdir | hdir <;> rw [hdir, hasSign_iff] at hsign
      · exact hsign.ne'
      · exact hsign.ne
      · exact hsign
    · by_cases hzero : v (dvDim - 1) = 0
      · refine Or.inl ⟨_, rfl, (describesVector_update hlast node _ v).2 ⟨((describesVector_iff hlast node v).1 hv).1, ?_⟩⟩
        rw [describes_zero]
        exact hzero
      · exact Or.inr ⟨zero_of_equalBefore (hbuilt node hnode) (by omega) heq hv, hzero⟩
    · exact Or.inl ⟨node, rfl, hv⟩

/-! ## Compound components -/

/-- What the expansion of a node keeps before its component `m`: nothing is lost, and what is done stays done. -/
structure Expanded (dvDim : Nat) (node : Depv) (m : Nat) (s : Depv × List Depv) : Prop where
  built : ∀ p ∈ s.1 :: s.2, BuiltNode dvDim p
  simple : ∀ j < m, ¬ Compound (s.1 j)
  same : ∀ v, Described dvDim (s.1 :: s.2) v ↔ DescribesVector dvDim node v

theorem Expanded.step {node : Depv} {m : Nat} {s : Depv × List Depv} (h : Expanded dvDim node m s) (hm : m < dvDim) :
    Expanded dvDim node (m + 1) (expandAt s m) := by
  rcases expandAt_cases s m with ⟨hsimple, heq⟩ | ⟨dir, hbits, hcompound, hdir, heq⟩
  · rw [heq]
    refine ⟨h.built, fun j hj => ?_, h.same⟩
    rcases Nat.lt_succ_iff_lt_or_eq.1 hj with hj | rfl
    · exact h.simple j hj
    · exact hsimple
  · have hbuilt := List.forall_mem_cons.1 h.built
    have hparts := (splitDirection_parts hdir).1
    have hword : ∀ x, Describes (s.1 m) x ↔ HasSign dir.bits x := by
      intro x
      rw [describes_iff_hasSign (hbuilt.1 m hm), hbits]
      · rw [hbits]
        rcases hdir with rfl | rfl | rfl | rfl <;> decide
      · rw [hbits]
        rcases hdir with rfl | rfl | rfl | rfl <;> decide
    rw [heq]
    refine ⟨fun p hp => ?_, fun j hj => ?_, fun v => ?_⟩
    · rcases List.mem_cons.1 hp with rfl | hp
      · exact hbuilt.1.update m (.setDirection _)
      · rcases List.mem_append.1 hp with hp | hp
        · exact hbuilt.2 p hp
        · obtain ⟨part, -, rfl⟩ := List.mem_map.1 hp
          exact hbuilt.1.update m (.setDirection _)
    · by_cases hjm : j = m
      · dsimp only
        rw [hjm, Function.update_self]
        exact not_compound_setDirection (hparts _ List.mem_cons_self)
      · dsimp only
        rw [Function.update_of_ne hjm]
        exact h.simple j (by omega)
    · -- the parts at `m` make up what was described there
      have hsplit : Described dvDim ((splitDirection dir).2.map fun part => Function.update s.1 m (depSetDirection part)) v ↔
          (∀ j < dvDim, j ≠ m → Describes (s.1 j) (v j)) ∧ ∃ part ∈ (splitDirection dir).2, HasSign part.bits (v m) := by
        simp only [Described, List.mem_map, exists_exists_and_eq_and, describesVector_update hm, describes_direction]
        constructor
        · rintro ⟨part, hpart, hrest, hsign⟩
          exact ⟨hrest, part, hpart, hsign⟩
        · rintro ⟨hrest, part, hpart, hsign⟩
          exact ⟨part, hpart, hrest, hsign⟩
      rw [← h.same v, described_cons, described_append, described_cons, hsplit, describesVector_update hm,
        describes_direction, describesVector_iff hm, hword, splitDirection_spec dir (v m), and_or_left]
      constructor
      · rintro (h1 | h2 | h3)
        exacts [Or.inl (Or.inl h1), Or.inr h2, Or.inl (Or.inr h3)]
      · rintro ((h1 | h3) | h2)
        exacts [Or.inl h1, Or.inr (Or.inr h3), Or.inr (Or.inl h2)]

theorem expandNode_spec {i : Nat} (hi : i < dvDim) {node : Depv} (hbuilt : BuiltNode dvDim node) :
    Expanded dvDim node (i + 1) (expandNode i node) := by
  refine foldl_range (fun m s => Expanded dvDim node m s) ?_ fun m s hm hs => hs.step (by omega)
  refine ⟨fun p hp => ?_, fun j hj => absurd hj (Nat.not_lt_zero j), described_singleton node⟩
  rwa [List.mem_singleton.1 hp]

/-- The whole loop: nothing is lost, and no compound component up to `i` is left. -/
theorem expandLoop_spec {i : Nat} (hi : i < dvDim) (l : List Depv) (hbuilt : ∀ node ∈ l, BuiltNode dvDim node) :
    (∀ p ∈ expandLoop i l, BuiltNode dvDim p ∧ ∀ j < i + 1, ¬ Compound (p j)) ∧
      ∀ v, Described dvDim (expandLoop i l) v ↔ Described dvDim l v := by
  induction l using expandLoop.induct i with
  | case1 =>
    rw [expandLoop]
    exact ⟨fun p hp => absurd hp List.not_mem_nil, fun v => Iff.rfl⟩
  | case2 node rest ih =>
    rw [List.forall_mem_cons] at hbuilt
    have hnode := expandNode_spec hi hbuilt.1
    have hnew := List.forall_mem_cons.1 hnode.built
    obtain ⟨hall, hsame⟩ := ih fun p hp => (List.mem_append.1 hp).elim (hbuilt.2 p) (hnew.2 p)
    rw [expandLoop]
    refine ⟨List.forall_mem_cons.2 ⟨⟨hnew.1, hnode.simple⟩, hall⟩, fun v => ?_⟩
    rw [described_cons, hsame, described_append, described_cons, ← hnode.same v, described_cons]
    constructor
    · rintro (h1 | h2 | h3)
      exacts [Or.inl (Or.inl h1), Or.inr h2, Or.inl (Or.inr h3)]
    · rintro ((h1 | h3) | h2)
      exacts [Or.inl h1, Or.inr (Or.inr h3), Or.inr (Or.inl h2)]

theorem ne_zero_of_not_compound {dep : Dep} (h : Dep.Built dep) (hsimple : ¬ Compound dep)
    (hne : depDirection dep ≠ Direction.eq.bits) {x : Int} (hx : Describes dep x) : x ≠ 0 := by
  have hsign := hasSign_of_describes h hx
  obtain ⟨dir, hdir⟩ := h.direction
  unfold Compound at hsimple
  rw [hdir] at hsign hsimple hne
  rw [hasSign_iff] at hsign
  cases dir with
  | pos => exact ne_of_gt hsign
  | neg => exact ne_of_lt hsign
  | eq => exact absurd rfl hne
  | poseq => exact absurd (Or.inl rfl) hsimple
  | negeq => exact absurd (Or.inr (Or.inl rfl)) hsimple
  | posneg => exact hsign
  | star => exact absurd (Or.inr (Or.inr (Or.inr rfl))) hsimple

theorem described_eliminateNonDistance {l : List Depv} (hbuilt : ∀ node ∈ l, BuiltNode dvDim node) {i : Nat} (hi : i < dvDim)
    (v : Nat → Int) : (Described dvDim (eliminateNonDistanceCarriedBy i l) v → Described dvDim l v) ∧
      (Described dvDim l v → Described dvDim (eliminateNonDistanceCarriedBy i l) v ∨ (∀ j < i, v j = 0) ∧ v i ≠ 0) := by
  obtain ⟨hall, hsame⟩ := expandLoop_spec hi l hbuilt
  rw [← hsame v]
  refine @described_filterMap dvDim _ _ (fun v => (∀ j < i, v j = 0) ∧ v i ≠ 0)
    (fun node hnode node' hbody v hv => ?_) (fun node hnode v hv => ?_) v
  · split_ifs at hbody
    cases hbody
    exact hv
  · obtain ⟨hnodeBuilt, hsimple⟩ := hall node hnode
    split_ifs with hgone
    · exact Or.inr ⟨zero_of_equalBefore hnodeBuilt (by omega) hgone.1 hv,
        ne_zero_of_not_compound (hnodeBuilt i hi) (hsimple i (Nat.lt_succ_self i)) hgone.2.2 (hv i hi)⟩
    · exact Or.inl ⟨node, rfl, hv⟩

/-! ## The blockable part -/

/-- The `k` components from `a` on are not negative. -/
def NonNegFrom (a k : Nat) (v : Nat → Int) : Prop := ∀ i, a ≤ i → i < a + k → 0 ≤ v i

theorem nonNegFrom_succ (a k : Nat) (v : Nat → Int) : NonNegFrom a (k + 1) v ↔ 0 ≤ v a ∧ NonNegFrom (a + 1) k v := by
  constructor
  · exact fun h => ⟨h a le_rfl (by omega), fun i hi hlt => h i (by omega) (by omega)⟩
  · rintro ⟨hat, hrest⟩ i hi hlt
    rcases Nat.eq_or_lt_of_le hi with rfl | hi
    · exact hat
    · exact hrest i hi (by omega)

/-- A call appends what the vector describes without negative components, and leaves the vector. -/
def Blocks (dvDim a k : Nat) (s s' : Blocking) : Prop :=
  ∃ new, s' = ⟨s.depv, s.block ++ new⟩ ∧ ∀ v, Described dvDim new v ↔ DescribesVector dvDim s.depv v ∧ NonNegFrom a k v

theorem blockablePart_spec (numUnusedDim : Nat) (k : Nat) : ∀ (startDepth : Nat) (s : Blocking), BuiltNode dvDim s.depv →
    numUnusedDim ≤ startDepth → (0 < k → startDepth + k ≤ numUnusedDim + dvDim) →
    Blocks dvDim (startDepth - numUnusedDim) k s (blockablePart numUnusedDim k startDepth s) := by
  induction k with
  | zero =>
    intro startDepth s _ _ _
    refine ⟨[s.depv], rfl, fun v => ?_⟩
    rw [described_singleton]
    exact ⟨fun h => ⟨h, fun i hi hlt => absurd hlt (by omega)⟩, fun h => h.1⟩
  | succ k ih =>
    intro startDepth s hbuilt hunused hdim
    have hdim := hdim (Nat.succ_pos k)
    obtain ⟨a, ha⟩ : ∃ a, a = startDepth - numUnusedDim := ⟨_, rfl⟩
    have hat : a < dvDim := by omega
    have hword := hbuilt a hat
    -- the recursive calls, with direction `dir` in component `a`
    have hnext : ∀ s₁ : Blocking, BuiltNode dvDim s₁.depv → ∃ new, blockablePart numUnusedDim k (startDepth + 1) s₁ =
        ⟨s₁.depv, s₁.block ++ new⟩ ∧ ∀ v, Described dvDim new v ↔ DescribesVector dvDim s₁.depv v ∧ NonNegFrom (a + 1) k v := by
      intro s₁ hs₁
      have hrec := ih (startDepth + 1) s₁ hs₁ (by omega) (by omega)
      rwa [show startDepth + 1 - numUnusedDim = a + 1 by omega] at hrec
    have hset : ∀ dir, BuiltNode dvDim (s.set a (depSetDirection dir)).depv := fun dir => hbuilt.update a (.setDirection dir)
    have hrestore : ∀ (w : Dep) (block : List Depv),
        (⟨Function.update s.depv a w, block⟩ : Blocking).set a (s.depv a) = ⟨s.depv, block⟩ := by
      intro w block
      rw [Blocking.set, Function.update_idem, Function.update_eq_self]
    obtain ⟨dir, hdir⟩ := hword.direction
    have hsign : ∀ v, DescribesVector dvDim s.depv v → HasSign dir.bits (v a) :=
      fun v hv => hdir ▸ hasSign_of_describes hword (hv a hat)
    have hdescribes : dir ≠ .pos → dir ≠ .neg → ∀ v, DescribesVector dvDim s.depv v ↔
        (∀ j < dvDim, j ≠ a → Describes (s.depv j) (v j)) ∧ HasSign dir.bits (v a) := by
      intro hpos hneg v
      rw [describesVector_iff hat, describes_iff_hasSign hword, hdir]
      · rw [hdir]
        cases dir <;> first | decide | exact absurd rfl hpos
      · rw [hdir]
        cases dir <;> first | decide | exact absurd rfl hneg
    rw [Blocks, ← ha, blockablePart]
    rw [← ha, hdir]
    -- one recursive call, on the vector itself or with a part of its direction
    have hkeep : (∀ v, DescribesVector dvDim s.depv v → 0 ≤ v a) → ∃ new,
        (blockablePart numUnusedDim k (startDepth + 1) s).set a (s.depv a) = ⟨s.depv, s.block ++ new⟩ ∧
          ∀ v, Described dvDim new v ↔ DescribesVector dvDim s.depv v ∧ NonNegFrom a (k + 1) v := by
      intro hnonneg
      obtain ⟨new, hrun, hnew⟩ := hnext s hbuilt
      refine ⟨new, ?_, fun v => ?_⟩
      · rw [hrun, Blocking.set, Function.update_eq_self]
      · rw [hnew, nonNegFrom_succ, ← and_assoc]
        exact and_congr_left fun _ => ⟨fun hv => ⟨hv, hnonneg v hv⟩, fun hv => hv.1⟩
    have hnarrow : ∀ part : Direction, dir ≠ .pos → dir ≠ .neg →
        (∀ x : Int, HasSign part.bits x ↔ HasSign dir.bits x ∧ 0 ≤ x) → ∃ new,
        (blockablePart numUnusedDim k (startDepth + 1) (s.set a (depSetDirection part))).set a (s.depv a) =
          ⟨s.depv, s.block ++ new⟩ ∧
          ∀ v, Described dvDim new v ↔ DescribesVector dvDim s.depv v ∧ NonNegFrom a (k + 1) v := by
      intro part hpos hneg hpart
      obtain ⟨new, hrun, hnew⟩ := hnext _ (hset part)
      refine ⟨new, ?_, fun v => ?_⟩
      · rw [hrun]
        exact hrestore _ _
      · rw [hnew, nonNegFrom_succ, Blocking.set, describesVector_update hat, describes_direction, hpart, hdescribes hpos hneg,
          ← and_assoc, ← and_assoc]
    cases dir with
    | pos =>
      rw [if_pos (Or.inl rfl)]
      exact hkeep fun v hv => ((hasSign_iff _ _).1 (hsign v hv)).le
    | poseq =>
      rw [if_pos (Or.inr (Or.inl rfl))]
      exact hkeep fun v hv => (hasSign_iff _ _).1 (hsign v hv)
    | eq =>
      rw [if_pos (Or.inr (Or.inr rfl))]
      exact hkeep fun v hv => ((hasSign_iff _ _).1 (hsign v hv)).ge
    | posneg =>
      rw [if_neg (by decide), if_pos rfl]
      refine hnarrow .pos nofun nofun fun x => ?_
      rw [hasSign_iff, hasSign_iff]
      dsimp only
      omega
    | negeq =>
      rw [if_neg (by decide), if_neg (by decide), if_pos rfl]
      refine hnarrow .eq nofun nofun fun x => ?_
      rw [hasSign_iff, hasSign_iff]
      dsimp only
      omega
    | star =>
      rw [if_neg (by decide), if_neg (by decide), if_neg (by decide), if_pos rfl]
      -- two calls: `+`, and then `=`
      obtain ⟨new₁, hrun₁, hnew₁⟩ := hnext _ (hset .pos)
      have hagain : (⟨(s.set a (depSetDirection .pos)).depv, (s.set a (depSetDirection .pos)).block ++ new₁⟩ : Blocking).set a
          (depSetDirection .eq) = ⟨Function.update s.depv a (depSetDirection .eq), s.block ++ new₁⟩ := by
        rw [Blocking.set, Blocking.set, Function.update_idem]
      obtain ⟨new₂, hrun₂, hnew₂⟩ := hnext ⟨Function.update s.depv a (depSetDirection .eq), s.block ++ new₁⟩ (hset .eq)
      refine ⟨new₁ ++ new₂, ?_, fun v => ?_⟩
      · rw [hrun₁, hagain, hrun₂, hrestore, List.append_assoc]
      · rw [described_append, hnew₁, hnew₂, nonNegFrom_succ, Blocking.set, describesVector_update hat,
          describesVector_update hat, describes_direction, describes_direction, hdescribes nofun nofun, hasSign_iff, hasSign_iff,
          hasSign_iff]
        dsimp only
        constructor
        · rintro (⟨⟨hrest, hx⟩, hnon⟩ | ⟨⟨hrest, hx⟩, hnon⟩)
          · exact ⟨⟨hrest, trivial⟩, hx.le, hnon⟩
          · exact ⟨⟨hrest, trivial⟩, hx.ge, hnon⟩
        · rintro ⟨⟨hrest, -⟩, hx, hnon⟩
          rcases hx.lt_or_eq with hx | hx
          · exact Or.inl ⟨⟨hrest, hx⟩, hnon⟩
          · exact Or.inr ⟨⟨hrest, hx.symm⟩, hnon⟩
    | neg =>
      rw [if_neg (by decide), if_neg (by decide), if_neg (by decide), if_neg (by decide)]
      refine ⟨[], ?_, fun v => iff_of_false (not_described_nil v) ?_⟩
      · rw [Blocking.set, Function.update_eq_self, List.append_nil]
      · rintro ⟨hv, hnon⟩
        have hx := (hasSign_iff _ _).1 (hsign v hv)
        exact absurd ((nonNegFrom_succ _ _ _).1 hnon).1 (not_le.2 hx)

theorem blockablePartList_spec {numUnusedDim startDepth stopDepth : Nat} (hunused : numUnusedDim ≤ startDepth)
    (hstop : stopDepth < numUnusedDim + dvDim) (l : List Depv)
    (hbuilt : ∀ node ∈ l, BuiltNode dvDim node) (block : List Depv) :
    ∃ new, blockablePartList numUnusedDim startDepth stopDepth l block = (l, block ++ new) ∧ ∀ v, Described dvDim new v ↔
      Described dvDim l v ∧ NonNegFrom (startDepth - numUnusedDim) (stopDepth + 1 - startDepth) v := by
  induction l generalizing block with
  | nil => exact ⟨[], by rw [blockablePartList, List.append_nil], fun v => by simp [not_described_nil]⟩
  | cons node rest ih =>
    rw [List.forall_mem_cons] at hbuilt
    obtain ⟨new₁, hrun₁, hnew₁⟩ := blockablePart_spec numUnusedDim (stopDepth + 1 - startDepth) startDepth ⟨node, block⟩
      hbuilt.1 hunused (by omega)
    obtain ⟨new₂, hrun₂, hnew₂⟩ := ih hbuilt.2 (block ++ new₁)
    refine ⟨new₁ ++ new₂, ?_, fun v => ?_⟩
    · rw [blockablePartList, hrun₁, hrun₂, List.append_assoc]
    · rw [described_append, hnew₁, hnew₂, described_cons, or_and_right]

/-! ## Steps -/

/-- `y` is `x` counted in steps; a step of zero stands for any step. -/
def Scaled (step x y : Int) : Prop := if step = 0 then ∃ s : Int, s ≠ 0 ∧ x = s * y else x = step * y

theorem Scaled.eq_zero_iff {step x y : Int} (h : Scaled step x y) : x = 0 ↔ y = 0 := by
  unfold Scaled at h
  split_ifs at h with hstep
  · obtain ⟨s, hs, rfl⟩ := h
    rw [mul_eq_zero, or_iff_right hs]
  · rw [h, mul_eq_zero, or_iff_right hstep]

theorem describes_forgetSign {dep : Dep} (h : Dep.Built dep) {x y : Int} (hx : Describes dep x) (hxy : x = 0 ↔ y = 0) :
    Describes (forgetSign dep) y := by
  have hsign := hasSign_of_describes h hx
  obtain ⟨dir, hdir⟩ := h.direction
  rw [forgetSign]
  split_ifs with hne hstar
  · rw [describes_direction, hasSign_iff]
    refine mt hxy.2 ?_
    rcases hne with hne | hne | hne <;> rw [hne, hasSign_iff] at hsign
    exacts [hsign.ne', hsign.ne, hsign]
  · rw [describes_direction, hasSign_iff]
    trivial
  · -- the direction is `=`
    have heq : dir = .eq := by
      rw [not_or, not_or, hdir] at hne hstar
      cases dir <;> simp at hne hstar ⊢
    subst heq
    rw [describes_iff_hasSign h (by rw [hdir]; decide) (by rw [hdir]; decide), hdir, hasSign_iff] at hx ⊢
    exact hxy.1 hx

theorem describes_normalizeDep {dep : Dep} (h : Dep.Built dep) {step x y : Int} (hx : Describes dep x) (hxy : Scaled step x y) :
    Describes (normalizeDep dep step) y := by
  rw [normalizeDep]
  split_ifs with hzero hdist hrem hpos
  · exact describes_forgetSign h hx hxy.eq_zero_iff
  · exact describes_forgetSign h hx hxy.eq_zero_iff
  · -- the quotient is in range, or it is 2048 and saturates to the right direction
    rw [Scaled, if_neg hzero] at hxy
    rcases h.cases with ⟨c, hc, rfl⟩ | hw
    · rw [describes_const hc] at hx
      rw [hc.distance, hx, hxy, Int.mul_tdiv_cancel_left _ hzero, describes_setDistance_iff]
      have hmin := hc.min
      have hmax := hc.max
      have hle := Int.natAbs_le_of_dvd_ne_zero (Dvd.intro_left step (hx.trans hxy).symm)
      unfold minDistance at hmin ⊢
      unfold maxDistance at hmax
      by_cases hc0 : c = 0
      · have hy := (mul_eq_zero.1 (hxy.symm.trans (hx.symm.trans hc0))).resolve_left hzero
        omega
      · have := hle hc0
        omega
    · have hflag : depIsDistance dep = false := by
        rcases mem_openWords hw with rfl | rfl | rfl | rfl | rfl | rfl | rfl <;> rfl
      exact absurd (hflag.symm.trans hdist) Bool.false_ne_true
  all_goals
    rw [Scaled, if_neg hzero] at hxy
    rcases h.cases with ⟨c, hc, rfl⟩ | hw
    · exact absurd hc.isDistance hdist
  · rw [describes_open hw] at hx ⊢
    refine hasSign_congr hx ?_
    rcases lt_trichotomy y 0 with hy | rfl | hy
    · rw [hxy, signOf_of_neg hy, signOf_of_neg (mul_neg_of_pos_of_neg hpos hy)]
    · rw [hxy, mul_zero]
    · rw [hxy, signOf_pos hy, signOf_pos (mul_pos hpos hy)]
  · have hneg := describes_negate h hx
    rw [describes_open (depNegate_open dep hw)] at hneg ⊢
    have hstep : step < 0 := by omega
    refine hasSign_congr hneg ?_
    rcases lt_trichotomy y 0 with hy | rfl | hy
    · rw [hxy, signOf_of_neg hy, signOf_of_neg (neg_neg_of_pos (mul_pos_of_neg_of_neg hstep hy))]
    · rw [hxy, mul_zero, neg_zero]
    · rw [hxy, signOf_pos hy, signOf_pos (neg_pos.2 (mul_neg_of_neg_of_pos hstep hy))]

theorem scaled_one {x y : Int} (h : Scaled 1 x y) : x = y := by
  rw [Scaled, if_neg one_ne_zero, one_mul] at h
  exact h

theorem described_normalizeStep {l : List Depv} (hbuilt : ∀ node ∈ l, BuiltNode dvDim node) {step v u : Nat → Int}
    (hv : Described dvDim l v) (hscaled : ∀ d < dvDim, Scaled (step d) (v d) (u d)) :
    Described dvDim (normalizeStep dvDim step l) u := by
  obtain ⟨node, hnode, hnodev⟩ := hv
  -- the node, with the components done so far in steps
  have hrun := @foldl_range (List Depv) (fun l i => if step i ≠ 1 then
      l.filterMap fun node => if (normalizeStepNode i (step i) node).2 then none else some (normalizeStepNode i (step i) node).1
    else l) dvDim l (fun m l' => ∃ p ∈ l', (∀ d < m, Describes (p d) (u d)) ∧ ∀ d, m ≤ d → p d = node d)
    ⟨node, hnode, fun d hd => absurd hd (Nat.not_lt_zero d), fun _ _ => rfl⟩ ?_
  · obtain ⟨p, hp, hdone, -⟩ := hrun
    exact ⟨p, hp, hdone⟩
  · rintro m l' hm ⟨p, hp, hdone, hrest⟩
    have hat : Describes (p m) (v m) := by
      rw [hrest m le_rfl]
      exact hnodev m hm
    split_ifs with hstep
    · refine ⟨Function.update p m (normalizeDep (p m) (step m)), List.mem_filterMap.2 ⟨p, hp, rfl⟩, fun d hd => ?_, fun d hd => ?_⟩
      · rcases Nat.lt_succ_iff_lt_or_eq.1 hd with hd | rfl
        · rw [Function.update_of_ne (by omega)]
          exact hdone d hd
        · rw [Function.update_self]
          refine describes_normalizeDep ?_ hat (hscaled d hm)
          rw [hrest d le_rfl]
          exact hbuilt node hnode d hm
      · rw [Function.update_of_ne (by omega)]
        exact hrest d (by omega)
    · refine ⟨p, hp, fun d hd => ?_, fun d hd => hrest d (by omega)⟩
      rcases Nat.lt_succ_iff_lt_or_eq.1 hd with hd | rfl
      · exact hdone d hd
      · have hsame := hscaled d hm
        rw [not_not.1 hstep] at hsame
        rwa [← scaled_one hsame]

/-! ## All operations -/

/-- What the operations do to the vectors that a list describes. -/
structure ListsExact (dvDim : Nat) (l : List Depv) : Prop where
  append : ∀ (depv : Option Depv) (k : Nat), k ≤ dvDim → ∀ v, Described dvDim (appendBadOuter l depv k) v ↔
    Described dvDim l v ∨ (∃ i < k, v i ≠ 0) ∨
      (∀ i < k, v i = 0) ∧ ∃ p, depv = some p ∧ DescribesVector (dvDim - k) p fun j => v (k + j)
  removeDuplicates : (∀ v, Described dvDim (removeDuplicates dvDim l) v ↔ Described dvDim l v) ∧
    (removeDuplicates dvDim l).Pairwise fun p q => ¬ ∀ i < dvDim, p i = q i
  eliminateInnerCarried : 0 < dvDim → ∀ v, (Described dvDim (eliminateInnerCarried dvDim l) v → Described dvDim l v) ∧
    (Described dvDim l v → Described dvDim (eliminateInnerCarried dvDim l) v ∨
      (∀ j < dvDim - 1, v j = 0) ∧ v (dvDim - 1) ≠ 0)
  eliminateNonDistanceCarriedBy : ∀ i < dvDim, ∀ v,
    (Described dvDim (eliminateNonDistanceCarriedBy i l) v → Described dvDim l v) ∧
    (Described dvDim l v → Described dvDim (eliminateNonDistanceCarriedBy i l) v ∨ (∀ j < i, v j = 0) ∧ v i ≠ 0)
  blockablePart : ∀ (numUnusedDim startDepth stopDepth : Nat) (block : List Depv), numUnusedDim ≤ startDepth →
    stopDepth < numUnusedDim + dvDim → ∃ new,
      blockablePartList numUnusedDim startDepth stopDepth l block = (l, block ++ new) ∧ ∀ v, Described dvDim new v ↔
        Described dvDim l v ∧ NonNegFrom (startDepth - numUnusedDim) (stopDepth + 1 - startDepth) v
  normalizeStep : ∀ step v u : Nat → Int, Described dvDim l v → (∀ d < dvDim, Scaled (step d) (v d) (u d)) →
    Described dvDim (normalizeStep dvDim step l) u

/-- Splitting and filtering is exact on every list of built words. -/
theorem lists_exact (dvDim : Nat) (l : List Depv) (hbuilt : ∀ node ∈ l, BuiltNode dvDim node) : ListsExact dvDim l where
  append depv _ hk v := described_appendBadOuter hk l depv v
  removeDuplicates := ⟨described_removeDuplicates l, pairwise_removeDuplicates l⟩
  eliminateInnerCarried hdim v := described_eliminateInnerCarried hbuilt hdim v
  eliminateNonDistanceCarriedBy _ hi v := described_eliminateNonDistance hbuilt hi v
  blockablePart _ _ _ block hunused hstop := blockablePartList_spec hunused hstop l hbuilt block
  normalizeStep _ _ _ hv hscaled := described_normalizeStep hbuilt hv hscaled

/-- `(*, 3)` and `(-=, +-)`. -/
theorem lists_exact_pair : ListsExact 2 [Function.update (fun _ => depSetDirection .star) 1 (depSetDistance 3),
    Function.update (fun _ => depSetDirection .negeq) 1 (depSetDirection .posneg)] := by
  refine lists_exact 2 _ fun node hnode => ?_
  rcases List.mem_cons.1 hnode with rfl | hnode
  · exact BuiltNode.update (fun i _ => .setDirection .star) 1 (.setDistance 3)
  · rw [List.mem_singleton.1 hnode]
    exact BuiltNode.update (fun i _ => .setDirection .negeq) 1 (.setDirection .posneg)

end Path64.Dep

import Path64.Dep.Lists

/-!
# From lists to arrays of dependence vectors

`Create_DEPV_ARRAY` (`dep.cxx`) copies a list into an array, whose count has 8 bits; a longer list is first collapsed to one vector,
which is appended behind the unused dimensions and, if the list was positive, cut down to its positive part. `Union` and
`Shorten_To_Dep` collapse an array.

* `createDepvArray`, `unionArray`, `shortenToDep` : the source;
* `SignWord` : words that describe all distances with a sign of theirs, as unions are;
* `isLexpos_iff`, `length_lexPosDecompose_le` : what the collapsed list keeps, and that it is short enough;
* `Keeps` : nothing described is lost and positive lists stay positive; `createDepvArray_keeps_iff` : when it holds.
-/

namespace Path64.Dep

open Dvector Lib

/-! ## The source -/

/-- `DEPV_LIST`. -/
structure VectorList where
  dvDim : Nat
  numUnusedDim : Nat
  nodes : List Depv

/-- What stops the function: a failed assertion, or a write behind the end of a vector or an array. -/
inductive ArrayFault where
  | assertion
  | overrun
deriving DecidableEq, Repr

/-- `Len`, counted in an `mINT16` and stored in a `UINT`. -/
def listLen (nodes : List Depv) : Nat := ((nodes.length : Int).bmod (2 ^ 16) % 2 ^ 32).toNat

/-- `DEP_Direction`, as a `DIRECTION`. -/
def directionOf (dep : Dep) : Direction :=
  if depDirection dep = Direction.pos.bits then .pos
  else if depDirection dep = Direction.neg.bits then .neg
  else if depDirection dep = Direction.posneg.bits then .posneg
  else if depDirection dep = Direction.eq.bits then .eq
  else if depDirection dep = Direction.poseq.bits then .poseq
  else if depDirection dep = Direction.negeq.bits then .negeq
  else .star

/-- `Is_Lexpos` of a vector, with `k` dimensions left from `i` on. -/
def isLexposFrom (depv : Depv) : Nat → Nat → Bool
  | 0, _ => true
  | k + 1, i =>
    match directionOf (depv i) with
    | .eq | .poseq => isLexposFrom depv k (i + 1)
    | .pos => true
    | .neg | .negeq | .posneg | .star => false

/-- `DEPV_LIST::Is_Lexpos`. -/
def isLexpos (dvDim : Nat) (nodes : List Depv) : Bool := nodes.all fun node => isLexposFrom node dvDim 0

/-- The directions that have `=`. -/
def hasEqual (dir : Direction) : Bool := dir == .eq || dir == .poseq || dir == .negeq || dir == .star

/-- `DEPV_LIST::Contains_All_Equals`. -/
def containsAllEquals (dvDim : Nat) (nodes : List Depv) : Bool :=
  nodes.any fun node => (List.range dvDim).all fun i => hasEqual (directionOf (node i))

/-- The vector a long list is collapsed into, from its first one on. -/
def collapse (first : Depv) (nodes : List Depv) : Depv :=
  nodes.foldl (fun tmp node j => depUnionDirection (tmp j) (directionOf (node j))) first

/-- What a long list is replaced by. -/
def VectorList.collapsed (l : VectorList) (first : Depv) : List Depv :=
  let new := appendBadOuter [] (some (collapse first l.nodes)) l.numUnusedDim
  if isLexpos l.dvDim l.nodes then
    (lexPosDecomposeList l.dvDim (containsAllEquals l.dvDim l.nodes) false new [] []).1
  else new

/-- The end of `Create_DEPV_ARRAY`: room for `num_vec` vectors, and all nodes are copied; `none` for the null pointer. -/
def fillArray (numVec numDim numUnusedDim : Nat) (nodes : List Depv) : Except ArrayFault (Option (List Depv)) :=
  if nodes = [] then .ok none
  else do
    require .assertion (numDim ≤ 15)
    require .assertion (numUnusedDim ≤ 15)
    require .overrun (nodes.length ≤ numVec ∨ numDim = 0)
    return some (nodes.take numVec)

/-- `Create_DEPV_ARRAY`. The collapsed vector is appended with `num_unused_dim` bad outer loops, and overruns if they are more
than its dimensions. -/
def createDepvArray (l : VectorList) : Except ArrayFault (Option (List Depv)) :=
  if listLen l.nodes > 255 then
    match l.nodes with
    | [] => .ok none
    | first :: _ => do
      require .overrun (l.numUnusedDim ≤ l.dvDim)
      require .assertion (listLen (l.collapsed first) ≤ 255)
      fillArray (listLen (l.collapsed first)) l.dvDim l.numUnusedDim (l.collapsed first)
  else fillArray (listLen l.nodes) l.dvDim l.numUnusedDim l.nodes

/-- `DEPV_ARRAY::Union`, for an array with a first vector. -/
def unionArray (first : Depv) (rest : List Depv) : Depv :=
  rest.foldl (fun depv tmp j =>
    if depIsDistance (tmp j) = false ∨ depIsDistance (depv j) = false ∨ depDistance (depv j) ≠ depDistance (tmp j) then
      depUnionDirection (depv j) (directionOf (tmp j))
    else depv j) first

/-- `DEPV_ARRAY::Shorten_To_Dep`; `none` for the null pointer. -/
def shortenToDep (numDim : Nat) (arr : List Depv) : Option Dep :=
  arr.foldl (fun dep depv =>
    if (List.range (numDim - 1)).all fun j => hasEqual (directionOf (depv j)) then
      let tmp := depv (numDim - 1)
      match dep with
      | none => some tmp
      | some dep =>
        if depIsDistance tmp then
          if depIsDistance dep = false ∨ depDistance dep ≠ depDistance tmp then some (depUnionDirection dep (directionOf tmp))
          else some dep
        else some (depUnionDirection dep (directionOf tmp))
    else dep) none

/-! ## Words -/

theorem directionOf_bits {dep : Dep} (h : Dep.Built dep) : (directionOf dep).bits = depDirection dep := by
  obtain ⟨dir, hdir⟩ := h.direction
  rw [directionOf, hdir]
  cases dir <;> decide

theorem hasEqual_iff (dir : Direction) : hasEqual dir = true ↔ HasSign dir.bits 0 := by
  cases dir <;> decide

/-- A word that describes every distance with a sign in its direction. -/
def SignWord (dep : Dep) : Prop := ∀ x, Describes dep x ↔ HasSign (depDirection dep) x

theorem signWord_setDirection (dir : Direction) : SignWord (depSetDirection dir) := by
  intro x
  rw [describes_direction, direction_setDirection]

theorem signWord_union {dep : Dep} (h : Dep.Built dep) (dir : Direction) : SignWord (depUnionDirection dep dir) := by
  intro x
  rcases h.cases with ⟨c, hc, rfl⟩ | hw
  · rw [depUnionDirection_const hc]
    split_ifs with heq
    · have hbits := hc.direction
      rw [heq.1] at hbits
      exact describes_iff_hasSign (.setDistance c) (by rw [hbits]; decide) (by rw [hbits]; decide) x
    · exact describes_open (depUnionDirection_sign_mem _ _ (signOf_mem c) heq) x
  · exact describes_open (depUnionDirection_open dep hw dir) x

theorem depDirection_union {dep : Dep} (h : Dep.Built dep) (dir : Direction) :
    depDirection (depUnionDirection dep dir) = depDirection dep ||| dir.bits := by
  rcases h.cases with ⟨c, hc, rfl⟩ | hw
  · rw [depUnionDirection_const hc, hc.direction]
    split_ifs with heq
    · rw [hc.direction, heq.1, heq.2]
      decide
    · exact depDirection_union_sign _ _ (signOf_mem c)
  · exact depDirection_union_open hw dir

theorem exists_neg_of_hasSign {dep : Dep} (h : Dep.Built dep) (hneg : HasSign (depDirection dep) (-1)) :
    ∃ x < 0, Describes dep x := by
  rcases h.cases with ⟨c, hc, rfl⟩ | hw
  · refine ⟨c, ?_, (describes_const hc c).2 rfl⟩
    rw [hc.direction] at hneg
    rcases signOf_cases c with ⟨-, hs⟩ | ⟨hlt, -⟩ | ⟨-, hs⟩
    · rw [hs] at hneg
      exact absurd hneg (by decide)
    · exact hlt
    · rw [hs] at hneg
      exact absurd hneg (by decide)
  · exact ⟨-1, by decide, (describes_open hw _).2 hneg⟩

theorem describes_zero_iff {dep : Dep} (h : Dep.Built dep) : Describes dep 0 ↔ hasEqual (directionOf dep) = true := by
  rw [hasEqual_iff, directionOf_bits h]
  refine ⟨hasSign_of_describes h, fun hzero => ?_⟩
  rcases h.cases with ⟨c, hc, rfl⟩ | hw
  · rw [describes_const hc]
    rw [hc.direction] at hzero
    rcases signOf_cases c with ⟨-, hs⟩ | ⟨-, hs⟩ | ⟨heq, -⟩
    · rw [hs] at hzero
      exact absurd hzero (by decide)
    · rw [hs] at hzero
      exact absurd hzero (by decide)
    · exact heq
  · exact (describes_open hw _).2 hzero

/-! ## Positive lists -/

variable {dvDim : Nat}

theorem exists_describesVector {node : Depv} (hbuilt : BuiltNode dvDim node) {zeros : Nat}
    (hzero : ∀ i < zeros, i < dvDim → Describes (node i) 0) {i : Nat} (hi : zeros ≤ i) {x : Int} (hx : Describes (node i) x) :
    ∃ v, DescribesVector dvDim node v ∧ (∀ j < zeros, v j = 0) ∧ v i = x := by
  have hany : ∀ j, ∃ y, j < dvDim → Describes (node j) y := by
    intro j
    by_cases hj : j < dvDim
    · obtain ⟨y, hy⟩ := exists_describes (hbuilt j hj)
      exact ⟨y, fun _ => hy⟩
    · exact ⟨0, fun h => absurd h hj⟩
  choose y hy using hany
  refine ⟨fun j => if j < zeros then 0 else if j = i then x else y j, fun j hj => ?_, fun j hj => if_pos hj, ?_⟩
  · dsimp only
    split_ifs with hjz hji
    · exact hzero j hjz hj
    · rwa [hji]
    · exact hy j hj
  · dsimp only
    rw [if_neg (by omega), if_pos rfl]

/-- The scan of one vector: it says yes just when every vector with zeros before is positive, or zero. -/
theorem isLexposFrom_iff {node : Depv} (hbuilt : BuiltNode dvDim node) (k : Nat) : ∀ i, i + k = dvDim →
    (∀ j < i, Describes (node j) 0) → (isLexposFrom node k i = true ↔
      ∀ v, DescribesVector dvDim node v → (∀ j < i, v j = 0) → PosOrKept dvDim true v) := by
  induction k with
  | zero =>
    intro i hi _
    exact iff_of_true rfl fun v _ hzero => Or.inr ⟨fun j hj => hzero j (by omega), rfl⟩
  | succ k ih =>
    intro i hi hbefore
    have hword := hbuilt i (by omega)
    have hsign : ∀ v, DescribesVector dvDim node v → HasSign (directionOf (node i)).bits (v i) := by
      intro v hv
      rw [directionOf_bits hword]
      exact hasSign_of_describes hword (hv i (by omega))
    -- with `=` in the direction and no `-`, the rest decides
    have hnext : hasEqual (directionOf (node i)) = true → (∀ x, HasSign (directionOf (node i)).bits x → 0 ≤ x) →
        (isLexposFrom node k (i + 1) = true ↔
          ∀ v, DescribesVector dvDim node v → (∀ j < i, v j = 0) → PosOrKept dvDim true v) := by
      intro heq hnonneg
      have hzero := (describes_zero_iff hword).2 heq
      rw [ih (i + 1) (by omega) fun j hj => (Nat.lt_succ_iff_lt_or_eq.1 hj).elim (hbefore j) fun hji => hji ▸ hzero]
      constructor
      · intro h v hv hvz
        rcases (hnonneg _ (hsign v hv)).lt_or_eq with hpos | hvi
        · exact Or.inl ⟨i, by omega, hvz, hpos⟩
        · exact h v hv fun j hj => (Nat.lt_succ_iff_lt_or_eq.1 hj).elim (hvz j) fun hji => hji ▸ hvi.symm
      · exact fun h v hv hvz => h v hv fun j hj => hvz j (by omega)
    -- with `-` in it, some vector is negative
    have hfail : HasSign (directionOf (node i)).bits (-1) →
        ¬ ∀ v, DescribesVector dvDim node v → (∀ j < i, v j = 0) → PosOrKept dvDim true v := by
      intro hneg h
      rw [directionOf_bits hword] at hneg
      obtain ⟨x, hx, hdesc⟩ := exists_neg_of_hasSign hword hneg
      obtain ⟨v, hv, hvz, hvi⟩ := exists_describesVector hbuilt (fun j hj _ => hbefore j hj) le_rfl hdesc
      rcases (posOrKept_iff (by omega) hvz).1 (h v hv hvz) with hpos | ⟨hzero, -⟩ <;> omega
    rw [isLexposFrom]
    cases hdir : directionOf (node i) with
    | pos =>
      refine iff_of_true rfl fun v hv hvz => Or.inl ⟨i, by omega, hvz, ?_⟩
      have hvi := hsign v hv
      rwa [hdir, hasSign_iff] at hvi
    | eq => exact hnext (by rw [hdir]; rfl) fun x hx => by rw [hdir, hasSign_iff] at hx; exact hx.ge
    | poseq => exact hnext (by rw [hdir]; rfl) fun x hx => by rwa [hdir, hasSign_iff] at hx
    | neg => exact iff_of_false Bool.false_ne_true (hfail (by rw [hdir]; decide))
    | negeq => exact iff_of_false Bool.false_ne_true (hfail (by rw [hdir]; decide))
    | posneg => exact iff_of_false Bool.false_ne_true (hfail (by rw [hdir]; decide))
    | star => exact iff_of_false Bool.false_ne_true (hfail (by rw [hdir]; decide))

theorem isLexpos_iff {nodes : List Depv} (hbuilt : ∀ node ∈ nodes, BuiltNode dvDim node) :
    isLexpos dvDim nodes = true ↔ ∀ v, Described dvDim nodes v → PosOrKept dvDim true v := by
  have hnode : ∀ node ∈ nodes, (isLexposFrom node dvDim 0 = true ↔ ∀ v, DescribesVector dvDim node v → PosOrKept dvDim true v) := by
    intro node hmem
    rw [isLexposFrom_iff (hbuilt node hmem) dvDim 0 (by omega) fun j hj => absurd hj (Nat.not_lt_zero j)]
    exact forall₂_congr fun v _ => ⟨fun h => h fun j hj => absurd hj (Nat.not_lt_zero j), fun h _ => h⟩
  rw [isLexpos, List.all_eq_true]
  constructor
  · rintro h v ⟨node, hmem, hv⟩
    exact (hnode node hmem).1 (h node hmem) v hv
  · exact fun h node hmem => (hnode node hmem).2 fun v hv => h v ⟨node, hmem, hv⟩

/-- `Contains_All_Equals` says whether zero is described. -/
theorem containsAllEquals_iff {nodes : List Depv} (hbuilt : ∀ node ∈ nodes, BuiltNode dvDim node) :
    containsAllEquals dvDim nodes = true ↔ Described dvDim nodes fun _ => 0 := by
  simp only [containsAllEquals, List.any_eq_true, List.all_eq_true, List.mem_range, Described, DescribesVector]
  exact exists_congr fun node => and_congr_right fun hmem => forall₂_congr fun i hi =>
    (describes_zero_iff (hbuilt node hmem i hi)).symm

theorem posOrKept_of_isLexpos {nodes : List Depv} (hbuilt : ∀ node ∈ nodes, BuiltNode dvDim node)
    (h : isLexpos dvDim nodes = true) {v : Nat → Int} (hv : Described dvDim nodes v) :
    PosOrKept dvDim (containsAllEquals dvDim nodes) v := by
  rcases (isLexpos_iff hbuilt).1 h v hv with hpos | ⟨hzero, -⟩
  · exact Or.inl hpos
  · refine Or.inr ⟨hzero, (containsAllEquals_iff hbuilt).2 ?_⟩
    obtain ⟨node, hmem, hnode⟩ := hv
    exact ⟨node, hmem, fun i hi => hzero i hi ▸ hnode i hi⟩

/-! ## The collapsed vector -/

theorem collapse_spec {nodes : List Depv} (hbuilt : ∀ node ∈ nodes, BuiltNode dvDim node) {first : Depv}
    (hfirst : BuiltNode dvDim first) {i : Nat} (hi : i < dvDim) :
    Dep.Built (collapse first nodes i) ∧ (nodes ≠ [] → SignWord (collapse first nodes i)) ∧
      ∀ x, HasSign (depDirection (collapse first nodes i)) x ↔
        HasSign (depDirection (first i)) x ∨ ∃ node ∈ nodes, HasSign (depDirection (node i)) x := by
  induction nodes generalizing first with
  | nil => exact ⟨hfirst i hi, fun h => absurd rfl h, fun x => by simp [collapse]⟩
  | cons node rest ih =>
    rw [List.forall_mem_cons] at hbuilt
    obtain ⟨hword, hsignWord, hsign⟩ := ih hbuilt.2
      fun j hj => Dep.Built.unionDirection (directionOf (node j)) (hfirst j hj)
    refine ⟨hword, fun _ => ?_, fun x => ?_⟩
    · by_cases hrest : rest = []
      · rw [hrest]
        exact signWord_union (hfirst i hi) _
      · exact hsignWord hrest
    · rw [collapse, List.foldl_cons, ← collapse, hsign, depDirection_union (hfirst i hi), hasSign_or,
        directionOf_bits (hbuilt.1 i hi), or_assoc]
      simp only [List.mem_cons, exists_eq_or_imp]

theorem describes_collapse {first : Depv} {rest : List Depv} (hbuilt : ∀ node ∈ first :: rest, BuiltNode dvDim node) {i : Nat}
    (hi : i < dvDim) (x : Int) : Describes (collapse first (first :: rest) i) x ↔
      ∃ node ∈ first :: rest, HasSign (depDirection (node i)) x := by
  obtain ⟨-, hword, hsign⟩ := collapse_spec hbuilt (hbuilt first List.mem_cons_self) hi
  rw [hword (List.cons_ne_nil _ _), hsign]
  exact or_iff_right_of_imp fun h => ⟨first, List.mem_cons_self, h⟩

/-! ## The positive part of a list -/

/-- Words of a vector and of the vectors in `pos`. -/
structure AllWords (dvDim : Nat) (P : Dep → Prop) (s : Decomposition) : Prop where
  depv : ∀ i < dvDim, P (s.depv i)
  pos : ∀ p ∈ s.pos, ∀ i < dvDim, P (p i)

section AllWords

variable {P : Dep → Prop} {s : Decomposition}

theorem AllWords.update (h : AllWords dvDim P s) (first : Nat) {w : Dep} (hw : first < dvDim → P w) :
    AllWords dvDim P { s with depv := Function.update s.depv first w } := by
  refine ⟨fun i hi => ?_, h.pos⟩
  by_cases hif : i = first
  · subst hif
    dsimp only
    rw [Function.update_self]
    exact hw hi
  · dsimp only
    rw [Function.update_of_ne hif]
    exact h.depv i hi

theorem AllWords.append (h : AllWords dvDim P s) : AllWords dvDim P { s with pos := s.pos ++ [s.depv] } := by
  refine ⟨h.depv, fun p hp => ?_⟩
  rcases List.mem_append.1 hp with hp | hp
  · exact h.pos p hp
  · rw [List.mem_singleton.1 hp]
    exact h.depv

theorem AllWords.appendPos (h : AllWords dvDim P s) (hpos : P (depSetDirection .pos)) (first : Nat) :
    AllWords dvDim P (appendPos s first) := (h.update first fun _ => hpos).append

theorem AllWords.withNeg (h : AllWords dvDim P s) (neg : List Depv) : AllWords dvDim P { s with neg := neg } := ⟨h.depv, h.pos⟩

theorem lexPosDecompose_words (hpos : P (depSetDirection .pos)) (heq : P (depSetDirection .eq)) (keepPos keepNeg : Bool)
    (k : Nat) : ∀ (first : Nat) (s : Decomposition), AllWords dvDim P s →
      AllWords dvDim P (lexPosDecompose dvDim keepPos keepNeg k first s) := by
  induction k with
  | zero =>
    intro first s h
    rw [lexPosDecompose]
    cases keepPos
    · exact h.withNeg _
    · exact h.append.withNeg _
  | succ k ih =>
    intro first s h
    have horig : ∀ t : Decomposition, AllWords dvDim P t →
        AllWords dvDim P { t with depv := Function.update t.depv first (s.depv first) } :=
      fun t ht => ht.update first fun hlt => h.depv first hlt
    rw [lexPosDecompose]
    dsimp only
    refine horig _ ?_
    split_ifs
    · exact h.append
    · exact h.withNeg _
    · exact (h.appendPos hpos first).withNeg _
    · exact ih _ _ ((h.appendPos hpos first).update first fun _ => heq)
    · exact ih _ _ ((h.withNeg _).update first fun _ => heq)
    · exact ih _ _ (((h.appendPos hpos first).withNeg _).update first fun _ => heq)
    · exact ih _ _ h

theorem lexPosDecomposeList_words (hpos : P (depSetDirection .pos)) (heq : P (depSetDirection .eq)) (keepPos keepNeg : Bool)
    (nodes : List Depv) (hnodes : ∀ node ∈ nodes, ∀ i < dvDim, P (node i)) : ∀ pos neg : List Depv,
      (∀ p ∈ pos, ∀ i < dvDim, P (p i)) →
      ∀ p ∈ (lexPosDecomposeList dvDim keepPos keepNeg nodes pos neg).1, ∀ i < dvDim, P (p i) := by
  induction nodes with
  | nil => exact fun pos neg h => h
  | cons node rest ih =>
    rw [List.forall_mem_cons] at hnodes
    intro pos neg h
    exact ih hnodes.2 _ _ (lexPosDecompose_words hpos heq keepPos keepNeg dvDim 0 ⟨node, pos, neg⟩ ⟨hnodes.1, h⟩).pos

end AllWords

/-- At least as many vectors as the decomposition of a vector appends to `pos`. -/
def posCount (depv : Depv) : Nat → Nat → Nat
  | 0, _ => 1
  | k + 1, first =>
    if depDirection (depv first) = Direction.pos.bits then 1
    else if depDirection (depv first) = Direction.neg.bits then 0
    else 1 + posCount depv k (first + 1)

theorem posCount_update (depv : Depv) {i : Nat} (w : Dep) (k : Nat) : ∀ first, i < first →
    posCount (Function.update depv i w) k first = posCount depv k first := by
  induction k with
  | zero => exact fun _ _ => rfl
  | succ k ih =>
    intro first hlt
    rw [posCount, posCount, Function.update_of_ne (by omega), ih (first + 1) (by omega)]

theorem length_lexPosDecompose_le (keepPos keepNeg : Bool) (k : Nat) : ∀ (first : Nat) (s : Decomposition),
    (lexPosDecompose dvDim keepPos keepNeg k first s).pos.length ≤ s.pos.length + posCount s.depv k first := by
  induction k with
  | zero =>
    intro first s
    rw [lexPosDecompose, posCount]
    cases keepPos <;> simp
  | succ k ih =>
    intro first s
    -- the recursion after at most one vector more
    have hnext : ∀ (t : Decomposition) (w : Dep), t.depv = Function.update s.depv first w → t.pos.length ≤ s.pos.length + 1 →
        (lexPosDecompose dvDim keepPos keepNeg k (first + 1) t).pos.length ≤ s.pos.length + (1 + posCount s.depv k (first + 1)) := by
      intro t w ht hlen
      have hrec := ih (first + 1) t
      rw [ht, posCount_update _ _ _ _ (show first < first + 1 by omega)] at hrec
      omega
    have happend : ∀ depv, (appendPos s depv).pos.length = s.pos.length + 1 := fun _ => List.length_append
    rw [lexPosDecompose, posCount]
    dsimp only
    split_ifs with h1 h2 h3 h4 h5 h6
    · exact List.length_append.le
    · exact le_rfl
    · show (appendPos s first).pos.length ≤ _
      rw [happend]
      omega
    · exact hnext _ (depSetDirection .eq) (Function.update_idem _ _ _) (happend first).le
    · exact hnext _ (depSetDirection .eq) rfl (Nat.le_succ _)
    · exact hnext _ (depSetDirection .eq) (Function.update_idem _ _ _) (happend first).le
    · exact hnext s (s.depv first) (Function.update_eq_self _ _).symm (Nat.le_succ _)

theorem length_lexPosDecomposeList_le (keepPos keepNeg : Bool) (nodes : List Depv) : ∀ pos neg : List Depv,
    (lexPosDecomposeList dvDim keepPos keepNeg nodes pos neg).1.length ≤
      pos.length + (nodes.map fun node => posCount node dvDim 0).sum := by
  induction nodes with
  | nil => exact fun _ _ => Nat.le_add_right _ _
  | cons node rest ih =>
    intro pos neg
    have hnode := @length_lexPosDecompose_le dvDim keepPos keepNeg dvDim 0 ⟨node, pos, neg⟩
    refine (ih _ _).trans ?_
    rw [List.map_cons, List.sum_cons]
    dsimp only at hnode ⊢
    omega

theorem posCount_le (depv : Depv) (k : Nat) : ∀ first, posCount depv k first ≤ k + 1 := by
  induction k with
  | zero => exact fun _ => le_rfl
  | succ k ih =>
    intro first
    have := ih (first + 1)
    rw [posCount]
    split_ifs <;> omega

theorem posCount_starExcept {i : Nat} {dir : Direction} (hdir : dir = .pos ∨ dir = .neg) (k : Nat) : ∀ first, first ≤ i →
    i < first + k → posCount (starExcept i dir) k first = (i - first) + if dir = .pos then 1 else 0 := by
  induction k with
  | zero => exact fun first hle hlt => absurd hlt (by omega)
  | succ k ih =>
    intro first hle hlt
    rw [posCount, starExcept, direction_setDirection]
    by_cases hif : first = i
    · rw [if_pos hif, hif, Nat.sub_self, zero_add]
      rcases hdir with rfl | rfl
      · rw [if_pos rfl, if_pos rfl]
      · rw [if_neg (by decide), if_pos rfl, if_neg (by decide)]
    · rw [if_neg hif, if_neg (by decide), if_neg (by decide), ih (first + 1) (by omega) (by omega)]
      omega

theorem sum_posCount_starNodes {k : Nat} (hk : k ≤ dvDim) :
    (((List.range k).foldl (fun l i => l ++ [starExcept i .pos, starExcept i .neg]) []).map
      fun node => posCount node dvDim 0).sum = k * k ∧
    ((List.range k).foldl (fun l i => l ++ [starExcept i .pos, starExcept i .neg]) []).length = 2 * k := by
  refine foldl_range (fun m (l : List Depv) => (l.map fun node => posCount node dvDim 0).sum = m * m ∧ l.length = 2 * m)
    ⟨rfl, rfl⟩ ?_
  rintro m l hm ⟨hsum, hlen⟩
  constructor
  · rw [List.map_append, List.sum_append, hsum, List.map_cons, List.map_cons, List.map_nil, List.sum_cons, List.sum_cons,
      List.sum_nil, posCount_starExcept (Or.inl rfl) dvDim 0 (by omega) (by omega),
      posCount_starExcept (Or.inr rfl) dvDim 0 (by omega) (by omega), if_pos rfl, if_neg (by decide)]
    have : (m + 1) * (m + 1) = m * m + 2 * m + 1 := by ring
    omega
  · rw [List.length_append, hlen]
    show 2 * m + 2 = 2 * (m + 1)
    omega

/-! ## What replaces a long list -/

/-- A list that the function may be called on: its components are built words, and the two counts pass the assertions. -/
structure VectorList.Valid (l : VectorList) : Prop where
  built : ∀ node ∈ l.nodes, BuiltNode l.dvDim node
  dvDim : l.dvDim ≤ 15
  numUnusedDim : l.numUnusedDim ≤ 15

section Collapsed

variable {l : VectorList} {first : Depv} {rest : List Depv}

/-- The words of the collapsed list. -/
theorem signWords_new (hl : l.Valid) (hnodes : l.nodes = first :: rest) :
    ∀ node ∈ appendBadOuter [] (some (collapse first l.nodes)) l.numUnusedDim, ∀ i < l.dvDim,
      Dep.Built (node i) ∧ SignWord (node i) := by
  have hset : ∀ dir, Dep.Built (depSetDirection dir) ∧ SignWord (depSetDirection dir) :=
    fun dir => ⟨.setDirection dir, signWord_setDirection dir⟩
  have htmp : ∀ i < l.dvDim, Dep.Built (collapse first l.nodes i) ∧ SignWord (collapse first l.nodes i) := by
    intro i hi
    have hfirst : BuiltNode l.dvDim first := hl.built first (by rw [hnodes]; exact List.mem_cons_self)
    obtain ⟨hword, hsign, -⟩ := collapse_spec hl.built hfirst hi
    exact ⟨hword, hsign (by rw [hnodes]; exact List.cons_ne_nil _ _)⟩
  rw [appendBadOuter]
  split_ifs with hzero
  · intro node hnode
    rw [List.mem_singleton.1 hnode]
    exact htmp
  · intro node hnode i hi
    rcases List.mem_append.1 hnode with hnode | hnode
    · have hstar := @foldl_range (List Depv) (fun l i => l ++ [starExcept i .pos, starExcept i .neg]) l.numUnusedDim []
        (fun _ (l : List Depv) => ∀ node ∈ l, ∀ i, Dep.Built (node i) ∧ SignWord (node i)) (by simp) ?_
      · exact hstar node hnode i
      · intro m l' _ hl' node hnode i
        rcases List.mem_append.1 hnode with hnode | hnode
        · exact hl' node hnode i
        · rcases List.mem_cons.1 hnode with rfl | hnode
          · exact hset _
          · rw [List.mem_singleton.1 hnode]
            exact hset _
    · rw [List.mem_singleton.1 hnode]
      dsimp only
      split_ifs
      · exact hset _
      · exact htmp _ (by omega)

theorem described_iff_covered {dvDim : Nat} {nodes : List Depv} (h : ∀ node ∈ nodes, ∀ i < dvDim, SignWord (node i))
    (v : Nat → Int) : Described dvDim nodes v ↔ Covered dvDim nodes v :=
  exists_congr fun node => and_congr_right fun hnode => forall₂_congr fun i hi => h node hnode i hi (v i)

/-- What the collapsed list describes: everything that is not zero in the unused dimensions, and what the collapsed vector
describes behind them; of a positive list, the positive part. -/
theorem described_collapsed (hl : l.Valid) (hnodes : l.nodes = first :: rest) (hfits : l.numUnusedDim ≤ l.dvDim) (v : Nat → Int) :
    Described l.dvDim (l.collapsed first) v ↔
      ((∃ i < l.numUnusedDim, v i ≠ 0) ∨ (∀ i < l.numUnusedDim, v i = 0) ∧
        DescribesVector (l.dvDim - l.numUnusedDim) (collapse first l.nodes) fun j => v (l.numUnusedDim + j)) ∧
      (isLexpos l.dvDim l.nodes = true → PosOrKept l.dvDim (containsAllEquals l.dvDim l.nodes) v) := by
  have hwords := signWords_new hl hnodes
  have hnew := described_appendBadOuter hfits [] (some (collapse first l.nodes)) v
  rw [or_iff_right (not_described_nil v)] at hnew
  simp only [Option.some.injEq, exists_eq_left'] at hnew
  rw [← hnew, VectorList.collapsed]
  split_ifs with hlex
  · have hpos := lexPosDecomposeList_words (signWord_setDirection .pos) (signWord_setDirection .eq)
      (containsAllEquals l.dvDim l.nodes) false _ (fun node hnode i hi => (hwords node hnode i hi).2) [] []
      fun p hp => absurd hp List.not_mem_nil
    rw [described_iff_covered hpos, described_iff_covered fun node hnode i hi => (hwords node hnode i hi).2,
      (lexPosDecomposeList_covers _ (fun node hnode i hi => (hwords node hnode i hi).1) [] [] v).1,
      or_iff_right (not_covered_nil v)]
    exact and_congr_right fun _ => ⟨fun h _ => h, fun h => h hlex⟩
  · exact (and_iff_left fun h => absurd h hlex).symm

theorem length_collapsed (hl : l.Valid) (hfits : l.numUnusedDim ≤ l.dvDim) : (l.collapsed first).length ≤ 255 := by
  obtain ⟨-, hdim, hunused⟩ := hl
  have hsquare : l.numUnusedDim * l.numUnusedDim ≤ 15 * 15 := Nat.mul_le_mul hunused hunused
  obtain ⟨hsum, hlen⟩ := @sum_posCount_starNodes l.dvDim l.numUnusedDim hfits
  rw [VectorList.collapsed, appendBadOuter]
  dsimp only
  by_cases hzero : l.numUnusedDim = 0
  · rw [if_pos hzero]
    split_ifs
    · refine (length_lexPosDecomposeList_le _ _ _ _ _).trans ?_
      have := posCount_le (collapse first l.nodes) l.dvDim 0
      simp only [Option.toList_some, List.nil_append, List.map_cons, List.map_nil, List.sum_cons, List.sum_nil, List.length_nil]
      omega
    · exact Nat.le_add_left _ _
  · rw [if_neg hzero]
    split_ifs
    · refine (length_lexPosDecomposeList_le _ _ _ _ _).trans ?_
      rw [List.map_append, List.sum_append, hsum]
      have hlast := posCount_le (fun j => if j < l.numUnusedDim then depSetDirection .eq else
        collapse first l.nodes (j - l.numUnusedDim)) l.dvDim 0
      simp only [Option.map_some, Option.toList_some, List.map_cons, List.map_nil, List.sum_cons, List.sum_nil, List.length_nil]
      omega
    · rw [List.length_append, hlen]
      simp only [Option.map_some, Option.toList_some, List.length_singleton]
      omega

end Collapsed

/-! ## When nothing is lost -/

/-- Nothing is written behind the end, all that the list describes the array does too, and where it describes only positive
vectors (or only these and zero), so does the array. -/
structure Keeps (l : VectorList) : Prop where
  safe : createDepvArray l ≠ .error .overrun
  covers : ∀ arr, createDepvArray l = .ok arr → ∀ v, Described l.dvDim l.nodes v → Described l.dvDim (arr.getD []) v
  lexpos : ∀ arr, createDepvArray l = .ok arr → ∀ keep, (∀ v, Described l.dvDim l.nodes v → PosOrKept l.dvDim keep v) →
    ∀ v, Described l.dvDim (arr.getD []) v → PosOrKept l.dvDim keep v

/-- The lists for which it holds: the count does not wrap to a small number, and of a long list, the unused dimensions are among
those of the vectors, and each sign that a vector with zeros in the unused dimensions has in component `numUnusedDim + j` is in
the direction of some vector's component `j`. -/
structure Collapsible (l : VectorList) : Prop where
  counted : listLen l.nodes ≤ 255 → listLen l.nodes = l.nodes.length ∨ l.dvDim = 0 ∧ 0 < listLen l.nodes
  fits : 255 < listLen l.nodes → l.numUnusedDim ≤ l.dvDim
  shifted : 255 < listLen l.nodes → ∀ node ∈ l.nodes, (∀ i < l.numUnusedDim, Describes (node i) 0) →
    ∀ j, l.numUnusedDim + j < l.dvDim → ∀ x, Describes (node (l.numUnusedDim + j)) x →
      ∃ node' ∈ l.nodes, HasSign (depDirection (node' j)) x

theorem listLen_of_lt {nodes : List Depv} (h : nodes.length < 2 ^ 15) : listLen nodes = nodes.length := by
  have hwrap : (nodes.length : Int).bmod (2 ^ 16) = nodes.length := by
    rw [Int.bmod_def]
    split_ifs <;> omega
  have hunsigned : (nodes.length : Int) % 2 ^ 32 = nodes.length := by omega
  unfold listLen
  rw [hwrap, hunsigned]
  exact Int.toNat_natCast _

theorem length_of_listLen {nodes : List Depv} (h : listLen nodes ≠ nodes.length) : 2 ^ 15 ≤ nodes.length := by
  by_contra hlt
  exact h (listLen_of_lt (by omega))

theorem fillArray_eq {numVec numDim numUnusedDim : Nat} {nodes : List Depv} (hdim : numDim ≤ 15) (hunused : numUnusedDim ≤ 15)
    (hlen : nodes.length ≤ numVec ∨ numDim = 0) : fillArray numVec numDim numUnusedDim nodes =
      .ok (if nodes = [] then none else some (nodes.take numVec)) := by
  rw [fillArray]
  split_ifs
  · rfl
  · rw [require, if_pos hdim, require, if_pos hunused, require, if_pos hlen]
    rfl

theorem collapsed_iff {l : VectorList} (hl : l.Valid) {first : Depv} {rest : List Depv} (hnodes : l.nodes = first :: rest)
    (hfits : l.numUnusedDim ≤ l.dvDim) : (∀ v, Described l.dvDim l.nodes v → Described l.dvDim (l.collapsed first) v) ↔
      ∀ node ∈ l.nodes, (∀ i < l.numUnusedDim, Describes (node i) 0) → ∀ j, l.numUnusedDim + j < l.dvDim → ∀ x,
        Describes (node (l.numUnusedDim + j)) x → ∃ node' ∈ l.nodes, HasSign (depDirection (node' j)) x := by
  have hcollapse : ∀ j < l.dvDim, ∀ x, Describes (collapse first l.nodes j) x ↔
      ∃ node ∈ l.nodes, HasSign (depDirection (node j)) x := by
    intro j hj x
    have hbuilt := hl.built
    rw [hnodes] at hbuilt ⊢
    exact describes_collapse hbuilt hj x
  constructor
  · intro h node hnode hzero j hj x hx
    obtain ⟨v, hv, hvz, hvx⟩ := exists_describesVector (hl.built node hnode) (fun i hi _ => hzero i hi) (Nat.le_add_right _ j) hx
    obtain ⟨hdesc, -⟩ := (described_collapsed hl hnodes hfits v).1 (h v ⟨node, hnode, hv⟩)
    rcases hdesc with ⟨i, hi, hne⟩ | ⟨-, hrest⟩
    · exact absurd (hvz i hi) hne
    · have hat := hrest j (by omega)
      dsimp only at hat
      rw [hvx] at hat
      exact (hcollapse j (by omega) x).1 hat
  · rintro h v ⟨node, hnode, hv⟩
    refine (described_collapsed hl hnodes hfits v).2 ⟨?_, fun hlex => posOrKept_of_isLexpos hl.built hlex ⟨node, hnode, hv⟩⟩
    by_cases hout : ∃ i < l.numUnusedDim, v i ≠ 0
    · exact Or.inl hout
    · push Not at hout
      refine Or.inr ⟨hout, fun j hj => (hcollapse j (by omega) _).2 ?_⟩
      exact h node hnode (fun i hi => hout i hi ▸ hv i (by omega)) j (by omega) _ (hv _ (by omega))

theorem collapsed_lexpos {l : VectorList} (hl : l.Valid) {first : Depv} {rest : List Depv} (hnodes : l.nodes = first :: rest)
    (hfits : l.numUnusedDim ≤ l.dvDim) {keep : Bool} (h : ∀ v, Described l.dvDim l.nodes v → PosOrKept l.dvDim keep v)
    {v : Nat → Int} (hv : Described l.dvDim (l.collapsed first) v) : PosOrKept l.dvDim keep v := by
  have hlex : isLexpos l.dvDim l.nodes = true :=
    (isLexpos_iff hl.built).2 fun w hw => (h w hw).imp_right fun hzero => ⟨hzero.1, rfl⟩
  rcases ((described_collapsed hl hnodes hfits v).1 hv).2 hlex with hpos | ⟨hzero, hall⟩
  · exact Or.inl hpos
  · -- zero is kept because it is described
    rcases h _ ((containsAllEquals_iff hl.built).1 hall) with ⟨i, -, -, hpos⟩ | ⟨-, hkeep⟩
    · exact absurd hpos (lt_irrefl 0)
    · exact Or.inr ⟨hzero, hkeep⟩

theorem createDepvArray_long {l : VectorList} (hl : l.Valid) {first : Depv} {rest : List Depv} (hnodes : l.nodes = first :: rest)
    (hlong : 255 < listLen l.nodes) : createDepvArray l = if l.numUnusedDim ≤ l.dvDim then
      .ok (if l.collapsed first = [] then none else some (l.collapsed first)) else .error .overrun := by
  have hrun : createDepvArray l = (do
      require .overrun (l.numUnusedDim ≤ l.dvDim)
      require .assertion (listLen (l.collapsed first) ≤ 255)
      fillArray (listLen (l.collapsed first)) l.dvDim l.numUnusedDim (l.collapsed first)) := by
    rw [createDepvArray, if_pos hlong]
    split
    · next hnil => exact absurd (hnil.symm.trans hnodes) (List.cons_ne_nil _ _).symm
    · next first' rest' hcons => rw [(List.cons.inj (hcons.symm.trans hnodes)).1]
  rw [hrun]
  by_cases hfits : l.numUnusedDim ≤ l.dvDim
  · have hlen := @length_collapsed l first hl hfits
    have hcount : listLen (l.collapsed first) = (l.collapsed first).length := listLen_of_lt (by omega)
    rw [if_pos hfits, require, if_pos hfits, require, if_pos (by omega), hcount]
    show fillArray _ _ _ _ = _
    rw [fillArray_eq hl.dvDim hl.numUnusedDim (Or.inl le_rfl), List.take_length]
  · rw [if_neg hfits, require, if_neg hfits]
    rfl

theorem getD_ite_nil (nodes : List Depv) : (if nodes = [] then none else some nodes).getD [] = nodes := by
  split_ifs with hnil
  · exact hnil.symm
  · rfl

theorem createDepvArray_keeps_iff {l : VectorList} (hl : l.Valid) : Keeps l ↔ Collapsible l := by
  by_cases hlong : 255 < listLen l.nodes
  · obtain ⟨first, rest, hnodes⟩ : ∃ first rest, l.nodes = first :: rest := by
      cases hcase : l.nodes with
      | nil =>
        rw [hcase] at hlong
        exact absurd hlong (by decide)
      | cons first rest => exact ⟨first, rest, rfl⟩
    have hrun := createDepvArray_long hl hnodes hlong
    by_cases hfits : l.numUnusedDim ≤ l.dvDim
    · rw [if_pos hfits] at hrun
      have harr : ∀ arr, createDepvArray l = .ok arr → arr.getD [] = l.collapsed first := by
        intro arr h
        rw [← Except.ok.inj (hrun.symm.trans h), getD_ite_nil]
      constructor
      · intro h
        refine ⟨fun hle => absurd hlong (not_lt.2 hle), fun _ => hfits, fun _ => (collapsed_iff hl hnodes hfits).1 fun v hv => ?_⟩
        rw [← harr _ hrun]
        exact h.covers _ hrun v hv
      · intro h
        refine ⟨by rw [hrun]; exact nofun, fun arr hrun v hv => ?_, fun arr hrun keep hkeep v hv => ?_⟩
        · rw [harr arr hrun]
          exact (collapsed_iff hl hnodes hfits).2 (h.shifted hlong) v hv
        · rw [harr arr hrun] at hv
          exact collapsed_lexpos hl hnodes hfits hkeep hv
    · rw [if_neg hfits] at hrun
      exact iff_of_false (fun h => h.safe hrun) fun h => hfits (h.fits hlong)
  · have hrun : createDepvArray l = fillArray (listLen l.nodes) l.dvDim l.numUnusedDim l.nodes := by
      rw [createDepvArray, if_neg hlong]
    by_cases hcount : listLen l.nodes = l.nodes.length
    · have hok : createDepvArray l = .ok (if l.nodes = [] then none else some l.nodes) := by
        rw [hrun, hcount, fillArray_eq hl.dvDim hl.numUnusedDim (Or.inl le_rfl), List.take_length]
      have harr : ∀ arr, createDepvArray l = .ok arr → arr.getD [] = l.nodes := by
        intro arr h
        rw [← Except.ok.inj (hok.symm.trans h), getD_ite_nil]
      refine iff_of_true ⟨by rw [hok]; exact nofun, fun arr h v hv => ?_, fun arr h keep hkeep v hv => ?_⟩
        ⟨fun _ => Or.inl hcount, fun h => absurd h hlong, fun h => absurd h hlong⟩
      · rwa [harr arr h]
      · rw [harr arr h] at hv
        exact hkeep v hv
    · have hlen := length_of_listLen hcount
      have hne : l.nodes ≠ [] := fun hnil => by rw [hnil] at hlen; exact absurd hlen (by decide)
      by_cases hdim : l.dvDim = 0
      · have hok : createDepvArray l = .ok (some (l.nodes.take (listLen l.nodes))) := by
          rw [hrun, fillArray_eq hl.dvDim hl.numUnusedDim (Or.inr hdim), if_neg hne]
        -- without dimensions, any vector describes all
        have hall : ∀ (nodes : List Depv) (v : Nat → Int), nodes ≠ [] → Described l.dvDim nodes v := by
          intro nodes v hne
          obtain ⟨node, hnode⟩ := List.exists_mem_of_ne_nil nodes hne
          exact ⟨node, hnode, fun i hi => absurd hi (by omega)⟩
        constructor
        · intro h
          refine ⟨fun _ => Or.inr ⟨hdim, ?_⟩, fun h => absurd h hlong, fun h => absurd h hlong⟩
          by_contra hzero
          obtain ⟨node, hnode, -⟩ := h.covers _ hok (fun _ => 0) (hall _ _ hne)
          rw [Nat.eq_zero_of_not_pos hzero] at hnode
          exact absurd hnode List.not_mem_nil
        · intro h
          have hpos := ((h.counted (not_lt.1 hlong)).resolve_left hcount).2
          refine ⟨by rw [hok]; exact nofun, fun arr hrun v _ => ?_, fun arr hrun keep hkeep v _ => hkeep v (hall _ _ hne)⟩
          have harr : arr = some (l.nodes.take (listLen l.nodes)) := (Except.ok.inj (hok.symm.trans hrun)).symm
          rw [harr, Option.getD_some]
          refine hall _ v fun hnil => ?_
          rcases List.take_eq_nil_iff.1 hnil with hzero | hnil
          · exact hpos.ne' hzero
          · exact hne hnil
      · refine iff_of_false (fun h => h.safe ?_) fun h => ?_
        · have hover : ¬ (l.nodes.length ≤ listLen l.nodes ∨ l.dvDim = 0) := by
            rintro (hle | hzero)
            · omega
            · exact hdim hzero
          rw [hrun, fillArray, if_neg hne, require, if_pos hl.dvDim, require, if_pos hl.numUnusedDim, require, if_neg hover]
          rfl
        · exact (h.counted (not_lt.1 hlong)).elim hcount fun hzero => hdim hzero.1

/-! ## Collapsing an array -/

theorem describes_unionWord {dep tmp : Dep} (hdep : Dep.Built dep) (htmp : Dep.Built tmp) :
    let w := if depIsDistance tmp = false ∨ depIsDistance dep = false ∨ depDistance dep ≠ depDistance tmp then
      depUnionDirection dep (directionOf tmp) else dep
    Dep.Built w ∧ ∀ x, Describes dep x ∨ Describes tmp x → Describes w x := by
  dsimp only
  split_ifs with hunion
  · refine ⟨.unionDirection _ hdep, fun x hx => describes_union hdep (hx.imp_right fun hx => ?_)⟩
    rw [directionOf_bits htmp]
    exact hasSign_of_describes htmp hx
  · refine ⟨hdep, fun x hx => hx.elim id fun hx => ?_⟩
    rw [not_or, not_or, Bool.not_eq_false, Bool.not_eq_false, not_not] at hunion
    rw [Describes, if_pos hunion.1] at hx
    rw [Describes, if_pos hunion.2.1, hunion.2.2]
    exact hx

theorem unionArray_covers {first : Depv} {rest : List Depv} (hbuilt : ∀ node ∈ first :: rest, BuiltNode dvDim node)
    {v : Nat → Int} (hv : Described dvDim (first :: rest) v) : DescribesVector dvDim (unionArray first rest) v := by
  induction rest generalizing first with
  | nil => exact (described_singleton first v).1 hv
  | cons node rest ih =>
    rw [List.forall_mem_cons, List.forall_mem_cons] at hbuilt
    have hstep := fun j hj => describes_unionWord (hbuilt.1 j hj) (hbuilt.2.1 j hj)
    rw [unionArray, List.foldl_cons, ← unionArray]
    refine ih (List.forall_mem_cons.2 ⟨fun j hj => (hstep j hj).1, hbuilt.2.2⟩) ?_
    rw [described_cons, described_cons] at hv
    rw [described_cons]
    rcases hv with hv | hv | hv
    · exact Or.inl fun j hj => (hstep j hj).2 _ (Or.inl (hv j hj))
    · exact Or.inl fun j hj => (hstep j hj).2 _ (Or.inr (hv j hj))
    · exact Or.inr hv

/-- Every vector of the array that is zero but for the last component is covered. -/
theorem shortenToDep_covers {arr : List Depv} (hdim : 0 < dvDim) (hbuilt : ∀ node ∈ arr, BuiltNode dvDim node) {v : Nat → Int}
    (hzero : ∀ j < dvDim - 1, v j = 0) (hv : Described dvDim arr v) :
    ∃ dep, shortenToDep dvDim arr = some dep ∧ Describes dep (v (dvDim - 1)) := by
  have hlast : dvDim - 1 < dvDim := by omega
  -- from what the loop has so far
  suffices hloop : ∀ dep : Option Dep, (∀ w, dep = some w → Dep.Built w) →
      (∃ w, dep = some w ∧ Describes w (v (dvDim - 1))) ∨ Described dvDim arr v →
      ∃ w, arr.foldl (fun dep depv =>
        if (List.range (dvDim - 1)).all fun j => hasEqual (directionOf (depv j)) then
          let tmp := depv (dvDim - 1)
          match dep with
          | none => some tmp
          | some dep =>
            if depIsDistance tmp then
              if depIsDistance dep = false ∨ depDistance dep ≠ depDistance tmp then
                some (depUnionDirection dep (directionOf tmp))
              else some dep
            else some (depUnionDirection dep (directionOf tmp))
        else dep) dep = some w ∧ Describes w (v (dvDim - 1)) from hloop none nofun (Or.inr hv)
  clear hv
  induction arr with
  | nil => exact fun dep _ h => h.resolve_right (not_described_nil v)
  | cons node rest ih =>
    rw [List.forall_mem_cons] at hbuilt
    intro dep hdep h
    rw [described_cons] at h
    rw [List.foldl_cons]
    split_ifs with hgood
    · cases dep with
      | none =>
        refine ih hbuilt.2 _ (fun w hw => ?_) ?_
        · cases hw
          exact hbuilt.1 _ hlast
        · rcases h with ⟨w, hw, -⟩ | hnode | hrest
          · cases hw
          · exact Or.inl ⟨_, rfl, hnode _ hlast⟩
          · exact Or.inr hrest
      | some dep =>
        obtain ⟨hword, hdesc⟩ := describes_unionWord (hdep dep rfl) (hbuilt.1 _ hlast)
        have hmerge : (if depIsDistance (node (dvDim - 1)) = true then
            if depIsDistance dep = false ∨ depDistance dep ≠ depDistance (node (dvDim - 1)) then
              some (depUnionDirection dep (directionOf (node (dvDim - 1))))
            else some dep
          else some (depUnionDirection dep (directionOf (node (dvDim - 1))))) =
          some (if depIsDistance (node (dvDim - 1)) = false ∨ depIsDistance dep = false ∨
            depDistance dep ≠ depDistance (node (dvDim - 1)) then depUnionDirection dep (directionOf (node (dvDim - 1)))
            else dep) := by
          cases depIsDistance (node (dvDim - 1)) <;> simp only [Bool.false_eq_true, if_false, if_true, true_or, false_or,
            Bool.true_eq_false]
          split_ifs <;> rfl
        dsimp only
        rw [hmerge]
        refine ih hbuilt.2 _ (fun w hw => ?_) ?_
        · cases hw
          exact hword
        · rcases h with ⟨w, hw, hx⟩ | hnode | hrest
          · cases hw
            exact Or.inl ⟨_, rfl, hdesc _ (Or.inl hx)⟩
          · exact Or.inl ⟨_, rfl, hdesc _ (Or.inr (hnode _ hlast))⟩
          · exact Or.inr hrest
    · refine ih hbuilt.2 dep hdep (h.imp_right fun h => h.resolve_left fun hnode => hgood ?_)
      rw [List.all_eq_true]
      intro j hj
      have hj := List.mem_range.1 hj
      rw [← describes_zero_iff (hbuilt.1 j (by omega)), ← hzero j hj]
      exact hnode j (by omega)

/-! ## All of it -/

/-- Nothing is lost when a list is made an array, or an array one vector or one word, just when the list is collapsible. -/
theorem collapse_exact_iff (l : VectorList) (hl : l.Valid) :
    (Keeps l ∧
      (∀ (dvDim : Nat) (first : Depv) (rest : List Depv), (∀ node ∈ first :: rest, BuiltNode dvDim node) → ∀ v,
        Described dvDim (first :: rest) v → DescribesVector dvDim (unionArray first rest) v) ∧
      ∀ (dvDim : Nat) (arr : List Depv), 0 < dvDim → (∀ node ∈ arr, BuiltNode dvDim node) → ∀ v,
        (∀ j < dvDim - 1, v j = 0) → Described dvDim arr v →
          ∃ dep, shortenToDep dvDim arr = some dep ∧ Describes dep (v (dvDim - 1))) ↔ Collapsible l := by
  rw [← createDepvArray_keeps_iff hl]
  exact and_iff_left ⟨fun _ _ _ hbuilt _ hv => unionArray_covers hbuilt hv,
    fun _ _ hdim hbuilt _ hzero hv => shortenToDep_covers hdim hbuilt hzero hv⟩

/-- A list of 256 times `(first, second)`. -/
def longList (numUnusedDim : Nat) (first second : Direction) : VectorList :=
  ⟨2, numUnusedDim, List.replicate 256 fun i => depSetDirection (if i = 0 then first else second)⟩

theorem longList_valid {numUnusedDim : Nat} (h : numUnusedDim ≤ 15) (first second : Direction) :
    (longList numUnusedDim first second).Valid := by
  refine ⟨fun node hnode i _ => ?_, show 2 ≤ 15 by decide, h⟩
  rw [List.eq_of_mem_replicate hnode]
  exact .setDirection _

theorem listLen_longList (numUnusedDim : Nat) (first second : Direction) :
    listLen (longList numUnusedDim first second).nodes = 256 := by
  have hlen : (longList numUnusedDim first second).nodes.length = 256 := List.length_replicate
  rw [listLen_of_lt (by omega), hlen]

/-- 256 times `(+, *)`, without unused dimensions. -/
theorem collapse_exact_long : Keeps (longList 0 .pos .star) := by
  refine ((collapse_exact_iff _ (longList_valid (Nat.zero_le 15) .pos .star)).2 ⟨fun h => ?_, fun _ => Nat.zero_le _,
    fun _ node hnode _ j hj x hx => ⟨node, hnode, ?_⟩⟩).1
  · rw [listLen_longList] at h
    exact absurd h (by decide)
  · have hj : 0 + j < 2 := hj
    have hx : Describes (node (0 + j)) x := hx
    rw [Nat.zero_add] at hx
    exact hasSign_of_describes ((longList_valid (Nat.zero_le 15) .pos .star).built node hnode j
      (show j < 2 by omega)) hx

/-- 256 times `(=, +)` with one unused dimension: the collapsed `(=, +)` is appended as `(=, =)`, and `(0, 1)` is lost. -/
theorem collapse_shifts : ∃ arr, createDepvArray (longList 1 .eq .pos) = .ok arr ∧
    (Described 2 (longList 1 .eq .pos).nodes fun i => if i = 0 then 0 else 1) ∧
    ¬ Described 2 (arr.getD []) fun i => if i = 0 then 0 else 1 := by
  have hl := longList_valid (show 1 ≤ 15 by decide) .eq .pos
  have hnodes : (longList 1 .eq .pos).nodes = (fun i => depSetDirection (if i = 0 then .eq else .pos)) ::
      List.replicate 255 fun i => depSetDirection (if i = 0 then .eq else .pos) := rfl
  have hrun := createDepvArray_long hl hnodes (by rw [listLen_longList]; decide)
  refine ⟨_, hrun, ⟨_, List.mem_cons_self, fun i hi => ?_⟩, ?_⟩
  · interval_cases i <;> decide
  rw [getD_ite_nil]
  intro h
  obtain ⟨⟨i, hi, hne⟩ | ⟨-, hrest⟩, -⟩ := (described_collapsed hl hnodes (by decide) _).1 h
  · have hi : i < 1 := hi
    obtain rfl : i = 0 := by omega
    exact hne rfl
  · have hsigns : ∀ node ∈ (longList 1 .eq .pos).nodes, ¬ HasSign (depDirection (node 0)) 1 := by
      intro node hnode
      rw [List.eq_of_mem_replicate hnode]
      decide
    have hbuilt := hl.built
    have hdim : (longList 1 .eq .pos).dvDim = 2 := rfl
    have hunused : (longList 1 .eq .pos).numUnusedDim = 1 := rfl
    rw [hnodes] at hsigns hbuilt
    generalize longList 1 .eq .pos = l at hdim hunused hrest hbuilt hnodes
    generalize (List.replicate 255 fun i => depSetDirection (if i = 0 then .eq else .pos) : List Depv) = rest
      at hsigns hbuilt hnodes
    rw [hdim, hunused, hnodes] at hrest
    rw [hdim] at hbuilt
    obtain ⟨node, hnode, hsign⟩ := (describes_collapse hbuilt (show 0 < 2 by decide) _).1 (hrest 0 Nat.zero_lt_one)
    exact hsigns node hnode hsign

end Path64.Dep

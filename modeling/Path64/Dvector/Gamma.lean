import Path64.Dvector.Basic

/-!
# What a dependence word describes

`Describes dep d` is the meaning of a word: a constant describes its distance, any other word the distances whose
sign is in its direction.

* `describes_negate`, `describes_union` : negation and union over-approximate, on every built word;
* `describes_setDistance_iff` : `DEP_SetDistance` describes its argument down to `-2048` only, since the branch for
  smaller distances saturates to `MAX_BOUND` and so to direction `+`;
* `distanceBound_iff` : `DEP_DistanceBound` is a lower bound unless its subtraction wraps;
* `dep_approximates_iff` : all of it together.
-/

namespace Path64.Dvector

/-- The sign of `d` is in a direction set. -/
def HasSign (direction : BitVec 3) (d : Int) : Prop := direction &&& (signOf d).bits ≠ 0#3

instance (direction : BitVec 3) (d : Int) : Decidable (HasSign direction d) :=
  inferInstanceAs (Decidable (_ ≠ _))

/-- The distances a word stands for. -/
def Describes (dep : Dep) (d : Int) : Prop :=
  if depIsDistance dep then depDistance dep = d else HasSign (depDirection dep) d

instance (dep : Dep) (d : Int) : Decidable (Describes dep d) :=
  inferInstanceAs (Decidable (if depIsDistance dep then depDistance dep = d else HasSign (depDirection dep) d))

/-- `DEP_DistanceBound` is zero or a lower bound of what the word describes. -/
def BoundHolds (dep : Dep) : Prop :=
  ∀ d, Describes dep d → depDistanceBound dep ≠ 0 → (depDistanceBound dep : Int) ≤ |d|

/-! ## Words by kind -/

theorem describes_const {d : Int} (h : Fits d) (x : Int) : Describes (depSetDistance d) x ↔ d = x := by
  unfold Describes
  rw [if_pos h.isDistance, h.distance]

theorem describes_open {dep : Dep} (h : dep ∈ openWords) (x : Int) :
    Describes dep x ↔ HasSign (depDirection dep) x := by
  have hflag : depIsDistance dep = false := by
    rcases mem_openWords h with rfl | rfl | rfl | rfl | rfl | rfl | rfl <;> rfl
  unfold Describes
  rw [hflag, if_neg Bool.false_ne_true]

theorem exists_describes {dep : Dep} (h : Dep.Built dep) : ∃ x, Describes dep x := by
  rcases h.cases with ⟨c, hc, rfl⟩ | hw
  · exact ⟨c, (describes_const hc c).2 rfl⟩
  · rcases mem_openWords hw with rfl | rfl | rfl | rfl | rfl | rfl | rfl
    exacts [⟨1, by decide⟩, ⟨1, by decide⟩, ⟨-1, by decide⟩, ⟨1, by decide⟩, ⟨1, by decide⟩, ⟨-1, by decide⟩, ⟨1, by decide⟩]

theorem hasSign_saturated (d : Int) : HasSign (depDirection saturated) d ↔ 0 < d := by
  unfold HasSign
  rcases signOf_cases d with ⟨hd, hs⟩ | ⟨hd, hs⟩ | ⟨hd, hs⟩ <;> rw [hs]
  · exact iff_of_true (by decide) hd
  · exact iff_of_false (by decide) (by omega)
  · exact iff_of_false (by decide) (by omega)

/-! ## The constructors -/

theorem describes_setDistance_iff (d : Int) : Describes (depSetDistance d) d ↔ minDistance ≤ d := by
  by_cases hd : Fits d
  · exact iff_of_true ((describes_const hd d).mpr rfl) hd.min
  · rw [depSetDistance_of_not_fits hd, describes_open (by decide), hasSign_saturated]
    constructor
    · intro hpos
      unfold minDistance
      omega
    · intro hmin
      have hmax : maxDistance < d := by
        by_contra hmax
        exact hd ⟨hmin, not_lt.mp hmax⟩
      unfold maxDistance at hmax
      omega

theorem signOf_neg (d : Int) :
    signOf (-d) = match signOf d with | .pos => .neg | .neg => .pos | s => s := by
  unfold signOf
  split_ifs <;> first | rfl | omega

theorem hasSign_negate {dep : Dep} (h : dep ∈ openWords) {d : Int} (hd : HasSign (depDirection dep) d) :
    HasSign (depDirection (depNegate dep)) (-d) := by
  unfold HasSign at hd ⊢
  rw [signOf_neg]
  rcases signOf_cases d with ⟨-, hs⟩ | ⟨-, hs⟩ | ⟨-, hs⟩ <;> rw [hs] at hd ⊢ <;>
    rcases mem_openWords h with rfl | rfl | rfl | rfl | rfl | rfl | rfl <;> revert hd <;> decide

/-- Negation over-approximates. -/
theorem describes_negate {dep : Dep} (h : Dep.Built dep) {d : Int} (hd : Describes dep d) :
    Describes (depNegate dep) (-d) := by
  rcases h.cases with ⟨c, hc, rfl⟩ | hw
  · rw [describes_const hc] at hd
    subst hd
    rw [depNegate_const hc]
    -- `-2048` has no constant of the other sign: its negation saturates, to the right direction
    apply (describes_setDistance_iff (-c)).mpr
    have hmax := hc.max
    unfold maxDistance at hmax
    unfold minDistance
    omega
  · rw [describes_open hw] at hd
    rw [describes_open (depNegate_open dep hw)]
    exact hasSign_negate hw hd

theorem depDirection_union_sign (s dir : Direction) (hs : s = .pos ∨ s = .neg ∨ s = .eq) :
    depDirection (depUnionDirection (depSetDir distanceFlag s) dir) = s.bits ||| dir.bits := by
  rcases hs with rfl | rfl | rfl <;> cases dir <;> decide

theorem depDirection_union_open {dep : Dep} (h : dep ∈ openWords) (dir : Direction) :
    depDirection (depUnionDirection dep dir) = depDirection dep ||| dir.bits := by
  rcases mem_openWords h with rfl | rfl | rfl | rfl | rfl | rfl | rfl <;> cases dir <;> decide

theorem hasSign_or (a b : BitVec 3) (d : Int) : HasSign (a ||| b) d ↔ HasSign a d ∨ HasSign b d := by
  unfold HasSign
  rcases signOf_mem d with hs | hs | hs <;> rw [hs] <;> revert a b <;> decide

theorem hasSign_own (d : Int) : HasSign (signOf d).bits d := by
  unfold HasSign
  rcases signOf_mem d with hs | hs | hs <;> rw [hs] <;> decide

theorem describes_setDirection {dir : Direction} (h : dir ≠ .eq) (x : Int) :
    Describes (depSetDirection dir) x ↔ HasSign dir.bits x := by
  rw [describes_open (depSetDirection_open dir h)]
  cases dir <;> rfl

theorem hasSign_iff (dir : Direction) (x : Int) : HasSign dir.bits x ↔
    match dir with
    | .pos => 0 < x
    | .neg => x < 0
    | .posneg => x ≠ 0
    | .eq => x = 0
    | .poseq => 0 ≤ x
    | .negeq => x ≤ 0
    | .star => True := by
  unfold HasSign
  rcases signOf_cases x with ⟨hx, hs⟩ | ⟨hx, hs⟩ | ⟨hx, hs⟩ <;> rw [hs] <;> cases dir <;>
    first
      | exact iff_of_true (by decide) (by first | trivial | omega)
      | exact iff_of_false (by decide) (by omega)

/-- The direction of a built word is one of the seven. -/
theorem Dep.Built.direction {dep : Dep} (h : Dep.Built dep) : ∃ dir : Direction, depDirection dep = dir.bits := by
  rcases h.cases with ⟨c, hc, rfl⟩ | hw
  · exact ⟨_, hc.direction⟩
  · rcases mem_openWords hw with rfl | rfl | rfl | rfl | rfl | rfl | rfl
    exacts [⟨.pos, rfl⟩, ⟨.pos, rfl⟩, ⟨.neg, rfl⟩, ⟨.posneg, rfl⟩, ⟨.poseq, rfl⟩, ⟨.negeq, rfl⟩, ⟨.star, rfl⟩]

/-- Union over-approximates both arguments. -/
theorem describes_union {dep : Dep} (h : Dep.Built dep) {dir : Direction} {d : Int}
    (hd : Describes dep d ∨ HasSign dir.bits d) : Describes (depUnionDirection dep dir) d := by
  rcases h.cases with ⟨c, hc, rfl⟩ | hw
  · rw [depUnionDirection_const hc]
    split_ifs with heq
    · obtain ⟨hc0, rfl⟩ := heq
      rw [describes_const hc] at hd ⊢
      rcases hd with hd | hd
      · exact hd
      · have hzero : ∀ e : Int, HasSign Direction.eq.bits e → e = 0 := by
          intro e he
          unfold HasSign at he
          rcases signOf_cases e with ⟨-, hs⟩ | ⟨-, hs⟩ | ⟨h0, -⟩
          · exact absurd he (by rw [hs]; decide)
          · exact absurd he (by rw [hs]; decide)
          · exact h0
        rw [hzero d hd]
        exact hzero c (hc0 ▸ hasSign_own c)
    · rw [describes_open (depUnionDirection_sign_mem _ _ (signOf_mem c) heq),
        depDirection_union_sign _ _ (signOf_mem c), hasSign_or]
      rw [describes_const hc] at hd
      rcases hd with rfl | hd
      · exact Or.inl (hasSign_own c)
      · exact Or.inr hd
  · rw [describes_open hw] at hd
    rw [describes_open (depUnionDirection_open dep hw dir), depDirection_union_open hw, hasSign_or]
    exact hd

/-! ## The bound -/

theorem depDistanceBound_of_le {dep : Dep} (h : 2048 ≤ (dep &&& distanceMask).toNat) :
    (depDistanceBound dep : Int) = (dep &&& distanceMask).toNat - 2048 := by
  have hlt : (dep &&& distanceMask).toNat < 2 ^ 16 := (dep &&& distanceMask).isLt
  unfold depDistanceBound distanceOffset
  omega

theorem depDistanceBound_of_lt {dep : Dep} (h : (dep &&& distanceMask).toNat < 2048) :
    2 ^ 32 - 2048 ≤ depDistanceBound dep := by
  unfold depDistanceBound distanceOffset
  omega

theorem boundHolds_open {dep : Dep} (h : dep ∈ openWords) (hw : 2048 ≤ (dep &&& distanceMask).toNat) :
    BoundHolds dep := by
  intro d hd hne
  rw [describes_open h] at hd
  unfold HasSign at hd
  have habs : depDistanceBound dep = 1 → signOf d ≠ .eq → (depDistanceBound dep : Int) ≤ |d| := by
    intro hb hs
    rw [hb]
    rcases signOf_cases d with ⟨h0, -⟩ | ⟨h0, -⟩ | ⟨-, h0⟩
    · rw [abs_of_pos h0]; omega
    · rw [abs_of_neg h0]; omega
    · exact absurd h0 hs
  rcases mem_openWords h with rfl | rfl | rfl | rfl | rfl | rfl | rfl
  · exact absurd hw (by decide)
  · exact habs (by decide) (fun hs => hd (by rw [hs]; decide +kernel))
  · exact habs (by decide) (fun hs => hd (by rw [hs]; decide +kernel))
  all_goals exact absurd (by decide) hne

theorem not_boundHolds_saturated : ¬ BoundHolds saturated := by
  intro h
  have h1 := h 1 (by decide) (by decide +kernel)
  exact absurd h1 (by decide)

/-- The bound is one exactly when the `UINT32` subtraction of the offset does not wrap. -/
theorem distanceBound_iff {dep : Dep} (h : Dep.Built dep) :
    BoundHolds dep ↔ 2048 ≤ (dep &&& distanceMask).toNat := by
  rcases h.cases with ⟨c, hc, rfl⟩ | hw
  · have hlow := hc.low
    constructor
    · intro hb
      by_contra hlt
      have hlt := not_le.mp hlt
      have hbig := depDistanceBound_of_lt hlt
      have hle := hb c ((describes_const hc c).mpr rfl) (by omega)
      rw [abs_of_neg (by omega)] at hle
      have hmin := hc.min
      unfold minDistance at hmin
      omega
    · intro hle d hd _
      rw [describes_const hc] at hd
      subst hd
      have hb := depDistanceBound_of_le hle
      rw [abs_of_nonneg (by omega)]
      omega
  · constructor
    · intro hb
      rcases mem_openWords hw with rfl | rfl | rfl | rfl | rfl | rfl | rfl
      · exact absurd hb not_boundHolds_saturated
      all_goals decide
    · exact boundHolds_open hw

/-! ## All together -/

/-- The representation over-approximates, except for distances below `-2048` and for bounds whose offset wraps. -/
theorem dep_approximates_iff (dist : Int) (dep : Dep) (h : Dep.Built dep) :
    (Describes (depSetDistance dist) dist ↔ minDistance ≤ dist) ∧
    (∀ d, Describes dep d → Describes (depNegate dep) (-d)) ∧
    (∀ dir d, Describes dep d ∨ HasSign dir.bits d → Describes (depUnionDirection dep dir) d) ∧
    (BoundHolds dep ↔ 2048 ≤ (dep &&& distanceMask).toNat) := by
  refine ⟨describes_setDistance_iff dist, fun d hd => describes_negate h hd, ?_, distanceBound_iff h⟩
  intro dir d hd
  exact describes_union h hd

/-- `5` as a constant distance. -/
theorem dep_approximates_iff_five :
    Describes (depSetDistance 5) 5 ∧ Describes (depNegate (depSetDistance 5)) (-5) ∧ BoundHolds (depSetDistance 5) := by
  obtain ⟨hdist, hneg, -, hbound⟩ := dep_approximates_iff 5 (depSetDistance 5) (.setDistance 5)
  have hd : Describes (depSetDistance 5) 5 := hdist.mpr (by decide)
  exact ⟨hd, hneg 5 hd, hbound.mpr (by decide)⟩

/-- `-3000` is stored as a positive direction, and `3000` and `-5` get the bounds `2^32 - 1` and `2^32 - 5`. -/
theorem dep_approximates_fails :
    ¬ Describes (depSetDistance (-3000)) (-3000) ∧
    ¬ BoundHolds (depSetDistance 3000) ∧ ¬ BoundHolds (depSetDistance (-5)) := by
  refine ⟨by decide, fun h => ?_, fun h => ?_⟩
  · exact absurd (h 3000 (by decide) (by decide +kernel)) (by decide +kernel)
  · exact absurd (h (-5) (by decide) (by decide +kernel)) (by decide +kernel)

end Path64.Dvector

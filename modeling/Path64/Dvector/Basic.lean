import Mathlib

/-!
# Dependence words: `DEP`, its layout and its constructors

A `DEP` is a 16-bit word (`dvector.h`): bit 15 says that the distance is a constant, bits 12 to 14 hold the
direction, bits 0 to 11 the distance plus `2048`.

* `Direction` : the seven enumerators; `Direction.bits` their values;
* `depIsDistance`, `depDistance`, `depDistanceBound`, `depDirection` : the readers;
* `depSetDistance`, `depSetDirection`, `depUnionDirection`, `depNegate` : the exported constructors;
* `Dep.Built` : the words these constructors can make, `Dep.Built.cases` : all of them;
* `depSetDistance_fields` : what the readers return of a distance that fits.
-/

namespace Path64.Dvector

/-- `DIRECTION`. -/
inductive Direction where
  | pos | neg | posneg | eq | poseq | negeq | star
  deriving DecidableEq, Repr

/-- The enumerators' values: one bit for each of `+`, `-`, `=`. -/
def Direction.bits : Direction → BitVec 3
  | .pos => 1#3
  | .neg => 2#3
  | .posneg => 3#3
  | .eq => 4#3
  | .poseq => 5#3
  | .negeq => 6#3
  | .star => 7#3

/-- `DEP`, a 16-bit quantity. -/
abbrev Dep := BitVec 16

def distanceFlag : Dep := 0x8000#16
def distanceMask : Dep := 0x0FFF#16
def distanceOffset : Int := 2048
def directionMask : Dep := 0x7000#16
def maxBound : Int := 4095
def maxDistance : Int := 2047
def minDistance : Int := -2048

/-! ## Readers -/

/-- `DEP_IsDistance`. -/
def depIsDistance (dep : Dep) : Bool := dep &&& distanceFlag != 0#16

/-- `DEP_Distance`. -/
def depDistance (dep : Dep) : Int := ((dep &&& distanceMask).toNat : Int) - distanceOffset

/-- `DEP_DistanceBound`: the same field, the subtraction in `UINT32`. -/
def depDistanceBound (dep : Dep) : Nat := ((((dep &&& distanceMask).toNat : Int) - distanceOffset) % 2 ^ 32).toNat

/-- `DEP_Direction`. -/
def depDirection (dep : Dep) : BitVec 3 := ((dep &&& directionMask) >>> 12).setWidth 3

/-! ## Private setters -/

/-- `DEP_MAKE_DIST_CONST_PRIVATE`. -/
def depMakeDistConst (dep : Dep) : Dep := dep ||| distanceFlag

/-- `DEP_MAKE_DIST_NON_CONST_PRIVATE`. -/
def depMakeDistNonConst (dep : Dep) : Dep := dep &&& ~~~distanceFlag

/-- `DEP_SET_DIR_PRIVATE`. -/
def depSetDir (dep : Dep) (direction : Direction) : Dep :=
  (dep &&& ~~~directionMask) ||| (direction.bits.setWidth 16 <<< 12)

/-- `DEP_SET_DIST_PRIVATE`: nothing masks the new distance, a value above `2047` spills into the direction. -/
def depSetDist (dep : Dep) (distance : Int) : Dep :=
  (dep &&& ~~~distanceMask) ||| BitVec.ofInt 16 (distance + distanceOffset)

/-! ## Exported constructors -/

/-- `DEP_SetDistance`. Both out-of-range branches put `MAX_BOUND` into `distance` before the direction is chosen. -/
def depSetDistance (distance : Int) : Dep :=
  let (dep, distance) :=
    if distance > maxDistance then (depMakeDistNonConst 0#16, maxBound)
    else if distance < minDistance then (depMakeDistNonConst 0#16, maxBound)
    else (depMakeDistConst 0#16, distance)
  let dep :=
    if distance > 0 then depSetDir dep .pos
    else if distance < 0 then depSetDir dep .neg
    else depSetDir dep .eq
  depSetDist dep distance

/-- `DEP_SetDirection`. -/
def depSetDirection (direction : Direction) : Dep :=
  if direction = .eq then depSetDistance 0
  else
    let dep := depSetDir (depMakeDistNonConst 0#16) direction
    if direction = .pos then depSetDist dep 1
    else if direction = .neg then depSetDist dep 1
    else depSetDist dep 0

/-- `DEP_UnionDirection`. -/
def depUnionDirection (dep : Dep) (direction : Direction) : Dep :=
  if depDirection dep = direction.bits then
    if direction ≠ .eq then
      let dep := depMakeDistNonConst dep
      if direction = .pos then depSetDist dep 1
      else if direction = .neg then depSetDist dep 1
      else depSetDist dep 0
    else dep
  else
    let dep := depMakeDistNonConst dep
    let dep := dep ||| (direction.bits.setWidth 16 <<< 12)
    depSetDist dep 0

/-- `DEP_Negate`. -/
def depNegate (dep : Dep) : Dep :=
  if depIsDistance dep then depSetDistance (-depDistance dep)
  else
    let tmp := depMakeDistNonConst 0#16
    if depDirection dep = Direction.pos.bits then depSetDist (depSetDir tmp .neg) 1
    else if depDirection dep = Direction.neg.bits then depSetDist (depSetDir tmp .pos) 1
    else if depDirection dep = Direction.poseq.bits then depSetDist (depSetDir tmp .negeq) 0
    else if depDirection dep = Direction.negeq.bits then depSetDist (depSetDir tmp .poseq) 0
    else dep

/-- The words the exported constructors make. -/
inductive Dep.Built : Dep → Prop
  | setDistance (d : Int) : Dep.Built (depSetDistance d)
  | setDirection (dir : Direction) : Dep.Built (depSetDirection dir)
  | unionDirection {dep : Dep} (dir : Direction) : Dep.Built dep → Dep.Built (depUnionDirection dep dir)
  | negate {dep : Dep} : Dep.Built dep → Dep.Built (depNegate dep)

/-! ## The distance field and what lies above it -/

/-- A distance that fits is stored as a constant. -/
structure Fits (d : Int) : Prop where
  min : minDistance ≤ d
  max : d ≤ maxDistance

theorem Fits.field {d : Int} (h : Fits d) : ∃ k : Nat, k < 4096 ∧ d = (k : Int) - 2048 := by
  have hmin := h.min
  have hmax := h.max
  unfold minDistance at hmin
  unfold maxDistance at hmax
  exact ⟨(d + 2048).toNat, by omega, by omega⟩

theorem low_field {k : Nat} (hk : k < 4096) : BitVec.ofNat 16 k &&& distanceMask = BitVec.ofNat 16 k := by
  apply BitVec.eq_of_toNat_eq
  rw [BitVec.toNat_and, BitVec.toNat_ofNat, Nat.mod_eq_of_lt (by omega)]
  exact (Nat.and_two_pow_sub_one_eq_mod k 12).trans (Nat.mod_eq_of_lt hk)

theorem low_of_or (w : Dep) {f : Dep} (hf : f &&& distanceMask = f) :
    (w &&& ~~~distanceMask ||| f) &&& distanceMask = f := by
  apply BitVec.eq_of_getLsbD_eq
  intro i _
  have hi := congrArg (fun v : Dep => v.getLsbD i) hf
  simp only [BitVec.getLsbD_and] at hi
  simp only [BitVec.getLsbD_and, BitVec.getLsbD_or, BitVec.getLsbD_not]
  cases hm : distanceMask.getLsbD i <;> cases hw : w.getLsbD i <;> cases hff : f.getLsbD i <;> simp_all

theorem high_of_or (w : Dep) {f : Dep} (hf : f &&& distanceMask = f) :
    (w &&& ~~~distanceMask ||| f) &&& ~~~distanceMask = w &&& ~~~distanceMask := by
  apply BitVec.eq_of_getLsbD_eq
  intro i _
  have hi := congrArg (fun v : Dep => v.getLsbD i) hf
  simp only [BitVec.getLsbD_and] at hi
  simp only [BitVec.getLsbD_and, BitVec.getLsbD_or, BitVec.getLsbD_not]
  cases hm : distanceMask.getLsbD i <;> cases hw : w.getLsbD i <;> cases hff : f.getLsbD i <;> simp_all

theorem ofInt_field (k : Nat) : BitVec.ofInt 16 ((k : Int) - 2048 + distanceOffset) = BitVec.ofNat 16 k := by
  have h : (k : Int) - 2048 + distanceOffset = (k : Int) := by
    unfold distanceOffset
    omega
  rw [h, BitVec.ofInt_natCast]

theorem depSetDist_low (w : Dep) {d : Int} (h : Fits d) :
    ((depSetDist w d &&& distanceMask).toNat : Int) = d + 2048 := by
  obtain ⟨k, hk, rfl⟩ := h.field
  unfold depSetDist
  rw [ofInt_field, low_of_or w (low_field hk), BitVec.toNat_ofNat, Nat.mod_eq_of_lt (by omega)]
  omega

theorem depSetDist_high (w : Dep) {d : Int} (h : Fits d) :
    depSetDist w d &&& ~~~distanceMask = w &&& ~~~distanceMask := by
  obtain ⟨k, hk, rfl⟩ := h.field
  unfold depSetDist
  rw [ofInt_field, high_of_or w (low_field hk)]

theorem depSetDist_congr {w w' : Dep} (h : w &&& ~~~distanceMask = w' &&& ~~~distanceMask) (d : Int) :
    depSetDist w d = depSetDist w' d := by
  unfold depSetDist
  rw [h]

theorem depDirection_high (w : Dep) : depDirection (w &&& ~~~distanceMask) = depDirection w := by
  have h : w &&& ~~~distanceMask &&& directionMask = w &&& directionMask := by
    rw [BitVec.and_assoc]
    rfl
  unfold depDirection
  rw [h]

theorem depIsDistance_high (w : Dep) : depIsDistance (w &&& ~~~distanceMask) = depIsDistance w := by
  have h : w &&& ~~~distanceMask &&& distanceFlag = w &&& distanceFlag := by
    rw [BitVec.and_assoc]
    rfl
  unfold depIsDistance
  rw [h]

/-! ## The fields of `DEP_SetDistance` -/

/-- The direction of a distance. -/
def signOf (d : Int) : Direction := if d > 0 then .pos else if d < 0 then .neg else .eq

theorem signOf_cases (d : Int) :
    (0 < d ∧ signOf d = .pos) ∨ (d < 0 ∧ signOf d = .neg) ∨ (d = 0 ∧ signOf d = .eq) := by
  unfold signOf
  split_ifs with h1 h2
  · exact Or.inl ⟨h1, rfl⟩
  · exact Or.inr (Or.inl ⟨h2, rfl⟩)
  · exact Or.inr (Or.inr ⟨by omega, rfl⟩)

theorem depSetDistance_of_fits {d : Int} (h : Fits d) :
    depSetDistance d = depSetDist (depSetDir distanceFlag (signOf d)) d := by
  have hconst : depMakeDistConst 0#16 = distanceFlag := by decide
  simp only [depSetDistance, signOf, if_neg (not_lt.mpr h.max), if_neg (not_lt.mpr h.min), hconst]
  split_ifs <;> rfl

theorem Fits.high {d : Int} (h : Fits d) :
    depSetDistance d &&& ~~~distanceMask = depSetDir distanceFlag (signOf d) := by
  rw [depSetDistance_of_fits h, depSetDist_high _ h]
  rcases signOf_cases d with ⟨-, hs⟩ | ⟨-, hs⟩ | ⟨-, hs⟩ <;> rw [hs] <;> rfl

theorem Fits.isDistance {d : Int} (h : Fits d) : depIsDistance (depSetDistance d) = true := by
  rw [← depIsDistance_high, h.high]
  rcases signOf_cases d with ⟨-, hs⟩ | ⟨-, hs⟩ | ⟨-, hs⟩ <;> rw [hs] <;> rfl

theorem Fits.direction {d : Int} (h : Fits d) : depDirection (depSetDistance d) = (signOf d).bits := by
  rw [← depDirection_high, h.high]
  rcases signOf_cases d with ⟨-, hs⟩ | ⟨-, hs⟩ | ⟨-, hs⟩ <;> rw [hs] <;> rfl

theorem Fits.low {d : Int} (h : Fits d) : ((depSetDistance d &&& distanceMask).toNat : Int) = d + 2048 := by
  rw [depSetDistance_of_fits h, depSetDist_low _ h]

theorem Fits.distance {d : Int} (h : Fits d) : depDistance (depSetDistance d) = d := by
  unfold depDistance distanceOffset
  rw [h.low]
  omega

/-- The word of every distance that does not fit: not constant, direction `+`, distance field `0x7FF`. -/
def saturated : Dep := 0x17FF#16

theorem depSetDistance_of_not_fits {d : Int} (h : ¬ Fits d) : depSetDistance d = saturated := by
  by_cases hmax : d > maxDistance
  · simp only [depSetDistance, if_pos hmax]
    decide
  · have hmin : d < minDistance := by
      by_contra hmin
      exact h ⟨not_lt.mp hmin, not_lt.mp hmax⟩
    simp only [depSetDistance, if_neg hmax, if_pos hmin]
    decide

/-! ## All built words -/

/-- The built words that are not constant distances. -/
def openWords : List Dep :=
  [saturated, 0x1801#16, 0x2801#16, 0x3800#16, 0x5800#16, 0x6800#16, 0x7800#16]

theorem high_nonConst (w : Dep) :
    depMakeDistNonConst (w &&& ~~~distanceMask) &&& ~~~distanceMask =
      depMakeDistNonConst w &&& ~~~distanceMask := by
  unfold depMakeDistNonConst
  apply BitVec.eq_of_getLsbD_eq
  intro i _
  simp only [BitVec.getLsbD_and]
  cases w.getLsbD i <;> cases (~~~distanceMask).getLsbD i <;> simp

theorem high_nonConst_or (w x : Dep) :
    (depMakeDistNonConst (w &&& ~~~distanceMask) ||| x) &&& ~~~distanceMask =
      (depMakeDistNonConst w ||| x) &&& ~~~distanceMask := by
  unfold depMakeDistNonConst
  apply BitVec.eq_of_getLsbD_eq
  intro i _
  simp only [BitVec.getLsbD_and, BitVec.getLsbD_or]
  cases w.getLsbD i <;> cases x.getLsbD i <;> cases (~~~distanceMask).getLsbD i <;> simp

theorem depUnionDirection_high (w : Dep) (dir : Direction) (h : ¬ (depDirection w = dir.bits ∧ dir = .eq)) :
    depUnionDirection w dir = depUnionDirection (w &&& ~~~distanceMask) dir := by
  have hset := depSetDist_congr (high_nonConst w)
  have hor := depSetDist_congr (high_nonConst_or w (dir.bits.setWidth 16 <<< 12))
  unfold depUnionDirection
  rw [depDirection_high]
  by_cases hd : depDirection w = dir.bits
  · have hne : dir ≠ .eq := fun he => h ⟨hd, he⟩
    simp only [if_pos hd, if_pos hne, hset]
  · simp only [if_neg hd, hor]

theorem depUnionDirection_const {d : Int} (h : Fits d) (dir : Direction) :
    depUnionDirection (depSetDistance d) dir =
      if signOf d = .eq ∧ dir = .eq then depSetDistance d
      else depUnionDirection (depSetDir distanceFlag (signOf d)) dir := by
  split_ifs with heq
  · obtain ⟨hd, rfl⟩ := heq
    unfold depUnionDirection
    rw [h.direction, hd, if_pos rfl, if_neg (by simp)]
  · rw [← h.high]
    apply depUnionDirection_high
    rw [h.direction]
    rintro ⟨hb, rfl⟩
    rcases signOf_cases d with ⟨-, hs⟩ | ⟨-, hs⟩ | ⟨-, hs⟩
    · rw [hs] at hb
      exact absurd hb (by decide)
    · rw [hs] at hb
      exact absurd hb (by decide)
    · exact heq ⟨hs, rfl⟩

theorem depUnionDirection_sign_mem (s dir : Direction) (hs : s = .pos ∨ s = .neg ∨ s = .eq)
    (h : ¬ (s = .eq ∧ dir = .eq)) : depUnionDirection (depSetDir distanceFlag s) dir ∈ openWords := by
  rcases hs with rfl | rfl | rfl <;> cases dir <;> first | decide | exact absurd ⟨rfl, rfl⟩ h

theorem mem_openWords {dep : Dep} (h : dep ∈ openWords) :
    dep = 0x17FF#16 ∨ dep = 0x1801#16 ∨ dep = 0x2801#16 ∨ dep = 0x3800#16 ∨ dep = 0x5800#16 ∨ dep = 0x6800#16 ∨
      dep = 0x7800#16 := by
  simpa only [openWords, saturated, List.mem_cons, List.not_mem_nil, or_false] using h

theorem depUnionDirection_open (dep : Dep) (h : dep ∈ openWords) (dir : Direction) :
    depUnionDirection dep dir ∈ openWords := by
  rcases mem_openWords h with rfl | rfl | rfl | rfl | rfl | rfl | rfl <;> cases dir <;> decide

theorem depNegate_open (dep : Dep) (h : dep ∈ openWords) : depNegate dep ∈ openWords := by
  rcases mem_openWords h with rfl | rfl | rfl | rfl | rfl | rfl | rfl <;> decide

theorem depNegate_const {d : Int} (h : Fits d) : depNegate (depSetDistance d) = depSetDistance (-d) := by
  unfold depNegate
  rw [if_pos h.isDistance, h.distance]

theorem signOf_mem (d : Int) : signOf d = .pos ∨ signOf d = .neg ∨ signOf d = .eq := by
  rcases signOf_cases d with ⟨-, hs⟩ | ⟨-, hs⟩ | ⟨-, hs⟩
  · exact Or.inl hs
  · exact Or.inr (Or.inl hs)
  · exact Or.inr (Or.inr hs)

theorem depSetDirection_eq : depSetDirection .eq = depSetDistance 0 := if_pos rfl

theorem depSetDirection_open (dir : Direction) (h : dir ≠ .eq) : depSetDirection dir ∈ openWords := by
  cases dir <;> first | decide | exact absurd rfl h

/-- Every built word is a constant distance or one of seven open words. -/
theorem Dep.Built.cases {dep : Dep} (h : Dep.Built dep) :
    (∃ d, Fits d ∧ dep = depSetDistance d) ∨ dep ∈ openWords := by
  have hdist : ∀ d, (∃ d', Fits d' ∧ depSetDistance d = depSetDistance d') ∨ depSetDistance d ∈ openWords := by
    intro d
    by_cases hd : Fits d
    · exact Or.inl ⟨d, hd, rfl⟩
    · rw [depSetDistance_of_not_fits hd]
      exact Or.inr (by decide)
  induction h with
  | setDistance d => exact hdist d
  | setDirection dir =>
    by_cases heq : dir = .eq
    · rw [heq, depSetDirection_eq]
      exact hdist 0
    · exact Or.inr (depSetDirection_open dir heq)
  | unionDirection dir _ ih =>
    rcases ih with ⟨d, hd, rfl⟩ | hw
    · rw [depUnionDirection_const hd]
      split_ifs with heq
      · exact Or.inl ⟨d, hd, rfl⟩
      · exact Or.inr (depUnionDirection_sign_mem _ _ (signOf_mem d) heq)
    · exact Or.inr (depUnionDirection_open _ hw dir)
  | negate _ ih =>
    rcases ih with ⟨d, hd, rfl⟩ | hw
    · rw [depNegate_const hd]
      exact hdist (-d)
    · exact Or.inr (depNegate_open _ hw)

end Path64.Dvector

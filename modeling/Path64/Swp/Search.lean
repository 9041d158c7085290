import Path64.Lib.Wrap
import Mathlib.Logic.Relation
import Mathlib.Algebra.Order.Ring.Int
import Mathlib.Tactic.Ring
import Mathlib.Tactic.SplitIfs

/-!
# The search for the initiation interval

The loop of `SWP_DRIVER::Perform_SWP` that looks for an interval at which the scheduler succeeds: one interval after
the other, then in growing steps, then between the last two bounds.

* `IiSearch`, `turn`, `step` : the variables of the loop, one turn of its body and one of the loop;
* `Correct` : what the search is for;
* `Inv`, `step_inv` : what holds at the head of the loop, as long as no bound is read before it is set and no `INT`
  overflows;
* `correct_iff` : the searches that are correct.
-/

namespace Path64.Swp
open Relation

/-! ## The loop -/

/-- `SWP_SEARCH_PHASE`. -/
inductive SearchPhase
  | linear
  | exponential
  | binary
  deriving DecidableEq, Repr

/-- The values of `SWP_RETURN_CODE` that the loop stores. -/
inductive StatusCode
  | successful
  | schedulingFailed
  | registerFailed
  deriving DecidableEq, Repr

/-- `min_ii`, `max_ii` and the option `Linear_Search_Limit`. -/
structure IiRange where
  minIi : Int
  maxIi : Int
  linearSearchLimit : Int
  deriving DecidableEq, Repr

/-- The variables of the loop. The bounds are not set at first. -/
structure IiSearch where
  searchPhase : SearchPhase
  iiIncr : Int
  curIi : Int
  lowerBound : Option Int
  upperBound : Option Int
  statusCode : StatusCode
  deriving DecidableEq, Repr

section
variable (o : IiRange) (succeeds allocates : Int → Bool)

/-- The variables before the loop. -/
def startSearch : IiSearch := ⟨.linear, 0, o.minIi, none, none, .successful⟩

/-- `(upper_bound - lower_bound) / 2 + lower_bound - min_ii`. -/
def halfway (lower upper : Int) : Int := wrap32 (wrap32 ((wrap32 (upper - lower)).tdiv 2 + lower) - o.minIi)

/-- What follows a schedule that was found: the registers are allocated, or this fails. -/
def found (s : IiSearch) : IiSearch :=
  { s with statusCode := if allocates s.curIi then .successful else .registerFailed }

/-- The body of the loop; `none` when it reads a bound that is not set. -/
def turn (s : IiSearch) : Option IiSearch :=
  match s.searchPhase with
  | .linear =>
    if !succeeds s.curIi then
      let iiIncr := wrap32 (s.iiIncr + 1)
      let searchPhase := if o.linearSearchLimit ≤ iiIncr then .exponential else s.searchPhase
      some { s with statusCode := .schedulingFailed, iiIncr, searchPhase, curIi := wrap32 (o.minIi + iiIncr) }
    else some (found allocates s)
  | .exponential =>
    if !succeeds s.curIi then
      let iiIncr := if s.iiIncr = 0 then 1 else wrap32 (s.iiIncr * 2)
      let iiIncr := if s.curIi ≠ o.maxIi ∧ o.maxIi < wrap32 (o.minIi + iiIncr) then wrap32 (o.maxIi - o.minIi) else iiIncr
      some { s with lowerBound := some s.curIi, iiIncr, curIi := wrap32 (o.minIi + iiIncr) }
    else if s.iiIncr ≤ 2 then some (found allocates s)
    else do
      let lower ← s.lowerBound
      let upper := wrap32 (s.curIi + 1)
      let iiIncr := halfway o lower upper
      some { s with upperBound := some upper, iiIncr, searchPhase := .binary, curIi := wrap32 (o.minIi + iiIncr) }
  | .binary =>
    if !succeeds s.curIi then do
      let upper ← s.upperBound
      let iiIncr := halfway o s.curIi upper
      some { s with lowerBound := some s.curIi, iiIncr, curIi := wrap32 (o.minIi + iiIncr) }
    else do
      let lower ← s.lowerBound
      let upper := wrap32 (s.curIi + 1)
      let iiIncr := halfway o lower upper
      let s := { s with upperBound := some upper, iiIncr }
      if wrap32 (upper - lower) = 2 then some (found allocates s)
      else some { s with curIi := wrap32 (o.minIi + iiIncr) }

/-- How a turn of the loop ends. -/
inductive Outcome
  /-- The loop goes on. -/
  | running (s : IiSearch)
  /-- `break`. -/
  | stopped (s : IiSearch)
  /-- The condition of the loop is false. -/
  | gaveUp
  /-- A bound was read that is not set. -/
  | unset
  deriving DecidableEq, Repr

/-- One turn of the loop, which goes on while the status is that scheduling failed. -/
def step (s : IiSearch) : Outcome :=
  if s.curIi ≤ o.maxIi then
    match turn o succeeds allocates s with
    | none => .unset
    | some s' => if s'.statusCode = .schedulingFailed then .running s' else .stopped s'
  else .gaveUp

/-- Some turns of the loop. -/
def Reaches : IiSearch → IiSearch → Prop := ReflTransGen fun s s' => step o succeeds allocates s = .running s'

/-- At an interval at which scheduling succeeds it succeeds at every larger one. -/
def Monotone : Prop :=
  ∀ ii jj, o.minIi ≤ ii → ii ≤ jj → jj ≤ o.maxIi → succeeds ii = true → succeeds jj = true

/-! ## The search is correct -/

/-- What the search is for. -/
structure Correct : Prop where
  /-- It ends. -/
  terminates : ∃ s, Reaches o succeeds allocates (startSearch o) s ∧ ∀ s', step o succeeds allocates s ≠ .running s'
  /-- Only intervals of the range are tried. -/
  tries : ∀ s, Reaches o succeeds allocates (startSearch o) s → s.curIi ≤ o.maxIi → o.minIi ≤ s.curIi
  /-- No bound is read that is not set. -/
  bounds : ∀ s, Reaches o succeeds allocates (startSearch o) s → step o succeeds allocates s ≠ .unset
  /-- The interval that is accepted is the one of this turn, and scheduling succeeded. -/
  accepts : ∀ s s', Reaches o succeeds allocates (startSearch o) s → step o succeeds allocates s = .stopped s' →
    s'.curIi = s.curIi ∧ succeeds s.curIi = true
  least : Monotone o succeeds → ∀ s s', Reaches o succeeds allocates (startSearch o) s →
    step o succeeds allocates s = .stopped s' → ∀ ii, o.minIi ≤ ii → ii < s'.curIi → succeeds ii = false
  givesUp : Monotone o succeeds → ∀ s, Reaches o succeeds allocates (startSearch o) s →
    step o succeeds allocates s = .gaveUp → succeeds o.maxIi = false

end

/-- The values that the options and the loop body allow. -/
structure IiRange.Valid (o : IiRange) : Prop where
  nonneg : 0 ≤ o.minIi
  le : o.minIi ≤ o.maxIi
  fits : o.maxIi < 2 ^ 31
  limit : 1 ≤ o.linearSearchLimit
  limitFits : o.linearSearchLimit < 2 ^ 31

/-- The increment of the turn `n` of the exponential phase. -/
def IiRange.increment (o : IiRange) (n : Nat) : Int := min (o.linearSearchLimit * 2 ^ n) (o.maxIi - o.minIi)

/-- The linear phase finds nothing. -/
def LinearFails (o : IiRange) (succeeds : Int → Bool) : Prop :=
  ∀ i, 0 ≤ i → i < o.linearSearchLimit → o.minIi + i ≤ o.maxIi → succeeds (o.minIi + i) = false

/-- The first interval of the exponential phase succeeds, more than two above the least one. -/
def ReadsUnset (o : IiRange) (succeeds : Int → Bool) : Prop :=
  LinearFails o succeeds ∧ o.minIi + o.linearSearchLimit ≤ o.maxIi ∧ 3 ≤ o.linearSearchLimit ∧
    succeeds (o.minIi + o.linearSearchLimit) = true

/-- An interval after one that fails is no `INT`. -/
def Overflows (o : IiRange) (succeeds : Int → Bool) : Prop :=
  LinearFails o succeeds ∧ (o.maxIi = 2 ^ 31 - 1 ∧ o.maxIi < o.minIi + o.linearSearchLimit ∨
    o.minIi + o.linearSearchLimit ≤ o.maxIi ∧ ∃ n, (∀ m ≤ n, succeeds (o.minIi + o.increment m) = false) ∧
      2 ^ 31 ≤ o.minIi + 2 * o.increment n)

/-! ## One turn -/

theorem wrap32_eq {x : Int} (h : -2 ^ 31 ≤ x) (h' : x < 2 ^ 31) : wrap32 x = x := wrap32_eq_iff.mpr ⟨h, h'⟩

/-- Past the greatest `INT` the values start over. -/
theorem wrap32_past {x : Int} (h : 2 ^ 31 ≤ x) (h' : x < 2 ^ 32) : wrap32 x = x - 2 ^ 32 := by
  have := Int.sub_bmod_right x (2 ^ 32)
  rw [wrap32, ← this]
  exact Int.bmod_eq_of_le (by omega) (by omega)

section
variable {o : IiRange} {succeeds : Int → Bool} (allocates : Int → Bool) {k : Int} {n : Nat} {l u : Int}
  {s s' : IiSearch} {lower : Option Int} {st : StatusCode}

theorem step_eq_running (hle : s.curIi ≤ o.maxIi) (h : turn o succeeds allocates s = some s')
    (hst : s'.statusCode = .schedulingFailed) : step o succeeds allocates s = .running s' := by
  rw [step, if_pos hle, h]
  exact if_pos hst

theorem found_ne (s : IiSearch) : (found allocates s).statusCode ≠ .schedulingFailed := by
  unfold found
  split_ifs <;> exact StatusCode.noConfusion

theorem step_eq_stopped (hle : s.curIi ≤ o.maxIi) (h : turn o succeeds allocates s = some (found allocates s')) :
    step o succeeds allocates s = .stopped (found allocates s') := by
  rw [step, if_pos hle, h]
  exact if_neg (found_ne allocates s')

theorem step_linear (st : StatusCode) (ho : o.Valid) (hk : 0 ≤ k) (hlt : k < o.linearSearchLimit) (hle : o.minIi + k ≤ o.maxIi)
    (hfail : succeeds (o.minIi + k) = false) :
    step o succeeds allocates ⟨.linear, k, o.minIi + k, none, none, st⟩ =
      .running ⟨if o.linearSearchLimit ≤ k + 1 then .exponential else .linear, k + 1, wrap32 (o.minIi + (k + 1)),
        none, none, .schedulingFailed⟩ := by
  have hint : wrap32 (k + 1) = k + 1 := wrap32_eq (by omega) (by have := ho.limitFits; omega)
  refine step_eq_running allocates hle ?_ rfl
  simp only [turn, hfail, hint, Bool.not_false, if_true]

theorem step_exponential (lower : Option Int) {e : Int} (ho : o.Valid) (he : 1 ≤ e) (hle : o.minIi + e ≤ o.maxIi)
    (hfail : succeeds (o.minIi + e) = false) (hfits : o.minIi + 2 * e < 2 ^ 31) :
    step o succeeds allocates ⟨.exponential, e, o.minIi + e, lower, none, .schedulingFailed⟩ =
      .running ⟨.exponential, if o.minIi + e ≠ o.maxIi ∧ o.maxIi < o.minIi + 2 * e then o.maxIi - o.minIi else 2 * e,
        o.minIi + if o.minIi + e ≠ o.maxIi ∧ o.maxIi < o.minIi + 2 * e then o.maxIi - o.minIi else 2 * e,
        some (o.minIi + e), none, .schedulingFailed⟩ := by
  have h0 := ho.nonneg
  have hmax := ho.fits
  have hdouble : wrap32 (e * 2) = 2 * e := by rw [mul_comm]; exact wrap32_eq (by omega) (by omega)
  have hnext : wrap32 (o.minIi + 2 * e) = o.minIi + 2 * e := wrap32_eq (by omega) (by omega)
  have hspan : wrap32 (o.maxIi - o.minIi) = o.maxIi - o.minIi := wrap32_eq (by omega) (by omega)
  refine step_eq_running allocates hle ?_ rfl
  simp only [turn, hfail, Bool.not_false, if_true, if_neg (show e ≠ 0 by omega), hdouble, hnext, hspan]
  refine congrArg some (congrArg (fun x => IiSearch.mk _ _ x _ _ _) (wrap32_eq ?_ ?_)) <;> split_ifs <;> omega

theorem step_overflow (lower : Option Int) {e : Int} (ho : o.Valid) (he : 1 ≤ e) (hle : o.minIi + e ≤ o.maxIi)
    (hfail : succeeds (o.minIi + e) = false) (hfits : 2 ^ 31 ≤ o.minIi + 2 * e) :
    ∃ s', step o succeeds allocates ⟨.exponential, e, o.minIi + e, lower, none, .schedulingFailed⟩ = .running s' ∧
      s'.curIi < o.minIi := by
  have h0 := ho.nonneg
  have hmax := ho.fits
  have hnext : wrap32 (o.minIi + wrap32 (e * 2)) = o.minIi + 2 * e - 2 ^ 32 := by
    have : wrap32 (o.minIi + wrap32 (e * 2)) = wrap32 (o.minIi + e * 2) := Int.add_bmod_bmod
    rw [this, mul_comm]
    exact wrap32_past hfits (by omega)
  refine ⟨⟨.exponential, wrap32 (e * 2), o.minIi + 2 * e - 2 ^ 32, some (o.minIi + e), none, .schedulingFailed⟩,
    step_eq_running allocates hle ?_ rfl, ?_⟩
  · simp only [turn, hfail, Bool.not_false, if_true, if_neg (show e ≠ 0 by omega), hnext,
      if_neg (show ¬(o.minIi + e ≠ o.maxIi ∧ o.maxIi < o.minIi + 2 * e - 2 ^ 32) by omega)]
  · show o.minIi + 2 * e - 2 ^ 32 < o.minIi
    omega

/-- The state of the binary phase between two bounds. -/
def binaryState (o : IiRange) (l u : Int) : IiSearch :=
  ⟨.binary, (u - l) / 2 + l - o.minIi, (u - l) / 2 + l, some l, some (wrap32 u), .schedulingFailed⟩

theorem halfway_eq (ho : o.Valid) (hl : 1 ≤ l) (hmin : o.minIi ≤ l) (hlu : l + 2 ≤ u) (hu : u ≤ o.maxIi + 1) :
    halfway o l (wrap32 u) = (u - l) / 2 + l - o.minIi ∧ wrap32 (o.minIi + halfway o l (wrap32 u)) = (u - l) / 2 + l := by
  have h0 := ho.nonneg
  have hmax := ho.fits
  have hsub : wrap32 (wrap32 u - l) = u - l := by
    have : wrap32 (wrap32 u - l) = wrap32 (u - l) := Int.bmod_sub_bmod
    rw [this]
    exact wrap32_eq (by omega) (by omega)
  have hhalf : halfway o l (wrap32 u) = (u - l) / 2 + l - o.minIi := by
    rw [halfway, hsub, Int.tdiv_eq_ediv_of_nonneg (by omega), wrap32_eq (x := (u - l) / 2 + l) (by omega) (by omega)]
    exact wrap32_eq (by omega) (by omega)
  refine ⟨hhalf, ?_⟩
  rw [hhalf, wrap32_eq (by omega) (by omega)]
  omega

theorem step_bound {e : Int} (ho : o.Valid) (he : 3 ≤ e) (hle : o.minIi + e ≤ o.maxIi) (hl : 1 ≤ l)
    (hmin : o.minIi ≤ l) (hlt : l < o.minIi + e) (hsucc : succeeds (o.minIi + e) = true) :
    step o succeeds allocates ⟨.exponential, e, o.minIi + e, some l, none, .schedulingFailed⟩ =
      .running (binaryState o l (o.minIi + e + 1)) := by
  obtain ⟨hhalf, hcur⟩ := halfway_eq ho hl hmin (show l + 2 ≤ o.minIi + e + 1 by omega) (by omega)
  refine step_eq_running allocates hle ?_ rfl
  simp only [turn, hsucc, Bool.not_true, Bool.false_eq_true, if_false, if_neg (show ¬e ≤ 2 by omega),
    Option.bind_eq_bind, Option.bind_some, hhalf] at hcur ⊢
  rw [hcur]
  rfl

theorem step_binary_fails (ho : o.Valid) (hl : 1 ≤ l) (hmin : o.minIi ≤ l) (hu : u ≤ o.maxIi + 1)
    (hfail : succeeds ((u - l) / 2 + l) = false) (hne : (u - l) / 2 + l + 2 ≤ u) :
    step o succeeds allocates (binaryState o l u) = .running (binaryState o ((u - l) / 2 + l) u) := by
  obtain ⟨hhalf, hcur⟩ := halfway_eq ho (show 1 ≤ (u - l) / 2 + l by omega) (by omega) hne hu
  refine step_eq_running allocates (show (u - l) / 2 + l ≤ o.maxIi by omega) ?_ rfl
  simp only [turn, binaryState, hfail, Bool.not_false, if_true, Option.bind_eq_bind, Option.bind_some, hhalf] at hcur ⊢
  rw [hcur]

theorem step_binary_succeeds (ho : o.Valid) (hl : 1 ≤ l) (hmin : o.minIi ≤ l) (hlu : l + 3 ≤ u) (hu : u ≤ o.maxIi + 1)
    (hsucc : succeeds ((u - l) / 2 + l) = true) (hne : (u - l) / 2 ≠ 1) :
    step o succeeds allocates (binaryState o l u) = .running (binaryState o l ((u - l) / 2 + l + 1)) := by
  have h0 := ho.nonneg
  have hmax := ho.fits
  obtain ⟨hhalf, hcur⟩ := halfway_eq ho hl hmin (show l + 2 ≤ (u - l) / 2 + l + 1 by omega) (by omega)
  have hsub : wrap32 (wrap32 ((u - l) / 2 + l + 1) - l) = (u - l) / 2 + 1 := by
    have : wrap32 (wrap32 ((u - l) / 2 + l + 1) - l) = wrap32 ((u - l) / 2 + l + 1 - l) := Int.bmod_sub_bmod
    rw [this, wrap32_eq (by omega) (by omega)]
    omega
  refine step_eq_running allocates (show (u - l) / 2 + l ≤ o.maxIi by omega) ?_ rfl
  simp only [turn, binaryState, hsucc, Bool.not_true, Bool.false_eq_true, if_false, Option.bind_eq_bind,
    Option.bind_some, hhalf, hsub, if_neg (show (u - l) / 2 + 1 ≠ 2 by omega)] at hcur ⊢
  rw [hcur]

theorem step_binary_stops (ho : o.Valid) (hu : u ≤ o.maxIi + 1)
    (hsucc : succeeds ((u - l) / 2 + l) = true) (hone : (u - l) / 2 = 1) :
    ∃ s', step o succeeds allocates (binaryState o l u) = .stopped s' ∧ s'.curIi = l + 1 := by
  have h0 := ho.nonneg
  have hmax := ho.fits
  have hsub : wrap32 (wrap32 ((u - l) / 2 + l + 1) - l) = 2 := by
    have : wrap32 (wrap32 ((u - l) / 2 + l + 1) - l) = wrap32 ((u - l) / 2 + l + 1 - l) := Int.bmod_sub_bmod
    rw [this, wrap32_eq (by omega) (by omega)]
    omega
  refine ⟨found allocates { binaryState o l u with
    upperBound := some (wrap32 ((u - l) / 2 + l + 1)), iiIncr := halfway o l (wrap32 ((u - l) / 2 + l + 1)) }, ?_, ?_⟩
  · have hturn : turn o succeeds allocates (binaryState o l u) = some (found allocates { binaryState o l u with
        upperBound := some (wrap32 ((u - l) / 2 + l + 1)), iiIncr := halfway o l (wrap32 ((u - l) / 2 + l + 1)) }) := by
      simp only [turn, binaryState, hsucc, Bool.not_true, Bool.false_eq_true, if_false, Option.bind_eq_bind,
        Option.bind_some, hsub, if_true]
    exact step_eq_stopped allocates (show (u - l) / 2 + l ≤ o.maxIi by omega) hturn
  · show (u - l) / 2 + l = l + 1
    omega

/-! ## The head of the loop -/

theorem increment_zero (hle : o.minIi + o.linearSearchLimit ≤ o.maxIi) : o.increment 0 = o.linearSearchLimit := by
  rw [IiRange.increment, pow_zero, mul_one]
  exact min_eq_left (by omega)

theorem increment_le (n : Nat) : o.minIi + o.increment n ≤ o.maxIi := by
  have : o.increment n ≤ o.maxIi - o.minIi := min_le_right ..
  omega

theorem increment_succ (hlt : o.minIi + o.increment n < o.maxIi) : o.increment (n + 1) =
    if o.maxIi < o.minIi + 2 * o.increment n then o.maxIi - o.minIi else 2 * o.increment n := by
  have hn : o.increment n = o.linearSearchLimit * 2 ^ n := by
    unfold IiRange.increment at hlt ⊢
    omega
  have hsucc : o.linearSearchLimit * 2 ^ (n + 1) = 2 * o.increment n := by rw [hn, pow_succ]; ring
  rw [IiRange.increment, hsucc]
  split_ifs <;> omega

theorem one_le_increment (ho : o.Valid) (hle : o.minIi + o.linearSearchLimit ≤ o.maxIi) (n : Nat) : 1 ≤ o.increment n := by
  have hpow : (1 : Int) ≤ 2 ^ n := one_le_pow₀ (by decide)
  have hprod : o.linearSearchLimit ≤ o.linearSearchLimit * 2 ^ n := le_mul_of_one_le_right (by have := ho.limit; omega) hpow
  have := ho.limit
  unfold IiRange.increment
  omega

/-- The lower bound when the turn `n` of the exponential phase begins. -/
def lowerBefore (o : IiRange) (n : Nat) : Option Int := if n = 0 then none else some (o.minIi + o.increment (n - 1))

/-- What holds at the head of the loop, at most `turns` turns before its end. -/
inductive Inv (o : IiRange) (succeeds : Int → Bool) (turns : Nat) : IiSearch → Prop
  | linear (k : Int) (st : StatusCode) (hk : 0 ≤ k) (hlt : k < o.linearSearchLimit) (hle : o.minIi + k ≤ o.maxIi)
      (hfail : ∀ i, 0 ≤ i → i < k → succeeds (o.minIi + i) = false)
      (hturns : o.maxIi - (o.minIi + k) + 2 * (o.maxIi - o.minIi + 3) ≤ turns) :
      Inv o succeeds turns ⟨.linear, k, o.minIi + k, none, none, st⟩
  | exponential (n : Nat) (hle : o.minIi + o.linearSearchLimit ≤ o.maxIi) (hlin : LinearFails o succeeds)
      (hfail : ∀ m < n, succeeds (o.minIi + o.increment m) = false)
      (hlast : ∀ m < n, o.minIi + o.increment m < o.maxIi)
      (hturns : o.maxIi - (o.minIi + o.increment n) + (o.maxIi - o.minIi + 3) ≤ turns) :
      Inv o succeeds turns
        ⟨.exponential, o.increment n, o.minIi + o.increment n, lowerBefore o n, none, .schedulingFailed⟩
  | binary (l u : Int) (hl : 1 ≤ l) (hmin : o.minIi ≤ l) (hlu : l + 2 ≤ u) (hu : u ≤ o.maxIi + 1)
      (hfail : succeeds l = false) (hsucc : succeeds (u - 1) = true) (hturns : u - l ≤ turns) :
      Inv o succeeds turns (binaryState o l u)
  | beyond (s : IiSearch) (hgt : o.maxIi < s.curIi) (hfail : succeeds o.maxIi = false) : Inv o succeeds turns s

/-- How a turn ends at whose head the invariant holds. -/
inductive Next (o : IiRange) (succeeds allocates : Int → Bool) (turns : Nat) (s : IiSearch) : Prop
  | running (s' : IiSearch) (t : Nat) (hstep : step o succeeds allocates s = .running s') (ht : t < turns)
      (hinv : Inv o succeeds t s')
  | stopped (s' : IiSearch) (hstep : step o succeeds allocates s = .stopped s') (hcur : s'.curIi = s.curIi)
      (hsucc : succeeds s.curIi = true)
      (hleast : Monotone o succeeds → ∀ ii, o.minIi ≤ ii → ii < s.curIi → succeeds ii = false)
  | gaveUp (hstep : step o succeeds allocates s = .gaveUp) (hfail : succeeds o.maxIi = false)

section
variable (ho : o.Valid) (hunset : ¬ReadsUnset o succeeds) (hover : ¬Overflows o succeeds) {turns : Nat}
include ho

omit hunset in
include hover in
theorem next_linear (hk : 0 ≤ k) (hlt : k < o.linearSearchLimit) (hle : o.minIi + k ≤ o.maxIi)
    (hfail : ∀ i, 0 ≤ i → i < k → succeeds (o.minIi + i) = false)
    (hturns : o.maxIi - (o.minIi + k) + 2 * (o.maxIi - o.minIi + 3) ≤ turns) :
    Next o succeeds allocates turns ⟨.linear, k, o.minIi + k, none, none, st⟩ := by
  have h0 := ho.nonneg
  have hfits := ho.fits
  cases hp : succeeds (o.minIi + k)
  · have hall : ∀ i, 0 ≤ i → i < k + 1 → succeeds (o.minIi + i) = false := fun i hi hik => by
      rcases lt_or_eq_of_le (Int.lt_add_one_iff.mp hik) with h | rfl
      · exact hfail i hi h
      · exact hp
    have hstep := step_linear allocates st ho hk hlt hle hp
    by_cases hin : o.minIi + (k + 1) ≤ o.maxIi
    · rw [wrap32_eq (by omega) (by omega)] at hstep
      by_cases hlim : o.linearSearchLimit ≤ k + 1
      · obtain rfl : k = o.linearSearchLimit - 1 := by omega
        rw [sub_add_cancel] at hstep hall hin
        rw [if_pos le_rfl] at hstep
        have hfirst := increment_zero hin
        refine .running _ (turns - 1) hstep (by omega) ?_
        have := @Inv.exponential o succeeds (turns - 1) 0 hin (fun i hi hil _ => hall i hi hil)
          (fun m hm => absurd hm (Nat.not_lt_zero m)) (fun m hm => absurd hm (Nat.not_lt_zero m)) (by omega)
        rwa [hfirst] at this
      · rw [if_neg hlim] at hstep
        exact .running _ (turns - 1) hstep (by omega)
          (.linear (k + 1) .schedulingFailed (by omega) (by omega) hin hall (by omega))
    · have hmax : o.minIi + k = o.maxIi := by omega
      have hlin : LinearFails o succeeds := fun i hi _ hle' => hall i hi (by omega)
      have hnot : o.maxIi ≠ 2 ^ 31 - 1 := fun h => hover ⟨hlin, .inl ⟨h, by omega⟩⟩
      refine .running _ (turns - 1) hstep (by omega) (.beyond _ ?_ (hmax ▸ hp))
      show o.maxIi < wrap32 (o.minIi + (k + 1))
      rw [wrap32_eq (by omega) (by omega)]
      omega
  · refine .stopped (found allocates ⟨.linear, k, o.minIi + k, none, none, st⟩) (step_eq_stopped allocates hle ?_) rfl hp ?_
    · simp only [turn, hp, Bool.not_true, Bool.false_eq_true, if_false]
    · intro _ ii hii hlt'
      have := hfail (ii - o.minIi) (by omega) (by show ii - o.minIi < k; exact Int.sub_left_lt_of_lt_add hlt')
      rwa [add_sub_cancel] at this

theorem fails_below (hle : o.minIi + o.linearSearchLimit ≤ o.maxIi) (hlin : LinearFails o succeeds)
    (hfail : ∀ m < n, succeeds (o.minIi + o.increment m) = false)
    (hlast : ∀ m < n, o.minIi + o.increment m < o.maxIi) (htwo : o.increment n ≤ 2) {ii : Int} (hii : o.minIi ≤ ii)
    (hlt : ii < o.minIi + o.increment n) : succeeds ii = false := by
  have hlimit := ho.limit
  have hlow (i : Int) (hi : 0 ≤ i) (hlim : i < o.linearSearchLimit) : succeeds (o.minIi + i) = false :=
    hlin i hi hlim (by omega)
  obtain ⟨i, rfl⟩ : ∃ i, ii = o.minIi + i := ⟨ii - o.minIi, by omega⟩
  cases n with
  | zero =>
    rw [increment_zero hle] at hlt
    exact hlow i (by omega) (by omega)
  | succ n =>
    have hone := one_le_increment ho hle n
    have hsucc := increment_succ (hlast n (Nat.lt_succ_self n))
    have hgrows : o.increment n < o.increment (n + 1) := by
      have := hlast n (Nat.lt_succ_self n)
      rw [hsucc]
      split_ifs <;> omega
    rcases (show i = 0 ∨ i = o.increment n by omega) with rfl | rfl
    · exact hlow 0 le_rfl (by omega)
    · exact hfail n (Nat.lt_succ_self n)

include hunset hover in
theorem next_exponential (hle : o.minIi + o.linearSearchLimit ≤ o.maxIi) (hlin : LinearFails o succeeds)
    (hfail : ∀ m < n, succeeds (o.minIi + o.increment m) = false)
    (hlast : ∀ m < n, o.minIi + o.increment m < o.maxIi)
    (hturns : o.maxIi - (o.minIi + o.increment n) + (o.maxIi - o.minIi + 3) ≤ turns) :
    Next o succeeds allocates turns
      ⟨.exponential, o.increment n, o.minIi + o.increment n, lowerBefore o n, none, .schedulingFailed⟩ := by
  have hone := one_le_increment ho hle n
  have hin := increment_le (o := o) n
  cases hp : succeeds (o.minIi + o.increment n)
  · have hall : ∀ m ≤ n, succeeds (o.minIi + o.increment m) = false := fun m hm => by
      rcases Nat.lt_or_eq_of_le hm with h | rfl
      · exact hfail m h
      · exact hp
    have hfits : o.minIi + 2 * o.increment n < 2 ^ 31 :=
      not_le.mp fun h => hover ⟨hlin, .inr ⟨hle, n, hall, h⟩⟩
    have hstep := step_exponential allocates (lowerBefore o n) ho hone hin hp hfits
    by_cases hmax : o.minIi + o.increment n = o.maxIi
    · rw [if_neg fun h => h.1 hmax] at hstep
      refine .running _ (turns - 1) hstep (by omega) (.beyond _ ?_ (hmax ▸ hp))
      show o.maxIi < o.minIi + 2 * o.increment n
      omega
    · have hlt : o.minIi + o.increment n < o.maxIi := by omega
      have hnext := increment_succ hlt
      simp only [Ne, hmax, not_false_eq_true, true_and] at hstep
      rw [← hnext] at hstep
      refine .running _ (turns - 1) hstep (by omega) ?_
      refine .exponential (n + 1) hle hlin (fun m hm => hall m (Nat.lt_succ_iff.mp hm)) (fun m hm => ?_) ?_
      · rcases Nat.lt_or_eq_of_le (Nat.lt_succ_iff.mp hm) with h | rfl
        · exact hlast m h
        · exact hlt
      · have hgrows : o.increment n < o.increment (n + 1) := by
          rw [hnext]
          split_ifs <;> omega
        omega
  · by_cases htwo : o.increment n ≤ 2
    · refine .stopped (found allocates
        ⟨.exponential, o.increment n, o.minIi + o.increment n, lowerBefore o n, none, .schedulingFailed⟩)
        (step_eq_stopped allocates hin ?_) rfl hp fun _ ii hii hlt => fails_below ho hle hlin hfail hlast htwo hii hlt
      simp only [turn, hp, Bool.not_true, Bool.false_eq_true, if_false, if_pos htwo]
    · cases n with
      | zero =>
        rw [increment_zero hle] at hp htwo
        exact absurd ⟨hlin, hle, by omega, hp⟩ hunset
      | succ n =>
        have h0 := ho.nonneg
        have hbefore := one_le_increment ho hle n
        have hlt := hlast n (Nat.lt_succ_self n)
        have hgrows : o.increment n < o.increment (n + 1) := by
          rw [increment_succ hlt]
          split_ifs <;> omega
        have hlow : lowerBefore o (n + 1) = some (o.minIi + o.increment n) := rfl
        rw [hlow]
        exact .running _ (turns - 1)
          (step_bound allocates ho (by omega) hin (show 1 ≤ o.minIi + o.increment n by omega) (by omega) (by omega) hp) (by omega)
          (.binary _ _ (by omega) (by omega) (by omega) (by omega) (hfail n (Nat.lt_succ_self n))
            (by rwa [add_sub_cancel_right]) (by omega))

theorem next_binary (hl : 1 ≤ l) (hmin : o.minIi ≤ l) (hlu : l + 2 ≤ u) (hu : u ≤ o.maxIi + 1)
    (hfail : succeeds l = false) (hsucc : succeeds (u - 1) = true) (hturns : u - l ≤ turns) :
    Next o succeeds allocates turns (binaryState o l u) := by
  cases hp : succeeds ((u - l) / 2 + l)
  · have hne : (u - l) / 2 + l ≠ u - 1 := fun h => by
      rw [h, hsucc] at hp
      exact Bool.noConfusion hp
    have hgap : (u - l) / 2 + l + 2 ≤ u := by omega
    exact .running _ (turns - 1) (step_binary_fails allocates ho hl hmin hu hp hgap) (by omega)
      (.binary _ u (by omega) (by omega) hgap hu hp hsucc (by omega))
  · by_cases hone : (u - l) / 2 = 1
    · obtain ⟨s', hstep, hcur⟩ := step_binary_stops allocates ho hu hp hone
      have hmid : (binaryState o l u).curIi = l + 1 := by
        show (u - l) / 2 + l = l + 1
        omega
      refine .stopped s' hstep (hcur.trans hmid.symm) hp fun hmono ii hii hlt => ?_
      rw [hmid] at hlt
      by_contra hne
      have := hmono ii l hii (by omega) (by omega) (Bool.eq_true_of_not_eq_false hne)
      rw [hfail] at this
      exact Bool.noConfusion this
    · exact .running _ (turns - 1) (step_binary_succeeds allocates ho hl hmin (by omega) hu hp hone) (by omega)
        (.binary l _ hl hmin (by omega) (by omega) hfail (by rwa [add_sub_cancel_right]) (by omega))

include hunset hover in
/-- One turn keeps the invariant, or ends the search well. -/
theorem step_inv (h : Inv o succeeds turns s) : Next o succeeds allocates turns s := by
  cases h with
  | linear k st hk hlt hle hfail hturns => exact next_linear allocates ho hover hk hlt hle hfail hturns
  | exponential n hle hlin hfail hlast hturns => exact next_exponential allocates ho hunset hover hle hlin hfail hlast hturns
  | binary l u hl hmin hlu hu hfail hsucc hturns => exact next_binary allocates ho hl hmin hlu hu hfail hsucc hturns
  | beyond s hgt hfail => exact .gaveUp (if_neg (not_le.mpr hgt)) hfail

/-! ## The whole search -/

theorem inv_start : ∃ turns, Inv o succeeds turns (startSearch o) := by
  have hle := ho.le
  have := @Inv.linear o succeeds (3 * (o.maxIi - o.minIi) + 6).toNat 0 .successful le_rfl
    (by have := ho.limit; omega) (by omega) (fun i hi hlt => absurd hi (not_le.mpr hlt)) (by omega)
  rw [add_zero] at this
  exact ⟨_, this⟩

include hunset hover in
theorem inv_of_reaches (hr : Reaches o succeeds allocates (startSearch o) s) : ∃ turns, Inv o succeeds turns s := by
  induction hr with
  | refl => exact inv_start ho
  | tail _ hstep ih =>
    obtain ⟨turns, h⟩ := ih
    cases step_inv allocates ho hunset hover h with
    | running s' t hstep' _ hinv =>
      rw [hstep'] at hstep
      exact ⟨t, Outcome.running.inj hstep ▸ hinv⟩
    | stopped s' hstep' => exact absurd (hstep'.symm.trans hstep) Outcome.noConfusion
    | gaveUp hstep' => exact absurd (hstep'.symm.trans hstep) Outcome.noConfusion

include hunset hover in
theorem ends (h : Inv o succeeds turns s) :
    ∃ s', Reaches o succeeds allocates s s' ∧ ∀ s'', step o succeeds allocates s' ≠ .running s'' := by
  induction turns using Nat.strong_induction_on generalizing s with
  | _ turns ih =>
    cases step_inv allocates ho hunset hover h with
    | running s' t hstep ht hinv =>
      obtain ⟨s'', hr, hend⟩ := ih t ht hinv
      exact ⟨s'', hr.head hstep, hend⟩
    | stopped s' hstep => exact ⟨s, .refl, fun s'' h' => absurd (hstep.symm.trans h') Outcome.noConfusion⟩
    | gaveUp hstep => exact ⟨s, .refl, fun s'' h' => absurd (hstep.symm.trans h') Outcome.noConfusion⟩

theorem Inv.curIi_ge (h : Inv o succeeds turns s) (hle : s.curIi ≤ o.maxIi) : o.minIi ≤ s.curIi := by
  cases h with
  | linear k st hk =>
    show o.minIi ≤ o.minIi + k
    omega
  | exponential n hlim =>
    have := one_le_increment ho hlim n
    show o.minIi ≤ o.minIi + o.increment n
    omega
  | binary l u hl hmin hlu =>
    show o.minIi ≤ (u - l) / 2 + l
    omega
  | beyond s hgt => omega

include hunset hover in
/-- Without a bound that is not set and without an overflow the search is correct. -/
theorem correct_of : Correct o succeeds allocates where
  terminates := by
    obtain ⟨turns, h⟩ : ∃ turns, Inv o succeeds turns (startSearch o) := inv_start ho
    exact ends allocates ho hunset hover h
  tries s hr hle := by
    obtain ⟨turns, h⟩ := inv_of_reaches allocates ho hunset hover hr
    exact h.curIi_ge ho hle
  bounds s hr hstep := by
    obtain ⟨turns, h⟩ := inv_of_reaches allocates ho hunset hover hr
    cases step_inv allocates ho hunset hover h with
    | running s' t hstep' => exact absurd (hstep'.symm.trans hstep) Outcome.noConfusion
    | stopped s' hstep' => exact absurd (hstep'.symm.trans hstep) Outcome.noConfusion
    | gaveUp hstep' => exact absurd (hstep'.symm.trans hstep) Outcome.noConfusion
  accepts s s' hr hstep := by
    obtain ⟨turns, h⟩ := inv_of_reaches allocates ho hunset hover hr
    cases step_inv allocates ho hunset hover h with
    | running s'' t hstep' => exact absurd (hstep'.symm.trans hstep) Outcome.noConfusion
    | stopped s'' hstep' hcur hsucc =>
      obtain rfl := Outcome.stopped.inj (hstep'.symm.trans hstep)
      exact ⟨hcur, hsucc⟩
    | gaveUp hstep' => exact absurd (hstep'.symm.trans hstep) Outcome.noConfusion
  least hmono s s' hr hstep := by
    obtain ⟨turns, h⟩ := inv_of_reaches allocates ho hunset hover hr
    cases step_inv allocates ho hunset hover h with
    | running s'' t hstep' => exact absurd (hstep'.symm.trans hstep) Outcome.noConfusion
    | stopped s'' hstep' hcur hsucc hleast =>
      obtain rfl := Outcome.stopped.inj (hstep'.symm.trans hstep)
      rw [hcur]
      exact hleast hmono
    | gaveUp hstep' => exact absurd (hstep'.symm.trans hstep) Outcome.noConfusion
  givesUp _ s hr hstep := by
    obtain ⟨turns, h⟩ := inv_of_reaches allocates ho hunset hover hr
    cases step_inv allocates ho hunset hover h with
    | running s' t hstep' => exact absurd (hstep'.symm.trans hstep) Outcome.noConfusion
    | stopped s' hstep' => exact absurd (hstep'.symm.trans hstep) Outcome.noConfusion
    | gaveUp _ hfail => exact hfail

theorem reaches_linear (hlin : LinearFails o succeeds) {k : Nat} (hlt : (k : Int) < o.linearSearchLimit)
    (hle : o.minIi + k ≤ o.maxIi) :
    ∃ st, Reaches o succeeds allocates (startSearch o) ⟨.linear, k, o.minIi + k, none, none, st⟩ := by
  have h0 := ho.nonneg
  have hfits := ho.fits
  induction k with
  | zero => exact ⟨.successful, by rw [Nat.cast_zero, add_zero]; exact .refl⟩
  | succ k ih =>
    rw [Nat.cast_succ] at hlt hle ⊢
    obtain ⟨st, hr⟩ := ih (by omega) (by omega)
    have hstep := step_linear allocates st ho (Int.natCast_nonneg k) (by omega) (by omega)
      (hlin k (by omega) (by omega) (by omega))
    rw [if_neg (by omega), wrap32_eq (by omega) (by omega)] at hstep
    exact ⟨_, hr.tail hstep⟩

theorem reaches_exponential (hlin : LinearFails o succeeds) (hle : o.minIi + o.linearSearchLimit ≤ o.maxIi) :
    Reaches o succeeds allocates (startSearch o)
      ⟨.exponential, o.linearSearchLimit, o.minIi + o.linearSearchLimit, none, none, .schedulingFailed⟩ := by
  have h0 := ho.nonneg
  have hfits := ho.fits
  have hlim := ho.limit
  obtain ⟨k, hk⟩ : ∃ k : Nat, o.linearSearchLimit = k + 1 := ⟨(o.linearSearchLimit - 1).toNat, by omega⟩
  rw [hk] at hle ⊢
  obtain ⟨st, hr⟩ := reaches_linear allocates (k := k) ho hlin (by omega) (by omega)
  have hstep := step_linear allocates st ho (Int.natCast_nonneg k) (by omega) (by omega)
    (hlin k (by omega) (by omega) (by omega))
  rw [if_pos (by omega), wrap32_eq (by omega) (by omega)] at hstep
  exact hr.tail hstep

theorem not_correct_of_readsUnset (h : ReadsUnset o succeeds) : ¬Correct o succeeds allocates := by
  obtain ⟨hlin, hle, hthree, hsucc⟩ := h
  intro hc
  refine hc.bounds _ (reaches_exponential allocates ho hlin hle) ?_
  rw [step, if_pos hle]
  simp only [turn, hsucc, Bool.not_true, Bool.false_eq_true, if_false, if_neg (show ¬o.linearSearchLimit ≤ 2 by omega),
    Option.bind_eq_bind, Option.bind_none]

theorem reaches_increment (hlin : LinearFails o succeeds) (hle : o.minIi + o.linearSearchLimit ≤ o.maxIi)
    (hfail : ∀ m < n, succeeds (o.minIi + o.increment m) = false)
    (hlast : ∀ m < n, o.minIi + o.increment m < o.maxIi) (hfits : ∀ m < n, o.minIi + 2 * o.increment m < 2 ^ 31) :
    Reaches o succeeds allocates (startSearch o)
      ⟨.exponential, o.increment n, o.minIi + o.increment n, lowerBefore o n, none, .schedulingFailed⟩ := by
  induction n with
  | zero =>
    rw [increment_zero hle]
    exact reaches_exponential allocates ho hlin hle
  | succ n ih =>
    have hn := Nat.lt_succ_self n
    have hr := ih (fun m hm => hfail m (hm.trans hn)) (fun m hm => hlast m (hm.trans hn))
      (fun m hm => hfits m (hm.trans hn))
    have hstep := step_exponential allocates (lowerBefore o n) ho (one_le_increment ho hle n)
      (increment_le n) (hfail n hn) (hfits n hn)
    simp only [Ne, (hlast n hn).ne, not_false_eq_true, true_and] at hstep
    rw [← increment_succ (hlast n hn)] at hstep
    exact hr.tail hstep

/-- After an overflow an interval is tried that is not in the range. -/
theorem not_correct_of_overflows (h : Overflows o succeeds) : ¬Correct o succeeds allocates := by
  have h0 := ho.nonneg
  have hle := ho.le
  have hmax := ho.fits
  obtain ⟨hlin, ⟨htop, hlim⟩ | ⟨hlim, hex⟩⟩ := h <;> intro hc
  · obtain ⟨k, hk⟩ : ∃ k : Nat, o.maxIi = o.minIi + k := ⟨(o.maxIi - o.minIi).toNat, by omega⟩
    obtain ⟨st, hr⟩ := reaches_linear allocates (k := k) ho hlin (by omega) (by omega)
    have hstep := step_linear allocates st ho (Int.natCast_nonneg k) (by omega) (by omega)
      (hlin k (by omega) (by omega) (by omega))
    have hwrap : wrap32 (o.minIi + ((k : Int) + 1)) = -2 ^ 31 := by
      rw [wrap32_past (by omega) (by omega)]
      omega
    rw [hwrap] at hstep
    have := hc.tries _ (hr.tail hstep) (show -2 ^ 31 ≤ o.maxIi by omega)
    have : o.minIi ≤ -2 ^ 31 := this
    omega
  · classical
    let n := Nat.find hex
    obtain ⟨hfail, hfits⟩ : (∀ m ≤ n, succeeds (o.minIi + o.increment m) = false) ∧ 2 ^ 31 ≤ o.minIi + 2 * o.increment n :=
      Nat.find_spec hex
    have hbefore : ∀ m < n, o.minIi + 2 * o.increment m < 2 ^ 31 := fun m hm =>
      not_le.mp fun h => Nat.find_min hex hm ⟨fun m' hm' => hfail m' (hm'.trans hm.le), h⟩
    have hlast : ∀ m < n, o.minIi + o.increment m < o.maxIi := fun m hm => by
      have := hbefore m hm
      have := increment_le (o := o) m
      have := increment_le (o := o) n
      omega
    have hr := reaches_increment allocates ho hlin hlim (fun m hm => hfail m hm.le) hlast hbefore
    obtain ⟨s', hstep, hlow⟩ := step_overflow allocates (lowerBefore o n) ho
      (one_le_increment ho hlim n) (increment_le n) (hfail n le_rfl) hfits
    have := hc.tries s' (hr.tail hstep) (by omega)
    omega

end

/-- **The searches that are correct.** -/
theorem correct_iff (o : IiRange) (succeeds allocates : Int → Bool) (ho : o.Valid) :
    Correct o succeeds allocates ↔ ¬ReadsUnset o succeeds ∧ ¬Overflows o succeeds :=
  ⟨fun hc => ⟨fun h => not_correct_of_readsUnset allocates ho h hc, fun h => not_correct_of_overflows allocates ho h hc⟩,
    fun h => correct_of allocates ho h.1 h.2⟩

/-- One interval is tried before the steps grow. -/
theorem correct_iff_limitOne : Correct ⟨5, 100, 1⟩ (fun ii => decide (57 ≤ ii)) fun _ => true := by
  refine (correct_iff ⟨5, 100, 1⟩ _ _ ⟨by decide, by decide, by decide, by decide, by decide⟩).mpr ⟨fun h => ?_, ?_⟩
  · exact absurd h.2.2.1 (by decide)
  · rintro ⟨-, ⟨h, -⟩ | ⟨-, n, -, h⟩⟩
    · exact absurd h (by decide)
    · have : (5 : Int) + IiRange.increment ⟨5, 100, 1⟩ n ≤ 100 := increment_le (o := ⟨5, 100, 1⟩) n
      have : (2 : Int) ^ 31 ≤ 5 + 2 * IiRange.increment ⟨5, 100, 1⟩ n := h
      omega

/-- Three intervals fail and the next one succeeds. -/
theorem not_correct_limitThree : ¬Correct ⟨5, 100, 3⟩ (fun ii => decide (8 ≤ ii)) fun _ => true := by
  refine not_correct_of_readsUnset _ ⟨by decide, by decide, by decide, by decide, by decide⟩
    ⟨fun i _ hi _ => decide_eq_false ?_, by decide, by decide, by decide⟩
  have : i < 3 := hi
  show ¬(8 : Int) ≤ 5 + i
  omega

end

end Path64.Swp

import Path64.SnlDeps.Basic

/-!
# Making a nest fully permutable: `SNL_DEP_INFO::U_Fully_Permutable`

Loop by loop, the routine reverses a loop whose dependences are unbounded below and skews it by the loops outside it
until no component is negative. The transformation is collected in `m`.

* `uFullyPermutable` : the routine, with its assertions, its 32-bit arithmetic and its arrays of `SNL_MAX_LOOPS`;
* `Inv` : every component of `m v` is within its summary, the loops already done have no negative component, `m` is
  lower triangular with `±1` on the diagonal;
* `Fixed` : the skew factors make a component non-negative; `forced_fixed`, `chosen_fixed` : the two choosers reach it;
* `makePermutable_inv` : one loop keeps `Inv`; `uFullyPermutable_correct` : the result.
-/

namespace Path64.SnlDeps

open Dvector Lib Finset

/-- `SNL_MAX_LOOPS`. -/
def snlMaxLoops : Nat := 64

/-- What the loop over the nest changes: the summaries `DP(v,d)`, the transformation and `per_vector_info`. -/
structure Work where
  dp : Nat → Nat → SnlDep
  m : Nat → Nat → Int
  perVectorInfo : Nat → Bool

/-- Column `d` of a table, replaced in the rows below `k`. -/
def setColumn {α : Type} (f : Nat → Nat → α) (d : Nat) (col : Nat → α) : Nat → Nat → α :=
  fun v c => if c = d then col v else f v c

/-! ## The routine -/

section Routine

variable (a : Arith)

structure Scan where
  unboundedMax : Bool
  unboundedMin : Bool
  minneg : Int
  maxpos : Int

def scanStep (dp : Nat → Nat → SnlDep) (d : Nat) (s : Scan) (v : Nat) : Scan :=
  let dep := dp v d
  { unboundedMax := if dep.unboundedMax then true else s.unboundedMax
    maxpos := if dep.unboundedMax then s.maxpos else if dep.max > s.maxpos then dep.max else s.maxpos
    unboundedMin := if dep.unboundedMin then true else s.unboundedMin
    minneg := if dep.unboundedMin then s.minneg else if dep.min < s.minneg then dep.min else s.minneg }

/-- The ranges of component `d` over all vectors. -/
def scan (dp : Nat → Nat → SnlDep) (vmax d : Nat) : Scan := (List.range vmax).foldl (scanStep dp d) ⟨false, false, 0, 0⟩

/-- Reverses loop `d`. -/
def reverse (vmax d : Nat) (w : Work) : Except Fault Work := do
  let col ← (List.range vmax).foldlM (fun col v => do
    let dep ← (w.dp v d).negateMe a
    return Function.update col v dep) fun v => w.dp v d
  return { w with dp := setColumn w.dp d col, m := fun r c => if r = d ∧ c = d then -1 else w.m r c }

/-- `ddpos` is `-1` as long as no component is positive and `-2` once two are. -/
structure Lead where
  ddpos : Int
  ddposmin : Int
  taken : Bool

def lead (dp : Nat → Nat → SnlDep) (v d : Nat) : Except Fault Lead :=
  (List.range d).foldlM (fun l dd => do
    let ddmin := (dp v dd).min
    require .assertion (ddmin ≥ 0)
    if ddmin > 0 then
      if l.ddpos = -1 then return { l with ddpos := dd, ddposmin := ddmin }
      else return { l with ddpos := -2, taken := false }
    else return l) ⟨-1, 0, true⟩

/-- `(-dist + ddposmin - 1)/ddposmin`. -/
def ceilFactor (dist ddposmin : Int) : Except Fault Int := do
  let n ← a (-dist)
  let n ← a (n + ddposmin)
  let n ← a (n - 1)
  return n.tdiv ddposmin

/-- The skews without a choice, for vector `v`. -/
def forcedStep (dp : Nat → Nat → SnlDep) (d : Nat) (s : (Nat → Int) × (Nat → Bool)) (v : Nat) :
    Except Fault ((Nat → Int) × (Nat → Bool)) :=
  let mindist := (dp v d).min
  if mindist ≥ 0 then return s
  else do
    let l ← lead dp v d
    require .assertion (l.ddpos ≠ -1)
    let info := Function.update s.2 v l.taken
    if l.ddpos ≠ -2 then
      let newfactor ← ceilFactor a mindist l.ddposmin
      if newfactor > s.1 l.ddpos.toNat then return (Function.update s.1 l.ddpos.toNat newfactor, info)
      else return (s.1, info)
    else return (s.1, info)

/-- The search for a remaining vector: its factors, its distance so far and the last positive component. -/
structure Choice where
  factors : Nat → Int
  vdist : Int
  ddpos : Int
  ddposmin : Int

/-- A positive component extends the distance. -/
def choiceReach (dp : Nat → Nat → SnlDep) (v : Nat) (s : Choice) (dd : Nat) : Except Fault Choice :=
  let ddmin := (dp v dd).min
  if ddmin > 0 then do
    let p ← a (s.factors dd * ddmin)
    let vdist ← a (s.vdist + p)
    return { s with ddpos := dd, ddposmin := ddmin, vdist }
  else return s

/-- A distance that is still negative raises the last factor; the source writes `factors[ddpos]` also for
`ddpos == -1`. -/
def choiceRaise (s : Choice) : Except Fault Choice :=
  if s.vdist < 0 then do
    require .outOfBounds (0 ≤ s.ddpos)
    let more ← ceilFactor a s.vdist s.ddposmin
    let factor ← a (s.factors s.ddpos.toNat + more)
    return { s with factors := Function.update s.factors s.ddpos.toNat factor }
  else return s

def choiceStep (dp : Nat → Nat → SnlDep) (v : Nat) (s : Choice) (dd : Nat) : Except Fault Choice := do
  require .assertion ((dp v dd).min ≥ 0)
  let s ← choiceReach a dp v s dd
  choiceRaise a s

/-- The vectors not taken care of yet. -/
def chosenStep (dp : Nat → Nat → SnlDep) (d : Nat) (info : Nat → Bool) (factors : Nat → Int) (v : Nat) :
    Except Fault (Nat → Int) :=
  if info v then return factors
  else do
    let s ← (List.range d).foldlM (choiceStep a dp v) ⟨factors, (dp v d).min, -1, 0⟩
    return s.factors

/-- Component `d` of vector `v` after the skew. -/
def skewDep (dp : Nat → Nat → SnlDep) (factors : Nat → Int) (d v : Nat) : Except Fault SnlDep := do
  let dmin ← sumBy a factors (fun dd => (dp v dd).min) d (dp v d).min
  let isConst := !(dp v d).unboundedMax && (List.range d).all fun dd => !(dp v dd).unboundedMax
  return ⟨dmin, if isConst then .exact else .plus⟩

/-- The skew of `DP` and `m` by the factors found. -/
def skew (nloops dcnt vmax d : Nat) (factors : Nat → Int) (w : Work) : Except Fault Work := do
  let col ← (List.range vmax).foldlM (fun col v => do
    let dep ← skewDep a w.dp factors d v
    return Function.update col v dep) fun v => w.dp v d
  require .outOfBounds (nloops ≤ dcnt ∧ nloops ≤ snlMaxLoops)
  let newrow ← (List.range nloops).foldlM (fun row i => do
    let x ← sumBy a factors (fun dd => w.m dd i) d (w.m d i)
    return Function.update row i x) fun _ => 0
  return { w with
    dp := setColumn w.dp d col
    m := fun r c => if r = d ∧ c < nloops then newrow c else w.m r c }

/-- The skew factors are not larger than `maxskew`. -/
def smallFactors (factors : Nat → Int) (d : Nat) : Bool := (List.range d).all fun dd => decide (factors dd ≤ 3)

/-- The loop as it is or reversed, and its most negative distance. -/
def orient (vmax d : Nat) (s : Scan) (w : Work) : Except Fault (Work × Int) :=
  if s.unboundedMin then do
    let w ← reverse a vmax d w
    let minneg ← a (-s.maxpos)
    return (w, minneg)
  else return (w, s.minneg)

/-- The skew factors of loop `d`, and `per_vector_info` after the search. -/
def skewFactors (vmax d : Nat) (w : Work) : Except Fault ((Nat → Int) × (Nat → Bool)) := do
  require .outOfBounds (d ≤ snlMaxLoops)
  let s ← (List.range vmax).foldlM (forcedStep a w.dp d) (fun _ => 0, w.perVectorInfo)
  let factors ← (List.range vmax).foldlM (chosenStep a w.dp d s.2) s.1
  return (factors, s.2)

/-- The body of the loop over the nest; `none` is its `break`. -/
def makePermutable (nloops dcnt vmax d : Nat) (w : Work) : Except Fault (Option Work) :=
  let s := scan w.dp vmax d
  if s.unboundedMax && s.unboundedMin then return none
  else do
    let (w, minneg) ← orient a vmax d s w
    if minneg = 0 then return some w
    else
      let (factors, info) ← skewFactors a vmax d w
      if smallFactors factors d then
        let w ← skew a nloops dcnt vmax d factors { w with perVectorInfo := info }
        return some w
      else return none

/-- The loop over the nest, with the loop it stopped at. -/
def permutableLoop (nloops dcnt vmax : Nat) : Nat → Nat → Work → Except Fault (Nat × Work)
  | 0, d, w => return (d, w)
  | k + 1, d, w => do
    match ← makePermutable a nloops dcnt vmax d w with
    | none => return (d, w)
    | some w => permutableLoop nloops dcnt vmax k (d + 1) w

/-- `Is_Identity`. -/
def isIdentity (n : Nat) (m : Nat → Nat → Int) : Bool :=
  (List.range n).all fun r => (List.range n).all fun c => decide (m r c = if r = c then 1 else 0)

/-- A leading component is lexicographically positive. -/
def leadsPositive (from_ : Nat) (dv : Nat → Dep) : Bool :=
  (List.range from_).any fun d => decide (depDirection (dv d) = Direction.pos.bits)

/-- `U_Fully_Permutable`; `none` is `NULL`. -/
def uFullyPermutable (info : SnlDepInfo) (from_ : Nat) (to_ : Int) : Except Fault (Option (Nat → Nat → Int)) := do
  if info.allStars then return none
  else
    let dcnt := (to_ - from_ + 1).toNat
    let kept := info.dvList.filter fun dv => !leadsPositive from_ dv
    let w : Work :=
      { dp := fun v d => SnlDep.ofDep ((kept.getD v fun _ => 0#16) (from_ + d))
        m := fun r c => if r = c then 1 else 0
        perVectorInfo := fun v => !leadsPositive from_ (info.dvList.getD v fun _ => 0#16) }
    let (d, w) ← permutableLoop a info.nloops dcnt kept.length dcnt 0 w
    if d = info.nloops then
      require .assertion (isFullyPermutable info from_ dcnt = isIdentity dcnt w.m)
      return some w.m
    else return none

end Routine

/-! ## The invariant -/

/-- `described v x` says that vector `v` of the list stands for `x`. -/
structure Inv (described : Nat → (Nat → Int) → Prop) (n vmax d : Nat) (w : Work) : Prop where
  contains : ∀ v < vmax, ∀ x, described v x → ∀ r < n, (w.dp v r).Contains (∑ c ∈ range n, w.m r c * x c)
  settled : ∀ v < vmax, ∀ r < d, (w.dp v r).unboundedMin = false ∧ 0 ≤ (w.dp v r).min
  lower : ∀ r < d, ∀ c, r < c → w.m r c = 0
  diag : ∀ r < d, w.m r r = 1 ∨ w.m r r = -1
  rest : ∀ r, d ≤ r → ∀ c, w.m r c = if r = c then 1 else 0

theorem foldlM_update_ok {α : Type} {f : Nat → Except Fault α} {n : Nat} {init r : Nat → α}
    (h : (List.range n).foldlM (fun col v => do
      let x ← f v
      return Function.update col v x) init = .ok r) : ∀ v < n, f v = .ok (r v) := by
  refine foldlM_range_ok (fun k s => ∀ v < k, f v = .ok (s v)) (fun v hv => absurd hv (Nat.not_lt_zero v)) ?_ h
  intro k s s' _ hs hstep v hv
  rw [bind_eq_ok] at hstep
  obtain ⟨x, hx, hret⟩ := hstep
  cases hret
  by_cases hvk : v = k
  · rw [hvk, Function.update_self]
    exact hx
  · rw [Function.update_of_ne hvk]
    exact hs v (by omega)

/-! ## The scan -/

structure ScanInv (dp : Nat → Nat → SnlDep) (d k : Nat) (s : Scan) : Prop where
  noMax : s.unboundedMax = false → ∀ v < k, (dp v d).unboundedMax = false ∧ (dp v d).max ≤ s.maxpos
  noMin : s.unboundedMin = false → ∀ v < k, (dp v d).unboundedMin = false ∧ s.minneg ≤ (dp v d).min

theorem scanStep_inv {dp : Nat → Nat → SnlDep} {d k : Nat} {s : Scan} (h : ScanInv dp d k s) :
    ScanInv dp d (k + 1) (scanStep dp d s k) := by
  constructor
  · intro hs v hv
    cases hu : (dp k d).unboundedMax with
    | true => simp [scanStep, hu] at hs
    | false =>
      simp only [scanStep, hu, Bool.false_eq_true, if_false] at hs ⊢
      rcases Nat.lt_succ_iff_lt_or_eq.mp hv with hlt | rfl
      · obtain ⟨h1, h2⟩ := h.noMax hs v hlt
        refine ⟨h1, ?_⟩
        split_ifs <;> omega
      · refine ⟨hu, ?_⟩
        split_ifs <;> omega
  · intro hs v hv
    cases hu : (dp k d).unboundedMin with
    | true => simp [scanStep, hu] at hs
    | false =>
      simp only [scanStep, hu, Bool.false_eq_true, if_false] at hs ⊢
      rcases Nat.lt_succ_iff_lt_or_eq.mp hv with hlt | rfl
      · obtain ⟨h1, h2⟩ := h.noMin hs v hlt
        refine ⟨h1, ?_⟩
        split_ifs <;> omega
      · refine ⟨hu, ?_⟩
        split_ifs <;> omega

theorem scan_inv (dp : Nat → Nat → SnlDep) (vmax d : Nat) : ScanInv dp d vmax (scan dp vmax d) := by
  refine foldl_range (ScanInv dp d) ?_ fun k s _ hs => scanStep_inv hs
  exact ⟨fun _ v hv => absurd hv (Nat.not_lt_zero v), fun _ v hv => absurd hv (Nat.not_lt_zero v)⟩

/-! ## Reversal -/

theorem sum_identity_row {n r : Nat} (hr : r < n) (m x : Nat → Int) (q : Int) (hm : ∀ c, m c = if r = c then q else 0) :
    ∑ c ∈ range n, m c * x c = q * x r := by
  rw [sum_eq_single r]
  · rw [hm, if_pos rfl]
  · intro c _ hc
    rw [hm, if_neg (Ne.symm hc), zero_mul]
  · intro hnot
    exact absurd (mem_range.mpr hr) hnot

/-- Reversing loop `d` keeps the summaries right and leaves row `d` a unit row. -/
theorem reverse_ok {described : Nat → (Nat → Int) → Prop} {n vmax d : Nat} {w w' : Work} (hd : d < n)
    (h : Inv described n vmax d w) (hw : reverse checked vmax d w = .ok w') :
    (∀ v < vmax, ∀ x, described v x → ∀ r < n, (w'.dp v r).Contains (∑ c ∈ range n, w'.m r c * x c)) ∧
    (∀ v < vmax, (w'.dp v d).min = -(w.dp v d).max ∧ (w'.dp v d).unboundedMin = (w.dp v d).unboundedMax) ∧
    (∀ v, ∀ r, r ≠ d → w'.dp v r = w.dp v r) ∧
    (∀ r c, w'.m r c = if r = d ∧ c = d then -1 else w.m r c) := by
  unfold reverse at hw
  rw [bind_eq_ok] at hw
  obtain ⟨col, hcol, hret⟩ := hw
  cases hret
  have hcol := foldlM_update_ok hcol
  refine ⟨?_, ?_, ?_, fun r c => rfl⟩
  · intro v hv x hx r hr
    by_cases hrd : r = d
    · subst hrd
      have hneg := (SnlDep.negateMe_ok (hcol v hv)).2.2.2 _ (h.contains v hv x hx r hr)
      simp only [setColumn, if_true, true_and]
      rw [sum_identity_row hr _ x (-1)]
      · rw [sum_identity_row hr _ x 1 (h.rest r le_rfl)] at hneg
        rw [neg_one_mul]
        rwa [one_mul] at hneg
      · intro c
        by_cases hc : r = c
        · simp [hc]
        · simp only [if_neg (Ne.symm hc), h.rest r le_rfl c, if_neg hc]
    · simp only [setColumn, hrd, false_and, if_false]
      exact h.contains v hv x hx r hr
  · intro v hv
    obtain ⟨h1, h2, -, -⟩ := SnlDep.negateMe_ok (hcol v hv)
    simp only [setColumn, if_true]
    exact ⟨h1, h2⟩
  · intro v r hr
    simp only [setColumn, if_neg hr]

/-! ## The skew factors -/

/-- With these factors, component `d` of vector `v` is not negative. -/
def Fixed (dp : Nat → Nat → SnlDep) (d : Nat) (factors : Nat → Int) (v : Nat) : Prop :=
  0 ≤ (dp v d).min + ∑ dd ∈ range d, factors dd * (dp v dd).min

theorem Fixed.mono {dp : Nat → Nat → SnlDep} {d v : Nat} {f g : Nat → Int} (hpos : ∀ dd < d, 0 ≤ (dp v dd).min)
    (hfg : ∀ dd, f dd ≤ g dd) (h : Fixed dp d f v) : Fixed dp d g v := by
  have hle : ∑ dd ∈ range d, f dd * (dp v dd).min ≤ ∑ dd ∈ range d, g dd * (dp v dd).min :=
    sum_le_sum fun dd hdd => mul_le_mul_of_nonneg_right (hfg dd) (hpos dd (mem_range.mp hdd))
  unfold Fixed at h ⊢
  omega

theorem ceilFactor_ok {dist q k : Int} (hq : 0 < q) (hdist : dist < 0) (h : ceilFactor checked dist q = .ok k) :
    0 ≤ k ∧ 0 ≤ dist + k * q := by
  unfold ceilFactor at h
  simp only [bind_eq_ok] at h
  obtain ⟨a, ha, b, hb, c, hc, hret⟩ := h
  cases hret
  rw [(int32_eq_ok hc).1, (int32_eq_ok hb).1, (int32_eq_ok ha).1]
  have hnn : 0 ≤ -dist + q - 1 := by omega
  rw [Int.tdiv_eq_ediv_of_nonneg hnn]
  have hdiv := Int.mul_ediv_add_emod (-dist + q - 1) q
  have hmod := Int.emod_lt_of_pos (-dist + q - 1) hq
  refine ⟨Int.ediv_nonneg hnn hq.le, ?_⟩
  rw [mul_comm]
  omega

/-- What the search for a single positive component finds. -/
structure LeadInv (dp : Nat → Nat → SnlDep) (v k : Nat) (l : Lead) : Prop where
  single : 0 ≤ l.ddpos → l.ddpos.toNat < k ∧ l.ddposmin = (dp v l.ddpos.toNat).min ∧ 0 < l.ddposmin
  range : -2 ≤ l.ddpos
  several : l.ddpos = -2 → 0 < k ∧ l.taken = false

theorem lead_ok {dp : Nat → Nat → SnlDep} {v d : Nat} {l : Lead} (h : lead dp v d = .ok l) : LeadInv dp v d l := by
  refine foldlM_range_ok (LeadInv dp v) ⟨fun h => absurd h (by decide), by decide, fun h => absurd h (by decide)⟩ ?_ h
  intro k s s' _ hs hstep
  rw [bind_eq_ok] at hstep
  obtain ⟨-, -, hstep⟩ := hstep
  split_ifs at hstep with hpos hfirst
  · cases hstep
    refine ⟨fun _ => ⟨?_, ?_, hpos⟩, by simp only; omega, fun h => ?_⟩
    · simp
    · simp
    · simp only at h
      omega
  · cases hstep
    exact ⟨fun h => absurd h (by simp), by simp, fun _ => ⟨Nat.succ_pos k, rfl⟩⟩
  · cases hstep
    refine ⟨fun h => ?_, hs.range, fun h => ⟨Nat.succ_pos k, (hs.several h).2⟩⟩
    obtain ⟨h1, h2⟩ := hs.single h
    exact ⟨h1.trans (Nat.lt_succ_self k), h2⟩

section Factors

variable {dp : Nat → Nat → SnlDep} {d vmax : Nat} (hpos : ∀ v < vmax, ∀ dd < d, 0 ≤ (dp v dd).min)
include hpos

/-- The state of the forced skews after the vectors below `k`. -/
structure ForcedInv (dp : Nat → Nat → SnlDep) (d k : Nat) (s : (Nat → Int) × (Nat → Bool)) : Prop where
  nonneg : ∀ dd, 0 ≤ s.1 dd
  fixed : ∀ v < k, Fixed dp d s.1 v ∨ (s.2 v = false ∧ 0 < d)

theorem fixed_of_min_nonneg {factors : Nat → Int} (hf : ∀ dd, 0 ≤ factors dd) {v : Nat} (hv : v < vmax)
    (h : 0 ≤ (dp v d).min) : Fixed dp d factors v :=
  add_nonneg h (sum_nonneg fun dd hdd => mul_nonneg (hf dd) (hpos v hv dd (mem_range.mp hdd)))

theorem fixed_of_factor {factors : Nat → Int} (hf : ∀ dd, 0 ≤ factors dd) {v p : Nat} (hv : v < vmax) (hp : p < d)
    (h : 0 ≤ (dp v d).min + factors p * (dp v p).min) : Fixed dp d factors v := by
  have hle : factors p * (dp v p).min ≤ ∑ dd ∈ range d, factors dd * (dp v dd).min :=
    single_le_sum (fun dd hdd => mul_nonneg (hf dd) (hpos v hv dd (mem_range.mp hdd))) (mem_range.mpr hp)
  unfold Fixed
  omega

theorem forcedStep_inv {k : Nat} (hk : k < vmax) {s s' : (Nat → Int) × (Nat → Bool)} (h : ForcedInv dp d k s)
    (hstep : forcedStep checked dp d s k = .ok s') : ForcedInv dp d (k + 1) s' := by
  -- every outcome keeps or raises the factors and only changes what is recorded for vector `k`
  have hkeep : ∀ (f : Nat → Int) (b : Bool), (∀ dd, s.1 dd ≤ f dd) → (Fixed dp d f k ∨ (b = false ∧ 0 < d)) →
      ForcedInv dp d (k + 1) (f, Function.update s.2 k b) := by
    intro f b hf hfix
    refine ⟨fun dd => (h.nonneg dd).trans (hf dd), fun v hv => ?_⟩
    by_cases hvk : v = k
    · subst hvk
      simp only [Function.update_self]
      exact hfix
    · simp only [Function.update_of_ne hvk]
      rcases h.fixed v (by omega) with hfix | hinfo
      · exact Or.inl (hfix.mono (hpos v (by omega)) hf)
      · exact Or.inr hinfo
  unfold forcedStep at hstep
  by_cases hmin : (dp k d).min ≥ 0
  · simp only [if_pos hmin] at hstep
    cases hstep
    have := hkeep s.1 (s.2 k) (fun _ => le_rfl) (Or.inl (fixed_of_min_nonneg hpos h.nonneg hk hmin))
    rwa [Function.update_eq_self] at this
  · simp only [if_neg hmin, bind_eq_ok, require_eq_ok] at hstep
    obtain ⟨l, hl, -, hone, hstep⟩ := hstep
    have hlead := lead_ok hl
    by_cases htwo : l.ddpos = -2
    · rw [if_neg (not_not.mpr htwo)] at hstep
      cases hstep
      obtain ⟨hd, htaken⟩ := hlead.several htwo
      exact hkeep s.1 l.taken (fun _ => le_rfl) (Or.inr ⟨htaken, hd⟩)
    · rw [if_pos htwo, bind_eq_ok] at hstep
      obtain ⟨newfactor, hnew, hstep⟩ := hstep
      have hrange := hlead.range
      obtain ⟨hlt, hddmin, hq⟩ := hlead.single (by omega)
      obtain ⟨-, henough⟩ := ceilFactor_ok hq (not_le.mp hmin) hnew
      have hfix : ∀ f : Nat → Int, (∀ dd, s.1 dd ≤ f dd) → newfactor ≤ f l.ddpos.toNat → Fixed dp d f k := by
        intro f hf hle
        refine fixed_of_factor hpos (fun dd => (h.nonneg dd).trans (hf dd)) hk hlt ?_
        rw [← hddmin]
        have := mul_le_mul_of_nonneg_right hle hq.le
        omega
      split_ifs at hstep with hbig
      · cases hstep
        have hup : ∀ dd, s.1 dd ≤ Function.update s.1 l.ddpos.toNat newfactor dd := by
          intro dd
          by_cases hdd : dd = l.ddpos.toNat
          · rw [hdd, Function.update_self]
            omega
          · rw [Function.update_of_ne hdd]
        exact hkeep _ l.taken hup (Or.inl (hfix _ hup (by rw [Function.update_self])))
      · cases hstep
        exact hkeep s.1 l.taken (fun _ => le_rfl) (Or.inl (hfix s.1 (fun _ => le_rfl) (by omega)))

/-- All vectors after the forced skews. -/
theorem forced_fixed {info : Nat → Bool} {r : (Nat → Int) × (Nat → Bool)}
    (h : (List.range vmax).foldlM (forcedStep checked dp d) (fun _ => 0, info) = .ok r) : ForcedInv dp d vmax r := by
  refine foldlM_range_ok (ForcedInv dp d) ⟨fun _ => le_rfl, fun v hv => absurd hv (Nat.not_lt_zero v)⟩ ?_ h
  intro k s s' hk hs hstep
  exact forcedStep_inv hpos hk hs hstep

end Factors

/-- The search for one remaining vector after the components below `k`. -/
structure ChoiceInv (dp : Nat → Nat → SnlDep) (d v : Nat) (factors : Nat → Int) (k : Nat) (s : Choice) : Prop where
  mono : ∀ dd, factors dd ≤ s.factors dd
  vdist : s.vdist ≤ (dp v d).min + ∑ dd ∈ range k, s.factors dd * (dp v dd).min
  last : 0 ≤ s.ddpos → s.ddpos.toNat < k ∧ s.ddposmin = (dp v s.ddpos.toNat).min ∧ 0 < s.ddposmin
  fixed : 0 < k → 0 ≤ (dp v d).min + ∑ dd ∈ range k, s.factors dd * (dp v dd).min

theorem sum_update_add {k p : Nat} (hp : p < k) (f g : Nat → Int) (more : Int) :
    ∑ dd ∈ range k, Function.update f p (f p + more) dd * g dd = ∑ dd ∈ range k, f dd * g dd + more * g p := by
  have hsplit : ∀ dd, Function.update f p (f p + more) dd * g dd = f dd * g dd + if dd = p then more * g p else 0 := by
    intro dd
    by_cases hdd : dd = p
    · subst hdd
      rw [Function.update_self, if_pos rfl]
      ring
    · rw [Function.update_of_ne hdd, if_neg hdd, add_zero]
  simp only [hsplit]
  rw [sum_add_distrib, sum_ite_eq', if_pos (mem_range.mpr hp)]

theorem choiceStep_inv {dp : Nat → Nat → SnlDep} {d v : Nat} {factors : Nat → Int} {k : Nat} {s s' : Choice}
    (h : ChoiceInv dp d v factors k s) (hstep : choiceStep checked dp v s k = .ok s') :
    ChoiceInv dp d v factors (k + 1) s' := by
  unfold choiceStep at hstep
  simp only [bind_eq_ok, require_eq_ok] at hstep
  obtain ⟨-, hnn, s1, hs1, hstep⟩ := hstep
  -- after the component itself, before the bump
  have h1 : (∀ dd, factors dd ≤ s1.factors dd) ∧
      s1.vdist ≤ (dp v d).min + ∑ dd ∈ range (k + 1), s1.factors dd * (dp v dd).min ∧
      (0 ≤ s1.ddpos → s1.ddpos.toNat < k + 1 ∧ s1.ddposmin = (dp v s1.ddpos.toNat).min ∧ 0 < s1.ddposmin) := by
    have hv := h.vdist
    simp only [choiceReach] at hs1
    split_ifs at hs1 with hpos
    · simp only [bind_eq_ok] at hs1
      obtain ⟨p, hp, vd, hvd, hret⟩ := hs1
      cases hret
      have hp := (int32_eq_ok hp).1
      have hvd := (int32_eq_ok hvd).1
      refine ⟨h.mono, ?_, fun _ => ⟨by simp, by simp, hpos⟩⟩
      rw [sum_range_succ]
      simp only
      omega
    · cases hs1
      have hzero : (dp v k).min = 0 := by omega
      refine ⟨h.mono, ?_, fun hp => ?_⟩
      · rw [sum_range_succ, hzero, mul_zero]
        omega
      · obtain ⟨h1, h2⟩ := h.last hp
        exact ⟨by omega, h2⟩
  obtain ⟨hmono, hvdist, hlast⟩ := h1
  unfold choiceRaise at hstep
  split_ifs at hstep with hneg
  · simp only [bind_eq_ok, require_eq_ok] at hstep
    obtain ⟨-, hpos, more, hmore, factor, hfactor, hret⟩ := hstep
    cases hret
    obtain ⟨hlt, hddmin, hq⟩ := hlast hpos
    obtain ⟨hmore0, henough⟩ := ceilFactor_ok hq hneg hmore
    have hfactor := (int32_eq_ok hfactor).1
    subst hfactor
    have hsum := sum_update_add hlt s1.factors (fun dd => (dp v dd).min) more
    have hgain : 0 ≤ more * (dp v s1.ddpos.toNat).min := by
      rw [← hddmin]
      exact mul_nonneg hmore0 hq.le
    rw [hddmin] at henough
    refine ⟨fun dd => ?_, ?_, hlast, fun _ => ?_⟩
    · by_cases hdd : dd = s1.ddpos.toNat
      · have := hmono dd
        simp only [hdd, Function.update_self] at this ⊢
        omega
      · simp only [Function.update_of_ne hdd]
        exact hmono dd
    · simp only [hsum]
      omega
    · simp only [hsum]
      omega
  · cases hstep
    exact ⟨hmono, hvdist, hlast, fun _ => by omega⟩

/-- All vectors after the chosen skews. -/
theorem chosen_fixed {dp : Nat → Nat → SnlDep} {d vmax : Nat} (hpos : ∀ v < vmax, ∀ dd < d, 0 ≤ (dp v dd).min)
    {info : Nat → Bool} {factors r : Nat → Int} (hforced : ForcedInv dp d vmax (factors, info))
    (h : (List.range vmax).foldlM (chosenStep checked dp d info) factors = .ok r) :
    (∀ dd, factors dd ≤ r dd) ∧ ∀ v < vmax, Fixed dp d r v := by
  refine foldlM_range_ok (fun k f => (∀ dd, factors dd ≤ f dd) ∧ ∀ v < k, Fixed dp d f v)
    ⟨fun _ => le_rfl, fun v hv => absurd hv (Nat.not_lt_zero v)⟩ ?_ h
  intro k f f' hk hf hstep
  obtain ⟨hmono, hfix⟩ := hf
  have hkeep : ∀ g : Nat → Int, (∀ dd, f dd ≤ g dd) → Fixed dp d g k →
      (∀ dd, factors dd ≤ g dd) ∧ ∀ v < k + 1, Fixed dp d g v := by
    intro g hg hk'
    refine ⟨fun dd => (hmono dd).trans (hg dd), fun v hv => ?_⟩
    rcases Nat.lt_succ_iff_lt_or_eq.mp hv with hlt | rfl
    · exact (hfix v hlt).mono (hpos v (by omega)) hg
    · exact hk'
  unfold chosenStep at hstep
  cases hinfo : info k with
  | true =>
    simp only [hinfo, if_true] at hstep
    cases hstep
    rcases hforced.fixed k hk with hfixed | ⟨hfalse, -⟩
    · exact hkeep f (fun _ => le_rfl) (hfixed.mono (hpos k hk) hmono)
    · exact absurd (hinfo.symm.trans hfalse) (by decide)
  | false =>
    simp only [hinfo, Bool.false_eq_true, if_false, bind_eq_ok] at hstep
    obtain ⟨c, hc, hret⟩ := hstep
    cases hret
    have hchoice : ChoiceInv dp d k f d c := by
      refine foldlM_range_ok (ChoiceInv dp d k f) ?_ (fun _ _ _ _ hs hstep => choiceStep_inv hs hstep) hc
      exact ⟨fun _ => le_rfl, by simp, fun h => absurd h (by simp), fun h => absurd h (by simp)⟩
    refine hkeep c.factors hchoice.mono ?_
    by_cases hd : 0 < d
    · exact hchoice.fixed hd
    · rcases hforced.fixed k hk with hfixed | ⟨-, hd'⟩
      · exact (hfixed.mono (hpos k hk) hmono).mono (hpos k hk) hchoice.mono
      · exact absurd hd' hd

/-! ## The skew -/

theorem sum_skew_row (n d : Nat) (m : Nat → Nat → Int) (factors x : Nat → Int) :
    ∑ c ∈ range n, (m d c + ∑ dd ∈ range d, factors dd * m dd c) * x c =
      ∑ c ∈ range n, m d c * x c + ∑ dd ∈ range d, factors dd * ∑ c ∈ range n, m dd c * x c := by
  simp only [add_mul, sum_add_distrib, sum_mul, mul_sum]
  rw [sum_comm]
  simp only [mul_assoc]

theorem skewDep_min {dp : Nat → Nat → SnlDep} {factors : Nat → Int} {d v : Nat} {dep : SnlDep}
    (h : skewDep checked dp factors d v = .ok dep) :
    dep.unboundedMin = false ∧ dep.min = (dp v d).min + ∑ dd ∈ range d, factors dd * (dp v dd).min := by
  unfold skewDep at h
  rw [bind_eq_ok] at h
  obtain ⟨dmin, hdmin, hret⟩ := h
  cases hret
  refine ⟨?_, checkedSum_ok hdmin⟩
  unfold SnlDep.unboundedMin
  split_ifs <;> rfl

theorem skewDep_contains {dp : Nat → Nat → SnlDep} {factors : Nat → Int} {d v : Nat} {dep : SnlDep}
    (hf : ∀ dd, 0 ≤ factors dd) (hmin : ∀ dd ≤ d, (dp v dd).unboundedMin = false)
    (h : skewDep checked dp factors d v = .ok dep) {y : Nat → Int} (hy : ∀ dd ≤ d, (dp v dd).Contains (y dd)) :
    dep.Contains (y d + ∑ dd ∈ range d, factors dd * y dd) := by
  unfold skewDep at h
  rw [bind_eq_ok] at h
  obtain ⟨dmin, hdmin, hret⟩ := h
  have hdmin := checkedSum_ok hdmin
  cases hret
  have hlow : dmin ≤ y d + ∑ dd ∈ range d, factors dd * y dd := by
    rw [hdmin]
    refine add_le_add ((hy d le_rfl).min_le (hmin d le_rfl)) (sum_le_sum fun dd hdd => ?_)
    have hdd := (mem_range.mp hdd).le
    exact mul_le_mul_of_nonneg_left ((hy dd hdd).min_le (hmin dd hdd)) (hf dd)
  cases hconst : (!(dp v d).unboundedMax && (List.range d).all fun dd => !(dp v dd).unboundedMax) with
  | false =>
    simp only [Bool.false_eq_true, if_false]
    exact hlow
  | true =>
    simp only [if_true]
    simp only [Bool.and_eq_true, Bool.not_eq_true', List.all_eq_true, List.mem_range] at hconst
    have hexact : y d + ∑ dd ∈ range d, factors dd * y dd ≤ dmin := by
      rw [hdmin]
      refine add_le_add ((hy d le_rfl).le_max hconst.1) (sum_le_sum fun dd hdd => ?_)
      have hdd := mem_range.mp hdd
      exact mul_le_mul_of_nonneg_left ((hy dd hdd.le).le_max (hconst.2 dd hdd)) (hf dd)
    exact le_antisymm hexact hlow

/-- What `Inv` needs of a loop that was oriented but not yet skewed. -/
structure Oriented (described : Nat → (Nat → Int) → Prop) (n vmax d : Nat) (w : Work) : Prop where
  contains : ∀ v < vmax, ∀ x, described v x → ∀ r < n, (w.dp v r).Contains (∑ c ∈ range n, w.m r c * x c)
  settled : ∀ v < vmax, ∀ r < d, (w.dp v r).unboundedMin = false ∧ 0 ≤ (w.dp v r).min
  bounded : ∀ v < vmax, (w.dp v d).unboundedMin = false
  lower : ∀ r < d, ∀ c, r < c → w.m r c = 0
  diag : ∀ r ≤ d, w.m r r = 1 ∨ w.m r r = -1
  unit : ∀ c, c ≠ d → w.m d c = 0
  rest : ∀ r, d < r → ∀ c, w.m r c = if r = c then 1 else 0

variable {described : Nat → (Nat → Int) → Prop} {n vmax d : Nat} {w w' : Work}

theorem Oriented.inv (h : Oriented described n vmax d w) (hnn : ∀ v < vmax, 0 ≤ (w.dp v d).min) :
    Inv described n vmax (d + 1) w := by
  refine ⟨h.contains, fun v hv r hr => ?_, fun r hr c hc => ?_, fun r hr => h.diag r (by omega), fun r hr => h.rest r hr⟩
  · rcases Nat.lt_succ_iff_lt_or_eq.mp hr with hlt | rfl
    · exact h.settled v hv r hlt
    · exact ⟨h.bounded v hv, hnn v hv⟩
  · rcases Nat.lt_succ_iff_lt_or_eq.mp hr with hlt | rfl
    · exact h.lower r hlt c hc
    · exact h.unit c (by omega)

/-- What the skew leaves: new components in column `d`, a new row `d`. -/
theorem skew_ok {factors : Nat → Int} (hw : skew checked n n vmax d factors w = .ok w') :
    (∀ v < vmax, skewDep checked w.dp factors d v = .ok (w'.dp v d)) ∧ (∀ v r, r ≠ d → w'.dp v r = w.dp v r) ∧
    (∀ c < n, w'.m d c = w.m d c + ∑ dd ∈ range d, factors dd * w.m dd c) ∧
    (∀ c, n ≤ c → w'.m d c = w.m d c) ∧ (∀ r, r ≠ d → ∀ c, w'.m r c = w.m r c) := by
  unfold skew at hw
  simp only [bind_eq_ok] at hw
  obtain ⟨col, hcol, -, -, newrow, hnewrow, hret⟩ := hw
  have hcol := foldlM_update_ok hcol
  have hnewrow := foldlM_update_ok hnewrow
  cases hret
  refine ⟨fun v hv => ?_, fun v r hr => ?_, fun c hc => ?_, fun c hc => ?_, fun r hr c => ?_⟩
  · simp only [setColumn, if_true]
    exact hcol v hv
  · simp only [setColumn, if_neg hr]
  · simp only [true_and, if_pos hc]
    exact checkedSum_ok (hnewrow c hc)
  · simp only [true_and, if_neg (not_lt.mpr hc)]
  · simp only [hr, false_and, if_false]

theorem skew_inv (hd : d < n) {factors : Nat → Int} (hf : ∀ dd, 0 ≤ factors dd) (h : Oriented described n vmax d w)
    (hfix : ∀ v < vmax, Fixed w.dp d factors v) (hw : skew checked n n vmax d factors w = .ok w') :
    Inv described n vmax (d + 1) w' := by
  obtain ⟨hcol, hdp, hrow, hrow', hm⟩ := skew_ok hw
  -- the factors only reach columns left of the diagonal
  have hskew0 : ∀ c, d ≤ c → ∑ dd ∈ range d, factors dd * w.m dd c = 0 := by
    intro c hc
    refine sum_eq_zero fun dd hdd => ?_
    have hdd := mem_range.mp hdd
    rw [h.lower dd hdd c (by omega), mul_zero]
  refine ⟨fun v hv x hx r hr => ?_, fun v hv r hr => ?_, fun r hr c hc => ?_, fun r hr => ?_, fun r hr c => ?_⟩
  · by_cases hrd : r = d
    · subst hrd
      have hmin : ∀ dd ≤ r, (w.dp v dd).unboundedMin = false := by
        intro dd hdd
        rcases Nat.lt_or_eq_of_le hdd with hlt | rfl
        · exact (h.settled v hv dd hlt).1
        · exact h.bounded v hv
      have hc := skewDep_contains hf hmin (hcol v hv) (y := fun dd => ∑ c ∈ range n, w.m dd c * x c)
        fun dd hdd => h.contains v hv x hx dd (by omega)
      rw [sum_congr rfl fun c hc => by rw [hrow c (mem_range.mp hc)], sum_skew_row]
      exact hc
    · rw [hdp v r hrd]
      simp only [hm r hrd]
      exact h.contains v hv x hx r hr
  · rcases Nat.lt_succ_iff_lt_or_eq.mp hr with hlt | rfl
    · rw [hdp v r hlt.ne]
      exact h.settled v hv r hlt
    · obtain ⟨h1, h2⟩ := skewDep_min (hcol v hv)
      rw [h2]
      exact ⟨h1, hfix v hv⟩
  · rcases Nat.lt_succ_iff_lt_or_eq.mp hr with hlt | rfl
    · rw [hm r hlt.ne]
      exact h.lower r hlt c hc
    · by_cases hcn : c < n
      · rw [hrow c hcn, h.unit c (by omega), hskew0 c hc.le, add_zero]
      · rw [hrow' c (by omega)]
        exact h.unit c (by omega)
  · rcases Nat.lt_succ_iff_lt_or_eq.mp hr with hlt | rfl
    · rw [hm r hlt.ne]
      exact h.diag r hlt.le
    · rw [hrow r hd, hskew0 r le_rfl, add_zero]
      exact h.diag r le_rfl
  · rw [hm r (by omega)]
    exact h.rest r hr c

/-! ## The loop over the nest -/

/-- Orientation bounds every component below, by the distance it returns. -/
theorem orient_ok (hd : d < n) (h : Inv described n vmax d w) {minneg : Int}
    (hboth : ((scan w.dp vmax d).unboundedMax && (scan w.dp vmax d).unboundedMin) = false)
    (hw : orient checked vmax d (scan w.dp vmax d) w = .ok (w', minneg)) :
    Oriented described n vmax d w' ∧ ∀ v < vmax, minneg ≤ (w'.dp v d).min := by
  have hscan := scan_inv w.dp vmax d
  unfold orient at hw
  cases hmin : (scan w.dp vmax d).unboundedMin with
  | true =>
    simp only [hmin, if_true, bind_eq_ok] at hw
    obtain ⟨w1, hrev, mn, hmn, hret⟩ := hw
    cases hret
    obtain ⟨hcont, hcol, hdp, hm⟩ := reverse_ok hd h hrev
    have hmax : (scan w.dp vmax d).unboundedMax = false := by
      rw [hmin, Bool.and_true] at hboth
      exact hboth
    refine ⟨⟨hcont, fun v hv r hr => ?_, fun v hv => ?_, fun r hr c hc => ?_, fun r hr => ?_, fun c hc => ?_,
      fun r hr c => ?_⟩, fun v hv => ?_⟩
    · rw [hdp v r hr.ne]
      exact h.settled v hv r hr
    · rw [(hcol v hv).2]
      exact (hscan.noMax hmax v hv).1
    · rw [hm, if_neg (by omega)]
      exact h.lower r hr c hc
    · rcases Nat.lt_or_eq_of_le hr with hlt | rfl
      · rw [hm, if_neg (by omega)]
        exact h.diag r hlt
      · rw [hm, if_pos ⟨rfl, rfl⟩]
        exact Or.inr rfl
    · rw [hm, if_neg (by omega), h.rest d le_rfl, if_neg (Ne.symm hc)]
    · rw [hm, if_neg (by omega)]
      exact h.rest r hr.le c
    · rw [(int32_eq_ok hmn).1, (hcol v hv).1]
      have := (hscan.noMax hmax v hv).2
      omega
  | false =>
    simp only [hmin, Bool.false_eq_true, if_false] at hw
    cases hw
    refine ⟨⟨h.contains, h.settled, fun v hv => (hscan.noMin hmin v hv).1, h.lower, fun r hr => ?_, fun c hc => ?_,
      fun r hr => h.rest r hr.le⟩, fun v hv => (hscan.noMin hmin v hv).2⟩
    · rcases Nat.lt_or_eq_of_le hr with hlt | rfl
      · exact h.diag r hlt
      · rw [h.rest r le_rfl, if_pos rfl]
        exact Or.inl rfl
    · rw [h.rest d le_rfl, if_neg (Ne.symm hc)]

theorem skewFactors_ok (h : Oriented described n vmax d w) {r : (Nat → Int) × (Nat → Bool)}
    (hr : skewFactors checked vmax d w = .ok r) : (∀ dd, 0 ≤ r.1 dd) ∧ ∀ v < vmax, Fixed w.dp d r.1 v := by
  unfold skewFactors at hr
  simp only [bind_eq_ok] at hr
  obtain ⟨-, -, s, hs, factors, hfactors, hret⟩ := hr
  cases hret
  have hpos : ∀ v < vmax, ∀ dd < d, 0 ≤ (w.dp v dd).min := fun v hv dd hdd => (h.settled v hv dd hdd).2
  have hforced := forced_fixed hpos hs
  obtain ⟨hmono, hfix⟩ := chosen_fixed hpos hforced hfactors
  exact ⟨fun dd => (hforced.nonneg dd).trans (hmono dd), hfix⟩

/-- One loop more is done. -/
theorem makePermutable_inv (hd : d < n) (h : Inv described n vmax d w)
    (hw : makePermutable checked n n vmax d w = .ok (some w')) : Inv described n vmax (d + 1) w' := by
  unfold makePermutable at hw
  simp only at hw
  split_ifs at hw with hboth
  · cases hw
  rw [bind_eq_ok] at hw
  obtain ⟨⟨w1, minneg⟩, horient, hw⟩ := hw
  obtain ⟨hor, hmin⟩ := orient_ok hd h (Bool.eq_false_iff.mpr hboth) horient
  simp only at hw
  split_ifs at hw with hzero
  · cases hw
    subst hzero
    exact hor.inv hmin
  rw [bind_eq_ok] at hw
  obtain ⟨⟨factors, info⟩, hfactors, hw⟩ := hw
  obtain ⟨hnn, hfix⟩ := skewFactors_ok hor hfactors
  simp only at hw
  split_ifs at hw
  · rw [bind_eq_ok] at hw
    obtain ⟨w2, hskew, hret⟩ := hw
    cases hret
    have hor' : Oriented described n vmax d { w1 with perVectorInfo := info } :=
      ⟨hor.contains, hor.settled, hor.bounded, hor.lower, hor.diag, hor.unit, hor.rest⟩
    exact skew_inv hd hnn hor' hfix hskew
  · cases hw

theorem permutableLoop_inv {k d' : Nat} (hk : d + k = n) (h : Inv described n vmax d w)
    (hw : permutableLoop checked n n vmax k d w = .ok (d', w')) (hend : d' = n) : Inv described n vmax n w' := by
  induction k generalizing d w with
  | zero =>
    cases hw
    subst hend
    exact h
  | succ k ih =>
    rw [permutableLoop, bind_eq_ok] at hw
    obtain ⟨o, ho, hw⟩ := hw
    cases o with
    | none =>
      cases hw
      omega
    | some w1 => exact ih (by omega) (makePermutable_inv (by omega) h ho) hw

/-! ## The result -/

theorem Inv.det (h : Inv described n vmax n w) :
    (Matrix.of fun i j : Fin n => w.m i j).det = 1 ∨ (Matrix.of fun i j : Fin n => w.m i j).det = -1 := by
  have hlower : (Matrix.of fun i j : Fin n => w.m i j).IsLowerTriangular := fun i j hij => h.lower i i.2 j hij
  rw [Matrix.det_of_isLowerTriangular _ hlower]
  refine Finset.prod_induction _ (fun q : Int => q = 1 ∨ q = -1) ?_ (Or.inl rfl) fun i _ => h.diag i i.2
  rintro a b (rfl | rfl) (rfl | rfl) <;> simp

theorem Inv.nonneg (h : Inv described n vmax n w) {v : Nat} (hv : v < vmax) {x : Nat → Int} (hx : described v x)
    {r : Nat} (hr : r < n) : 0 ≤ ∑ c ∈ range n, w.m r c * x c := by
  obtain ⟨hb, hmin⟩ := h.settled v hv r hr
  exact hmin.trans ((h.contains v hv x hx r hr).min_le hb)

theorem Inv.init (dvList : List (Nat → Dep)) (n : Nat) (info : Nat → Bool) :
    Inv (fun v x => ∀ i < n, Describes (dvList.getD v (fun _ => 0#16) i) (x i)) n dvList.length 0
      ⟨fun v d => SnlDep.ofDep (dvList.getD v (fun _ => 0#16) (0 + d)), fun r c => if r = c then 1 else 0, info⟩ := by
  refine ⟨fun v _ x hx r hr => ?_, fun _ _ r hr => absurd hr (Nat.not_lt_zero r),
    fun r hr => absurd hr (Nat.not_lt_zero r), fun r hr => absurd hr (Nat.not_lt_zero r), fun r _ c => rfl⟩
  rw [sum_identity_row hr _ x 1 (fun c => rfl), one_mul]
  show (SnlDep.ofDep (dvList.getD v (fun _ => 0#16) (0 + r))).Contains (x r)
  rw [Nat.zero_add]
  exact ofDep_contains (hx r hr)

theorem checked_correct (info : SnlDepInfo) (m : Nat → Nat → Int)
    (h : uFullyPermutable checked info 0 (info.nloops - 1) = .ok (some m)) :
    let M : Matrix (Fin info.nloops) (Fin info.nloops) ℤ := Matrix.of fun i j => m i j
    (M.det = 1 ∨ M.det = -1) ∧
      ∀ dv ∈ info.dvList, ∀ x : Fin info.nloops → ℤ, (∀ i : Fin info.nloops, Describes (dv i) (x i)) →
        ∀ i, 0 ≤ M.mulVec x i := by
  intro M
  have hcnt : ((info.nloops : Int) - 1 - (0 : Nat) + 1).toNat = info.nloops := by omega
  have hkeep : info.dvList.filter (fun dv => !leadsPositive 0 dv) = info.dvList :=
    List.filter_eq_self.mpr fun dv _ => rfl
  unfold uFullyPermutable at h
  simp only [hcnt, hkeep] at h
  split_ifs at h
  · cases h
  rw [bind_eq_ok] at h
  obtain ⟨⟨d, w⟩, hloop, h⟩ := h
  simp only at h
  split_ifs at h with hend
  · rw [bind_eq_ok] at h
    obtain ⟨-, -, hret⟩ := h
    cases hret
    have hinv := permutableLoop_inv (Nat.zero_add _) (Inv.init info.dvList info.nloops _) hloop hend
    refine ⟨hinv.det, fun dv hdv x hx i => ?_⟩
    obtain ⟨v, hv, rfl⟩ := List.mem_iff_getElem.mp hdv
    have hsum := hinv.nonneg hv (x := fun j => if hj : j < info.nloops then x ⟨j, hj⟩ else 0) ?_ i.2
    · rw [← Fin.sum_univ_eq_sum_range] at hsum
      simp only [Fin.is_lt, dif_pos, Fin.eta] at hsum
      exact hsum
    · intro j hj
      rw [List.getD_eq_getElem _ _ hv, dif_pos hj]
      exact hx ⟨j, hj⟩
  · cases h

/-! ## The arithmetic of the source -/

theorem agrees_wrapped (x : Int) : AgreesUnless Fault.overflow (checked x) (wrapped x) := by
  intro h
  unfold checked int32 at h ⊢
  split_ifs at h ⊢ with hx
  · exact congrArg Except.ok (wrap32_eq_iff.mpr hx)
  · exact absurd rfl h

theorem agrees_reverse (vmax d : Nat) (w : Work) :
    AgreesUnless Fault.overflow (reverse checked vmax d w) (reverse wrapped vmax d w) :=
  (agrees_foldlM (fun _ _ => ((agrees_wrapped _).bind fun _ => agrees_refl _).bind fun _ => agrees_refl _) _ _).bind
    fun _ => agrees_refl _

theorem agrees_ceilFactor (dist ddposmin : Int) :
    AgreesUnless Fault.overflow (ceilFactor checked dist ddposmin) (ceilFactor wrapped dist ddposmin) :=
  (agrees_wrapped _).bind fun _ => (agrees_wrapped _).bind fun _ => (agrees_wrapped _).bind fun _ => agrees_refl _

theorem agrees_forcedStep (dp : Nat → Nat → SnlDep) (d : Nat) (s : (Nat → Int) × (Nat → Bool)) (v : Nat) :
    AgreesUnless Fault.overflow (forcedStep checked dp d s v) (forcedStep wrapped dp d s v) :=
  agrees_ite (agrees_refl _) <| (agrees_refl _).bind fun _ => (agrees_refl _).bind fun _ =>
    agrees_ite ((agrees_ceilFactor _ _).bind fun _ => agrees_refl _) (agrees_refl _)

theorem agrees_choiceStep (dp : Nat → Nat → SnlDep) (v : Nat) (s : Choice) (dd : Nat) :
    AgreesUnless Fault.overflow (choiceStep checked dp v s dd) (choiceStep wrapped dp v s dd) := by
  refine (agrees_refl _).bind fun _ => AgreesUnless.bind ?_ fun s => ?_
  · exact agrees_ite ((agrees_wrapped _).bind fun _ => (agrees_wrapped _).bind fun _ => agrees_refl _) (agrees_refl _)
  · exact agrees_ite ((agrees_refl _).bind fun _ => (agrees_ceilFactor _ _).bind fun _ =>
      (agrees_wrapped _).bind fun _ => agrees_refl _) (agrees_refl _)

theorem agrees_skewFactors (vmax d : Nat) (w : Work) :
    AgreesUnless Fault.overflow (skewFactors checked vmax d w) (skewFactors wrapped vmax d w) := by
  refine (agrees_refl _).bind fun _ => (agrees_foldlM (agrees_forcedStep _ _) _ _).bind fun s =>
    AgreesUnless.bind (agrees_foldlM (fun factors v => ?_) _ _) fun _ => agrees_refl _
  exact agrees_ite (agrees_refl _) ((agrees_foldlM (agrees_choiceStep _ _) _ _).bind fun _ => agrees_refl _)

theorem agrees_skew (nloops dcnt vmax d : Nat) (factors : Nat → Int) (w : Work) :
    AgreesUnless Fault.overflow (skew checked nloops dcnt vmax d factors w) (skew wrapped nloops dcnt vmax d factors w) := by
  refine AgreesUnless.bind (agrees_foldlM (fun col v => ?_) _ _) fun _ => (agrees_refl _).bind fun _ =>
    AgreesUnless.bind (agrees_foldlM (fun row i => ?_) _ _) fun _ => agrees_refl _
  · exact ((agrees_sumBy agrees_wrapped _ _ _ _).bind fun _ => agrees_refl _).bind fun _ => agrees_refl _
  · exact (agrees_sumBy agrees_wrapped _ _ _ _).bind fun _ => agrees_refl _

theorem agrees_makePermutable (nloops dcnt vmax d : Nat) (w : Work) : AgreesUnless Fault.overflow
    (makePermutable checked nloops dcnt vmax d w) (makePermutable wrapped nloops dcnt vmax d w) := by
  refine agrees_ite (agrees_refl _) (AgreesUnless.bind ?_ fun _ => agrees_ite (agrees_refl _) ?_)
  · exact agrees_ite ((agrees_reverse _ _ _).bind fun _ => (agrees_wrapped _).bind fun _ => agrees_refl _) (agrees_refl _)
  · exact (agrees_skewFactors _ _ _).bind fun _ =>
      agrees_ite ((agrees_skew _ _ _ _ _ _).bind fun _ => agrees_refl _) (agrees_refl _)

theorem agrees_permutableLoop (nloops dcnt vmax k : Nat) : ∀ (d : Nat) (w : Work), AgreesUnless Fault.overflow
    (permutableLoop checked nloops dcnt vmax k d w) (permutableLoop wrapped nloops dcnt vmax k d w) := by
  induction k with
  | zero => exact fun _ _ => agrees_refl _
  | succ k ih =>
    intro d w
    refine (agrees_makePermutable _ _ _ _ _).bind fun o => ?_
    cases o with
    | none => exact agrees_refl _
    | some w' => exact ih (d + 1) w'

/-- A run in which every 32-bit result fits is one of exact arithmetic. -/
theorem agrees_uFullyPermutable (info : SnlDepInfo) (from_ : Nat) (to_ : Int) :
    AgreesUnless Fault.overflow (uFullyPermutable checked info from_ to_) (uFullyPermutable wrapped info from_ to_) :=
  agrees_ite (agrees_refl _) ((agrees_permutableLoop _ _ _ _ _ _).bind fun _ => agrees_refl _)

/-- A returned transformation is unimodular and leaves no negative component in any vector the list describes, unless a
32-bit operation overflows. -/
theorem u_fully_permutable_correct (info : SnlDepInfo) (m : Nat → Nat → Int)
    (hfits : uFullyPermutable checked info 0 (info.nloops - 1) ≠ .error .overflow)
    (h : uFullyPermutable wrapped info 0 (info.nloops - 1) = .ok (some m)) :
    let M : Matrix (Fin info.nloops) (Fin info.nloops) ℤ := Matrix.of fun i j => m i j
    (M.det = 1 ∨ M.det = -1) ∧
      ∀ dv ∈ info.dvList, ∀ x : Fin info.nloops → ℤ, (∀ i : Fin info.nloops, Describes (dv i) (x i)) →
        ∀ i, 0 ≤ M.mulVec x i :=
  checked_correct info m ((agrees_uFullyPermutable info 0 _ hfits).symm.trans h)

/-- The vector `(1, -1)` makes the routine skew the inner loop once. -/
theorem u_fully_permutable_correct_skew :
    let info : SnlDepInfo := ⟨false, 2, [fun i => if i = 0 then depSetDistance 1 else depSetDistance (-1)]⟩
    ∃ m, uFullyPermutable wrapped info 0 (info.nloops - 1) = .ok (some m) ∧
      0 ≤ (Matrix.of fun i j : Fin 2 => m i j).mulVec ![1, -1] 1 := by
  intro info
  have hfits : uFullyPermutable checked info 0 (info.nloops - 1) ≠ .error .overflow := by
    have hrun : (uFullyPermutable checked info 0 (info.nloops - 1)).toOption.isSome = true := by decide
    intro h
    rw [h] at hrun
    cases hrun
  have hrun : (uFullyPermutable wrapped info 0 (info.nloops - 1)).toOption.join.isSome = true := by decide
  cases h : uFullyPermutable wrapped info 0 (info.nloops - 1) with
  | error e =>
    rw [h] at hrun
    cases hrun
  | ok o =>
    rw [h] at hrun
    obtain ⟨m, rfl⟩ := Option.isSome_iff_exists.mp (show o.isSome = true from hrun)
    refine ⟨m, rfl, (u_fully_permutable_correct info m hfits h).2 _ (List.mem_singleton_self _) ![1, -1] ?_ 1⟩
    intro i
    have hi : ∀ i : Fin 2, Describes (info.dvList.head (by decide) i) (![1, -1] i) := by decide
    exact hi i

/-- Vector `k` takes one step in a loop and three back in each loop inside it, so every loop is skewed three times by each
loop outside it. -/
def skewedNest : SnlDepInfo :=
  .ofDistances 17 ([1] :: (List.range 16).map fun k => List.replicate k 0 ++ 1 :: List.replicate (16 - k) (-3))

/-- The first entry of the last row is `3 * 4 ^ 15`, which wraps to a negative number. -/
theorem u_fully_permutable_wraps : ¬ ∀ (info : SnlDepInfo) (m : Nat → Nat → Int),
    (∀ dv ∈ info.dvList, (∀ i < info.nloops, Dep.Built (dv i)) ∧ DepvLexNonneg info.nloops dv) →
    uFullyPermutable wrapped info 0 (info.nloops - 1) = .ok (some m) →
    let M : Matrix (Fin info.nloops) (Fin info.nloops) ℤ := Matrix.of fun i j => m i j
    (M.det = 1 ∨ M.det = -1) ∧
      ∀ dv ∈ info.dvList, ∀ x : Fin info.nloops → ℤ, (∀ i : Fin info.nloops, Describes (dv i) (x i)) →
        ∀ i, 0 ≤ M.mulVec x i := by
  intro hall
  have hrun : (uFullyPermutable wrapped skewedNest 0 16).toOption.any
      (fun r => decide (∃ m ∈ r, m 16 0 < 0)) = true := by decide +kernel
  obtain ⟨r, hr, m, hm, hneg⟩ := exists_ok_of_any hrun
  obtain rfl := hm
  have hlex : ∀ dv ∈ skewedNest.dvList, (∀ i < 17, Dep.Built (dv i)) ∧ DepvLexNonneg 17 dv := by
    intro dv hdv
    obtain ⟨v, hv, rfl⟩ := List.mem_map.mp hdv
    refine ⟨fun i _ => .setDistance _, depvLexNonneg_ofDistances ?_ ?_⟩
    · clear hdv
      revert v
      decide
    · clear hdv
      revert v
      decide +kernel
  have hdesc : ∀ i : Fin 17, Describes (depSetDistance (([1] : List Int).getD i 0)) (if i = 0 then 1 else 0) := by decide
  have hnonneg : 0 ≤ (Matrix.of fun i j : Fin 17 => m i j).mulVec (fun i => if i = 0 then 1 else 0) 16 :=
    (hall skewedNest m hlex hr).2 _ List.mem_cons_self _ hdesc (16 : Fin 17)
  have hsum : (Matrix.of fun i j : Fin 17 => m i j).mulVec (fun i => if i = 0 then 1 else 0) 16 = m 16 0 := by
    simp [Matrix.mulVec, dotProduct]
  omega

end Path64.SnlDeps

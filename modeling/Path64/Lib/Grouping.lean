import Mathlib.Data.Set.Insert
import Mathlib.Logic.Function.Basic
import Mathlib.Logic.Relation

/-!
# Groups of names

Names are put into groups one event at a time: a name without a group gets one of its own, and a name enters the group
of another that has one. What has been recorded for a group is lost for a name that is moved to another group.

* `Names.step`, `Names.run` : the names that have a group and the ties between them, after events;
* `Names.AllowsAll` : no event moves a name out of a group;
* `Moves`, `Follows` : what an event does to a table of groups, and when a table agrees with the names and ties;
* `Follows.step` : an event that is allowed leaves every name in its group;
* `foldl_follows` : the rule for a loop whose steps are events; `foldlM_keeps` and `foldl_keeps`, for any other loop.
-/

namespace Path64.Lib

variable {α ι : Type}

/-- `join a b`: the name `b` enters the group of `a`, if that has one. -/
inductive GroupEvent (α : Type) where
  | name (a : α)
  | join (a b : α)

/-- The names that have a group, and the pairs that have been joined. -/
structure Names (α : Type) where
  named : Set α
  tied : α → α → Prop

namespace Names

/-- No name has a group. -/
def empty : Names α := ⟨∅, fun _ _ => False⟩

def step (g : Names α) : GroupEvent α → Names α
  | .name a => { g with named := insert a g.named }
  | .join a b =>
    { named := {t | t ∈ g.named ∨ (t = b ∧ a ∈ g.named)}
      tied := fun x y => g.tied x y ∨ (x = a ∧ y = b ∧ a ∈ g.named) }

def run (g : Names α) (es : List (GroupEvent α)) : Names α := es.foldl step g

/-- Two names that both have a group are joined only when earlier joins have put them in the same one. -/
def Allows (g : Names α) : GroupEvent α → Prop
  | .name _ => True
  | .join a b => a ∈ g.named → b ∈ g.named → Relation.EqvGen g.tied a b

def AllowsAll (g : Names α) : List (GroupEvent α) → Prop
  | [] => True
  | e :: es => g.Allows e ∧ (g.step e).AllowsAll es

theorem run_append (g : Names α) (es es' : List (GroupEvent α)) : g.run (es ++ es') = (g.run es).run es' :=
  List.foldl_append

theorem allowsAll_append {g : Names α} {es es' : List (GroupEvent α)} :
    g.AllowsAll (es ++ es') ↔ g.AllowsAll es ∧ (g.run es).AllowsAll es' := by
  induction es generalizing g with
  | nil => exact (iff_of_eq (true_and _)).symm
  | cons e es ih =>
    show g.Allows e ∧ (g.step e).AllowsAll (es ++ es') ↔ (g.Allows e ∧ _) ∧ ((g.step e).run es).AllowsAll es'
    rw [ih, and_assoc]

theorem named_step {g : Names α} {a : α} (h : a ∈ g.named) (e : GroupEvent α) : a ∈ (g.step e).named := by
  rcases e with b | ⟨b, c⟩
  · exact Set.mem_insert_of_mem b h
  · exact .inl h

theorem named_run {g : Names α} {a : α} (h : a ∈ g.named) (es : List (GroupEvent α)) : a ∈ (g.run es).named := by
  induction es generalizing g with
  | nil => exact h
  | cons e es ih => exact ih (named_step h e)

end Names

/-! ## Tables of groups -/

variable [DecidableEq α]

/-- What an event does to the table that gives names their groups. -/
inductive Moves (m : α → Option ι) : GroupEvent α → (α → Option ι) → Prop
  | known {a : α} (h : m a ≠ none) : Moves m (.name a) m
  | fresh {a : α} (h : m a = none) (i : ι) : Moves m (.name a) (Function.update m a (some i))
  | single {a b : α} (h : m a = none) : Moves m (.join a b) m
  | joined {a b : α} {i : ι} (h : m a = some i) : Moves m (.join a b) (Function.update m b (some i))

/-- The table has the names, and tied names share a group. -/
structure Follows (g : Names α) (m : α → Option ι) : Prop where
  named : ∀ a, a ∈ g.named ↔ m a ≠ none
  shared : ∀ a b, g.tied a b → m a = m b
  within : ∀ a b, g.tied a b → a ∈ g.named

namespace Follows

variable {g : Names α} {m m' : α → Option ι}

omit [DecidableEq α] in
theorem start : Follows (Names.empty : Names α) fun _ => (none : Option ι) :=
  ⟨fun _ => ⟨fun h => absurd h (Set.notMem_empty _), fun h => absurd rfl h⟩, fun _ _ h => h.elim, fun _ _ h => h.elim⟩

omit [DecidableEq α] in
theorem eqvGen (h : Follows g m) {a b : α} (hab : Relation.EqvGen g.tied a b) : m a = m b := by
  induction hab with
  | rel a b hab => exact h.shared a b hab
  | refl a => rfl
  | symm a b _ ih => exact ih.symm
  | trans a b c _ _ ih ih' => exact ih.trans ih'

/-- A name that has no group is put in one: no other name is affected. -/
theorem kept_update {b : α} (hb : m b = none) (i : ι) {a : α} {j : ι} (ha : m a = some j) :
    Function.update m b (some i) a = some j := by
  rw [Function.update_of_ne]
  · exact ha
  · rintro rfl
    exact absurd (hb.symm.trans ha) (by simp)

theorem shared_update (h : Follows g m) {b : α} (hb : m b = none) (i : ι) {x y : α} (hxy : g.tied x y) :
    Function.update m b (some i) x = Function.update m b (some i) y := by
  obtain ⟨j, hj⟩ := Option.ne_none_iff_exists'.mp ((h.named x).mp (h.within x y hxy))
  rw [kept_update hb i hj, kept_update hb i ((h.shared x y hxy).symm.trans hj)]

omit [DecidableEq α] in
theorem name_known (h : Follows g m) {a : α} (ha : m a ≠ none) : Follows (g.step (.name a)) m := by
  refine ⟨fun x => ⟨fun hx => ?_, fun hx => Set.mem_insert_of_mem a ((h.named x).mpr hx)⟩, h.shared,
    fun x y hxy => Set.mem_insert_of_mem a (h.within x y hxy)⟩
  rcases hx with rfl | hx
  · exact ha
  · exact (h.named x).mp hx

theorem name_fresh (h : Follows g m) {a : α} (ha : m a = none) (i : ι) :
    Follows (g.step (.name a)) (Function.update m a (some i)) := by
  refine ⟨fun x => ?_, fun x y hxy => h.shared_update ha i hxy,
    fun x y hxy => Set.mem_insert_of_mem a (h.within x y hxy)⟩
  show x ∈ insert a g.named ↔ _
  rw [Set.mem_insert_iff, Function.update_apply]
  split_ifs with hx
  · exact ⟨fun _ => Option.some_ne_none i, fun _ => .inl hx⟩
  · rw [or_iff_right hx]
    exact h.named x

omit [DecidableEq α] in
theorem join_single (h : Follows g m) {a : α} (ha : m a = none) (b : α) : Follows (g.step (.join a b)) m := by
  have hnot : a ∉ g.named := fun h' => (h.named a).mp h' ha
  refine ⟨fun x => ?_, fun x y hxy => ?_, fun x y hxy => ?_⟩
  · exact (or_iff_left fun hx => hnot hx.2).trans (h.named x)
  · exact h.shared x y (hxy.resolve_right fun hx => hnot hx.2.2)
  · exact .inl (h.within x y (hxy.resolve_right fun hx => hnot hx.2.2))

theorem join_joined (h : Follows g m) {a b : α} {i : ι} (ha : m a = some i) (hb : m b = none ∨ m b = some i) :
    Follows (g.step (.join a b)) (Function.update m b (some i)) ∧
      ∀ x j, m x = some j → Function.update m b (some i) x = some j := by
  have hnamed : a ∈ g.named := (h.named a).mpr (by rw [ha]; exact Option.some_ne_none i)
  have hkept : ∀ x j, m x = some j → Function.update m b (some i) x = some j := by
    intro x j hx
    rcases hb with hb | hb
    · exact kept_update hb i hx
    · rw [← hb, Function.update_eq_self]
      exact hx
  refine ⟨⟨fun x => ?_, fun x y hxy => ?_, fun x y hxy => .inl ?_⟩, hkept⟩
  · show x ∈ g.named ∨ (x = b ∧ a ∈ g.named) ↔ _
    rw [Function.update_apply]
    split_ifs with hx
    · exact ⟨fun _ => Option.some_ne_none i, fun _ => .inr ⟨hx, hnamed⟩⟩
    · rw [or_iff_left fun hx' => hx hx'.1]
      exact h.named x
  · rcases hxy with hxy | ⟨rfl, rfl, -⟩
    · obtain ⟨j, hj⟩ := Option.ne_none_iff_exists'.mp ((h.named x).mp (h.within x y hxy))
      rw [hkept x j hj, hkept y j ((h.shared x y hxy).symm.trans hj)]
    · rw [hkept x i ha, Function.update_self]
  · rcases hxy with hxy | ⟨rfl, -, -⟩
    · exact h.within x y hxy
    · exact hnamed

/-- An event that is allowed leaves every name in its group. -/
theorem step (h : Follows g m) {e : GroupEvent α} (hallow : g.Allows e) (hmove : Moves m e m') :
    Follows (g.step e) m' ∧ ∀ a i, m a = some i → m' a = some i := by
  rcases hmove with ha | ⟨ha, i⟩ | ha | ha
  · exact ⟨h.name_known ha, fun _ _ hx => hx⟩
  · exact ⟨h.name_fresh ha i, fun _ _ hx => kept_update ha i hx⟩
  · exact ⟨h.join_single ha _, fun _ _ hx => hx⟩
  · rename_i a b i
    refine h.join_joined ha ?_
    by_cases hb : m b = none
    · exact .inl hb
    · refine .inr ((h.eqvGen (hallow ((h.named a).mpr ?_) ((h.named b).mpr hb))).symm.trans ha)
      rw [ha]
      exact Option.some_ne_none i

end Follows

/-! ## Loops -/

omit [DecidableEq α] in
/-- A loop whose turn at `b` is the events `e b`: from what one turn does, what all of them do. -/
theorem foldl_follows {σ β : Type} {R : σ → σ → Prop} (hrefl : ∀ s, R s s) (htrans : ∀ {s t u}, R s t → R t u → R s u)
    {I : Names α → σ → Prop} {P : β → σ → Prop} (hP : ∀ {b s t}, R s t → P b s → P b t) {f : σ → β → σ}
    {e : β → List (GroupEvent α)} (l : List β)
    (hstep : ∀ b ∈ l, ∀ g s, I g s → g.AllowsAll (e b) →
      I (g.run (e b)) (f s b) ∧ R s (f s b) ∧ P b (f s b))
    {g : Names α} {s : σ} (h : I g s) (hallow : g.AllowsAll (l.flatMap e)) :
    I (g.run (l.flatMap e)) (l.foldl f s) ∧ R s (l.foldl f s) ∧ ∀ b ∈ l, P b (l.foldl f s) := by
  induction l generalizing g s with
  | nil => exact ⟨h, hrefl s, fun b hb => absurd hb List.not_mem_nil⟩
  | cons b l ih =>
    rw [List.flatMap_cons] at hallow ⊢
    obtain ⟨hhere, hrest⟩ := Names.allowsAll_append.mp hallow
    obtain ⟨hinv, hR, hPb⟩ := hstep b List.mem_cons_self g s h hhere
    obtain ⟨hinv', hR', hP'⟩ := ih (fun c hc => hstep c (List.mem_cons_of_mem b hc)) hinv hrest
    rw [Names.run_append, List.foldl_cons]
    refine ⟨hinv', htrans hR hR', fun c hc => ?_⟩
    rcases List.mem_cons.mp hc with rfl | hc
    · exact hP hR' hPb
    · exact hP' c hc

/-- A loop in which any turn may fail, none of them doing so. -/
theorem foldlM_keeps {σ β : Type} {R : σ → σ → Prop} (hrefl : ∀ s, R s s) (htrans : ∀ {s t u}, R s t → R t u → R s u)
    {I : σ → Prop} {P : β → σ → Prop} (hP : ∀ {b s t}, R s t → P b s → P b t) {f : σ → β → Option σ} {l : List β}
    (hstep : ∀ b ∈ l, ∀ s t, I s → f s b = some t → I t ∧ R s t ∧ P b t) {s t : σ} (h : I s)
    (hrun : l.foldlM f s = some t) : I t ∧ R s t ∧ ∀ b ∈ l, P b t := by
  induction l generalizing s with
  | nil =>
    obtain rfl := Option.some_inj.mp hrun
    exact ⟨h, hrefl s, fun b hb => absurd hb List.not_mem_nil⟩
  | cons b l ih =>
    rw [List.foldlM_cons] at hrun
    obtain ⟨u, hu, hrest⟩ := Option.bind_eq_some_iff.mp hrun
    obtain ⟨hinv, hR, hPb⟩ := hstep b List.mem_cons_self s u h hu
    obtain ⟨hinv', hR', hP'⟩ := ih (fun c hc => hstep c (List.mem_cons_of_mem b hc)) hinv hrest
    refine ⟨hinv', htrans hR hR', fun c hc => ?_⟩
    rcases List.mem_cons.mp hc with rfl | hc
    · exact hP hR' hPb
    · exact hP' c hc

/-- A loop in which no turn fails. -/
theorem foldl_keeps {σ β : Type} {R : σ → σ → Prop} (hrefl : ∀ s, R s s) (htrans : ∀ {s t u}, R s t → R t u → R s u)
    {I : σ → Prop} {P : β → σ → Prop} (hP : ∀ {b s t}, R s t → P b s → P b t) {f : σ → β → σ} {l : List β}
    (hstep : ∀ b ∈ l, ∀ s, I s → I (f s b) ∧ R s (f s b) ∧ P b (f s b)) {s : σ} (h : I s) :
    I (l.foldl f s) ∧ R s (l.foldl f s) ∧ ∀ b ∈ l, P b (l.foldl f s) := by
  refine foldlM_keeps hrefl htrans (P := P) hP (f := fun s b => some (f s b)) (fun b hb s t hs ht => ?_) h
    List.foldlM_pure
  obtain rfl := Option.some_inj.mp ht
  exact hstep b hb s hs

end Path64.Lib

import Mathlib.Algebra.Order.Monoid.Defs
import Mathlib.Algebra.Order.Monoid.WithTop
import Mathlib.Data.Set.Insert
import Mathlib.Order.Bounds.Basic
import Mathlib.Order.Interval.Set.Defs

/-!
# Longest walks by relaxation

The weights of the walks between numbered vertices, and the greatest of them, with one more vertex allowed on the way
at a time.

* `Walk`, `Path` : the weights of the walks through a set of vertices, and of those that visit no vertex twice;
* `relax`, `longest` : the table of greatest weights, one more vertex at a time;
* `isGreatest_longest` : the table is right when no vertex has reached itself with a positive weight before its turn;
* `exists_path` : its weights are weights of paths when no vertex ever does;
* `withBot` : arcs that may be missing;
* `Walk.gap` : what a walk is worth when missing arcs count as arcs of little weight.
-/

namespace Path64.Lib

section Walk

variable {R : Type*} [Add R] {A : Nat → Nat → R → Prop} {S S' V V' : Set Nat} {i j k m : Nat} {x y : R}

/-- A walk from `i` to `j` along the arcs `A`, through vertices of `S`, has the weight `x`. -/
inductive Walk (A : Nat → Nat → R → Prop) (S : Set Nat) : Nat → Nat → R → Prop
  | arc {i j : Nat} {x : R} (h : A i j x) : Walk A S i j x
  | append {i m j : Nat} {x y : R} (h : Walk A S i m x) (hm : m ∈ S) (h' : Walk A S m j y) : Walk A S i j (x + y)

/-- A path from `i` to `j` along the arcs `A`, through the vertices `V`, none of them twice, has the weight `x`. -/
inductive Path (A : Nat → Nat → R → Prop) : Set Nat → Nat → Nat → R → Prop
  | arc {i j : Nat} {x : R} (h : A i j x) : Path A ∅ i j x
  | cons {V : Set Nat} {i m j : Nat} {x y : R} (h : A i m x) (h' : Path A V m j y) (hm : m ∉ V) (hmj : m ≠ j)
      (him : i ≠ m) (hi : i ∉ V) : Path A (insert m V) i j (x + y)

theorem Walk.mono (h : Walk A S i j x) (hS : S ⊆ S') : Walk A S' i j x := by
  induction h with
  | arc h => exact .arc h
  | append _ hm _ ih ih' => exact .append ih (hS hm) ih'

theorem Walk.succ (h : Walk A (Set.Iio k) i j x) : Walk A (Set.Iio (k + 1)) i j x :=
  h.mono fun _ hm => Nat.lt_succ_of_lt hm

theorem Path.walk (h : Path A V i j x) (hV : V ⊆ S) : Walk A S i j x := by
  induction h with
  | arc h => exact .arc h
  | cons h _ _ _ _ _ ih => exact .append (.arc h) (hV (Set.mem_insert _ _)) (ih ((Set.subset_insert _ _).trans hV))

theorem Walk.dominate {A' : Nat → Nat → R → Prop} [Preorder R] [AddLeftMono R] [AddRightMono R]
    (hA : ∀ i j x, A i j x → ∃ y, A' i j y ∧ x ≤ y) (h : Walk A S i j x) : ∃ y, Walk A' S i j y ∧ x ≤ y := by
  induction h with
  | arc h =>
    obtain ⟨y, hy, hxy⟩ := hA _ _ _ h
    exact ⟨y, .arc hy, hxy⟩
  | append _ hm _ ih ih' =>
    obtain ⟨⟨a, ha, hxa⟩, b, hb, hxb⟩ := And.intro ih ih'
    exact ⟨a + b, .append ha hm hb, add_le_add hxa hxb⟩

/-! ## Missing arcs -/

/-- The arcs `A`, with the weight `⊥` wherever there is none. -/
def withBot (A : Nat → Nat → R → Prop) (i j : Nat) (x : WithBot R) : Prop := ∀ y : R, x = y → A i j y

theorem Walk.of_withBot {x : WithBot R} (h : Walk (withBot A) S i j x) : ∀ y : R, x = y → Walk A S i j y := by
  induction h with
  | arc h => exact fun y hy => .arc (h y hy)
  | append _ hm _ ih ih' =>
    intro y hy
    obtain ⟨a, b, rfl, rfl, rfl⟩ := WithBot.add_eq_coe.mp hy
    exact .append (ih a rfl) hm (ih' b rfl)

theorem Path.of_withBot {x : WithBot R} (h : Path (withBot A) V i j x) : ∀ y : R, x = y → Path A V i j y := by
  induction h with
  | arc h => exact fun y hy => .arc (h y hy)
  | cons h _ hm hmj him hi ih =>
    intro y hy
    obtain ⟨a, b, rfl, rfl, rfl⟩ := WithBot.add_eq_coe.mp hy
    exact .cons (h a rfl) (ih b rfl) hm hmj him hi

theorem Walk.withBot (h : Walk A S i j x) : Walk (withBot A) S i j (x : WithBot R) := by
  induction h with
  | arc h => exact .arc fun y hy => WithBot.coe_inj.mp hy ▸ h
  | append _ hm _ ih ih' => exact .append ih hm ih'

end Walk

variable {R : Type*} [AddCommMonoid R] {A : Nat → Nat → R → Prop} {w d : Nat → Nat → R} {V V' S : Set Nat}
  {i j k m : Nat} {x y : R}

theorem Path.cut (h : Path A V i j x) (hV : V ⊆ S) (hm : m ∈ V) :
    ∃ a b, Walk A S i m a ∧ Walk A S m j b ∧ x = a + b := by
  induction h with
  | arc => exact absurd hm (Set.notMem_empty _)
  | @cons V i m' j x y h h' _ _ _ _ ih =>
    have hV' : V ⊆ S := (Set.subset_insert _ _).trans hV
    rcases Set.mem_insert_iff.mp hm with rfl | hm
    · exact ⟨x, y, .arc h, h'.walk hV', rfl⟩
    · obtain ⟨a, b, ha, hb, rfl⟩ := ih hV' hm
      exact ⟨x + a, b, .append (.arc h) (hV (Set.mem_insert _ _)) ha, hb, (add_assoc _ _ _).symm⟩

theorem Path.append (h : Path A V i k x) (h' : Path A V' k j y) (hk : k ∉ V) (hk' : k ∉ V') (hik : i ≠ k)
    (hkj : k ≠ j) (hdisj : ∀ m ∈ V, m ∉ V') (hi : i ∉ V') (hj : j ∉ V) : Path A (insert k (V ∪ V')) i j (x + y) := by
  induction h with
  | arc h =>
    rw [Set.empty_union]
    exact .cons h h' hk' hkj hik hi
  | @cons V i m k x₁ x₂ h _ hm hmk him hiV ih =>
    have hm' : m ∉ V' := hdisj m (Set.mem_insert _ _)
    rw [Set.insert_union, Set.insert_comm, add_assoc]
    refine .cons h (ih h' (fun hk' => hk (Set.mem_insert_of_mem _ hk')) hk' hmk hkj
      (fun m hm => hdisj m (Set.mem_insert_of_mem _ hm)) hm' fun hj' => hj (Set.mem_insert_of_mem _ hj')) ?_
      (fun hmj => hj (hmj ▸ Set.mem_insert _ _)) him ?_
    · simp only [Set.mem_insert_iff, Set.mem_union, not_or]
      exact ⟨hmk, hm, hm'⟩
    · simp only [Set.mem_insert_iff, Set.mem_union, not_or]
      exact ⟨hik, hiV, hi⟩

/-- Nothing at all, or a walk. -/
def Trip (A : Nat → Nat → R → Prop) (S : Set Nat) (i j : Nat) (x : R) : Prop := i = j ∧ x = 0 ∨ Walk A S i j x

theorem Trip.walk (h : Trip A S i m x) (hm : m ∈ S) (h' : Walk A S m j y) : Walk A S i j (x + y) := by
  rcases h with ⟨rfl, rfl⟩ | h
  · rwa [zero_add]
  · exact .append h hm h'

theorem Walk.trip (h : Walk A S i m x) (hm : m ∈ S) (h' : Trip A S m j y) : Walk A S i j (x + y) := by
  rcases h' with ⟨rfl, rfl⟩ | h'
  · rwa [add_zero]
  · exact .append h hm h'

theorem Trip.trans (h : Trip A S i m x) (hm : m ∈ S) (h' : Trip A S m j y) : Trip A S i j (x + y) := by
  rcases h' with ⟨rfl, rfl⟩ | h'
  · rwa [add_zero]
  · exact Or.inr (h.walk hm h')

variable [LinearOrder R]

/-- The vertex `k` is allowed on the way. -/
def relax (k : Nat) (d : Nat → Nat → R) : Nat → Nat → R := fun i j => max (d i j) (d i k + d k j)

/-- The greatest weights when the vertices below a number are allowed on the way. -/
def longest (w : Nat → Nat → R) : Nat → Nat → Nat → R
  | 0 => w
  | k + 1 => relax k (longest w k)

theorem le_relax (k : Nat) (d : Nat → Nat → R) (i j : Nat) : d i j ≤ relax k d i j := le_max_left _ _

theorem add_le_relax (k : Nat) (d : Nat → Nat → R) (i j : Nat) : d i k + d k j ≤ relax k d i j := le_max_right _ _

theorem longest_mono (w : Nat → Nat → R) {k k' : Nat} (h : k ≤ k') (i j : Nat) : longest w k i j ≤ longest w k' i j := by
  induction h with
  | refl => exact le_rfl
  | step _ ih => exact ih.trans (le_relax _ _ _ _)

theorem walk_longest (hw : ∀ i j, A i j (w i j)) (k i j : Nat) : Walk A (Set.Iio k) i j (longest w k i j) := by
  induction k generalizing i j with
  | zero => exact .arc (hw i j)
  | succ k ih =>
    rcases max_choice (longest w k i j) (longest w k i k + longest w k k j) with h | h
    · rw [longest, relax, h]
      exact (ih i j).succ
    · rw [longest, relax, h]
      exact .append (ih i k).succ (Nat.lt_succ_self k) (ih k j).succ

variable [IsOrderedAddMonoid R]

/-! ## The greatest weights -/

/-- One more vertex on the way: the triangle inequality of the table before carries over to the table after. -/
theorem relax_triangle (hd : ∀ {i m j}, m < k → d i m + d m j ≤ d i j) (hk : d k k ≤ 0) (hm : m < k + 1) :
    relax k d i m + relax k d m j ≤ relax k d i j := by
  rcases Nat.lt_succ_iff_lt_or_eq.mp hm with hm | rfl
  · have hkk : d k m + d m k ≤ 0 := (hd hm).trans hk
    rcases max_choice (d i m) (d i k + d k m) with h | h <;> rcases max_choice (d m j) (d m k + d k j) with h' | h' <;>
      rw [relax, relax, h, h']
    · exact (hd hm).trans (le_relax _ _ _ _)
    · rw [← add_assoc]
      exact (add_le_add_left (hd hm) _).trans (add_le_relax _ _ _ _)
    · rw [add_assoc]
      exact (add_le_add_right (hd hm) _).trans (add_le_relax _ _ _ _)
    · calc d i k + d k m + (d m k + d k j) = d i k + d k j + (d k m + d m k) := by ac_rfl
        _ ≤ d i k + d k j := add_le_of_nonpos_right hkk
        _ ≤ relax k d i j := add_le_relax _ _ _ _
  · have hi : relax m d i m = d i m := max_eq_left (add_le_of_nonpos_right hk)
    have hj : relax m d m j = d m j := max_eq_left (add_le_of_nonpos_left hk)
    rw [hi, hj]
    exact add_le_relax _ _ _ _

theorem Walk.le_of_triangle (h : Walk A S i j x) (ha : ∀ {i j x}, A i j x → x ≤ d i j)
    (hd : ∀ {i m j}, m ∈ S → d i m + d m j ≤ d i j) : x ≤ d i j := by
  induction h with
  | arc h => exact ha h
  | append _ hm _ ih ih' => exact (add_le_add ih ih').trans (hd hm)

variable (hw : ∀ i j, IsGreatest {x | A i j x} (w i j))

include hw

/-- The table holds the greatest weights of the walks through the first vertices. -/
theorem isGreatest_longest (hdiag : ∀ m < k, longest w m m m ≤ 0) (i j : Nat) :
    IsGreatest {x | Walk A (Set.Iio k) i j x} (longest w k i j) := by
  have htri : ∀ {i m j}, m < k → longest w k i m + longest w k m j ≤ longest w k i j := by
    induction k with
    | zero => exact fun hm => absurd hm (Nat.not_lt_zero _)
    | succ k ih =>
      exact fun hm => relax_triangle (ih fun m hm => hdiag m (hm.trans (Nat.lt_succ_self k)))
        (hdiag k (Nat.lt_succ_self k)) hm
  refine ⟨walk_longest (fun i j => (hw i j).1) k i j, fun x hx => hx.le_of_triangle (fun ha => ?_) htri⟩
  exact ((hw _ _).2 ha).trans (longest_mono w (Nat.zero_le k) _ _)

theorem isGreatest_longest_of_diag (hdiag : ∀ m < k, longest w k m m ≤ 0) (i j : Nat) :
    IsGreatest {x | Walk A (Set.Iio k) i j x} (longest w k i j) :=
  isGreatest_longest hw (fun m hm => (longest_mono w hm.le m m).trans (hdiag m hm)) i j

/-! ## Paths -/

/-- The weights of the table are weights of paths, when no vertex reaches itself with a positive weight. -/
theorem exists_path (hdiag : ∀ m < k, longest w k m m ≤ 0) (i j : Nat) :
    ∃ V ⊆ Set.Iio k, Path A V i j (longest w k i j) := by
  induction k generalizing i j with
  | zero => exact ⟨∅, Set.empty_subset _, .arc (hw i j).1⟩
  | succ k ih =>
    have hdiag' : ∀ m < k, longest w k m m ≤ 0 := fun m hm =>
      (le_relax k (longest w k) m m).trans (hdiag m (hm.trans (Nat.lt_succ_self k)))
    have hkk : longest w k k k ≤ 0 := (le_relax k (longest w k) k k).trans (hdiag k (Nat.lt_succ_self k))
    have hle : ∀ {i j x}, Walk A (Set.Iio k) i j x → x ≤ longest w k i j := fun h =>
      (isGreatest_longest_of_diag hw hdiag' _ _).2 h
    -- going to the new vertex and back gains nothing
    have hround : ∀ {m b c}, m < k → Walk A (Set.Iio k) m k b → Walk A (Set.Iio k) k m c → b + c ≤ 0 := fun hm hb hc =>
      (add_le_add (hle hb) (hle hc)).trans
        ((add_le_relax k (longest w k) _ _).trans (hdiag _ (hm.trans (Nat.lt_succ_self k))))
    have hsub : ∀ {V : Set Nat}, V ⊆ Set.Iio k → V ⊆ Set.Iio (k + 1) := fun hV m hm => Nat.lt_succ_of_lt (hV hm)
    obtain ⟨V, hV, hp⟩ := ih hdiag' i k
    obtain ⟨V', hV', hp'⟩ := ih hdiag' k j
    by_cases hlt : longest w k i j < longest w k i k + longest w k k j
    · rw [show longest w (k + 1) i j = longest w k i k + longest w k k j from max_eq_right hlt.le]
      refine ⟨insert k (V ∪ V'), Set.insert_subset (Nat.lt_succ_self k) (Set.union_subset (hsub hV) (hsub hV')),
        hp.append hp' (fun hk => Nat.lt_irrefl k (hV hk)) (fun hk => Nat.lt_irrefl k (hV' hk)) ?_ ?_ ?_ ?_ ?_⟩
      · rintro rfl
        exact hlt.not_ge (add_le_of_nonpos_left hkk)
      · rintro rfl
        exact hlt.not_ge (add_le_of_nonpos_right hkk)
      · intro m hm hm'
        obtain ⟨a, b, ha, hb, hab⟩ := hp.cut hV hm
        obtain ⟨c, e, hc, he, hce⟩ := hp'.cut hV' hm'
        refine hlt.not_ge ?_
        calc longest w k i k + longest w k k j = a + e + (b + c) := by rw [hab, hce]; ac_rfl
          _ ≤ a + e := add_le_of_nonpos_right (hround (hV hm) hb hc)
          _ ≤ longest w k i j := hle (.append ha (hV hm) he)
      · intro hi
        obtain ⟨c, e, hc, he, hce⟩ := hp'.cut hV' hi
        refine hlt.not_ge ?_
        calc longest w k i k + longest w k k j = e + (longest w k i k + c) := by rw [hce]; ac_rfl
          _ ≤ e := add_le_of_nonpos_right (hround (hV' hi) (hp.walk hV) hc)
          _ ≤ longest w k i j := hle he
      · intro hj
        obtain ⟨a, b, ha, hb, hab⟩ := hp.cut hV hj
        refine hlt.not_ge ?_
        calc longest w k i k + longest w k k j = a + (b + longest w k k j) := by rw [hab]; ac_rfl
          _ ≤ a := add_le_of_nonpos_right (hround (hV hj) hb (hp'.walk hV'))
          _ ≤ longest w k i j := hle ha
    · rw [show longest w (k + 1) i j = longest w k i j from max_eq_left (not_lt.mp hlt)]
      obtain ⟨V₀, hV₀, hp₀⟩ := ih hdiag' i j
      exact ⟨V₀, hsub hV₀, hp₀⟩

omit hw

/-! ## Arcs of little weight -/

theorem Trip.dominate {A' : Nat → Nat → R → Prop} (hA : ∀ i j x, A i j x → ∃ y, A' i j y ∧ x ≤ y)
    (h : Trip A S i j x) : ∃ y, Trip A' S i j y ∧ x ≤ y := by
  rcases h with ⟨rfl, rfl⟩ | h
  · exact ⟨0, Or.inl ⟨rfl, rfl⟩, le_rfl⟩
  · obtain ⟨y, hy, hxy⟩ := h.dominate hA
    exact ⟨y, Or.inr hy, hxy⟩

/-- A walk along arcs of `A` and others of weight `c` has no more weight than one of the others between two trips. -/
theorem Walk.gap {A' : Nat → Nat → R → Prop} {c : R} (hA : ∀ {i j x}, A' i j x → A i j x ∨ x = c)
    (hc : ∀ {i j x}, Trip A S i j x → x + c ≤ 0) (h : Walk A' S i j x) :
    Walk A S i j x ∨ ∃ a b p q, Trip A S i a p ∧ Trip A S b j q ∧ x ≤ p + q + c := by
  induction h with
  | @arc i j x h =>
    rcases hA h with h | rfl
    · exact Or.inl (.arc h)
    · exact Or.inr ⟨i, j, 0, 0, Or.inl ⟨rfl, rfl⟩, Or.inl ⟨rfl, rfl⟩, by rw [zero_add, zero_add]⟩
  | @append i m j x y _ hm _ ih ih' =>
    rcases ih with h | ⟨a, b, p, q, hp, hq, hx⟩ <;> rcases ih' with h' | ⟨a', b', p', q', hp', hq', hy⟩
    · exact Or.inl (.append h hm h')
    · refine Or.inr ⟨a', b', x + p', q', Or.inr (h.trip hm hp'), hq', ?_⟩
      calc x + y ≤ x + (p' + q' + c) := add_le_add_right hy x
        _ = x + p' + q' + c := by ac_rfl
    · refine Or.inr ⟨a, b, p, q + y, hp, Or.inr (hq.walk hm h'), ?_⟩
      calc x + y ≤ p + q + c + y := add_le_add_left hx y
        _ = p + (q + y) + c := by ac_rfl
    · refine Or.inr ⟨a, b', p, q', hp, hq', ?_⟩
      calc x + y ≤ p + q + c + (p' + q' + c) := add_le_add hx hy
        _ = p + q' + c + (q + p' + c) := by ac_rfl
        _ ≤ p + q' + c := add_le_of_nonpos_right (hc (hq.trans hm hp'))

end Path64.Lib

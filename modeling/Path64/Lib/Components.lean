import Mathlib.Logic.Relation
import Mathlib.Logic.Function.Basic
import Mathlib.Data.List.Basic
import Mathlib.Tactic.SplitIfs

/-!
# Strongly connected components by depth-first search

The state of the search for the components of a relation, with what holds of it between any two steps, whichever way the
search is written.

* `Env` : what was visited, the stack of the vertices whose component is open, visit numbers and components;
* `Env.Valid` : the invariant, for a set of gray vertices, those whose visit goes on;
* `Env.push`, `Env.pop` : a visit begins; the component of a root is complete;
* `Valid.push`, `Valid.finish`, `Valid.pop` : the steps keep the invariant;
* `Grows` : what a visit leaves alone.
-/

namespace Path64.Components

open Relation

variable {V : Type}

structure Env (V : Type) where
  visited : V → Prop
  /-- The vertex visited last comes first. -/
  stack : List V
  num : V → Nat
  comp : V → Nat
  nextNum : Nat
  nextComp : Nat

/-- The component of the vertex is known. -/
def Env.done (e : Env V) (v : V) : Prop := e.visited v ∧ v ∉ e.stack

/-- What holds of the search between two steps. -/
structure Env.Valid (R : V → V → Prop) (gray : V → Prop) (e : Env V) : Prop where
  gray_mem : ∀ v, gray v → v ∈ e.stack
  stack_visited : ∀ v ∈ e.stack, e.visited v
  num_lt : ∀ v, e.visited v → e.num v < e.nextNum
  sorted : e.stack.Pairwise fun v w => e.num w < e.num v
  black : ∀ v w, e.visited v → ¬gray v → R v w → e.visited w
  up : ∀ v ∈ e.stack, ∀ w ∈ e.stack, e.num v ≤ e.num w → ReflTransGen R v w
  down : ∀ v ∈ e.stack, ∃ g, gray g ∧ e.num g ≤ e.num v ∧ ReflTransGen R v g
  comp_pos : 0 < e.nextComp
  comp_range : ∀ v, e.done v → 0 < e.comp v ∧ e.comp v < e.nextComp
  comp_used : ∀ i, 0 < i → i < e.nextComp → ∃ v, e.done v ∧ e.comp v = i
  comp_iff : ∀ v w, e.done v → e.done w → (e.comp v = e.comp w ↔ ReflTransGen R v w ∧ ReflTransGen R w v)
  comp_edge : ∀ v w, e.done v → R v w → e.done w ∧ e.comp w ≤ e.comp v

section
variable [DecidableEq V]

/-- The visit of a vertex begins. -/
def Env.push (e : Env V) (n : V) : Env V :=
  { e with
    visited := fun v => e.visited v ∨ v = n
    stack := n :: e.stack
    num := Function.update e.num n e.nextNum
    nextNum := e.nextNum + 1 }

/-- The vertices `top` of the stack are a component. -/
def Env.pop (e : Env V) (top rest : List V) : Env V :=
  { e with
    stack := rest
    comp := fun v => if v ∈ top then e.nextComp else e.comp v
    nextComp := e.nextComp + 1 }

end

/-- What a visit leaves alone: it puts `s` on the stack. -/
structure Grows (e e' : Env V) (s : List V) : Prop where
  stack : e'.stack = s ++ e.stack
  new : ∀ v ∈ s, ¬e.visited v
  visited : ∀ v, e.visited v → e'.visited v
  num : ∀ v, e.visited v → e'.num v = e.num v

variable {R : V → V → Prop} {gray : V → Prop} {e e' e'' : Env V} {n v w : V} {s s' top rest : List V}

theorem Grows.refl (e : Env V) : Grows e e [] := ⟨rfl, fun _ h => absurd h List.not_mem_nil, fun _ h => h, fun _ _ => rfl⟩

theorem Grows.trans (h : Grows e e' s) (h' : Grows e' e'' s') : Grows e e'' (s' ++ s) where
  stack := by rw [h'.stack, h.stack, List.append_assoc]
  new v hv := by
    rcases List.mem_append.mp hv with hv | hv
    · exact fun hvis => h'.new v hv (h.visited v hvis)
    · exact h.new v hv
  visited v hv := h'.visited v (h.visited v hv)
  num v hv := (h'.num v (h.visited v hv)).trans (h.num v hv)

namespace Env.Valid

theorem init (R : V → V → Prop) (hvisited : ∀ v, ¬e.visited v) (hstack : e.stack = []) (hcomp : e.nextComp = 1) :
    e.Valid R fun _ => False := by
  have hmem (v : V) : v ∉ e.stack := by
    rw [hstack]
    exact List.not_mem_nil
  constructor
  · exact fun _ h => h.elim
  · exact fun v h => absurd h (hmem v)
  · exact fun v h => absurd h (hvisited v)
  · rw [hstack]
    exact List.Pairwise.nil
  · exact fun v _ h => absurd h (hvisited v)
  · exact fun v h => absurd h (hmem v)
  · exact fun v h => absurd h (hmem v)
  · rw [hcomp]
    exact Nat.one_pos
  · exact fun v h => absurd h.1 (hvisited v)
  · intro i h0 h1
    omega
  · exact fun v _ h => absurd h.1 (hvisited v)
  · exact fun v _ h => absurd h.1 (hvisited v)

theorem stack_eq_nil (h : e.Valid R fun _ => False) : e.stack = [] :=
  List.eq_nil_iff_forall_not_mem.mpr fun v hv => (h.down v hv).elim fun _ hg => hg.1

theorem done_iff (h : e.Valid R fun _ => False) : e.done v ↔ e.visited v := by
  rw [done, h.stack_eq_nil]
  exact and_iff_left List.not_mem_nil

theorem done_of_reach (h : e.Valid R gray) (hv : e.done v) (hvw : ReflTransGen R v w) : e.done w := by
  induction hvw with
  | refl => exact hv
  | tail _ hab ih => exact (h.comp_edge _ _ ih hab).1

variable [DecidableEq V]

omit [DecidableEq V] in
theorem reach_of_gray (h : e.Valid R gray) (hn : ∀ g, gray g → ReflTransGen R g n) (hv : v ∈ e.stack) :
    ReflTransGen R v n := by
  obtain ⟨g, hg, -, hvg⟩ := h.down v hv
  exact hvg.trans (hn g hg)

theorem push (h : e.Valid R gray) (hnew : ¬e.visited n) (hn : ∀ g, gray g → ReflTransGen R g n) :
    (e.push n).Valid R fun v => gray v ∨ v = n := by
  have hnum (v : V) (hv : e.visited v) : (e.push n).num v = e.num v :=
    Function.update_of_ne (by rintro rfl; exact hnew hv) _ _
  have hself : (e.push n).num n = e.nextNum := Function.update_self ..
  have hdone (v : V) : (e.push n).done v ↔ e.done v := by
    show (e.visited v ∨ v = n) ∧ v ∉ n :: e.stack ↔ _
    rw [List.mem_cons, not_or]
    constructor
    · exact fun h' => ⟨h'.1.resolve_right h'.2.1, h'.2.2⟩
    · exact fun h' => ⟨.inl h'.1, by rintro rfl; exact hnew h'.1, h'.2⟩
  constructor
  · rintro v (hv | rfl)
    · exact List.mem_cons_of_mem _ (h.gray_mem v hv)
    · exact List.mem_cons_self
  · intro v hv
    rcases List.mem_cons.mp hv with rfl | hv
    · exact .inr rfl
    · exact .inl (h.stack_visited v hv)
  · rintro v (hv | rfl)
    · rw [hnum v hv]
      exact Nat.lt_succ_of_lt (h.num_lt v hv)
    · rw [hself]
      exact Nat.lt_succ_self _
  · refine List.pairwise_cons.mpr ⟨fun v hv => ?_, ?_⟩
    · rw [hself, hnum v (h.stack_visited v hv)]
      exact h.num_lt v (h.stack_visited v hv)
    · refine h.sorted.imp_of_mem fun {a b} ha hb hab => ?_
      rwa [hnum a (h.stack_visited a ha), hnum b (h.stack_visited b hb)]
  · rintro v w (hv | rfl) hgray hvw
    · exact .inl (h.black v w hv (fun hg => hgray (.inl hg)) hvw)
    · exact absurd (.inr rfl) hgray
  · intro v hv w hw hle
    rcases List.mem_cons.mp hw with rfl | hw'
    · rcases List.mem_cons.mp hv with rfl | hv'
      · exact .refl
      · exact h.reach_of_gray hn hv'
    · have hnumw := hnum w (h.stack_visited w hw')
      rcases List.mem_cons.mp hv with rfl | hv'
      · rw [hself, hnumw] at hle
        exact absurd (h.num_lt w (h.stack_visited w hw')) (Nat.not_lt.mpr hle)
      · rw [hnum v (h.stack_visited v hv'), hnumw] at hle
        exact h.up v hv' w hw' hle
  · intro v hv
    rcases List.mem_cons.mp hv with rfl | hv
    · exact ⟨v, .inr rfl, Nat.le_refl _, .refl⟩
    · obtain ⟨g, hg, hle, hvg⟩ := h.down v hv
      refine ⟨g, .inl hg, ?_, hvg⟩
      rwa [hnum g (h.stack_visited g (h.gray_mem g hg)), hnum v (h.stack_visited v hv)]
  · exact h.comp_pos
  · exact fun v hv => h.comp_range v ((hdone v).mp hv)
  · intro i h0 h1
    obtain ⟨v, hv, hi⟩ := h.comp_used i h0 h1
    exact ⟨v, (hdone v).mpr hv, hi⟩
  · exact fun v w hv hw => h.comp_iff v w ((hdone v).mp hv) ((hdone w).mp hw)
  · intro v w hv hvw
    obtain ⟨hw, hle⟩ := h.comp_edge v w ((hdone v).mp hv) hvw
    exact ⟨(hdone w).mpr hw, hle⟩

omit [DecidableEq V] in
/-- The visit of a vertex ends, but its component stays open: it reaches an older vertex of the stack. -/
theorem finish (h : e.Valid R fun v => gray v ∨ v = n) (hsucc : ∀ w, R n w → e.visited w)
    (hlow : ∃ y ∈ e.stack, e.num y < e.num n ∧ ReflTransGen R n y) : e.Valid R gray where
  gray_mem v hv := h.gray_mem v (.inl hv)
  stack_visited := h.stack_visited
  num_lt := h.num_lt
  sorted := h.sorted
  black v w hv hgray hvw := by
    by_cases hvn : v = n
    · exact hsucc w (hvn ▸ hvw)
    · exact h.black v w hv (not_or.mpr ⟨hgray, hvn⟩) hvw
  up := h.up
  down v hv := by
    obtain ⟨g, hg, hle, hvg⟩ := h.down v hv
    rcases hg with hg | rfl
    · exact ⟨g, hg, hle, hvg⟩
    · -- what `n` reaches goes on to a gray vertex that is older than `n`
      obtain ⟨y, hy, hlt, hny⟩ := hlow
      obtain ⟨g', hg', hle', hyg⟩ := h.down y hy
      refine ⟨g', hg'.resolve_right ?_, by omega, (hvg.trans hny).trans hyg⟩
      rintro rfl
      omega
  comp_pos := h.comp_pos
  comp_range := h.comp_range
  comp_used := h.comp_used
  comp_iff := h.comp_iff
  comp_edge := h.comp_edge

/-- The visit of a root ends: the stack down to it is a component. -/
theorem pop (h : e.Valid R fun v => gray v ∨ v = n) (hstack : e.stack = top ++ rest) (hn : n ∈ top)
    (hgray : ∀ v, gray v → v ∈ rest) (hold : ∀ v ∈ top, e.num n ≤ e.num v) (hsucc : ∀ w, R n w → e.visited w)
    (hout : ∀ v ∈ top, ∀ w ∈ rest, ¬R v w) : (e.pop top rest).Valid R gray := by
  have hmem (v : V) : v ∈ e.stack ↔ v ∈ top ∨ v ∈ rest := by rw [hstack, List.mem_append]
  have hsorted := h.sorted
  rw [hstack] at hsorted
  obtain ⟨-, hrest, hlt⟩ := List.pairwise_append.mp hsorted
  have hdisj (v : V) (hv : v ∈ top) : v ∉ rest := fun hv' => Nat.lt_irrefl _ (hlt v hv v hv')
  have hstep (v w : V) (hv : v ∈ top) (hvw : R v w) : w ∈ top ∨ e.done w := by
    have hvis : e.visited w := by
      by_cases hvn : v = n
      · exact hsucc w (hvn ▸ hvw)
      · refine h.black v w (h.stack_visited v ((hmem v).mpr (.inl hv))) (not_or.mpr ⟨fun hg => ?_, hvn⟩) hvw
        exact hdisj v hv (hgray v hg)
    by_cases hw : w ∈ top
    · exact .inl hw
    · exact .inr ⟨hvis, fun hs => ((hmem w).mp hs).elim hw fun hw' => hout v hv w hw' hvw⟩
  have hreach (v w : V) (hv : v ∈ top) (hvw : ReflTransGen R v w) : w ∈ top ∨ e.done w := by
    induction hvw with
    | refl => exact .inl hv
    | tail _ hab ih =>
      rcases ih with hb | hb
      · exact hstep _ _ hb hab
      · exact .inr (h.comp_edge _ _ hb hab).1
  -- the component hangs together through its root
  have hup (v : V) (hv : v ∈ top) : ReflTransGen R n v :=
    h.up n ((hmem n).mpr (.inl hn)) v ((hmem v).mpr (.inl hv)) (hold v hv)
  have hdown (v : V) (hv : v ∈ top) : ReflTransGen R v n := by
    obtain ⟨g, hg | rfl, -, hvg⟩ := h.down v ((hmem v).mpr (.inl hv))
    · rcases hreach v g hv hvg with hg' | hg'
      · exact absurd (hgray g hg) (hdisj g hg')
      · exact absurd ((hmem g).mpr (.inr (hgray g hg))) hg'.2
    · exact hvg
  have hdone (v : V) : (e.pop top rest).done v ↔ e.done v ∨ v ∈ top := by
    show e.visited v ∧ v ∉ rest ↔ (e.visited v ∧ v ∉ e.stack) ∨ v ∈ top
    rw [hmem v]
    by_cases hv : v ∈ top
    · exact iff_of_true ⟨h.stack_visited v ((hmem v).mpr (.inl hv)), hdisj v hv⟩ (.inr hv)
    · rw [or_iff_right hv, or_iff_left hv]
  have hcomp (v : V) (hv : e.done v) : (e.pop top rest).comp v = e.comp v :=
    if_neg fun hv' => hv.2 ((hmem v).mpr (.inl hv'))
  have hcomp' (v : V) (hv : v ∈ top) : (e.pop top rest).comp v = e.nextComp := if_pos hv
  have hnot (v w : V) (hv : e.done v) (hw : w ∈ top) : ¬ReflTransGen R v w := fun hvw =>
    (h.done_of_reach hv hvw).2 ((hmem w).mpr (.inl hw))
  constructor
  · exact hgray
  · exact fun v hv => h.stack_visited v ((hmem v).mpr (.inr hv))
  · exact h.num_lt
  · exact hrest
  · intro v w hv hg hvw
    by_cases hvn : v = n
    · exact hsucc w (hvn ▸ hvw)
    · exact h.black v w hv (not_or.mpr ⟨hg, hvn⟩) hvw
  · exact fun v hv w hw => h.up v ((hmem v).mpr (.inr hv)) w ((hmem w).mpr (.inr hw))
  · intro v hv
    obtain ⟨g, hg | rfl, hle, hvg⟩ := h.down v ((hmem v).mpr (.inr hv))
    · exact ⟨g, hg, hle, hvg⟩
    · exact absurd (hlt g hn v hv) (Nat.not_lt.mpr hle)
  · exact Nat.succ_pos _
  · intro v hv
    show _ ∧ _ < e.nextComp + 1
    rcases (hdone v).mp hv with hv | hv
    · rw [hcomp v hv]
      have := h.comp_range v hv
      omega
    · rw [hcomp' v hv]
      exact ⟨h.comp_pos, Nat.lt_succ_self _⟩
  · intro i h0 h1
    by_cases hi : i = e.nextComp
    · exact ⟨n, (hdone n).mpr (.inr hn), (hcomp' n hn).trans hi.symm⟩
    · obtain ⟨v, hv, hvi⟩ := h.comp_used i h0 (by have : i < e.nextComp + 1 := h1; omega)
      exact ⟨v, (hdone v).mpr (.inl hv), (hcomp v hv).trans hvi⟩
  · intro v w hv hw
    rcases (hdone v).mp hv with hv | hv <;> rcases (hdone w).mp hw with hw | hw
    · rw [hcomp v hv, hcomp w hw]
      exact h.comp_iff v w hv hw
    · rw [hcomp v hv, hcomp' w hw]
      exact iff_of_false (Nat.ne_of_lt (h.comp_range v hv).2) fun h' => hnot v w hv hw h'.1
    · rw [hcomp' v hv, hcomp w hw]
      exact iff_of_false (Nat.ne_of_gt (h.comp_range w hw).2) fun h' => hnot w v hw hv h'.2
    · rw [hcomp' v hv, hcomp' w hw]
      exact iff_of_true rfl ⟨(hdown v hv).trans (hup w hw), (hdown w hw).trans (hup v hv)⟩
  · intro v w hv hvw
    rcases (hdone v).mp hv with hv | hv
    · obtain ⟨hw, hle⟩ := h.comp_edge v w hv hvw
      rw [hcomp v hv, hcomp w hw]
      exact ⟨(hdone w).mpr (.inl hw), hle⟩
    · refine ⟨(hdone w).mpr (hstep v w hv hvw).symm, ?_⟩
      rw [hcomp' v hv]
      rcases hstep v w hv hvw with hw | hw
      · exact Nat.le_of_eq (hcomp' w hw)
      · rw [hcomp w hw]
        exact Nat.le_of_lt (h.comp_range w hw).2

end Env.Valid

end Path64.Components

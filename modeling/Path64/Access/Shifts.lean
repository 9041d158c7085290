import Path64.Access.Exact

/-!
# Shifts in subscripts

* `Built` : the access vectors that calls of `Set` and `Add_Sum` make;
* `addSum_exact_iff` : a vector that is not too messy has gained the value of the expression just when the errors of
  the folded shifts, and those of the products that lose factors, cancel, as long as no 64-bit result overflows;
  `addSum_folds_shift` : `i >> 1` becomes 0.
-/

namespace Path64.Access

open Lib

/-! ## The vectors there are -/

variable {α : Type} [DecidableEq α]

/-- The vectors that come from `Init` by calls of `Set` and `Add_Sum`, each with its own loops. -/
inductive Built : AccessVector α → Prop where
  | init (nestDepth : Nat) : Built (.init nestDepth)
  | set {stack : List α} {v v' : AccessVector α} {wn : Wn α} {sign offset : Int} {allowNonlin : Bool} (hv : Built v)
      (h : set wrapped stack v wn sign offset allowNonlin = .ok v') : Built v'
  | addSum {stack : List α} {v v' : AccessVector α} {wn : Wn α} {coeff : Int} {allowNonlin : Bool} (hv : Built v)
      (h : addSum wrapped stack allowNonlin wn coeff v = .ok v') : Built v'

theorem built_start (nestDepth : Nat) : Built (⟨false, nestDepth, none, none, none, 0⟩ : AccessVector α) :=
  @Built.set α _ [] _ _ (.intconst 0) 1 0 false (.init nestDepth) rfl

theorem Built.wf {v : AccessVector α} (h : Built v) : v.WF := by
  induction h with
  | init nestDepth => exact ⟨(fun _ hl => nomatch hl), (fun _ hnode => nomatch hnode)⟩
  | set hv h ih => exact (addSum_keeps h).wf ⟨ih.lcoeff, (fun _ hnode => nomatch hnode)⟩
  | addSum hv h ih => exact (addSum_keeps h).wf ih

/-! ## Subscripts with shifts -/

/-- The vector has gained the value of the expression just when the errors of folding cancel. -/
theorem addSum_exact_iff (stack : List α) (allowNonlin : Bool) (wn : Wn α) (coeff : Int) {v v' : AccessVector α}
    (hv : Built v) (hfits : addSum checked stack allowNonlin wn coeff v ≠ .error .overflow)
    (h : addSum wrapped stack allowNonlin wn coeff v = .ok v') (hm : v'.tooMessy = false) (env : α → Int)
    (rest : Nat → Int) :
    v'.eval stack env = v.eval stack env + coeff * wn.value env rest ↔ foldError allowNonlin env rest wn coeff = 0 := by
  rw [agrees_addSum _ _ _ _ _ hfits] at h
  have hadd := (addSum_adds env rest h).grows hv.wf hm
  rw [hadd, ← Int.add_assoc]
  exact add_eq_left

/-- `4 * (i >> 1)` in a loop over `i`, at `i = 6`: the coefficient becomes 2. -/
theorem addSum_exact_even : ∃ v v' : AccessVector Nat, Built v ∧
    addSum wrapped [0] false (.mpy (.intconst 4) (.ashr true (.ldid 0 false) (.intconst 1))) 1 v = .ok v' ∧
    v'.loopCoeff 0 = 2 ∧ v'.eval [0] (fun _ => 6) = v.eval [0] (fun _ => 6) + 12 := by
  have hadd : addSum wrapped [0] false (.mpy (.intconst 4) (.ashr true (.ldid 0 false) (.intconst 1))) 1
      ⟨false, 1, none, none, none, 0⟩ = .ok (⟨false, 1, some [2], none, none, 0⟩ : AccessVector Nat) := by
    decide
  refine ⟨_, _, built_start 1, hadd, rfl, ?_⟩
  exact (addSum_exact_iff [0] false _ 1 (built_start 1) (by decide) hadd rfl (fun _ => 6) (fun _ => 0)).mpr (by decide)

/-- `i >> 1` in a loop over `i` becomes the constant 0: at `i = 2` its value is 1. -/
theorem addSum_folds_shift : ∃ v v' : AccessVector Nat, Built v ∧
    addSum wrapped [0] false (.ashr true (.ldid 0 false) (.intconst 1)) 1 v = .ok v' ∧ v'.tooMessy = false ∧
    v'.eval [0] (fun _ => 2) ≠ v.eval [0] (fun _ => 2) +
      1 * (Wn.ashr true (.ldid 0 false) (.intconst 1)).value (fun _ => 2) (fun _ => 0) := by
  have hadd : addSum wrapped [0] false (.ashr true (.ldid 0 false) (.intconst 1)) 1
      ⟨false, 1, none, none, none, 0⟩ = .ok (⟨false, 1, some [0], none, none, 0⟩ : AccessVector Nat) := by
    decide
  exact ⟨_, _, built_start 1, hadd, rfl, by decide⟩

end Path64.Access

import Mathlib

/-!
# Searching for the least number

* `Least p o` : `o` is the least number with `p`, or `none` when there is none;
* `Within p lo hi` : `p` between two bounds; `Least.append` : one search after the other;
* `least_findSome` : a loop that searches consecutive blocks;
* `sweep` : the numbers a loop visits that asks for the next one after each.
-/

namespace Path64.Lib

variable {p : Nat → Prop} {o o' : Option Nat} {lo mid hi a b k : Nat}

/-- The least number with `p`, if there is one. -/
inductive Least (p : Nat → Prop) : Option Nat → Prop
  | none (h : ∀ x, ¬p x) : Least p none
  | some {x : Nat} (h : p x) (hle : ∀ y, p y → x ≤ y) : Least p (some x)

/-- `p` from `lo` on and below `hi`. -/
def Within (p : Nat → Prop) (lo hi x : Nat) : Prop := lo ≤ x ∧ x < hi ∧ p x

theorem Least.congr {p' : Nat → Prop} (h : Least p o) (hp : ∀ x, p x ↔ p' x) : Least p' o := by
  have heq : p = p' := funext fun x => propext (hp x)
  rwa [← heq]

theorem Least.append (h : Least (Within p lo mid) o) (h' : Least (Within p mid hi) o') (hlo : lo ≤ mid)
    (hhi : mid ≤ hi) : Least (Within p lo hi) (o <|> o') := by
  cases h with
  | none h =>
    change Least _ o'
    refine h'.congr fun x => ⟨fun hx => ⟨hlo.trans hx.1, hx.2⟩, fun hx => ⟨?_, hx.2⟩⟩
    by_contra hlt
    exact h x ⟨hx.1, not_le.mp hlt, hx.2.2⟩
  | some hx hleast =>
    refine .some ⟨hx.1, hx.2.1.trans_le hhi, hx.2.2⟩ fun y hy => ?_
    by_cases hlt : y < mid
    · exact hleast y ⟨hy.1, hlt, hy.2.2⟩
    · exact (hx.2.1.le.trans (not_lt.mp hlt))

theorem least_within_empty (h : hi ≤ lo) : Least (Within p lo hi) none := by
  refine .none fun x hx => ?_
  have hlo := hx.1
  have hhi := hx.2.1
  omega

/-- The first answer of consecutive blocks of `k` numbers. -/
theorem least_findSome {f : Nat → Option Nat} (hab : a ≤ b)
    (h : ∀ i, a ≤ i → i < b → Least (Within p (k * i) (k * (i + 1))) (f i)) :
    Least (Within p (k * a) (k * b)) ((List.range' a (b - a)).findSome? f) := by
  induction hn : b - a generalizing a with
  | zero =>
    obtain rfl : a = b := by omega
    exact least_within_empty le_rfl
  | succ n ih =>
    rw [List.range'_succ, List.findSome?_cons]
    have hrest := ih (a := a + 1) (by omega) (fun i hi => h i (by omega)) (by omega)
    have hfirst := (h a le_rfl (by omega)).append hrest (Nat.mul_le_mul_left k (Nat.le_succ a))
      (Nat.mul_le_mul_left k (by omega))
    cases hf : f a with
    | none =>
      rw [hf] at hfirst
      exact hfirst
    | some x =>
      rw [hf] at hfirst
      exact hfirst

/-- The numbers from `o` on that a loop visits; `next` gives the one after each. -/
def sweep (next : Nat → Option Nat) : Nat → Option Nat → List Nat
  | 0, _ => []
  | _, none => []
  | fuel + 1, some x => x :: sweep next fuel (next x)

/-- A loop over the least number and the least one after each visits all, once and in order. -/
theorem sweep_eq {next : Nat → Option Nat} {s : Finset Nat} (hs : ∀ x ∈ s, x < hi)
    (hnext : ∀ x ∈ s, Least (fun y => x < y ∧ y ∈ s) (next x)) (ho : Least (fun y => lo ≤ y ∧ y ∈ s) o) {fuel : Nat}
    (hfuel : hi - lo ≤ fuel) : (sweep next fuel o).Pairwise (· < ·) ∧
      ∀ x, x ∈ sweep next fuel o ↔ lo ≤ x ∧ x ∈ s := by
  induction fuel generalizing lo o with
  | zero =>
    refine ⟨List.Pairwise.nil, fun x => iff_of_false (fun h => nomatch h) fun ⟨hlo, hx⟩ => ?_⟩
    have := hs x hx
    omega
  | succ fuel ih =>
    cases ho with
    | none ho => exact ⟨List.Pairwise.nil, fun x => iff_of_false (fun h => nomatch h) (ho x)⟩
    | @some x hx hleast =>
      obtain ⟨hlo, hx⟩ := hx
      have hlt := hs x hx
      have hrest := @ih (next x) (x + 1) ((hnext x hx).congr fun y => Iff.rfl) (by omega)
      rw [sweep]
      refine ⟨?_, fun y => ?_⟩
      · rw [List.pairwise_cons]
        exact ⟨fun y hy => ((hrest.2 y).mp hy).1, hrest.1⟩
      · rw [List.mem_cons, hrest.2 y]
        constructor
        · rintro (rfl | ⟨hy, hmem⟩)
          · exact ⟨hlo, hx⟩
          · exact ⟨by omega, hmem⟩
        · rintro ⟨hy, hmem⟩
          have := hleast y ⟨hy, hmem⟩
          rcases Nat.eq_or_lt_of_le this with heq | hlt
          · exact Or.inl heq.symm
          · exact Or.inr ⟨hlt, hmem⟩

end Path64.Lib

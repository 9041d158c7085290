import Path64.Rename.Fix

/-!
# The lists of phis

* `Listed P s lists` : the phis of each block, from the head of its list to the tail, and the hash table that agrees;
* `Placing P s` : the state between the loops;
* `Listed.eq_of_aux` : a block has one phi for a variable at most;
* `removed_iff` : the hash table without a phi;
* `resetList_eq` : the loop that marks the phis of a list not visited.
-/

namespace Path64.Rename

open Path64.Lists (Links length_le_of_lt)

/-- The last phi of a list, or `NULL`. -/
def lastPhi (l : List Nat) : Int := l.getLast?.elim (-1) fun p => p

theorem lastPhi_append (l : List Nat) (p : Nat) : lastPhi (l ++ [p]) = p := by
  rw [lastPhi, List.getLast?_concat]
  rfl

/-- The lists hold the phis of their blocks, with the size that `In_degree ()` had when they were made, and the hash
table finds just these. -/
structure Listed (P : Prog) (s : State) (lists : Nat → List Nat) : Prop where
  links : ∀ b, Links s.next (s.head b) (lists b)
  tail : ∀ b, P.hasPhiList b = true → s.tail b = lastPhi (lists b)
  noList : ∀ b, P.hasPhiList b = false → lists b = []
  made : ∀ b, ∀ p ∈ lists b, p < s.fresh
  bb : ∀ b, ∀ p ∈ lists b, (s.node p).bb = b
  size : ∀ b, ∀ p ∈ lists b, (s.node p).size = s.inDegree b ∧ s.inDegree b < 2 ^ 15
  hash : ∀ b v p, s.hash b v = some p ↔ p ∈ lists b ∧ (s.node p).auxId = v

namespace Listed

variable {P : Prog} {s : State} {lists : Nat → List Nat} {b b' p q v : Nat}

theorem length_le (h : Listed P s lists) (b : Nat) : (lists b).length < s.fresh + 1 :=
  Nat.lt_succ_of_le (length_le_of_lt (h.links b).nodup (h.made b))

theorem eq_of_mem (h : Listed P s lists) (hp : p ∈ lists b) (hp' : p ∈ lists b') : b = b' :=
  (h.bb b p hp).symm.trans (h.bb b' p hp')

/-- A block has one phi for a variable at most. -/
theorem eq_of_aux (h : Listed P s lists) (hp : p ∈ lists b) (hq : q ∈ lists b)
    (haux : (s.node p).auxId = (s.node q).auxId) : p = q := by
  have hp' := (h.hash b _ p).mpr ⟨hp, haux⟩
  have hq' := (h.hash b _ q).mpr ⟨hq, rfl⟩
  exact Option.some_inj.mp (hp'.symm.trans hq')

theorem hasPhiList (h : Listed P s lists) (hp : p ∈ lists b) : P.hasPhiList b = true := by
  by_contra hlist
  rw [h.noList b (eq_false_of_ne_true hlist)] at hp
  exact List.not_mem_nil hp

end Listed

/-- The state between the loops: every phi has an operand for each predecessor. -/
structure Placing (P : Prog) (s : State) : Prop where
  listed : ∃ lists, Listed P s lists
  inDegree : ∀ b, P.hasPhiList b = true → s.inDegree b = (P.preds b).length

/-- The hash table without the phi `p`, which is entered at its own block and variable only. -/
theorem removed_iff {hash : Nat → Nat → Option Nat} {B A p : Nat} (hown : ∀ q, hash B A = some q → q = p)
    (honly : ∀ b v, hash b v = some p → b = B ∧ v = A) (b v q : Nat) :
    Function.update hash B (Function.update (hash B) A none) b v = some q ↔ hash b v = some q ∧ q ≠ p := by
  by_cases hb : b = B
  · subst hb
    rw [Function.update_self]
    by_cases hv : v = A
    · subst hv
      rw [Function.update_self]
      exact ⟨fun h => absurd h.symm (Option.some_ne_none q), fun h => absurd (hown q h.1) h.2⟩
    · rw [Function.update_of_ne hv]
      refine (and_iff_left_of_imp fun h hq => ?_).symm
      exact hv (honly b v (hq ▸ h)).2
  · rw [Function.update_of_ne hb]
    refine (and_iff_left_of_imp fun h hq => ?_).symm
    exact hb (honly b v (hq ▸ h)).1

theorem resetList_eq {fuel : Nat} {s : State} {phi : Int} {l : List Nat} (h : Links s.next phi l)
    (hfuel : l.length < fuel) :
    resetList fuel s phi = some { s with visited := fun p => !decide (p ∈ l) && s.visited p } := by
  induction l generalizing fuel s phi with
  | nil =>
    obtain ⟨n, rfl⟩ := Nat.exists_eq_add_one_of_ne_zero (Nat.ne_of_gt hfuel)
    have hend : phi = -1 := h
    rw [resetList, if_pos hend]
    simp only [List.not_mem_nil, decide_false, Bool.not_false, Bool.true_and]
  | cons p l ih =>
    obtain ⟨n, rfl⟩ := Nat.exists_eq_add_one_of_ne_zero (Nat.ne_of_gt (Nat.zero_lt_of_lt hfuel))
    obtain ⟨rfl, h⟩ := h
    rw [resetList, if_neg (by omega), Int.toNat_natCast]
    rw [ih (s := { s with visited := Function.update s.visited p false }) h (by rw [List.length_cons] at hfuel; omega)]
    congr 2
    funext q
    by_cases hq : q = p
    · subst hq
      simp only [Function.update_self, Bool.and_false, List.mem_cons, true_or, decide_true, Bool.not_true,
        Bool.false_and]
    · dsimp only
      rw [Function.update_of_ne hq]
      simp only [List.mem_cons, hq, false_or]

end Path64.Rename

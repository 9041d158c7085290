import Path64.Rename.Basic

/-!
# Fixing zero versions

* `Chained` : every list of phis ends, so that the search for a definition does (`Chained.findDef_isSome`);
* `fixAll_spec`, `fixAll_none` : the loop of `delete_var_phi` over the operands;
* `deleteVarPhi_spec`, `deleteVarPhi_none` : a phi is deleted when each zero version that is to be fixed is the operand
  of a predecessor, and else an assertion fails.
-/

namespace Path64.Rename

open Path64.Lists (Links length_le_of_lt)

/-! ## Finding a definition -/

/-- Every list of phis ends, and its phis have been made. -/
def PhiLists.Chained (s : PhiLists) : Prop := ∀ b, ∃ l, Links s.next (s.head b) l ∧ ∀ p ∈ l, p < s.fresh

section Lists

variable {P : Prog} {s s' : PhiLists} {aux b : Nat}

theorem findPhi_eq_find? {fuel : Nat} {phi : Int} {l : List Nat} (h : Links s.next phi l) (hfuel : l.length < fuel) :
    s.findPhi aux fuel phi = some (l.find? fun p => (s.node p).auxId = aux) := by
  induction l generalizing phi fuel with
  | nil =>
    obtain ⟨n, rfl⟩ := Nat.exists_eq_add_one_of_ne_zero (Nat.ne_of_gt hfuel)
    have hend : phi = -1 := h
    rw [PhiLists.findPhi, if_pos hend, List.find?_nil]
  | cons p l ih =>
    obtain ⟨n, rfl⟩ := Nat.exists_eq_add_one_of_ne_zero (Nat.ne_of_gt (Nat.zero_lt_of_lt hfuel))
    obtain ⟨rfl, h⟩ := h
    rw [PhiLists.findPhi, if_neg (by omega), Int.toNat_natCast, List.find?_cons]
    by_cases haux : (s.node p).auxId = aux
    · rw [if_pos haux, decide_eq_true haux]
    · rw [if_neg haux, decide_eq_false haux]
      exact ih h (by rw [List.length_cons] at hfuel; omega)

theorem PhiLists.Chained.findPhi_isSome (h : s.Chained) (aux b : Nat) :
    ∃ r, s.findPhi aux (s.fresh + 1) (s.head b) = some r := by
  obtain ⟨l, hl, hlt⟩ := h b
  exact ⟨_, findPhi_eq_find? hl (Nat.lt_succ_of_le (length_le_of_lt hl.nodup hlt))⟩

theorem PhiLists.Chained.findDefFrom_isSome (h : s.Chained) {blocks : Nat} (hdepth : P.depth b < blocks) :
    ∃ d, s.findDefFrom P aux blocks b = some d := by
  induction blocks generalizing b with
  | zero => exact absurd hdepth (Nat.not_lt_zero _)
  | succ blocks ih =>
    rw [PhiLists.findDefFrom]
    rcases P.findInStmts b aux with _ | d
    · obtain ⟨r, hr⟩ := h.findPhi_isSome aux b
      rw [hr]
      rcases r with _ | p
      · rcases hidom : P.idom b with _ | a
        · exact ⟨none, rfl⟩
        · exact ih (Nat.lt_of_lt_of_le (P.idom_lt b a hidom) (Nat.le_of_lt_succ hdepth))
      · exact ⟨some (.phi p), rfl⟩
    · exact ⟨some d, rfl⟩

/-- The search for a definition ends. -/
theorem PhiLists.Chained.findDef_isSome (h : s.Chained) (P : Prog) (aux b : Nat) : ∃ d, s.findDef P aux b = some d :=
  h.findDefFrom_isSome (Nat.lt_succ_self _)

/-- The operand `k` of the phi `p` would be fixed with the definition `d`. -/
def PhiLists.Finds (P : Prog) (s : PhiLists) (p k : Nat) (d : DefRep) : Prop :=
  ∃ pred, (P.preds (s.node p).bb)[k]? = some pred ∧ s.findDef P (s.node p).auxId pred = some (some d)

end Lists

/-! ## One operand -/

variable {P : Prog} {s : State} {p k n : Nat}

/-- The versions after the operands `k < n` of the phi `p` were fixed where they are zero versions. -/
structure Fixed (P : Prog) (s : State) (p n : Nat) (o : Nat → Nat → Bool) (z : DefRep → Bool) : Prop where
  others : ∀ q, q ≠ p → o q = s.opndZero q
  later : ∀ k, n ≤ k → o p k = s.opndZero p k
  result : ∀ d, z d = false ↔ s.resultZero d = false ∨
    ∃ k, k < n ∧ s.opndZero p k = true ∧ s.toPhiLists.Finds P p k d

theorem fixZeroVersion_spec (hchain : s.Chained) (hk : k < (P.preds (s.node p).bb).length) :
    ∃ o z, fixZeroVersion P s p k = some { s with opndZero := o, resultZero := z } ∧
      (∀ q, q ≠ p → o q = s.opndZero q) ∧ (∀ j, j ≠ k → o p j = s.opndZero p j) ∧
      ∀ d, z d = false ↔ s.resultZero d = false ∨ s.toPhiLists.Finds P p k d := by
  obtain ⟨d?, hd?⟩ := hchain.findDef_isSome P (s.node p).auxId (P.preds (s.node p).bb)[k]
  have hpred : (P.preds (s.node p).bb)[k]? = some (P.preds (s.node p).bb)[k] := List.getElem?_eq_getElem hk
  have hfinds : ∀ d, s.toPhiLists.Finds P p k d ↔ d? = some d := by
    intro d
    unfold PhiLists.Finds
    rw [hpred]
    constructor
    · rintro ⟨pred, hpred, hd⟩
      rw [← Option.some_inj.mp hpred, hd?] at hd
      exact Option.some_inj.mp hd
    · intro hd
      exact ⟨_, rfl, by rw [hd?, hd]⟩
  unfold fixZeroVersion
  rw [hpred, Option.bind_eq_bind, Option.bind_some, hd?, Option.bind_eq_bind, Option.bind_some]
  rcases d? with _ | d
  · refine ⟨s.opndZero, s.resultZero, rfl, fun _ _ => rfl, fun _ _ => rfl, fun d => ?_⟩
    rw [hfinds]
    exact ⟨.inl, fun h => h.resolve_right (Option.some_ne_none d).symm⟩
  · refine ⟨_, _, rfl, fun q hq => Function.update_of_ne hq _ _, fun j hj => ?_, fun d' => ?_⟩
    · rw [Function.update_self, Function.update_of_ne hj]
    · rw [hfinds, Option.some_inj]
      by_cases hd : d = d'
      · subst hd
        refine ⟨fun _ => .inr rfl, fun _ => ?_⟩
        split_ifs with h
        · exact Function.update_self ..
        · rw [Bool.or_eq_true, not_or, Bool.not_eq_true, Bool.not_eq_true] at h
          exact h.2
      · refine Iff.trans ?_ (or_iff_left hd).symm
        split_ifs with h
        · rw [Function.update_of_ne (Ne.symm hd)]
        · exact Iff.rfl

theorem fixZeroVersion_none (hk : (P.preds (s.node p).bb).length ≤ k) : fixZeroVersion P s p k = none := by
  unfold fixZeroVersion
  rw [List.getElem?_eq_none hk]
  rfl

/-! ## All operands -/

/-- The loop of `delete_var_phi`. -/
def fixOpnd (P : Prog) (p : Nat) (s : State) (pkid : Nat) : Option State :=
  if s.opndZero p pkid then fixZeroVersion P s p pkid else some s

theorem fixAll_spec (hchain : s.Chained)
    (hlen : ∀ k, k < n → s.opndZero p k = true → k < (P.preds (s.node p).bb).length) :
    ∃ o z, (List.range n).foldlM (fixOpnd P p) s = some { s with opndZero := o, resultZero := z } ∧
      Fixed P s p n o z := by
  induction n with
  | zero =>
    refine ⟨s.opndZero, s.resultZero, rfl, fun _ _ => rfl, fun _ _ => rfl, fun d => ?_⟩
    simp only [Nat.not_lt_zero, false_and, exists_false, or_false]
  | succ n ih =>
    obtain ⟨o, z, hfold, hfixed⟩ := ih fun k hk => hlen k (Nat.lt_succ_of_lt hk)
    rw [List.range_succ, List.foldlM_append, hfold, Option.bind_eq_bind, Option.bind_some, List.foldlM_cons,
      fixOpnd]
    -- the operand has not been touched yet
    have hsame : o p n = s.opndZero p n := hfixed.later n le_rfl
    by_cases hzero : s.opndZero p n = true
    · rw [if_pos (hsame.trans hzero)]
      obtain ⟨o', z', hfix, hothers, hlater, hresult⟩ := fixZeroVersion_spec (P := P)
        (s := { s with opndZero := o, resultZero := z }) (p := p) hchain (hlen n (Nat.lt_succ_self n) hzero)
      refine ⟨o', z', by rw [hfix]; rfl, fun q hq => (hothers q hq).trans (hfixed.others q hq), fun k hk => ?_,
        fun d => ?_⟩
      · exact (hlater k (by omega)).trans (hfixed.later k (by omega))
      · rw [hresult, hfixed.result, or_assoc]
        refine or_congr_right ⟨?_, ?_⟩
        · rintro (⟨k, hk, h⟩ | h)
          · exact ⟨k, Nat.lt_succ_of_lt hk, h⟩
          · exact ⟨n, Nat.lt_succ_self n, hzero, h⟩
        · rintro ⟨k, hk, hkz, h⟩
          rcases Nat.lt_succ_iff_lt_or_eq.mp hk with hk | rfl
          · exact .inl ⟨k, hk, hkz, h⟩
          · exact .inr h
    · rw [if_neg fun h => hzero (hsame.symm.trans h)]
      refine ⟨o, z, rfl, hfixed.others, fun k hk => hfixed.later k (by omega), fun d => ?_⟩
      rw [hfixed.result]
      refine or_congr_right ⟨fun ⟨k, hk, h⟩ => ⟨k, Nat.lt_succ_of_lt hk, h⟩, ?_⟩
      rintro ⟨k, hk, hkz, h⟩
      rcases Nat.lt_succ_iff_lt_or_eq.mp hk with hk | rfl
      · exact ⟨k, hk, hkz, h⟩
      · exact absurd hkz hzero

theorem fixAll_none (hchain : s.Chained)
    (hlen : ¬∀ k, k < n → s.opndZero p k = true → k < (P.preds (s.node p).bb).length) :
    (List.range n).foldlM (fixOpnd P p) s = none := by
  induction n with
  | zero => exact absurd (fun k hk => absurd hk (Nat.not_lt_zero k)) hlen
  | succ n ih =>
    rw [List.range_succ, List.foldlM_append]
    by_cases hall : ∀ k, k < n → s.opndZero p k = true → k < (P.preds (s.node p).bb).length
    · -- the first operand without a predecessor is the last of the loop
      have hn : s.opndZero p n = true ∧ (P.preds (s.node p).bb).length ≤ n := by
        by_contra hn
        refine hlen fun k hk hzero => ?_
        rcases Nat.lt_succ_iff_lt_or_eq.mp hk with hk | rfl
        · exact hall k hk hzero
        · exact Nat.lt_of_not_le fun hle => hn ⟨hzero, hle⟩
      obtain ⟨o, z, hfold, hfixed⟩ := fixAll_spec hchain hall
      have hsame : o p n = true := (hfixed.later n le_rfl).trans hn.1
      rw [hfold, Option.bind_eq_bind, Option.bind_some, List.foldlM_cons, fixOpnd, if_pos hsame]
      rw [fixZeroVersion_none (P := P) (s := { s with opndZero := o, resultZero := z }) hn.2]
      rfl
    · rw [ih hall]
      rfl

/-! ## Deleting a phi -/

/-- A phi whose zero versions are fixed when it is deleted. -/
def State.Fixing (s : State) (p : Nat) : Prop := s.live p = true ∧ s.resultZero (.phi p) = false

theorem deleteVarPhi_eq (P : Prog) (s : State) (p : Nat) : deleteVarPhi P s p =
    (if s.live p && !s.resultZero (.phi p) then (List.range (s.node p).size).foldlM (fixOpnd P p) s else some s).map
      fun s => { s with
        hash := Function.update s.hash (s.node p).bb (Function.update (s.hash (s.node p).bb) (s.node p).auxId none) } := by
  unfold deleteVarPhi
  split_ifs
  · rw [Option.map_eq_bind]
    rfl
  · rfl

theorem fixing_iff : (s.live p && !s.resultZero (.phi p)) = true ↔ s.Fixing p := by
  rw [Bool.and_eq_true, Bool.not_eq_true', State.Fixing]

theorem deleteVarPhi_spec (hchain : s.Chained)
    (hlen : s.Fixing p → ∀ k, k < (s.node p).size → s.opndZero p k = true → k < (P.preds (s.node p).bb).length) :
    ∃ o z, deleteVarPhi P s p = some { s with
        opndZero := o
        resultZero := z
        hash := Function.update s.hash (s.node p).bb (Function.update (s.hash (s.node p).bb) (s.node p).auxId none) } ∧
      (∀ q, q ≠ p → o q = s.opndZero q) ∧
      ∀ d, z d = false ↔ s.resultZero d = false ∨
        s.Fixing p ∧ ∃ k, k < (s.node p).size ∧ s.opndZero p k = true ∧ s.toPhiLists.Finds P p k d := by
  rw [deleteVarPhi_eq]
  by_cases hfix : s.Fixing p
  · rw [if_pos (fixing_iff.mpr hfix)]
    obtain ⟨o, z, hfold, hfixed⟩ := fixAll_spec hchain (hlen hfix)
    refine ⟨o, z, by rw [hfold]; rfl, hfixed.others, fun d => ?_⟩
    rw [hfixed.result, and_iff_right hfix]
  · rw [if_neg fun h => hfix (fixing_iff.mp h)]
    exact ⟨s.opndZero, s.resultZero, rfl, fun _ _ => rfl, fun d => (or_iff_left fun h => hfix h.1).symm⟩

theorem deleteVarPhi_none (hchain : s.Chained) (hfix : s.Fixing p)
    (hlen : ¬∀ k, k < (s.node p).size → s.opndZero p k = true → k < (P.preds (s.node p).bb).length) :
    deleteVarPhi P s p = none := by
  rw [deleteVarPhi_eq, if_pos (fixing_iff.mpr hfix), fixAll_none hchain hlen]
  rfl

end Path64.Rename

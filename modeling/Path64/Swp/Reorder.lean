import Path64.Swp.Basic
import Mathlib.Logic.Relation

/-!
# The order within a cycle

`Can_Swap_OPs` and `SWP_OP_VECTOR::Sort_OPs_Within_Cycles` of `cg_swp_op_vector.cxx`.

* `canSwap`, `move`, `sortOpsWithinCycles` : the verdict on two operations, on the three that are considered at a time,
  and the pass, on the operations between START and STOP;
* `Takes` : the pass puts one of the first three operations in front of the rest, whose order stays;
* `Sorted`, `Unmixed` : the operations that the pass is for; `Takes.not_defines` : what is put in front uses no result
  of the two that it is put in front of;
* `sublist_sort`, `branch_sort`, `sort_respects` : the order that the pass respects.
-/

namespace Path64.Swp
open Relation

/-! ## The pass -/

/-- `SWP_REORDER_OPS`. -/
inductive SwpReorderOps where
  | no | maybeNo | maybe | maybeYes | yes
  deriving DecidableEq, Repr

/-- The verdicts up to `SWP_REORDER_OPS_MAYBE`. -/
def SwpReorderOps.upToMaybe : SwpReorderOps → Bool
  | .no | .maybeNo | .maybe => true
  | .maybeYes | .yes => false

/-- The omegas of the operands of `sop2` that are results of `sop1`. -/
def omegas (sop1 sop2 : SwpOp Tn) : List Int :=
  sop1.results.flatMap fun resTn => (sop2.opnds.filter fun opnd => opnd.tn = resTn).map Opnd.omega

/-- `Can_Swap_OPs`. -/
def canSwap (sop1 sop2 : SwpOp Tn) : SwpReorderOps :=
  if 0 ∈ omegas sop1 sop2 then .no
  else if 0 ∈ omegas sop2 sop1 then .yes
  else if omegas sop2 sop1 ≠ [] then .maybeNo
  else if omegas sop1 sop2 ≠ [] then .maybeYes
  else .maybe

/-- Which of the three operations comes first. -/
inductive Move where
  | stay | second | third
  deriving DecidableEq, Repr

/-- The body of the loop of `Sort_OPs_Within_Cycles`; `itr2` may be the end. -/
def move (itr0 itr1 : SwpOp Tn) (itr2 : Option (SwpOp Tn)) : Move :=
  if itr0.startCycle < itr1.startCycle then .stay
  else
    let canSwap01 := canSwap itr0 itr1
    let same := itr2.filter fun sop => itr1.startCycle ≥ sop.startCycle
    let canSwap02 := (same.map (canSwap itr0)).getD .no
    let canSwap12 := (same.map (canSwap itr1)).getD .no
    if (canSwap01.upToMaybe ∧ canSwap02.upToMaybe) ∨ (canSwap01 = .no ∧ canSwap12 = .no) then .stay
    else if canSwap02 = .no ∨ canSwap12 = .no ∨ (canSwap02.upToMaybe ∧ canSwap12.upToMaybe) then .second
    else .third

/-- The loop, from the two operations that `itr0` and `itr1` are at. -/
def sortFrom (itr0 itr1 : SwpOp Tn) : List (SwpOp Tn) → List (SwpOp Tn)
  | [] => match move itr0 itr1 none with
    | .stay => [itr0, itr1]
    | _ => [itr1, itr0]
  | itr2 :: rest => match move itr0 itr1 (some itr2) with
    | .stay => itr0 :: sortFrom itr1 itr2 rest
    | .second => itr1 :: sortFrom itr0 itr2 rest
    | .third => itr2 :: sortFrom itr0 itr1 rest

/-- `Sort_OPs_Within_Cycles`, on the operations between START and STOP. -/
def sortOpsWithinCycles : List (SwpOp Tn) → List (SwpOp Tn)
  | [] => []
  | [sop] => [sop]
  | itr0 :: itr1 :: rest => sortFrom itr0 itr1 rest

/-! ## One turn of the loop -/

section
variable {a b c u v w s x y : SwpOp Tn} {l l' ops : List (SwpOp Tn)}

/-- One of the first three operations is put in front, and the order of the others stays. -/
inductive Takes : List (SwpOp Tn) → SwpOp Tn → List (SwpOp Tn) → Prop
  | single (a : SwpOp Tn) : Takes [a] a []
  | first {a b : SwpOp Tn} {rest : List (SwpOp Tn)} (h : move a b rest.head? = .stay) :
      Takes (a :: b :: rest) a (b :: rest)
  | second {a b : SwpOp Tn} {rest : List (SwpOp Tn)} (h : move a b rest.head? = .second) :
      Takes (a :: b :: rest) b (a :: rest)
  | third {a b c : SwpOp Tn} {rest : List (SwpOp Tn)} (h : move a b (some c) = .third) :
      Takes (a :: b :: c :: rest) c (a :: b :: rest)

theorem move_none_ne_third (a b : SwpOp Tn) : move a b none ≠ .third := by
  simp only [move, Option.filter_none, Option.map_none, Option.getD_none, true_or, if_true]
  split_ifs <;> exact Move.noConfusion

theorem exists_takes (hl : l ≠ []) : ∃ s l', Takes l s l' ∧ sortOpsWithinCycles l = s :: sortOpsWithinCycles l' := by
  match l with
  | [] => exact absurd rfl hl
  | [a] => exact ⟨a, [], .single a, rfl⟩
  | [a, b] =>
    cases h : move a b none with
    | stay => exact ⟨a, [b], .first h, by simp only [sortOpsWithinCycles, sortFrom, h]⟩
    | second => exact ⟨b, [a], .second h, by simp only [sortOpsWithinCycles, sortFrom, h]⟩
    | third => exact absurd h (move_none_ne_third a b)
  | a :: b :: c :: rest =>
    cases h : move a b (some c) with
    | stay => exact ⟨a, b :: c :: rest, .first h, by simp only [sortOpsWithinCycles, sortFrom, h]⟩
    | second => exact ⟨b, a :: c :: rest, .second h, by simp only [sortOpsWithinCycles, sortFrom, h]⟩
    | third => exact ⟨c, a :: b :: rest, .third h, by simp only [sortOpsWithinCycles, sortFrom, h]⟩

namespace Takes

theorem perm (h : Takes l s l') : l.Perm (s :: l') := by
  cases h with
  | single => exact .refl _
  | first => exact .refl _
  | second => exact .swap _ _ _
  | third => exact ((List.Perm.swap _ _ _).cons _).trans (.swap _ _ _)

theorem sublist (h : Takes l s l') : l'.Sublist l := by
  cases h with
  | single => exact List.nil_sublist _
  | first => exact List.sublist_cons_self _ _
  | second => exact (List.sublist_cons_self _ _).cons_cons _
  | third => exact ((List.sublist_cons_self _ _).cons_cons _).cons_cons _

theorem mem_take (h : Takes l s l') : s ∈ l.take 3 := by
  cases h <;> simp

theorem length_eq (h : Takes l s l') : l.length = l'.length + 1 := by
  rw [h.perm.length_eq, List.length_cons]

theorem eq_erase (h : Takes l s l') (hnodup : l.Nodup) : l' = l.erase s := by
  cases h with
  | single | first => exact (List.erase_cons_head _ _).symm
  | @second a _ rest =>
    have hne : a ≠ s := fun h => by simp [h] at hnodup
    rw [List.erase_cons_tail (by simpa using hne), List.erase_cons_head]
  | @third a b _ rest =>
    have ha : a ≠ s := fun h => by simp [h] at hnodup
    have hb : b ≠ s := fun h => by simp [h] at hnodup
    rw [List.erase_cons_tail (by simpa using ha), List.erase_cons_tail (by simpa using hb), List.erase_cons_head]

end Takes

/-! ## Verdicts -/

/-- `sop1` defines an operand that `sop2` uses in the same iteration. -/
def Defines (sop1 sop2 : SwpOp Tn) : Prop := 0 ∈ omegas sop1 sop2

/-- `sop1` defines an operand that `sop2` uses in a later iteration. -/
def Carries (sop1 sop2 : SwpOp Tn) : Prop := ∃ omega ∈ omegas sop1 sop2, omega ≠ 0

instance (sop1 sop2 : SwpOp Tn) : Decidable (Defines sop1 sop2) := inferInstanceAs (Decidable (_ ∈ _))

instance (sop1 sop2 : SwpOp Tn) : Decidable (Carries sop1 sop2) := inferInstanceAs (Decidable (∃ _ ∈ _, _))

theorem canSwap_eq_no : canSwap x y = .no ↔ Defines x y := by
  unfold canSwap Defines
  split_ifs with h <;> simp [h]

theorem canSwap_ne_yes (h : canSwap x y ≠ .yes) : Defines x y ∨ ¬Defines y x := by
  by_contra hnot
  push Not at hnot
  exact h ((if_neg hnot.1).trans (if_pos hnot.2))

/-- A verdict above `SWP_REORDER_OPS_MAYBE`: the swap is required, or a result is used in a later iteration. -/
theorem not_upToMaybe (h : (canSwap x y).upToMaybe ≠ true) : ¬Defines x y ∧ (Defines y x ∨ Carries x y) := by
  unfold canSwap at h
  split_ifs at h with h1 h2 h3 h4
  · exact absurd rfl h
  · exact ⟨h1, .inl h2⟩
  · exact absurd rfl h
  · obtain ⟨omega, hmem⟩ := List.exists_mem_of_ne_nil _ h4
    exact ⟨h1, .inr ⟨omega, hmem, fun h0 => h1 (h0 ▸ hmem)⟩⟩
  · exact absurd rfl h

theorem upToMaybe_ne_yes {r : SwpReorderOps} (h : r.upToMaybe = true) : r ≠ .yes := fun hr => by
  rw [hr] at h
  exact Bool.false_ne_true h

/-! ## What the pass is for -/

/-- `u` and `v` are operations of one cycle, and `u` defines an operand that `v` uses in the same iteration. -/
def Needed (ops : List (SwpOp Tn)) (u v : SwpOp Tn) : Prop :=
  u ∈ ops ∧ v ∈ ops ∧ u.startCycle = v.startCycle ∧ Defines u v

/-- Operations sorted by cycle, whose dependences within a cycle are acyclic. -/
structure Sorted (ops : List (SwpOp Tn)) : Prop where
  sorted : ops.Pairwise fun u v => u.startCycle ≤ v.startCycle
  nodup : ops.Nodup
  acyclic : ∀ u, ¬TransGen (Needed ops) u u

/-- No operation of the cycle uses the result of another one in a later iteration and the result of a third one, which
depends on that other one, in the same iteration. -/
def Unmixed (ops : List (SwpOp Tn)) (cycle : Nat) : Prop :=
  ∀ u v w, v.startCycle = cycle → Needed ops u w → Needed ops w v → ¬Carries u v

theorem Needed.of_sublist (h : l'.Sublist l) (hn : Needed l' u v) : Needed l u v :=
  ⟨h.subset hn.1, h.subset hn.2.1, hn.2.2⟩

theorem Sorted.of_sublist (h : Sorted l) (hs : l'.Sublist l) : Sorted l' where
  sorted := h.sorted.sublist hs
  nodup := h.nodup.sublist hs
  acyclic u hu := h.acyclic u (TransGen.mono (fun _ _ => Needed.of_sublist hs) u u hu)

theorem Unmixed.of_sublist {k : Nat} (h : Unmixed l k) (hs : l'.Sublist l) : Unmixed l' k :=
  fun u v w hv huw hwv => h u v w hv (huw.of_sublist hs) (hwv.of_sublist hs)

theorem move_of_same (hab : ¬a.startCycle < b.startCycle) (hc : c.startCycle ≤ b.startCycle) :
    move a b (some c) =
      if ((canSwap a b).upToMaybe ∧ (canSwap a c).upToMaybe) ∨ (canSwap a b = .no ∧ canSwap b c = .no) then .stay
      else if canSwap a c = .no ∨ canSwap b c = .no ∨ ((canSwap a c).upToMaybe ∧ (canSwap b c).upToMaybe) then .second
      else .third := by
  simp [move, hab, hc, Option.filter]

theorem move_of_other {itr2 : Option (SwpOp Tn)} (hab : ¬a.startCycle < b.startCycle)
    (hc : ∀ c, itr2 = some c → b.startCycle < c.startCycle) :
    move a b itr2 = if (canSwap a b).upToMaybe then .stay else .second := by
  have hsame : itr2.filter (fun sop => decide (b.startCycle ≥ sop.startCycle)) = none := by
    cases itr2 with
    | none => rfl
    | some c => rw [Option.filter_some, if_neg (by simpa using hc c rfl)]
  have hno : canSwap a b = .no → (canSwap a b).upToMaybe = true := fun h => by rw [h]; rfl
  simp only [move, if_neg hab, hsame, Option.map_none, Option.getD_none]
  by_cases h : (canSwap a b).upToMaybe = true
  · rw [if_pos (.inl ⟨h, rfl⟩), if_pos h]
  · rw [if_neg (by rintro (⟨h', -⟩ | ⟨h', -⟩); exacts [h h', h (hno h')]), if_pos (.inl trivial), if_neg h]

/-! ## What is put in front -/

/-- A move is within a cycle: the second operation is of the cycle of the first, and so is the third that comes first. -/
theorem startCycle_le_of_move {itr2 : Option (SwpOp Tn)} (h : move a b itr2 ≠ .stay) : b.startCycle ≤ a.startCycle := by
  by_contra hlt
  exact h (if_pos (not_le.mp hlt))

theorem startCycle_le_of_third (h : move a b (some c) = .third) : c.startCycle ≤ b.startCycle := by
  by_contra hlt
  have hab := not_lt.mpr (startCycle_le_of_move (fun hs => Move.noConfusion (hs.symm.trans h)))
  rw [move_of_other hab fun c' hc' => Option.some.inj hc' ▸ not_le.mp hlt] at h
  split_ifs at h

theorem Takes.startCycle_le (h : Takes l s l') (hs : Sorted l) (hu : u ∈ l) : s.startCycle ≤ u.startCycle := by
  have hhead : ∀ a rest, l = a :: rest → a.startCycle ≤ u.startCycle := fun a rest hl => by
    subst hl
    rcases List.mem_cons.mp hu with rfl | hu
    · exact le_rfl
    · exact (List.pairwise_cons.mp hs.sorted).1 u hu
  cases h with
  | single | first => exact hhead _ _ rfl
  | second h => exact (startCycle_le_of_move (by rw [h]; exact Move.noConfusion)).trans (hhead _ _ rfl)
  | third h =>
    exact (startCycle_le_of_third h).trans
      ((startCycle_le_of_move (by rw [h]; exact Move.noConfusion)).trans (hhead _ _ rfl))

theorem mem_take_three {rest : List (SwpOp Tn)} :
    w ∈ (a :: b :: rest).take 3 ↔ w = a ∨ w = b ∨ rest.head? = some w := by
  cases rest <;> simp [eq_comm]

/-- What is put in front uses no result of the operations of its cycle that it is put in front of. -/
theorem Takes.not_defines (h : Takes l s l') (hs : Sorted l) (hm : Unmixed l s.startCycle) (hw : w ∈ l.take 3)
    (hne : w ≠ s) (hcycle : w.startCycle = s.startCycle) : ¬Defines w s := by
  -- two operations do not define for each other
  have hasymm : ∀ u ∈ l, ∀ v ∈ l, u.startCycle = v.startCycle → Defines u v → ¬Defines v u :=
    fun u hu v hv huv h1 h2 => hs.acyclic u (.tail (.single ⟨hu, hv, huv, h1⟩) ⟨hv, hu, huv.symm, h2⟩)
  have hle : ∀ u ∈ l, ∀ v ∈ l, u.startCycle = v.startCycle → (canSwap u v).upToMaybe = true → ¬Defines v u :=
    fun u hu v hv huv h => (canSwap_ne_yes (upToMaybe_ne_yes h)).elim (hasymm u hu v hv huv) id
  cases h with
  | single => exact absurd (List.mem_singleton.mp hw) hne
  | @first _ b rest h =>
    have hw' : w = b ∨ rest.head? = some w := (mem_take_three.mp hw).resolve_left hne
    have hb : ∀ u ∈ b :: rest, b.startCycle ≤ u.startCycle := fun u hu => by
      rcases List.mem_cons.mp hu with rfl | hu
      · exact le_rfl
      · exact (List.pairwise_cons.mp (List.pairwise_cons.mp hs.sorted).2).1 u hu
    have hwb : w ∈ b :: rest := hw'.elim (fun h => h ▸ List.mem_cons_self) fun h =>
      List.mem_cons_of_mem _ (List.mem_of_mem_head? h)
    have hbs : b.startCycle = s.startCycle :=
      le_antisymm ((hb w hwb).trans hcycle.le) ((List.pairwise_cons.mp hs.sorted).1 b List.mem_cons_self)
    have hsl : s ∈ s :: b :: rest := List.mem_cons_self
    have hbl : b ∈ s :: b :: rest := List.mem_cons_of_mem _ List.mem_cons_self
    by_cases hc : ∃ c, rest.head? = some c ∧ c.startCycle ≤ b.startCycle
    · obtain ⟨c, hrest, hcb⟩ := hc
      have hcl : c ∈ b :: rest := List.mem_cons_of_mem _ (List.mem_of_mem_head? hrest)
      have hcs : c.startCycle = b.startCycle := le_antisymm hcb (hb c hcl)
      have hcl := List.mem_cons_of_mem s hcl
      rw [hrest, move_of_same (by omega) hcb] at h
      split_ifs at h with hstay
      rcases hw' with rfl | hw'
      · rcases hstay with ⟨h01, -⟩ | ⟨h01, -⟩
        · exact hle s hsl w hbl hbs.symm h01
        · exact hasymm s hsl w hbl hbs.symm (canSwap_eq_no.mp h01)
      · obtain rfl : c = w := Option.some.inj (hrest.symm.trans hw')
        rcases hstay with ⟨-, h02⟩ | ⟨h01, h12⟩
        · exact hle s hsl c hcl (by omega) h02
        · exact fun hcs' => hs.acyclic s (.tail (.tail (.single ⟨hsl, hbl, hbs.symm, canSwap_eq_no.mp h01⟩)
            ⟨hbl, hcl, hcs.symm, canSwap_eq_no.mp h12⟩) ⟨hcl, hsl, hcycle, hcs'⟩)
    · push Not at hc
      rcases hw' with rfl | hw'
      · rw [move_of_other (by omega) hc] at h
        split_ifs at h with h01
        exact hle s hsl w hbl hbs.symm h01
      · have := hc w hw'
        omega
  | @second a _ rest h =>
    have hsa := startCycle_le_of_move (by rw [h]; exact Move.noConfusion)
    have has := (List.pairwise_cons.mp hs.sorted).1 s List.mem_cons_self
    have hsl : s ∈ a :: s :: rest := List.mem_cons_of_mem _ List.mem_cons_self
    have hal : a ∈ a :: s :: rest := List.mem_cons_self
    by_cases hc : ∃ c, rest.head? = some c ∧ c.startCycle ≤ s.startCycle
    · obtain ⟨c, hrest, hcs⟩ := hc
      have hcl : c ∈ a :: s :: rest :=
        List.mem_cons_of_mem _ (List.mem_cons_of_mem _ (List.mem_of_mem_head? hrest))
      have hac := (List.pairwise_cons.mp hs.sorted).1 c
        (List.mem_cons_of_mem _ (List.mem_of_mem_head? hrest))
      have hno : ∀ {r : SwpReorderOps}, r = .no → r.upToMaybe = true := fun h => h ▸ rfl
      rw [hrest, move_of_same (by omega) hcs] at h
      split_ifs at h with hstay hsecond
      rcases mem_take_three.mp hw with rfl | rfl | hw'
      · intro hd
        have h01 := canSwap_eq_no.mpr hd
        rcases hsecond with h02 | h12 | ⟨h02, -⟩
        · exact hstay (.inl ⟨hno h01, hno h02⟩)
        · exact hstay (.inr ⟨h01, h12⟩)
        · exact hstay (.inl ⟨hno h01, h02⟩)
      · exact absurd rfl hne
      · obtain rfl : c = w := Option.some.inj (hrest.symm.trans hw')
        intro hd
        rcases hsecond with h02 | h12 | ⟨-, h12⟩
        · have hac' : Needed (a :: s :: rest) a c := ⟨hal, hcl, by omega, canSwap_eq_no.mp h02⟩
          have hcs' : Needed (a :: s :: rest) c s := ⟨hcl, hsl, hcycle, hd⟩
          rcases (not_upToMaybe fun h01 => hstay (.inl ⟨h01, hno h02⟩)).2 with hsa' | hcarry
          · exact hs.acyclic a (.tail (.tail (.single hac') hcs') ⟨hsl, hal, by omega, hsa'⟩)
          · exact hm a s c rfl hac' hcs' hcarry
        · exact hasymm s hsl c hcl hcycle.symm (canSwap_eq_no.mp h12) hd
        · exact hle s hsl c hcl hcycle.symm h12 hd
    · push Not at hc
      rw [move_of_other (by omega) hc] at h
      split_ifs at h with h01
      rcases mem_take_three.mp hw with rfl | rfl | hw
      · exact (not_upToMaybe h01).1
      · exact absurd rfl hne
      · have := hc w hw
        omega
  | @third a b _ rest h =>
    have hsb := startCycle_le_of_third h
    have hba := startCycle_le_of_move (fun hs => Move.noConfusion (hs.symm.trans h))
    rw [move_of_same (by omega) hsb] at h
    split_ifs at h with hstay hsecond
    push Not at hsecond
    rcases mem_take_three.mp hw with rfl | rfl | hw
    · exact fun hd => hsecond.1 (canSwap_eq_no.mpr hd)
    · exact fun hd => hsecond.2.1 (canSwap_eq_no.mpr hd)
    · exact absurd (Option.some.inj hw).symm hne

/-! ## What the pass respects -/

theorem sort_perm (l : List (SwpOp Tn)) : (sortOpsWithinCycles l).Perm l := by
  induction hn : l.length generalizing l with
  | zero => rw [List.length_eq_zero_iff.mp hn]; rfl
  | succ n ih =>
    obtain ⟨s, l', ht, heq⟩ := exists_takes (List.ne_nil_of_length_eq_add_one hn)
    rw [heq]
    exact ((ih l' (by have := ht.length_eq; omega)).cons s).trans ht.perm.symm

theorem map_startCycle_sort (hs : Sorted l) :
    (sortOpsWithinCycles l).map SwpOp.startCycle = l.map SwpOp.startCycle := by
  have hsorted : (sortOpsWithinCycles l).Pairwise fun u v => u.startCycle ≤ v.startCycle := by
    induction hn : l.length generalizing l with
    | zero => rw [List.length_eq_zero_iff.mp hn]; exact .nil
    | succ n ih =>
      obtain ⟨s, l', ht, heq⟩ := exists_takes (List.ne_nil_of_length_eq_add_one hn)
      rw [heq]
      refine .cons (fun u hu => ?_) (ih (hs.of_sublist ht.sublist) (by have := ht.length_eq; omega))
      exact ht.startCycle_le hs (ht.sublist.subset ((sort_perm l').subset hu))
  refine List.Perm.eq_of_pairwise (fun a b _ _ (h : a ≤ b) (h' : b ≤ a) => le_antisymm h h') ?_ ?_
    ((sort_perm l).map _)
  · exact List.pairwise_map.mpr hsorted
  · exact List.pairwise_map.mpr hs.sorted

/-- `u` comes before `v`, or is one of the first three operations of its cycle. -/
def Early (l : List (SwpOp Tn)) (u v : SwpOp Tn) : Prop :=
  [u, v].Sublist l ∨ u ∈ (l.filter fun w => w.startCycle = u.startCycle).take 3

theorem mem_take_erase {n : Nat} (hne : u ≠ s) (hu : u ∈ l.take n) : u ∈ (l.erase s).take n := by
  by_cases hs : s ∈ l.take n
  · have hlen : ((l.take n).erase s).length ≤ n := (List.length_erase_le).trans (List.length_take_le n l)
    have hmem : u ∈ (l.take n).erase s := (List.mem_erase_of_ne hne).mpr hu
    have heq : l.erase s = (l.take n).erase s ++ l.drop n := by
      conv_lhs => rw [← List.take_append_drop n l]
      exact List.erase_append_left _ hs
    rw [heq, List.take_append]
    exact List.mem_append_left _ (by rwa [List.take_of_length_le hlen])
  · have heq : l.erase s = l.take n ++ (l.drop n).erase s := by
      conv_lhs => rw [← List.take_append_drop n l]
      exact List.erase_append_right _ hs
    rw [heq, List.take_append, List.take_take, Nat.min_self]
    exact List.mem_append_left _ hu

theorem Takes.sublist_rest (h : Takes l s l') (hs : Sorted l) (hl : [u, v].Sublist l) (hu : u ≠ s) (hv : v ≠ s) :
    [u, v].Sublist l' := by
  have herase := hl.erase s
  rwa [List.erase_of_not_mem (by simp [hu.symm, hv.symm]), ← h.eq_erase hs.nodup] at herase

theorem Takes.early_rest (h : Takes l s l') (hs : Sorted l) (he : Early l u v) (hu : u ≠ s) (hv : v ≠ s) :
    Early l' u v := by
  rcases he with he | he
  · exact .inl (h.sublist_rest hs he hu hv)
  · have hfilter : (l'.filter fun w => w.startCycle = u.startCycle) =
        (l.filter fun w => w.startCycle = u.startCycle).erase s := by
      rw [h.eq_erase hs.nodup, hs.nodup.erase_eq_filter, (hs.nodup.filter _).erase_eq_filter, List.filter_filter,
        List.filter_filter]
      exact List.filter_congr fun w _ => Bool.and_comm _ _
    rw [Early, hfilter]
    exact .inr (mem_take_erase hu he)

theorem mem_take_of_sublist {n : Nat} (hnodup : l.Nodup) (hl : [u, v].Sublist l) (hv : v ∈ l.take n) : u ∈ l.take n := by
  rw [← List.take_append_drop n l] at hl hnodup
  obtain ⟨l₁, l₂, heq, h₁, h₂⟩ := List.sublist_append_iff.mp hl
  have hdrop : v ∉ l₂ := fun h => (List.disjoint_of_nodup_append hnodup) hv (h₂.subset h)
  cases l₁ with
  | nil =>
    rw [List.nil_append] at heq
    exact absurd (heq ▸ List.mem_cons_of_mem u List.mem_cons_self) hdrop
  | cons x l₁ =>
    obtain ⟨rfl, -⟩ := List.cons_eq_cons.mp heq
    exact h₁.subset List.mem_cons_self

theorem filter_prefix {k : Nat} (hs : l.Pairwise fun u v => u.startCycle ≤ v.startCycle)
    (hk : ∀ w ∈ l, k ≤ w.startCycle) : (l.filter fun w => w.startCycle = k) <+: l := by
  induction hs with
  | nil => exact List.prefix_rfl
  | @cons x t hx ht ih =>
    by_cases h : x.startCycle = k
    · rw [List.filter_cons_of_pos (by simpa using h)]
      exact (List.prefix_cons_inj x).mpr (ih fun w hw => hk w (List.mem_cons_of_mem x hw))
    · have hnone : (x :: t).filter (fun w => decide (w.startCycle = k)) = [] := by
        rw [List.filter_eq_nil_iff]
        intro w hw
        have hxk := hk x List.mem_cons_self
        have hxw : x.startCycle ≤ w.startCycle := (List.mem_cons.mp hw).elim (fun h => h ▸ le_rfl) (hx w)
        simp only [decide_eq_true_eq]
        omega
      rw [hnone]
      exact List.nil_prefix

theorem Takes.mem_take_of_early (h : Takes l s l') (hs : Sorted l) (he : Early l u s)
    (hcycle : u.startCycle = s.startCycle) : u ∈ l.take 3 := by
  rcases he with he | he
  · exact mem_take_of_sublist hs.nodup he h.mem_take
  · have hearly := filter_prefix hs.sorted fun w hw => hcycle ▸ h.startCycle_le hs hw
    exact (hearly.take 3).subset he

/-- What an operation uses comes before it, if that is early. -/
theorem sublist_sort (hs : Sorted l) (hm : Unmixed l v.startCycle) (hn : Needed l u v) (he : Early l u v) :
    [u, v].Sublist (sortOpsWithinCycles l) := by
  obtain ⟨hu, hv, hcycle, hd⟩ := hn
  have hne : u ≠ v := fun h => by
    subst h
    exact hs.acyclic u (.single ⟨hu, hv, hcycle, hd⟩)
  induction hlen : l.length generalizing l with
  | zero => rw [List.length_eq_zero_iff.mp hlen] at hu; exact absurd hu List.not_mem_nil
  | succ n ih =>
    obtain ⟨s, l', ht, heq⟩ := exists_takes (List.ne_nil_of_length_eq_add_one hlen)
    rw [heq]
    have hrest : ∀ w ∈ l, w ≠ s → w ∈ l' := fun w hw hws =>
      (List.mem_cons.mp (ht.perm.subset hw)).resolve_left hws
    by_cases hus : u = s
    · subst hus
      exact (List.singleton_sublist.mpr ((sort_perm l').mem_iff.mpr (hrest v hv hne.symm))).cons_cons u
    · by_cases hvs : v = s
      · subst hvs
        exact absurd hd (ht.not_defines hs hm (ht.mem_take_of_early hs he hcycle) hus hcycle)
      · exact (ih (hs.of_sublist ht.sublist) (hm.of_sublist ht.sublist) (ht.early_rest hs he hus hvs)
          (hrest u hu hus) (hrest v hv hvs) (by have := ht.length_eq; omega)).cons s

theorem upToMaybe_branch (hresults : v.results = []) (hcarries : ¬Carries w v) : (canSwap w v).upToMaybe = true := by
  by_contra h
  obtain ⟨-, hd | hc⟩ := not_upToMaybe h
  · exact absurd hd (by simp [Defines, omegas, hresults])
  · exact hcarries hc

/-- The branch is not put in front of another operation of its cycle. -/
theorem Takes.ne_branch (h : Takes l s l') (hs : Sorted l) (hresults : s.results = [])
    (hlast : ∀ w ∈ l, w.startCycle = s.startCycle → w ≠ s → [w, s].Sublist l)
    (hcarries : ∀ w ∈ l, w.startCycle = s.startCycle → ¬Carries w s) (hw : w ∈ l)
    (hcycle : w.startCycle = s.startCycle) : w = s := by
  by_contra hne
  have hwl := hlast w hw hcycle hne
  cases h with
  | single => exact hne (List.mem_singleton.mp hw)
  | @first _ b rest h =>
    have := mem_take_of_sublist (n := 1) hs.nodup hwl (by simp)
    exact hne (by simpa using this)
  | @second a _ rest h =>
    have hsa := startCycle_le_of_move (fun hs => Move.noConfusion (hs.symm.trans h))
    have has := (List.pairwise_cons.mp hs.sorted).1 s List.mem_cons_self
    rw [move_of_other (by omega) fun c hc => ?_, if_pos] at h
    · exact Move.noConfusion h
    · exact upToMaybe_branch hresults (hcarries a List.mem_cons_self (by omega))
    · by_contra hcs
      have hrest : c ∈ rest := List.mem_of_mem_head? hc
      have hsc := (List.pairwise_cons.mp (List.pairwise_cons.mp hs.sorted).2).1 c hrest
      obtain ⟨ha, hnodup⟩ := List.nodup_cons.mp hs.nodup
      have hcne : c ≠ s := fun h => (List.nodup_cons.mp hnodup).1 (h ▸ hrest)
      have hcl := hlast c (List.mem_cons_of_mem _ (List.mem_cons_of_mem _ hrest)) (by omega) hcne
      have := mem_take_of_sublist (n := 2) hs.nodup hcl (by simp)
      rcases List.mem_cons.mp this with rfl | this
      · exact ha (List.mem_cons_of_mem _ hrest)
      · exact hcne (by simpa using this)
  | @third a b _ rest h =>
    have hsb := startCycle_le_of_third h
    have hba := startCycle_le_of_move (fun hs => Move.noConfusion (hs.symm.trans h))
    have hmem : s ∈ a :: b :: s :: rest := by simp
    have has := (List.pairwise_cons.mp hs.sorted).1 s (by simp)
    have hup := upToMaybe_branch hresults (hcarries a (by simp) (by omega))
    have hup' := upToMaybe_branch hresults (hcarries b (by simp) (by omega))
    rw [move_of_same (by omega) hsb] at h
    split_ifs at h with hstay hsecond
    exact hsecond (.inr (.inr ⟨hup, hup'⟩))

/-- The branch stays the last one of its cycle, when no operation of the cycle defines an operand for a later
iteration of it. -/
theorem branch_sort (hs : Sorted l) (hbr : v ∈ l) (hresults : v.results = [])
    (hlast : ∀ w ∈ l, w.startCycle = v.startCycle → w ≠ v → [w, v].Sublist l)
    (hcarries : ∀ w ∈ l, w.startCycle = v.startCycle → ¬Carries w v) :
    ∀ w ∈ l, w.startCycle = v.startCycle → w ≠ v → [w, v].Sublist (sortOpsWithinCycles l) := by
  induction hlen : l.length generalizing l with
  | zero => rw [List.length_eq_zero_iff.mp hlen] at hbr; exact absurd hbr List.not_mem_nil
  | succ n ih =>
    obtain ⟨s, l', ht, heq⟩ := exists_takes (List.ne_nil_of_length_eq_add_one hlen)
    have hmem : ∀ w ∈ l', w ∈ l := fun w hw => ht.sublist.subset hw
    have hrest : ∀ w ∈ l, w ≠ s → w ∈ l' := fun w hw hws =>
      (List.mem_cons.mp (ht.perm.subset hw)).resolve_left hws
    intro w hw hcycle hne
    rw [heq]
    by_cases hvs : v = s
    · subst hvs
      exact absurd (ht.ne_branch hs hresults hlast hcarries hw hcycle) hne
    · have hbr' := hrest v hbr hvs
      by_cases hws : w = s
      · subst hws
        exact (List.singleton_sublist.mpr ((sort_perm l').mem_iff.mpr hbr')).cons_cons w
      · refine (ih (hs.of_sublist ht.sublist) hbr' (fun x hx hxc hxv => ?_)
          (fun x hx hxc => hcarries x (hmem x hx) hxc) (by have := ht.length_eq; omega) w (hrest w hw hws)
          hcycle hne).cons s
        have hxs : x ≠ s := fun h => by
          have hnodup := ht.perm.nodup_iff.mp hs.nodup
          exact (List.nodup_cons.mp hnodup).1 (h ▸ hx)
        exact ht.sublist_rest hs (hlast x (hmem x hx) hxc hxv) hxs hvs

end

/-- The pass permutes the operations and keeps the cycles; what an operation uses comes before it, if it came before it
or is one of the first three operations of the cycle; and the branch stays the last one of its cycle. -/
theorem sort_respects (ops : List (SwpOp Tn)) (hs : Sorted ops) :
    (sortOpsWithinCycles ops).Perm ops ∧
      (sortOpsWithinCycles ops).map SwpOp.startCycle = ops.map SwpOp.startCycle ∧
      (∀ u v, Unmixed ops v.startCycle → Needed ops u v → Early ops u v → [u, v].Sublist (sortOpsWithinCycles ops)) ∧
      ∀ br ∈ ops, br.results = [] →
        (∀ w ∈ ops, w.startCycle = br.startCycle → w ≠ br → [w, br].Sublist ops) →
        (∀ w ∈ ops, w.startCycle = br.startCycle → ¬Carries w br) →
        ∀ w ∈ ops, w.startCycle = br.startCycle → w ≠ br → [w, br].Sublist (sortOpsWithinCycles ops) :=
  ⟨sort_perm ops, map_startCycle_sort hs, fun _ _ hm hn he => sublist_sort hs hm hn he,
    fun _ hbr hresults hlast hcarries => branch_sort hs hbr hresults hlast hcarries⟩

theorem acyclic_of_rank {ops : List (SwpOp Tn)} (rank : SwpOp Tn → Nat)
    (h : ∀ u ∈ ops, ∀ v ∈ ops, u.startCycle = v.startCycle → Defines u v → rank u < rank v) (u : SwpOp Tn) :
    ¬TransGen (Needed ops) u u := by
  have hlt : ∀ v, TransGen (Needed ops) u v → rank u < rank v := fun v hv => by
    induction hv with
    | single hn => exact h _ hn.1 _ hn.2.1 hn.2.2.1 hn.2.2.2
    | tail _ hn ih => exact ih.trans (h _ hn.1 _ hn.2.1 hn.2.2.1 hn.2.2.2)
  exact fun hu => lt_irrefl _ (hlt u hu)

/-- An operation with the given result and operands. -/
def plainOp (op : Nat) (results : List Nat) (opnds : List (Nat × Int)) : SwpOp Tn where
  op := op
  results := results.map fun n => ⟨n, true, false, false, 1⟩
  opnds := opnds.map fun o => ⟨⟨o.1, true, false, false, 1⟩, o.2, o.2⟩

/-- The first operation uses the result of the second, and the branch is the last one. -/
def twoOps : List (SwpOp Tn) := [plainOp 0 [10] [(11, 0)], plainOp 1 [11] [], plainOp 2 [] [(10, 0)]]

theorem twoOps_sorted : Sorted twoOps where
  sorted := by decide
  nodup := by decide
  acyclic := acyclic_of_rank (fun sop => if sop.op = 1 then 0 else sop.op + 1) (by decide)

theorem twoOps_unmixed (cycle : Nat) : Unmixed twoOps cycle := fun u v w _ huw hwv =>
  (by decide : ∀ u ∈ twoOps, ∀ v ∈ twoOps, ∀ w ∈ twoOps, Defines u w → Defines w v → ¬Carries u v)
    u huw.1 v hwv.2.1 w huw.2.1 huw.2.2.2 hwv.2.2.2

theorem sort_respects_twoOps :
    [plainOp 1 [11] [], plainOp 0 [10] [(11, 0)]].Sublist (sortOpsWithinCycles twoOps) :=
  (sort_respects twoOps twoOps_sorted).2.2.1 _ _ (twoOps_unmixed _) (by unfold Needed; decide) (.inr (by decide))

/-- The last of four operations defines an operand of the first. -/
def fourOps : List (SwpOp Tn) := [plainOp 0 [10] [(13, 0)], plainOp 1 [11] [], plainOp 2 [12] [], plainOp 3 [13] []]

/-- The third operation uses the result of the first and defines an operand of the second, which also uses the result
of the first from the last iteration. -/
def mixedOps : List (SwpOp Tn) := [plainOp 0 [10] [], plainOp 1 [11] [(10, 1), (12, 0)], plainOp 2 [12] [(10, 0)]]

/-- The branch uses a result of the last iteration. -/
def branchOps : List (SwpOp Tn) := [plainOp 0 [10] [], plainOp 1 [] [(10, 1)]]

theorem sort_disrespects :
    (Sorted fourOps ∧ Needed fourOps (plainOp 3 [13] []) (plainOp 0 [10] [(13, 0)]) ∧
      sortOpsWithinCycles fourOps = fourOps) ∧
    (Sorted mixedOps ∧ Needed mixedOps (plainOp 2 [12] [(10, 0)]) (plainOp 1 [11] [(10, 1), (12, 0)]) ∧
      (sortOpsWithinCycles mixedOps).map SwpOp.op = [1, 0, 2]) ∧
    Sorted branchOps ∧ (sortOpsWithinCycles branchOps).map SwpOp.op = [1, 0] := by
  refine ⟨⟨⟨by decide, by decide, acyclic_of_rank (fun sop => 4 - sop.op) (by decide)⟩, by unfold Needed; decide,
      by decide⟩, ⟨⟨by decide, by decide, acyclic_of_rank (fun sop => if sop.op = 1 then 5 else sop.op) (by decide)⟩,
      by unfold Needed; decide, by decide⟩, ⟨by decide, by decide, acyclic_of_rank SwpOp.op (by decide)⟩, by decide⟩

end Path64.Swp

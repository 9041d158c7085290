import Path64.Lib.Links
import Mathlib.Data.List.Perm.Subperm
import Mathlib.Logic.Function.Basic

/-!
# Lists threaded through an array

* `Threads next s l` : following `next` from `s` visits the slots of `l` and ends at slot 0, which is none;
* `follow` : a loop that goes on to the next slot until one is found; `unlink` : a slot is taken out of its list;
* `Buckets` : the live slots are threaded on one list for each key, with `Buckets.push` and `Buckets.unlink`.
-/

namespace Path64.Lists

/-- Slot 0 ends a list. -/
def link (n : Nat) : Int := if n = 0 then -1 else n

/-- Following `next` from `s` visits the slots of the list and ends at slot 0. -/
def Threads (next : Nat → Nat) (s : Nat) (l : List Nat) : Prop := Links (fun i => link (next i)) (link s) l

/-- `while (!stop(e)) e = next(e);`, `fuel` times at most. -/
def follow (stop : Nat → Bool) (next : Nat → Nat) : (fuel e : Nat) → Option Nat
  | 0, _ => none
  | fuel + 1, e => if stop e then some e else follow stop next fuel (next e)

/-- The head and the links of a list without the slot `e`: the head moves on, or the slot before `e` is linked past it. -/
def unlink (fuel head : Nat) (next : Nat → Nat) (e : Nat) : Option (Nat × (Nat → Nat)) :=
  if head = e then some (next e, next)
  else (follow (fun e1 => next e1 == e) next fuel head).map fun e1 => (head, Function.update next e1 (next e))

/-- The live slots are threaded on the lists of their keys. -/
def Buckets (head next key : Nat → Nat) (owner live : Nat → Prop) : Prop :=
  ∀ v, owner v → ∃ l, Threads next (head v) l ∧ ∀ e, e ∈ l ↔ live e ∧ key e = v

variable {next next' : Nat → Nat} {s e i : Nat} {l a b : List Nat}

/-! ## One list -/

theorem link_eq_neg_one_iff : link s = -1 ↔ s = 0 := by
  unfold link
  by_cases h : s = 0
  · rw [if_pos h]
    omega
  · rw [if_neg h]
    omega

theorem link_eq_iff : link s = i ↔ s = i ∧ i ≠ 0 := by
  unfold link
  by_cases h : s = 0
  · rw [if_pos h]
    omega
  · rw [if_neg h]
    omega

@[simp] theorem threads_nil : Threads next s [] ↔ s = 0 := link_eq_neg_one_iff

@[simp] theorem threads_cons : Threads next s (i :: l) ↔ s = i ∧ i ≠ 0 ∧ Threads next (next i) l := by
  rw [← and_assoc, ← link_eq_iff]
  exact Iff.rfl

namespace Threads

theorem nodup (h : Threads next s l) : l.Nodup := Links.nodup h

theorem unique {l' : List Nat} (h : Threads next s l) (h' : Threads next s l') : l = l' := Links.unique h h'

theorem congr (h : Threads next s l) (heq : ∀ i ∈ l, next' i = next i) : Threads next' s l :=
  Links.congr h fun i hi => congrArg link (heq i hi)

theorem pos (h : Threads next s l) (hi : i ∈ l) : i ≠ 0 := by
  induction l generalizing s with
  | nil => cases hi
  | cons j l ih =>
    obtain ⟨-, hj, hl⟩ := threads_cons.mp h
    rcases List.mem_cons.mp hi with rfl | hi
    · exact hj
    · exact ih hl hi

theorem eq_nil_iff (h : Threads next s l) : l = [] ↔ s = 0 := by
  rw [← link_eq_neg_one_iff]
  exact (Links.start_eq_neg_one_iff h).symm

theorem start_mem (h : Threads next s l) : s = 0 ∨ s ∈ l := by
  cases l with
  | nil => exact .inl (threads_nil.mp h)
  | cons j l => exact .inr ((threads_cons.mp h).1 ▸ List.mem_cons_self)

/-- A new first slot. -/
theorem push (h : Threads next s l) (hi : i ≠ 0) (hnew : i ∉ l) : Threads (Function.update next i s) i (i :: l) := by
  refine threads_cons.mpr ⟨rfl, hi, ?_⟩
  rw [Function.update_self]
  exact h.congr fun j hj => Function.update_of_ne (ne_of_mem_of_not_mem hj hnew) _ _

theorem length_lt {n : Nat} (h : Threads next s l) (hn : 0 < n) (hl : ∀ i ∈ l, i < n) : l.length < n := by
  have hsub : (0 :: l).Subperm (List.range n) := by
    refine List.subperm_of_subset (List.nodup_cons.mpr ⟨fun h0 => h.pos h0 rfl, h.nodup⟩) ?_
    intro i hi
    rcases List.mem_cons.mp hi with rfl | hi
    · exact List.mem_range.mpr hn
    · exact List.mem_range.mpr (hl i hi)
  have := hsub.length_le
  rw [List.length_cons, List.length_range] at this
  omega

end Threads

/-! ## Loops -/

theorem follow_of_split {stop : Nat → Bool} {fuel : Nat} (h : Threads next s (a ++ i :: b))
    (ha : ∀ j ∈ a, stop j = false) (hi : stop i = true) (hfuel : a.length < fuel) :
    follow stop next fuel s = some i := by
  induction a generalizing s fuel with
  | nil =>
    cases fuel with
    | zero => cases hfuel
    | succ fuel =>
      obtain ⟨rfl, -⟩ := threads_cons.mp h
      rw [follow, if_pos hi]
  | cons j a ih =>
    cases fuel with
    | zero => cases hfuel
    | succ fuel =>
      obtain ⟨rfl, -, hl⟩ := threads_cons.mp h
      rw [follow, ha s List.mem_cons_self, if_neg Bool.false_ne_true]
      exact ih hl (fun k hk => ha k (List.mem_cons_of_mem _ hk)) (Nat.lt_of_succ_lt_succ hfuel)

theorem follow_to_end {stop : Nat → Bool} {fuel : Nat} (h : Threads next s l) (hl : ∀ j ∈ l, stop j = false)
    (h0 : stop 0 = true) (hfuel : l.length < fuel) : follow stop next fuel s = some 0 := by
  induction l generalizing s fuel with
  | nil =>
    cases fuel with
    | zero => cases hfuel
    | succ fuel =>
      obtain rfl := threads_nil.mp h
      rw [follow, if_pos h0]
  | cons j a ih =>
    cases fuel with
    | zero => cases hfuel
    | succ fuel =>
      obtain ⟨rfl, -, hl'⟩ := threads_cons.mp h
      rw [follow, hl s List.mem_cons_self, if_neg Bool.false_ne_true]
      exact ih hl' (fun k hk => hl k (List.mem_cons_of_mem _ hk)) (Nat.lt_of_succ_lt_succ hfuel)

namespace Threads

theorem suffix (h : Threads next s (a ++ i :: b)) : Threads next i (i :: b) := by
  rw [Threads, show link i = i from link_eq_iff.mpr ⟨rfl, h.pos (List.mem_append_right _ List.mem_cons_self)⟩]
  exact Links.suffix h

theorem next_ne {p j : Nat} (h : Threads next s (a ++ p :: e :: b)) (hj : j ∈ a) : next j ≠ e := by
  intro hje
  obtain ⟨a1, a2, rfl⟩ := List.append_of_mem hj
  have he : Threads next e (e :: b) := suffix (a := a1 ++ j :: a2 ++ [p]) (by simpa using h)
  rw [List.append_assoc, List.cons_append] at h
  obtain ⟨-, -, hj'⟩ := threads_cons.mp (suffix h)
  rw [hje] at hj'
  have hlen := congrArg List.length (hj'.unique he)
  rw [List.length_append, List.length_cons, List.length_cons] at hlen
  omega

theorem splice {p : Nat} {l' : List Nat} (h : Threads next s (a ++ p :: l)) (ha : ∀ i ∈ a, next' i = next i)
    (hp : Threads next' (next' p) l') : Threads next' s (a ++ p :: l') :=
  Links.splice h (fun i hi => congrArg link (ha i hi)) hp

end Threads

/-- The slots before `e` and after it are linked up. -/
theorem unlink_spec {fuel head : Nat} (h : Threads next head (a ++ e :: b)) (hfuel : a.length < fuel) :
    ∃ head' next', unlink fuel head next e = some (head', next') ∧ Threads next' head' (a ++ b) ∧
      ∀ j, j ∉ a → next' j = next j := by
  unfold unlink
  rcases List.eq_nil_or_concat a with rfl | ⟨a, p, rfl⟩
  · obtain ⟨rfl, -, hb⟩ := threads_cons.mp h
    rw [if_pos rfl]
    exact ⟨next head, next, rfl, hb, fun _ _ => rfl⟩
  · rw [List.concat_eq_append] at hfuel ⊢
    rw [List.concat_eq_append, List.append_assoc, List.singleton_append] at h
    rw [List.append_assoc, List.singleton_append]
    have hnodup := h.nodup
    obtain ⟨hnext, he, hb⟩ := threads_cons.mp (threads_cons.mp h.suffix).2.2
    have hhead : head ≠ e := by
      rintro rfl
      have htail : Threads next head (head :: b) := Threads.suffix (a := a ++ [p]) (by simpa using h)
      have hlen := congrArg List.length (h.unique htail)
      simp only [List.length_append, List.length_cons] at hlen
      omega
    have hfollow : follow (fun e1 => next e1 == e) next fuel head = some p := by
      rw [List.length_append, List.length_singleton] at hfuel
      exact follow_of_split h (fun j hj => beq_false_of_ne (h.next_ne hj)) (beq_iff_eq.mpr hnext) (by omega)
    rw [if_neg hhead, hfollow]
    have hpb : p ∉ a ∧ p ∉ b := by
      have := (List.nodup_append.mp hnodup).2
      refine ⟨fun hp => this.2 p hp p List.mem_cons_self rfl, fun hp => ?_⟩
      exact (List.nodup_cons.mp this.1).1 (List.mem_cons_of_mem _ hp)
    refine ⟨head, Function.update next p (next e), rfl, h.splice ?_ ?_, ?_⟩
    · exact fun j hj => Function.update_of_ne (ne_of_mem_of_not_mem hj hpb.1) _ _
    · rw [Function.update_self]
      exact hb.congr fun j hj => Function.update_of_ne (ne_of_mem_of_not_mem hj hpb.2) _ _
    · intro j hj
      refine Function.update_of_ne ?_ _ _
      rintro rfl
      exact hj (List.mem_append_right _ List.mem_cons_self)

/-! ## One list for each key -/

namespace Buckets

variable {head key : Nat → Nat} {owner owner' live live' : Nat → Prop} {v : Nat}

theorem congr {head' key' : Nat → Nat} (h : Buckets head next key owner live) (hlive : ∀ e, live' e ↔ live e)
    (howner : ∀ v, owner' v → owner v) (hhead : ∀ v, owner' v → head' v = head v) (hkey : ∀ e, live e → key' e = key e)
    (hnext : ∀ e, live e → next' e = next e) : Buckets head' next' key' owner' live' := by
  intro v hv
  obtain ⟨l, hl, hmem⟩ := h v (howner v hv)
  refine ⟨l, ?_, fun e => ?_⟩
  · rw [hhead v hv]
    exact hl.congr fun e he => hnext e ((hmem e).mp he).1
  · rw [hmem e, hlive e]
    exact and_congr_right fun he => by rw [hkey e he]

theorem key_ne (h : Buckets head next key owner live) (hv : owner v) (h0 : head v = 0) (he : live e) : key e ≠ v := by
  obtain ⟨l, hl, hmem⟩ := h v hv
  intro hkey
  rw [hl.eq_nil_iff.mpr h0] at hmem
  exact List.not_mem_nil ((hmem e).mpr ⟨he, hkey⟩)

theorem head_live (h : Buckets head next key owner live) (hv : owner v) (h0 : head v ≠ 0) :
    live (head v) ∧ key (head v) = v := by
  obtain ⟨l, hl, hmem⟩ := h v hv
  exact (hmem _).mp (hl.start_mem.resolve_left h0)

theorem addOwner (h : Buckets head next key owner live) (hv : ∀ e, live e → key e ≠ v) :
    Buckets (Function.update head v 0) next key (fun w => owner w ∨ w = v) live := by
  intro w hw
  by_cases hwv : w = v
  · subst hwv
    refine ⟨[], threads_nil.mpr (Function.update_self ..), fun e => ?_⟩
    exact iff_of_false List.not_mem_nil fun he => hv e he.1 he.2
  · rw [Function.update_of_ne hwv]
    exact h w (hw.resolve_right hwv)

/-- A slot that was free becomes the first of the list of its key. -/
theorem push (h : Buckets head next key owner live) (he : e ≠ 0) (hfree : ¬live e) (v : Nat) :
    Buckets (Function.update head v e) (Function.update next e (head v)) (Function.update key e v) owner
      fun x => live x ∨ x = e := by
  intro w hw
  obtain ⟨l, hl, hmem⟩ := h w hw
  have hnew : e ∉ l := fun h' => hfree ((hmem e).mp h').1
  have hother (x : Nat) (hx : x ≠ e) : Function.update key e v x = key x := Function.update_of_ne hx _ _
  by_cases hvw : w = v
  · subst hvw
    refine ⟨e :: l, ?_, fun x => ?_⟩
    · rw [Function.update_self]
      exact hl.push he hnew
    · rw [List.mem_cons, hmem x]
      show x = e ∨ live x ∧ key x = w ↔ (live x ∨ x = e) ∧ Function.update key e w x = w
      by_cases hx : x = e
      · subst hx
        rw [Function.update_self]
        exact iff_of_true (.inl rfl) ⟨.inr rfl, rfl⟩
      · rw [hother x hx, or_iff_right hx, or_iff_left hx]
  · refine ⟨l, ?_, fun x => ?_⟩
    · rw [Function.update_of_ne hvw]
      exact hl.congr fun j hj => Function.update_of_ne (ne_of_mem_of_not_mem hj hnew) _ _
    · rw [hmem x]
      show live x ∧ key x = w ↔ (live x ∨ x = e) ∧ Function.update key e v x = w
      by_cases hx : x = e
      · subst hx
        rw [Function.update_self]
        exact iff_of_false (fun h' => hfree h'.1) fun h' => hvw h'.2.symm
      · rw [hother x hx, or_iff_left hx]

/-- A live slot is taken out of the list of its key. -/
theorem unlink {fuel : Nat} (h : Buckets head next key owner live) (he : live e) (ho : owner (key e))
    (hfuel : ∀ x, live x → x < fuel) : ∃ head' next', Lists.unlink fuel (head (key e)) next e = some (head', next') ∧
      Buckets (Function.update head (key e) head') next' key owner fun x => live x ∧ x ≠ e := by
  obtain ⟨l, hl, hmem⟩ := h (key e) ho
  obtain ⟨a, b, rfl⟩ := List.append_of_mem ((hmem e).mpr ⟨he, rfl⟩)
  have hlen := hl.length_lt (Nat.lt_of_le_of_lt (Nat.zero_le e) (hfuel e he)) fun x hx => hfuel x ((hmem x).mp hx).1
  rw [List.length_append] at hlen
  obtain ⟨head', next', hun, hl', hsame⟩ := unlink_spec hl (show a.length < fuel by omega)
  refine ⟨head', next', hun, fun w hw => ?_⟩
  have hnodup := hl.nodup
  by_cases hwv : w = key e
  · subst hwv
    refine ⟨a ++ b, ?_, fun x => ?_⟩
    · rw [Function.update_self]
      exact hl'
    · have hx := hmem x
      rw [List.mem_append, List.mem_cons] at hx
      rw [List.mem_append]
      by_cases hxe : x = e
      · subst hxe
        refine iff_of_false ?_ fun h' => h'.1.2 rfl
        have hn := List.nodup_append.mp hnodup
        rintro (h' | h')
        · exact hn.2.2 x h' x List.mem_cons_self rfl
        · exact (List.nodup_cons.mp hn.2.1).1 h'
      · rw [or_iff_right hxe] at hx
        exact hx.trans (and_congr_left fun _ => (and_iff_left hxe).symm)
  · obtain ⟨l, hlw, hmemw⟩ := h w hw
    refine ⟨l, ?_, fun x => ?_⟩
    · rw [Function.update_of_ne hwv]
      refine hlw.congr fun x hx => hsame x fun hxa => hwv ?_
      rw [← ((hmemw x).mp hx).2, ← ((hmem x).mp (List.mem_append_left _ hxa)).2]
    · rw [hmemw x]
      refine ⟨fun h' => ⟨⟨h'.1, ?_⟩, h'.2⟩, fun h' => ⟨h'.1.1, h'.2⟩⟩
      rintro rfl
      exact hwv h'.2.symm

end Buckets

end Path64.Lists

import Mathlib

/-!
# Checked computations

Computations in `Except ε` that either return or stop at a fault, and rules for their loops.

* `bind_eq_ok`, `mapM_ok`, `mapM_eq_ok`, `require_eq_ok`, `int32_eq_ok`, `int64_eq_ok` : a computation that returned,
  taken apart; `exists_ok_of_any` : one that is evaluated;
* `foldlM_range_ok`, `foldl_range` : the invariant rules for counting loops; `foldlM_range_eq_some` : one that succeeds;
* `checkedSum_ok` : a loop that adds checked products;
* `forRows`, `forRowsUntil` : loops that rewrite an array row by row, and what they leave;
* `Checks allowed c Q` : `c` returns a value that satisfies `Q`, or stops at an allowed fault; one rule for each operation;
* `AgreesUnless e c d` : two computations agree unless the first stops at the fault `e`, with the same rules.
-/

namespace Path64.Lib

variable {ε α β σ : Type}

theorem bind_eq_ok {x : Except ε α} {f : α → Except ε β} {b : β} :
    x >>= f = .ok b ↔ ∃ a, x = .ok a ∧ f a = .ok b := by
  cases x with
  | error e => exact iff_of_false (fun h => nomatch h) (fun ⟨_, h, _⟩ => nomatch h)
  | ok a => exact ⟨fun h => ⟨a, rfl, h⟩, fun ⟨_, h, hf⟩ => by cases h; exact hf⟩

theorem ok_bind (a : α) (f : α → Except ε β) : (Except.ok a >>= f) = f a := rfl

theorem exists_ok_of_any {x : Except ε α} {p : α → Prop} [DecidablePred p]
    (h : x.toOption.any (fun a => decide (p a)) = true) : ∃ a, x = .ok a ∧ p a := by
  cases x with
  | error e => exact nomatch h
  | ok a => exact ⟨a, rfl, of_decide_eq_true h⟩

/-- A computation for every element of a list. -/
theorem mapM_ok {f : α → Except ε β} {l : List α} {l' : List β} (h : l.mapM f = .ok l') :
    List.Forall₂ (fun a b => f a = .ok b) l l' := by
  induction l generalizing l' with
  | nil =>
    cases h
    exact .nil
  | cons a l ih =>
    rw [List.mapM_cons] at h
    obtain ⟨b, hb, h⟩ := bind_eq_ok.mp h
    obtain ⟨bs, hbs, h⟩ := bind_eq_ok.mp h
    cases h
    exact .cons hb (ih hbs)

/-- A computation that succeeds just where `p` holds, for every element of a list. -/
theorem mapM_eq_ok {f : α → Except ε β} {p : α → Prop} {g : α → β} (hf : ∀ a b, f a = .ok b ↔ p a ∧ b = g a)
    {l : List α} {l' : List β} : l.mapM f = .ok l' ↔ (∀ a ∈ l, p a) ∧ l' = l.map g := by
  induction l generalizing l' with
  | nil => exact ⟨fun h => ⟨fun _ h => (nomatch h), (Except.ok.inj h).symm⟩, fun h => by rw [h.2]; rfl⟩
  | cons a l ih =>
    rw [List.mapM_cons, bind_eq_ok, List.forall_mem_cons, List.map_cons]
    constructor
    · rintro ⟨b, hb, h⟩
      obtain ⟨bs, hbs, h⟩ := bind_eq_ok.mp h
      cases h
      obtain ⟨hp, rfl⟩ := (hf a b).mp hb
      obtain ⟨hall, rfl⟩ := ih.mp hbs
      exact ⟨⟨hp, hall⟩, rfl⟩
    · rintro ⟨⟨hp, hall⟩, rfl⟩
      exact ⟨g a, (hf a _).mpr ⟨hp, rfl⟩, bind_eq_ok.mpr ⟨l.map g, ih.mpr ⟨hall, rfl⟩, rfl⟩⟩

/-- Stops with `e` unless `p`. -/
def require (e : ε) (p : Prop) [Decidable p] : Except ε Unit := if p then .ok () else .error e

theorem require_eq_ok {e : ε} {p : Prop} [Decidable p] {u : Unit} : require e p = .ok u ↔ p := by
  unfold require
  split_ifs with hp
  · exact iff_of_true rfl hp
  · exact iff_of_false (fun h => nomatch h) hp

/-- The value of a 32-bit signed operation whose exact result is `x`; `e` when it does not fit. -/
def int32 (e : ε) (x : Int) : Except ε Int := if -2 ^ 31 ≤ x ∧ x < 2 ^ 31 then .ok x else .error e

theorem int32_eq_ok {e : ε} {x y : Int} (h : int32 e x = .ok y) : y = x ∧ -2 ^ 31 ≤ x ∧ x < 2 ^ 31 := by
  unfold int32 at h
  split_ifs at h with hx
  cases h
  exact ⟨rfl, hx⟩

/-- The same in 64 bits. -/
def int64 (e : ε) (x : Int) : Except ε Int := if -2 ^ 63 ≤ x ∧ x < 2 ^ 63 then .ok x else .error e

theorem int64_eq_ok {e : ε} {x y : Int} (h : int64 e x = .ok y) : y = x := by
  unfold int64 at h
  split_ifs at h
  cases h
  rfl

/-- A counting loop that returned satisfies every invariant its steps keep. -/
theorem foldlM_range_ok {f : σ → Nat → Except ε σ} {n : Nat} {init r : σ} (inv : Nat → σ → Prop)
    (h0 : inv 0 init) (hstep : ∀ k s s', k < n → inv k s → f s k = .ok s' → inv (k + 1) s')
    (h : (List.range n).foldlM f init = .ok r) : inv n r := by
  induction n generalizing r with
  | zero =>
    cases h
    exact h0
  | succ n ih =>
    rw [List.range_succ, List.foldlM_append, bind_eq_ok] at h
    obtain ⟨s, hs, hlast⟩ := h
    rw [List.foldlM_cons, bind_eq_ok] at hlast
    obtain ⟨s', hs', hr⟩ := hlast
    cases hr
    exact hstep n s r (Nat.lt_succ_self n) (ih (fun k s s' hk => hstep k s s' (Nat.lt_succ_of_lt hk)) hs) hs'

theorem foldl_range {f : σ → Nat → σ} {n : Nat} {init : σ} (inv : Nat → σ → Prop) (h0 : inv 0 init)
    (hstep : ∀ k s, k < n → inv k s → inv (k + 1) (f s k)) : inv n ((List.range n).foldl f init) := by
  induction n with
  | zero => exact h0
  | succ n ih =>
    rw [List.range_succ, List.foldl_append]
    exact hstep n _ (Nat.lt_succ_self n) (ih fun k s hk => hstep k s (Nat.lt_succ_of_lt hk))

/-- `acc + f 0 * g 0 + … + f (n-1) * g (n-1)`, every product and partial sum an operation of `arith`. -/
def sumBy (arith : Int → Except ε Int) (f g : Nat → Int) (n : Nat) (acc : Int) : Except ε Int :=
  (List.range n).foldlM (fun acc k => do
    let p ← arith (f k * g k)
    arith (acc + p)) acc

theorem checkedSum_ok {e : ε} {f g : Nat → Int} {n : Nat} {acc r : Int} (h : sumBy (int32 e) f g n acc = .ok r) :
    r = acc + ∑ k ∈ Finset.range n, f k * g k := by
  refine foldlM_range_ok (fun k s => s = acc + ∑ k ∈ Finset.range k, f k * g k) (by simp) ?_ h
  intro k s s' _ hs hstep
  rw [bind_eq_ok] at hstep
  obtain ⟨p, hp, hsum⟩ := hstep
  rw [(int32_eq_ok hsum).1, (int32_eq_ok hp).1, hs, Finset.sum_range_succ]
  ring

/-! ## Which faults can occur -/

/-- The computation returns a value that satisfies `Q`, or stops at an allowed fault. -/
structure Checks (allowed : ε → Prop) (c : Except ε α) (Q : α → Prop) : Prop where
  ok : ∀ a, c = .ok a → Q a
  error : ∀ e, c = .error e → allowed e

section Checks

variable {allowed : ε → Prop} {P Q : α → Prop}

theorem checks_pure {a : α} (h : Q a) : Checks allowed (pure a) Q :=
  ⟨fun b hb => by cases hb; exact h, fun e he => nomatch he⟩

theorem checks_throw {e : ε} (he : allowed e) : Checks allowed (throw e) Q :=
  ⟨fun _ h => absurd h nofun, fun e' h => by cases h; exact he⟩

theorem Checks.bind {c : Except ε α} {f : α → Except ε β} {R : β → Prop} (h : Checks allowed c P)
    (hf : ∀ a, P a → Checks allowed (f a) R) : Checks allowed (c >>= f) R := by
  cases hc : c with
  | error e =>
    refine ⟨fun b hb => ?_, fun e' he => ?_⟩
    · cases hb
    · cases he
      exact h.error e hc
  | ok a => exact hf a (h.ok a hc)

theorem Checks.mono {c : Except ε α} (h : Checks allowed c P) (hPQ : ∀ a, c = .ok a → P a → Q a) : Checks allowed c Q :=
  ⟨fun a ha => hPQ a ha (h.ok a ha), h.error⟩

theorem checks_require {e : ε} {p : Prop} [Decidable p] (hp : p) : Checks allowed (require e p) fun _ => True := by
  rw [require, if_pos hp]
  exact checks_pure trivial

theorem checks_require_of_allowed {e : ε} {p : Prop} [Decidable p] (he : allowed e) : Checks allowed (require e p) fun _ => p := by
  refine ⟨fun u hu => require_eq_ok.mp hu, fun e' h => ?_⟩
  unfold require at h
  split_ifs at h
  cases h
  exact he

theorem checks_foldlM {f : σ → Nat → Except ε σ} {n : Nat} {init : σ} (inv : Nat → σ → Prop) (h0 : inv 0 init)
    (hstep : ∀ k < n, ∀ s, inv k s → Checks allowed (f s k) (inv (k + 1))) :
    Checks allowed ((List.range n).foldlM f init) (inv n) := by
  induction n with
  | zero => exact checks_pure h0
  | succ n ih =>
    rw [List.range_succ, List.foldlM_append]
    refine (ih fun k hk => hstep k (Nat.lt_succ_of_lt hk)).bind fun s hs => ?_
    rw [List.foldlM_cons]
    exact (hstep n (Nat.lt_succ_self n) s hs).bind fun s' hs' => checks_pure hs'

end Checks

/-! ## Computations that agree up to a fault -/

/-- The second computation does what the first one does, unless that stops at `e`. -/
def AgreesUnless (e : ε) (c d : Except ε α) : Prop := c ≠ .error e → d = c

section Agrees

variable {e : ε}

theorem agrees_refl (c : Except ε α) : AgreesUnless e c c := fun _ => rfl

theorem AgreesUnless.bind {c d : Except ε α} {f g : α → Except ε β} (h : AgreesUnless e c d)
    (hf : ∀ a, AgreesUnless e (f a) (g a)) : AgreesUnless e (c >>= f) (d >>= g) := by
  intro hne
  cases hc : c with
  | error e' =>
    rw [hc] at hne h
    rw [h fun he => hne (congrArg Except.error (Except.error.inj he))]
    rfl
  | ok a =>
    rw [hc] at hne h
    rw [h nofun]
    exact hf a hne

theorem agrees_ite {p : Prop} [Decidable p] {c c' d d' : Except ε α} (h : AgreesUnless e c d)
    (h' : AgreesUnless e c' d') : AgreesUnless e (if p then c else c') (if p then d else d') := by
  split_ifs
  · exact h
  · exact h'

theorem agrees_foldlM {f g : σ → α → Except ε σ} (h : ∀ s a, AgreesUnless e (f s a) (g s a)) (l : List α) (s : σ) :
    AgreesUnless e (l.foldlM f s) (l.foldlM g s) := by
  induction l generalizing s with
  | nil => exact agrees_refl _
  | cons a l ih =>
    rw [List.foldlM_cons, List.foldlM_cons]
    exact (h s a).bind ih

theorem agrees_mapM {f g : α → Except ε β} (h : ∀ a, AgreesUnless e (f a) (g a)) (l : List α) :
    AgreesUnless e (l.mapM f) (l.mapM g) := by
  induction l with
  | nil => exact agrees_refl _
  | cons a l ih =>
    rw [List.mapM_cons, List.mapM_cons]
    exact (h a).bind fun _ => ih.bind fun _ => agrees_refl _

theorem agrees_sumBy {arith arith' : Int → Except ε Int} (h : ∀ x, AgreesUnless e (arith x) (arith' x))
    (f g : Nat → Int) (n : Nat) (acc : Int) : AgreesUnless e (sumBy arith f g n acc) (sumBy arith' f g n acc) :=
  agrees_foldlM (fun _ _ => (h _).bind fun _ => h _) _ _

end Agrees

/-- A counting loop that takes `state n` to `state (n + 1)` in turn `n`. -/
theorem foldlM_range_eq_some (body : σ → Nat → Option σ) (state : Nat → σ) {n : Nat}
    (hstep : ∀ m < n, body (state m) m = some (state (m + 1))) : (List.range n).foldlM body (state 0) = some (state n) := by
  induction n with
  | zero => rfl
  | succ n ih =>
    rw [List.range_succ, List.foldlM_append, ih fun m hm => hstep m (by omega)]
    show (body (state n) n >>= fun s => some s) = _
    rw [hstep n (Nat.lt_succ_self n)]
    rfl

/-- A loop that rewrites row `i` of an array in its turn `i`. -/
def forRows (body : α → Option α) (n : Nat) (rows : Nat → α) : Option (Nat → α) :=
  (List.range n).foldlM (fun rows i => (body (rows i)).map (Function.update rows i)) rows

theorem forRows_eq_some (body : α → Option α) (n : Nat) (rows rows' : Nat → α) : forRows body n rows = some rows' ↔
    (∀ i < n, body (rows i) = some (rows' i)) ∧ ∀ i, n ≤ i → rows' i = rows i := by
  induction n generalizing rows' with
  | zero =>
    refine ⟨fun h => ⟨fun i hi => absurd hi (Nat.not_lt_zero i), fun i _ => ?_⟩, fun h => congrArg some ?_⟩
    · rw [Option.some.inj h]
    · exact funext fun i => (h.2 i (Nat.zero_le i)).symm
  | succ n ih =>
    have hsplit : forRows body (n + 1) rows = some rows' ↔
        ∃ rows₁, forRows body n rows = some rows₁ ∧ ∃ row, body (rows₁ n) = some row ∧ Function.update rows₁ n row = rows' := by
      rw [forRows, List.range_succ, List.foldlM_append, Option.bind_eq_bind, Option.bind_eq_some_iff]
      refine exists_congr fun rows₁ => and_congr_right fun _ => ?_
      rw [List.foldlM_cons, ← Option.map_eq_some_iff]
      cases body (rows₁ n) <;> rfl
    rw [hsplit]
    constructor
    · rintro ⟨rows₁, h₁, row, hrow, rfl⟩
      obtain ⟨hlow, hhigh⟩ := (ih rows₁).1 h₁
      refine ⟨fun i hi => ?_, fun i hi => ?_⟩
      · rcases Nat.lt_succ_iff_lt_or_eq.1 hi with hi | rfl
        · rw [Function.update_of_ne (by omega), hlow i hi]
        · rw [Function.update_self, ← hhigh i le_rfl, hrow]
      · rw [Function.update_of_ne (by omega), hhigh i (by omega)]
    · rintro ⟨hlow, hhigh⟩
      refine ⟨Function.update rows' n (rows n), (ih _).2 ⟨fun i hi => ?_, fun i hi => ?_⟩, rows' n, ?_, ?_⟩
      · rw [Function.update_of_ne (by omega), hlow i (by omega)]
      · by_cases hin : i = n
        · rw [hin, Function.update_self]
        · rw [Function.update_of_ne hin, hhigh i (by omega)]
      · rw [Function.update_self, hlow n (Nat.lt_succ_self n)]
      · rw [Function.update_idem, Function.update_eq_self]

/-- A loop that rewrites row `i` of an array in its turn `i`, and is left at the first row that asks for it. -/
def forRowsUntil (body : Nat → α → Option ε × α) : List Nat → (Nat → α) → Option ε × (Nat → α)
  | [], rows => (none, rows)
  | i :: rest, rows =>
    match body i (rows i) with
    | (none, row) => forRowsUntil body rest (Function.update rows i row)
    | (some e, row) => (some e, Function.update rows i row)

section ForRowsUntil

variable {body : Nat → α → Option ε × α} {rows : Nat → α}

theorem forRowsUntil_eq_none {l : List Nat} (hl : l.Nodup) (h : ∀ i ∈ l, (body i (rows i)).1 = none) :
    forRowsUntil body l rows = (none, fun i => if i ∈ l then (body i (rows i)).2 else rows i) := by
  induction l generalizing rows with
  | nil => simp [forRowsUntil]
  | cons i rest ih =>
    obtain ⟨hi, hrest⟩ := List.nodup_cons.1 hl
    rw [List.forall_mem_cons] at h
    have hsame : ∀ j ∈ rest, Function.update rows i (body i (rows i)).2 j = rows j :=
      fun j hj => Function.update_of_ne (ne_of_mem_of_not_mem hj hi) _ _
    have hbody : body i (rows i) = (none, (body i (rows i)).2) := Prod.ext h.1 rfl
    rw [forRowsUntil, hbody]
    dsimp only
    rw [ih hrest fun j hj => by rw [hsame j hj]; exact h.2 j hj]
    refine Prod.ext rfl (funext fun j => ?_)
    by_cases hj : j ∈ rest
    · simp only [hj, if_true, hsame j hj, List.mem_cons, or_true]
    · by_cases hji : j = i
      · subst hji
        simp only [hj, if_false, Function.update_self, List.mem_cons, true_or, if_true]
      · simp only [hj, hji, if_false, Function.update_of_ne hji, List.mem_cons, or_self]

theorem forall_of_forRowsUntil_none {l : List Nat} (hl : l.Nodup) (h : (forRowsUntil body l rows).1 = none) :
    ∀ i ∈ l, (body i (rows i)).1 = none := by
  induction l generalizing rows with
  | nil => exact fun i hi => absurd hi List.not_mem_nil
  | cons i rest ih =>
    obtain ⟨hi, hrest⟩ := List.nodup_cons.1 hl
    rw [forRowsUntil] at h
    rw [List.forall_mem_cons]
    generalize hrow : body i (rows i) = r at h ⊢
    obtain ⟨_ | e, row⟩ := r
    · refine ⟨rfl, fun j hj => ?_⟩
      have hj' := ih hrest h j hj
      rwa [Function.update_of_ne (ne_of_mem_of_not_mem hj hi)] at hj'
    · exact absurd h nofun

theorem exists_of_forRowsUntil_some {l : List Nat} (hl : l.Nodup) {e : ε} (h : (forRowsUntil body l rows).1 = some e) :
    ∃ i ∈ l, (body i (rows i)).1 = some e := by
  induction l generalizing rows with
  | nil => exact absurd h nofun
  | cons i rest ih =>
    obtain ⟨hi, hrest⟩ := List.nodup_cons.1 hl
    rw [forRowsUntil] at h
    generalize hrow : body i (rows i) = r at h
    obtain ⟨_ | e', row⟩ := r
    · obtain ⟨j, hj, hexit⟩ := ih hrest h
      rw [Function.update_of_ne (ne_of_mem_of_not_mem hj hi)] at hexit
      exact ⟨j, List.mem_cons_of_mem i hj, hexit⟩
    · refine ⟨i, List.mem_cons_self, ?_⟩
      rw [hrow]
      exact h

/-- Rows that stay as they are, up to one that stays and asks to leave: nothing has changed. -/
theorem forRowsUntil_of_same {pre post : List Nat} {i : Nat} {e : ε} (hpre : ∀ j ∈ pre, body j (rows j) = (none, rows j))
    (hi : body i (rows i) = (some e, rows i)) : forRowsUntil body (pre ++ i :: post) rows = (some e, rows) := by
  induction pre with
  | nil =>
    rw [List.nil_append, forRowsUntil, hi]
    dsimp only
    rw [Function.update_eq_self]
  | cons j pre ih =>
    rw [List.forall_mem_cons] at hpre
    rw [List.cons_append, forRowsUntil, hpre.1]
    dsimp only
    rw [Function.update_eq_self]
    exact ih hpre.2

end ForRowsUntil

end Path64.Lib

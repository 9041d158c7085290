import Mathlib.Data.List.Basic

/-!
# Computations that may fail an assertion and log what they hand on

* `Logged ρ α` : a value of type `α` unless an assertion failed, and the entries logged on the way;
* `Logged.report`, `Logged.reportAll`, `Logged.assert`, `Logged.ofOption` : its operations;
* `Logged.Meets ok c Q` : while every logged entry is `ok`, no assertion of `c` fails and its value satisfies `Q`;
* `meets_pure`, `Meets.bind` : the rules, one for each operation;
* `Logged.Yields ok c Q` : while every logged entry is `ok`, a value of `c`, if it has one, satisfies `Q`;
* `Logged.relabel`, `Logged.attempt` : entries of another kind, and a failure that the caller sees.
-/

namespace Path64

/-- What a computation logs and what it returns; no value is a failed assertion. -/
structure Logged (ρ α : Type) where
  log : List ρ
  value : Option α

namespace Logged

variable {ρ α β : Type}

/-- One computation, then another on its value; after a failed assertion nothing more is logged. -/
def andThen (c : Logged ρ α) (f : α → Logged ρ β) : Logged ρ β :=
  match c.value with
  | none => ⟨c.log, none⟩
  | some a => ⟨c.log ++ (f a).log, (f a).value⟩

instance : Monad (Logged ρ) where
  pure a := ⟨[], some a⟩
  bind := andThen

/-- Log an entry. -/
def report (r : ρ) : Logged ρ Unit := ⟨[r], some ()⟩

/-- Log a list of entries. -/
def reportAll (l : List ρ) : Logged ρ Unit := ⟨l, some ()⟩

/-- Fail unless there is a value. -/
def ofOption (o : Option α) : Logged ρ α := ⟨[], o⟩

/-- Fail unless the condition holds. -/
def assert (p : Prop) [Decidable p] : Logged ρ Unit := ofOption (if p then some () else none)

/-! ## What a computation meets -/

/-- While every entry it logs is `ok`, the computation returns a value that satisfies `Q`. -/
def Meets (ok : ρ → Prop) (c : Logged ρ α) (Q : α → Prop) : Prop :=
  (∀ r ∈ c.log, ok r) → ∃ a, c.value = some a ∧ Q a

variable {ok : ρ → Prop} {P Q : α → Prop}

theorem meets_pure {a : α} (h : Q a) : Meets ok (pure a : Logged ρ α) Q := fun _ => ⟨a, rfl, h⟩

theorem Meets.bind {c : Logged ρ α} {f : α → Logged ρ β} {R : β → Prop} (h : Meets ok c P)
    (hf : ∀ a, P a → Meets ok (f a) R) : Meets ok (c >>= f) R := by
  intro hlog
  change ∀ r ∈ (andThen c f).log, ok r at hlog
  show ∃ b, (andThen c f).value = some b ∧ R b
  rw [andThen] at hlog ⊢
  cases hc : c.value with
  | none =>
    rw [hc] at hlog
    obtain ⟨a, ha, -⟩ := h hlog
    rw [hc] at ha
    cases ha
  | some a =>
    rw [hc] at hlog
    obtain ⟨a', ha', hP⟩ := h fun r hr => hlog r (List.mem_append_left _ hr)
    obtain rfl : a = a' := Option.some.inj (hc.symm.trans ha')
    exact hf a hP fun r hr => hlog r (List.mem_append_right _ hr)

theorem Meets.mono {c : Logged ρ α} (h : Meets ok c P) (hPQ : ∀ a, P a → Q a) : Meets ok c Q := by
  intro hlog
  obtain ⟨a, ha, hP⟩ := h hlog
  exact ⟨a, ha, hPQ a hP⟩

theorem meets_report {r : ρ} {R : Unit → Prop} (h : ok r → R ()) : Meets ok (report r) R :=
  fun hlog => ⟨(), rfl, h (hlog r (List.mem_singleton_self r))⟩

theorem meets_ofOption {o : Option α} {a : α} (ho : o = some a) (h : Q a) : Meets ok (ofOption o) Q :=
  fun _ => ⟨a, ho, h⟩

theorem meets_assert {p : Prop} [Decidable p] {R : Unit → Prop} (hp : p) (h : R ()) : Meets ok (assert p) R :=
  meets_ofOption (if_pos hp) h

/-! ## What a computation yields if it does not fail -/

/-- While every entry it logs is `ok`, the computation fails or returns a value that satisfies `Q`. -/
def Yields (ok : ρ → Prop) (c : Logged ρ α) (Q : α → Prop) : Prop :=
  (∀ r ∈ c.log, ok r) → ∀ a, c.value = some a → Q a

theorem yields_pure {a : α} (h : Q a) : Yields ok (pure a : Logged ρ α) Q := by
  intro _ b hb
  obtain rfl : a = b := Option.some.inj hb
  exact h

theorem Yields.bind {c : Logged ρ α} {f : α → Logged ρ β} {R : β → Prop} (h : Yields ok c P)
    (hf : ∀ a, P a → Yields ok (f a) R) : Yields ok (c >>= f) R := by
  intro hlog b hb
  change ∀ r ∈ (andThen c f).log, ok r at hlog
  change (andThen c f).value = some b at hb
  rw [andThen] at hlog hb
  cases hc : c.value with
  | none =>
    rw [hc] at hb
    cases hb
  | some a =>
    rw [hc] at hlog hb
    have hP := h (fun r hr => hlog r (List.mem_append_left _ hr)) a hc
    exact hf a hP (fun r hr => hlog r (List.mem_append_right _ hr)) b hb

theorem Yields.mono {c : Logged ρ α} (h : Yields ok c P) (hPQ : ∀ a, P a → Q a) : Yields ok c Q :=
  fun hlog a ha => hPQ a (h hlog a ha)

theorem yields_report {r : ρ} {R : Unit → Prop} (h : ok r → R ()) : Yields ok (report r) R :=
  fun hlog _ _ => h (hlog r (List.mem_singleton_self r))

theorem yields_reportAll {l : List ρ} {R : Unit → Prop} (h : (∀ r ∈ l, ok r) → R ()) : Yields ok (reportAll l) R :=
  fun hlog _ _ => h hlog

theorem yields_ofOption {o : Option α} (h : ∀ a, o = some a → Q a) : Yields ok (ofOption o) Q :=
  fun _ a ha => h a ha

theorem yields_assert {p : Prop} [Decidable p] {R : Unit → Prop} (h : p → R ()) : Yields ok (assert p) R := by
  refine yields_ofOption fun u hu => ?_
  by_cases hp : p
  · exact h hp
  · rw [if_neg hp] at hu
    cases hu

theorem Yields.of_log {ok' : ρ → Prop} {c : Logged ρ α} (h : Yields ok c Q) (hlog : ∀ r ∈ c.log, ok' r → ok r) :
    Yields ok' c Q :=
  fun hok => h fun r hr => hlog r hr (hok r hr)

theorem Meets.yields {c : Logged ρ α} (h : Meets ok c Q) : Yields ok c Q := by
  intro hlog a ha
  obtain ⟨b, hb, hQ⟩ := h hlog
  obtain rfl : b = a := Option.some.inj (hb.symm.trans ha)
  exact hQ

theorem Yields.meets {c : Logged ρ α} (h : Yields ok c Q) (hreturns : Meets ok c fun _ => True) : Meets ok c Q := by
  intro hlog
  obtain ⟨a, ha, -⟩ := hreturns hlog
  exact ⟨a, ha, h hlog a ha⟩

/-! ## Parts of a larger computation -/

variable {ρ' : Type}

/-- The same computation with its entries turned into entries of another kind. -/
def relabel (f : ρ → ρ') (c : Logged ρ α) : Logged ρ' α := ⟨c.log.map f, c.value⟩

/-- A failed assertion is handed to the caller. -/
def attempt (c : Logged ρ α) : Logged ρ (Option α) := ⟨c.log, some c.value⟩

variable {ok' : ρ' → Prop}

theorem Meets.relabel {f : ρ → ρ'} {c : Logged ρ α} (h : Meets (fun r => ok' (f r)) c Q) : Meets ok' (c.relabel f) Q :=
  fun hlog => h fun r hr => hlog (f r) (List.mem_map_of_mem hr)

theorem Yields.relabel {f : ρ → ρ'} {c : Logged ρ α} (h : Yields (fun r => ok' (f r)) c Q) : Yields ok' (c.relabel f) Q :=
  fun hlog => h fun r hr => hlog (f r) (List.mem_map_of_mem hr)

theorem Yields.attempt {c : Logged ρ α} (h : Yields ok c Q) : Yields ok c.attempt fun o => ∀ a, o = some a → Q a := by
  intro hlog o ho a ha
  obtain rfl : c.value = o := Option.some.inj ho
  exact h hlog a ha

theorem meets_attempt (c : Logged ρ α) : Meets ok c.attempt fun _ => True := fun _ => ⟨c.value, rfl, trivial⟩

end Logged
end Path64

import Mathlib.Data.BitVec
import Mathlib.Tactic.SplitIfs

/-!
# Decimal literals

`Targ_Atoll` of `targ_const.cxx`, which reads a decimal number into 64 bits.

* `Reading`, `readDigit`, `targAtoll` : the loop, with its count of the digits in an `int`;
* `value`, `number`, `InRange` : what a literal denotes, and the range it has to be in;
* `pastLimit_iff` : what the check of one digit finds out;
* `read_spec` : the state after any number of digits;
* `exact_iff` : the literals that are checked exactly.
-/

namespace Path64.Targ

/-! ## The loop -/

/-- The variables of the loop. -/
structure Reading where
  m : BitVec 64
  digits : BitVec 32
  valid : Bool
  deriving DecidableEq, Repr

/-- `*str - '0'`. -/
def digit (c : Char) : BitVec 64 := BitVec.ofInt 64 ((c.toNat : Int) - '0'.toNat)

/-- `mhi`, the upper half of `10 * m + d`, from the two halves of `m`. -/
def upper (m d : BitVec 64) : BitVec 64 :=
  let mhi := ((m >>> 32).setWidth 32).setWidth 64
  let mlo := (m.setWidth 32).setWidth 64
  let mlo := 10#64 * mlo + d
  let mhi := 10#64 * mhi
  if (0xffffffff#64).ult mlo then mhi + mlo >>> 32 else mhi

/-- Whether the next digit takes `m` past the limit. `INT32_MAX+(neg)` is a sum of two `int`s. -/
def pastLimit (neg sgned : Bool) (m d : BitVec 64) : Bool :=
  (sgned && ((0x7fffffff#32 + (if neg then 1 else 0)).signExtend 64).ult (upper m d)) ||
    (!sgned && (0xffffffff#64).ult (upper m d))

/-- One turn of the loop. -/
def readDigit (neg sgned : Bool) (r : Reading) (c : Char) : Reading :=
  let d := digit c
  let digits := if r.valid then r.digits + 1 else r.digits
  { m := 10#64 * r.m + d
    digits := digits
    valid := r.valid && !((19#32).sle digits && pastLimit neg sgned r.m d) }

/-- The loop over the digits. -/
def read (neg sgned : Bool) (s : List Char) : Reading := s.foldl (readDigit neg sgned) ⟨0, 0, true⟩

/-- `Targ_Atoll`: whether the number is valid, and `*i64`. -/
def targAtoll (str : List Char) (sgned : Bool) : Bool × BitVec 64 :=
  match str with
  | '-' :: str => ((read true sgned str).valid, -(read true sgned str).m)
  | str => ((read false sgned str).valid, (read false sgned str).m)

/-! ## What a literal denotes -/

/-- The value of a string of digits. -/
def value (s : List Char) : Nat := s.foldl (fun n c => 10 * n + (c.toNat - '0'.toNat)) 0

/-- The string with its sign. -/
def literal (neg : Bool) (s : List Char) : List Char := if neg then '-' :: s else s

/-- The number that the literal denotes. -/
def number (neg : Bool) (s : List Char) : Int := if neg then -value s else value s

/-- The range of the signed or of the unsigned integers of 64 bits. -/
def InRange (sgned : Bool) (n : Int) : Prop := if sgned then -2 ^ 63 ≤ n ∧ n < 2 ^ 63 else 0 ≤ n ∧ n < 2 ^ 64

instance (sgned : Bool) (n : Int) : Decidable (InRange sgned n) := by
  unfold InRange
  infer_instance

/-- The literal is range-checked exactly, and read as its number or as its number modulo `2^64`. -/
structure Exact (neg sgned : Bool) (s : List Char) : Prop where
  valid : (targAtoll (literal neg s) sgned).1 = true ↔ InRange sgned (number neg s)
  stored : InRange sgned (number neg s) →
    (if sgned then (targAtoll (literal neg s) sgned).2.toInt else ((targAtoll (literal neg s) sgned).2.toNat : Int)) =
      number neg s
  modulo : (targAtoll (literal neg s) sgned).2 = BitVec.ofInt 64 (number neg s)

/-- The first number past the range of the numbers without a sign. -/
def bound (sgned : Bool) : Nat := if sgned then 2 ^ 63 else 2 ^ 64

/-- The count, an `INT16` that is an `int`, takes part in the check at the digit of index `k`. -/
def Counted (k : Nat) : Prop := 19 ≤ (k + 1) % 2 ^ 32 ∧ (k + 1) % 2 ^ 32 < 2 ^ 31

instance (k : Nat) : Decidable (Counted k) := inferInstanceAs (Decidable (_ ∧ _))

/-! ## One digit -/

section
variable {neg sgned : Bool} {m d : BitVec 64} {s : List Char} {c : Char} {k n : Nat}

theorem toNat_digit (hc : c.isDigit = true) : (digit c).toNat = c.toNat - '0'.toNat ∧ c.toNat - '0'.toNat < 10 := by
  have hrange : 48 ≤ c.toNat ∧ c.toNat ≤ 57 := by
    simpa [Char.isDigit, UInt32.le_iff_toNat_le] using hc
  have hzero : '0'.toNat = 48 := rfl
  have hofNat : digit c = BitVec.ofNat 64 (c.toNat - 48) := by
    rw [digit, hzero, ← BitVec.ofInt_natCast]
    congr 1
    omega
  rw [hzero, hofNat, BitVec.toNat_ofNat, Nat.mod_eq_of_lt (by omega)]
  exact ⟨rfl, by omega⟩

theorem toNat_upper (hd : d.toNat < 10) : (upper m d).toNat = (10 * m.toNat + d.toNat) / 2 ^ 32 := by
  have hm := m.isLt
  have hten : (10#64).toNat = 10 := rfl
  have hhi : (10#64 * ((m >>> 32).setWidth 32).setWidth 64).toNat = 10 * (m.toNat / 2 ^ 32) := by
    rw [BitVec.toNat_mul, BitVec.toNat_setWidth, BitVec.toNat_setWidth, BitVec.toNat_ushiftRight,
      Nat.shiftRight_eq_div_pow, hten, Nat.mod_eq_of_lt (a := m.toNat / 2 ^ 32) (by omega)]
    omega
  have hlo : (10#64 * (m.setWidth 32).setWidth 64 + d).toNat = 10 * (m.toNat % 2 ^ 32) + d.toNat := by
    rw [BitVec.toNat_add, BitVec.toNat_mul, BitVec.toNat_setWidth, BitVec.toNat_setWidth, hten]
    omega
  have hmax : (0xffffffff#64).toNat = 2 ^ 32 - 1 := by decide
  unfold upper
  by_cases h : (0xffffffff#64).ult (10#64 * (m.setWidth 32).setWidth 64 + d) = true
  · rw [if_pos h, BitVec.toNat_add, hhi, BitVec.toNat_ushiftRight, Nat.shiftRight_eq_div_pow, hlo]
    omega
  · rw [if_neg h, hhi]
    rw [BitVec.ult_iff_toNat_lt, hlo, hmax] at h
    omega

/-- With a minus sign the sum of the limit is negative, and no upper half is past it. -/
theorem pastLimit_iff (hd : d.toNat < 10) :
    pastLimit neg sgned m d = true ↔ (neg && sgned) = false ∧ bound sgned ≤ 10 * m.toNat + d.toNat := by
  have hm := m.isLt
  have hunsigned : (0xffffffff#64).toNat = 2 ^ 32 - 1 := by decide
  have hplain : ((0x7fffffff#32 + 0).signExtend 64).toNat = 2 ^ 31 - 1 := by decide
  have hminus : ((0x7fffffff#32 + 1).signExtend 64).toNat = 2 ^ 64 - 2 ^ 31 := by decide
  rw [pastLimit, Bool.or_eq_true, Bool.and_eq_true, Bool.and_eq_true, BitVec.ult_iff_toNat_lt, BitVec.ult_iff_toNat_lt,
    toNat_upper hd, hunsigned]
  cases sgned
  · simp only [bound, Bool.false_eq_true, false_and, false_or, Bool.not_false, true_and, Bool.and_false, if_false]
    omega
  · cases neg
    · simp only [bound, hplain, Bool.false_and, Bool.not_true, Bool.false_eq_true, false_and, or_false, true_and,
        if_true, if_false]
      omega
    · simp only [hminus, Bool.and_true, Bool.not_true, Bool.false_eq_true, Bool.true_eq_false, false_and, or_false,
        true_and, iff_false, if_true]
      omega

/-! ## The loop over the digits -/

theorem value_append (s : List Char) (c : Char) : value (s ++ [c]) = 10 * value s + (c.toNat - '0'.toNat) := by
  rw [value, List.foldl_append]
  rfl

/-- The digit of index `k` is checked, and is past the limit. -/
def Stops (sgned : Bool) (s : List Char) (k : Nat) : Prop :=
  Counted k ∧ bound sgned ≤ 10 * (value (s.take k) % 2 ^ 64) + ((s[k]?.getD '0').toNat - '0'.toNat)

theorem stops_append {s : List Char} (c : Char) {k : Nat} (hk : k < s.length) :
    Stops sgned (s ++ [c]) k ↔ Stops sgned s k := by
  unfold Stops
  rw [List.take_append_of_le_length hk.le, List.getElem?_append_left hk]

/-- What the loop knows after the digits `s`. -/
structure AfterDigits (neg sgned : Bool) (s : List Char) (r : Reading) : Prop where
  m : r.m = BitVec.ofNat 64 (value s)
  digits : r.valid = true → r.digits = BitVec.ofNat 32 s.length
  valid : r.valid = true ↔ (neg && sgned) = true ∨ ∀ k < s.length, ¬Stops sgned s k

theorem sle_ofNat_iff (n : Nat) : (19#32).sle (BitVec.ofNat 32 (n + 1)) = true ↔ Counted n := by
  have h19 : (19#32).toInt = 19 := by decide
  rw [BitVec.sle_iff_toInt_le, h19, BitVec.toInt_eq_toNat_cond, BitVec.toNat_ofNat]
  unfold Counted
  split_ifs with h <;> omega

/-- One more digit. -/
theorem AfterDigits.step {r : Reading} (h : AfterDigits neg sgned s r) (hc : c.isDigit = true) :
    AfterDigits neg sgned (s ++ [c]) (readDigit neg sgned r c) := by
  obtain ⟨hdigit, hlt⟩ := toNat_digit hc
  have hstop : Stops sgned (s ++ [c]) s.length ↔
      Counted s.length ∧ bound sgned ≤ 10 * r.m.toNat + (digit c).toNat := by
    unfold Stops
    rw [List.take_left, hdigit, h.m, BitVec.toNat_ofNat, List.getElem?_append_right le_rfl, Nat.sub_self]
    rfl
  refine ⟨?_, fun hvalid => ?_, ?_⟩
  · show 10#64 * r.m + digit c = _
    apply BitVec.eq_of_toNat_eq
    rw [BitVec.toNat_add, BitVec.toNat_mul, hdigit, h.m, value_append]
    simp only [BitVec.toNat_ofNat]
    omega
  · have hold : r.valid = true := (Bool.and_eq_true _ _ ▸ hvalid : _ ∧ _).1
    show (if r.valid then r.digits + 1 else r.digits) = _
    rw [if_pos hold, h.digits hold, List.length_append, List.length_singleton, BitVec.ofNat_add]
    rfl
  · rw [List.length_append, List.length_singleton]
    show (r.valid && !((19#32).sle (if r.valid then r.digits + 1 else r.digits) &&
      pastLimit neg sgned r.m (digit c))) = true ↔ _
    have hsplit : (∀ k < s.length + 1, ¬Stops sgned (s ++ [c]) k) ↔
        (∀ k < s.length, ¬Stops sgned s k) ∧ ¬Stops sgned (s ++ [c]) s.length := by
      rw [Nat.forall_lt_succ_right]
      exact and_congr_left fun _ => forall₂_congr fun k hk => not_congr (stops_append c hk)
    rw [hsplit]
    cases hold : r.valid
    · have hstopped := mt h.valid.mpr (Bool.eq_false_iff.mp hold)
      rw [not_or] at hstopped
      rw [Bool.false_and]
      exact iff_of_false Bool.false_ne_true fun hor => hor.elim hstopped.1 fun hall => hstopped.2 hall.1
    · have hgoes := h.valid.mp hold
      have hcount : BitVec.ofNat 32 s.length + 1 = BitVec.ofNat 32 (s.length + 1) := (BitVec.ofNat_add ..).symm
      rw [if_pos rfl, h.digits hold, hcount, Bool.true_and, Bool.not_eq_true', Bool.eq_false_iff, Ne, Bool.and_eq_true,
        sle_ofNat_iff, pastLimit_iff (hdigit ▸ hlt), hstop]
      cases hminus : neg && sgned
      · rw [hminus] at hgoes
        have hall := hgoes.resolve_left Bool.false_ne_true
        rw [and_iff_right hall, or_iff_right Bool.false_ne_true, eq_self_iff_true, true_and]
      · simp

/-- The state after the digits of a string. -/
theorem read_spec (neg sgned : Bool) (hs : ∀ c ∈ s, c.isDigit = true) : AfterDigits neg sgned s (read neg sgned s) := by
  induction s using List.reverseRecOn with
  | nil => exact ⟨rfl, fun _ => rfl, iff_of_true rfl (.inr fun k hk => absurd hk (Nat.not_lt_zero k))⟩
  | append_singleton s c ih =>
    rw [List.forall_mem_append] at hs
    rw [read, List.foldl_append]
    exact (ih hs.1).step (hs.2 c (List.mem_singleton_self c))

/-! ## The literals that are checked exactly -/

/-- A number up to `2^63` after a minus sign; a number within the range, or one that a digit takes past it. -/
def Checked (neg sgned : Bool) (s : List Char) : Prop :=
  if neg then value s ≤ 2 ^ 63 else value s < bound sgned ∨ ∃ k < s.length, Stops sgned s k

theorem targAtoll_literal (hs : ∀ c ∈ s, c.isDigit = true) : targAtoll (literal neg s) sgned =
    ((read neg sgned s).valid, if neg then -(read neg sgned s).m else (read neg sgned s).m) := by
  cases neg
  · show targAtoll s sgned = _
    unfold targAtoll
    split
    · exact absurd (hs '-' (List.mem_cons_self ..)) (by decide)
    · rfl
  · rfl

theorem targAtoll_modulo (hs : ∀ c ∈ s, c.isDigit = true) :
    (targAtoll (literal neg s) sgned).2 = BitVec.ofInt 64 (number neg s) := by
  rw [targAtoll_literal hs, (read_spec neg sgned hs).m]
  cases neg
  · exact (BitVec.ofInt_natCast ..).symm
  · show -BitVec.ofNat 64 (value s) = BitVec.ofInt 64 (-(value s : Int))
    rw [BitVec.ofInt_neg, BitVec.ofInt_natCast]

theorem stored_of_inRange {n : Int} (hn : InRange sgned n) :
    (if sgned then (BitVec.ofInt 64 n).toInt else ((BitVec.ofInt 64 n).toNat : Int)) = n := by
  cases sgned
  · have h : 0 ≤ n ∧ n < 2 ^ 64 := hn
    rw [if_neg Bool.false_ne_true, BitVec.toNat_ofInt, Int.toNat_of_nonneg (Int.emod_nonneg _ (by decide))]
    exact Int.emod_eq_of_lt h.1 h.2
  · have h : -2 ^ 63 ≤ n ∧ n < 2 ^ 63 := hn
    rw [if_pos rfl, BitVec.toInt_ofInt]
    exact Int.bmod_eq_of_le h.1 h.2

theorem inRange_number (hneg : neg = true → sgned = true) :
    InRange sgned (number neg s) ↔ if neg then value s ≤ 2 ^ 63 else value s < bound sgned := by
  cases neg
  · cases sgned
    · show 0 ≤ (value s : Int) ∧ (value s : Int) < 2 ^ 64 ↔ value s < 2 ^ 64
      omega
    · show -2 ^ 63 ≤ (value s : Int) ∧ (value s : Int) < 2 ^ 63 ↔ value s < 2 ^ 63
      omega
  · rw [hneg rfl]
    show -2 ^ 63 ≤ -(value s : Int) ∧ -(value s : Int) < 2 ^ 63 ↔ value s ≤ 2 ^ 63
    omega

theorem value_le_append (s t : List Char) : value s ≤ value (s ++ t) := by
  induction t using List.reverseRecOn with
  | nil => rw [List.append_nil]
  | append_singleton t c ih =>
    rw [← List.append_assoc, value_append]
    omega

theorem not_stops (h : value s < bound sgned) {k : Nat} (hk : k < s.length) : ¬Stops sgned s k := by
  rintro ⟨-, hpast⟩
  have hprefix : value (s.take k ++ [s[k]]) ≤ value s := by
    have := value_le_append (s.take (k + 1)) (s.drop (k + 1))
    rwa [List.take_append_drop, List.take_succ_eq_append_getElem hk] at this
  rw [value_append] at hprefix
  rw [List.getElem?_eq_getElem hk, Option.getD_some] at hpast
  have := Nat.mod_le (value (s.take k)) (2 ^ 64)
  omega

theorem value_lt (hs : ∀ c ∈ s, c.isDigit = true) : value s < 10 ^ s.length := by
  induction s using List.reverseRecOn with
  | nil => decide
  | append_singleton s c ih =>
    rw [List.forall_mem_append] at hs
    have hlt := (toNat_digit (hs.2 c (List.mem_singleton_self c))).2
    have := ih hs.1
    rw [value_append, List.length_append, List.length_singleton, pow_succ]
    omega

/-- Fewer than `2 ^ 31` digits without a minus sign are checked exactly. -/
theorem checked_of_length (hs : ∀ c ∈ s, c.isDigit = true) (h : s.length < 2 ^ 31) : Checked false sgned s := by
  rw [Checked, if_neg Bool.false_ne_true, or_iff_not_imp_left, not_lt]
  have hbound : 10 ^ 18 < bound sgned ∧ bound sgned ≤ 2 ^ 64 := by cases sgned <;> decide
  induction s using List.reverseRecOn with
  | nil =>
    intro hpast
    have : value [] = 0 := rfl
    omega
  | append_singleton s c ih =>
    intro hpast
    have hdigits := value_lt hs
    rw [List.forall_mem_append] at hs
    rw [List.length_append, List.length_singleton] at h hdigits ⊢
    rcases Nat.lt_or_ge (value s) (bound sgned) with hlt | hge
    · have hlong : 18 < s.length + 1 := (Nat.pow_lt_pow_iff_right (by decide)).mp (hbound.1.trans (hpast.trans_lt hdigits))
      refine ⟨s.length, by omega, ⟨?_, ?_⟩, ?_⟩
      · omega
      · omega
      · rw [value_append] at hpast
        rwa [List.take_left, List.getElem?_append_right le_rfl, Nat.sub_self, Nat.mod_eq_of_lt (hlt.trans_le hbound.2)]
    · obtain ⟨k, hk, hstop⟩ := ih hs.1 (by omega) hge
      exact ⟨k, by omega, (stops_append c hk).mpr hstop⟩

/-- **The literals that are range-checked exactly**, among them all without a minus sign of fewer than `2 ^ 31` digits. -/
theorem exact_iff (neg sgned : Bool) (s : List Char) (hneg : neg = true → sgned = true)
    (hs : ∀ c ∈ s, c.isDigit = true) : (Exact neg sgned s ↔ Checked neg sgned s) ∧
      (neg = false → s.length < 2 ^ 31 → Checked neg sgned s) := by
  refine ⟨?_, fun hfalse hlength => by rw [hfalse]; exact checked_of_length hs hlength⟩
  have hmodulo : (targAtoll (literal neg s) sgned).2 = BitVec.ofInt 64 (number neg s) := targAtoll_modulo hs
  have hvalid : (targAtoll (literal neg s) sgned).1 = true ↔ neg = true ∨ ∀ k < s.length, ¬Stops sgned s k := by
    rw [targAtoll_literal hs]
    refine (read_spec neg sgned hs).valid.trans (or_congr_left ?_)
    rw [Bool.and_eq_true]
    exact and_iff_left_of_imp hneg
  have hiff : Exact neg sgned s ↔ ((targAtoll (literal neg s) sgned).1 = true ↔ InRange sgned (number neg s)) :=
    ⟨Exact.valid, fun h => ⟨h, fun hin => hmodulo ▸ stored_of_inRange hin, hmodulo⟩⟩
  rw [hiff, hvalid, inRange_number hneg]
  cases neg
  · have hdec : (¬∃ k < s.length, Stops sgned s k) ↔ ∀ k < s.length, ¬Stops sgned s k := by
      simp only [not_exists, not_and]
    rw [or_iff_right Bool.false_ne_true, if_neg Bool.false_ne_true, Checked, if_neg Bool.false_ne_true, ← hdec]
    constructor
    · intro h
      by_cases hlt : value s < bound sgned
      · exact .inl hlt
      · exact .inr (not_not.mp (mt h.mp hlt))
    · rintro (hlt | hstop)
      · exact iff_of_true (hdec.mpr fun k hk => not_stops hlt hk) hlt
      · refine iff_of_false (not_not.mpr hstop) fun hlt => ?_
        obtain ⟨k, hk, hk'⟩ := hstop
        exact not_stops hlt hk hk'
  · rw [iff_true_left (Or.inl rfl)]
    exact Iff.rfl

/-- A number of nineteen digits. -/
theorem exact_iff_least : Exact true true "9223372036854775808".toList :=
  (exact_iff true true _ (fun h => h) (List.all_eq_true.mp (by decide))).1.mpr (show value _ ≤ 2 ^ 63 by decide)

/-- The first number below the range is not refused. -/
theorem not_exact_belowLeast : ¬Exact true true "9223372036854775809".toList := fun h => by
  have := h.valid.mp (by decide)
  exact absurd this (by decide)

end

end Path64.Targ

import Mathlib.Tactic

/-!
# Software pipelining: the operations of a loop body

The data the pipeliner's passes share: registers (`Tn`), operations with their place in the modulo schedule
(`SwpOp`), and the wrap of a version number into the unrolled kernel.

* `SwpOp` : `SWP_OP`, over the type its operands and results are named in (`Tn` before the kernel is unrolled and
  renamed, the renamed registers after it);
* `wrapVersion_eq` : the remainder that is corrected while it is negative is the remainder of Euclidean division;
* `le_foldl_greatest` : what a loop that keeps the greatest value ends with;
* `getElem?_of_mapM`, `mem_of_mapM`, `length_of_mapM` : the entries of a list that is built by a function that may fail.
-/

namespace Path64.Swp

/-- A register or constant operand; two operands are one `TN` when all fields agree, `number` being the identity. -/
structure Tn where
  number : Nat
  isRegister : Bool := true
  isDedicated : Bool := false
  /-- `TN_is_zero_reg`. -/
  isZeroReg : Bool := false
  registerClass : Nat := 1
deriving DecidableEq, Repr

/-- An operand with `_omega` and `_original_omega`, the number of iterations since the value was defined. -/
structure Opnd (T : Type) where
  tn : T
  omega : Int := 0
  originalOmega : Int := 0
deriving DecidableEq, Repr

/-- `SWP_OP`. `op` names the operation of the loop body, of which this may be a copy. -/
structure SwpOp (T : Type) where
  op : Nat
  results : List T := []
  opnds : List (Opnd T) := []
  /-- `_scycle`, the modulo cycle. -/
  startCycle : Nat := 0
  stage : Nat := 0
  unrolling : Nat := 0
  isPointerUpdate : Bool := false
  /-- `OP_br`. -/
  isBr : Bool := false
  /-- The operand that `OP_find_opnd_use (op, OU_same_res)` finds, for an `OP_same_res` operation. -/
  sameRes : Option Nat := none
  /-- `OP_uniq_res`: the result must not share its register with an operand. -/
  uniqRes : Bool := false
deriving DecidableEq, Repr

/-- `SWP_SUBCYCLES_PER_CYCLE`. -/
def subcyclesPerCycle : Nat := 8

/-- `SWP_TN_LIFETIME`: the span of the registers `tns`, in sub-cycles. -/
structure TnLifetime (T : Type) where
  startSubCycle : Nat
  endSubCycle : Nat
  omega : Nat := 0
  alpha : Nat := 0
  tns : List T := []
deriving DecidableEq, Repr

def TnLifetime.startCycle {T : Type} (lt : TnLifetime T) : Nat := lt.startSubCycle / subcyclesPerCycle

def TnLifetime.endCycle {T : Type} (lt : TnLifetime T) : Nat := lt.endSubCycle / subcyclesPerCycle

/-- What a copy of an operation keeps: which operation it is, its stage and its flags. -/
structure OpTag where
  op : Nat
  stage : Nat
  isPointerUpdate : Bool
  isBr : Bool
deriving DecidableEq, Repr

def SwpOp.tag {T : Type} (o : SwpOp T) : OpTag := ⟨o.op, o.stage, o.isPointerUpdate, o.isBr⟩

/-- `version % k`, with `k` added while the result is negative; C's remainder is above `-k`, so once is enough. -/
def wrapVersion (version k : Int) : Int :=
  if version.tmod k < 0 then version.tmod k + k else version.tmod k

theorem wrapVersion_eq (version : Int) {k : Int} (hk : 0 < k) : wrapVersion version k = version % k := by
  have hlt := Int.emod_lt_of_pos version hk
  have hge := Int.emod_nonneg version hk.ne'
  have hmod : version.tmod k = version % k - ((if 0 ≤ version ∨ k ∣ version then 0 else k.natAbs : Nat) : Int) :=
    Int.tmod_eq_emod
  unfold wrapVersion
  split_ifs at hmod ⊢ <;> omega

/-- A loop that keeps the greatest value it has seen. -/
theorem le_foldl_greatest {α : Type} (f : α → Nat) (l : List α) (n : Nat) :
    n ≤ l.foldl (fun m a => if f a > m then f a else m) n ∧
      ∀ a ∈ l, f a ≤ l.foldl (fun m a => if f a > m then f a else m) n := by
  induction l generalizing n with
  | nil => exact ⟨le_rfl, fun a ha => absurd ha List.not_mem_nil⟩
  | cons b l ih =>
    rw [List.foldl_cons]
    obtain ⟨hstart, hall⟩ := ih (if f b > n then f b else n)
    have hn : n ≤ (if f b > n then f b else n) ∧ f b ≤ (if f b > n then f b else n) := by
      split_ifs <;> omega
    refine ⟨hn.1.trans hstart, fun a ha => ?_⟩
    rcases List.mem_cons.mp ha with rfl | ha
    · exact hn.2.trans hstart
    · exact hall a ha

/-! ## Lists built by a function that may fail -/

theorem getElem?_of_mapM {α β : Type} {f : α → Option β} {l : List α} {l' : List β} (h : l.mapM f = some l') {i : Nat}
    {a : α} (ha : l[i]? = some a) : ∃ b, f a = some b ∧ l'[i]? = some b := by
  induction l generalizing l' i with
  | nil => exact absurd ha (by simp)
  | cons x l ih =>
    rw [List.mapM_cons] at h
    simp only [Option.bind_eq_bind, Option.bind_eq_some_iff, Option.pure_def, Option.some_inj] at h
    obtain ⟨b, hb, bs, hbs, rfl⟩ := h
    cases i with
    | zero =>
      rw [List.getElem?_cons_zero, Option.some_inj] at ha
      exact ⟨b, ha ▸ hb, rfl⟩
    | succ i => exact ih hbs ha

theorem mem_of_mapM {α β : Type} {f : α → Option β} {l : List α} {l' : List β} (h : l.mapM f = some l') {b : β}
    (hb : b ∈ l') : ∃ a ∈ l, f a = some b := by
  induction l generalizing l' with
  | nil =>
    rw [List.mapM_nil, Option.pure_def, Option.some_inj] at h
    subst h
    exact absurd hb List.not_mem_nil
  | cons x l ih =>
    rw [List.mapM_cons] at h
    simp only [Option.bind_eq_bind, Option.bind_eq_some_iff, Option.pure_def, Option.some_inj] at h
    obtain ⟨b', hb', bs, hbs, rfl⟩ := h
    rcases List.mem_cons.mp hb with rfl | hb
    · exact ⟨x, List.mem_cons_self, hb'⟩
    · obtain ⟨a, ha, hab⟩ := ih hbs hb
      exact ⟨a, List.mem_cons_of_mem _ ha, hab⟩

theorem length_of_mapM {α β : Type} {f : α → Option β} {l : List α} {l' : List β} (h : l.mapM f = some l') :
    l'.length = l.length := by
  induction l generalizing l' with
  | nil =>
    rw [List.mapM_nil, Option.pure_def, Option.some_inj] at h
    subst h
    rfl
  | cons x l ih =>
    rw [List.mapM_cons] at h
    simp only [Option.bind_eq_bind, Option.bind_eq_some_iff, Option.pure_def, Option.some_inj] at h
    obtain ⟨b, -, bs, hbs, rfl⟩ := h
    rw [List.length_cons, List.length_cons, ih hbs]

end Path64.Swp

import Path64.Lib.ThreeWay
import Path64.Lib.Wrap
import Mathlib.Data.List.Forall2
import Mathlib.Data.Option.Basic

/-!
# The order of trees

`SIMPNODE_Simp_Compare_Trees` of the simplifier (`wn_simp_code.h`).

* `Wn` : a node with its address, opcode, attributes and kids; `keys` : the attributes that are compared, in order;
* `compareTrees`, `compareKids` : the function, which returns nothing where it reads a kid that is not there;
* `Wn.value`, `Wn.shape` : the value of a tree, whatever its nodes mean; the tree without its addresses;
* `CompareRight` : the comparison is a preorder on three trees, and 0 means the same value;
* `Distinguished` : the nodes of a program for which it is; `compareTrees_iff` : that this is exact.
-/

namespace Path64.Simp

open Lib

/-- The operators that the comparison distinguishes. -/
inductive Operator where
  | intconst | cvtl | extractBits | composeBits | const | iload | ildbits | mload | iloadx | ldid | ldbits | idname
  | lda | array | intrinsicOp | comma | rcomma | cselect | pureCallOp | other
  deriving DecidableEq, Repr

/-- The type of a loaded object: a bit field (`MTYPE_BS`), a structure (`MTYPE_M`) or a scalar. -/
inductive Desc where
  | bits | struct | scalar
  deriving DecidableEq, Repr

/-- The tables of the opcodes. -/
structure Opcodes where
  operator : Int → Operator
  desc : Int → Desc
  isExpression : Int → Bool

/-- The attributes of a node. `rest` are those of the operators that have no case of their own. -/
structure Attributes where
  constVal : Int := 0
  cvtlBits : Int := 0
  bitOffset : Int := 0
  bitSize : Int := 0
  offset : Int := 0
  fieldId : Int := 0
  stIdx : Int := 0
  ty : Int := 0
  elementSize : Int := 0
  intrinsic : Int := 0
  rest : List Int := []
  deriving DecidableEq, Repr

/-- `simpnode`. The kids of an `ARRAY` are its base, and then the index and the dimension of each subscript. -/
inductive Wn where
  | node (address opcode : Int) (attributes : Attributes) (kids : List Wn)
  deriving Repr

namespace Wn

def address : Wn → Int
  | node address _ _ _ => address

def opcode : Wn → Int
  | node _ opcode _ _ => opcode

def attributes : Wn → Attributes
  | node _ _ attributes _ => attributes

def kids : Wn → List Wn
  | node _ _ _ kids => kids

end Wn

variable (opcodes : Opcodes)

/-- The operators whose nodes are compared by their addresses. -/
def Opcodes.byAddress (opcode : Int) : Bool :=
  match opcodes.operator opcode with
  | .comma | .rcomma | .cselect => true
  | .other => !opcodes.isExpression opcode
  | _ => false

/-- The attributes that are compared before the kids. -/
def keys (opcode : Int) (attributes : Attributes) (kidCount : Nat) : List Int :=
  match opcodes.operator opcode with
  | .intconst => [attributes.constVal]
  | .cvtl => [attributes.cvtlBits]
  | .extractBits | .composeBits => [attributes.bitOffset, attributes.bitSize]
  | .const => [attributes.stIdx]
  | .iload => attributes.offset :: if opcodes.desc opcode = .bits then [attributes.fieldId] else []
  | .ildbits => [attributes.offset, attributes.bitOffset]
  | .mload | .iloadx => [attributes.offset]
  | .ldid => attributes.offset :: (if opcodes.desc opcode = .bits then [attributes.fieldId] else []) ++ [attributes.stIdx]
  | .ldbits => [attributes.offset, attributes.bitOffset, attributes.stIdx]
  | .idname | .lda => [attributes.offset, attributes.stIdx]
  | .array => [kidCount / 2, attributes.elementSize]
  | .intrinsicOp => [attributes.intrinsic, kidCount]
  | .pureCallOp => [attributes.stIdx, kidCount]
  | .comma | .rcomma | .cselect | .other => []

/-- The other attributes that the value depends on. -/
def ignored (opcode : Int) (attributes : Attributes) : List Int :=
  match opcodes.operator opcode with
  | .ildbits | .ldbits => [attributes.bitSize]
  | .iload | .iloadx | .ldid => if opcodes.desc opcode = .scalar then [] else [attributes.ty]
  | .other => attributes.rest
  | _ => []

def Wn.keys (t : Wn) : List Int := Simp.keys opcodes t.opcode t.attributes t.kids.length

def Wn.ignored (t : Wn) : List Int := Simp.ignored opcodes t.opcode t.attributes

/-- The number of kids that are compared: all of them, where the node says how many it has. -/
def compared (opcode : Int) (kidCount : Nat) : Nat :=
  match opcodes.operator opcode with
  | .intconst | .const | .ldid | .ldbits | .idname | .lda | .comma | .rcomma | .cselect => 0
  | .cvtl | .extractBits | .iload | .ildbits => 1
  | .composeBits | .mload | .iloadx => 2
  | .array => 2 * (kidCount / 2) + 1
  | .intrinsicOp | .pureCallOp => kidCount
  | .other => if opcodes.isExpression opcode then kidCount else 0

mutual

/-- `SIMPNODE_Simp_Compare_Trees`. -/
def compareTrees : Wn → Wn → Option Int
  | .node address1 opcode1 attributes1 kids1, .node address2 opcode2 attributes2 kids2 =>
    if address1 = address2 then some 0
    else if opcode1 < opcode2 then some (-1)
    else if opcode1 > opcode2 then some 1
    else if opcodes.byAddress opcode1 then some (wrap32 (address1 - address2))
    else
      let rv := compareInts (keys opcodes opcode1 attributes1 kids1.length)
        (keys opcodes opcode2 attributes2 kids2.length)
      if rv ≠ 0 then some rv else compareKids (compared opcodes opcode1 kids1.length) kids1 kids2

/-- The first `n` kids. -/
def compareKids : Nat → List Wn → List Wn → Option Int
  | 0, _, _ => some 0
  | n + 1, kid1 :: kids1, kid2 :: kids2 => do
    let rv ← compareTrees kid1 kid2
    if rv ≠ 0 then return rv else compareKids n kids1 kids2
  | _ + 1, _, _ => none

end

/-! ## What a tree stands for -/

/-- A tree without the addresses of its nodes, but for those of the nodes that are compared by address. -/
inductive Shape where
  | pointer (address : Int)
  | node (opcode : Int) (keys ignored : List Int) (kids : List Shape)

/-- What the nodes of a tree mean: an operation on what the node has and on the values of its kids. -/
structure Meaning (V : Type) where
  pointer : Int → V
  node : Int → List Int → List Int → List V → V

/-- The value of a tree; `full` with the attributes that are not compared. -/
def Wn.value {V : Type} (full : Bool) (meaning : Meaning V) : Wn → V
  | .node address opcode attributes kids =>
    if opcodes.byAddress opcode then meaning.pointer address
    else meaning.node opcode (Simp.keys opcodes opcode attributes kids.length)
      (if full then Simp.ignored opcodes opcode attributes else []) (kids.map (Wn.value full meaning))

/-- A tree without addresses; `full` with the attributes that are not compared. -/
def Wn.shape (full : Bool) (t : Wn) : Shape := t.value opcodes full ⟨.pointer, .node⟩

/-- The same value, whatever the nodes mean. -/
def SameMeaning (t1 t2 : Wn) : Prop :=
  ∀ (V : Type) (meaning : Meaning V), t1.value opcodes true meaning = t2.value opcodes true meaning

/-! ## The trees -/

/-- What WHIRL promises of the nodes of a program: one node at an address, and as many kids as the operator has. -/
structure WellFormed (nodes : Wn → Prop) : Prop where
  kids : ∀ t, nodes t → ∀ kid ∈ t.kids, nodes kid
  one : ∀ t1 t2, nodes t1 → nodes t2 → t1.address = t2.address → t1 = t2
  count : ∀ t, nodes t → opcodes.byAddress t.opcode = false → compared opcodes t.opcode t.kids.length = t.kids.length

/-- The comparison of three trees is that of a preorder, and trees that compare equal have the same value. -/
def CompareRight (a b c : Wn) : Prop :=
  ∃ ab ba bc ac, compareTrees opcodes a a = some 0 ∧ compareTrees opcodes a b = some ab ∧
    compareTrees opcodes b a = some ba ∧ compareTrees opcodes b c = some bc ∧ compareTrees opcodes a c = some ac ∧
    (a.shape opcodes true = b.shape opcodes true → ab = 0) ∧ ba = -ab ∧ (ab ≤ 0 → bc ≤ 0 → ac ≤ 0) ∧
    (ab = 0 → SameMeaning opcodes a b)

/-- The addresses are less than `2 ^ 31` apart, up to multiples of `2 ^ 32`. -/
def Near (x y z : Int) : Prop :=
  ∃ base, (x - base) % 2 ^ 32 < 2 ^ 31 ∧ (y - base) % 2 ^ 32 < 2 ^ 31 ∧ (z - base) % 2 ^ 32 < 2 ^ 31

/-- The nodes differ in what is compared, and the differences of addresses are not cut off. -/
structure Distinguished (nodes : Wn → Prop) : Prop where
  attributes : ∀ a b, nodes a → nodes b → a.shape opcodes false = b.shape opcodes false →
    a.ignored opcodes = b.ignored opcodes
  count : ∀ a b, nodes a → nodes b → opcodes.byAddress a.opcode = false → a.opcode = b.opcode →
    a.keys opcodes = b.keys opcodes → a.kids.map (Wn.shape opcodes false) <+: b.kids.map (Wn.shape opcodes false) →
    a.kids.length = b.kids.length
  congruent : ∀ a b, nodes a → nodes b → opcodes.byAddress a.opcode = true → a.opcode = b.opcode →
    a.address % 2 ^ 32 = b.address % 2 ^ 32 → a.address = b.address
  near : ∀ a b c, nodes a → nodes b → nodes c → opcodes.byAddress a.opcode = true → a.opcode = b.opcode →
    b.opcode = c.opcode → Near a.address b.address c.address

section
variable {opcodes} {nodes : Wn → Prop} {a b c : Wn} {full : Bool} {xs ys zs : List Wn}

theorem Wn.induction {p : Wn → Prop} (h : ∀ t : Wn, (∀ kid ∈ t.kids, p kid) → p t) (t : Wn) : p t := by
  match t with
  | .node address opcode attributes kids =>
    exact h _ fun kid hkid => Wn.induction h kid
termination_by sizeOf t
decreasing_by
  have := List.sizeOf_lt_of_mem (show kid ∈ kids from hkid)
  simp only [Wn.node.sizeOf_spec]
  omega

/-! ## Shapes and values -/

/-- The value of a shape. -/
def Shape.fold {V : Type} (meaning : Meaning V) : Shape → V
  | .pointer address => meaning.pointer address
  | .node opcode keys ignored kids => meaning.node opcode keys ignored (kids.map (Shape.fold meaning))

theorem Wn.value_eq {V : Type} (full : Bool) (meaning : Meaning V) (t : Wn) : t.value opcodes full meaning =
    if opcodes.byAddress t.opcode then meaning.pointer t.address
    else meaning.node t.opcode (t.keys opcodes)
      (if full then t.ignored opcodes else []) (t.kids.map (Wn.value opcodes full meaning)) := by
  obtain ⟨address, opcode, attributes, kids⟩ := t
  rw [Wn.value]
  rfl

theorem Wn.shape_eq (full : Bool) (t : Wn) : t.shape opcodes full =
    if opcodes.byAddress t.opcode then .pointer t.address
    else .node t.opcode (t.keys opcodes)
      (if full then t.ignored opcodes else []) (t.kids.map (Wn.shape opcodes full)) :=
  Wn.value_eq full (⟨Shape.pointer, Shape.node⟩ : Meaning Shape) t

theorem Wn.value_eq_fold {V : Type} (full : Bool) (meaning : Meaning V) (t : Wn) :
    t.value opcodes full meaning = (t.shape opcodes full).fold meaning := by
  induction t using Wn.induction with
  | h t ih =>
    rw [Wn.value_eq, Wn.shape_eq]
    by_cases hp : opcodes.byAddress t.opcode
    · rw [if_pos hp, if_pos hp, Shape.fold]
    · rw [if_neg hp, if_neg hp, Shape.fold, List.map_map]
      congr 1
      exact List.map_congr_left ih

theorem sameMeaning_iff : SameMeaning opcodes a b ↔ a.shape opcodes true = b.shape opcodes true := by
  constructor
  · exact fun h => h Shape ⟨.pointer, .node⟩
  · intro h V meaning
    rw [Wn.value_eq_fold, Wn.value_eq_fold, h]

/-! ## One step of the comparison -/

theorem compareTrees_eq (a b : Wn) : compareTrees opcodes a b =
    if a.address = b.address then some 0
    else if a.opcode < b.opcode then some (-1)
    else if a.opcode > b.opcode then some 1
    else if opcodes.byAddress a.opcode then some (wrap32 (a.address - b.address))
    else if compareInts (a.keys opcodes) (b.keys opcodes) ≠ 0 then some (compareInts (a.keys opcodes) (b.keys opcodes))
    else compareKids opcodes (compared opcodes a.opcode a.kids.length) a.kids b.kids := by
  obtain ⟨address1, opcode1, attributes1, kids1⟩ := a
  obtain ⟨address2, opcode2, attributes2, kids2⟩ := b
  rw [compareTrees]
  rfl

theorem compareTrees_same (h : a.address = b.address) : compareTrees opcodes a b = some 0 := by
  rw [compareTrees_eq, if_pos h]

theorem compareTrees_opcode (h : a.address ≠ b.address) (hop : a.opcode ≠ b.opcode) :
    compareTrees opcodes a b = some (compareInt a.opcode b.opcode) := by
  rw [compareTrees_eq, if_neg h]
  unfold compareInt
  by_cases hlt : a.opcode < b.opcode
  · rw [if_pos hlt, if_pos hlt]
  · rw [if_neg hlt, if_neg hlt, if_pos (by omega), if_pos (by omega)]

theorem compareTrees_pointer (hop : a.opcode = b.opcode) (hp : opcodes.byAddress a.opcode = true) :
    compareTrees opcodes a b = some (wrap32 (a.address - b.address)) := by
  rw [compareTrees_eq]
  by_cases h : a.address = b.address
  · rw [if_pos h, h, Int.sub_self]
    rfl
  · rw [if_neg h, if_neg (by omega), if_neg (by omega), if_pos hp]

theorem keys_length (opcode : Int) (attributes1 attributes2 : Attributes) (kidCount1 kidCount2 : Nat) :
    (keys opcodes opcode attributes1 kidCount1).length = (keys opcodes opcode attributes2 kidCount2).length := by
  unfold keys
  cases opcodes.operator opcode <;> try rfl
  all_goals
    by_cases h : opcodes.desc opcode = .bits
    · simp only [if_pos h, List.length_cons, List.length_append, List.length_nil]
    · simp only [if_neg h, List.length_cons, List.length_append, List.length_nil]

theorem Wn.keys_length (hop : a.opcode = b.opcode) : (a.keys opcodes).length = (b.keys opcodes).length := by
  rw [Wn.keys, Wn.keys, hop]
  exact Simp.keys_length _ _ _ _ _

theorem compareTrees_node {r : Int} (h : a.address ≠ b.address) (hop : a.opcode = b.opcode)
    (hp : opcodes.byAddress a.opcode = false) : compareTrees opcodes a b = some r ↔
      r = firstOf (compareInts (a.keys opcodes) (b.keys opcodes)) r ∧
      (a.keys opcodes = b.keys opcodes →
        compareKids opcodes (compared opcodes a.opcode a.kids.length) a.kids b.kids = some r) := by
  rw [compareTrees_eq, if_neg h, if_neg (by omega), if_neg (by omega), hp, if_neg Bool.false_ne_true,
    ← compareInts_eq_zero (Wn.keys_length hop), firstOf]
  split_ifs with hk
  · rw [Option.some.injEq, eq_comm]
    exact ⟨fun hr => ⟨hr, fun h0 => absurd h0 hk⟩, fun hr => hr.1⟩
  · exact ⟨fun hr => ⟨rfl, fun _ => hr⟩, fun hr => hr.2 (not_not.mp hk)⟩

theorem compareKids_cons {x y : Wn} {n : Nat} {r s : Int} (hr : compareTrees opcodes x y = some r) :
    compareKids opcodes (n + 1) (x :: xs) (y :: ys) = some s ↔
      s = firstOf r s ∧ (r = 0 → compareKids opcodes n xs ys = some s) := by
  rw [compareKids, hr, Option.bind_eq_bind, Option.bind_some, firstOf]
  split_ifs with h0
  · rw [Option.pure_def, Option.some.injEq, eq_comm]
    exact ⟨fun hs => ⟨hs, fun h => absurd h h0⟩, fun hs => hs.1⟩
  · exact ⟨fun hs => ⟨rfl, fun _ => hs⟩, fun hs => hs.2 (not_not.mp h0)⟩

/-! ## Differences of addresses -/

theorem wrap32_sub_of_near {x y base : Int} (hx : (x - base) % 2 ^ 32 < 2 ^ 31) (hy : (y - base) % 2 ^ 32 < 2 ^ 31) :
    wrap32 (x - y) = (x - base) % 2 ^ 32 - (y - base) % 2 ^ 32 := by
  rw [wrap32, Int.bmod_def]
  split_ifs <;> omega

theorem wrap32_sub_nonneg {x y : Int} : wrap32 (y - x) ≤ 0 ∧ wrap32 (x - y) = -wrap32 (y - x) →
    (x - y) % 2 ^ 32 < 2 ^ 31 := by
  rw [wrap32, wrap32, Int.bmod_def, Int.bmod_def]
  rintro ⟨h1, h2⟩
  split_ifs at h1 h2 <;> omega

/-- Three addresses that the differences put in order lie close together: the least is the base. -/
theorem near_of_le {x y z : Int} (hxy : wrap32 (y - x) = -wrap32 (x - y)) (hyz : wrap32 (z - y) = -wrap32 (y - z))
    (hxz : wrap32 (z - x) = -wrap32 (x - z))
    (hzxy : wrap32 (z - x) ≤ 0 → wrap32 (x - y) ≤ 0 → wrap32 (z - y) ≤ 0)
    (hzyx : wrap32 (z - y) ≤ 0 → wrap32 (y - x) ≤ 0 → wrap32 (z - x) ≤ 0) : Near x y z := by
  have hself (base : Int) : (base - base) % 2 ^ 32 < 2 ^ 31 := by omega
  rcases Int.le_total (wrap32 (x - y)) 0 with h1 | h1
  · rcases Int.le_total (wrap32 (x - z)) 0 with h2 | h2
    · exact ⟨x, hself x, wrap32_sub_nonneg ⟨h1, hxy⟩, wrap32_sub_nonneg ⟨h2, hxz⟩⟩
    · have h3 := hzxy (by omega) h1
      exact ⟨z, wrap32_sub_nonneg ⟨by omega, by omega⟩, wrap32_sub_nonneg ⟨h3, by omega⟩, hself z⟩
  · rcases Int.le_total (wrap32 (y - z)) 0 with h2 | h2
    · exact ⟨y, wrap32_sub_nonneg ⟨by omega, by omega⟩, hself y, wrap32_sub_nonneg ⟨h2, hyz⟩⟩
    · have h3 := hzyx (by omega) (by omega)
      exact ⟨z, wrap32_sub_nonneg ⟨h3, by omega⟩, wrap32_sub_nonneg ⟨by omega, by omega⟩, hself z⟩

/-! ## Equal trees -/

theorem shape_pointer_iff (hp : opcodes.byAddress a.opcode = true) : a.shape opcodes full = b.shape opcodes full ↔
    opcodes.byAddress b.opcode = true ∧ a.address = b.address := by
  rw [Wn.shape_eq, Wn.shape_eq full b, if_pos hp]
  split_ifs with hb
  · rw [Shape.pointer.injEq]
    exact ⟨fun h => ⟨hb, h⟩, fun h => h.2⟩
  · exact ⟨fun h => (nomatch h), fun h => absurd h.1 hb⟩

theorem shape_node_iff (hp : opcodes.byAddress a.opcode = false) : a.shape opcodes full = b.shape opcodes full ↔
    a.opcode = b.opcode ∧
    a.keys opcodes = b.keys opcodes ∧
    (full = true → a.ignored opcodes = b.ignored opcodes) ∧
    a.kids.map (Wn.shape opcodes full) = b.kids.map (Wn.shape opcodes full) := by
  rw [Wn.shape_eq, Wn.shape_eq full b, hp, if_neg Bool.false_ne_true]
  by_cases hb : opcodes.byAddress b.opcode = true
  · rw [if_pos hb]
    exact ⟨fun h => (nomatch h), fun h => absurd (h.1 ▸ hb) (hp ▸ Bool.false_ne_true)⟩
  · rw [if_neg hb, Shape.node.injEq]
    cases full
    · exact ⟨fun h => ⟨h.1, h.2.1, fun h' => (nomatch h'), h.2.2.2⟩, fun h => ⟨h.1, h.2.1, rfl, h.2.2.2⟩⟩
    · exact ⟨fun h => ⟨h.1, h.2.1, fun _ => h.2.2.1, h.2.2.2⟩, fun h => ⟨h.1, h.2.1, h.2.2.1 rfl, h.2.2.2⟩⟩

/-- Shapes agree with more attributes where these are the same. -/
theorem Wn.shape_congr {full' : Bool} (hkids : ∀ t, nodes t → ∀ kid ∈ t.kids, nodes kid)
    (hsame : ∀ a b, nodes a → nodes b → a.shape opcodes full = b.shape opcodes full → full' = true →
      a.ignored opcodes = b.ignored opcodes) (a : Wn) :
    ∀ b, nodes a → nodes b → a.shape opcodes full = b.shape opcodes full →
      a.shape opcodes full' = b.shape opcodes full' := by
  have hmap {xs ys : List Wn} (hxs : ∀ x ∈ xs, ∀ y ∈ ys, x.shape opcodes full = y.shape opcodes full →
      x.shape opcodes full' = y.shape opcodes full') :
      xs.map (Wn.shape opcodes full) = ys.map (Wn.shape opcodes full) →
        xs.map (Wn.shape opcodes full') = ys.map (Wn.shape opcodes full') := by
    induction xs generalizing ys with
    | nil =>
      intro h
      rw [List.map_eq_nil_iff.mp h.symm]
    | cons x xs ih =>
      cases ys with
      | nil => exact fun h => nomatch h
      | cons y ys =>
        intro h
        obtain ⟨h1, h2⟩ := List.cons.inj h
        rw [List.map_cons, List.map_cons, hxs x List.mem_cons_self y List.mem_cons_self h1,
          ih (fun x' hx' y' hy' => hxs x' (List.mem_cons_of_mem _ hx') y' (List.mem_cons_of_mem _ hy')) h2]
  induction a using Wn.induction with
  | h a ih =>
    intro b ha hb h
    by_cases hp : opcodes.byAddress a.opcode = true
    · rwa [shape_pointer_iff hp] at h ⊢
    · rw [Bool.not_eq_true] at hp
      have hign := hsame a b ha hb h
      rw [shape_node_iff hp] at h ⊢
      refine ⟨h.1, h.2.1, hign, hmap (fun x hx y hy => ?_) h.2.2.2⟩
      exact ih x hx y (hkids a ha x hx) (hkids b hb y hy)

theorem shape_false_of_true (h : a.shape opcodes true = b.shape opcodes true) :
    a.shape opcodes false = b.shape opcodes false :=
  @Wn.shape_congr opcodes (fun _ => True) true false (fun _ _ _ _ => trivial)
    (fun _ _ _ _ _ h => absurd h Bool.false_ne_true) a b trivial trivial h

theorem Distinguished.shape_true (hw : WellFormed opcodes nodes) (hd : Distinguished opcodes nodes) (ha : nodes a)
    (hb : nodes b) (h : a.shape opcodes false = b.shape opcodes false) :
    a.shape opcodes true = b.shape opcodes true :=
  Wn.shape_congr hw.kids (fun a b ha hb h _ => hd.attributes a b ha hb h) a b ha hb h

theorem compareKids_of_prefix (h : ∀ x ∈ xs, ∀ y ∈ ys, x.shape opcodes false = y.shape opcodes false →
    compareTrees opcodes x y = some 0)
    (hp : xs.map (Wn.shape opcodes false) <+: ys.map (Wn.shape opcodes false)) :
    compareKids opcodes xs.length xs ys = some 0 := by
  induction xs generalizing ys with
  | nil => rfl
  | cons x xs ih =>
    cases ys with
    | nil => cases List.prefix_nil.mp hp
    | cons y ys =>
      obtain ⟨h1, h2⟩ := List.cons_prefix_cons.mp hp
      have h0 := h x List.mem_cons_self y List.mem_cons_self h1
      refine (compareKids_cons h0).mpr ⟨rfl, fun _ => ih (fun x' hx' y' hy' => ?_) h2⟩
      exact h x' (List.mem_cons_of_mem _ hx') y' (List.mem_cons_of_mem _ hy')

theorem compareKids_eq_none (h : ∀ x ∈ xs, ∀ y ∈ ys, x.shape opcodes false = y.shape opcodes false →
    compareTrees opcodes x y = some 0)
    (hp : ys.map (Wn.shape opcodes false) <+: xs.map (Wn.shape opcodes false)) (hlt : ys.length < xs.length) :
    compareKids opcodes xs.length xs ys = none := by
  induction xs generalizing ys with
  | nil => exact absurd hlt (Nat.not_lt_zero _)
  | cons x xs ih =>
    cases ys with
    | nil => rfl
    | cons y ys =>
      obtain ⟨h1, h2⟩ := List.cons_prefix_cons.mp hp
      rw [List.length_cons, compareKids, h x List.mem_cons_self y List.mem_cons_self h1.symm]
      exact ih (fun x' hx' y' hy' => h x' (List.mem_cons_of_mem _ hx') y' (List.mem_cons_of_mem _ hy')) h2
        (Nat.lt_of_succ_lt_succ hlt)

theorem compareTrees_of_shape (hw : WellFormed opcodes nodes) (a : Wn) : ∀ b, nodes a → nodes b →
    a.shape opcodes false = b.shape opcodes false → compareTrees opcodes a b = some 0 := by
  induction a using Wn.induction with
  | h a ih =>
    intro b ha hb h
    by_cases haddr : a.address = b.address
    · exact compareTrees_same haddr
    · by_cases hp : opcodes.byAddress a.opcode = true
      · exact absurd ((shape_pointer_iff hp).mp h).2 haddr
      · rw [Bool.not_eq_true] at hp
        obtain ⟨hop, hkeys, -, hkids⟩ := (shape_node_iff hp).mp h
        refine (compareTrees_node haddr hop hp).mpr ⟨?_, fun _ => ?_⟩
        · rw [hkeys, (compareInts_eq_zero rfl).mpr rfl]
          rfl
        · rw [hw.count a ha hp]
          refine compareKids_of_prefix (fun x hx y hy => ?_) (hkids ▸ List.prefix_rfl)
          exact ih x hx y (hw.kids a ha x hx) (hw.kids b hb y hy)

/-! ## Two trees -/

/-- Two trees compare the one way as the other, and equal just where they have the same shape. -/
def Agree (opcodes : Opcodes) (a b : Wn) : Prop :=
  ∃ r, compareTrees opcodes a b = some r ∧ compareTrees opcodes b a = some (-r) ∧
    (r = 0 ↔ a.shape opcodes false = b.shape opcodes false)

/-- Where the kids of `xs` compare equal to those of `ys`, there are as many. -/
def SameCount (opcodes : Opcodes) (xs ys : List Wn) : Prop :=
  xs.map (Wn.shape opcodes false) <+: ys.map (Wn.shape opcodes false) → xs.length = ys.length

theorem SameCount.tail {x y : Wn} (h : SameCount opcodes (x :: xs) (y :: ys))
    (hxy : x.shape opcodes false = y.shape opcodes false) : SameCount opcodes xs ys :=
  fun hp => Nat.succ.inj (h (List.cons_prefix_cons.mpr ⟨hxy, hp⟩))

theorem SameCount.eq_nil (h : SameCount opcodes [] ys) : ys = [] :=
  List.length_eq_zero_iff.mp (h List.nil_prefix).symm

theorem compareKids_agree (h : ∀ x ∈ xs, ∀ y ∈ ys, Agree opcodes x y) (hxy : SameCount opcodes xs ys)
    (hyx : SameCount opcodes ys xs) : ∃ r, compareKids opcodes xs.length xs ys = some r ∧
    compareKids opcodes ys.length ys xs = some (-r) ∧
    (r = 0 ↔ xs.map (Wn.shape opcodes false) = ys.map (Wn.shape opcodes false)) := by
  induction xs generalizing ys with
  | nil =>
    rw [hxy.eq_nil]
    exact ⟨0, rfl, rfl, iff_of_true rfl rfl⟩
  | cons x xs ih =>
    cases ys with
    | nil => cases hyx.eq_nil
    | cons y ys =>
      obtain ⟨r, hr, hr', h0⟩ := h x List.mem_cons_self y List.mem_cons_self
      rw [List.map_cons, List.map_cons, List.cons.injEq, ← h0]
      by_cases hz : r = 0
      · obtain ⟨s, hs, hs', hs0⟩ := ih
          (fun x' hx' y' hy' => h x' (List.mem_cons_of_mem _ hx') y' (List.mem_cons_of_mem _ hy'))
          (hxy.tail (h0.mp hz)) (hyx.tail (h0.mp hz).symm)
        refine ⟨s, (compareKids_cons hr).mpr ⟨?_, fun _ => hs⟩,
          (compareKids_cons hr').mpr ⟨?_, fun _ => hs'⟩, ?_⟩
        · rw [firstOf, if_neg (not_not.mpr hz)]
        · rw [firstOf, if_neg (by omega)]
        · rw [hs0, and_iff_right hz]
      · refine ⟨r, (compareKids_cons hr).mpr ⟨?_, fun h => absurd h hz⟩,
          (compareKids_cons hr').mpr ⟨?_, fun h => absurd h (by omega)⟩, ?_⟩
        · rw [firstOf, if_pos hz]
        · rw [firstOf, if_pos (by omega)]
        · exact iff_of_false hz fun h => hz h.1

theorem Distinguished.sameCount (hd : Distinguished opcodes nodes) (ha : nodes a) (hb : nodes b)
    (hp : opcodes.byAddress a.opcode = false) (hop : a.opcode = b.opcode)
    (hkeys : a.keys opcodes = b.keys opcodes) :
    SameCount opcodes a.kids b.kids ∧ SameCount opcodes b.kids a.kids :=
  ⟨hd.count a b ha hb hp hop hkeys, hd.count b a hb ha (hop ▸ hp) hop.symm hkeys.symm⟩

theorem wrap32_swap {x y : Int} (h : Near x y y) : wrap32 (y - x) = -wrap32 (x - y) := by
  obtain ⟨base, hx, hy, -⟩ := h
  rw [wrap32_sub_of_near hx hy, wrap32_sub_of_near hy hx]
  omega

theorem agree_opcode (haddr : a.address ≠ b.address) (hop : a.opcode ≠ b.opcode) : Agree opcodes a b := by
  refine ⟨_, compareTrees_opcode haddr hop, ?_, ?_⟩
  · rw [compareTrees_opcode haddr.symm hop.symm, compareInt_swap]
  · rw [compareInt_eq_zero]
    refine iff_of_false hop fun h => ?_
    by_cases hp : opcodes.byAddress a.opcode = true
    · exact haddr ((shape_pointer_iff hp).mp h).2
    · rw [Bool.not_eq_true] at hp
      exact hop ((shape_node_iff hp).mp h).1

theorem agree_keys (haddr : a.address ≠ b.address) (hop : a.opcode = b.opcode)
    (hp : opcodes.byAddress a.opcode = false) (hkeys : a.keys opcodes ≠ b.keys opcodes) : Agree opcodes a b := by
  have hz : compareInts (a.keys opcodes) (b.keys opcodes) ≠ 0 :=
    (compareInts_eq_zero (Wn.keys_length hop)).not.mpr hkeys
  refine ⟨compareInts (a.keys opcodes) (b.keys opcodes),
    (compareTrees_node haddr hop hp).mpr ⟨?_, fun h => absurd h hkeys⟩,
    (compareTrees_node haddr.symm hop.symm (hop ▸ hp)).mpr ⟨?_, fun h => absurd h.symm hkeys⟩, ?_⟩
  · rw [firstOf, if_pos hz]
  · rw [compareInts_swap (a.keys opcodes), firstOf, if_pos (by omega)]
  · exact iff_of_false hz fun h => hkeys ((shape_node_iff hp).mp h).2.1

theorem Distinguished.agree (hw : WellFormed opcodes nodes) (hd : Distinguished opcodes nodes) (a : Wn) :
    ∀ b, nodes a → nodes b → Agree opcodes a b := by
  induction a using Wn.induction with
  | h a ih =>
    intro b ha hb
    by_cases haddr : a.address = b.address
    · obtain rfl := hw.one a b ha hb haddr
      exact ⟨0, compareTrees_same rfl, compareTrees_same rfl, iff_of_true rfl rfl⟩
    by_cases hop : a.opcode = b.opcode
    swap
    · exact agree_opcode haddr hop
    by_cases hp : opcodes.byAddress a.opcode = true
    · have hswap := wrap32_swap (hd.near a b b ha hb hb hp hop rfl)
      refine ⟨_, compareTrees_pointer hop hp, ?_, ?_⟩
      · rw [compareTrees_pointer hop.symm (hop ▸ hp), hswap]
      · refine iff_of_false (fun h0 => haddr (hd.congruent a b ha hb hp hop ?_)) fun h =>
          haddr ((shape_pointer_iff hp).mp h).2
        have := wrap32_emod (a.address - b.address)
        omega
    rw [Bool.not_eq_true] at hp
    have hp' : opcodes.byAddress b.opcode = false := hop ▸ hp
    by_cases hkeys : a.keys opcodes = b.keys opcodes
    swap
    · exact agree_keys haddr hop hp hkeys
    obtain ⟨hab, hba⟩ := hd.sameCount ha hb hp hop hkeys
    obtain ⟨r, hr, hr', h0⟩ := compareKids_agree (fun x hx y hy =>
      ih x hx y (hw.kids a ha x hx) (hw.kids b hb y hy)) hab hba
    have hz (t : Wn) : compareInts (t.keys opcodes) (t.keys opcodes) = 0 := (compareInts_eq_zero rfl).mpr rfl
    refine ⟨r, (compareTrees_node haddr hop hp).mpr ⟨?_, fun _ => ?_⟩,
      (compareTrees_node (Ne.symm haddr) hop.symm hp').mpr ⟨?_, fun _ => ?_⟩, ?_⟩
    · rw [hkeys, hz]
      rfl
    · rw [hw.count a ha hp, hr]
    · rw [hkeys, hz]
      rfl
    · rw [hw.count b hb hp', hr']
    · rw [h0, shape_node_iff hp]
      exact ⟨fun h => ⟨hop, hkeys, fun h' => absurd h' Bool.false_ne_true, h⟩, fun h => h.2.2.2⟩

/-! ## Three trees -/

/-- The comparisons of three trees fit together. -/
def Chain (opcodes : Opcodes) (a b c : Wn) : Prop :=
  ∀ ab bc ac, compareTrees opcodes a b = some ab → compareTrees opcodes b c = some bc →
    compareTrees opcodes a c = some ac → Ordered ab bc ac

theorem compareKids_ordered {r s t : Int} (hxy : ∀ x ∈ xs, ∀ y ∈ ys, Agree opcodes x y)
    (hyz : ∀ y ∈ ys, ∀ z ∈ zs, Agree opcodes y z) (hxz : ∀ x ∈ xs, ∀ z ∈ zs, Agree opcodes x z)
    (h : ∀ x ∈ xs, ∀ y ∈ ys, ∀ z ∈ zs, Chain opcodes x y z) (cxy : SameCount opcodes xs ys)
    (cyx : SameCount opcodes ys xs) (cyz : SameCount opcodes ys zs) (czy : SameCount opcodes zs ys)
    (hr : compareKids opcodes xs.length xs ys = some r) (hs : compareKids opcodes ys.length ys zs = some s)
    (ht : compareKids opcodes xs.length xs zs = some t) : Ordered r s t := by
  induction xs generalizing ys zs r s t with
  | nil =>
    obtain rfl := cxy.eq_nil
    obtain rfl := Option.some.inj hr
    obtain rfl := Option.some.inj hs
    obtain rfl := Option.some.inj ht
    exact ordered_sub 0 0 0
  | cons x xs ih =>
    cases ys with
    | nil => cases cyx.eq_nil
    | cons y ys =>
      cases zs with
      | nil => cases czy.eq_nil
      | cons z zs =>
        obtain ⟨r1, hr1, -, hr0⟩ := hxy x List.mem_cons_self y List.mem_cons_self
        obtain ⟨s1, hs1, -, hs0⟩ := hyz y List.mem_cons_self z List.mem_cons_self
        obtain ⟨t1, ht1, -, -⟩ := hxz x List.mem_cons_self z List.mem_cons_self
        obtain ⟨hr, hr'⟩ := (compareKids_cons hr1).mp hr
        obtain ⟨hs, hs'⟩ := (compareKids_cons hs1).mp hs
        obtain ⟨ht, ht'⟩ := (compareKids_cons ht1).mp ht
        have ho := h x List.mem_cons_self y List.mem_cons_self z List.mem_cons_self r1 s1 t1 hr1 hs1 ht1
        rw [hr, hs, ht]
        refine ho.firstOf fun h1 h2 => ?_
        refine ih (fun x' hx y' hy => hxy x' (List.mem_cons_of_mem _ hx) y' (List.mem_cons_of_mem _ hy))
          (fun y' hy z' hz => hyz y' (List.mem_cons_of_mem _ hy) z' (List.mem_cons_of_mem _ hz))
          (fun x' hx z' hz => hxz x' (List.mem_cons_of_mem _ hx) z' (List.mem_cons_of_mem _ hz))
          (fun x' hx y' hy z' hz =>
            h x' (List.mem_cons_of_mem _ hx) y' (List.mem_cons_of_mem _ hy) z' (List.mem_cons_of_mem _ hz))
          (cxy.tail (hr0.mp h1)) (cyx.tail (hr0.mp h1).symm) (cyz.tail (hs0.mp h2)) (czy.tail (hs0.mp h2).symm)
          (hr' h1) (hs' h2) (ht' ?_)
        rw [ho.left h1, h2]

theorem ordered_wrap32 {x y z : Int} (h : Near x y z) :
    Ordered (wrap32 (x - y)) (wrap32 (y - z)) (wrap32 (x - z)) := by
  obtain ⟨base, hx, hy, hz⟩ := h
  rw [wrap32_sub_of_near hx hy, wrap32_sub_of_near hy hz, wrap32_sub_of_near hx hz]
  exact ordered_sub _ _ _

/-- The comparison of distinct nodes: opcodes first, then what nodes of one opcode are compared by. -/
theorem compareTrees_firstOf {r : Int} (haddr : a.address ≠ b.address) (h : compareTrees opcodes a b = some r) :
    r = firstOf (compareInt a.opcode b.opcode) r := by
  by_cases hop : a.opcode = b.opcode
  · rw [firstOf, if_neg (not_not.mpr (compareInt_eq_zero.mpr hop))]
  · rw [compareTrees_opcode haddr hop] at h
    rw [firstOf, if_pos (compareInt_eq_zero.not.mpr hop)]
    exact (Option.some.inj h).symm

theorem Distinguished.chain (hw : WellFormed opcodes nodes) (hd : Distinguished opcodes nodes) (a : Wn) :
    ∀ b c, nodes a → nodes b → nodes c → Chain opcodes a b c := by
  induction a using Wn.induction with
  | h a ih =>
    intro b c ha hb hc ab bc ac hab hbc hac
    by_cases eab : a.address = b.address
    · obtain rfl := hw.one a b ha hb eab
      rw [compareTrees_same rfl] at hab
      obtain rfl := Option.some.inj hab
      obtain rfl := Option.some.inj (hbc.symm.trans hac)
      constructor <;> omega
    by_cases ebc : b.address = c.address
    · obtain rfl := hw.one b c hb hc ebc
      rw [compareTrees_same rfl] at hbc
      obtain rfl := Option.some.inj hbc
      obtain rfl := Option.some.inj (hab.symm.trans hac)
      constructor <;> omega
    by_cases eac : a.address = c.address
    · obtain rfl := hw.one a c ha hc eac
      obtain ⟨r, hr, hr', -⟩ := hd.agree hw a b ha hb
      rw [compareTrees_same rfl] at hac
      obtain rfl := Option.some.inj hac
      obtain rfl := Option.some.inj (hab.symm.trans hr)
      obtain rfl := Option.some.inj (hbc.symm.trans hr')
      constructor <;> omega
    rw [compareTrees_firstOf eab hab, compareTrees_firstOf ebc hbc, compareTrees_firstOf eac hac]
    refine (ordered_compareInt _ _ _).firstOf fun h1 h2 => ?_
    have opab := compareInt_eq_zero.mp h1
    have opbc := compareInt_eq_zero.mp h2
    by_cases hp : opcodes.byAddress a.opcode = true
    · rw [compareTrees_pointer opab hp] at hab
      rw [compareTrees_pointer opbc (opab ▸ hp)] at hbc
      rw [compareTrees_pointer (opab.trans opbc) hp] at hac
      obtain rfl := Option.some.inj hab
      obtain rfl := Option.some.inj hbc
      obtain rfl := Option.some.inj hac
      exact ordered_wrap32 (hd.near a b c ha hb hc hp opab opbc)
    rw [Bool.not_eq_true] at hp
    have hp' : opcodes.byAddress b.opcode = false := opab ▸ hp
    obtain ⟨rab, kab⟩ := (compareTrees_node eab opab hp).mp hab
    obtain ⟨rbc, kbc⟩ := (compareTrees_node ebc opbc hp').mp hbc
    obtain ⟨rac, kac⟩ := (compareTrees_node eac (opab.trans opbc) hp).mp hac
    rw [rab, rbc, rac]
    refine (ordered_compareInts (Wn.keys_length opab) (Wn.keys_length opbc)).firstOf fun k1 k2 => ?_
    have keysab := (compareInts_eq_zero (Wn.keys_length opab)).mp k1
    have keysbc := (compareInts_eq_zero (Wn.keys_length opbc)).mp k2
    obtain ⟨cab, cba⟩ := hd.sameCount ha hb hp opab keysab
    obtain ⟨cbc, ccb⟩ := hd.sameCount hb hc hp' opbc keysbc
    have hagree {u v : Wn} (hu : nodes u) (hv : nodes v) (x : Wn) (hx : x ∈ u.kids) (y : Wn) (hy : y ∈ v.kids) :
        Agree opcodes x y := hd.agree hw x y (hw.kids u hu x hx) (hw.kids v hv y hy)
    rw [hw.count a ha hp] at kab kac
    rw [hw.count b hb hp'] at kbc
    refine compareKids_ordered (hagree ha hb) (hagree hb hc) (hagree ha hc) (fun x hx y hy z hz => ?_) cab cba cbc ccb
      (kab keysab) (kbc keysbc) (kac (keysab.trans keysbc))
    exact ih x hx y z (hw.kids a ha x hx) (hw.kids b hb y hy) (hw.kids c hc z hz)

/-! ## All trees of a program -/

theorem CompareRight.swap {r : Int} (h : CompareRight opcodes a b c) (hr : compareTrees opcodes a b = some r) :
    compareTrees opcodes b a = some (-r) := by
  obtain ⟨ab, ba, bc, ac, -, hab, hba, -, -, -, rfl, -⟩ := h
  rw [hba, Option.some.inj (hr.symm.trans hab)]

theorem CompareRight.shape_eq (h : CompareRight opcodes a b c) (h0 : compareTrees opcodes a b = some 0) :
    a.shape opcodes true = b.shape opcodes true := by
  obtain ⟨ab, ba, bc, ac, -, hab, -, -, -, -, -, -, hmean⟩ := h
  exact sameMeaning_iff.mp (hmean (Option.some.inj (hab.symm.trans h0)))

theorem CompareRight.le {r s t : Int} (h : CompareRight opcodes a b c) (hab : compareTrees opcodes a b = some r)
    (hbc : compareTrees opcodes b c = some s) (hac : compareTrees opcodes a c = some t) (h1 : r ≤ 0) (h2 : s ≤ 0) :
    t ≤ 0 := by
  obtain ⟨ab, ba, bc, ac, -, hab', -, hbc', hac', -, -, hle, -⟩ := h
  obtain rfl := Option.some.inj (hab.symm.trans hab')
  obtain rfl := Option.some.inj (hbc.symm.trans hbc')
  obtain rfl := Option.some.inj (hac.symm.trans hac')
  exact hle h1 h2

/-- The comparison is a preorder that implies equal values just where the nodes of the program are distinguished. -/
theorem compareTrees_iff (hw : WellFormed opcodes nodes) :
    (∀ a b c, nodes a → nodes b → nodes c → CompareRight opcodes a b c) ↔ Distinguished opcodes nodes := by
  constructor
  · intro h
    constructor
    · intro a b ha hb hshape
      have htrue := (h a b b ha hb hb).shape_eq (compareTrees_of_shape hw a b ha hb hshape)
      by_cases hp : opcodes.byAddress a.opcode = true
      · rw [hw.one a b ha hb ((shape_pointer_iff hp).mp hshape).2]
      · rw [Bool.not_eq_true] at hp
        exact ((shape_node_iff hp).mp htrue).2.2.1 rfl
    · intro a b ha hb hp hop hkeys hpre
      by_contra hne
      by_cases haddr : a.address = b.address
      · rw [hw.one a b ha hb haddr] at hne
        exact hne rfl
      obtain ⟨ab, ba, bc, ac, -, -, hba, -⟩ := h a b b ha hb hb
      have hlt : a.kids.length < b.kids.length := by
        have := hpre.length_le
        rw [List.length_map, List.length_map] at this
        omega
      have hp' : opcodes.byAddress b.opcode = false := hop ▸ hp
      have hk := ((compareTrees_node (Ne.symm haddr) hop.symm hp').mp hba).2 hkeys.symm
      rw [hw.count b hb hp', compareKids_eq_none (fun x hx y hy =>
        compareTrees_of_shape hw x y (hw.kids b hb x hx) (hw.kids a ha y hy)) hpre hlt] at hk
      exact nomatch hk
    · intro a b ha hb hp hop hmod
      have hz : wrap32 (a.address - b.address) = 0 := by
        rw [wrap32, Int.bmod_def]
        split_ifs <;> omega
      have hab := compareTrees_pointer hop hp
      rw [hz] at hab
      exact ((shape_pointer_iff hp).mp ((h a b b ha hb hb).shape_eq hab)).2
    · intro a b c ha hb hc hp hab hbc
      have hptr {u v : Wn} (hu : u.opcode = a.opcode) (hv : v.opcode = a.opcode) :
          compareTrees opcodes u v = some (wrap32 (u.address - v.address)) :=
        compareTrees_pointer (hu.trans hv.symm) (hu ▸ hp)
      have hswap {u v : Wn} (nu : nodes u) (nv : nodes v) (hu : u.opcode = a.opcode) (hv : v.opcode = a.opcode) :
          wrap32 (v.address - u.address) = -wrap32 (u.address - v.address) :=
        Option.some.inj ((hptr hv hu).symm.trans ((h u v v nu nv nv).swap (hptr hu hv)))
      have hb' := hab.symm
      have hc' := hbc.symm.trans hb'
      exact near_of_le (hswap ha hb rfl hb') (hswap hb hc hb' hc') (hswap ha hc rfl hc')
        ((h c a b hc ha hb).le (hptr hc' rfl) (hptr rfl hb') (hptr hc' hb'))
        ((h c b a hc hb ha).le (hptr hc' hb') (hptr hb' rfl) (hptr hc' rfl))
  · intro hd a b c ha hb hc
    obtain ⟨ab, hab, hba, h0⟩ := hd.agree hw a b ha hb
    obtain ⟨bc, hbc, -, -⟩ := hd.agree hw b c hb hc
    obtain ⟨ac, hac, -, -⟩ := hd.agree hw a c ha hc
    have ho := hd.chain hw a b c ha hb hc ab bc ac hab hbc hac
    refine ⟨ab, -ab, bc, ac, compareTrees_same rfl, hab, hba, hbc, hac, fun h => ?_, rfl, ho.le, fun h => ?_⟩
    · exact h0.mpr (shape_false_of_true h)
    · exact sameMeaning_iff.mpr (hd.shape_true hw ha hb (h0.mp h))

end

/-! ## Two bit fields -/

/-- Opcode 0 is `LDBITS`. -/
def bitsTable : Opcodes where
  operator opcode := if opcode = 0 then .ldbits else if opcode = 1 then .intconst else .other
  desc _ := .scalar
  isExpression _ := true

/-- The bits from bit 0 on at offset 0 of a symbol. -/
def ldbits (address bitSize : Int) : Wn := .node address 0 { bitSize := bitSize, stIdx := 1 } []

def intconst (address constVal : Int) : Wn := .node address 1 { constVal := constVal } []

/-- The constants 3 and 5 compare right. -/
theorem compareTrees_intconst : CompareRight bitsTable (intconst 0 3) (intconst 64 5) (intconst 128 3) := by
  have hw : WellFormed bitsTable fun t => t = intconst 0 3 ∨ t = intconst 64 5 ∨ t = intconst 128 3 := by
    constructor
    · rintro t (rfl | rfl | rfl) kid hkid <;> cases hkid
    · rintro t1 t2 (rfl | rfl | rfl) (rfl | rfl | rfl) h <;> first | rfl | cases h
    · rintro t (rfl | rfl | rfl) - <;> rfl
  refine (compareTrees_iff hw).mpr ?_ _ _ _ (.inl rfl) (.inr (.inl rfl)) (.inr (.inr rfl))
  constructor
  · rintro a b (rfl | rfl | rfl) (rfl | rfl | rfl) - <;> rfl
  · rintro a b (rfl | rfl | rfl) (rfl | rfl | rfl) - - - - <;> rfl
  · rintro a b (rfl | rfl | rfl) - h <;> cases h
  · rintro a b c (rfl | rfl | rfl) - - h <;> cases h

/-- The 8 bits and the 16 bits from the same bit of the same symbol compare equal. -/
theorem compareTrees_bitSize : ¬∀ nodes : Wn → Prop, WellFormed bitsTable nodes →
    ∀ a b c, nodes a → nodes b → nodes c → CompareRight bitsTable a b c := by
  intro h
  have hw : WellFormed bitsTable fun t => t = ldbits 0 8 ∨ t = ldbits 64 16 := by
    constructor
    · rintro t (rfl | rfl) kid hkid <;> cases hkid
    · rintro t1 t2 (rfl | rfl) (rfl | rfl) h <;> first | rfl | cases h
    · rintro t (rfl | rfl) - <;> rfl
  have heq := (h _ hw (ldbits 0 8) (ldbits 64 16) (ldbits 64 16) (.inl rfl) (.inr rfl) (.inr rfl)).shape_eq rfl
  have hbits : [(8 : Int)] = [16] := ((shape_node_iff (a := ldbits 0 8) rfl).mp heq).2.2.1 rfl
  exact absurd hbits (by decide)

end Path64.Simp

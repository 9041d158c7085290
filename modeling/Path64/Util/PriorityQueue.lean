import Path64.Lib.Checked
import Path64.Lib.Heap

/-!
# The priority queue

`priority_queue.c`: a heap in a vector, `heap_vector[i - 1]` the `i`-th element.

* `Client` : the functions a client supplies; the comparison reads the priorities `σ`, which are the client's;
* `Prq` : the queue, with the client's priorities and the index fields of its elements;
* `upheap`, `downheap`, `deleteTop`, `insert`, `remove`, `update` : the operations;
* `Reach` : the runs; `queue_correct` : what holds after each.
-/

namespace Path64.PriorityQueue

open Lib

/-- What the client of a queue supplies. The index functions may be `NULL`. -/
structure Client (σ α : Type) where
  comparisonFn : σ → α → α → Bool
  order : ∀ p, IsStrictWeakOrder α fun a b => comparisonFn p a b = true
  getIndexFn : Bool
  setIndexFn : Bool
  get_set : getIndexFn = true → setIndexFn = true

/-- A queue. The priorities and the index fields belong to the client; a field is `none` until it is set. -/
structure Prq (σ α : Type) where
  size : Nat
  allocatedSize : Nat
  expansionFactor : Int
  heapVector : Nat → α
  priorities : σ
  index : α → Option Nat

/-- The assertions. -/
inductive Fault where
  | outOfBounds | emptyQueue | invalidIndex | notInQueue
  deriving DecidableEq, Repr

variable {σ α : Type} [DecidableEq α]

/-! ## The operations -/

/-- `PRQ_Ith`. -/
def Prq.ith (q : Prq σ α) (i : Nat) : α := q.heapVector (i - 1)

/-- `PRQ_Set_Ith`. -/
def setIth (c : Client σ α) (q : Prq σ α) (i : Nat) (element : α) : Prq σ α :=
  { q with
    index := if c.setIndexFn then Function.update q.index element (some i) else q.index
    heapVector := Function.update q.heapVector (i - 1) element }

/-- The comparison at the queue's present priorities. -/
def Prq.precedes (c : Client σ α) (q : Prq σ α) (a b : α) : Prop := c.comparisonFn q.priorities a b = true

instance (c : Client σ α) (q : Prq σ α) (a b : α) : Decidable (q.precedes c a b) :=
  inferInstanceAs (Decidable (_ = true))

/-- The loop of `PRQ_Upheap`; the element is put at the returned index afterwards. -/
def upheapLoop (c : Client σ α) (q : Prq σ α) (element : α) (index : Nat) : Prq σ α × Nat :=
  if 1 < index then
    let parent := q.ith (index / 2)
    if q.precedes c element parent then upheapLoop c (setIth c q index parent) element (index / 2)
    else (q, index)
  else (q, index)
termination_by index

/-- `PRQ_Upheap`. -/
def upheap (c : Client σ α) (q : Prq σ α) (index : Nat) : Except Fault (Prq σ α × Nat) := do
  require .outOfBounds (index ≤ q.size ∧ 0 < index)
  let r := upheapLoop c q (q.ith index) index
  return (setIth c r.1 r.2 (q.ith index), r.2)

/-- The loop of `PRQ_Downheap`. -/
def downheapLoop (c : Client σ α) (q : Prq σ α) (element : α) (index : Nat) (hpos : 0 < index) : Prq σ α × Nat :=
  let left := index * 2
  let right := left + 1
  if q.size < left then (q, index)
  else if right ≤ q.size ∧ q.precedes c (q.ith right) (q.ith left) then
    if q.precedes c (q.ith right) element then
      downheapLoop c (setIth c q index (q.ith right)) element right (by omega)
    else (q, index)
  else if q.precedes c (q.ith left) element then
    downheapLoop c (setIth c q index (q.ith left)) element left (Nat.mul_pos hpos Nat.two_pos)
  else (q, index)
termination_by q.size - index
decreasing_by
  · show q.size - (index * 2 + 1) < q.size - index
    omega
  · show q.size - index * 2 < q.size - index
    omega

/-- `PRQ_Downheap`. -/
def downheap (c : Client σ α) (q : Prq σ α) (index : Nat) : Except Fault (Prq σ α × Nat) :=
  if h : index ≤ q.size ∧ 0 < index then
    let r := downheapLoop c q (q.ith index) index h.2
    .ok (setIth c r.1 r.2 (q.ith index), r.2)
  else .error .outOfBounds

/-- `PRQ_Initialize`; the vector holds what its memory held. -/
def prqInitialize (initialSize expansionFactor : Int) (memory : Nat → α) (priorities : σ) (index : α → Option Nat) :
    Prq σ α where
  size := 0
  allocatedSize := if initialSize ≤ 0 then 200 else initialSize.toNat
  expansionFactor := if expansionFactor ≤ 100 then 200 else expansionFactor
  heapVector := memory
  priorities := priorities
  index := index

/-- `PRQ_Delete_Top`. -/
def deleteTop (c : Client σ α) (q : Prq σ α) : Except Fault (α × Prq σ α) := do
  require .emptyQueue (0 < q.size)
  if q.size = 1 then return (q.ith 1, { q with size := 0 })
  else
    let r ← downheap c (setIth c { q with size := q.size - 1 } 1 (q.ith q.size)) 1
    return (q.ith 1, r.1)

/-- The size a full vector grows to; the product is a 32-bit one. -/
def newSize (size : Nat) (expansionFactor : Int) : Nat :=
  let newSize := ((size * expansionFactor).bmod (2 ^ 32)).tdiv 100
  if newSize ≤ size then size + 10 else newSize.toNat

def grow (q : Prq σ α) : Prq σ α :=
  if q.size = q.allocatedSize then { q with allocatedSize := newSize q.size q.expansionFactor } else q

/-- `PRQ_Insert`. -/
def insert (c : Client σ α) (q : Prq σ α) (element : α) : Except Fault (Prq σ α) := do
  let r ← upheap c (setIth c { grow q with size := q.size + 1 } (q.size + 1) element) (q.size + 1)
  return r.1

/-- Where `PRQ_Remove` and `PRQ_Update` find an element. -/
def findIndex (c : Client σ α) (q : Prq σ α) (element : α) : Except Fault Nat :=
  if c.getIndexFn then
    match q.index element with
    | some index => if q.ith index = element then .ok index else .error .invalidIndex
    | none => .error .invalidIndex
  else
    match (List.range' 1 q.size).find? fun i => q.ith i = element with
    | some index => .ok index
    | none => .error .notInQueue

/-- Up, or if it stays where it is, down. -/
def resift (c : Client σ α) (q : Prq σ α) (index : Nat) : Except Fault (Prq σ α) := do
  let r ← upheap c q index
  if index = r.2 then
    let r ← downheap c r.1 index
    return r.1
  else return r.1

/-- `PRQ_Remove`. -/
def remove (c : Client σ α) (q : Prq σ α) (element : α) : Except Fault (Prq σ α) := do
  require .emptyQueue (0 < q.size)
  let index ← findIndex c q element
  if index = q.size then return { q with size := q.size - 1 }
  else resift c (setIth c { q with size := q.size - 1 } index (q.ith q.size)) index

/-- `PRQ_Update`. -/
def update (c : Client σ α) (q : Prq σ α) (element : α) : Except Fault (Prq σ α) := do
  require .emptyQueue (0 < q.size)
  let index ← findIndex c q element
  resift c q index

/-! ## Writing one element -/

/-- What moving elements leaves alone. -/
structure Frame (q q' : Prq σ α) : Prop where
  size : q'.size = q.size
  allocatedSize : q'.allocatedSize = q.allocatedSize
  priorities : q'.priorities = q.priorities

omit [DecidableEq α] in
theorem Frame.trans {q q' q'' : Prq σ α} (h : Frame q q') (h' : Frame q' q'') : Frame q q'' :=
  ⟨h'.size.trans h.size, h'.allocatedSize.trans h.allocatedSize, h'.priorities.trans h.priorities⟩

theorem frame_setIth (c : Client σ α) (q : Prq σ α) (i : Nat) (e : α) : Frame q (setIth c q i e) :=
  ⟨rfl, rfl, rfl⟩

variable {c : Client σ α} {q q' : Prq σ α} {i index : Nat} {e : α} {m : Multiset α}

theorem replaced_setIth (h1 : 1 ≤ i) : Replaced q.ith (setIth c q i e).ith i e := by
  refine ⟨Function.update_self _ _ _, fun j hj hne => Function.update_of_ne ?_ _ _⟩
  omega

theorem setIth_index_same (h : c.setIndexFn = true) : (setIth c q i e).index e = some i := by
  simp only [setIth, h, if_true, Function.update_self]

theorem setIth_index_other {x : α} (h : x ≠ e) : (setIth c q i e).index x = q.index x := by
  unfold setIth
  split_ifs with hset
  · exact Function.update_of_ne h _ _
  · rfl

omit [DecidableEq α] in
theorem Frame.precedes (h : Frame q q') : q'.precedes c = q.precedes c := by
  funext a b
  rw [Prq.precedes, Prq.precedes, h.priorities]

/-! ## The two sifts -/

/-- The queue holds `m`, with `e` on the move to the hole at `index`. -/
def Moving (c : Client σ α) (q : Prq σ α) (index : Nat) (e : α) (m : Multiset α) : Prop :=
  Sifting (c.setIndexFn = true) q.size q.ith q.index index e m

/-- The queue holds `m`, every index field is right, and the order is that of a heap. -/
structure Sifted (c : Client σ α) (q : Prq σ α) (m : Multiset α) : Prop where
  holds : contents q.size q.ith = m
  indexed : c.setIndexFn = true → ∀ i, 1 ≤ i → i ≤ q.size → q.index (q.ith i) = some i
  ordered : HeapOrdered (q.precedes c) q.size q.ith

/-- The same, but the order is that of a heap only where the element at `index` is not concerned. -/
structure Loose (c : Client σ α) (q : Prq σ α) (index : Nat) (m : Multiset α) : Prop where
  one_le : 1 ≤ index
  le : index ≤ q.size
  holds : contents q.size q.ith = m
  indexed : c.setIndexFn = true → ∀ i, 1 ≤ i → i ≤ q.size → q.index (q.ith i) = some i
  hole : Hole (q.precedes c) q.size q.ith index

omit [DecidableEq α] in
theorem Loose.moving (h : Loose c q index m) : Moving c q index (q.ith index) m := by
  refine ⟨h.one_le, h.le, by rw [h.holds], fun hr i h1 hi _ => h.indexed hr i h1 hi, fun hr i h1 hi hne heq => ?_⟩
  have hi' := h.indexed hr i h1 hi
  rw [heq, h.indexed hr index h.one_le h.le] at hi'
  exact hne (Option.some.inj hi').symm

theorem Moving.set (st : Moving c q index e m) {p : Nat} (hp1 : 1 ≤ p) (hpn : p ≤ q.size) (hne : p ≠ index) :
    Moving c (setIth c q index (q.ith p)) p e m :=
  Sifting.move st hp1 hpn hne (replaced_setIth st.one_le) (fun hr => setIth_index_same hr)
    (fun _ _ hx => setIth_index_other hx)

theorem Moving.finish (st : Moving c q index e m) (o : UpHole (q.precedes c) q.size q.ith index e)
    (hstop : 2 ≤ index → ¬q.precedes c e (q.ith (index / 2))) : Sifted c (setIth c q index e) m := by
  have hg : Replaced q.ith (setIth c q index e).ith index e := replaced_setIth st.one_le
  refine ⟨Sifting.contents_eq st hg, fun hr i h1 hi => ?_, o.finish st.one_le hstop hg⟩
  exact Sifting.indexed_all st hg hr (setIth_index_same hr) (fun x hx => setIth_index_other hx) h1 hi

/-- Where the loop of `PRQ_Upheap` ends. -/
structure Raised (c : Client σ α) (q q' : Prq σ α) (index : Nat) (e : α) (m : Multiset α) : Prop where
  frame : Frame q q'
  moving : Moving c q' index e m
  up : UpHole (q'.precedes c) q'.size q'.ith index e
  stop : 2 ≤ index → ¬q'.precedes c e (q'.ith (index / 2))

theorem upheapLoop_raised (st : Moving c q index e m) (o : UpHole (q.precedes c) q.size q.ith index e) :
    Raised c q (upheapLoop c q e index).1 (upheapLoop c q e index).2 e m := by
  induction q, index using upheapLoop.induct c e with
  | case1 q index hlt parent hbefore ih =>
    have hone := st.one_le
    have hle := st.le
    have hg : Replaced q.ith (setIth c q index parent).ith index parent := replaced_setIth st.one_le
    have hup := @Hole.moveUp _ _ _ _ _ _ _ (c.order q.priorities) o.toHole hlt st.le hbefore hg
    have h := ih (st.set (by omega) (by omega) (by omega)) hup
    rw [upheapLoop, if_pos hlt, if_pos hbefore]
    exact ⟨(frame_setIth c q index _).trans h.frame, h.moving, h.up, h.stop⟩
  | case2 q index hlt parent hbefore =>
    rw [upheapLoop, if_pos hlt, if_neg hbefore]
    exact ⟨⟨rfl, rfl, rfl⟩, st, o, fun _ => hbefore⟩
  | case3 q index hlt =>
    rw [upheapLoop, if_neg hlt]
    exact ⟨⟨rfl, rfl, rfl⟩, st, o, fun h2 => absurd h2 hlt⟩

theorem upheapLoop_le (c : Client σ α) (q : Prq σ α) (e : α) (index : Nat) : (upheapLoop c q e index).2 ≤ index := by
  induction q, index using upheapLoop.induct c e with
  | case1 q index hlt parent hbefore ih =>
    rw [upheapLoop, if_pos hlt, if_pos hbefore]
    exact ih.trans (Nat.div_le_self _ _)
  | case2 q index hlt parent hbefore => rw [upheapLoop, if_pos hlt, if_neg hbefore]
  | case3 q index hlt => rw [upheapLoop, if_neg hlt]

theorem upheapLoop_moved (h : Loose c q index m) (hlt : 1 < index)
    (hbefore : q.precedes c (q.ith index) (q.ith (index / 2))) :
    (upheapLoop c q (q.ith index) index).2 ≠ index ∧
      Raised c q (upheapLoop c q (q.ith index) index).1 (upheapLoop c q (q.ith index) index).2 (q.ith index) m := by
  have hle := h.le
  have hg : Replaced q.ith (setIth c q index (q.ith (index / 2))).ith index (q.ith (index / 2)) :=
    replaced_setIth h.one_le
  have hup := @Hole.moveUp _ _ _ _ _ _ _ (c.order q.priorities) h.hole hlt h.le hbefore hg
  have hraised := upheapLoop_raised (h.moving.set (by omega) (by omega) (by omega)) hup
  have hless := upheapLoop_le c (setIth c q index (q.ith (index / 2))) (q.ith index) (index / 2)
  rw [upheapLoop, if_pos hlt, if_pos hbefore]
  refine ⟨by omega, (frame_setIth c q index _).trans hraised.frame, hraised.moving, hraised.up, hraised.stop⟩

omit [DecidableEq α] in
theorem Loose.congr (h : Loose c q index m) (hframe : Frame q q') (hith : ∀ j, 1 ≤ j → q'.ith j = q.ith j)
    (hindex : c.setIndexFn = true → q'.index = q.index) : Loose c q' index m := by
  refine ⟨h.one_le, hframe.size ▸ h.le, ?_, fun hr i h1 hi => ?_, ?_⟩
  · rw [hframe.size, contents_congr fun j h1 _ => hith j h1]
    exact h.holds
  · rw [hith i h1, hindex hr]
    exact h.indexed hr i h1 (hframe.size ▸ hi)
  · rw [hframe.precedes, hframe.size]
    exact h.hole.congr ⟨hith index h.one_le, fun j h1 _ => hith j h1⟩

theorem upheap_eq (hle : index ≤ q.size) (hone : 1 ≤ index) :
    upheap c q index = .ok (setIth c (upheapLoop c q (q.ith index) index).1
      (upheapLoop c q (q.ith index) index).2 (q.ith index), (upheapLoop c q (q.ith index) index).2) := by
  rw [upheap, require, if_pos ⟨hle, hone⟩]
  rfl

/-- `PRQ_Upheap` returns the index it is given when it moved nothing, else it leaves a heap. -/
theorem upheap_loose (h : Loose c q index m) : ∃ q' index', upheap c q index = .ok (q', index') ∧ Frame q q' ∧
    (index' = index → Loose c q' index m ∧ (2 ≤ index → ¬q'.precedes c (q'.ith index) (q'.ith (index / 2)))) ∧
    (index' ≠ index → Sifted c q' m) := by
  refine ⟨_, _, upheap_eq h.le h.one_le, ?_⟩
  by_cases hmove : 1 < index ∧ q.precedes c (q.ith index) (q.ith (index / 2))
  · obtain ⟨hne, hraised⟩ := upheapLoop_moved h hmove.1 hmove.2
    refine ⟨hraised.frame.trans (frame_setIth _ _ _ _), fun heq => absurd heq hne, fun _ => ?_⟩
    exact hraised.moving.finish hraised.up hraised.stop
  · have hstay : upheapLoop c q (q.ith index) index = (q, index) := by
      rw [upheapLoop]
      by_cases hlt : 1 < index
      · rw [if_pos hlt, if_neg fun hbefore => hmove ⟨hlt, hbefore⟩]
      · rw [if_neg hlt]
    rw [hstay]
    have hg : Replaced q.ith (setIth c q index (q.ith index)).ith index (q.ith index) := replaced_setIth h.one_le
    have hith : ∀ j, 1 ≤ j → (setIth c q index (q.ith index)).ith j = q.ith j := by
      intro j hj
      by_cases hji : j = index
      · rw [hji, hg.same]
      · exact hg.other j hj hji
    refine ⟨frame_setIth _ _ _ _, fun _ => ⟨h.congr (frame_setIth _ _ _ _) hith fun hr => ?_, fun h2 => ?_⟩,
      fun hne => absurd rfl hne⟩
    · funext x
      by_cases hx : x = q.ith index
      · rw [hx, setIth_index_same hr, h.indexed hr index h.one_le h.le]
      · exact setIth_index_other hx
    · rw [(frame_setIth c q index _).precedes, hith index h.one_le, hith (index / 2) (by omega)]
      exact fun hbefore => hmove ⟨h2, hbefore⟩

theorem upheap_bottom (h : Loose c q index m) (hbottom : q.size < index * 2) :
    ∃ q' index', upheap c q index = .ok (q', index') ∧ Frame q q' ∧ Sifted c q' m := by
  have hup : UpHole (q.precedes c) q.size q.ith index (q.ith index) := ⟨h.hole, fun _ i hi hparent => by omega⟩
  have hraised := upheapLoop_raised h.moving hup
  exact ⟨_, _, upheap_eq h.le h.one_le, hraised.frame.trans (frame_setIth _ _ _ _),
    hraised.moving.finish hraised.up hraised.stop⟩

/-- Where the loop of `PRQ_Downheap` ends. -/
structure Lowered (c : Client σ α) (q q' : Prq σ α) (index : Nat) (e : α) (m : Multiset α) : Prop where
  frame : Frame q q'
  moving : Moving c q' index e m
  down : DownHole (q'.precedes c) q'.size q'.ith index e
  stop : ∀ i, i ≤ q'.size → i / 2 = index → ¬q'.precedes c (q'.ith i) e

/-- One move of the loop of `PRQ_Downheap`. -/
theorem lowered_step {child : Nat} {q' : Prq σ α} {index' : Nat} (st : Moving c q index e m)
    (o : DownHole (q.precedes c) q.size q.ith index e) (hchild : child / 2 = index) (hle : child ≤ q.size)
    (hfirst : ∀ i, i ≤ q.size → i / 2 = index → ¬q.precedes c (q.ith i) (q.ith child))
    (hbefore : q.precedes c (q.ith child) e)
    (ih : Moving c (setIth c q index (q.ith child)) child e m →
      DownHole (q.precedes c) q.size (setIth c q index (q.ith child)).ith child e →
      Lowered c (setIth c q index (q.ith child)) q' index' e m) : Lowered c q q' index' e m := by
  have hone := st.one_le
  have hg : Replaced q.ith (setIth c q index (q.ith child)).ith index (q.ith child) := replaced_setIth st.one_le
  have hdown := @DownHole.moveDown _ _ _ _ _ _ _ (c.order q.priorities) o child hchild hle hfirst hbefore hg
  have h := ih (st.set (by omega) hle (by omega)) hdown
  exact ⟨(frame_setIth c q index _).trans h.frame, h.moving, h.down, h.stop⟩

theorem downheapLoop_lowered (hpos : 0 < index) (st : Moving c q index e m)
    (o : DownHole (q.precedes c) q.size q.ith index e) :
    Lowered c q (downheapLoop c q e index hpos).1 (downheapLoop c q e index hpos).2 e m := by
  have hirrefl : ∀ x, ¬q.precedes c x x := fun x => (c.order q.priorities).irrefl x
  induction q, index, hpos using downheapLoop.induct c e with
  | case1 q index hpos left hleaf =>
    rw [downheapLoop, if_pos hleaf]
    refine ⟨⟨rfl, rfl, rfl⟩, st, o, fun i (hi : i ≤ q.size) hparent => ?_⟩
    omega
  | case2 q index hpos left right hin hright hbefore ih =>
    rw [downheapLoop, if_neg hin, if_pos hright, if_pos hbefore]
    refine lowered_step st o (by omega) hright.1 (fun i hi hparent => ?_) hbefore fun st' o' => ih st' o' hirrefl
    obtain rfl | rfl : i = index * 2 ∨ i = index * 2 + 1 := by omega
    · exact @not_precedes_symm _ _ (c.order q.priorities) _ _ hright.2
    · exact hirrefl _
  | case3 q index hpos left right hin hright hbefore =>
    rw [downheapLoop, if_neg hin, if_pos hright, if_neg hbefore]
    refine ⟨⟨rfl, rfl, rfl⟩, st, o, fun i hi hparent => ?_⟩
    obtain rfl | rfl : i = index * 2 ∨ i = index * 2 + 1 := by omega
    · intro hleft
      exact hbefore ((c.order q.priorities).trans _ _ _ hright.2 hleft)
    · exact hbefore
  | case4 q index hpos left right hin hright hbefore ih =>
    rw [downheapLoop, if_neg hin, if_neg hright, if_pos hbefore]
    refine lowered_step st o (by omega) (by omega) (fun i hi hparent => ?_) hbefore fun st' o' => ih st' o' hirrefl
    obtain rfl | rfl : i = index * 2 ∨ i = index * 2 + 1 := by omega
    · exact hirrefl _
    · exact fun h => hright ⟨hi, h⟩
  | case5 q index hpos left right hin hright hbefore =>
    rw [downheapLoop, if_neg hin, if_neg hright, if_neg hbefore]
    refine ⟨⟨rfl, rfl, rfl⟩, st, o, fun i hi hparent => ?_⟩
    obtain rfl | rfl : i = index * 2 ∨ i = index * 2 + 1 := by omega
    · exact hbefore
    · exact @not_precedes_trans _ _ (c.order q.priorities) _ _ _ hbefore fun h => hright ⟨hi, h⟩

/-- `PRQ_Downheap` of an element that does not precede its parent. -/
theorem downheap_loose (h : Loose c q index m)
    (habove : 2 ≤ index → ¬q.precedes c (q.ith index) (q.ith (index / 2))) :
    ∃ q' index', downheap c q index = .ok (q', index') ∧ Frame q q' ∧ Sifted c q' m := by
  have hlow := downheapLoop_lowered h.one_le h.moving ⟨h.hole, habove⟩
  exact ⟨_, _, dif_pos ⟨h.le, h.one_le⟩, hlow.frame.trans (frame_setIth _ _ _ _),
    hlow.moving.finish ⟨hlow.down.toHole, fun _ => hlow.stop⟩ hlow.down.above⟩

theorem resift_loose (h : Loose c q index m) : ∃ q', resift c q index = .ok q' ∧ Frame q q' ∧ Sifted c q' m := by
  obtain ⟨q', index', hok, hframe, hsame, hmoved⟩ := upheap_loose h
  unfold resift
  rw [hok, ok_bind]
  by_cases heq : index' = index
  · obtain ⟨hloose, habove⟩ := hsame heq
    obtain ⟨q'', index'', hdown, hframe', hsifted⟩ := downheap_loose hloose habove
    refine ⟨q'', ?_, hframe.trans hframe', hsifted⟩
    rw [if_pos heq.symm, hdown]
    rfl
  · refine ⟨q', ?_, hframe, hmoved heq⟩
    rw [if_neg (Ne.symm heq)]
    rfl

/-! ## The operations keep a queue right -/

omit [DecidableEq α] in
theorem Sifted.mem (h : Sifted c q m) (h1 : 1 ≤ i) (hi : i ≤ q.size) : q.ith i ∈ m := by
  rw [← h.holds, mem_contents]
  exact ⟨i, h1, hi, rfl⟩

omit [DecidableEq α] in
theorem Sifted.inj (h : Sifted c q m) (hset : c.setIndexFn = true) {j : Nat} (hi1 : 1 ≤ i) (hi : i ≤ q.size)
    (hj1 : 1 ≤ j) (hj : j ≤ q.size) (heq : q.ith i = q.ith j) : i = j := by
  have hi' := h.indexed hset i hi1 hi
  rw [heq, h.indexed hset j hj1 hj] at hi'
  exact (Option.some.inj hi').symm

omit [DecidableEq α] in
theorem Sifted.pos (h : Sifted c q m) (hm : m ≠ 0) : 0 < q.size := by
  rw [Nat.pos_iff_ne_zero]
  intro hzero
  apply hm
  rw [← h.holds, hzero, contents_zero]

theorem lt_newSize (size : Nat) (expansionFactor : Int) : size < newSize size expansionFactor := by
  unfold newSize
  dsimp only
  split_ifs with h
  · omega
  · omega

omit [DecidableEq α] in
theorem frame_grow (q : Prq σ α) : (grow q).ith = q.ith ∧ (grow q).index = q.index ∧
    (grow q).precedes c = q.precedes c := by
  unfold grow
  split_ifs
  · exact ⟨rfl, rfl, rfl⟩
  · exact ⟨rfl, rfl, rfl⟩

omit [DecidableEq α] in
theorem lt_grow (h : q.size ≤ q.allocatedSize) : q.size < (grow q).allocatedSize := by
  unfold grow
  split_ifs with hfull
  · exact lt_newSize _ _
  · omega

theorem loose_insert (h : Sifted c q m) (hfresh : c.setIndexFn = true → e ∉ m) :
    Loose c (setIth c { grow q with size := q.size + 1 } (q.size + 1) e) (q.size + 1) (e ::ₘ m) := by
  obtain ⟨hith, hindex, hprecedes⟩ := frame_grow (c := c) q
  have hg : Replaced q.ith (setIth c { grow q with size := q.size + 1 } (q.size + 1) e).ith (q.size + 1) e := by
    have hset := replaced_setIth (c := c) (q := { grow q with size := q.size + 1 }) (e := e) (Nat.le_add_left 1 q.size)
    exact ⟨hset.same, fun j hj hne => (hset.other j hj hne).trans (congrFun hith j)⟩
  refine ⟨by omega, le_rfl, ?_, fun hr i h1 (hi : i ≤ q.size + 1) => ?_, fun i h2 hi hne _ => ?_, fun h2 i hi hparent => ?_⟩
  · show contents (q.size + 1) _ = _
    rw [contents_succ, hg.same, contents_congr fun j h1 hj => hg.other j h1 (by omega), h.holds, Multiset.add_comm]
    rfl
  · by_cases hlast : i = q.size + 1
    · rw [hlast, hg.same]
      exact setIth_index_same hr
    · have hne : q.ith i ≠ e := fun heq => hfresh hr (heq ▸ h.mem h1 (by omega))
      rw [hg.other i h1 hlast, setIth_index_other hne]
      show (grow q).index _ = _
      rw [hindex]
      exact h.indexed hr i h1 (by omega)
  · change i ≤ q.size + 1 at hi
    show ¬(grow q).precedes c _ _
    rw [hprecedes, hg.other i (by omega) hne, hg.other (i / 2) (by omega) (by omega)]
    exact h.ordered i h2 (by omega)
  · change i ≤ q.size + 1 at hi
    omega

theorem loose_fill (h : Sifted c q m) (h1 : 1 ≤ index) (hlt : index < q.size) :
    Loose c (setIth c { q with size := q.size - 1 } index (q.ith q.size)) index (m.erase (q.ith index)) := by
  have hg : Replaced q.ith (setIth c { q with size := q.size - 1 } index (q.ith q.size)).ith index (q.ith q.size) :=
    replaced_setIth (q := { q with size := q.size - 1 }) h1
  have hhole := @HeapOrdered.holeAt _ _ _ _ (c.order q.priorities) h.ordered index
  refine ⟨h1, Nat.le_sub_one_of_lt hlt, ?_, fun hr i hi1 (hi : i ≤ q.size - 1) => ?_,
    (hhole.mono (Nat.sub_le _ 1)).congr hg⟩
  · have hlast : contents (q.size - 1) q.ith + {q.ith q.size} = m := by
      have hsucc := contents_succ (q.size - 1) q.ith
      rw [Nat.sub_add_cancel (by omega), h.holds] at hsucc
      exact hsucc.symm
    have hreplaced := hg.contents h1 (Nat.le_sub_one_of_lt hlt)
    rw [hlast] at hreplaced
    show contents (q.size - 1) _ = _
    rw [← hreplaced, Multiset.add_comm, Multiset.singleton_add, Multiset.erase_cons_head]
  · by_cases hii : i = index
    · rw [hii, hg.same]
      exact setIth_index_same hr
    · have hne : q.ith i ≠ q.ith q.size := by
        intro heq
        have := h.inj hr hi1 (by omega) (by omega) le_rfl heq
        omega
      rw [hg.other i hi1 hii, setIth_index_other hne]
      exact h.indexed hr i hi1 (by omega)

theorem sifted_shrink (h : Sifted c q m) (hpos : 0 < q.size) :
    Sifted c { q with size := q.size - 1 } (m.erase (q.ith q.size)) := by
  refine ⟨?_, fun hr i h1 (hi : i ≤ q.size - 1) => h.indexed hr i h1 (by omega),
    fun i h2 (hi : i ≤ q.size - 1) => h.ordered i h2 (by omega)⟩
  have hsucc := contents_succ (q.size - 1) q.ith
  rw [Nat.sub_add_cancel hpos, h.holds] at hsucc
  show contents (q.size - 1) q.ith = _
  rw [hsucc, Multiset.add_comm, Multiset.singleton_add, Multiset.erase_cons_head]

theorem insert_sifted (h : Sifted c q m) (hroom : q.size ≤ q.allocatedSize)
    (hfresh : c.setIndexFn = true → e ∉ m) : ∃ q', insert c q e = .ok q' ∧ Sifted c q' (e ::ₘ m) ∧
      q'.size ≤ q'.allocatedSize := by
  obtain ⟨q', index', hok, hframe, hsifted⟩ := upheap_bottom (loose_insert h hfresh)
    (show q.size + 1 < (q.size + 1) * 2 by omega)
  refine ⟨q', ?_, hsifted, ?_⟩
  · unfold insert
    rw [hok]
    rfl
  · rw [hframe.size, hframe.allocatedSize]
    exact lt_grow hroom

/-- `PRQ_Delete_Top` takes an element that none precedes. -/
theorem deleteTop_sifted (h : Sifted c q m) (hroom : q.size ≤ q.allocatedSize) (hm : m ≠ 0) :
    ∃ x q', deleteTop c q = .ok (x, q') ∧ x ∈ m ∧ (∀ y ∈ m, ¬q.precedes c y x) ∧ Sifted c q' (m.erase x) ∧
      q'.size ≤ q'.allocatedSize := by
  have hpos := h.pos hm
  have hfirst : ∀ y ∈ m, ¬q.precedes c y (q.ith 1) := by
    intro y hy
    rw [← h.holds, mem_contents] at hy
    obtain ⟨i, h1, hi, rfl⟩ := hy
    exact @HeapOrdered.first _ _ _ _ (c.order q.priorities) h.ordered i h1 hi
  unfold deleteTop
  rw [require, if_pos hpos, ok_bind]
  by_cases hone : q.size = 1
  · have hshrink := sifted_shrink h hpos
    rw [hone] at hshrink
    rw [if_pos hone]
    exact ⟨_, _, rfl, h.mem le_rfl hpos, hfirst, hshrink, Nat.zero_le _⟩
  · obtain ⟨q', index', hok, hframe, hsifted⟩ := downheap_loose
      (loose_fill h le_rfl (show 1 < q.size by omega)) (fun h2 => absurd h2 (by decide))
    rw [if_neg hone, hok]
    refine ⟨q.ith 1, q', rfl, h.mem le_rfl hpos, hfirst, hsifted, ?_⟩
    rw [hframe.size, hframe.allocatedSize]
    exact (Nat.sub_le _ _).trans hroom

theorem findIndex_mem (h : Sifted c q m) (he : e ∈ m) :
    ∃ i, findIndex c q e = .ok i ∧ 1 ≤ i ∧ i ≤ q.size ∧ q.ith i = e := by
  rw [← h.holds, mem_contents] at he
  obtain ⟨i, h1, hi, rfl⟩ := he
  unfold findIndex
  by_cases hget : c.getIndexFn = true
  · refine ⟨i, ?_, h1, hi, rfl⟩
    rw [if_pos hget, h.indexed (c.get_set hget) i h1 hi]
    exact if_pos rfl
  · rw [if_neg hget]
    have hsome : ((List.range' 1 q.size).find? fun j => q.ith j = q.ith i).isSome := by
      rw [List.find?_isSome]
      exact ⟨i, List.mem_range'_1.mpr ⟨h1, by omega⟩, decide_eq_true rfl⟩
    obtain ⟨j, hj⟩ := Option.isSome_iff_exists.mp hsome
    have hrange := List.mem_range'_1.mp (List.mem_of_find?_eq_some hj)
    have hith : decide (q.ith j = q.ith i) = true := List.find?_some (p := fun j => decide (q.ith j = q.ith i)) hj
    rw [hj]
    exact ⟨j, rfl, hrange.1, by omega, of_decide_eq_true hith⟩

theorem remove_sifted (h : Sifted c q m) (hroom : q.size ≤ q.allocatedSize) (he : e ∈ m) :
    ∃ q', remove c q e = .ok q' ∧ Sifted c q' (m.erase e) ∧ q'.size ≤ q'.allocatedSize := by
  have hpos : 0 < q.size := h.pos fun hzero => Multiset.notMem_zero e (hzero ▸ he)
  obtain ⟨index, hfind, h1, hle, rfl⟩ := findIndex_mem h he
  unfold remove
  rw [require, if_pos hpos, ok_bind, hfind, ok_bind]
  by_cases hlast : index = q.size
  · rw [if_pos hlast, hlast]
    exact ⟨_, rfl, sifted_shrink h hpos, (Nat.sub_le _ _).trans hroom⟩
  · obtain ⟨q', hok, hframe, hsifted⟩ := resift_loose (loose_fill h h1 (show index < q.size by omega))
    rw [if_neg hlast]
    refine ⟨q', hok, hsifted, ?_⟩
    rw [hframe.size, hframe.allocatedSize]
    exact (Nat.sub_le _ _).trans hroom

/-- The comparisons between such elements of `m` are the same at two priorities. -/
def Unchanged (c : Client σ α) (m : Multiset α) (p p' : σ) (others : α → Prop) : Prop :=
  ∀ a ∈ m, ∀ b ∈ m, others a → others b → c.comparisonFn p' a b = c.comparisonFn p a b

theorem loose_reprioritize (h : Sifted c q m) {p' : σ} (h1 : 1 ≤ index) (hle : index ≤ q.size)
    (hcount : m.count (q.ith index) = 1) (hsame : Unchanged c m q.priorities p' (· ≠ q.ith index)) :
    Loose c { q with priorities := p' } index m := by
  have hother : ∀ i, 1 ≤ i → i ≤ q.size → i ≠ index → q.ith i ≠ q.ith index := by
    intro i hi1 hi hne heq
    have htwo := two_le_count hne hi1 hi h1 hle heq rfl
    rw [h.holds] at htwo
    omega
  have hpair : ∀ i j, 1 ≤ i → i ≤ q.size → i ≠ index → 1 ≤ j → j ≤ q.size → j ≠ index →
      ¬q.precedes c (q.ith i) (q.ith j) → ¬Prq.precedes c { q with priorities := p' } (q.ith i) (q.ith j) := by
    intro i j hi1 hi hine hj1 hj hjne hnot
    unfold Prq.precedes
    rw [hsame _ (h.mem hi1 hi) _ (h.mem hj1 hj) (hother i hi1 hi hine) (hother j hj1 hj hjne)]
    exact hnot
  have hhole := @HeapOrdered.holeAt _ _ _ _ (c.order q.priorities) h.ordered index
  refine ⟨h1, hle, h.holds, h.indexed, fun i h2 (hi : i ≤ q.size) hne hparent => ?_,
    fun h2 i (hi : i ≤ q.size) hparent => ?_⟩
  · exact hpair i (i / 2) (by omega) hi hne (by omega) (by omega) hparent (hhole.off i h2 hi hne hparent)
  · exact hpair i (index / 2) (by omega) hi (by omega) (by omega) (by omega) (by omega) (hhole.grand h2 i hi hparent)

theorem update_sifted (h : Sifted c q m) (hroom : q.size ≤ q.allocatedSize) {p' : σ} (hcount : m.count e = 1)
    (hsame : Unchanged c m q.priorities p' (· ≠ e)) :
    ∃ q', update c { q with priorities := p' } e = .ok q' ∧ Sifted c q' m ∧ q'.size ≤ q'.allocatedSize := by
  have he : e ∈ m := Multiset.count_pos.mp (by omega)
  have hpos : 0 < q.size := h.pos fun hzero => Multiset.notMem_zero e (hzero ▸ he)
  obtain ⟨index, hfind, h1, hle, rfl⟩ := findIndex_mem h he
  obtain ⟨q', hok, hframe, hsifted⟩ := resift_loose (loose_reprioritize h h1 hle hcount hsame)
  have hfind' : findIndex c { q with priorities := p' } (q.ith index) = .ok index := hfind
  unfold update
  rw [require, if_pos hpos, ok_bind, hfind', ok_bind]
  refine ⟨q', hok, hsifted, ?_⟩
  rw [hframe.size, hframe.allocatedSize]
  exact hroom

/-! ## Runs -/

/-- `Reach c q m`: a run ends in the queue `q`, with `m` the elements inserted and not removed. An element with an
index field is in the queue at most once; the priority of a queued element changes only before its update. -/
inductive Reach (c : Client σ α) : Prq σ α → Multiset α → Prop
  | start (initialSize expansionFactor : Int) (memory : Nat → α) (priorities : σ) (index : α → Option Nat) :
    Reach c (prqInitialize initialSize expansionFactor memory priorities index) 0
  | insert {q q' : Prq σ α} {m : Multiset α} {e : α} : Reach c q m → (c.setIndexFn = true → e ∉ m) →
    insert c q e = .ok q' → Reach c q' (e ::ₘ m)
  | deleteTop {q q' : Prq σ α} {m : Multiset α} {x : α} : Reach c q m → deleteTop c q = .ok (x, q') →
    Reach c q' (m.erase x)
  | remove {q q' : Prq σ α} {m : Multiset α} {e : α} : Reach c q m → e ∈ m → remove c q e = .ok q' →
    Reach c q' (m.erase e)
  | update {q q' : Prq σ α} {m : Multiset α} {e : α} {p' : σ} : Reach c q m → m.count e = 1 →
    Unchanged c m q.priorities p' (· ≠ e) → update c { q with priorities := p' } e = .ok q' → Reach c q' m
  | client {q : Prq σ α} {m : Multiset α} {p' : σ} : Reach c q m → Unchanged c m q.priorities p' (fun _ => True) →
    Reach c { q with priorities := p' } m

theorem deleteTop_empty (h : Sifted c q 0) : deleteTop c q = .error .emptyQueue := by
  have hzero : ¬0 < q.size := by
    intro hpos
    exact Multiset.notMem_zero _ (h.mem le_rfl hpos)
  unfold deleteTop
  rw [require, if_neg hzero]
  rfl

theorem reach_sifted (h : Reach c q m) : Sifted c q m ∧ q.size ≤ q.allocatedSize := by
  induction h with
  | start initialSize expansionFactor memory priorities index =>
    exact ⟨⟨contents_zero _, fun _ i h1 (hi : i ≤ 0) => by omega, fun i h2 (hi : i ≤ 0) => by omega⟩, Nat.zero_le _⟩
  | insert _ hfresh hok ih =>
    obtain ⟨_, hok', h⟩ := insert_sifted ih.1 ih.2 hfresh
    cases hok.symm.trans hok'
    exact h
  | @deleteTop q _ m _ _ hok ih =>
    by_cases hm : m = 0
    · rw [hm] at ih
      cases hok.symm.trans (deleteTop_empty ih.1)
    · obtain ⟨_, _, hok', _, _, h⟩ := deleteTop_sifted ih.1 ih.2 hm
      cases hok.symm.trans hok'
      exact h
  | remove _ he hok ih =>
    obtain ⟨_, hok', h⟩ := remove_sifted ih.1 ih.2 he
    cases hok.symm.trans hok'
    exact h
  | update _ hcount hsame hok ih =>
    obtain ⟨_, hok', h⟩ := update_sifted ih.1 ih.2 hcount hsame
    cases hok.symm.trans hok'
    exact h
  | @client q m p' _ hsame ih =>
    refine ⟨⟨ih.1.holds, ih.1.indexed, fun i h2 (hi : i ≤ q.size) => ?_⟩, ih.2⟩
    unfold Prq.precedes
    show ¬c.comparisonFn p' (q.ith i) (q.ith (i / 2)) = true
    rw [hsame _ (ih.1.mem (by omega) hi) _ (ih.1.mem (by omega) (by omega)) trivial trivial]
    exact ih.1.ordered i h2 hi

/-- After every run the queue holds what was inserted and not removed, in the order of a heap and within its vector,
every index field is right, and every further operation returns; the one that takes the top takes an element that no
queued element precedes. -/
theorem queue_correct (h : Reach c q m) :
    contents q.size q.ith = m ∧
    (∀ i, 2 ≤ i → i ≤ q.size → ¬q.precedes c (q.ith i) (q.ith (i / 2))) ∧
    (c.setIndexFn = true → ∀ i, 1 ≤ i → i ≤ q.size → q.index (q.ith i) = some i) ∧
    q.size ≤ q.allocatedSize ∧
    (∀ e, (c.setIndexFn = true → e ∉ m) → ∃ q', insert c q e = .ok q') ∧
    (m ≠ 0 → ∃ x q', deleteTop c q = .ok (x, q') ∧ x ∈ m ∧ ∀ y ∈ m, ¬q.precedes c y x) ∧
    (∀ e ∈ m, ∃ q', remove c q e = .ok q') ∧
    (∀ e p', m.count e = 1 → Unchanged c m q.priorities p' (· ≠ e) →
      ∃ q', update c { q with priorities := p' } e = .ok q') := by
  obtain ⟨hsifted, hroom⟩ := reach_sifted h
  refine ⟨hsifted.holds, hsifted.ordered, hsifted.indexed, hroom, fun e hfresh => ?_, fun hm => ?_, fun e he => ?_,
    fun e p' hcount hsame => ?_⟩
  · obtain ⟨q', hok, -⟩ := insert_sifted hsifted hroom hfresh
    exact ⟨q', hok⟩
  · obtain ⟨x, q', hok, hmem, hfirst, -⟩ := deleteTop_sifted hsifted hroom hm
    exact ⟨x, q', hok, hmem, hfirst⟩
  · obtain ⟨q', hok, -⟩ := remove_sifted hsifted hroom he
    exact ⟨q', hok⟩
  · obtain ⟨q', hok, -⟩ := update_sifted hsifted hroom hcount hsame
    exact ⟨q', hok⟩

/-- Elements that carry their priorities as the client's table `p`; the smaller comes first. -/
def tableClient : Client (Nat → Nat) Nat where
  comparisonFn p a b := p a < p b
  order p :=
    { irrefl := fun a => by simp
      trans := fun a b c hab hbc => by
        rw [decide_eq_true_eq] at *
        omega
      incomp_trans := fun a b c hab hbc => by
        simp only [decide_eq_true_eq] at *
        omega }
  getIndexFn := true
  setIndexFn := true
  get_set h := h

/-- The same without index functions. -/
def plainClient : Client (Nat → Nat) Nat := { tableClient with
  getIndexFn := false
  setIndexFn := false
  get_set := id }

/-- Each element is its own priority, but that of 3 is `p`. -/
def pricedThree (p : Nat) : Nat → Nat := fun e => if e = 3 then p else e

/-- A new queue with the elements inserted. -/
def inserted (c : Client (Nat → Nat) Nat) (elements : List Nat) : Except Fault (Prq (Nat → Nat) Nat) :=
  elements.foldlM (insert c) (prqInitialize 10 200 (fun _ => 0) (pricedThree 5) fun _ => none)

/-- An element queued twice: `PRQ_Update` moves one of its copies, and the other one then precedes its parent; and one
index field is not the place of both. -/
theorem queue_correct_twice :
    (∃ q, (do let q ← inserted plainClient [1, 2, 3, 3]; update plainClient { q with priorities := pricedThree 0 } 3) = .ok q ∧
      q.size = 4 ∧ q.precedes plainClient (q.ith 4) (q.ith 2)) ∧
    ∃ q, inserted tableClient [1, 1] = .ok q ∧ q.size = 2 ∧ q.ith 1 = 1 ∧ q.ith 2 = 1 ∧ q.index 1 ≠ some 1 :=
  ⟨exists_ok_of_any (by decide +kernel), exists_ok_of_any (by decide +kernel)⟩

/-- Two elements inserted and the priority of one changed. -/
theorem queue_correct_update : ∃ q x q', Reach tableClient q {1, 2} ∧ deleteTop tableClient q = .ok (x, q') ∧
    x ∈ ({1, 2} : Multiset Nat) ∧ ∀ y ∈ ({1, 2} : Multiset Nat), ¬q.precedes tableClient y x := by
  have h0 : Reach tableClient (prqInitialize 1 200 (fun _ => 0) (fun _ => 5) fun _ => none) 0 := .start ..
  obtain ⟨q1, hok1⟩ := (queue_correct h0).2.2.2.2.1 2 (fun _ => by decide)
  have h1 := h0.insert (fun _ => by decide) hok1
  obtain ⟨q2, hok2⟩ := (queue_correct h1).2.2.2.2.1 1 (fun _ => by decide)
  have h2 := h1.insert (fun _ => by decide) hok2
  have hsame : Unchanged tableClient {1, 2} q2.priorities (Function.update q2.priorities 2 0) (· ≠ 2) := by
    intro a _ b _ ha hb
    simp [tableClient, ha, hb]
  obtain ⟨q3, hok3⟩ := (queue_correct h2).2.2.2.2.2.2.2 2 _ (by decide) hsame
  have h3 := h2.update (by decide) hsame hok3
  obtain ⟨x, q', hok, hx⟩ := (queue_correct h3).2.2.2.2.2.1 (by decide)
  exact ⟨q3, x, q', h3, hok, hx⟩

end Path64.PriorityQueue

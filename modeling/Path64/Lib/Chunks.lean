import Mathlib.Algebra.Order.Ring.Nat
import Mathlib.Data.List.Pairwise
import Mathlib.Data.List.GetD
import Mathlib.Logic.Function.Basic
import Mathlib.Tactic.Ring

/-!
# Arrays in chunks of one size

A sequence of slots in chunks of `K` slots of `z` bytes each. The chunks lie anywhere in memory, without overlap; those
that happen to be adjacent make one range of addresses.

* `slot`, `slot_inj` : the address of a slot, and that no two slots share one;
* `Linked`, `slot_of_linked` : a run of adjacent chunks is one range;
* `chunksFrom` : a run of adjacent chunks at an address, and how it goes with the chunks before it;
* `writeAll` : consecutive slots are written, and nothing else.
-/

namespace Path64.Lib

variable {K z : Nat} {fs : List Nat}

/-- The address of the chunk `k`. -/
def start (fs : List Nat) (k : Nat) : Nat := fs.getD k 0

/-- The address of the slot `i`. -/
def slot (K z : Nat) (fs : List Nat) (i : Nat) : Nat := start fs (i / K) + i % K * z

/-- No two of the chunks, of `len` bytes each, overlap. -/
def Apart (len : Nat) (fs : List Nat) : Prop := fs.Pairwise fun a b => a + len ≤ b ∨ b + len ≤ a

/-- The chunks from `a` up to `b` are adjacent. -/
def Linked (len : Nat) (fs : List Nat) (a b : Nat) : Prop := ∀ c, a ≤ c → c + 1 < b → start fs c + len = start fs (c + 1)

theorem start_append_left {k : Nat} (hk : k < fs.length) (gs : List Nat) : start (fs ++ gs) k = start fs k :=
  List.getD_append _ _ _ _ hk

theorem start_append_right (fs gs : List Nat) (k : Nat) : start (fs ++ gs) (fs.length + k) = start gs k := by
  rw [start, start, List.getD_append_right _ _ _ _ (Nat.le_add_right _ _), Nat.add_sub_cancel_left]

theorem start_eq {k : Nat} (hk : k < fs.length) : fs[k]? = some (start fs k) := by
  rw [start, List.getD_eq_getElem _ _ hk, List.getElem?_eq_getElem hk]

theorem Apart.start (h : Apart K fs) {i j : Nat} (hi : i < fs.length) (hj : j < fs.length) (hij : i ≠ j) :
    start fs i + K ≤ start fs j ∨ start fs j + K ≤ start fs i := by
  have hpair := List.pairwise_iff_getElem.mp h
  have hget : ∀ {k : Nat} (hk : k < fs.length), Path64.Lib.start fs k = fs[k] := fun hk => List.getD_eq_getElem _ _ hk
  rw [hget hi, hget hj]
  rcases Nat.lt_or_gt_of_ne hij with hlt | hlt
  · exact hpair i j hi hj hlt
  · exact (hpair j i hj hi hlt).symm

theorem slot_lt {i : Nat} (hK : 0 < K) : i % K * z + z ≤ K * z := by
  calc i % K * z + z = (i % K + 1) * z := (Nat.succ_mul _ _).symm
    _ ≤ K * z := Nat.mul_le_mul_right z (Nat.mod_lt i hK)

theorem slot_inj (hK : 0 < K) (hz : 0 < z) (h : Apart (K * z) fs) {i j : Nat} (hi : i < fs.length * K)
    (hj : j < fs.length * K) (heq : slot K z fs i = slot K z fs j) : i = j := by
  have hi' : i / K < fs.length := Nat.div_lt_of_lt_mul (by rwa [Nat.mul_comm])
  have hj' : j / K < fs.length := Nat.div_lt_of_lt_mul (by rwa [Nat.mul_comm])
  have hltI := slot_lt (z := z) (i := i) hK
  have hltJ := slot_lt (z := z) (i := j) hK
  unfold slot at heq
  by_cases hq : i / K = j / K
  · rw [hq] at heq
    have hr : i % K = j % K := Nat.eq_of_mul_eq_mul_right hz (by omega)
    rw [← Nat.div_add_mod i K, ← Nat.div_add_mod j K, hq, hr]
  · have := h.start hi' hj' hq
    omega

/-! ## Adjacent chunks -/

variable {len a b : Nat}

theorem Linked.start_add (h : Linked len fs a b) {t : Nat} (ht : a + t < b) : start fs (a + t) = start fs a + t * len := by
  induction t with
  | zero => simp
  | succ t ih =>
    rw [← Nat.add_assoc, ← h (a + t) (Nat.le_add_right _ _) (by omega), ih (by omega), Nat.succ_mul, Nat.add_assoc]

/-- The slots of adjacent chunks are in one range. -/
theorem slot_of_linked (hK : 0 < K) (h : Linked (K * z) fs a b) {i : Nat} (hi : a * K + i < b * K) :
    slot K z fs (a * K + i) = start fs a + i * z := by
  have hdiv : (a * K + i) / K = a + i / K := by
    rw [Nat.add_comm, Nat.add_mul_div_right _ _ hK, Nat.add_comm]
  have hmod : (a * K + i) % K = i % K := by
    rw [Nat.add_comm, Nat.add_mul_mod_self_right]
  have hlt : a + i / K < b := hdiv ▸ Nat.div_lt_of_lt_mul (by rwa [Nat.mul_comm K b])
  rw [slot, hdiv, hmod, h.start_add hlt]
  calc start fs a + i / K * (K * z) + i % K * z = start fs a + (K * (i / K) + i % K) * z := by ring
    _ = start fs a + i * z := by rw [Nat.div_add_mod]

/-- A run of `c` adjacent chunks from the address `a` on. -/
def chunksFrom (len a c : Nat) : List Nat := (List.range c).map fun t => a + t * len

variable {c : Nat}

theorem length_chunksFrom (len a c : Nat) : (chunksFrom len a c).length = c := by
  rw [chunksFrom, List.length_map, List.length_range]

theorem start_chunksFrom (fs : List Nat) (len a : Nat) {k : Nat} (hk : k < c) : start (fs ++ chunksFrom len a c) (fs.length + k) = a + k * len := by
  have hk' : k < (chunksFrom len a c).length := (length_chunksFrom len a c).symm ▸ hk
  rw [start_append_right, start, List.getD_eq_getElem _ _ hk']
  simp only [chunksFrom, List.getElem_map, List.getElem_range]

theorem chunksFrom_succ (len a c : Nat) : chunksFrom len a (c + 1) = a :: chunksFrom len (a + len) c := by
  rw [chunksFrom, List.range_succ_eq_map, List.map_cons, List.map_map, Nat.zero_mul, Nat.add_zero, chunksFrom]
  refine congrArg _ (List.map_congr_left fun t _ => ?_)
  show a + (t + 1) * len = a + len + t * len
  ring

theorem Apart.append (h : Apart len fs) (ha : ∀ f ∈ fs, f + len ≤ a ∨ a + c * len ≤ f) :
    Apart len (fs ++ chunksFrom len a c) := by
  refine List.pairwise_append.mpr ⟨h, ?_, ?_⟩
  · refine List.pairwise_map.mpr (List.pairwise_lt_range.imp fun {i j} hij => Or.inl ?_)
    calc a + i * len + len = a + (i + 1) * len := by ring
      _ ≤ a + j * len := Nat.add_le_add_left (Nat.mul_le_mul_right len hij) a
  · intro f hf g hg
    obtain ⟨t, ht, rfl⟩ := List.mem_map.mp hg
    have hle : (t + 1) * len ≤ c * len := Nat.mul_le_mul_right len (List.mem_range.mp ht)
    rw [Nat.succ_mul] at hle
    rcases ha f hf with h | h
    · exact Or.inl (h.trans (Nat.le_add_right _ _))
    · exact Or.inr (by omega)

theorem linked_chunksFrom : Linked len (fs ++ chunksFrom len a c) fs.length (fs ++ chunksFrom len a c).length := by
  intro k hk hk'
  rw [List.length_append, length_chunksFrom] at hk'
  obtain ⟨t, rfl⟩ := Nat.exists_eq_add_of_le hk
  rw [start_chunksFrom fs len a (by omega), Nat.add_assoc fs.length, start_chunksFrom fs len a (by omega)]
  ring

theorem slot_append_left {i : Nat} (hi : i < fs.length * K) (gs : List Nat) : slot K z (fs ++ gs) i = slot K z fs i := by
  rw [slot, slot, start_append_left (Nat.div_lt_of_lt_mul (by rwa [Nat.mul_comm K]))]

theorem slot_chunksFrom (fs : List Nat) (hK : 0 < K) {i : Nat} (hi : i < c * K) :
    slot K z (fs ++ chunksFrom (K * z) a c) (fs.length * K + i) = a + i * z := by
  have hc : 0 < c := Nat.pos_of_mul_pos_right (Nat.zero_lt_of_lt hi)
  have hstart : start (fs ++ chunksFrom (K * z) a c) fs.length = a := by
    have := start_chunksFrom fs (K * z) a hc
    rwa [Nat.add_zero, Nat.zero_mul, Nat.add_zero] at this
  rw [slot_of_linked hK linked_chunksFrom, hstart]
  rw [List.length_append, length_chunksFrom, Nat.add_mul]
  omega

/-! ## Consecutive writes -/

variable {T : Type*}

/-- The values are written one after the other from an address on. -/
def writeAll (z : Nat) (mem : Nat → T) : Nat → List T → Nat → T
  | _, [] => mem
  | a, v :: vs => writeAll z (Function.update mem a v) (a + z) vs

theorem writeAll_of_ne {mem : Nat → T} {p : Nat} {vs : List T} (h : ∀ j < vs.length, p ≠ a + j * z) :
    writeAll z mem a vs p = mem p := by
  induction vs generalizing mem a with
  | nil => rfl
  | cons v vs ih =>
    rw [writeAll, ih, Function.update_of_ne]
    · have := h 0 (Nat.succ_pos _)
      rwa [Nat.zero_mul, Nat.add_zero] at this
    · intro j hj
      have := h (j + 1) (Nat.succ_lt_succ hj)
      rwa [Nat.succ_mul, Nat.add_comm (j * z), ← Nat.add_assoc] at this

theorem writeAll_get (hz : 0 < z) {mem : Nat → T} {vs : List T} {j : Nat} (hj : j < vs.length) :
    writeAll z mem a vs (a + j * z) = vs[j] := by
  induction vs generalizing mem a j with
  | nil => exact absurd hj (Nat.not_lt_zero _)
  | cons v vs ih =>
    cases j with
    | zero =>
      rw [writeAll, Nat.zero_mul, Nat.add_zero, writeAll_of_ne, Function.update_self, List.getElem_cons_zero]
      intro i _
      omega
    | succ j =>
      rw [writeAll, Nat.succ_mul, Nat.add_comm (j * z), ← Nat.add_assoc, ih (Nat.lt_of_succ_lt_succ hj),
        List.getElem_cons_succ]

/-- A run of new chunks is filled; the slots before it keep what they hold. -/
theorem writeAll_chunksFrom (hK : 0 < K) (hz : 0 < z) (h : Apart (K * z) (fs ++ chunksFrom (K * z) a c)) {mem : Nat → T}
    {vs : List T} (hvs : vs.length ≤ c * K) {i : Nat} (hi : i < fs.length * K) :
    writeAll z mem a vs (slot K z (fs ++ chunksFrom (K * z) a c) i) = mem (slot K z fs i) := by
  rw [writeAll_of_ne, slot_append_left hi]
  intro j hj heq
  rw [← slot_chunksFrom fs hK (hj.trans_le hvs)] at heq
  have hlen : (fs ++ chunksFrom (K * z) a c).length * K = fs.length * K + c * K := by
    rw [List.length_append, length_chunksFrom, Nat.add_mul]
  have := slot_inj hK hz h (by omega) (by omega) heq
  omega

end Path64.Lib

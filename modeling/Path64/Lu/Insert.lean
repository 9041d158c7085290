import Path64.Lu.Factor

/-!
# Inserting a column

* `Factors.inserted` : an insertion turns a factorization of `m` into one of `m` with the column added;
* `cfactorAndInsert_inserted` : `Cfactor_And_Insert` is such an insertion or leaves the factorization alone;
* `factors_luMat` : the constructor factors its matrix.
-/

namespace Path64.Lu

variable {K : Type} [Field K]

theorem sum_range_of_zero {f : Nat → K} {k n : Nat} (hk : k ≤ n) (h : ∀ i, k ≤ i → i < n → f i = 0) :
    ∑ i ∈ Finset.range n, f i = ∑ i ∈ Finset.range k, f i := by
  induction n, hk using Nat.le_induction with
  | base => rfl
  | succ n hkn ih =>
    rw [Finset.sum_range_succ, h n hkn n.lt_succ_self, add_zero, ih fun i hi hin => h i hi (hin.trans n.lt_succ_self)]

namespace LuMat

variable {M M' : LuMat K} {m : Mat K} {w mult : Nat → K} {p : Nat} {flag : Bool}

theorem Factors.sum_low (hF : Factors M m) {r : Nat} (hr : r < M.lu.rows) (hp : M.pivots M.lu.cols ≤ r)
    (y : Nat → K) : ∑ k ∈ Finset.range (min M.lu.cols r), M.lu.entry r k * y k =
      ∑ k ∈ Finset.range (M.pivots M.lu.cols), M.lu.entry r k * y k := by
  have hle := M.pivots_le M.lu.cols
  refine sum_range_of_zero (by omega) fun k hk hkr => ?_
  rw [hF.rows] at hr
  rw [hF.cols] at hk hkr
  rw [hF.unused k (by omega) r hr hk (by omega), zero_mul]

namespace Inserted

theorem pivots_old (h : Inserted M w p mult flag M') {j : Nat} (hj : j ≤ M.lu.cols) : M'.pivots j = M.pivots j := by
  refine pivots_congr fun i hi => ?_
  rw [h.cpvt, Function.update_of_ne (by omega)]

theorem pivots_last (h : Inserted M w p mult flag M') :
    M'.pivots (M.lu.cols + 1) = M.pivots M.lu.cols + if flag then 1 else 0 := by
  rw [pivots_succ, h.pivots_old le_rfl, h.cpvt, Function.update_self]

theorem swap_low (h : Inserted M w p mult flag M') {i : Nat} (hi : i < M.pivots M.lu.cols) :
    Equiv.swap (M.pivots M.lu.cols) p i = i := by
  have := h.le
  exact Equiv.swap_apply_of_ne_of_ne (by omega) (by omega)

theorem swap_high (h : Inserted M w p mult flag M') {i : Nat} (hi : M.pivots M.lu.cols ≤ i) (hr : i < M.lu.rows) :
    M.pivots M.lu.cols ≤ Equiv.swap (M.pivots M.lu.cols) p i ∧
      Equiv.swap (M.pivots M.lu.cols) p i < M.lu.rows := by
  have hle := h.le
  have hlt := h.lt
  rw [Equiv.swap_apply_def]
  split_ifs <;> omega

theorem interchange_eq (h : Inserted M w p mult flag M') (hF : Factors M m) (f : Nat → K) (r : Nat) :
    M'.interchange f r = M.interchange f (Equiv.swap (M.pivots M.lu.cols) p r) := by
  have hrest : ∀ r, M.pivots M.lu.cols ≤ r → M.interch r = r := hF.cols ▸ hF.interch_rest
  have hrank : M.pivots M.lu.cols ≤ M.lu.rows := hF.cols ▸ hF.rows ▸ hF.rank_le
  have hbefore : M'.perm (M.pivots M.lu.cols) = M.perm (M.pivots M.lu.cols) := perm_congr fun r hr => by
    rw [h.interch, Function.update_of_ne (by omega)]
  have hold := perm_of_rest hrank hrest
  have hnew : M'.perm M.lu.rows = M.perm M.lu.rows * Equiv.swap (M.pivots M.lu.cols) p := by
    rw [hold]
    rcases h.lt with hp | hp
    · have hle := h.le
      rw [perm_of_rest (k := M.pivots M.lu.cols + 1) (by omega), perm, hbefore, h.interch, Function.update_self,
        Equiv.swap_comm]
      intro r hr
      rw [h.interch, Function.update_of_ne (by omega), hrest r (by omega)]
    · rw [perm_of_rest hrank, hbefore, hp, Equiv.swap_self]
      · rfl
      · intro r hr
        rw [h.interch, hp]
        by_cases hrp : r = M.pivots M.lu.cols
        · rw [hrp, Function.update_self]
        · rw [Function.update_of_ne hrp, hrest r hr]
  rw [M'.interchange_eq, M.interchange_eq, h.rows, hnew]
  rfl

theorem entry_low (h : Inserted M w p mult flag M') {r k : Nat} (hr : r < M.lu.rows) (hk : k < M.pivots M.lu.cols) :
    M'.lu.entry r k = M.lu.entry (Equiv.swap (M.pivots M.lu.cols) p r) k := by
  have hle := M.pivots_le M.lu.cols
  rw [h.entry r hr k (by omega), if_neg (by omega), if_neg (by omega)]

theorem upper_old (h : Inserted M w p mult flag M') (hF : Factors M m) {r j : Nat} (hr : r < M.lu.rows)
    (hj : j < M.lu.cols) : M'.lu.upper.entry r j = M.lu.upper.entry r j := by
  show (if r ≤ j then M'.lu.entry r j else 0) = if r ≤ j then M.lu.entry r j else 0
  split_ifs with hrj
  · rw [h.entry r hr j hj.le, if_neg (by omega), if_neg (by omega)]
    by_cases hlow : r < M.pivots M.lu.cols
    · rw [h.swap_low hlow]
    · have hs := h.swap_high (not_lt.1 hlow) hr
      rw [hF.rows] at hr hs
      rw [hF.cols] at hj hs hlow
      rw [hF.corner hr hj (by omega) (by omega), hF.cols, hF.corner hs.2 hj hs.1 (by omega)]
  · rfl

theorem upper_new (h : Inserted M w p mult flag M') {r : Nat} (hr : r < M.lu.rows) :
    M'.lu.upper.entry r M.lu.cols =
      if r ≤ M.pivots M.lu.cols then M.lMul w (Equiv.swap (M.pivots M.lu.cols) p r) else 0 := by
  have hle := M.pivots_le M.lu.cols
  show (if r ≤ M.lu.cols then M'.lu.entry r M.lu.cols else 0) = _
  rw [h.entry r hr _ le_rfl]
  split_ifs <;> first | rfl | omega

/-! ## The columns still solve -/

theorem lowered_old (h : Inserted M w p mult flag M') (hF : Factors M m) {j : Nat} (hj : j < m.cols) :
    M'.Lowered (M'.interchange fun i => m.entry i j) fun r => M'.lu.upper.entry r j := by
  intro r hr
  have hsolved : ∀ r < M.lu.rows, M.interchange (fun i => m.entry i j) r = M.lu.upper.entry r j +
      ∑ k ∈ Finset.range (min M.lu.cols r), M.lu.entry r k * M.lu.upper.entry k j := hF.solved j hj
  have hrank := M.pivots_le M.lu.cols
  rw [h.rows] at hr
  dsimp only
  rw [h.interchange_eq hF, h.cols, h.upper_old hF hr (hF.cols ▸ hj)]
  have hzero : ∀ k, M.pivots M.lu.cols ≤ k → k < M.lu.rows → M.lu.upper.entry k j = 0 := fun k hk hkr =>
    hF.upper_zero_rank (hF.rows ▸ hkr) hj (hF.cols ▸ hk)
  by_cases hlow : r < M.pivots M.lu.cols
  · rw [h.swap_low hlow, hsolved r hr, min_eq_right (by omega), min_eq_right (by omega)]
    congr 1
    refine Finset.sum_congr rfl fun k hk => ?_
    have hk := Finset.mem_range.1 hk
    rw [h.entry_low hr (by omega), h.swap_low hlow, h.upper_old hF (by omega) (hF.cols ▸ hj)]
  · have hs := h.swap_high (not_lt.1 hlow) hr
    rw [hsolved _ hs.2, hzero _ (not_lt.1 hlow) hr, hzero _ hs.1 hs.2]
    congr 1
    rw [sum_range_of_zero (k := M.pivots M.lu.cols) (n := min (M.lu.cols + 1) r) (by omega),
      hF.sum_low hs.2 hs.1]
    · refine Finset.sum_congr rfl fun k hk => ?_
      have hk := Finset.mem_range.1 hk
      rw [h.entry_low hr hk, h.upper_old hF (by omega) (hF.cols ▸ hj)]
    · intro k hk hkr
      rw [h.upper_old hF (by omega) (hF.cols ▸ hj), hzero k hk (by omega), mul_zero]

theorem lowered_new (h : Inserted M w p mult flag M') (hF : Factors M m) :
    M'.Lowered (M'.interchange w) fun r => M'.lu.upper.entry r M.lu.cols := by
  intro r hr
  have hsolved := M.lMul_lowered w
  have hrank := M.pivots_le M.lu.cols
  rw [h.rows] at hr
  dsimp only
  rw [h.interchange_eq hF, h.cols, h.upper_new hr]
  have hlowsum : ∀ n ≤ M.pivots M.lu.cols, n ≤ r → ∑ k ∈ Finset.range n, M'.lu.entry r k * M'.lu.upper.entry k M.lu.cols =
      ∑ k ∈ Finset.range n, M.lu.entry (Equiv.swap (M.pivots M.lu.cols) p r) k * M.lMul w k := by
    intro n hn hnr
    refine Finset.sum_congr rfl fun k hk => ?_
    have hk := Finset.mem_range.1 hk
    rw [h.entry_low hr (by omega), h.upper_new (by omega), if_pos (by omega), h.swap_low (i := k) (by omega)]
  by_cases hlow : r < M.pivots M.lu.cols
  · rw [if_pos hlow.le, min_eq_right (by omega), hlowsum r hlow.le le_rfl, h.swap_low hlow, hsolved r hr,
      min_eq_right (by omega)]
  · have hs := h.swap_high (not_lt.1 hlow) hr
    rw [hsolved _ hs.2, hF.sum_low hs.2 hs.1]
    by_cases heq : r = M.pivots M.lu.cols
    · rw [if_pos heq.le, min_eq_right (by omega), hlowsum r heq.le le_rfl, ← heq]
    · rw [if_neg (by omega), sum_range_of_zero (k := M.pivots M.lu.cols + 1) (n := min (M.lu.cols + 1) r) (by omega),
        Finset.sum_range_succ, hlowsum _ le_rfl (by omega), h.entry r hr _ hrank, if_pos ⟨rfl, by omega⟩,
        h.upper_new (by omega), if_pos le_rfl, Equiv.swap_apply_left]
      · cases hflag : flag with
        | true =>
          rw [(h.nonzero hflag).2.2.2 r (by omega) hr]
          ring
        | false =>
          obtain ⟨hp, hz⟩ := h.allZero hflag
          rw [(hz r (by omega) hr).2, hp, Equiv.swap_self, Equiv.refl_apply, (hz r (by omega) hr).1]
          ring
      · intro k hk hkr
        rw [h.upper_new (by omega), if_neg (by omega), mul_zero]

end Inserted

/-- An insertion turns a factorization of `m` into one of `m` with the column added. -/
theorem Factors.inserted (hF : Factors M m) (h : Inserted M w p mult flag M') : Factors M' (m.addCol w) := by
  have hcols : (m.addCol w).cols = M.lu.cols + 1 := by rw [hF.cols]; rfl
  have hrows : (m.addCol w).rows = M.lu.rows := hF.rows.symm
  have hle := h.le
  have hpl := M.pivots_le M.lu.cols
  have hrank : M.pivots M.lu.cols ≤ M.lu.rows := hF.cols ▸ hF.rows ▸ hF.rank_le
  have hlast := h.pivots_last
  -- the entries of an old column on and above the diagonal
  have hold : ∀ j < M.lu.cols, ∀ r < M.lu.rows, r ≤ j →
      M'.lu.entry r j = M.lu.entry (Equiv.swap (M.pivots M.lu.cols) p r) j := by
    intro j hj r hr hrj
    rw [h.entry r hr j hj.le, if_neg (by omega), if_neg (by omega)]
  have hcorner : ∀ j < M.lu.cols, ∀ r < M.lu.rows, M.pivots M.lu.cols ≤ r → M.pivots M.lu.cols ≤ j →
      M.lu.entry (Equiv.swap (M.pivots M.lu.cols) p r) j = 0 := by
    intro j hj r hr hpr hpj
    have hs := h.swap_high hpr hr
    rw [hF.rows] at hs
    rw [hF.cols] at hs hj hpj ⊢
    exact hF.corner hs.2 hj hs.1 hpj
  refine ⟨h.rows.trans hrows.symm, h.cols.trans hcols.symm, ?_, ?_, ?_, ?_, ?_, ?_, ?_⟩ <;>
    simp only [hcols, hrows, hlast]
  · intro r hr
    rw [h.interch]
    by_cases hrp : r = M.pivots M.lu.cols
    · rw [hrp, Function.update_self]
      rcases h.lt with hp | hp <;> omega
    · rw [Function.update_of_ne hrp]
      rw [hF.rows] at hr ⊢
      exact hF.interch_lt r hr
  · intro r hr
    rw [h.interch]
    by_cases hrp : r = M.pivots M.lu.cols
    · rw [hrp, Function.update_self]
      cases hflag : flag with
      | true =>
        rw [hflag, if_pos rfl] at hr
        omega
      | false => exact (h.allZero hflag).1
    · rw [Function.update_of_ne hrp]
      refine hF.interch_rest r ?_
      rw [← hF.cols]
      omega
  · cases hflag : flag with
    | true => exact (h.nonzero hflag).1
    | false => exact hrank
  · intro j hj hpiv
    rcases Nat.lt_succ_iff_lt_or_eq.1 hj with hj | rfl
    · rw [h.cpvt, Function.update_of_ne (by omega)] at hpiv
      have hmono := M.pivots_mono (Nat.succ_le_of_lt hj)
      rw [Nat.succ_eq_add_one, pivots_succ, hpiv, if_pos rfl] at hmono
      rw [h.pivots_old hj.le, hold j hj _ (by omega) (M.pivots_le j), h.swap_low (by omega)]
      exact hF.pivot j (hF.cols ▸ hj) hpiv
    · rw [h.cpvt, Function.update_self] at hpiv
      obtain ⟨hlt, -, hne, -⟩ := h.nonzero hpiv
      rw [h.pivots_old le_rfl, h.entry _ hlt _ le_rfl, if_neg (by omega), if_pos rfl, if_pos le_rfl,
        Equiv.swap_apply_left]
      exact hne
  · intro j hj r hr hpr hrj
    rcases Nat.lt_succ_iff_lt_or_eq.1 hj with hj | rfl
    · rw [h.pivots_old hj] at hpr
      rw [hold j hj r hr hrj]
      by_cases hlow : r < M.pivots M.lu.cols
      · rw [h.swap_low hlow]
        exact hF.zero j (hF.cols ▸ hj) r (hF.rows ▸ hr) hpr hrj
      · exact hcorner j hj r hr (by omega) (by omega)
    · rw [hlast] at hpr
      rw [h.entry r hr _ le_rfl, if_neg (by omega), if_pos rfl]
      split_ifs with hrp
      · cases hflag : flag with
        | true =>
          rw [hflag, if_pos rfl] at hpr
          omega
        | false =>
          obtain ⟨hp, hz⟩ := h.allZero hflag
          rw [hp, Equiv.swap_self]
          exact (hz r (by omega) hr).1
      · rfl
  · intro j hj r hr hpj hjr
    rw [h.entry r hr j (by omega)]
    split_ifs with h1 h2 h3
    · cases hflag : flag with
      | true =>
        rw [hflag, if_pos rfl] at hpj
        omega
      | false => exact ((h.allZero hflag).2 r (by omega) hr).2
    · omega
    · rfl
    · exact hcorner j (by omega) r hr (by omega) (by omega)
  · intro j hj
    rcases Nat.lt_succ_iff_lt_or_eq.1 hj with hj | rfl
    · have hne : j ≠ m.cols := hF.cols ▸ hj.ne
      have hcol : (fun i => (m.addCol w).entry i j) = fun i => m.entry i j := by
        funext i
        exact if_neg hne
      rw [hcol]
      exact h.lowered_old hF (hF.cols ▸ hj)
    · have hcol : (fun i => (m.addCol w).entry i M.lu.cols) = w := by
        funext i
        exact if_pos hF.cols
      rw [hcol]
      exact h.lowered_new hF

/-! ## `Cfactor_And_Insert` -/

variable [DecidableEq K]

/-- `Cfactor` below the last row: the pivot is not zero unless the rest of the column is. -/
theorem cfactor_spec (M : LuMat K) (w : Nat → K) {k : Nat} (hk : k < M.lu.rows) :
    ∃ p, k ≤ p ∧ p < M.lu.rows ∧
      M.cfactor w k = (fun i => if M.lMul w p ≠ 0 ∧ k < i ∧ i < M.lu.rows then
        M.lMul w (Equiv.swap k p i) / M.lMul w p else M.lMul w (Equiv.swap k p i), p) ∧
      (M.lMul w p = 0 → p = k ∧ ∀ i, k ≤ i → i < M.lu.rows → M.lMul w i = 0) := by
  obtain ⟨p, hp⟩ : ∃ p, p = ((List.range' k (M.lu.rows - k)).find? fun r => M.lMul w r ≠ 0).getD k := ⟨_, rfl⟩
  have hrange : k ≤ p ∧ p < M.lu.rows ∧
      (M.lMul w p = 0 → p = k ∧ ∀ i, k ≤ i → i < M.lu.rows → M.lMul w i = 0) := by
    cases hfind : (List.range' k (M.lu.rows - k)).find? fun r => M.lMul w r ≠ 0 with
    | none =>
      rw [hfind] at hp
      refine ⟨hp.ge, hp ▸ hk, fun _ => ⟨hp, fun i hi hir => ?_⟩⟩
      have := List.find?_eq_none.1 hfind i (List.mem_range'_1.2 ⟨hi, by omega⟩)
      simpa using this
    | some q =>
      rw [hfind] at hp
      obtain rfl : p = q := hp
      have hmem := List.mem_range'_1.1 (List.mem_of_find?_eq_some hfind)
      have hne := List.find?_some hfind
      exact ⟨hmem.1, by omega, fun hz => absurd hz (by simpa using hne)⟩
  refine ⟨p, hrange.1, hrange.2.1, ?_, hrange.2.2⟩
  rw [cfactor, if_neg hk.ne]
  dsimp only
  rw [← hp]
  -- exchanging a row with itself does nothing, so both branches are the exchange
  have hswap : (if p ≠ k then swapEntries (M.lMul w) k p else M.lMul w) = M.lMul w ∘ Equiv.swap k p := by
    split_ifs with h
    · exact swapEntries_eq _ _ _
    · rw [not_not.1 h, Equiv.swap_self]
      rfl
  rw [hswap, forRange_update (Nat.lt_succ_self k) (fun _ q x => x / q)]
  simp only [Function.comp_apply, Equiv.swap_apply_left]
  by_cases hz : M.lMul w p = 0
  · simp only [hz, ne_eq, not_true_eq_false, if_false, false_and]
    rfl
  · simp only [hz, ne_eq, not_false_eq_true, if_true, true_and, Nat.succ_le_iff]

omit [DecidableEq K] in
theorem placeColumn_entry (lu : Mat K) {k : Nat} (w : Nat → K) {i j : Nat} (hi : i < lu.rows) :
    (placeColumn lu k w).entry i j = if j = k ∧ k < i then w i
      else if j = lu.cols then if i ≤ k then w i else 0 else lu.entry i j := by
  rw [placeColumn]
  split_ifs <;> simp only [Mat.addCol, Mat.updateCol] <;> grind

omit [DecidableEq K] in
theorem placeColumn_size (lu : Mat K) (k : Nat) (w : Nat → K) :
    (placeColumn lu k w).rows = lu.rows ∧ (placeColumn lu k w).cols = lu.cols + 1 := by
  rw [placeColumn]
  split_ifs <;> exact ⟨rfl, rfl⟩

omit [Field K] [DecidableEq K] in
theorem swapRows_if (lu : Mat K) (k p : Nat) : (if p ≠ k then lu.swapRows p k else lu) =
    ⟨lu.rows, lu.cols, fun i j => lu.entry (Equiv.swap k p i) j⟩ := by
  split_ifs with h
  · rw [Mat.swapRows]
    simp only [swapEntries_eq, Equiv.swap_comm p k]
    rfl
  · rw [not_not.1 h, Equiv.swap_self]
    rfl

/-- The insertion with all rows taken: the column is not a pivot. -/
theorem inserted_full (hF : Factors M m) (w : Nat → K) (hfull : M.pivots M.lu.cols = M.lu.rows) :
    Inserted M w (M.pivots M.lu.cols) (fun _ => 0) false
      ⟨placeColumn M.lu (M.pivots M.lu.cols) (M.lMul w), M.interch, Function.update M.cpvt M.lu.cols false⟩ := by
  have hself : M.interch (M.pivots M.lu.cols) = M.pivots M.lu.cols := hF.interch_rest _ (hF.cols ▸ le_rfl)
  refine ⟨(placeColumn_size ..).1, (placeColumn_size ..).2, ?_, rfl, le_rfl, Or.inr rfl, fun i hi j hj => ?_,
    fun h => absurd h (by decide), fun _ => ⟨rfl, fun i hi hir => by omega⟩⟩
  · funext r
    by_cases hr : r = M.pivots M.lu.cols
    · rw [hr, Function.update_self, hself]
    · rw [Function.update_of_ne hr]
  · have hno : ¬ (j = M.pivots M.lu.cols ∧ M.pivots M.lu.cols < i) := by omega
    dsimp only
    rw [placeColumn_entry _ _ hi, if_neg hno, if_neg hno, Equiv.swap_self]
    rfl

/-- The insertion with a row left: the column is a pivot unless it is zero from that row on. -/
theorem inserted_row (w : Nat → K) {p : Nat} (hrow : M.pivots M.lu.cols < M.lu.rows) (hp : M.pivots M.lu.cols ≤ p)
    (hpr : p < M.lu.rows) (hz : M.lMul w p = 0 →
      p = M.pivots M.lu.cols ∧ ∀ i, M.pivots M.lu.cols ≤ i → i < M.lu.rows → M.lMul w i = 0) {col : Nat → K}
    (hcol : col = fun i => if M.lMul w p ≠ 0 ∧ M.pivots M.lu.cols < i ∧ i < M.lu.rows then
      M.lMul w (Equiv.swap (M.pivots M.lu.cols) p i) / M.lMul w p
      else M.lMul w (Equiv.swap (M.pivots M.lu.cols) p i)) :
    Inserted M w p col (decide (M.lMul w p ≠ 0))
      ⟨placeColumn ⟨M.lu.rows, M.lu.cols, fun i j => M.lu.entry (Equiv.swap (M.pivots M.lu.cols) p i) j⟩
        (M.pivots M.lu.cols) col, Function.update M.interch (M.pivots M.lu.cols) p,
        Function.update M.cpvt M.lu.cols (decide (M.lMul w p ≠ 0))⟩ := by
  refine ⟨(placeColumn_size ..).1, (placeColumn_size ..).2, rfl, rfl, hp, Or.inl hpr, fun i hi j hj => ?_,
    fun hne => ?_, fun heq => ?_⟩
  · have hi : i < (Mat.mk M.lu.rows M.lu.cols fun i j =>
        M.lu.entry (Equiv.swap (M.pivots M.lu.cols) p i) j).rows := hi
    dsimp only
    rw [placeColumn_entry _ _ hi]
    refine ite_congr rfl (fun _ => rfl) fun _ => ite_congr rfl (fun _ => ?_) fun _ => rfl
    refine ite_congr rfl (fun hle => ?_) fun _ => rfl
    rw [hcol]
    exact if_neg (by omega)
  · have hne : M.lMul w p ≠ 0 := of_decide_eq_true hne
    refine ⟨hrow, hpr, hne, fun i hi hir => ?_⟩
    rw [hcol]
    dsimp only
    rw [if_pos ⟨hne, hi, hir⟩, div_mul_cancel₀ _ hne]
  · have heq : M.lMul w p = 0 := not_not.1 (of_decide_eq_false heq)
    obtain ⟨hpk, hall⟩ := hz heq
    refine ⟨hpk, fun i hi hir => ⟨hall i hi hir, ?_⟩⟩
    rw [hcol]
    dsimp only
    rw [if_neg (fun h => h.1 heq), hpk, Equiv.swap_self]
    exact hall i hi hir

/-- The matrix is left alone or the column is inserted; the former only where it was allowed and the rest of the column
is zero, and the latter, where it was allowed, only with a pivot. -/
theorem cfactorAndInsert_spec (hF : Factors M m) (w : Nat → K) (only : Bool) :
    (only = true ∧ M.cfactorAndInsert w only = (M, false) ∧
      ∀ i, M.pivots M.lu.cols ≤ i → i < M.lu.rows → M.lMul w i = 0) ∨
    ∃ p mult flag M', M.cfactorAndInsert w only = (M', true) ∧ Inserted M w p mult flag M' ∧
      (only = true → flag = true) := by
  have hrank : M.pivots M.lu.cols ≤ M.lu.rows := hF.cols ▸ hF.rows ▸ hF.rank_le
  by_cases hfull : M.pivots M.lu.cols = M.lu.rows
  · cases only with
    | true =>
      refine Or.inl ⟨rfl, ?_, fun i hi hir => by omega⟩
      rw [cfactorAndInsert, if_pos ⟨hfull, rfl⟩]
    | false =>
      refine Or.inr ⟨_, _, _, _, ?_, inserted_full hF w hfull, fun h => absurd h (by decide)⟩
      have hcf : M.cfactor w (M.pivots M.lu.cols) = (M.lMul w, M.lu.rows) := by rw [cfactor, if_pos hfull]
      rw [cfactorAndInsert, if_neg (by simp), hcf]
      dsimp only
      rw [if_neg (by simp), if_neg (by omega : ¬ M.pivots M.lu.cols < M.lu.rows)]
  · have hrow : M.pivots M.lu.cols < M.lu.rows := lt_of_le_of_ne hrank hfull
    obtain ⟨p, hp, hpr, hcf, hz⟩ := M.cfactor_spec w hrow
    obtain ⟨col, hcol⟩ : ∃ col : Nat → K, col = fun i => if M.lMul w p ≠ 0 ∧ M.pivots M.lu.cols < i ∧ i < M.lu.rows then
      M.lMul w (Equiv.swap (M.pivots M.lu.cols) p i) / M.lMul w p
      else M.lMul w (Equiv.swap (M.pivots M.lu.cols) p i) := ⟨_, rfl⟩
    have hpiv : col (M.pivots M.lu.cols) = M.lMul w p := by
      rw [hcol]
      dsimp only
      rw [if_neg (by omega), Equiv.swap_apply_left]
    rw [← hcol] at hcf
    rw [cfactorAndInsert, if_neg (fun h => hfull h.1), hcf]
    dsimp only
    rw [hpiv, if_pos hrow, swapRows_if]
    split_ifs with honly
    · exact Or.inl ⟨honly.1, rfl, (hz honly.2).2⟩
    · exact Or.inr ⟨_, _, _, _, rfl, inserted_row w hrow hp hpr hz hcol,
        fun ho => decide_eq_true fun h => honly ⟨ho, h⟩⟩

/-- The constructor factors its matrix. -/
theorem factors_luMat (m : Mat K) : Factors (luMat m) m := by
  have hall : ∀ c, Factors (forRange 0 c (fun c M => (M.cfactorAndInsert (fun r => m.entry r c) false).1)
      ⟨⟨m.rows, 0, fun _ _ => 0⟩, fun r => r, fun _ => false⟩) ⟨m.rows, c, m.entry⟩ := by
    intro c
    induction c with
    | zero => exact factors_empty m.rows _ m.entry
    | succ c ih =>
      rw [forRange_succ (Nat.zero_le _)]
      generalize forRange 0 c _ _ = M at ih
      rcases cfactorAndInsert_spec ih (fun r => m.entry r c) false with h | ⟨p, mult, flag, M', hM', hins, -⟩
      · exact absurd h.1 (by decide)
      · rw [hM']
        have hadd : (⟨m.rows, c + 1, m.entry⟩ : Mat K) = Mat.addCol ⟨m.rows, c, m.entry⟩ fun r => m.entry r c := by
          rw [Mat.addCol, Mat.updateCol]
          congr 1
          funext i j
          split_ifs with hj
          · exact congrArg _ hj
          · rfl
        rw [hadd]
        exact ih.inserted hins
  exact hall m.cols

end LuMat

end Path64.Lu

import Path64.Lu.Insert

/-!
# Solving with a factored matrix

* `Factors.solves_iff` : `m x = b` exactly when the upper factor times `x` is `b` after `L_Mul`;
* `backSolve_spec`, `uSolve_eq_some`, `uSolve_eq_none` : `U_Solve` solves the upper system or finds a nonzero entry below
  the rank;
* `Factors.particularSolution_some`, `Factors.particularSolution_none` : a solution where there is one;
* `Factors.kernel` : one kernel vector for each column that is not a pivot;
* `Factors.insert_true_iff` : `Cfactor_And_Insert` takes a column exactly when it is not a combination of the others;
* `Factors.unfactor_entry`, `Factors.inv_spec` : the matrix back, and its inverse.
-/

namespace Path64.Lu.LuMat

variable {K : Type} [Field K] {M : LuMat K} {m : Mat K} {f g b x : Nat → K}

/-! ## `L_Mul` -/

theorem Factors.perm_lt (h : Factors M m) {i : Nat} (hi : i < m.rows) : M.perm M.lu.rows i < m.rows :=
  LuMat.perm_lt (h.rows ▸ h.interch_lt) h.rows.le hi

theorem Factors.perm_symm_lt (h : Factors M m) {i : Nat} (hi : i < m.rows) : (M.perm M.lu.rows)⁻¹ i < m.rows :=
  LuMat.perm_symm_lt (h.rows ▸ h.interch_lt) h.rows.le hi

theorem Factors.interchange_inj (h : Factors M m) :
    (∀ r < m.rows, M.interchange f r = M.interchange g r) ↔ ∀ r < m.rows, f r = g r := by
  simp only [M.interchange_eq, Function.comp_apply]
  refine ⟨fun heq r hr => ?_, fun heq r hr => heq _ (h.perm_lt hr)⟩
  have hinv := heq _ (h.perm_symm_lt hr)
  rwa [← Equiv.Perm.mul_apply, mul_inv_cancel] at hinv

/-- Neither does `L_Mul`. -/
theorem Factors.lMul_inj (h : Factors M m) :
    (∀ r < m.rows, M.lMul f r = M.lMul g r) ↔ ∀ r < m.rows, f r = g r := by
  rw [← h.interchange_inj (f := f)]
  constructor
  · intro heq r hr
    rw [M.lMul_lowered f r (h.rows ▸ hr), M.lMul_lowered g r (h.rows ▸ hr), heq r hr]
    congr 1
    refine Finset.sum_congr rfl fun k hk => ?_
    have hk := Finset.mem_range.1 hk
    rw [heq k (by omega)]
  · intro heq r hr
    refine (M.lMul_lowered f).unique (fun r hr => ?_) r (h.rows ▸ hr)
    rw [heq r (h.rows ▸ hr)]
    exact M.lMul_lowered g r hr

/-- `L_Mul` of a combination of the columns is that combination of the upper factor's columns. -/
theorem Factors.lMul_mulVec (h : Factors M m) (x : Nat → K) :
    ∀ r < m.rows, M.lMul (m.mulVec x) r = M.lu.upper.mulVec x r := by
  rw [← h.rows]
  refine (M.lMul_lowered _).unique fun r hr => ?_
  have hcols : M.lu.upper.cols = m.cols := h.cols
  rw [M.interchange_eq]
  simp only [Function.comp_apply, Mat.mulVec, hcols]
  have hcol : ∀ j < m.cols, m.entry (M.perm M.lu.rows r) j * x j = M.lu.upper.entry r j * x j +
      ∑ k ∈ Finset.range (min M.lu.cols r), M.lu.entry r k * (M.lu.upper.entry k j * x j) := by
    intro j hj
    have hsol := h.solved j hj r hr
    rw [M.interchange_eq] at hsol
    have hsol : m.entry (M.perm M.lu.rows r) j = M.lu.upper.entry r j +
      ∑ k ∈ Finset.range (min M.lu.cols r), M.lu.entry r k * M.lu.upper.entry k j := hsol
    rw [hsol, add_mul, Finset.sum_mul]
    simp only [mul_assoc]
  rw [Finset.sum_congr rfl fun j hj => hcol j (Finset.mem_range.1 hj), Finset.sum_add_distrib, Finset.sum_comm]
  simp only [Finset.mul_sum]

theorem Factors.solves_iff (h : Factors M m) : (∀ r < m.rows, m.mulVec x r = b r) ↔
    ∀ r < m.rows, M.lu.upper.mulVec x r = M.lMul b r := by
  rw [← h.lMul_inj]
  exact forall_congr' fun r => imp_congr_right fun hr => by rw [h.lMul_mulVec x r hr]

/-! ## `U_Solve` -/

theorem forRange_sub (s : Nat → K) (t : K) (lo hi : Nat) :
    forRange lo hi (fun i t => t - s i) t = t - ∑ i ∈ Finset.Ico lo hi, s i := by
  induction hi with
  | zero => rw [forRange_of_le (Nat.zero_le _), Finset.Ico_eq_empty (by omega), Finset.sum_empty, sub_zero]
  | succ hi ih =>
    by_cases h : lo ≤ hi
    · rw [forRange_succ h, ih, Finset.sum_Ico_succ_top h]
      ring
    · rw [forRange_of_le (by omega), Finset.Ico_eq_empty (by omega), Finset.sum_empty, sub_zero]

/-- What the columns before `c` get, the others keeping theirs. -/
theorem Factors.backSolve_spec (h : Factors M m) (b : Nat → K) (free : Int) : ∀ c ≤ m.cols, ∀ out : Nat → K,
    (∀ j, c ≤ j → M.backSolve b free c ((M.pivots c : Int) - 1) out j = out j) ∧
    ∀ j < c, if M.cpvt j then ∑ cc ∈ Finset.Ico j m.cols, M.lu.entry (M.pivots j) cc *
        M.backSolve b free c ((M.pivots c : Int) - 1) out cc = b (M.pivots j)
      else M.backSolve b free c ((M.pivots c : Int) - 1) out j = if (j : Int) = free then 1 else 0 := by
  intro c
  induction c with
  | zero => exact fun _ out => ⟨fun _ _ => rfl, fun j hj => absurd hj (Nat.not_lt_zero j)⟩
  | succ c ih =>
    intro hc out
    rw [backSolve]
    by_cases hp : M.cpvt c = true
    · have hrow : ((M.pivots (c + 1) : Nat) : Int) - 1 = M.pivots c := by
        rw [pivots_succ, if_pos hp]
        omega
      rw [hrow, Int.toNat_natCast, if_pos hp, h.cols, forRange_sub]
      generalize hout : Function.update out c _ = out'
      obtain ⟨hkeep, hsolve⟩ := ih (by omega) out'
      generalize M.backSolve b free c _ out' = x at hkeep hsolve
      have hafter : ∀ j, c + 1 ≤ j → x j = out j := by
        intro j hj
        rw [hkeep j (by omega), ← hout, Function.update_of_ne (by omega)]
      refine ⟨hafter, fun j hj => ?_⟩
      rcases Nat.lt_succ_iff_lt_or_eq.1 hj with hj | rfl
      · exact hsolve j hj
      · have hrest : ∑ cc ∈ Finset.Ico (j + 1) m.cols, M.lu.entry (M.pivots j) cc * x cc =
            ∑ cc ∈ Finset.Ico (j + 1) m.cols, M.lu.entry (M.pivots j) cc * out cc :=
          Finset.sum_congr rfl fun cc hcc => by rw [hafter cc (Finset.mem_Ico.1 hcc).1]
        rw [if_pos hp, Finset.sum_eq_sum_Ico_succ_bot hc, hrest, hkeep j le_rfl, ← hout, Function.update_self,
          mul_div_cancel₀ _ (h.pivot j hc hp)]
        ring
    · have hrow : M.pivots (c + 1) = M.pivots c := by
        rw [pivots_succ, if_neg hp]
        rfl
      rw [hrow, if_neg hp]
      generalize hout : Function.update out c _ = out'
      obtain ⟨hkeep, hsolve⟩ := ih (by omega) out'
      generalize M.backSolve b free c _ out' = x at hkeep hsolve
      refine ⟨fun j hj => ?_, fun j hj => ?_⟩
      · rw [hkeep j (by omega), ← hout, Function.update_of_ne (by omega)]
      · rcases Nat.lt_succ_iff_lt_or_eq.1 hj with hj | rfl
        · exact hsolve j hj
        · rw [if_neg hp, hkeep j le_rfl, ← hout, Function.update_self]

omit [Field K] in
theorem exists_pivot (M : LuMat K) {c k : Nat} (hk : k < M.pivots c) : ∃ j < c, M.cpvt j = true ∧ M.pivots j = k := by
  induction c with
  | zero => exact absurd hk (Nat.not_lt_zero k)
  | succ c ih =>
    rw [pivots_succ] at hk
    by_cases hc : k < M.pivots c
    · obtain ⟨j, hj, hp⟩ := ih hc
      exact ⟨j, hj.trans c.lt_succ_self, hp⟩
    · split_ifs at hk with hp
      · exact ⟨c, c.lt_succ_self, hp, by omega⟩
      · omega

theorem Factors.upper_backSolve (h : Factors M m) {b : Nat → K} (free : Int) (out : Nat → K)
    (hb : ∀ r < m.rows, M.pivots m.cols ≤ r → b r = 0) : ∀ r < m.rows,
    M.lu.upper.mulVec (M.backSolve b free m.cols ((M.pivots m.cols : Int) - 1) out) r = b r := by
  intro r hr
  obtain ⟨-, hsolve⟩ := h.backSolve_spec b free m.cols le_rfl out
  generalize M.backSolve b free m.cols _ out = x at hsolve
  have hcols : M.lu.upper.cols = m.cols := h.cols
  rw [Mat.mulVec, hcols]
  by_cases hrank : r < M.pivots m.cols
  · obtain ⟨j, hj, hp, rfl⟩ := M.exists_pivot hrank
    have hrow := hsolve j hj
    rw [if_pos hp] at hrow
    -- the row is zero before its pivot column, and from there on it is the row of the array
    rw [Finset.range_eq_Ico, ← Finset.sum_Ico_consecutive _ (Nat.zero_le j) hj.le, ← hrow]
    rw [Finset.sum_eq_zero, zero_add]
    · refine Finset.sum_congr rfl fun cc hcc => ?_
      have hle := (M.pivots_le j).trans (Finset.mem_Ico.1 hcc).1
      rw [show M.lu.upper.entry (M.pivots j) cc = M.lu.entry (M.pivots j) cc from if_pos hle]
    · intro cc hcc
      have hcc := (Finset.mem_Ico.1 hcc).2
      rw [h.upper_zero hr (hcc.trans hj) (M.pivots_mono hcc), zero_mul]
  · rw [hb r hr (not_lt.1 hrank)]
    refine Finset.sum_eq_zero fun cc hcc => ?_
    rw [h.upper_zero_rank hr (Finset.mem_range.1 hcc) (not_lt.1 hrank), zero_mul]

theorem Factors.upper_mulVec_zero (h : Factors M m) (x : Nat → K) {r : Nat} (hr : r < m.rows)
    (hp : M.pivots m.cols ≤ r) : M.lu.upper.mulVec x r = 0 := by
  refine Finset.sum_eq_zero fun cc hcc => ?_
  rw [h.upper_zero_rank hr (h.cols ▸ Finset.mem_range.1 hcc) hp, zero_mul]

/-- `m x = b` has a solution exactly when `b` is zero from the rank on after `L_Mul`. -/
theorem Factors.solvable_iff (h : Factors M m) (b : Nat → K) : (∃ x, ∀ r < m.rows, m.mulVec x r = b r) ↔
    ∀ r < m.rows, M.pivots m.cols ≤ r → M.lMul b r = 0 := by
  constructor
  · rintro ⟨x, hx⟩ r hr hp
    rw [← h.solves_iff.1 hx r hr, h.upper_mulVec_zero x hr hp]
  · intro hz
    exact ⟨_, h.solves_iff.2 (h.upper_backSolve (-1) (fun _ => 0) hz)⟩

theorem Factors.lMul_zero (h : Factors M m) : ∀ r < m.rows, M.lMul (fun _ => 0) r = 0 := by
  have hzero : m.mulVec (fun _ => 0) = fun _ => (0 : K) := by
    funext r
    rw [Mat.mulVec]
    simp only [mul_zero, Finset.sum_const_zero]
  intro r hr
  rw [← hzero, h.lMul_mulVec _ r hr, Mat.mulVec]
  simp only [mul_zero, Finset.sum_const_zero]

variable [DecidableEq K]

theorem Factors.uSolve_eq (h : Factors M m) (b out : Nat → K) (free : Int) : M.uSolve b out free =
    if ∀ r < m.rows, M.pivots m.cols ≤ r → b r = 0 then
      some (M.backSolve b free m.cols ((M.pivots m.cols : Int) - 1) out) else none := by
  have hrank := h.rank_le
  have hany : (List.range' (M.pivots m.cols) (m.rows - M.pivots m.cols)).any (fun r => b r ≠ 0) = true ↔
      ¬ ∀ r < m.rows, M.pivots m.cols ≤ r → b r = 0 := by
    simp only [List.any_eq_true, decide_eq_true_eq, not_forall]
    constructor
    · intro ⟨r, hr, hne⟩
      have hr := List.mem_range'_1.1 hr
      exact ⟨r, by omega, hr.1, hne⟩
    · intro ⟨r, hr, hp, hne⟩
      exact ⟨r, List.mem_range'_1.2 ⟨hp, by omega⟩, hne⟩
  rw [uSolve, h.cols, h.rows]
  by_cases hz : ∀ r < m.rows, M.pivots m.cols ≤ r → b r = 0
  · rw [if_pos hz, if_neg (fun hn => hany.1 hn hz)]
  · rw [if_neg hz, if_pos (hany.2 hz)]

theorem Factors.particularSolution_some (h : Factors M m) {b out x : Nat → K}
    (hx : M.particularSolution b out = some x) : ∀ r < m.rows, m.mulVec x r = b r := by
  rw [particularSolution, h.uSolve_eq] at hx
  split_ifs at hx with hz
  rw [h.solves_iff, ← Option.some.inj hx]
  exact h.upper_backSolve (-1) out hz

theorem Factors.particularSolution_none (h : Factors M m) {b out : Nat → K}
    (hx : M.particularSolution b out = none) : ¬ ∃ x, ∀ r < m.rows, m.mulVec x r = b r := by
  rw [particularSolution, h.uSolve_eq] at hx
  rw [h.solvable_iff]
  split_ifs at hx with hz
  exact hz

/-- A column that is not a pivot gives a kernel vector that is 1 there and 0 in the others of its kind. -/
theorem Factors.kernel (h : Factors M m) {f : Nat} (hf : f < m.cols) (hp : M.cpvt f = false) (out : Nat → K) :
    ∃ x, M.uSolve (fun _ => 0) out f = some x ∧ (∀ r < m.rows, m.mulVec x r = 0) ∧ x f = 1 ∧
      ∀ j < m.cols, M.cpvt j = false → j ≠ f → x j = 0 := by
  refine ⟨_, by rw [h.uSolve_eq, if_pos fun _ _ _ => rfl], ?_, ?_, ?_⟩
  · rw [h.solves_iff]
    intro r hr
    rw [h.lMul_zero r hr]
    exact h.upper_backSolve f out (fun _ _ _ => rfl) r hr
  · have hfree := (h.backSolve_spec (fun _ => 0) f m.cols le_rfl out).2 f hf
    rwa [hp, if_neg Bool.false_ne_true, if_pos rfl] at hfree
  · intro j hj hpj hne
    have hfree := (h.backSolve_spec (fun _ => 0) f m.cols le_rfl out).2 j hj
    rwa [hpj, if_neg Bool.false_ne_true, if_neg (by exact_mod_cast hne)] at hfree

/-! ## `Cfactor_And_Insert` -/

/-- A column is taken exactly when it is not a combination of the others. -/
theorem Factors.insert_true_iff (h : Factors M m) (w : Nat → K) :
    ((M.cfactorAndInsert w true).2 = true ↔ ¬ ∃ x, ∀ r < m.rows, m.mulVec x r = w r) ∧
    ((M.cfactorAndInsert w true).2 = false → (M.cfactorAndInsert w true).1 = M) ∧
    ((M.cfactorAndInsert w true).2 = true → Factors (M.cfactorAndInsert w true).1 (m.addCol w)) := by
  rw [h.solvable_iff]
  rcases cfactorAndInsert_spec h w true with ⟨-, heq, hz⟩ | ⟨p, mult, flag, M', heq, hins, hflag⟩
  · rw [heq]
    rw [h.cols, h.rows] at hz
    exact ⟨iff_of_false Bool.false_ne_true (not_not.2 fun r hr hp => hz r hp hr), fun _ => rfl,
      fun hf => absurd hf Bool.false_ne_true⟩
  · rw [heq]
    obtain ⟨-, hpr, hne, -⟩ := hins.nonzero (hflag rfl)
    refine ⟨iff_of_true rfl fun hall => hne (hall p (h.rows ▸ hpr) (h.cols ▸ hins.le)),
      fun hf => absurd hf.symm Bool.false_ne_true, fun _ => h.inserted hins⟩

end Path64.Lu.LuMat

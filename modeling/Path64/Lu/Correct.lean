import Path64.Lu.Solve
import Mathlib.LinearAlgebra.Matrix.Rank
import Mathlib.LinearAlgebra.Matrix.NonsingularInverse
import Mathlib.LinearAlgebra.Dimension.Constructions
import Mathlib.LinearAlgebra.Matrix.Notation
import Mathlib.Algebra.Field.Rat

/-!
# The factored matrix is right

* `Factors.unfactor_entry` : `Unfactor` gives the matrix back;
* `Factors.rank_eq` : the pivots count the rank;
* `Factors.inv_spec` : `Inv` inverts;
* `luMat_correct` : all of it for a matrix just factored.
-/

namespace Path64.Lu

variable {K : Type} [Field K]

/-! ## Vectors of a fixed length -/

/-- The array of a vector. -/
def ofFin {n : Nat} (x : Fin n → K) (j : Nat) : K := if h : j < n then x ⟨j, h⟩ else 0

theorem ofFin_val {n : Nat} (x : Fin n → K) (j : Fin n) : ofFin x j = x j := dif_pos j.2

theorem Mat.toMatrix_mulVec (m : Mat K) (x : Nat → K) (i : Fin m.rows) :
    m.toMatrix.mulVec (fun j => x j) i = m.mulVec x i := by
  rw [Matrix.mulVec, dotProduct, Mat.mulVec, ← Fin.sum_univ_eq_sum_range (fun j => m.entry i j * x j)]
  rfl

theorem Mat.solvable_iff (m : Mat K) (b : Nat → K) : (∃ x, m.toMatrix.mulVec x = fun i : Fin m.rows => b i) ↔
    ∃ x, ∀ r < m.rows, m.mulVec x r = b r := by
  constructor
  · rintro ⟨x, hx⟩
    refine ⟨ofFin x, fun r hr => ?_⟩
    have hval : (fun j : Fin m.cols => ofFin x j) = x := funext fun j => ofFin_val x j
    rw [← m.toMatrix_mulVec (ofFin x) ⟨r, hr⟩, hval, hx]
  · rintro ⟨x, hx⟩
    exact ⟨fun j => x j, funext fun i => (m.toMatrix_mulVec x i).trans (hx i i.2)⟩

namespace LuMat

variable {M : LuMat K} {m : Mat K}

/-! ## `Unfactor` -/

omit [Field K] in
theorem uninterchange_entry (M : LuMat K) (n : Nat) : ∀ (l : Mat K) (i j : Nat),
    (M.uninterchange l n).entry i j = l.entry ((M.perm n)⁻¹ i) j := by
  induction n with
  | zero => intro l i j; rfl
  | succ n ih =>
    intro l i j
    rw [uninterchange, ih, perm, mul_inv_rev, Equiv.Perm.mul_apply, Equiv.swap_inv]
    split_ifs with h
    · show swapEntries (fun r => l.entry r j) n (M.interch n) _ = _
      rw [swapEntries_eq, Equiv.swap_comm]
      rfl
    · rw [not_not.1 h, Equiv.swap_self]
      rfl

omit [Field K] in
theorem uninterchange_size (M : LuMat K) (n : Nat) : ∀ l : Mat K,
    (M.uninterchange l n).rows = l.rows ∧ (M.uninterchange l n).cols = l.cols := by
  induction n with
  | zero => intro l; exact ⟨rfl, rfl⟩
  | succ n ih =>
    intro l
    rw [uninterchange]
    split_ifs
    · exact ih _
    · exact ih l

theorem sum_lower (lu : Mat K) (y : Nat → K) {r : Nat} (hr : r < lu.rows) :
    ∑ k ∈ Finset.range lu.rows, lu.lower.entry r k * y k =
      y r + ∑ k ∈ Finset.range (min lu.cols r), lu.entry r k * y k := by
  have hterm : ∀ k, lu.lower.entry r k = if r < k then 0 else if r = k then 1 else
    if k < lu.cols then lu.entry r k else 0 := fun k => rfl
  rw [sum_range_of_zero (k := r + 1) (n := lu.rows) (by omega), Finset.sum_range_succ, hterm r, if_neg (by omega),
    if_pos rfl, one_mul, add_comm, sum_range_of_zero (k := min lu.cols r) (n := r) (by omega)]
  · congr 1
    refine Finset.sum_congr rfl fun k hk => ?_
    have hk := Finset.mem_range.1 hk
    rw [hterm k, if_neg (by omega), if_neg (by omega), if_pos (by omega)]
  · intro k hk hkr
    rw [hterm k, if_neg (by omega), if_neg (by omega), if_neg (by omega), zero_mul]
  · intro k hk hkr
    rw [hterm k, if_pos (by omega), zero_mul]

/-- `Unfactor` gives the matrix back. -/
theorem Factors.unfactor_entry (h : Factors M m) {i j : Nat} (hi : i < m.rows) (hj : j < m.cols) :
    M.unfactor.entry i j = m.entry i j := by
  have hsize : (M.uninterchange M.lu.lower M.lu.rows).cols = M.lu.rows := (uninterchange_size M _ _).2
  have hlt : (M.perm M.lu.rows)⁻¹ i < M.lu.rows := h.rows ▸ h.perm_symm_lt hi
  show ∑ k ∈ Finset.range (M.uninterchange M.lu.lower M.lu.rows).cols,
    (M.uninterchange M.lu.lower M.lu.rows).entry i k * M.lu.upper.entry k j = _
  simp only [hsize, uninterchange_entry]
  rw [sum_lower M.lu (fun k => M.lu.upper.entry k j) hlt]
  have hsol := h.solved j hj _ hlt
  rw [M.interchange_eq] at hsol
  rw [← hsol, Function.comp_apply, ← Equiv.Perm.mul_apply, mul_inv_cancel, Equiv.Perm.one_apply]

theorem Factors.unfactor_size (h : Factors M m) : M.unfactor.rows = m.rows ∧ M.unfactor.cols = m.cols :=
  ⟨(uninterchange_size M _ _).1.trans h.rows, h.cols⟩

/-! ## The rank -/

theorem Factors.lMul_add (h : Factors M m) (f g : Nat → K) :
    ∀ r < m.rows, M.lMul (fun i => f i + g i) r = M.lMul f r + M.lMul g r := by
  rw [← h.rows]
  refine (M.lMul_lowered _).unique fun r hr => ?_
  have hf := M.lMul_lowered f r hr
  have hg := M.lMul_lowered g r hr
  rw [M.interchange_eq] at hf hg ⊢
  simp only [Function.comp_apply, mul_add, Finset.sum_add_distrib] at hf hg ⊢
  rw [hf, hg]
  ring

theorem Factors.lMul_smul (h : Factors M m) (a : K) (f : Nat → K) :
    ∀ r < m.rows, M.lMul (fun i => a * f i) r = a * M.lMul f r := by
  rw [← h.rows]
  refine (M.lMul_lowered _).unique fun r hr => ?_
  have hf := M.lMul_lowered f r hr
  rw [M.interchange_eq] at hf ⊢
  simp only [Function.comp_apply] at hf ⊢
  rw [hf, mul_add, Finset.mul_sum]
  congr 1
  exact Finset.sum_congr rfl fun k _ => by ring

/-- `L_Mul` as a linear map. -/
def lMulLin (h : Factors M m) : (Fin m.rows → K) →ₗ[K] (Fin m.rows → K) where
  toFun v i := M.lMul (ofFin v) i
  map_add' u v := by
    have hadd : ofFin (u + v) = fun i => ofFin u i + ofFin v i := by
      funext i
      simp only [ofFin]
      split_ifs
      · rfl
      · exact (add_zero 0).symm
    funext i
    rw [hadd, h.lMul_add _ _ i i.2]
    rfl
  map_smul' a v := by
    have hsmul : ofFin (a • v) = fun i => a * ofFin v i := by
      funext i
      simp only [ofFin]
      split_ifs
      · rfl
      · exact (mul_zero a).symm
    funext i
    rw [hsmul, h.lMul_smul a _ i i.2]
    rfl

theorem lMulLin_injective (h : Factors M m) : Function.Injective (lMulLin h) := by
  intro u v huv
  have heq := h.lMul_inj.1 fun r hr => congrFun huv ⟨r, hr⟩
  funext i
  rw [← ofFin_val u i, ← ofFin_val v i, heq i i.2]

/-- A vector of the first `k` entries, zero after them. -/
def padLin (k n : Nat) : (Fin k → K) →ₗ[K] (Fin n → K) where
  toFun u i := ofFin u i
  map_add' u v := by
    funext i
    simp only [ofFin, Pi.add_apply]
    split_ifs
    · rfl
    · exact (add_zero 0).symm
  map_smul' a v := by
    funext i
    simp only [ofFin, Pi.smul_apply, smul_eq_mul, RingHom.id_apply]
    split_ifs
    · rfl
    · exact (mul_zero a).symm

theorem padLin_injective {k n : Nat} (hk : k ≤ n) : Function.Injective (padLin (K := K) k n) := by
  intro u v huv
  funext i
  have heq := congrFun huv ⟨i, i.2.trans_le hk⟩
  rwa [show padLin k n u ⟨i, _⟩ = u i from ofFin_val u i, show padLin k n v ⟨i, _⟩ = v i from ofFin_val v i] at heq

/-- `L_Mul` takes the column space to the vectors that are zero from the rank on. -/
theorem Factors.range_lMul (h : Factors M m) : LinearMap.range (lMulLin h ∘ₗ m.toMatrix.mulVecLin) =
    LinearMap.range (padLin (K := K) (M.pivots m.cols) m.rows) := by
  ext v
  constructor
  · rintro ⟨x, rfl⟩
    refine ⟨fun k => M.lu.upper.mulVec (ofFin x) k, funext fun i => ?_⟩
    have hx : (fun j : Fin m.cols => ofFin x j) = x := funext fun j => ofFin_val x j
    have hmul : ∀ r < m.rows, ofFin (m.toMatrix.mulVec x) r = m.mulVec (ofFin x) r := by
      intro r hr
      rw [show ofFin (m.toMatrix.mulVec x) r = m.toMatrix.mulVec x ⟨r, hr⟩ from dif_pos hr,
        ← m.toMatrix_mulVec (ofFin x) ⟨r, hr⟩, hx]
    show ofFin (fun k : Fin (M.pivots m.cols) => M.lu.upper.mulVec (ofFin x) k) i =
      M.lMul (ofFin (m.toMatrix.mulVec x)) i
    rw [h.lMul_inj.2 hmul i i.2, h.lMul_mulVec _ i i.2]
    by_cases hi : (i : Nat) < M.pivots m.cols
    · exact dif_pos hi
    · rw [h.upper_mulVec_zero _ i.2 (not_lt.1 hi)]
      exact dif_neg hi
  · rintro ⟨u, rfl⟩
    have hz : ∀ r < m.rows, M.pivots m.cols ≤ r → ofFin u r = 0 := fun r _ hr => dif_neg (not_lt.2 hr)
    have hsolve := h.upper_backSolve (-1) (fun _ => 0) hz
    generalize M.backSolve (ofFin u) (-1) m.cols _ (fun _ => 0) = x at hsolve
    refine ⟨fun j => x j, funext fun i => ?_⟩
    have hmul : ∀ r < m.rows, ofFin (m.toMatrix.mulVec fun j => x j) r = m.mulVec x r := by
      intro r hr
      rw [← m.toMatrix_mulVec x ⟨r, hr⟩]
      exact dif_pos hr
    show M.lMul (ofFin (m.toMatrix.mulVec fun j => x j)) i = ofFin u i
    rw [h.lMul_inj.2 hmul i i.2, h.lMul_mulVec _ i i.2, hsolve i i.2]

/-- The pivots count the rank. -/
theorem Factors.rank_eq (h : Factors M m) : M.pivots m.cols = m.toMatrix.rank := by
  have hmap : Module.finrank K (LinearMap.range (lMulLin h ∘ₗ m.toMatrix.mulVecLin)) = m.toMatrix.rank := by
    rw [LinearMap.range_comp]
    exact (LinearEquiv.finrank_eq (Submodule.equivMapOfInjective _ (lMulLin_injective h) _)).symm
  rw [← hmap, h.range_lMul, LinearMap.finrank_range_of_inj (padLin_injective h.rank_le), Module.finrank_fin_fun]

/-! ## `Inv` -/

omit [Field K] in
theorem cpvt_of_pivots_eq {c : Nat} (h : M.pivots c = c) : ∀ j < c, M.cpvt j = true := by
  intro j hj
  have hall := List.countP_eq_length.1 (h.trans List.length_range.symm)
  exact hall j (List.mem_range.2 hj)

variable [DecidableEq K]

/-- The columns of `Inv` solve for the unit vectors. -/
theorem Factors.inv_cols (h : Factors M m) (hsq : m.rows = m.cols) (hrank : M.pivots m.cols = m.cols) (rval : Mat K)
    (tmpr : Nat → K) : ∃ v, M.inv rval tmpr = some v ∧ v.rows = m.rows ∧ v.cols = m.rows ∧
      ∀ c < m.rows, ∀ r < m.rows, m.mulVec (fun k => v.entry k c) r = if c = r then 1 else 0 := by
  have hsolve : ∀ b out, ∃ x, M.uSolve (M.lMul b) out (-1) = some x ∧ ∀ r < m.rows, m.mulVec x r = b r := by
    intro b out
    cases hx : M.particularSolution b out with
    | none =>
      refine absurd ((h.solvable_iff b).2 fun r hr hp => ?_) (h.particularSolution_none hx)
      omega
    | some x => exact ⟨x, hx, h.particularSolution_some hx⟩
  have hloop : ∀ k ≤ m.rows, ∃ st : Mat K × (Nat → K), (List.range k).foldlM (fun (st : Mat K × (Nat → K)) r => do
        let tmpr ← M.uSolve (M.lMul fun rr => if r = rr then 1 else 0) st.2 (-1)
        some (st.1.updateCol r tmpr, tmpr)) (⟨m.rows, m.rows, rval.entry⟩, tmpr) = some st ∧
      st.1.rows = m.rows ∧ st.1.cols = m.rows ∧
      ∀ c < k, ∀ r < m.rows, m.mulVec (fun i => st.1.entry i c) r = if c = r then 1 else 0 := by
    intro k
    induction k with
    | zero => exact fun _ => ⟨_, rfl, rfl, rfl, fun c hc => absurd hc (Nat.not_lt_zero c)⟩
    | succ k ih =>
      intro hk
      obtain ⟨st, hst, hrows, hcols, hinv⟩ := ih (by omega)
      obtain ⟨x, hx, hmul⟩ := hsolve (fun rr => if k = rr then 1 else 0) st.2
      refine ⟨(st.1.updateCol k x, x), ?_, hrows, hcols, fun c hc r hr => ?_⟩
      · rw [List.range_succ, List.foldlM_append, hst]
        simp only [Option.bind_eq_bind, Option.bind_some, List.foldlM_cons, hx, List.foldlM_nil]
        rfl
      · rcases Nat.lt_succ_iff_lt_or_eq.1 hc with hc | rfl
        · have hcol : (fun i => (st.1.updateCol k x).entry i c) = fun i => st.1.entry i c := by
            funext i
            exact if_neg hc.ne
          rw [hcol]
          exact hinv c hc r hr
        · have hcol : (fun i => (st.1.updateCol c x).entry i c) = x := by
            funext i
            exact if_pos rfl
          rw [hcol]
          exact hmul r hr
  obtain ⟨st, hst, hrows, hcols, hinv⟩ := hloop m.rows le_rfl
  refine ⟨st.1, ?_, hrows, hcols, hinv⟩
  have hpiv : (List.range m.rows).any (fun c => !M.cpvt c) = false := by
    rw [List.any_eq_false]
    intro c hc
    rw [cpvt_of_pivots_eq hrank c (hsq ▸ List.mem_range.1 hc)]
    decide
  rw [inv, h.rows, h.cols, if_neg (not_not.2 hsq), hpiv, if_neg Bool.false_ne_true, hst]
  rfl

/-- `Inv` of a square matrix that is not singular is its inverse. -/
theorem Factors.inv_spec (h : Factors M m) {n : Nat} (hr : m.rows = n) (hc : m.cols = n)
    (hdet : (Matrix.of fun i j : Fin n => m.entry i j).det ≠ 0) (rval : Mat K) (tmpr : Nat → K) :
    ∃ v, M.inv rval tmpr = some v ∧ v.rows = n ∧ v.cols = n ∧
      (Matrix.of fun i j : Fin n => v.entry i j) = (Matrix.of fun i j : Fin n => m.entry i j)⁻¹ := by
  obtain ⟨rows, cols, entry⟩ := m
  obtain rfl : rows = n := hr
  obtain rfl : cols = rows := hc
  have hrank : M.pivots cols = cols := by
    rw [h.rank_eq]
    exact (Matrix.rank_of_det_ne_zero hdet).trans (Fintype.card_fin cols)
  obtain ⟨v, hv, hrows, hcols, hinv⟩ := h.inv_cols rfl hrank rval tmpr
  refine ⟨v, hv, hrows, hcols, (Matrix.inv_eq_right_inv ?_).symm⟩
  ext i j
  rw [Matrix.mul_apply, Matrix.one_apply]
  have hij := hinv j j.2 i i.2
  rw [Mat.mulVec] at hij
  rw [← Fin.sum_univ_eq_sum_range (fun k => entry i k * v.entry k j)] at hij
  refine hij.trans ?_
  simp only [Fin.ext_iff, eq_comm]

/-! ## The factored matrix -/

/-- A matrix just factored: `Unfactor` gives it back, the pivots count its rank, `Particular_Solution` solves where there
is a solution, `U_Solve` gives the kernel, `Cfactor_And_Insert` takes just the columns outside the column space, and
`Inv` inverts. -/
theorem luMat_correct (m : Mat K) :
    ((luMat m).unfactor.rows = m.rows ∧ (luMat m).unfactor.cols = m.cols ∧
      ∀ i < m.rows, ∀ j < m.cols, (luMat m).unfactor.entry i j = m.entry i j) ∧
    (List.range m.cols).countP (luMat m).cpvt = m.toMatrix.rank ∧
    (∀ b out, (((luMat m).particularSolution b out).isSome ↔
        ∃ x, m.toMatrix.mulVec x = fun i : Fin m.rows => b i) ∧
      ∀ x, (luMat m).particularSolution b out = some x → (m.toMatrix.mulVec fun j => x j) = fun i : Fin m.rows => b i) ∧
    (∀ f < m.cols, (luMat m).cpvt f = false → ∀ out, ∃ x, (luMat m).uSolve (fun _ => 0) out f = some x ∧
      (m.toMatrix.mulVec fun j => x j) = 0 ∧ x f = 1 ∧
      ∀ j < m.cols, (luMat m).cpvt j = false → j ≠ f → x j = 0) ∧
    (∀ w, (((luMat m).cfactorAndInsert w true).2 = true ↔
        ¬ ∃ x, m.toMatrix.mulVec x = fun i : Fin m.rows => w i) ∧
      (((luMat m).cfactorAndInsert w true).2 = false → ((luMat m).cfactorAndInsert w true).1 = luMat m)) ∧
    ∀ n, m.rows = n → m.cols = n → (Matrix.of fun i j : Fin n => m.entry i j).det ≠ 0 → ∀ rval tmpr,
      ∃ v, (luMat m).inv rval tmpr = some v ∧ v.rows = n ∧ v.cols = n ∧
        (Matrix.of fun i j : Fin n => v.entry i j) = (Matrix.of fun i j : Fin n => m.entry i j)⁻¹ := by
  have h := factors_luMat m
  refine ⟨⟨h.unfactor_size.1, h.unfactor_size.2, fun i hi j hj => h.unfactor_entry hi hj⟩, h.rank_eq,
    fun b out => ⟨?_, fun x hx => ?_⟩, fun f hf hp out => ?_, fun w => ⟨?_, (h.insert_true_iff w).2.1⟩,
    fun n hr hc hdet rval tmpr => h.inv_spec hr hc hdet rval tmpr⟩
  · rw [m.solvable_iff]
    cases hx : (luMat m).particularSolution b out with
    | none => exact iff_of_false Bool.false_ne_true (h.particularSolution_none hx)
    | some x => exact iff_of_true rfl ⟨x, h.particularSolution_some hx⟩
  · exact funext fun i => (m.toMatrix_mulVec x i).trans (h.particularSolution_some hx i i.2)
  · obtain ⟨x, hx, hker, hone, hzero⟩ := h.kernel hf hp out
    exact ⟨x, hx, funext fun i => (m.toMatrix_mulVec x i).trans (hker i i.2), hone, hzero⟩
  · rw [m.solvable_iff]
    exact (h.insert_true_iff w).1

/-- The matrix `H_s` of the header of `lu_mat.h`, with the factors given there. -/
example : let M := luMat (⟨3, 3, fun i j => (!![0, -1, 1; 0, -1, 0; 0, 0, 0] : Matrix _ _ ℚ) (Fin.ofNat 3 i)
    (Fin.ofNat 3 j)⟩ : Mat ℚ)
    (List.range 3).map (fun i => (List.range 3).map (M.lu.entry i)) = [[0, -1, 1], [1, 0, -1], [0, 0, 0]] ∧
      (List.range 3).map M.cpvt = [false, true, true] := by
  decide +kernel

end LuMat

end Path64.Lu

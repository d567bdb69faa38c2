import Mathlib

/-!
Determinants by elimination, and the resultant as one of them. A matrix is a function of a row
and a column; the block of `count` rows and columns that starts at `k` on the diagonal is what
elimination has not treated yet.

The Sylvester matrix of the textbooks has the coefficients of either polynomial in its rows,
highest first; Mathlib's has them in its columns, lowest first.
-/

namespace PhyNspire.Lib.Sylvester
open Polynomial

variable {K : Type*} [Field K]

/-- The block from the diagonal place `k` on. -/
def block (A : Nat → Nat → K) (k count : Nat) : Matrix (Fin count) (Fin count) K := fun i j => A (k + i) (k + j)

theorem det_block_zero (A : Nat → Nat → K) (k : Nat) : (block A k 0).det = 1 := Matrix.det_isEmpty

theorem det_block_of_empty {A : Nat → Nat → K} {k count : Nat} (empty : ∀ i < count + 1, A (k + i) k = 0) :
    (block A k (count + 1)).det = 0 := by
  apply Matrix.det_eq_zero_of_column_eq_zero 0
  exact fun i => empty i i.isLt

theorem det_block_swap {A B : Nat → Nat → K} {k pivot count : Nat} (below : k < pivot) (inside : pivot < k + (count + 1))
    (top : ∀ j < count + 1, B k (k + j) = A pivot (k + j)) (moved : ∀ j < count + 1, B pivot (k + j) = A k (k + j))
    (others : ∀ i, i ≠ k → i ≠ pivot → ∀ j < count + 1, B i (k + j) = A i (k + j)) :
    (block A k (count + 1)).det = -(block B k (count + 1)).det := by
  let place : Fin (count + 1) := ⟨pivot - k, by omega⟩
  have apart : place ≠ 0 := fun same => by
    have value : pivot - k = 0 := congrArg Fin.val same
    omega
  have here : k + place.val = pivot := by
    change k + (pivot - k) = pivot
    omega
  have rows : block A k (count + 1) = (block B k (count + 1)).submatrix (Equiv.swap 0 place) id := by
    ext i j
    rw [Matrix.submatrix_apply, id_eq, block, block]
    by_cases first : i = 0
    · rw [first, Equiv.swap_apply_left, here, moved j j.isLt]
      rfl
    by_cases second : i = place
    · rw [second, Equiv.swap_apply_right, here]
      exact (top j j.isLt).symm
    · rw [Equiv.swap_apply_of_ne_of_ne first second]
      refine (others _ (fun same => first (Fin.ext ?_)) (fun same => second (Fin.ext ?_)) j j.isLt).symm
      · change i.val = 0
        omega
      · change i.val = pivot - k
        omega
  rw [rows, Matrix.det_permute, Equiv.Perm.sign_swap apart.symm]
  simp

/-- The first row is subtracted from the others so that the rest of the first column vanishes. -/
theorem det_block_clear {A B : Nat → Nat → K} {k count : Nat} (nonzero : A k k ≠ 0)
    (cleared : ∀ i < count, ∀ j < count,
      B (k + 1 + i) (k + 1 + j) = A (k + 1 + i) (k + 1 + j) - A (k + 1 + i) k / A k k * A k (k + 1 + j)) :
    (block A k (count + 1)).det = A k k * (block B (k + 1) count).det := by
  let reduced : Matrix (Fin (count + 1)) (Fin (count + 1)) K := fun i j =>
    if i = 0 then A k (k + j) else A (k + i) (k + j) - A (k + i) k / A k k * A k (k + j)
  have same : (block A k (count + 1)).det = reduced.det := by
    apply Matrix.det_eq_of_forall_row_eq_smul_add_const (fun i : Fin (count + 1) => if i = 0 then 0 else A (k + i) k / A k k) 0 (if_pos rfl)
    intro i j
    by_cases first : i = 0
    · simp [reduced, block, first]
    · simp [reduced, block, first]
  have column : ∀ i : Fin count, reduced i.succ 0 = 0 := by
    intro i
    have step : reduced i.succ 0 = A (k + (i + 1)) k - A (k + (i + 1)) k / A k k * A k k := if_neg (Fin.succ_ne_zero i)
    rw [step, div_mul_cancel₀ _ nonzero, sub_self]
  have rest : reduced.submatrix (Fin.succAbove 0) Fin.succ = block B (k + 1) count := by
    ext i j
    have step : reduced i.succ j.succ =
        A (k + (i + 1)) (k + (j + 1)) - A (k + (i + 1)) k / A k k * A k (k + (j + 1)) := if_neg (Fin.succ_ne_zero i)
    have row : k + (i.val + 1) = k + 1 + i.val := by omega
    have column : k + (j.val + 1) = k + 1 + j.val := by omega
    rw [Matrix.submatrix_apply, Fin.succAbove_zero, step, block, cleared i i.isLt j j.isLt, row, column]
  rw [same, Matrix.det_succ_column_zero, Fin.sum_univ_succ, Finset.sum_eq_zero, add_zero, rest]
  · change (-1) ^ 0 * A k k * _ = _
    rw [pow_zero, one_mul]
  · intro i _
    rw [column, mul_zero, zero_mul]

/-- The rows of either polynomial, each one place further to the right. -/
def sylvesterRow (f : K[X]) (m row column : Nat) : K :=
  if row ≤ column ∧ column ≤ row + m then f.coeff (m - (column - row)) else 0

def sylvesterMatrix (f g : K[X]) (m n row column : Nat) : K :=
  if row < n then sylvesterRow f m row column else sylvesterRow g n (row - n) column

theorem det_sylvesterMatrix (f g : K[X]) (m n : Nat) :
    (block (sylvesterMatrix f g m n) 0 (m + n)).det = f.resultant g m n := by
  have reversed : block (sylvesterMatrix f g m n) 0 (m + n) =
      (sylvester f g m n).transpose.submatrix Fin.revPerm Fin.revPerm := by
    ext r c
    rw [Matrix.submatrix_apply, Matrix.transpose_apply, block, zero_add, zero_add, sylvesterMatrix, sylvester, Matrix.of_apply]
    rcases lt_or_ge r.val n with upper | lower
    · have place : Fin.revPerm r = Fin.natAdd m (⟨n - 1 - r, by omega⟩ : Fin n) := by
        apply Fin.ext
        change m + n - (r.val + 1) = m + (n - 1 - r.val)
        omega
      rw [if_pos upper, place, Fin.addCases_right, sylvesterRow, Fin.revPerm_apply, Fin.val_rev]
      simp only [Set.mem_Icc]
      by_cases inside : r.val ≤ c ∧ c ≤ r.val + m
      · rw [if_pos inside, if_pos (by omega)]
        congr 1
        omega
      · rw [if_neg inside, if_neg (by omega)]
    · have place : Fin.revPerm r = Fin.castAdd n (⟨m - 1 - (r - n), by omega⟩ : Fin m) := by
        apply Fin.ext
        change m + n - (r.val + 1) = m - 1 - (r.val - n)
        omega
      rw [if_neg (by omega), place, Fin.addCases_left, sylvesterRow, Fin.revPerm_apply, Fin.val_rev]
      simp only [Set.mem_Icc]
      by_cases inside : r.val - n ≤ c ∧ c ≤ r.val - n + n
      · rw [if_pos inside, if_pos (by omega)]
        congr 1
        omega
      · rw [if_neg inside, if_neg (by omega)]
  rw [reversed, Matrix.det_submatrix_equiv_self, Matrix.det_transpose, resultant]

theorem resultant_eq_prod_roots (f g : K[X]) : algebraMap K (AlgebraicClosure K) (f.resultant g) =
    algebraMap K (AlgebraicClosure K) f.leadingCoeff ^ g.natDegree *
      ((f.aroots (AlgebraicClosure K)).map fun root => aeval root g).prod := by
  have mapped := resultant_map_map f g f.natDegree g.natDegree (algebraMap K (AlgebraicClosure K))
  rw [← mapped]
  have degree : f.natDegree = (f.map (algebraMap K (AlgebraicClosure K))).natDegree := (natDegree_map _).symm
  rw [degree, resultant_eq_prod_eval _ _ _ (natDegree_map _).le (IsAlgClosed.splits _), leadingCoeff_map, aroots]
  congr 3
  ext root
  rw [aeval_def, eval_map]

theorem not_isCoprime_iff {f g : K[X]} (nonzero : f ≠ 0) :
    ¬IsCoprime f g ↔ ∃ factor : K[X], 0 < factor.natDegree ∧ factor ∣ f ∧ factor ∣ g := by
  constructor
  · intro shared
    by_contra none
    apply shared
    apply isCoprime_of_dvd
    · exact fun both => nonzero both.1
    · intro factor notUnit factorNonzero left right
      apply none
      refine ⟨factor, ?_, left, right⟩
      apply Nat.pos_of_ne_zero
      intro constant
      exact notUnit ((isUnit_iff_degree_eq_zero).mpr ((degree_eq_iff_natDegree_eq factorNonzero).mpr constant))
  · rintro ⟨factor, positive, left, right⟩ coprime
    have unit := coprime.isUnit_of_dvd' left right
    exact positive.ne' (natDegree_eq_zero_of_isUnit unit)

theorem resultant_eq_zero_iff_shared {f g : K[X]} (nonzero : f ≠ 0) :
    f.resultant g = 0 ↔ ∃ factor : K[X], 0 < factor.natDegree ∧ factor ∣ f ∧ factor ∣ g := by
  rw [resultant_eq_zero_iff, ← not_isCoprime_iff nonzero]
  exact and_iff_right (.inl nonzero)

theorem shared_derivative_iff [CharZero K] {f : K[X]} (nonzero : f ≠ 0) :
    (∃ factor : K[X], 0 < factor.natDegree ∧ factor ∣ f ∧ factor ∣ derivative f) ↔
      ∃ factor : K[X], 0 < factor.natDegree ∧ factor ^ 2 ∣ f := by
  rw [← not_isCoprime_iff nonzero]
  change ¬f.Separable ↔ _
  rw [PerfectField.separable_iff_squarefree, Squarefree, not_forall]
  constructor
  · rintro ⟨factor, repeated⟩
    rw [Classical.not_imp] at repeated
    refine ⟨factor, Nat.pos_of_ne_zero fun constant => repeated.2 ?_, by rw [pow_two]; exact repeated.1⟩
    have factorNonzero : factor ≠ 0 := by
      rintro rfl
      exact nonzero (zero_dvd_iff.mp (by simpa using repeated.1))
    exact (isUnit_iff_degree_eq_zero).mpr ((degree_eq_iff_natDegree_eq factorNonzero).mpr constant)
  · rintro ⟨factor, positive, repeated⟩
    refine ⟨factor, fun square => positive.ne' (natDegree_eq_zero_of_isUnit (square ?_))⟩
    rwa [← pow_two]

end PhyNspire.Lib.Sylvester

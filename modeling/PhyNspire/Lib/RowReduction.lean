import Mathlib.LinearAlgebra.FiniteDimensional.Basic
import Mathlib.Tactic.LinearCombination

/-!
Gauss-Jordan elimination of a square matrix over a field. A matrix is a function of a row and
a column of which the first `size` of each count.

The null space survives every elimination step, and once all columns have been treated it is
solved by its free columns.
-/

namespace PhyNspire.Lib.RowReduction

variable {K : Type} [Field K] {size : Nat}

def rowProduct (A : Nat → Nat → K) (v : Fin size → K) (row : Nat) : K := ∑ j : Fin size, A row j * v j

def nullSpace (A : Nat → Nat → K) (size : Nat) : Submodule K (Fin size → K) where
  carrier := {v | ∀ row < size, rowProduct A v row = 0}
  zero_mem' := fun row _ => by simp [rowProduct]
  add_mem' := fun {v w} left right row inside => by
    have sum : rowProduct A (v + w) row = rowProduct A v row + rowProduct A w row := by
      simp only [rowProduct, Pi.add_apply, mul_add, Finset.sum_add_distrib]
    rw [sum, left row inside, right row inside, add_zero]
  smul_mem' := fun a v member row inside => by
    have product : rowProduct A (a • v) row = a * rowProduct A v row := by
      simp only [rowProduct, Pi.smul_apply, smul_eq_mul, Finset.mul_sum]
      exact Finset.sum_congr rfl fun j _ => by ring
    rw [product, member row inside, mul_zero]

theorem mem_nullSpace {A : Nat → Nat → K} {v : Fin size → K} :
    v ∈ nullSpace A size ↔ ∀ row < size, rowProduct A v row = 0 := Iff.rfl

/-- The first `done` columns have been treated: each pivot column is a unit vector, and the
rows below the pivots are clear. -/
structure Echelon (A : Nat → Nat → K) (size done : Nat) (pivots : List Nat) : Prop where
  bounded : ∀ p ∈ pivots, p < done
  nodup : pivots.Nodup
  short : pivots.length ≤ size
  unit : ∀ i (inside : i < pivots.length), ∀ row < size, A row pivots[i] = if row = i then 1 else 0
  clear : ∀ row < size, pivots.length ≤ row → ∀ column < done, A row column = 0

theorem Echelon.start (A : Nat → Nat → K) (size : Nat) : Echelon A size 0 [] :=
  ⟨by simp, List.nodup_nil, Nat.zero_le _, by simp, by simp⟩

section
variable {A B : Nat → Nat → K} {done : Nat} {pivots : List Nat}

theorem Echelon.skip (echelon : Echelon A size done pivots)
    (empty : ∀ row < size, pivots.length ≤ row → A row done = 0) : Echelon A size (done + 1) pivots := by
  refine ⟨fun p member => (echelon.bounded p member).trans (Nat.lt_succ_self _), echelon.nodup, echelon.short,
    echelon.unit, fun row inside below column treated => ?_⟩
  rcases Nat.lt_succ_iff_lt_or_eq.mp treated with earlier | rfl
  · exact echelon.clear row inside below column earlier
  · exact empty row inside below

/-- Swap the pivot row into place, scale it, and subtract multiples of it from the others. -/
structure Pivoting (A B : Nat → Nat → K) (size rank pivot column : Nat) : Prop where
  inside : rank < size
  inside' : pivot < size
  nonzero : A pivot column ≠ 0
  scaled : ∀ j < size, B rank j = (A pivot column)⁻¹ * A pivot j
  cleared : ∀ row < size, row ≠ rank → ∀ j < size,
    B row j = A (Equiv.swap rank pivot row) j - A (Equiv.swap rank pivot row) column * B rank j

theorem swap_lt {rank pivot row : Nat} (inside : rank < size) (inside' : pivot < size) (inside'' : row < size) :
    Equiv.swap rank pivot row < size := by
  rw [Equiv.swap_apply_def]
  split_ifs <;> assumption

theorem Pivoting.nullSpace_eq {rank pivot column : Nat} (pivoting : Pivoting A B size rank pivot column) :
    nullSpace B size = nullSpace A size := by
  ext v
  rw [mem_nullSpace, mem_nullSpace]
  have scaled : rowProduct B v rank = (A pivot column)⁻¹ * rowProduct A v pivot := by
    simp only [rowProduct, Finset.mul_sum]
    exact Finset.sum_congr rfl fun j _ => by rw [pivoting.scaled j j.isLt]; ring
  have cleared : ∀ row < size, row ≠ rank → rowProduct B v row =
      rowProduct A v (Equiv.swap rank pivot row) - A (Equiv.swap rank pivot row) column * rowProduct B v rank := by
    intro row inside different
    simp only [rowProduct, Finset.mul_sum, ← Finset.sum_sub_distrib]
    exact Finset.sum_congr rfl fun j _ => by rw [pivoting.cleared row inside different j j.isLt]; ring
  constructor
  · intro zero row inside
    have pivot_zero : rowProduct A v pivot = 0 := by
      have at_rank := zero rank pivoting.inside
      rw [scaled] at at_rank
      exact (mul_eq_zero.mp at_rank).resolve_left (inv_ne_zero pivoting.nonzero)
    by_cases here : row = pivot
    · rw [here, pivot_zero]
    · have different : Equiv.swap rank pivot row ≠ rank := fun same =>
        here (by rw [← Equiv.swap_apply_self rank pivot row, same, Equiv.swap_apply_left])
      have other := cleared _ (swap_lt pivoting.inside pivoting.inside' inside) different
      rw [Equiv.swap_apply_self, zero _ (swap_lt pivoting.inside pivoting.inside' inside),
        zero rank pivoting.inside, mul_zero, sub_zero] at other
      exact other.symm
  · intro zero row inside
    by_cases here : row = rank
    · rw [here, scaled, zero pivot pivoting.inside', mul_zero]
    · rw [cleared row inside here, zero _ (swap_lt pivoting.inside pivoting.inside' inside), scaled,
        zero pivot pivoting.inside', mul_zero, mul_zero, sub_zero]

theorem Echelon.pivot (echelon : Echelon A size done pivots) {pivot : Nat} (column : done < size)
    (below : pivots.length ≤ pivot) (pivoting : Pivoting A B size pivots.length pivot done) :
    Echelon B size (done + 1) (pivots ++ [done]) := by
  have outside : done ∉ pivots := fun member => Nat.lt_irrefl _ (echelon.bounded done member)
  have earlier : ∀ j < done, B pivots.length j = 0 := fun j treated => by
    rw [pivoting.scaled j (treated.trans column), echelon.clear pivot pivoting.inside' below j treated, mul_zero]
  have swapped_below : ∀ row < size, pivots.length ≤ row → pivots.length ≤ Equiv.swap pivots.length pivot row := by
    intro row _ low
    rw [Equiv.swap_apply_def]
    split_ifs <;> omega
  refine ⟨?_, ?_, ?_, ?_, ?_⟩
  · intro p member
    rcases List.mem_append.mp member with old | new
    · exact (echelon.bounded p old).trans (Nat.lt_succ_self _)
    · rw [List.mem_singleton.mp new]
      exact Nat.lt_succ_self _
  · refine List.nodup_append.mpr ⟨echelon.nodup, List.nodup_singleton _, ?_⟩
    rintro p old q new rfl
    exact outside (List.mem_singleton.mp new ▸ old)
  · rw [List.length_append, List.length_singleton]
    exact pivoting.inside
  · intro i inside row inside_row
    rcases Nat.lt_succ_iff_lt_or_eq.mp (by simpa using inside) with old | last
    · -- An old pivot column is not touched.
      have treated := echelon.bounded _ (List.getElem_mem old)
      rw [List.getElem_append_left old]
      by_cases here : row = pivots.length
      · rw [here, earlier _ treated, if_neg (Nat.ne_of_gt old)]
      · rw [pivoting.cleared row inside_row here _ (treated.trans column), earlier _ treated, mul_zero, sub_zero,
          echelon.unit i old _ (swap_lt pivoting.inside pivoting.inside' inside_row)]
        have same : Equiv.swap pivots.length pivot row = i ↔ row = i := by
          rw [Equiv.swap_apply_def]
          split_ifs <;> omega
        simp only [same]
    · have value : (pivots ++ [done])[i] = done := by
        subst last
        simp
      rw [value]
      by_cases here : row = pivots.length
      · rw [here, pivoting.scaled done column, inv_mul_cancel₀ pivoting.nonzero, if_pos last.symm]
      · rw [pivoting.cleared row inside_row here done column, pivoting.scaled done column,
          inv_mul_cancel₀ pivoting.nonzero, mul_one, sub_self, if_neg (by omega)]
  · intro row inside low j treated
    rw [List.length_append, List.length_singleton] at low
    have different : row ≠ pivots.length := by omega
    rcases Nat.lt_succ_iff_lt_or_eq.mp treated with old | rfl
    · rw [pivoting.cleared row inside different j (old.trans column), earlier j old, mul_zero, sub_zero]
      exact echelon.clear _ (swap_lt pivoting.inside pivoting.inside' inside) (swapped_below row inside (by omega)) j old
    · rw [pivoting.cleared row inside different j column, pivoting.scaled j column,
        inv_mul_cancel₀ pivoting.nonzero, mul_one, sub_self]

/-- The columns without a pivot. -/
abbrev Free (size : Nat) (pivots : List Nat) : Type := {j : Fin size // j.val ∉ pivots}

theorem Echelon.card_free (echelon : Echelon A size size pivots) :
    Fintype.card (Free size pivots) = size - pivots.length := by
  have pivot_card : Fintype.card {j : Fin size // j.val ∈ pivots} = pivots.length := by
    rw [← List.toFinset_card_of_nodup echelon.nodup, Fintype.card_subtype, ← Finset.card_map Fin.valEmbedding]
    congr 1
    ext p
    simp only [Finset.mem_map, Finset.mem_filter, Finset.mem_univ, true_and, Fin.valEmbedding_apply, List.mem_toFinset]
    exact ⟨fun ⟨j, member, same⟩ => same ▸ member, fun member => ⟨⟨p, echelon.bounded p member⟩, member, rfl⟩⟩
  have total := Fintype.card_subtype_compl fun j : Fin size => j.val ∈ pivots
  rw [pivot_card, Fintype.card_fin] at total
  exact total

theorem Echelon.rowProduct_eq (echelon : Echelon A size size pivots) (v : Fin size → K) {i : Nat}
    (inside : i < pivots.length) :
    rowProduct A v i = v ⟨pivots[i], echelon.bounded _ (List.getElem_mem inside)⟩ +
      ∑ j : Free size pivots, A i j.val * v j.val := by
  have row : i < size := inside.trans_le echelon.short
  rw [rowProduct, ← Finset.sum_filter_add_sum_filter_not Finset.univ fun j : Fin size => j.val ∈ pivots]
  congr 1
  · rw [Finset.sum_eq_single ⟨pivots[i], echelon.bounded _ (List.getElem_mem inside)⟩]
    · simp only
      rw [echelon.unit i inside i row, if_pos rfl, one_mul]
    · intro j member different
      obtain ⟨k, inside_k, same⟩ := List.getElem_of_mem (Finset.mem_filter.mp member).2
      have other : i ≠ k := by
        rintro rfl
        exact different (Fin.ext same.symm)
      have zero := echelon.unit k inside_k i row
      rw [same, if_neg other] at zero
      rw [zero, zero_mul]
    · intro absent
      exact (absent (Finset.mem_filter.mpr ⟨Finset.mem_univ _, List.getElem_mem inside⟩)).elim
  · exact Finset.sum_subtype _ (fun j => by simp) _

theorem Echelon.rowProduct_clear (echelon : Echelon A size size pivots) (v : Fin size → K) {row : Nat}
    (inside : row < size) (below : pivots.length ≤ row) : rowProduct A v row = 0 := by
  rw [rowProduct]
  exact Finset.sum_eq_zero fun j _ => by rw [echelon.clear row inside below j j.isLt, zero_mul]

theorem Echelon.solved (echelon : Echelon A size size pivots) (v : Fin size → K) :
    v ∈ nullSpace A size ↔ ∀ i (inside : i < pivots.length),
      v ⟨pivots[i], echelon.bounded _ (List.getElem_mem inside)⟩ = -∑ j : Free size pivots, A i j.val * v j.val := by
  rw [mem_nullSpace]
  constructor
  · intro zero i inside
    have here := zero i (inside.trans_le echelon.short)
    rw [echelon.rowProduct_eq v inside] at here
    exact eq_neg_of_add_eq_zero_left here
  · intro forced row inside
    rcases Nat.lt_or_ge row pivots.length with pivot | below
    · rw [echelon.rowProduct_eq v pivot, forced row pivot, neg_add_cancel]
    · exact echelon.rowProduct_clear v inside below

theorem Echelon.ext_free (echelon : Echelon A size size pivots) {v w : Fin size → K} (member : v ∈ nullSpace A size)
    (member' : w ∈ nullSpace A size) (same : ∀ j : Free size pivots, v j.val = w j.val) : v = w := by
  funext j
  by_cases pivot : j.val ∈ pivots
  · obtain ⟨i, inside, here⟩ := List.getElem_of_mem pivot
    have position : j = ⟨pivots[i], echelon.bounded _ (List.getElem_mem inside)⟩ := Fin.ext here.symm
    rw [position, (echelon.solved v).mp member i inside, (echelon.solved w).mp member' i inside]
    simp only [same]
  · exact same ⟨j, pivot⟩

/-- The vector of the null space whose only free entry is a one. -/
structure Solution (A : Nat → Nat → K) (pivots : List Nat) (j : Free size pivots) (v : Fin size → K) : Prop where
  one : v j.val = 1
  zero : ∀ k : Free size pivots, k ≠ j → v k.val = 0
  forced : ∀ i (inside : i < pivots.length) (column : pivots[i] < size), v ⟨pivots[i], column⟩ = -A i j.val

theorem Solution.mem (echelon : Echelon A size size pivots) {j : Free size pivots} {v : Fin size → K}
    (solution : Solution A pivots j v) : v ∈ nullSpace A size := by
  refine (echelon.solved v).mpr fun i inside => ?_
  rw [solution.forced i inside, Finset.sum_eq_single j]
  · rw [solution.one, mul_one]
  · intro k _ different
    rw [solution.zero k different, mul_zero]
  · exact fun absent => absurd (Finset.mem_univ j) absent

theorem Echelon.eq_sum (echelon : Echelon A size size pivots) {solution : Free size pivots → Fin size → K}
    (solutions : ∀ j, Solution A pivots j (solution j)) {v : Fin size → K} (member : v ∈ nullSpace A size) :
    v = ∑ j, v j.val • solution j := by
  refine echelon.ext_free member (Submodule.sum_mem _ fun j _ => Submodule.smul_mem _ _ ((solutions j).mem echelon))
    fun k => ?_
  rw [Finset.sum_apply, Finset.sum_eq_single k]
  · rw [Pi.smul_apply, (solutions k).one, smul_eq_mul, mul_one]
  · intro j _ different
    rw [Pi.smul_apply, (solutions j).zero k (Ne.symm different), smul_zero]
  · exact fun absent => absurd (Finset.mem_univ k) absent

theorem Echelon.finrank_nullSpace (echelon : Echelon A size size pivots) {solution : Free size pivots → Fin size → K}
    (solutions : ∀ j, Solution A pivots j (solution j)) :
    Module.finrank K (nullSpace A size) = size - pivots.length := by
  let free : nullSpace A size →ₗ[K] Free size pivots → K :=
    { toFun := fun v j => v.val j.val
      map_add' := fun _ _ => rfl
      map_smul' := fun _ _ => rfl }
  have bijective : Function.Bijective free := by
    constructor
    · intro v w same
      exact Subtype.ext (echelon.ext_free v.property w.property fun j => congrFun same j)
    · intro w
      refine ⟨⟨∑ j, w j • solution j, Submodule.sum_mem _ fun j _ =>
        Submodule.smul_mem _ _ ((solutions j).mem echelon)⟩, funext fun k => ?_⟩
      change (∑ j, w j • solution j) k.val = w k
      rw [Finset.sum_apply, Finset.sum_eq_single k]
      · rw [Pi.smul_apply, (solutions k).one, smul_eq_mul, mul_one]
      · intro j _ different
        rw [Pi.smul_apply, (solutions j).zero k (Ne.symm different), smul_zero]
      · exact fun absent => absurd (Finset.mem_univ k) absent
  rw [(LinearEquiv.ofBijective free bijective).finrank_eq, Module.finrank_fintype_fun_eq_card, echelon.card_free]

end

end PhyNspire.Lib.RowReduction

import PhyNspire.Tensor.Determinants

/-!
What the stored components denote, and that the determinant and the inverse are those of the
matrix that the components denote.
-/

namespace PhyNspire.Tensor
open Platform Cas Lib.Stateful

variable {State Ref K : Type}

/-- The stored components of a tensor denote the components `t`. -/
structure TensorMeans [CommRing K] (value : Ref → Option K) (tensor : Tensor Ref) (t : List Nat → K) : Prop where
  zero : value tensor.zero = some 0
  components : ∀ indices entry, tensorGet tensor indices = .ok entry →
    ∃ k, value entry.ref = some k ∧ t indices = entry.sign * k

def Inside (tensor : Tensor Ref) (indices : List Nat) : Prop :=
  indices.length = tensor.rank ∧ ∀ index ∈ indices, index < tensor.dimension

variable {tensor : Tensor Ref} {indices : List Nat}

theorem inside_iff :
    Inside tensor indices ↔ ¬(indices.length ≠ tensor.rank ∨ ∃ index ∈ indices, tensor.dimension ≤ index) := by
  unfold Inside
  push_neg
  rfl

theorem tensorFlatOf_snoc (dimension : Nat) (indices : List Nat) (index : Nat) :
    tensorFlatOf dimension (indices ++ [index]) = tensorFlatOf dimension indices * dimension + index := by
  unfold tensorFlatOf
  rw [List.foldl_append]
  rfl

theorem tensorFlatOf_lt {dimension : Nat} (inside : ∀ index ∈ indices, index < dimension) :
    tensorFlatOf dimension indices < dimension ^ indices.length := by
  induction indices using List.reverseRecOn with
  | nil => exact Nat.one_pos
  | append_singleton indices index ih =>
    have before := ih (fun other member => inside other (List.mem_append_left _ member))
    have last := inside index (List.mem_append_right _ (List.mem_singleton_self index))
    rw [tensorFlatOf_snoc, List.length_append, List.length_singleton, pow_succ]
    calc tensorFlatOf dimension indices * dimension + index
        < (tensorFlatOf dimension indices + 1) * dimension := by rw [Nat.add_one_mul]; omega
      _ ≤ dimension ^ indices.length * dimension := Nat.mul_le_mul_right dimension before

theorem tensorFlatOf_injective {dimension : Nat} {l l' : List Nat} (length : l.length = l'.length)
    (inside : ∀ index ∈ l, index < dimension) (inside' : ∀ index ∈ l', index < dimension)
    (same : tensorFlatOf dimension l = tensorFlatOf dimension l') : l = l' := by
  induction l using List.reverseRecOn generalizing l' with
  | nil => exact (List.length_eq_zero_iff.mp length.symm).symm
  | append_singleton l index ih =>
    cases l' using List.reverseRecOn with
    | nil => simp at length
    | append_singleton l' index' =>
      have last := inside index (List.mem_append_right _ (List.mem_singleton_self index))
      have last' := inside' index' (List.mem_append_right _ (List.mem_singleton_self index'))
      rw [tensorFlatOf_snoc, tensorFlatOf_snoc] at same
      have quotient := congrArg (· / dimension) same
      have remainder := congrArg (· % dimension) same
      simp only [Nat.mul_comm _ dimension, Nat.mul_add_div (Nat.zero_lt_of_lt last), Nat.div_eq_of_lt last,
        Nat.div_eq_of_lt last', Nat.add_zero] at quotient
      simp only [Nat.mul_comm _ dimension, Nat.mul_add_mod, Nat.mod_eq_of_lt last, Nat.mod_eq_of_lt last'] at remainder
      have shorter : l.length = l'.length := by simpa using length
      rw [ih shorter (fun other member => inside other (List.mem_append_left _ member))
        (fun other member => inside' other (List.mem_append_left _ member)) quotient, remainder]

theorem Inside.flat_lt (inside : Inside tensor indices) :
    tensorFlatOf tensor.dimension indices < tensor.values.length := by
  have bound := tensorFlatOf_lt inside.2
  rw [inside.1] at bound
  exact tensor.sized ▸ bound

theorem tensorGet_inside (inside : Inside tensor indices) :
    tensorGet tensor indices = .ok ⟨tensor.values.getD (tensorFlatOf tensor.dimension indices) tensor.zero,
      tensor.signs.getD (tensorFlatOf tensor.dimension indices) 0⟩ := by
  unfold tensorGet tensorGetFlat
  rw [if_neg (inside_iff.mp inside), if_pos inside.flat_lt]

theorem inside_of_get {entry : Component Ref}
    (read : tensorGet tensor indices = .ok entry) : Inside tensor indices := by
  unfold tensorGet at read
  split_ifs at read with bad
  exact inside_iff.mpr bad

section Store

variable {tensor : Tensor Ref} {indices : List Nat}

theorem inside_store {flat : Nat} {value : Ref} :
    Inside (tensor.store flat value) indices ↔ Inside tensor indices := Iff.rfl

theorem tensorGet_store (inside : Inside tensor indices) (value : Ref) (other : List Nat) :
    tensorGet (tensor.store (tensorFlatOf tensor.dimension indices) value) other =
      if other = indices then .ok ⟨value, 1⟩ else tensorGet tensor other := by
  by_cases inside' : Inside tensor other
  · have bound := inside.flat_lt
    rw [tensorGet_inside (inside_store.mpr inside'), tensorGet_inside inside']
    unfold Tensor.store
    simp only [List.getD_eq_getElem?_getD, List.getElem?_set]
    by_cases same : other = indices
    · rw [same, if_pos rfl, if_pos bound, if_pos rfl, tensor.paired, if_pos bound, if_pos rfl]
      rfl
    · have apart : tensorFlatOf tensor.dimension indices ≠ tensorFlatOf tensor.dimension other := fun flat =>
        same (tensorFlatOf_injective (inside.1.trans inside'.1.symm) inside.2 inside'.2 flat).symm
      rw [if_neg apart, if_neg apart, if_neg same]
  · have different : other ≠ indices := fun same => inside' (same ▸ inside)
    have bad := not_not.mp (fun no => inside' (inside_iff.mpr no))
    rw [if_neg different, tensorGet, tensorGet, if_pos bad]
    exact if_pos bad

theorem tensorSet_inside (inside : Inside tensor indices) (value : Ref) :
    tensorSet tensor indices value = .ok (tensor.store (tensorFlatOf tensor.dimension indices) value) := by
  unfold tensorSet
  rw [if_neg (inside_iff.mp inside)]

end Store

section Arithmetic

variable [CommRing K] {cas : Cas State Ref} {value : Ref → Option K} {mayStop : Prop}
  (arithmetic : Arithmetic cas value mayStop)
include arithmetic

variable {tensor : Tensor Ref} {t : List Nat → K}

theorem wp_tensorComponentExpression (means : TensorMeans value tensor t)
    {indices : List Nat} (inside : Inside tensor indices) (s : State) :
    wp (tensorComponentExpression cas tensor indices) (fun ref _ => value ref = some (t indices)) (fun _ _ => mayStop) s := by
  unfold tensorComponentExpression
  have read := tensorGet_inside inside
  generalize (⟨tensor.values.getD (tensorFlatOf tensor.dimension indices) tensor.zero,
    tensor.signs.getD (tensorFlatOf tensor.dimension indices) 0⟩ : Component Ref) = entry at read
  obtain ⟨k, denotes, total⟩ := means.components indices entry read
  rw [read]
  dsimp only
  rcases tensorGet_sign read with sign | sign | sign
  · rw [if_pos sign, wp_pure, total, sign, Int.cast_zero, zero_mul]
    exact means.zero
  · rw [if_neg (by omega), if_pos (by omega), wp_pure, total, sign, Int.cast_one, one_mul]
    exact denotes
  · rw [if_neg (by omega), if_neg (by omega), total, sign, Int.cast_neg, Int.cast_one, neg_one_mul]
    exact arithmetic.neg entry.ref k s denotes

theorem wp_alternate (place : Nat) {ref : Ref} {k : K} (denotes : value ref = some k) (s : State) :
    wp (alternate cas place ref) (fun result _ => value result = some ((-1) ^ place * k)) (fun _ _ => mayStop) s := by
  unfold alternate
  refine wp_ite (fun even => ?_) (fun odd => ?_)
  · rw [wp_pure, (Nat.even_iff.mpr even).neg_one_pow, one_mul]
    exact denotes
  · rw [(Nat.odd_iff.mpr (by omega)).neg_one_pow, neg_one_mul]
    exact arithmetic.neg ref k s denotes

variable {n : Nat}

omit arithmetic in
theorem val_succAbove (removed : Fin (n + 1)) (index : Fin n) :
    (removed.succAbove index : Nat) = skip removed index := by
  unfold Fin.succAbove skip
  simp only [Fin.lt_def, Fin.val_castSucc]
  split_ifs
  · rfl
  · rfl

omit arithmetic in
theorem skip_lt {removed index : Nat} (inside : index < n) : skip removed index < n + 1 := by
  unfold skip
  split_ifs <;> omega

theorem wp_determinantRecursive (n : Nat) {matrix : Nat → Nat → Ref} {g : Nat → Nat → K}
    (denote : ∀ i j, i < n + 1 → j < n + 1 → value (matrix i j) = some (g i j)) (s : State) :
    wp (determinantRecursive cas (n + 1) matrix)
      (fun ref _ => value ref = some (Matrix.of (fun i j : Fin (n + 1) => g i j)).det) (fun _ _ => mayStop) s := by
  induction n generalizing matrix g s with
  | zero =>
    rw [determinantRecursive, wp_pure, Matrix.det_fin_one]
    exact denote 0 0 Nat.one_pos Nat.one_pos
  | succ n ih =>
    rw [determinantRecursive]
    refine wp_then (arithmetic.number 0 s) fun sum t zero => ?_
    rw [Int.cast_zero] at zero
    let minor (column : Nat) : K := (Matrix.of (fun i j : Fin (n + 1) => g (i + 1) (skip column j))).det
    have expansion : (Matrix.of (fun i j : Fin (n + 2) => g i j)).det =
        ∑ c ∈ Finset.range (0 + (n + 2)), (-1) ^ c * (g 0 c * minor c) := by
      rw [Nat.zero_add, Finset.sum_range, Matrix.det_succ_row_zero]
      refine Finset.sum_congr rfl (fun c _ => ?_)
      rw [Matrix.of_apply, mul_assoc]
      congr 3
      ext i j
      rw [Matrix.submatrix_apply, Matrix.of_apply, Matrix.of_apply, val_succAbove, Fin.val_succ]
    rw [expansion]
    refine wp_countUp (fun column sum _ => value sum = some (∑ c ∈ Finset.range column, (-1) ^ c * (g 0 c * minor c)))
      (n + 2) 0 sum t zero (fun column sum t _ bound known => ?_)
    have entries : ∀ i j, i < n + 1 → j < n + 1 →
        value (matrix (i + 1) (skip column j)) = some (g (i + 1) (skip column j)) :=
      fun i j row inner => denote _ _ (by omega) (skip_lt inner)
    refine wp_then (ih entries t) fun minorDet t cofactor => ?_
    refine wp_then (arithmetic.mul _ _ t (List.Forall₂.cons (denote 0 column (by omega) (by omega))
      (List.Forall₂.cons cofactor List.Forall₂.nil))) fun term t product => ?_
    rw [List.prod_cons, List.prod_singleton] at product
    refine wp_then (wp_alternate arithmetic column product t) fun term t signed => ?_
    refine wp_good (arithmetic.add _ _ t (List.Forall₂.cons known (List.Forall₂.cons signed List.Forall₂.nil)))
      fun sum t total => ?_
    rw [List.sum_cons, List.sum_singleton] at total
    rw [Finset.sum_range_succ]
    exact total

/-- The matrix of a tensor of rank two. -/
def entry (t : List Nat → K) (i j : Nat) : K := t [i, j]

omit arithmetic in
theorem inside_pair (rank : tensor.rank = 2) {i j : Nat} (row : i < tensor.dimension)
    (column : j < tensor.dimension) : Inside tensor [i, j] := by
  refine ⟨rank.symm, fun index member => ?_⟩
  rcases List.mem_pair.mp member with rfl | rfl
  · exact row
  · exact column

def Passed (row column i j : Nat) : Prop := i < row ∨ i = row ∧ j < column

theorem wp_readMatrix (rank : tensor.rank = 2) (means : TensorMeans value tensor t) (s : State) :
    wp (readMatrix cas tensor)
      (fun matrix _ => ∀ i j, i < tensor.dimension → j < tensor.dimension → value (matrix i j) = some (entry t i j))
      (fun _ _ => mayStop) s := by
  refine wp_good (wp_grid (fun row column matrix (_ : State) => ∀ i j, j < tensor.dimension → Passed row column i j →
    value (matrix i j) = some (entry t i j)) tensor.dimension tensor.dimension (fun _ _ => tensor.zero) s
    (fun i j _ passed => ?_) (fun row column matrix s inside inside' read => ?_) (fun row matrix s read => ?_))
    fun matrix _ read i j row column => read i j column (Or.inl row)
  · unfold Passed at passed
    omega
  · refine wp_then (wp_tensorComponentExpression arithmetic means (inside_pair rank inside inside') s)
      fun ref _ known => ?_
    rw [wp_pure]
    intro i j below passed
    unfold place
    split_ifs with here
    · rw [here.1, here.2]
      exact known
    · exact read i j below (by unfold Passed at passed ⊢; omega)
  · exact fun i j below passed => read i j below (by unfold Passed at passed ⊢; omega)

def determinantOf (n : Nat) (g : Nat → Nat → K) : K := (Matrix.of (fun i j : Fin n => g i j)).det

theorem wp_tensorDeterminant (positive : 0 < tensor.dimension) (means : TensorMeans value tensor t) (s : State) :
    wp (tensorDeterminant cas tensor) (fun ref _ => value ref = some (determinantOf tensor.dimension (entry t)))
      (fun _ _ => mayStop ∨ tensor.rank ≠ 2) s := by
  unfold tensorDeterminant
  refine wp_ite (fun other => Or.inr other) (fun rank => ?_)
  rw [wp_bind]
  refine wp_mono (wp_readMatrix arithmetic (not_not.mp rank) means s) (fun matrix s read => ?_)
    (fun _ _ stopped => Or.inl stopped)
  obtain ⟨n, size⟩ := Nat.exists_eq_succ_of_ne_zero positive.ne'
  rw [size] at read ⊢
  exact wp_mono (wp_determinantRecursive arithmetic n read s) (fun _ _ known => known) (fun _ _ stopped => Or.inl stopped)

theorem wp_cofactorAt {matrix : Nat → Nat → Ref} {g : Nat → Nat → K}
    (denote : ∀ i j, i < n + 1 → j < n + 1 → value (matrix i j) = some (g i j)) (row column : Fin (n + 1)) (s : State) :
    wp (cofactorAt cas (n + 1) matrix row column)
      (fun ref _ => value ref = some ((Matrix.of (fun i j : Fin (n + 1) => g i j)).adjugate row column))
      (fun _ _ => mayStop) s := by
  unfold cofactorAt
  refine wp_ite (fun one => ?_) (fun more => ?_)
  · obtain rfl : n = 0 := by omega
    have only : row = column := Fin.ext (by omega)
    have one := arithmetic.number 1 s
    rw [Int.cast_one] at one
    rw [Matrix.adjugate_fin_one, only, Matrix.one_apply_eq]
    exact one
  · obtain ⟨m, rfl⟩ := Nat.exists_eq_succ_of_ne_zero (show n ≠ 0 by omega)
    have entries : ∀ i j, i < m + 1 → j < m + 1 →
        value (matrix (skip column i) (skip row j)) = some (g (skip column i) (skip row j)) :=
      fun i j first second => denote _ _ (skip_lt first) (skip_lt second)
    have minor : (Matrix.of (fun i j : Fin (m + 1) => g (skip column i) (skip row j))) =
        (Matrix.of (fun i j : Fin (m + 2) => g i j)).submatrix column.succAbove row.succAbove := by
      ext i j
      rw [Matrix.submatrix_apply, Matrix.of_apply, Matrix.of_apply, val_succAbove, val_succAbove]
    refine wp_then (wp_determinantRecursive arithmetic m entries s) fun ref s known => ?_
    rw [minor] at known
    rw [Matrix.adjugate_fin_succ_eq_det_submatrix, Nat.add_comm column.val]
    exact wp_alternate arithmetic (row + column) known s

end Arithmetic

section Sound

variable [Field K] {engine : Engine State Ref} {value : Ref → Option K} {root : K → K} {mayStop : Prop}
  (sound : Sound engine value root mayStop)
include sound

/-- Symmetric among the first `n` indices. -/
def Symmetric (n : Nat) (g : Nat → Nat → K) : Prop := ∀ i j, i < n → j < n → g i j = g j i

variable {n : Nat} {g : Nat → Nat → K}

theorem wp_checkSymmetric {matrix : Nat → Nat → Ref}
    (denote : ∀ i j, i < n → j < n → value (matrix i j) = some (g i j)) (s : State) :
    wp (checkSymmetric engine n matrix) (fun _ _ => Symmetric n g) (fun _ _ => mayStop ∨ ¬Symmetric n g) s := by
  let Equal (row column : Nat) : Prop := ∀ i j, i < j → j < n → Passed row column i j → g i j = g j i
  refine wp_good (wp_countUp (fun row _ _ => Equal row 0) n 0 () s
    (fun i j _ _ passed => by unfold Passed at passed; omega) (fun row _ s _ inside equal => ?_))
    fun _ _ equal i j first second => ?_
  · have begun : Equal row (row + 1) := fun i j less below passed => equal i j less below (by
      unfold Passed at passed ⊢
      omega)
    refine wp_good (wp_countUp (fun column _ _ => Equal row column) (n - (row + 1)) (row + 1) () s begun
      (fun column _ s after bound known => ?_))
      fun _ _ done i j less below passed => done i j less below (by unfold Passed at passed ⊢; omega)
    rw [wp_bind]
    refine wp_mono (sound.equivalent _ _ _ _ s (denote row column (by omega) (by omega))
      (denote column row (by omega) (by omega))) (fun decision s decided => ?_) (fun _ _ stopped => Or.inl stopped)
    refine wp_ite (fun zero i j less below passed => ?_) (fun other => ?_)
    · by_cases here : i = row ∧ j = column
      · rw [here.1, here.2]
        exact decided.1 zero
      · exact known i j less below (by unfold Passed at passed ⊢; omega)
    · by_cases stops : mayStop
      · exact Or.inl stops
      · exact Or.inr (fun symmetric => other (decided.2 (symmetric row column (by omega) (by omega)) stops))
  · rcases lt_trichotomy i j with less | same | more
    · exact equal i j less second (Or.inl (by omega))
    · rw [same]
    · exact (equal j i more first (Or.inl (by omega))).symm

/-- The inverse of the leading block, its components zero elsewhere. -/
noncomputable def inverseOf (n : Nat) (g : Nat → Nat → K) (i j : Nat) : K :=
  if inside : i < n ∧ j < n then (Matrix.of (fun i j : Fin n => g i j))⁻¹ ⟨i, inside.1⟩ ⟨j, inside.2⟩ else 0

omit sound in
theorem inverseOf_apply (g : Nat → Nat → K) (i j : Fin n) :
    inverseOf n g i j = (Matrix.of (fun i j : Fin n => g i j)).adjugate i j / determinantOf n g := by
  unfold inverseOf
  rw [dif_pos ⟨i.isLt, j.isLt⟩, Matrix.inv_def, Ring.inverse_eq_inv', Matrix.smul_apply, smul_eq_mul, mul_comm,
    div_eq_mul_inv]
  rfl

omit sound in
theorem inverseOf_symmetric (symmetric : Symmetric n g) (i j : Nat) :
    inverseOf n g i j = inverseOf n g j i := by
  have transposed : (Matrix.of (fun i j : Fin n => g i j)).transpose = Matrix.of (fun i j : Fin n => g i j) := by
    ext i j
    exact symmetric j i j.isLt i.isLt
  unfold inverseOf
  by_cases inside : i < n ∧ j < n
  · rw [dif_pos inside, dif_pos ⟨inside.2, inside.1⟩, ← Matrix.transpose_apply (Matrix.of (fun i j : Fin n => g i j))⁻¹,
      Matrix.transpose_nonsing_inv, transposed]
  · rw [dif_neg inside, dif_neg (fun other => inside ⟨other.2, other.1⟩)]

omit sound in
theorem determinantOf_inverseOf (regular : determinantOf n g ≠ 0) :
    determinantOf n (inverseOf n g) * determinantOf n g = 1 := by
  have whole : Matrix.of (fun i j : Fin n => inverseOf n g i j) = (Matrix.of (fun i j : Fin n => g i j))⁻¹ := by
    ext i j
    exact dif_pos ⟨i.isLt, j.isLt⟩
  unfold determinantOf
  rw [whole, ← Matrix.det_mul, Matrix.nonsing_inv_mul _ (isUnit_iff_ne_zero.mpr regular), Matrix.det_one]

structure Filled (metric : Tensor Ref) (value : Ref → Option K) (G : Nat → Nat → K) (row column : Nat)
    (inverse : Tensor Ref) : Prop where
  chart : inverse.chart = metric.chart
  valence : inverse.valence = [.upper, .upper]
  zero : value inverse.zero = some 0
  components : ∀ i j entry, Passed row column i j → tensorGet inverse [i, j] = .ok entry →
    value entry.ref = some (G i j) ∧ entry.sign = 1

variable {metric : Tensor Ref}

omit sound in
theorem Filled.inside {G : Nat → Nat → K} {row column : Nat} {inverse : Tensor Ref}
    (filled : Filled metric value G row column inverse) {indices : List Nat} {entry : Component Ref}
    (read : tensorGet inverse indices = .ok entry) :
    ∃ i j, indices = [i, j] ∧ i < metric.dimension ∧ j < metric.dimension := by
  obtain ⟨length, bounds⟩ := inside_of_get read
  obtain ⟨i, j, rfl⟩ := List.length_eq_two.mp (length.trans (congrArg List.length filled.valence))
  have dimension : inverse.dimension = metric.dimension :=
    congrArg (fun chart : Chart Ref => chart.coordinates.length) filled.chart
  rw [dimension] at bounds
  exact ⟨i, j, rfl, bounds i (by simp), bounds j (by simp)⟩

theorem wp_fillInverse (size : metric.dimension = n + 1) {matrix : Nat → Nat → Ref}
    (denote : ∀ i j, i < n + 1 → j < n + 1 → value (matrix i j) = some (g i j)) {det : Ref}
    (denotes : value det = some (determinantOf (n + 1) g)) (regular : determinantOf (n + 1) g ≠ 0) {row column : Nat}
    (inside : row < n + 1) (inside' : column < n + 1) {inverse : Tensor Ref} {G : Nat → Nat → K}
    (G_eq : G = inverseOf (n + 1) g) (filled : Filled metric value G row column inverse) (s : State) :
    wp (fillInverse engine (n + 1) matrix det row column inverse)
      (fun inverse _ => Filled metric value G row (column + 1) inverse) (fun _ _ => mayStop) s := by
  unfold fillInverse inverseEntry
  rw [wp_bind]
  refine wp_then (wp_cofactorAt sound.toArithmetic denote ⟨row, inside⟩ ⟨column, inside'⟩ s) fun cofactor s known => ?_
  refine wp_good (sound.div _ _ _ _ s known denotes regular) fun ref s quotient => ?_
  have dimension : inverse.dimension = n + 1 := by
    rw [← size]
    exact congrArg (fun chart : Chart Ref => chart.coordinates.length) filled.chart
  have rank : inverse.rank = 2 := congrArg List.length filled.valence
  have placed : Inside inverse [row, column] :=
    inside_pair rank (by rw [dimension]; exact inside) (by rw [dimension]; exact inside')
  rw [tensorSet_inside placed, wp_pure]
  refine ⟨filled.chart, filled.valence, filled.zero, fun i j entry passed read => ?_⟩
  rw [tensorGet_store placed] at read
  split_ifs at read with here
  · cases read
    obtain ⟨rfl, rfl⟩ : i = row ∧ j = column := by simpa using here
    refine ⟨quotient.trans (congrArg some ?_), rfl⟩
    rw [G_eq]
    exact (inverseOf_apply g ⟨i, inside⟩ ⟨j, inside'⟩).symm
  · refine filled.components i j entry ?_ read
    have other : ¬(i = row ∧ j = column) := fun same => here (by rw [same.1, same.2])
    unfold Passed at passed ⊢
    omega

omit sound in
theorem wp_request (memory : Memory State) :
    wp request (fun _ after => after.session = memory.session ∧ after.heap.grants = memory.heap.grants)
      (fun _ _ => ∃ k, memory.heap.grants k = false) memory := by
  unfold request
  rw [wp_bind, wp_get, wp_bind, wp_set]
  exact wp_ite (fun _ => ⟨rfl, rfl⟩) (fun refused => ⟨_, eq_false_of_ne_true refused⟩)

def Refused (mayStop : Prop) (heap : Heap) : Prop := mayStop ∨ ∃ k, heap.grants k = false

theorem wp_tensorCreate (chart : Chart Ref) (valence : List Variance) (memory : Memory State) :
    wp (tensorCreate engine chart valence)
      (fun tensor after => (∃ zero, value zero = some 0 ∧ tensor = tensorBlank chart valence zero) ∧
        after.heap.grants = memory.heap.grants)
      (fun _ _ => Refused mayStop memory.heap ∨ tensorMaxRank < valence.length) memory := by
  unfold tensorCreate
  refine wp_ite (fun large => Or.inr large) (fun _ => ?_)
  rw [wp_bind, wp_scalar]
  refine wp_mono (sound.integer 0 memory.session) (fun zero session known => ?_) (fun _ _ stopped => Or.inl (Or.inl stopped))
  rw [Int.cast_zero] at known
  rw [wp_bind]
  refine wp_mono (wp_request _) (fun _ first same => ?_) (fun _ _ refused => Or.inl (Or.inr refused))
  rw [wp_bind]
  refine wp_mono (wp_request first) (fun _ second same' => ?_) (fun _ _ refused => Or.inl (Or.inr (same.2 ▸ refused)))
  exact ⟨⟨zero, known, rfl⟩, same'.2.trans same.2⟩

/-- A family of components with two indices, as components of a tensor. -/
def paired (G : Nat → Nat → K) (indices : List Nat) : K := G (indices.getD 0 0) (indices.getD 1 0)

theorem wp_tensorInverseMetric (positive : 0 < metric.dimension) {t : List Nat → K}
    (means : TensorMeans value metric t) (regular : determinantOf metric.dimension (entry t) ≠ 0) (memory : Memory State) :
    wp (tensorInverseMetric engine metric)
      (fun inverse after => (inverse.chart = metric.chart ∧ inverse.valence = [.upper, .upper]) ∧
        Symmetric metric.dimension (entry t) ∧
        TensorMeans value inverse (paired (inverseOf metric.dimension (entry t))) ∧
        after.heap.grants = memory.heap.grants)
      (fun _ _ => Refused mayStop memory.heap ∨ metric.valence ≠ [.lower, .lower] ∨
        ¬Symmetric metric.dimension (entry t)) memory := by
  unfold tensorInverseMetric
  refine wp_ite (fun other => Or.inr (Or.inl other)) (fun valence => ?_)
  have rank : metric.rank = 2 := congrArg List.length (not_not.mp valence)
  obtain ⟨n, size⟩ := Nat.exists_eq_succ_of_ne_zero positive.ne'
  rw [wp_bind, wp_scalar]
  refine wp_mono (wp_readMatrix sound.toArithmetic rank means memory.session) (fun matrix session read => ?_)
    (fun _ _ stopped => Or.inl (Or.inl stopped))
  rw [wp_bind, wp_scalar]
  refine wp_mono (wp_checkSymmetric sound read session) (fun _ session symmetric => ?_)
    (fun _ _ stopped => stopped.imp Or.inl Or.inr)
  rw [size] at read regular ⊢
  rw [wp_bind, wp_scalar]
  refine wp_mono (wp_determinantRecursive sound.toArithmetic n read session) (fun det session denotes => ?_)
    (fun _ _ stopped => Or.inl (Or.inl stopped))
  rw [wp_bind, wp_scalar]
  refine wp_mono (sound.isZero _ _ session denotes) (fun decision session decided => ?_)
    (fun _ _ stopped => Or.inl (Or.inl stopped))
  refine wp_ite (fun zero => absurd (decided zero) regular) (fun _ => ?_)
  rw [wp_bind]
  refine wp_mono (wp_tensorCreate sound metric.chart [.upper, .upper] _) (fun inverse after created => ?_)
    (fun _ _ stopped => ?_)
  · obtain ⟨⟨zero, vanishes, blank⟩, same⟩ := created
    rw [wp_scalar]
    refine wp_mono (wp_grid (fun row column inverse _ => Filled metric value (inverseOf (n + 1) (entry t)) row column inverse)
      (n + 1) (n + 1) inverse after.session ?_
      (fun row column inverse s inside inside' filled =>
        wp_fillInverse sound size read denotes regular inside inside' rfl filled s)
      (fun row inverse s filled => ?_)) (fun inverse session filled => ?_) (fun _ _ stopped => Or.inl (Or.inl stopped))
    · rw [blank]
      exact ⟨rfl, rfl, vanishes, fun i j _ passed => by unfold Passed at passed; omega⟩
    · refine ⟨filled.chart, filled.valence, filled.zero, fun i j entry passed got => ?_⟩
      obtain ⟨i', j', same, _, inside⟩ := filled.inside got
      cases same
      exact filled.components i j entry (by unfold Passed at passed ⊢; omega) got
    · refine ⟨⟨filled.chart, filled.valence⟩, size ▸ symmetric, ⟨filled.zero, fun indices entry got => ?_⟩, same⟩
      obtain ⟨i, j, rfl, inside, -⟩ := filled.inside got
      obtain ⟨known, sign⟩ := filled.components i j entry (Or.inl (by omega)) got
      refine ⟨_, known, ?_⟩
      rw [sign, Int.cast_one, one_mul]
      rfl
  · exact stopped.imp id (fun large => absurd large (by decide))

def inverseAndDeterminants (engine : Engine State Ref) (metric : Tensor Ref) :
    EStateM Status (Memory State) (Tensor Ref × Ref × Ref) := do
  let inverse ← tensorInverseMetric engine metric
  let det ← scalar (tensorDeterminant engine.toCas metric)
  let inverseDet ← scalar (tensorDeterminant engine.toCas inverse)
  pure (inverse, det, inverseDet)

/-- The inverse of a metric and the determinants of the two: the components are inverse to one another, and so are
the determinants. -/
theorem inverse_metric_inverts (positive : 0 < metric.dimension) {t : List Nat → K}
    (means : TensorMeans value metric t) (regular : determinantOf metric.dimension (entry t) ≠ 0) (memory : Memory State) :
    wp (inverseAndDeterminants engine metric)
      (fun result _ => ∃ G : Nat → Nat → K, TensorMeans value result.1 (paired G) ∧ Symmetric metric.dimension G ∧
        (∀ i j : Fin metric.dimension, ∑ k : Fin metric.dimension, t [i, k] * G k j = if i = j then 1 else 0) ∧
        ∃ d d', value result.2.1 = some d ∧ value result.2.2 = some d' ∧ d * d' = 1)
      (fun _ _ => Refused mayStop memory.heap ∨ metric.valence ≠ [.lower, .lower] ∨
        ¬Symmetric metric.dimension (entry t)) memory := by
  rw [inverseAndDeterminants, wp_bind]
  refine wp_mono (wp_tensorInverseMetric sound positive means regular memory) (fun inverse after held => ?_)
    fun _ _ stopped => stopped
  obtain ⟨⟨chart, valence⟩, symmetric, inverseMeans, -⟩ := held
  have size : inverse.dimension = metric.dimension := congrArg (fun chart => chart.coordinates.length) chart
  rw [wp_bind, wp_scalar]
  refine wp_mono (wp_tensorDeterminant sound.toArithmetic positive means after.session) (fun det session known => ?_)
    fun _ _ stopped => stopped.imp .inl fun other => .inl fun same => other (congrArg List.length same)
  rw [wp_bind, wp_scalar]
  refine wp_mono (wp_tensorDeterminant sound.toArithmetic (size ▸ positive) inverseMeans session)
    (fun det' _ known' => ?_) fun _ _ stopped => .inl (.inl (stopped.resolve_right fun other => other (congrArg List.length valence)))
  refine ⟨_, inverseMeans, fun i j _ _ => inverseOf_symmetric symmetric i j, fun i j => ?_, _, _, known, known', ?_⟩
  · have product := Matrix.mul_nonsing_inv (Matrix.of fun i j : Fin metric.dimension => entry t i j)
      (isUnit_iff_ne_zero.mpr regular)
    refine Eq.trans ?_ ((congrFun (congrFun product i) j).trans Matrix.one_apply)
    exact Finset.sum_congr rfl fun k _ => congrArg (t [i, k] * ·) (dif_pos ⟨k.isLt, j.isLt⟩)
  · rw [size, mul_comm]
    exact determinantOf_inverseOf regular

end Sound

end PhyNspire.Tensor

import PhyNspire.FinitePoly.Calls
import PhyNspire.FinitePoly.Euclid
import PhyNspire.Lib.FrobeniusMatrix

/-!
Deterministic Berlekamp factorization as finite_poly.c performs it: the matrix of the
Frobenius map, its reduced row echelon form, and the splitting of factors by kernel elements.
-/

namespace PhyNspire.FinitePoly.Berlekamp
open Residues Dense Calls

variable (c : FpolyContext)

/-- The loop over the words from the top, for arrays of one length. -/
def compareDown (left right : List Nat) : Nat → Int
  | 0 => 0
  | index + 1 =>
      if left.getD index 0 ≠ right.getD index 0 then
        if left.getD index 0 < right.getD index 0 then -1 else 1
      else compareDown left right index

def polynomialOrder (left right : List Nat) : Int :=
  if left.length ≠ right.length then if left.length < right.length then -1 else 1
  else compareDown left right left.length

/-- The key passes the larger factors at the end of the sorted part, which is reversed here. -/
def insertFactor (key : List Nat) : List (List Nat) → List (List Nat)
  | [] => [key]
  | last :: rest => if polynomialOrder key last < 0 then last :: insertFactor key rest else key :: last :: rest

def sortFactors (factors : List (List Nat)) : List (List Nat) :=
  (factors.foldl (fun sorted key => insertFactor key sorted) []).reverse

def entry (matrix : List (List Nat)) (row column : Nat) : Nat := (matrix.getD row []).getD column 0

def setColumn (matrix : List (List Nat)) (column : Nat) (word : Nat → Nat) : List (List Nat) :=
  matrix.mapIdx fun row words => words.set column (word row)

def fillColumns (modulus : List Nat) : List Nat → List (List Nat) → FpolyM (List (List Nat))
  | [], matrix => pure matrix
  | column :: columns, matrix => do
      let power ← powmodInternal c [0, 1] (c.prime * column) modulus
      let matrix := setColumn matrix column fun row => fpolyCoefficient c power row
      let diagonal := subtractMod (entry matrix column column) 1 c.prime
      fillColumns modulus columns (matrix.set column ((matrix.getD column []).set column diagonal))

/-- The matrix under elimination, with the pivot columns found so far; their number is the rank. -/
structure Elimination where
  matrix : List (List Nat)
  pivotColumns : List Nat

def Elimination.rank (s : Elimination) : Nat := s.pivotColumns.length

def swapRows (matrix : List (List Nat)) (first second : Nat) : List (List Nat) :=
  if first = second then matrix
  else (matrix.set first (matrix.getD second [])).set second (matrix.getD first [])

def clearRows (rank column : Nat) (pivotRow : List Nat) : List Nat → List (List Nat) → FpolyM (List (List Nat))
  | [], matrix => pure matrix
  | row :: rows, matrix => do
      if row = rank ∨ entry matrix row column = 0 then clearRows rank column pivotRow rows matrix
      else do
        let factor := entry matrix row column
        let words ← accumulate c subtractMod factor (pivotRow.drop column) column (matrix.getD row [])
        clearRows rank column pivotRow rows (matrix.set row words)

def eliminateColumn (degree column : Nat) (s : Elimination) : FpolyM Elimination :=
  match ((List.range degree).drop s.rank).find? fun row => decide (entry s.matrix row column ≠ 0) with
  | none => pure s
  | some pivot => do
      let matrix := swapRows s.matrix s.rank pivot
      let inverse := inverseMod (entry matrix s.rank column) c.prime
      let row := matrix.getD s.rank []
      let scaled ← scaleWords c (row.drop column) inverse
      let pivotRow := row.take column ++ scaled
      let matrix ← clearRows c s.rank column pivotRow (List.range degree) (matrix.set s.rank pivotRow)
      pure { matrix := matrix, pivotColumns := s.pivotColumns ++ [column] }

/-- `for (column = 0; column < degree && rank < degree; ++column)`. -/
def eliminateColumns (degree : Nat) : List Nat → Elimination → FpolyM Elimination
  | [], s => pure s
  | column :: columns, s =>
      if s.rank < degree then do
        let s ← eliminateColumn c degree column s
        eliminateColumns degree columns s
      else pure s

def berlekampRref (words : List Nat) : FpolyM Elimination := do
  let degree := words.length - 1
  let zeros := List.replicate degree (List.replicate degree 0)
  let matrix ← fillColumns c words (List.range degree) zeros
  eliminateColumns c degree (List.range degree) { matrix := matrix, pivotColumns := [] }

def shiftBasis (basis : List Nat) (value : Nat) : List Nat :=
  let shifted := if basis.length = 0 then [0] else basis
  trim (shifted.set 0 (subtractMod (shifted.getD 0 0) value c.prime))

def splitFactors (basis : List Nat) (value target : Nat) : List Nat → List (List Nat) → FpolyM (List (List Nat))
  | [], factors => pure factors
  | index :: indices, factors =>
      if factors.length < target then
        let candidate := factors.getD index []
        if candidate.length ≤ 2 then splitFactors basis value target indices factors
        else do
          let divisor ← gcdInternal c candidate (shiftBasis c basis value)
          if divisor.length ≤ 1 ∨ divisor.length = candidate.length then
            splitFactors basis value target indices factors
          else if c.limits.maxDegree.toNat ≤ factors.length ∨ fpolyHardMaxDegree ≤ factors.length then
            throw .termLimit
          else do
            let (quotient, remainder) ← divremInternal c candidate divisor
            if remainder.length ≠ 0 then throw .corruptDocument
            else do
              let quotient ← makeMonic c quotient
              splitFactors basis value target indices (factors.set index divisor ++ [quotient])
      else pure factors

/-- `split_with_basis`: the loop over the residue values. -/
def splitWithBasis (basis : List Nat) (target : Nat) : List Nat → List (List Nat) → FpolyM (List (List Nat))
  | [], factors => pure factors
  | value :: values, factors =>
      if factors.length < target then do
        let factors ← splitFactors c basis value target (List.range factors.length) factors
        splitWithBasis basis target values factors
      else pure factors

def kernelBasis (s : Elimination) (degree freeColumn : Nat) : List Nat :=
  let start := (List.replicate degree 0).set freeColumn 1
  (List.range s.rank).foldl (fun basis row =>
    let word := entry s.matrix row freeColumn
    basis.set (s.pivotColumns.getD row 0) (if word = 0 then 0 else c.prime - word)) start

def splitColumns (s : Elimination) (degree target : Nat) : List Nat → List (List Nat) → FpolyM (List (List Nat))
  | [], factors => pure factors
  | freeColumn :: columns, factors =>
      if factors.length < target then
        if freeColumn ∈ s.pivotColumns then splitColumns s degree target columns factors
        else do
          let basis := trim (kernelBasis c s degree freeColumn)
          let factors ← splitWithBasis c basis target (List.range c.prime) factors
          splitColumns s degree target columns factors
      else pure factors

/-- The product that is compared with the input at the end. -/
def multiplyFactors : List (List Nat) → List Nat → FpolyM (List Nat)
  | [], product => pure product
  | factor :: factors, product => do
      let product ← multiplyInternal c product factor
      multiplyFactors factors product

def factorWords (words : List Nat) : FpolyM (List (List Nat)) := do
  let common ← commonWithDerivative c words
  if 1 < common.length then throw .domain
  else do
    let s ← berlekampRref c words
    let degree := words.length - 1
    let nullity := degree - s.rank
    if nullity = 0 ∨ degree < nullity then throw .corruptDocument
    else do
      let factors ← splitColumns c s degree nullity (List.range degree) [words]
      if factors.length ≠ nullity then throw .corruptDocument
      else do
        let factors := sortFactors factors
        let product ← multiplyFactors c factors [1]
        if !(wordsValid c product && wordsValid c words && decide (product = words)) then throw .corruptDocument
        else pure factors

def factorizationValid (w : Workspace) (p : Nat) : Bool :=
  match w.factorizations p with
  | none => false
  | some f =>
      match w.contexts f.context with
      | none => false
      | some (c, _) =>
          decide (f.factors.length ≤ c.limits.maxDegree.toNat) &&
            f.factors.all fun factor => w.validFpoly factor && decide (factor.context = f.context)

def fpolyFactorSquareFree (p out : Nat) : WorkspaceM Unit := do
  let w ← get
  if !(w.polynomialValid p && factorizationValid w out &&
      decide (w.contextOf p = (w.factorizations out).map FpolyFactorization.context)) then throw .invalidArgument
  else if (w.wordsOf p).length < 2 ∨ leading (w.wordsOf p) ≠ 1 then throw .domain
  else do
    let factors ← onContext p fun c => do
      beginOperation c
      factorWords c (w.wordsOf p)
    modify fun t =>
      let id := (w.contextOf p).getD 0
      { t with
        factorizations := Function.update t.factorizations out (some ⟨id, factors.map fun words => ⟨id, words⟩⟩) }

end PhyNspire.FinitePoly.Berlekamp

/-!
The elimination of `berlekamp_rref` computes the null space of the Frobenius matrix, solved by
its free columns.
-/

namespace PhyNspire.FinitePoly.Elimination
open Lib.CoefficientLists Lib.RowReduction Lib.FrobeniusMatrix
open Residues Dense Arithmetic Division Euclid Berlekamp Polynomial

variable (c : FpolyContext)

noncomputable def rowValue (matrix : List (List Nat)) (row : Nat) : (ZMod c.prime)[X] := value c (matrix.getD row [])

def table (matrix : List (List Nat)) (row column : Nat) : ZMod c.prime := (entry matrix row column : ZMod c.prime)

structure Shaped (degree : Nat) (matrix : List (List Nat)) : Prop where
  rows : matrix.length = degree
  width : ∀ row < degree, (matrix.getD row []).length = degree
  reduced : ∀ row < degree, Reduced c (matrix.getD row [])

variable {c}
variable {degree : Nat} {matrix : List (List Nat)} {words : List Nat}

theorem coeff_rowValue (matrix : List (List Nat)) (row column : Nat) :
    (rowValue c matrix row).coeff column = table c matrix row column := coeff_value _ _

variable {first : Nat}

theorem getD_set_of_lt {α : Type} {items : List α} (inside : first < items.length) (item default : α)
    (second : Nat) : (items.set first item).getD second default = if second = first then item else items.getD second default := by
  rw [List.getD_eq_getElem?_getD, List.getElem?_set, List.getD_eq_getElem?_getD]
  by_cases same : first = second
  · rw [if_pos same, if_pos inside, if_pos same.symm, Option.getD_some]
  · rw [if_neg same, if_neg (Ne.symm same)]

variable {row : Nat}

theorem Shaped.entry_lt (shaped : Shaped c degree matrix) (inside : row < degree) (column : Nat) :
    entry matrix row column < c.prime := (shaped.reduced row inside).getD column

theorem Shaped.entry_eq_zero (shaped : Shaped c degree matrix) (inside : row < degree) (column : Nat) :
    entry matrix row column = 0 ↔ table c matrix row column = 0 :=
  (word_cast_eq_zero (shaped.entry_lt inside column)).symm

theorem Shaped.set (shaped : Shaped c degree matrix) (width : words.length = degree)
    (reduced : Reduced c words) (inside : row < degree) : Shaped c degree (matrix.set row words) := by
  have inside' : row < matrix.length := shaped.rows.symm ▸ inside
  refine ⟨by rw [List.length_set, shaped.rows], fun other bound => ?_, fun other bound => ?_⟩ <;>
    rw [getD_set_of_lt inside'] <;> split_ifs
  · exact width
  · exact shaped.width other bound
  · exact reduced
  · exact shaped.reduced other bound

theorem Shaped.rowValue_set (shaped : Shaped c degree matrix) (inside : row < degree) (other : Nat) :
    rowValue c (matrix.set row words) other = if other = row then value c words else rowValue c matrix other := by
  rw [rowValue, getD_set_of_lt (shaped.rows.symm ▸ inside)]
  split_ifs <;> rfl

theorem shaped_zeros (degree : Nat) : Shaped c degree (List.replicate degree (List.replicate degree 0)) := by
  have row : ∀ row < degree, (List.replicate degree (List.replicate degree 0)).getD row [] = List.replicate degree 0 := by
    intro row inside
    rw [List.getD_eq_getElem _ _ (by rwa [List.length_replicate]), List.getElem_replicate]
  refine ⟨List.length_replicate, fun i inside => ?_, fun i inside => ?_⟩ <;> rw [row i inside]
  · exact List.length_replicate
  · exact reduced_replicate degree

theorem getD_setColumn (column : Nat) (word : Nat → Nat) (inside : row < matrix.length) :
    (setColumn matrix column word).getD row [] = (matrix.getD row []).set column (word row) := by
  rw [setColumn, List.getD_eq_getElem _ _ (by rwa [List.length_mapIdx]), List.getElem_mapIdx,
    List.getD_eq_getElem _ _ inside]

theorem Shaped.setColumn (shaped : Shaped c degree matrix) (column : Nat) {word : Nat → Nat}
    (less : ∀ row, word row < c.prime) : Shaped c degree (setColumn matrix column word) := by
  refine ⟨by rw [Berlekamp.setColumn, List.length_mapIdx, shaped.rows], fun row inside => ?_, fun row inside => ?_⟩ <;>
    rw [getD_setColumn column word (shaped.rows.symm ▸ inside)]
  · rw [List.length_set, shaped.width row inside]
  · exact (shaped.reduced row inside).set column (less row)

theorem entry_set (inside : first < matrix.length) (row column : Nat) :
    entry (matrix.set first words) row column = if row = first then words.getD column 0 else entry matrix row column := by
  rw [entry, getD_set_of_lt inside]
  split_ifs <;> rfl

variable {column : Nat}

theorem Shaped.filled (shaped : Shaped c degree matrix) {word : Nat → Nat} (less : ∀ row, word row < c.prime)
    {other : Nat} (inside : column < degree) (inside' : row < degree) :
    let middle := Berlekamp.setColumn matrix column word
    table c (middle.set column ((middle.getD column []).set column (subtractMod (entry middle column column) 1 c.prime)))
      row other = if other = column then (word row : ZMod c.prime) - if row = column then 1 else 0
        else table c matrix row other := by
  intro middle
  have rows : ∀ i, i < degree → i < matrix.length := fun i bound => shaped.rows.symm ▸ bound
  have middle_entry : ∀ i, i < degree → ∀ j, entry middle i j = if j = column then word i else entry matrix i j := by
    intro i bound j
    rw [entry, getD_setColumn column word (rows i bound), getD_set_of_lt (by rwa [shaped.width i bound])]
    rfl
  have middle_length : middle.length = degree := (shaped.setColumn column less).rows
  rw [table, entry_set (by rwa [middle_length])]
  by_cases diagonal : row = column
  · subst diagonal
    have width : ((middle.getD row []).length) = degree := (shaped.setColumn row less).width row inside
    rw [if_pos rfl, getD_set_of_lt (by rwa [width]), middle_entry row inside, if_pos rfl, if_pos rfl]
    split_ifs with same
    · rw [subtractMod_cast (two_le_prime c), Nat.cast_one]
    · exact congrArg Nat.cast ((middle_entry row inside other).trans (if_neg same))
  · rw [if_neg diagonal, middle_entry row inside', if_neg diagonal]
    split_ifs with same
    · rw [sub_zero]
    · rfl

theorem fillColumns_eq {modulus : List Nat} (valid : wordsValid c modulus = true) (nonempty : 1 ≤ modulus.length)
    (column remaining : Nat) (matrix : List (List Nat)) (whole : column + remaining = modulus.length - 1)
    (shaped : Shaped c (modulus.length - 1) matrix)
    (before : ∀ row < modulus.length - 1, ∀ j < column, table c matrix row j = frobeniusMatrix (value c modulus) row j) :
    Computes (fillColumns c modulus (List.range' column remaining) matrix) fun out =>
      Shaped c (modulus.length - 1) out ∧ ∀ row < modulus.length - 1, ∀ j < modulus.length - 1,
        table c out row j = frobeniusMatrix (value c modulus) row j := by
  induction remaining generalizing column matrix with
  | zero =>
    obtain rfl : column = modulus.length - 1 := by omega
    exact .pure ⟨shaped, before⟩
  | succ remaining ih =>
    obtain ⟨short, clean⟩ := wordsValid_iff.mp valid
    have bound := c.degreeBound
    have bound' := c.primeBound
    unfold fpolyHardMaxDegree at bound
    unfold fpolyMaxPrime at bound'
    have variable_clean : Clean c [0, 1] := by
      refine ⟨fun word member => ?_, by simp⟩
      have two := two_le_prime c
      rcases List.mem_cons.mp member with rfl | last
      · omega
      · rw [List.mem_singleton.mp last]
        omega
    have small : c.prime * column < 2 ^ 64 := by
      have : c.prime * column ≤ 65521 * 64 := Nat.mul_le_mul bound' (by omega)
      omega
    rw [List.range'_succ]
    refine .bind (powmodInternal_eq variable_clean clean small) ?_
    rintro power ⟨_, clean_power, shorter, result⟩
    have coefficient : fpolyCoefficient c power = fun row => power.getD row 0 :=
      funext fun row => fpolyCoefficient_valid (wordsValid_iff.mpr ⟨by omega, clean_power⟩) row
    have less : ∀ row, fpolyCoefficient c power row < c.prime := fun row => by
      rw [coefficient]
      exact clean_power.reduced.getD row
    have inside : column < modulus.length - 1 := by omega
    have filled := shaped.setColumn column less
    have variable_value : value c [0, 1] = X := by simp [value]
    refine ih (column + 1) _ (by omega) (filled.set ?_ ?_ inside) ?_
    · rw [List.length_set, filled.width column inside]
    · exact (filled.reduced column inside).set column
        (subtractMod_lt (filled.entry_lt inside column) (two_le_prime c))
    · intro row row_inside j earlier
      rw [shaped.filled less inside row_inside]
      by_cases here : j = column
      · rw [if_pos here, here, frobeniusMatrix, ZMod.card, coefficient, ← coeff_value, result, variable_value]
      · rw [if_neg here]
        exact before row row_inside j (by omega)

theorem Shaped.swapRows (shaped : Shaped c degree matrix) {second : Nat} (inside : first < degree)
    (inside' : second < degree) : Shaped c degree (swapRows matrix first second) := by
  unfold Berlekamp.swapRows
  split_ifs
  · exact shaped
  · exact (shaped.set (shaped.width second inside') (shaped.reduced second inside') inside).set
      (shaped.width first inside) (shaped.reduced first inside) inside'

theorem Shaped.rowValue_swapRows (shaped : Shaped c degree matrix) {second : Nat} (inside : first < degree)
    (inside' : second < degree) (row : Nat) :
    rowValue c (Berlekamp.swapRows matrix first second) row = rowValue c matrix (Equiv.swap first second row) := by
  unfold Berlekamp.swapRows
  split_ifs with same
  · rw [same, Equiv.swap_self, Equiv.refl_apply]
  · have middle := shaped.set (shaped.width second inside') (shaped.reduced second inside') inside
    rw [middle.rowValue_set inside', shaped.rowValue_set inside, Equiv.swap_apply_def]
    split_ifs with at_second at_first at_first
    · exact absurd (at_first.symm.trans at_second) same
    all_goals rfl

theorem value_drop (zero : ∀ i < column, words.getD i 0 = 0) :
    X ^ column * value c (words.drop column) = value c words := by
  ext i
  rw [coeff_X_pow_mul']
  split_ifs with past
  · rw [coeff_value, coeff_value, List.getD_eq_getElem?_getD, List.getElem?_drop, Nat.add_sub_of_le past,
      ← List.getD_eq_getElem?_getD]
  · rw [coeff_value, zero i (by omega), Nat.cast_zero]

theorem clearRows_eq {rank : Nat} {pivotRow : List Nat} (width : pivotRow.length = degree)
    (zero : ∀ i < column, pivotRow.getD i 0 = 0) (inside_column : column ≤ degree) (rows : List Nat) (nodup : rows.Nodup)
    (inside : ∀ row ∈ rows, row < degree) (matrix : List (List Nat)) (shaped : Shaped c degree matrix) :
    Computes (clearRows c rank column pivotRow rows matrix) fun out => Shaped c degree out ∧ ∀ row,
      rowValue c out row = if row ∈ rows ∧ row ≠ rank
        then rowValue c matrix row - C (table c matrix row column) * value c pivotRow
        else rowValue c matrix row := by
  induction rows generalizing matrix with
  | nil => exact .pure ⟨shaped, fun row => by simp⟩
  | cons first rows ih =>
    obtain ⟨absent, nodup⟩ := List.nodup_cons.mp nodup
    have inside_first := inside first List.mem_cons_self
    have inside_rest : ∀ row ∈ rows, row < degree := fun row member => inside row (List.mem_cons_of_mem _ member)
    refine .ite (fun skipped => ?_) (fun cleared => ?_)
    · refine (ih nodup inside_rest matrix shaped).mono ?_
      rintro out ⟨shaped_out, result⟩
      refine ⟨shaped_out, fun row => ?_⟩
      rw [result row]
      by_cases here : row = first
      · subst here
        rw [if_neg fun both => absent both.1]
        rcases skipped with same | empty
        · rw [if_neg fun both => both.2 same]
        · rw [(shaped.entry_eq_zero inside_first column).mp empty, C_0, zero_mul, sub_zero, ite_self]
      · simp only [List.mem_cons, here, false_or]
    · have row_width := shaped.width first inside_first
      refine .bind (computes_accumulate combines_subtract _ _ _ _ (shaped.reduced first inside_first) ?_) ?_
      · rw [List.length_drop, row_width]
        omega
      rintro words ⟨length, reduced, combined⟩
      refine (ih nodup inside_rest _ (shaped.set (length.trans row_width) reduced inside_first)).mono ?_
      rintro out ⟨shaped_out, result⟩
      refine ⟨shaped_out, fun row => ?_⟩
      have words_value : value c words =
          rowValue c matrix first - C (table c matrix first column) * value c pivotRow := by
        rw [combined, mul_assoc, value_drop zero, rowValue, table, neg_one_mul, C_neg]
        ring
      rw [result row, shaped.rowValue_set inside_first]
      by_cases here : row = first
      · subst here
        have different : row ≠ rank := fun same => cleared (.inl same)
        rw [if_neg fun both => absent both.1, if_pos rfl, if_pos ⟨List.mem_cons_self, different⟩, words_value]
      · have kept : table c (matrix.set first words) row column = table c matrix row column := by
          rw [table, entry_set (shaped.rows.symm ▸ inside_first), if_neg here, table]
        simp only [List.mem_cons, here, false_or, if_false, kept]

structure Eliminated (A : Nat → Nat → ZMod c.prime) (degree done : Nat) (s : Elimination) : Prop where
  shaped : Shaped c degree s.matrix
  echelon : Echelon (table c s.matrix) degree done s.pivotColumns
  kernel : nullSpace (table c s.matrix) degree = nullSpace A degree

theorem scaled_row (width : words.length = degree) (reduced : Reduced c words)
    (zero : ∀ i < column, words.getD i 0 = 0) (inside : column ≤ degree) (inverse : Nat) :
    Computes (scaleWords c (words.drop column) inverse) fun out =>
      let row := words.take column ++ out
      row.length = degree ∧ Reduced c row ∧ value c row = C (inverse : ZMod c.prime) * value c words := by
  refine (scaleWords_eq _ _).mono ?_
  rintro out ⟨length, reduced_out, scaled⟩
  refine ⟨?_, ?_, ?_⟩
  · rw [List.length_append, List.length_take, length, List.length_drop, width]
    omega
  · intro word member
    rcases List.mem_append.mp member with low | high
    · exact reduced word (List.take_subset _ _ low)
    · exact reduced_out word high
  · have low : value c (words.take column) = 0 := by
      ext i
      rw [coeff_value, List.getD_eq_getElem?_getD, List.getElem?_take, coeff_zero]
      split_ifs with earlier
      · rw [← List.getD_eq_getElem?_getD, zero i earlier, Nat.cast_zero]
      · exact Nat.cast_zero
    rw [value, List.map_append, ofCoefficients_append, ← value, ← value, low, zero_add, List.length_map,
      List.length_take, min_eq_left (by omega), scaled, ← value_drop zero]
    ring

theorem find_pivot (degree : Nat) (matrix : List (List Nat)) (rank column : Nat) :
    match ((List.range degree).drop rank).find? fun row => decide (entry matrix row column ≠ 0) with
    | none => ∀ row < degree, rank ≤ row → entry matrix row column = 0
    | some pivot => rank ≤ pivot ∧ pivot < degree ∧ entry matrix pivot column ≠ 0 := by
  have members : ∀ row, row ∈ (List.range degree).drop rank ↔ rank ≤ row ∧ row < degree := by
    intro row
    rw [List.range_eq_range', List.drop_range', List.mem_range'_1]
    omega
  cases found : ((List.range degree).drop rank).find? fun row => decide (entry matrix row column ≠ 0) with
  | none =>
    intro row inside below
    have zero := List.find?_eq_none.mp found row ((members row).mpr ⟨below, inside⟩)
    simpa using zero
  | some pivot =>
    obtain ⟨below, inside⟩ := (members pivot).mp (List.mem_of_find?_eq_some found)
    exact ⟨below, inside, by simpa using List.find?_some found⟩

variable {A : Nat → Nat → ZMod c.prime}

theorem eliminateColumn_eq (inside : column < degree) (s : Elimination)
    (eliminated : Eliminated A degree column s) (room : s.rank < degree) :
    Computes (eliminateColumn c degree column s) (Eliminated A degree (column + 1)) := by
  obtain ⟨shaped, echelon, kernel⟩ := eliminated
  unfold eliminateColumn
  have search := find_pivot degree s.matrix s.rank column
  cases found : ((List.range degree).drop s.rank).find? fun row => decide (entry s.matrix row column ≠ 0) with
  | none =>
    rw [found] at search
    refine .pure ⟨shaped, echelon.skip fun row bound below => ?_, kernel⟩
    exact (shaped.entry_eq_zero bound column).mp (search row bound below)
  | some pivot =>
    rw [found] at search
    obtain ⟨below, bound, nonzero⟩ := search
    have swapped := shaped.swapRows room bound
    have row_value := shaped.rowValue_swapRows room bound
    have at_rank : rowValue c (swapRows s.matrix s.rank pivot) s.rank = rowValue c s.matrix pivot := by
      rw [row_value, Equiv.swap_apply_left]
    have low : ∀ i < column, ((swapRows s.matrix s.rank pivot).getD s.rank []).getD i 0 = 0 := by
      intro i earlier
      have zero := echelon.clear pivot bound below i earlier
      rw [← coeff_rowValue, ← at_rank, coeff_rowValue] at zero
      exact (swapped.entry_eq_zero room i).mpr zero
    refine .bind (scaled_row (swapped.width s.rank room) (swapped.reduced s.rank room) low inside.le _) ?_
    rintro scaled ⟨width, reduced, scaled_value⟩
    have inverse : (inverseMod (entry (swapRows s.matrix s.rank pivot) s.rank column) c.prime : ZMod c.prime) =
        (table c s.matrix pivot column)⁻¹ := by
      have same : (entry (swapRows s.matrix s.rank pivot) s.rank column : ZMod c.prime) = table c s.matrix pivot column := by
        rw [← coeff_rowValue, ← at_rank, coeff_rowValue, table]
      rw [inverseMod_cast, same]
      rw [same]
      exact (shaped.entry_eq_zero bound column).not.mp nonzero
    have pivot_value : value c (((swapRows s.matrix s.rank pivot).getD s.rank []).take column ++ scaled) =
        C (table c s.matrix pivot column)⁻¹ * rowValue c s.matrix pivot := by
      rw [scaled_value, inverse, ← at_rank, rowValue]
    have pivot_low : ∀ i < column,
        (((swapRows s.matrix s.rank pivot).getD s.rank []).take column ++ scaled).getD i 0 = 0 := by
      intro i earlier
      rw [← word_cast_eq_zero (reduced.getD i), ← coeff_value, pivot_value, coeff_C_mul, coeff_rowValue,
        echelon.clear pivot bound below i earlier, mul_zero]
    have replaced := swapped.set width reduced room
    refine .bind (clearRows_eq width pivot_low inside.le (List.range degree) List.nodup_range
      (fun row member => List.mem_range.mp member) _ replaced) ?_
    rintro out ⟨shaped_out, result⟩
    have pivoting : Pivoting (table c s.matrix) (table c out) degree s.rank pivot column := by
      have at_pivot : rowValue c out s.rank = C (table c s.matrix pivot column)⁻¹ * rowValue c s.matrix pivot := by
        rw [result s.rank, if_neg fun both => both.2 rfl, swapped.rowValue_set room, if_pos rfl, pivot_value]
      refine ⟨room, bound, (shaped.entry_eq_zero bound column).not.mp nonzero, fun j _ => ?_,
        fun row row_inside different j _ => ?_⟩
      · rw [← coeff_rowValue, at_pivot, coeff_C_mul, coeff_rowValue]
      · have others : rowValue c ((swapRows s.matrix s.rank pivot).set s.rank
            (((swapRows s.matrix s.rank pivot).getD s.rank []).take column ++ scaled)) row =
              rowValue c s.matrix (Equiv.swap s.rank pivot row) := by
          rw [swapped.rowValue_set room, if_neg different, row_value]
        rw [← coeff_rowValue, result row, if_pos ⟨List.mem_range.mpr row_inside, different⟩, coeff_sub, coeff_C_mul,
          others, coeff_rowValue, ← coeff_rowValue out s.rank, at_pivot, pivot_value, ← coeff_rowValue _ row,
          others, coeff_rowValue]
    exact .pure ⟨shaped_out, echelon.pivot inside below pivoting, pivoting.nullSpace_eq.trans kernel⟩

variable {s : Elimination}

theorem Eliminated.full {done : Nat}
    (eliminated : Eliminated A degree done s) (within : done ≤ degree) (full : degree ≤ s.rank) :
    Eliminated A degree degree s := by
  obtain ⟨shaped, echelon, kernel⟩ := eliminated
  refine ⟨shaped, ⟨fun p member => (echelon.bounded p member).trans_le within, echelon.nodup, echelon.short,
    echelon.unit, fun row inside below => ?_⟩, kernel⟩
  exact absurd (full.trans below) (Nat.not_le.mpr inside)

theorem eliminateColumns_eq (column remaining : Nat) (whole : column + remaining = degree)
    (s : Elimination) (eliminated : Eliminated A degree column s) :
    Computes (eliminateColumns c degree (List.range' column remaining) s) (Eliminated A degree degree) := by
  induction remaining generalizing column s with
  | zero =>
    obtain rfl : column = degree := by omega
    exact .pure eliminated
  | succ remaining ih =>
    rw [List.range'_succ]
    refine .ite (fun room => ?_) (fun full => .pure (eliminated.full (by omega) (by omega)))
    refine .bind (eliminateColumn_eq (by omega) s eliminated room) fun s eliminated => ?_
    exact ih (column + 1) (by omega) s eliminated

theorem berlekampRref_eq (valid : wordsValid c words = true) (nonempty : 1 ≤ words.length) :
    Computes (berlekampRref c words) fun s =>
      Eliminated (frobeniusMatrix (value c words)) (words.length - 1) (words.length - 1) s := by
  unfold berlekampRref
  simp only [List.range_eq_range']
  refine .bind (fillColumns_eq valid nonempty 0 _ _ (Nat.zero_add _) (shaped_zeros _) fun _ _ j earlier =>
    absurd earlier (Nat.not_lt_zero j)) ?_
  rintro matrix ⟨shaped, filled⟩
  refine eliminateColumns_eq 0 _ (Nat.zero_add _) _ ⟨shaped, .start _ _, ?_⟩
  ext v
  refine forall₂_congr fun row inside => ?_
  have same : rowProduct (table c matrix) v row = rowProduct (frobeniusMatrix (value c words)) v row :=
    Finset.sum_congr rfl fun j _ => by rw [filled row inside j j.isLt]
  change rowProduct (table c matrix) v row = 0 ↔ _
  rw [same]

structure Solving (s : Elimination) (degree j count : Nat) (words : List Nat) : Prop where
  width : words.length = degree
  reduced : Reduced c words
  free : ∀ k, k ∉ s.pivotColumns → words.getD k 0 = if k = j then 1 else 0
  forced : ∀ i (inside : i < s.pivotColumns.length), i < count →
    (words.getD s.pivotColumns[i] 0 : ZMod c.prime) = -table c s.matrix i j

theorem kernelBasis_solving (shaped : Shaped c degree s.matrix)
    (echelon : Echelon (table c s.matrix) degree degree s.pivotColumns) {j : Nat} (inside : j < degree) :
    Solving (c := c) s degree j s.rank (kernelBasis c s degree j) := by
  have loop : ∀ count ≤ s.rank, Solving (c := c) s degree j count ((List.range count).foldl (fun basis row =>
      basis.set (s.pivotColumns.getD row 0) (if entry s.matrix row j = 0 then 0 else c.prime - entry s.matrix row j))
      ((List.replicate degree 0).set j 1)) := by
    intro count within
    induction count with
    | zero =>
      refine ⟨by simp, (reduced_replicate degree).set j (two_le_prime c), fun k _ => ?_, fun i _ none => by omega⟩
      rw [List.range_zero, List.foldl_nil, getD_set_of_lt (by rwa [List.length_replicate])]
      split_ifs
      · rfl
      · rw [List.getD_eq_getElem?_getD, List.getElem?_replicate]
        split_ifs <;> rfl
    | succ count ih =>
      obtain ⟨width, reduced, free, forced⟩ := ih (by omega)
      have bound : count < s.pivotColumns.length := within
      have position : s.pivotColumns.getD count 0 = s.pivotColumns[count] := List.getD_eq_getElem _ _ bound
      have member := List.getElem_mem bound
      have row : count < degree := bound.trans_le echelon.short
      have less := shaped.entry_lt row j
      rw [List.range_succ, List.foldl_append, List.foldl_cons, List.foldl_nil, position]
      generalize (List.range count).foldl _ _ = words at width reduced free forced ⊢
      have column : s.pivotColumns[count] < words.length := width.symm ▸ echelon.bounded _ member
      refine ⟨by rw [List.length_set, width], reduced.set _ (by split_ifs <;> omega), fun k absent => ?_,
        fun i inside_i earlier => ?_⟩ <;> rw [getD_set_of_lt column]
      · rw [if_neg fun same => absent (by rw [same]; exact member), free k absent]
      · by_cases last : i = count
        · subst last
          rw [if_pos rfl, table]
          split_ifs with zero
          · rw [zero, Nat.cast_zero, neg_zero]
          · rw [Nat.cast_sub less.le, ZMod.natCast_self, zero_sub]
        · rw [if_neg fun same => last (echelon.nodup.getElem_inj_iff.mp same), forced i inside_i (by omega)]
  exact loop s.rank (Nat.le_refl _)

noncomputable def basisVector (c : FpolyContext) (s : Elimination) (degree j : Nat) (i : Fin degree) : ZMod c.prime :=
  (value c (kernelBasis c s degree j)).coeff i.val

theorem kernelBasis_solution (shaped : Shaped c degree s.matrix)
    (echelon : Echelon (table c s.matrix) degree degree s.pivotColumns) (j : Free degree s.pivotColumns) :
    Solution (table c s.matrix) s.pivotColumns j (basisVector c s degree j.val.val) := by
  have solving := kernelBasis_solving shaped echelon j.val.isLt
  have entries : ∀ i : Fin degree, basisVector c s degree j.val.val i =
      ((kernelBasis c s degree j.val.val).getD i.val 0 : ZMod c.prime) := fun i => coeff_value _ _
  refine ⟨?_, fun k different => ?_, fun i bound column => ?_⟩
  · rw [entries, solving.free j.val.val j.property, if_pos rfl, Nat.cast_one]
  · have other : k.val.val ≠ j.val.val := fun same => different (Subtype.ext (Fin.ext same))
    rw [entries, solving.free k.val.val k.property, if_neg other, Nat.cast_zero]
  · rw [entries]
    exact solving.forced i bound bound

theorem value_kernelBasis (shaped : Shaped c degree s.matrix)
    (echelon : Echelon (table c s.matrix) degree degree s.pivotColumns) {j : Nat} (inside : j < degree) :
    value c (kernelBasis c s degree j) = polyOf (basisVector c s degree j) := by
  have short := value_degree_lt (c := c) (kernelBasis c s degree j)
  rw [(kernelBasis_solving shaped echelon inside).width] at short
  exact (polyOf_coeffs short).symm

end PhyNspire.FinitePoly.Elimination

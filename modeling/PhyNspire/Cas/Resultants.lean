import PhyNspire.Cas.GroebnerBasis
import PhyNspire.Lib.Sylvester

/-!
Resultants and discriminants of sparse_poly.c. The coefficients of two polynomials in one
variable fill Sylvester's matrix, whose determinant is found by exact elimination; constant
polynomials are powers instead. The working matrix comes from the scratch memory of the
system, which may refuse it.
-/

namespace PhyNspire.Cas.SparsePoly
open Platform Lib.Stateful Lib.Sylvester Ir.Expressions PhyNspire.Exact

def sparseMaxSylvester : Nat := 32

/-- `sizeof(phy_ir_ref)` -/
def refSize : Nat := 4

def Term.power (term : Term) (symbol : Nat) : Nat := term.exponent.getD symbol 0

def degreeIn (poly : Poly) (symbol : Nat) : Nat :=
  poly.foldl (fun degree term => if degree < term.power symbol then term.power symbol else degree) 0

def coefficientOfDegree : Poly → Nat → ℚ
  | [], _ => 0
  | term :: rest, degree => if term.power 0 = degree then term.coefficient else coefficientOfDegree rest degree

section
variable {State : Type} (engine : Engine State)

def coefficientWhen (condition : Bool) (left right : ℚ) : EStateM Status State ℚ :=
  if condition then engine.exactMul left right else pure left

/-- Square and multiply; the turns that are left are never fewer than the exponent. -/
def coefficientPowerLoop : Nat → Nat → ℚ → ℚ → EStateM Status State ℚ
  | 0, _, result, _ => pure result
  | turns + 1, exponent, result, factor =>
      if exponent = 0 then pure result
      else do
        let result ← coefficientWhen engine (decide (exponent % 2 = 1)) result factor
        let factor ← coefficientWhen engine (decide (exponent / 2 ≠ 0)) factor factor
        coefficientPowerLoop turns (exponent / 2) result factor

def coefficientPower (base : ℚ) (exponent : Nat) : EStateM Status State ℚ :=
  coefficientPowerLoop engine exponent exponent 1 base

/-- A working matrix. -/
abbrev Entries := Nat → Nat → ℚ

def setEntry (matrix : Entries) (row column : Nat) (value : ℚ) : Entries :=
  fun r c => if r = row ∧ c = column then value else matrix r c

def swapRows (matrix : Entries) (dimension column pivot : Nat) : Entries := fun r c =>
  if column ≤ c ∧ c < dimension then
    if r = column then matrix pivot c else if r = pivot then matrix column c else matrix r c
  else matrix r c

/-- The first row from the diagonal on whose entry is not zero. -/
def findPivot (matrix : Entries) (column : Nat) : Nat → Nat → Option Nat
  | 0, _ => none
  | remaining + 1, pivot =>
      if matrix pivot column = 0 then findPivot matrix column remaining (pivot + 1) else some pivot

def reduceEntry (factor : ℚ) (column row entry : Nat) (matrix : Entries) : EStateM Status State Entries := do
  let product ← engine.exactMul factor (matrix column entry)
  let difference ← engine.exactSub (matrix row entry) product
  pure (setEntry matrix row entry difference)

def clearRow (dimension column : Nat) (diagonal : ℚ) (row : Nat) (matrix : Entries) : EStateM Status State Entries :=
  if matrix row column = 0 then pure matrix
  else do
    let factor ← engine.exactDiv (matrix row column) diagonal
    let matrix ← countUp (reduceEntry engine factor column row) (dimension - (column + 1)) (column + 1) matrix
    pure (setEntry matrix row column 0)

structure Elimination where
  matrix : Entries
  determinant : ℚ
  negative : Bool

def Elimination.bring (elimination : Elimination) (dimension column pivot : Nat) : Elimination :=
  if pivot ≠ column then
    { elimination with matrix := swapRows elimination.matrix dimension column pivot, negative := !elimination.negative }
  else elimination

def eliminateColumn (dimension column : Nat) (elimination : Elimination) : EStateM Status State Elimination := do
  let determinant ← engine.exactMul elimination.determinant (elimination.matrix column column)
  let matrix ← countUp (clearRow engine dimension column (elimination.matrix column column)) (dimension - (column + 1))
    (column + 1) elimination.matrix
  pure ⟨matrix, determinant, elimination.negative⟩

def determinantLoop (dimension : Nat) : Nat → Nat → Elimination → EStateM Status State ℚ
  | 0, _, elimination => if elimination.negative then engine.exactSub 0 elimination.determinant else pure elimination.determinant
  | remaining + 1, column, elimination =>
      match findPivot elimination.matrix column (dimension - column) column with
      | none => pure 0
      | some pivot => do
          let elimination ← eliminateColumn engine dimension column (elimination.bring dimension column pivot)
          determinantLoop dimension remaining (column + 1) elimination

def exactMatrixDeterminant (matrix : Entries) (dimension : Nat) : EStateM Status State ℚ :=
  determinantLoop engine dimension dimension 0 ⟨matrix, 1, false⟩

def writeRow (poly : Poly) (top row start : Nat) : Nat → Nat → Entries → Entries
  | 0, _, matrix => matrix
  | remaining + 1, degree, matrix => writeRow poly top row start remaining (degree + 1)
      (setEntry matrix row (start + degree) (coefficientOfDegree poly (top - degree)))

/-- Rows of one polynomial, each one place further to the right. -/
def writeRows (poly : Poly) (top first : Nat) : Nat → Nat → Entries → Entries
  | 0, _, matrix => matrix
  | remaining + 1, row, matrix => writeRows poly top first remaining (row + 1)
      (writeRow poly top (first + row) row (top + 1) 0 matrix)

def sylvesterEntries (left right : Poly) (leftDegree rightDegree : Nat) : Entries :=
  writeRows right rightDegree rightDegree leftDegree 0 (writeRows left leftDegree 0 rightDegree 0 fun _ _ => 0)

structure Scratch (State : Type) where
  tempAlloc : Nat → EStateM Status State Unit
  tempFree : Nat → State → State

variable (scratch : Scratch State)

def sylvesterDeterminant (left right : Poly) (leftDegree rightDegree : Nat) : EStateM Status State ℚ :=
  if sparseMaxSylvester < leftDegree + rightDegree then throw .termLimit
  else do
    scratch.tempAlloc ((leftDegree + rightDegree) * (leftDegree + rightDegree) * refSize)
    ensuring (scratch.tempFree ((leftDegree + rightDegree) * (leftDegree + rightDegree) * refSize))
      (exactMatrixDeterminant engine (sylvesterEntries left right leftDegree rightDegree) (leftDegree + rightDegree))

def resultantPolys (left right : Poly) : EStateM Status State ℚ :=
  if left = [] ∨ right = [] then pure 0
  else if degreeIn left 0 = 0 then coefficientPower engine (coefficientOfDegree left 0) (degreeIn right 0)
  else if degreeIn right 0 = 0 then coefficientPower engine (coefficientOfDegree right 0) (degreeIn left 0)
  else sylvesterDeterminant engine scratch left right (degreeIn left 0) (degreeIn right 0)

def polyDerivative (source : Poly) : EStateM Status State Poly := terms source []
where
  terms : Poly → Poly → EStateM Status State Poly
    | [], out => pure out
    | term :: rest, out =>
        if term.power 0 = 0 then terms rest out
        else do
          let coefficient ← engine.exactMul term.coefficient (term.power 0)
          let out ← insertTerm engine out coefficient (term.exponent.set 0 (term.power 0 - 1))
          terms rest out

def sparseResultant (left right symbol : Expr) : EStateM Status State ℚ := do
  let names ← validateExplicitVariables [symbol]
  let left ← polyFromIrNode engine names left
  let right ← polyFromIrNode engine names right
  resultantPolys engine scratch left right

def signedQuotient (degree : Nat) (quotient : ℚ) : EStateM Status State ℚ :=
  if degree * (degree - 1) / 2 % 2 ≠ 0 then engine.exactSub 0 quotient else pure quotient

def discriminantOf (polynomial : Poly) : EStateM Status State ℚ :=
  match polynomial with
  | [] => throw .domain
  | leading :: rest =>
      if degreeIn (leading :: rest) 0 ≤ 1 then pure 1
      else do
        let derivative ← polyDerivative engine (leading :: rest)
        let resultant ← resultantPolys engine scratch (leading :: rest) derivative
        let quotient ← engine.exactDiv resultant leading.coefficient
        signedQuotient engine (degreeIn (leading :: rest) 0) quotient

def sparseDiscriminant (expression symbol : Expr) : EStateM Status State ℚ := do
  let names ← validateExplicitVariables [symbol]
  let polynomial ← polyFromIrNode engine names expression
  discriminantOf engine scratch polynomial

end

noncomputable def toUnivariate : MvPolynomial (Fin 1) ℚ →ₐ[ℚ] Polynomial ℚ := MvPolynomial.aeval fun _ => Polynomial.X

theorem toUnivariate_toMonomial (term : Term) :
    toUnivariate (toMonomial 1 term) = Polynomial.monomial (term.power 0) term.coefficient := by
  rw [toUnivariate, toMonomial, MvPolynomial.aeval_monomial, Finsupp.prod_fintype _ _ fun _ => pow_zero _,
    Fin.prod_univ_one, Polynomial.algebraMap_eq, Polynomial.C_mul_X_pow_eq_monomial]
  rfl

variable {first : Term}

theorem power_lt_of_above {term : Term} (sized : first.exponent.length = 1) (sized' : term.exponent.length = 1)
    (below : monomialCompare term.exponent first.exponent = .lt) : term.power 0 < first.power 0 := by
  obtain ⟨i, inside, -, place⟩ := lt_of_monomialCompare (sized'.trans sized.symm) below
  obtain rfl : i = 0 := by omega
  exact place

theorem Sorted.power_lt {rest : Poly} (sorted : Sorted 1 (first :: rest)) {term : Term} (inside : term ∈ rest) :
    term.power 0 < first.power 0 :=
  power_lt_of_above (sorted.sized first List.mem_cons_self) (sorted.sized term (List.mem_cons_of_mem _ inside))
    (sorted.above term inside)

theorem coefficientOfDegree_of_below {poly : Poly} {degree : Nat} (below : ∀ term ∈ poly, term.power 0 ≠ degree) :
    coefficientOfDegree poly degree = 0 := by
  induction poly with
  | nil => rfl
  | cons first rest ih =>
    rw [coefficientOfDegree, if_neg (below first List.mem_cons_self)]
    exact ih fun term inside => below term (List.mem_cons_of_mem _ inside)

theorem coefficientOfDegree_eq {poly : Poly} (sorted : Sorted 1 poly) (degree : Nat) :
    coefficientOfDegree poly degree = (toUnivariate (toPolynomial 1 poly)).coeff degree := by
  induction poly with
  | nil => rw [toPolynomial_nil, map_zero, Polynomial.coeff_zero]; rfl
  | cons first rest ih =>
    rw [toPolynomial_cons, map_add, toUnivariate_toMonomial, Polynomial.coeff_add, Polynomial.coeff_monomial, ← ih sorted.tail,
      coefficientOfDegree]
    by_cases here : first.power 0 = degree
    · rw [if_pos here, if_pos here, coefficientOfDegree_of_below, add_zero]
      exact fun term inside => here ▸ (sorted.power_lt inside).ne
    · rw [if_neg here, if_neg here, zero_add]

theorem degreeIn_cons {rest : Poly} (sorted : Sorted 1 (first :: rest)) :
    degreeIn (first :: rest) 0 = first.power 0 := by
  have kept : ∀ terms : Poly, (∀ term ∈ terms, term.power 0 < first.power 0) →
      terms.foldl (fun degree term => if degree < term.power 0 then term.power 0 else degree) (first.power 0) = first.power 0 := by
    intro terms below
    induction terms with
    | nil => rfl
    | cons head others ih =>
      rw [List.foldl_cons, if_neg (below head List.mem_cons_self).not_gt]
      exact ih fun term inside => below term (List.mem_cons_of_mem _ inside)
  have start : (if 0 < first.power 0 then first.power 0 else 0) = first.power 0 := by split <;> omega
  rw [degreeIn, List.foldl_cons, start]
  exact kept rest fun term inside => sorted.power_lt inside

/-- A polynomial that a list of terms represents, in one variable. -/
structure Univariate (f : Polynomial ℚ) (poly : Poly) : Prop where
  sorted : Sorted 1 poly
  value : toUnivariate (toPolynomial 1 poly) = f

namespace Univariate
variable {f : Polynomial ℚ} {poly : Poly}

theorem of_represents {p : MvPolynomial (Fin 1) ℚ} (represents : Represents 1 p poly) : Univariate (toUnivariate p) poly :=
  ⟨represents.1, by rw [represents.2]⟩

theorem coefficient (read : Univariate f poly) (degree : Nat) : coefficientOfDegree poly degree = f.coeff degree := by
  rw [coefficientOfDegree_eq read.sorted, read.value]

theorem nil (read : Univariate f []) : f = 0 := by rw [← read.value, toPolynomial_nil, map_zero]

theorem leading {first : Term} {rest : Poly} (read : Univariate f (first :: rest)) :
    f.natDegree = first.power 0 ∧ f.leadingCoeff = first.coefficient ∧ f ≠ 0 := by
  have top : f.coeff (first.power 0) = first.coefficient := by
    rw [← read.coefficient, coefficientOfDegree, if_pos rfl]
  have nonzero : f.coeff (first.power 0) ≠ 0 := top ▸ read.sorted.nonzero first List.mem_cons_self
  have degree : f.natDegree = first.power 0 := by
    apply Polynomial.natDegree_eq_of_le_of_coeff_ne_zero _ nonzero
    apply Polynomial.natDegree_le_iff_coeff_eq_zero.mpr
    intro later above
    rw [← read.coefficient]
    apply coefficientOfDegree_of_below
    intro term inside
    rcases List.mem_cons.mp inside with rfl | member
    · exact above.ne
    · exact ((read.sorted.power_lt member).trans above).ne
  refine ⟨degree, by rw [Polynomial.leadingCoeff, degree, top], ?_⟩
  rintro rfl
  exact nonzero (Polynomial.coeff_zero _)

theorem degree (read : Univariate f poly) : degreeIn poly 0 = f.natDegree := by
  cases poly with
  | nil => rw [read.nil, Polynomial.natDegree_zero]; rfl
  | cons first rest => rw [degreeIn_cons read.sorted, read.leading.1]

theorem eq_zero_iff (read : Univariate f poly) : f = 0 ↔ poly = [] := by
  cases poly with
  | nil => exact iff_of_true read.nil rfl
  | cons first rest => exact iff_of_false read.leading.2.2 (List.cons_ne_nil _ _)

end Univariate

section
variable {State : Type} {engine : Engine State} (exact : engine.Exact) {s : State}

theorem setEntry_self (matrix : Entries) (row column : Nat) (value : ℚ) : setEntry matrix row column value row column = value :=
  if_pos ⟨rfl, rfl⟩

variable {matrix : Entries} {row column : Nat}

theorem setEntry_row {value : ℚ} {r : Nat} (other : r ≠ row) (c : Nat) :
    setEntry matrix row column value r c = matrix r c := if_neg fun both => other both.1

theorem setEntry_column {value : ℚ} (r : Nat) {c : Nat} (other : c ≠ column) :
    setEntry matrix row column value r c = matrix r c := if_neg fun both => other both.2

/-- The row of a pivot is subtracted from this one between the pivot's column and another. -/
structure RowReduced (before after : Entries) (factor : ℚ) (column row bound : Nat) : Prop where
  others : ∀ r, r ≠ row → ∀ c, after r c = before r c
  later : ∀ c, bound ≤ c → after row c = before row c
  reduced : ∀ c, column < c → c < bound → after row c = before row c - factor * before column c

include exact

theorem wp_reduceEntry {before : Entries} {factor : ℚ} {entry : Nat} (below : column < row)
    (far : column < entry) (state : RowReduced before matrix factor column row entry) :
    wp (reduceEntry engine factor column row entry matrix)
      (fun after _ => RowReduced before after factor column row (entry + 1)) (fun _ _ => True) s := by
  unfold reduceEntry
  rw [wp_bind]
  apply (exact.mul _ _).use
  intro t
  rw [wp_bind]
  apply (exact.sub _ _).use
  intro t
  constructor
  · intro r other c
    rw [setEntry_row other, state.others r other]
  · intro c late
    rw [setEntry_column _ (by omega), state.later c (by omega)]
  · intro c first inside
    rcases Nat.lt_succ_iff_lt_or_eq.mp inside with earlier | rfl
    · rw [setEntry_column _ earlier.ne, state.reduced c first earlier]
    · rw [setEntry_self, state.later c le_rfl, state.others column below.ne]

/-- Every row between two bounds has the pivot's column cleared; the others are as before. -/
structure Cleared (before after : Entries) (dimension column bound : Nat) : Prop where
  above : ∀ r, r ≤ column → ∀ c, after r c = before r c
  later : ∀ r, bound ≤ r → ∀ c, after r c = before r c
  cleared : ∀ r, column < r → r < bound → ∀ c, column < c → c < dimension →
    after r c = before r c - before r column / before column column * before column c

variable {dimension : Nat}

theorem wp_clearRow {before : Entries} (below : column < row) (state : Cleared before matrix dimension column row) :
    wp (clearRow engine dimension column (before column column) row matrix)
      (fun after _ => Cleared before after dimension column (row + 1)) (fun _ _ => True) s := by
  have own := state.later row le_rfl
  unfold clearRow
  apply wp_ite
  · intro empty
    rw [own] at empty
    refine ⟨state.above, fun r late => state.later r (by omega), fun r first inside c start stop => ?_⟩
    rcases Nat.lt_succ_iff_lt_or_eq.mp inside with earlier | rfl
    · exact state.cleared r first earlier c start stop
    · rw [own, empty, zero_div, zero_mul, sub_zero]
  intro _
  apply wp_then (exact.div _ _ _)
  rintro factor t ⟨-, rfl⟩
  rw [wp_bind, own]
  have entries := wp_countUp (fun entry after _ => RowReduced matrix after (before row column / before column column) column row entry)
    (dimension - (column + 1)) (column + 1) matrix t ⟨fun _ _ _ => rfl, fun _ _ => rfl, fun c first inside => by omega⟩
    (fun entry after u lower _ held => wp_reduceEntry exact below (by omega) held)
  apply wp_good entries
  intro after u held
  constructor
  · intro r high c
    rw [setEntry_row (by omega), held.others r (by omega), state.above r high]
  · intro r late c
    rw [setEntry_row (by omega), held.others r (by omega), state.later r (by omega)]
  · intro r first inside c start stop
    rcases Nat.lt_succ_iff_lt_or_eq.mp inside with earlier | rfl
    · rw [setEntry_row earlier.ne, held.others r earlier.ne, state.cleared r first earlier c start stop]
    · rw [setEntry_column _ start.ne', held.reduced c start (by omega), own, state.above column le_rfl]

theorem wp_eliminateColumn {count : Nat} (places : dimension = column + (count + 1)) {elimination : Elimination}
    (nonzero : elimination.matrix column column ≠ 0) : wp (eliminateColumn engine dimension column elimination)
      (fun after _ => after.negative = elimination.negative ∧
        after.determinant * (block after.matrix (column + 1) count).det =
          elimination.determinant * (block elimination.matrix column (count + 1)).det) (fun _ _ => True) s := by
  unfold eliminateColumn
  rw [wp_bind]
  apply (exact.mul _ _).use
  intro t
  rw [wp_bind]
  have rows := wp_countUp (fun row after _ => Cleared elimination.matrix after dimension column row)
    (dimension - (column + 1)) (column + 1) elimination.matrix t
    ⟨fun _ _ _ => rfl, fun _ _ _ => rfl, fun r first inside => by omega⟩
    (fun row after u lower _ held => wp_clearRow exact (by omega) held)
  apply wp_good rows
  intro after u held
  refine ⟨rfl, ?_⟩
  rw [det_block_clear nonzero fun i inside j inside' => held.cleared _ (by omega) (by omega) _ (by omega) (by omega), mul_assoc]

variable {pivot : Nat}

omit exact in
theorem findPivot_none {remaining : Nat} (none : findPivot matrix column remaining pivot = none) :
    ∀ i < remaining, matrix (pivot + i) column = 0 := by
  induction remaining generalizing pivot with
  | zero => exact fun i inside => absurd inside (Nat.not_lt_zero i)
  | succ remaining ih =>
    unfold findPivot at none
    split at none
    · rename_i empty
      intro i inside
      cases i with
      | zero => exact empty
      | succ i =>
        have next := ih none i (Nat.lt_of_succ_lt_succ inside)
        rwa [show pivot + 1 + i = pivot + (i + 1) by omega] at next
    · cases none

omit exact in
theorem findPivot_some {remaining found : Nat} (some : findPivot matrix column remaining pivot = some found) :
    pivot ≤ found ∧ found < pivot + remaining ∧ matrix found column ≠ 0 := by
  induction remaining generalizing pivot with
  | zero => cases some
  | succ remaining ih =>
    unfold findPivot at some
    split at some
    · obtain ⟨low, high, nonzero⟩ := ih some
      exact ⟨by omega, by omega, nonzero⟩
    · rename_i nonzero
      cases some
      exact ⟨le_rfl, by omega, nonzero⟩

def Elimination.sign (elimination : Elimination) : ℚ := if elimination.negative then -1 else 1

omit exact in
theorem Elimination.bring_sign (elimination : Elimination) {count : Nat}
    (places : dimension = column + (count + 1)) (low : column ≤ pivot) (high : pivot < dimension)
    (nonzero : elimination.matrix pivot column ≠ 0) :
    (elimination.bring dimension column pivot).matrix column column ≠ 0 ∧
      (elimination.bring dimension column pivot).determinant = elimination.determinant ∧
      (elimination.bring dimension column pivot).sign * (block (elimination.bring dimension column pivot).matrix column (count + 1)).det =
        elimination.sign * (block elimination.matrix column (count + 1)).det := by
  unfold Elimination.bring
  by_cases moved : pivot ≠ column
  · have below : column < pivot := by omega
    rw [if_pos moved]
    have top : ∀ c, column ≤ c → c < dimension → swapRows elimination.matrix dimension column pivot column c =
        elimination.matrix pivot c := fun c first inside => by rw [swapRows, if_pos ⟨first, inside⟩, if_pos rfl]
    have swapped := @det_block_swap _ _ elimination.matrix (swapRows elimination.matrix dimension column pivot) _ _ count
      below (by omega) (fun j inside => top _ (by omega) (by omega))
      (fun j inside => by rw [swapRows, if_pos ⟨by omega, by omega⟩, if_neg moved, if_pos rfl])
      (fun i first second j inside => by rw [swapRows, if_pos ⟨by omega, by omega⟩, if_neg first, if_neg second])
    refine ⟨?_, rfl, ?_⟩
    · change swapRows elimination.matrix dimension column pivot column column ≠ 0
      rw [top column le_rfl (by omega)]
      exact nonzero
    · rw [swapped, Elimination.sign, Elimination.sign]
      cases elimination.negative <;> simp
  · rw [if_neg moved]
    rw [not_not.mp moved] at nonzero
    exact ⟨nonzero, rfl, rfl⟩

theorem wp_determinantLoop (remaining column : Nat) (places : dimension = column + remaining)
    (elimination : Elimination) : wp (determinantLoop engine dimension remaining column elimination)
      (fun value _ => value = elimination.sign * (elimination.determinant * (block elimination.matrix column remaining).det))
      (fun _ _ => True) s := by
  induction remaining generalizing column elimination s with
  | zero =>
    rw [det_block_zero, mul_one]
    unfold determinantLoop
    apply wp_ite
    · intro negative
      rw [Elimination.sign, if_pos negative, neg_one_mul, ← zero_sub]
      apply (exact.sub _ _).use
      exact fun _ => rfl
    · intro positive
      rw [Elimination.sign, if_neg positive, one_mul]
      exact rfl
  | succ count ih =>
    unfold determinantLoop
    cases found : findPivot elimination.matrix column (dimension - column) column with
    | none =>
      have empty := findPivot_none found
      rw [det_block_of_empty fun i inside => empty i (by omega), mul_zero, mul_zero]
      exact rfl
    | some pivot =>
      obtain ⟨low, high, nonzero⟩ := findPivot_some found
      obtain ⟨diagonal, same, signed⟩ := elimination.bring_sign places low (by omega) nonzero
      dsimp only
      apply wp_then (wp_eliminateColumn exact places diagonal)
      rintro after t ⟨negative, split⟩
      have kept : after.sign = (elimination.bring dimension column pivot).sign := by
        rw [Elimination.sign, Elimination.sign, negative]
      apply wp_good (ih (column + 1) (by omega) after)
      intro value u result
      rw [result, split, kept, same]
      linear_combination elimination.determinant * signed

theorem wp_exactMatrixDeterminant (matrix : Entries) (dimension : Nat) : wp (exactMatrixDeterminant engine matrix dimension)
    (fun value _ => value = (block matrix 0 dimension).det) (fun _ _ => True) s := by
  unfold exactMatrixDeterminant
  apply wp_good (wp_determinantLoop exact dimension 0 (Nat.zero_add dimension).symm ⟨matrix, 1, false⟩)
  intro value t result
  rw [result, one_mul]
  exact one_mul _

end

theorem writeRow_apply {poly : Poly} {top row start : Nat} (remaining degree : Nat) (matrix : Entries) (r c : Nat) :
    writeRow poly top row start remaining degree matrix r c =
      if r = row ∧ start + degree ≤ c ∧ c < start + degree + remaining then coefficientOfDegree poly (top - (c - start))
      else matrix r c := by
  induction remaining generalizing degree matrix with
  | zero => rw [writeRow, if_neg (by omega)]
  | succ remaining ih =>
    rw [writeRow, ih]
    by_cases here : r = row ∧ c = start + degree
    · obtain ⟨rfl, rfl⟩ := here
      rw [if_neg (by omega), if_pos ⟨rfl, le_rfl, by omega⟩, setEntry_self, Nat.add_sub_cancel_left]
    · by_cases later : r = row ∧ start + (degree + 1) ≤ c ∧ c < start + (degree + 1) + remaining
      · rw [if_pos later, if_pos ⟨later.1, by omega, by omega⟩]
      · rw [if_neg later, if_neg (by omega), setEntry, if_neg here]

theorem writeRows_apply {poly : Poly} {top first : Nat} (remaining row : Nat) (matrix : Entries) (r c : Nat) :
    writeRows poly top first remaining row matrix r c =
      if first + row ≤ r ∧ r < first + row + remaining ∧ r - first ≤ c ∧ c ≤ r - first + top then
        coefficientOfDegree poly (top - (c - (r - first)))
      else matrix r c := by
  induction remaining generalizing row matrix with
  | zero => rw [writeRows, if_neg (by omega)]
  | succ remaining ih =>
    rw [writeRows, ih, writeRow_apply]
    by_cases here : r = first + row
    · subst here
      rw [if_neg (by omega), Nat.add_sub_cancel_left]
      by_cases inside : row ≤ c ∧ c ≤ row + top
      · rw [if_pos ⟨rfl, by omega, by omega⟩, if_pos ⟨le_rfl, by omega, inside⟩]
      · rw [if_neg (by omega), if_neg (by omega)]
    · by_cases later : first + (row + 1) ≤ r ∧ r < first + (row + 1) + remaining ∧ r - first ≤ c ∧ c ≤ r - first + top
      · rw [if_pos later, if_pos ⟨by omega, by omega, later.2.2⟩]
      · rw [if_neg later, if_neg (by omega), if_neg (by omega)]

theorem block_sylvesterEntries {f g : Polynomial ℚ} {left right : Poly} (read : Univariate f left) (read' : Univariate g right)
    (m n : Nat) : block (sylvesterEntries left right m n) 0 (m + n) = block (sylvesterMatrix f g m n) 0 (m + n) := by
  ext r c
  rw [block, block, zero_add, zero_add, sylvesterEntries, writeRows_apply, writeRows_apply, sylvesterMatrix, sylvesterRow,
    sylvesterRow, read.coefficient, read'.coefficient]
  rcases lt_or_ge r.val n with upper | lower
  · rw [if_neg (by omega), if_pos upper, Nat.sub_zero]
    by_cases inside : r.val ≤ c ∧ c ≤ r.val + m
    · rw [if_pos (by omega), if_pos inside]
    · rw [if_neg (by omega), if_neg inside]
  · rw [if_neg (by omega : ¬r.val < n)]
    by_cases inside : r.val - n ≤ c ∧ c ≤ r.val - n + n
    · rw [if_pos (by omega), if_pos inside]
    · rw [if_neg (by omega), if_neg (by omega), if_neg inside]

section
variable {State : Type} {engine : Engine State} (exact : engine.Exact) (scratch : Scratch State) {s : State}

include exact

theorem wp_coefficientWhen (condition : Bool) (left right : ℚ) : wp (coefficientWhen engine condition left right)
    (fun value _ => value = left * if condition then right else 1) (fun _ _ => True) s := by
  unfold coefficientWhen
  apply wp_ite
  · intro taken
    rw [if_pos taken]
    exact (exact.mul _ _).use fun _ => rfl
  · intro skipped
    rw [if_neg skipped, mul_one]
    exact rfl

theorem wp_coefficientPowerLoop (turns exponent : Nat) (enough : exponent ≤ turns) (result factor : ℚ) :
    wp (coefficientPowerLoop engine turns exponent result factor) (fun value _ => value = result * factor ^ exponent)
      (fun _ _ => True) s := by
  induction turns generalizing exponent result factor s with
  | zero =>
    have none : exponent = 0 := by omega
    rw [none, pow_zero, mul_one]
    exact rfl
  | succ turns ih =>
    unfold coefficientPowerLoop
    apply wp_ite
    · rintro rfl
      rw [pow_zero, mul_one]
      exact rfl
    intro some
    apply wp_then (wp_coefficientWhen exact _ _ _)
    rintro product t rfl
    apply wp_then (wp_coefficientWhen exact _ _ _)
    rintro square t rfl
    apply wp_good (ih (exponent / 2) (by omega) _ _)
    intro value u raised
    have odd : (if decide (exponent % 2 = 1) = true then factor else 1) = factor ^ (exponent % 2) := by
      rcases Nat.mod_two_eq_zero_or_one exponent with even | odd
      · rw [even, pow_zero, if_neg (by decide)]
      · rw [odd, pow_one, if_pos (by decide)]
    have squared : (factor * if decide (exponent / 2 ≠ 0) = true then factor else 1) ^ (exponent / 2) =
        (factor * factor) ^ (exponent / 2) := by
      by_cases done : exponent / 2 = 0
      · rw [done, pow_zero, pow_zero]
      · rw [if_pos (decide_eq_true done)]
    rw [raised, odd, squared, mul_assoc, ← pow_two, ← pow_mul, ← pow_add, Nat.mod_add_div]

theorem wp_coefficientPower (base : ℚ) (exponent : Nat) : wp (coefficientPower engine base exponent)
    (fun value _ => value = base ^ exponent) (fun _ _ => True) s := by
  unfold coefficientPower
  apply wp_good (wp_coefficientPowerLoop exact exponent exponent le_rfl 1 base)
  intro value t raised
  rw [raised, one_mul]

variable {f g : Polynomial ℚ} {left right : Poly}

theorem wp_resultantPolys (read : Univariate f left) (read' : Univariate g right) :
    wp (resultantPolys engine scratch left right)
      (fun value _ => (f = 0 ∨ g = 0 → value = 0) ∧ (f ≠ 0 → g ≠ 0 → value = f.resultant g)) (fun _ _ => True) s := by
  unfold resultantPolys
  rw [read.degree, read'.degree]
  apply wp_ite
  · intro empty
    refine ⟨fun _ => rfl, fun nonzero nonzero' => ?_⟩
    rcases empty with none | none
    · exact absurd (read.eq_zero_iff.mpr none) nonzero
    · exact absurd (read'.eq_zero_iff.mpr none) nonzero'
  intro filled
  have nonzero : f ≠ 0 := fun zero => filled (.inl (read.eq_zero_iff.mp zero))
  have nonzero' : g ≠ 0 := fun zero => filled (.inr (read'.eq_zero_iff.mp zero))
  have both : ¬(f = 0 ∨ g = 0) := not_or.mpr ⟨nonzero, nonzero'⟩
  apply wp_ite
  · intro constant
    apply wp_good (wp_coefficientPower exact _ _)
    intro value t power
    refine ⟨fun zero => absurd zero both, fun _ _ => ?_⟩
    rw [power, read.coefficient, Polynomial.eq_C_of_natDegree_eq_zero constant, Polynomial.natDegree_C,
      Polynomial.resultant_C_zero_left, Polynomial.coeff_C_zero]
  intro _
  apply wp_ite
  · intro constant
    apply wp_good (wp_coefficientPower exact _ _)
    intro value t power
    refine ⟨fun zero => absurd zero both, fun _ _ => ?_⟩
    rw [power, read'.coefficient, Polynomial.eq_C_of_natDegree_eq_zero constant, Polynomial.natDegree_C,
      Polynomial.resultant_C_zero_right, Polynomial.coeff_C_zero]
  intro _
  unfold sylvesterDeterminant
  apply wp_ite
  · exact fun _ => trivial
  intro _
  apply wp_then (wp_any s)
  intro _ t _
  rw [wp_ensuring]
  apply wp_good (wp_exactMatrixDeterminant exact _ _)
  intro value u determinant
  refine ⟨fun zero => absurd zero both, fun _ _ => ?_⟩
  rw [determinant, block_sylvesterEntries read read', det_sylvesterMatrix]

variable {m : Nat}

omit exact in
theorem toExponent_lowered {exponent : List Nat} (sized : exponent.length = m + 1) :
    toExponent (m + 1) (exponent.set 0 (exponent.getD 0 0 - 1)) = toExponent (m + 1) exponent - Finsupp.single 0 1 := by
  ext i
  rw [Finsupp.tsub_apply, toExponent_apply, toExponent_apply, Finsupp.single_apply]
  by_cases first : i = 0
  · rw [first, if_pos rfl, List.getD_eq_getElem?_getD]
    have place := List.getElem?_set_self (a := exponent.getD 0 0 - 1) (l := exponent) (i := 0) (by omega)
    exact congrArg (Option.getD · 0) place
  · have apart : 0 ≠ i.val := fun same => first (Fin.ext same.symm)
    rw [if_neg (Ne.symm first), List.getD_eq_getElem?_getD, List.getElem?_set_ne apart, Nat.sub_zero,
      ← List.getD_eq_getElem?_getD]

theorem wp_derivativeTerms {value : MvPolynomial (Fin (m + 1)) ℚ} {terms out : Poly}
    (sized : ∀ term ∈ terms, term.exponent.length = m + 1) (represents : Represents (m + 1) value out) :
    wp (polyDerivative.terms engine terms out)
      (fun result _ => Represents (m + 1) (value + MvPolynomial.pderiv 0 (toPolynomial (m + 1) terms)) result)
      (fun _ _ => True) s := by
  induction terms generalizing out value s with
  | nil =>
    rw [toPolynomial_nil, map_zero, add_zero]
    exact represents
  | cons first rest ih =>
    have length := sized first List.mem_cons_self
    have later := fun term inside => sized term (List.mem_cons_of_mem first inside)
    unfold polyDerivative.terms
    rw [toPolynomial_cons, map_add, toMonomial, MvPolynomial.pderiv_monomial, toExponent_apply, ← add_assoc]
    change wp (if first.power 0 = 0 then _ else _) (fun result _ => Represents (m + 1)
      (value + MvPolynomial.monomial _ (first.coefficient * (first.power 0 : ℚ)) + _) result) _ s
    apply wp_ite
    · intro constant
      rw [constant, Nat.cast_zero, mul_zero, MvPolynomial.monomial_zero, add_zero]
      exact ih later represents
    intro _
    rw [wp_bind]
    apply (exact.mul _ _).use
    intro t
    apply wp_then (wp_insertTerm exact (by rw [List.length_set, length]) represents.1)
    rintro out t ⟨-, inserted⟩
    rw [represents.2] at inserted
    have lowered := toExponent_lowered length
    change toExponent (m + 1) (first.exponent.set 0 (first.power 0 - 1)) = _ at lowered
    rw [lowered] at inserted
    exact ih later inserted

omit exact in
theorem toUnivariate_pderiv (p : MvPolynomial (Fin 1) ℚ) :
    toUnivariate (MvPolynomial.pderiv 0 p) = Polynomial.derivative (toUnivariate p) := by
  induction p using MvPolynomial.induction_on with
  | C c => rw [MvPolynomial.pderiv_C, map_zero, toUnivariate, MvPolynomial.aeval_C, Polynomial.algebraMap_eq, Polynomial.derivative_C]
  | add p q left right => rw [map_add, map_add, map_add, Polynomial.derivative_add, left, right]
  | mul_X p i known =>
    obtain rfl : i = 0 := Subsingleton.elim i 0
    have symbol : toUnivariate (MvPolynomial.X 0) = Polynomial.X := MvPolynomial.aeval_X _ _
    rw [Derivation.leibniz, smul_eq_mul, smul_eq_mul, MvPolynomial.pderiv_X_self, map_add, map_mul, map_mul, map_mul, known,
      symbol, map_one, Polynomial.derivative_mul, Polynomial.derivative_X]
    ring

theorem wp_polyDerivative {value : MvPolynomial (Fin (m + 1)) ℚ} (represents : Represents (m + 1) value left) :
    wp (polyDerivative engine left) (fun result _ => Represents (m + 1) (MvPolynomial.pderiv 0 value) result)
      (fun _ _ => True) s := by
  unfold polyDerivative
  apply wp_good (wp_derivativeTerms exact represents.1.sized represents_nil)
  intro result t derived
  rwa [zero_add, represents.2] at derived

theorem wp_polyDerivative_univariate (read : Univariate f left) : wp (polyDerivative engine left)
    (fun result _ => Univariate (Polynomial.derivative f) result) (fun _ _ => True) s := by
  apply wp_good (wp_polyDerivative exact ⟨read.sorted, rfl⟩)
  intro result t derived
  have known := Univariate.of_represents derived
  rwa [toUnivariate_pderiv, read.value] at known

end

structure IsResultant (f g : Polynomial ℚ) (value : ℚ) : Prop where
  sylvester : value = (Polynomial.sylvester f g f.natDegree g.natDegree).det
  roots : algebraMap ℚ (AlgebraicClosure ℚ) value = algebraMap ℚ (AlgebraicClosure ℚ) f.leadingCoeff ^ g.natDegree *
    ((f.aroots (AlgebraicClosure ℚ)).map fun root => Polynomial.aeval root g).prod
  shared : value = 0 ↔ ∃ factor : Polynomial ℚ, 0 < factor.natDegree ∧ factor ∣ f ∧ factor ∣ g

structure IsDiscriminant (f : Polynomial ℚ) (value : ℚ) : Prop where
  formula : value = (-1) ^ (f.natDegree * (f.natDegree - 1) / 2) * f.resultant (Polynomial.derivative f) / f.leadingCoeff
  repeated : value = 0 ↔ ∃ factor : Polynomial ℚ, 0 < factor.natDegree ∧ factor ^ 2 ∣ f

theorem isResultant {f g : Polynomial ℚ} (nonzero : f ≠ 0) : IsResultant f g (f.resultant g) where
  sylvester := rfl
  roots := resultant_eq_prod_roots f g
  shared := resultant_eq_zero_iff_shared nonzero

theorem isDiscriminant {f : Polynomial ℚ} (nonzero : f ≠ 0) :
    IsDiscriminant f ((-1) ^ (f.natDegree * (f.natDegree - 1) / 2) * f.resultant (Polynomial.derivative f) / f.leadingCoeff) where
  formula := rfl
  repeated := by
    rw [← shared_derivative_iff nonzero, ← resultant_eq_zero_iff_shared nonzero, div_eq_zero_iff, mul_eq_zero]
    have sign : (-1 : ℚ) ^ (f.natDegree * (f.natDegree - 1) / 2) ≠ 0 := pow_ne_zero _ (by decide)
    have leading : f.leadingCoeff ≠ 0 := Polynomial.leadingCoeff_ne_zero.mpr nonzero
    constructor
    · exact fun zero => (zero.resolve_right leading).resolve_left sign
    · exact fun zero => .inl (.inr zero)

section
variable {State : Type} {engine : Engine State} (exact : engine.Exact) (scratch : Scratch State) {s : State}

include exact

theorem wp_discriminantOf {f : Polynomial ℚ} {poly : Poly} (read : Univariate f poly) : wp (discriminantOf engine scratch poly)
    (fun value _ => f ≠ 0 ∧ (f.natDegree ≤ 1 → value = 1) ∧ (2 ≤ f.natDegree → IsDiscriminant f value)) (fun _ _ => True) s := by
  cases poly with
  | nil => exact trivial
  | cons first rest =>
    obtain ⟨-, leading, nonzero⟩ := read.leading
    unfold discriminantOf
    dsimp only
    rw [read.degree]
    apply wp_ite
    · exact fun low => ⟨nonzero, fun _ => rfl, fun high => absurd high (by omega)⟩
    intro high
    apply wp_then (wp_polyDerivative_univariate exact read)
    intro derivative t derived
    have lowered : Polynomial.derivative f ≠ 0 := by
      intro zero
      have constant := Polynomial.natDegree_eq_zero_of_derivative_eq_zero zero
      omega
    apply wp_then (wp_resultantPolys exact scratch read derived)
    rintro resultant t ⟨-, value⟩
    apply wp_then (exact.div _ _ _)
    rintro quotient t ⟨-, rfl⟩
    have promised := isDiscriminant nonzero
    rw [value nonzero lowered, ← leading]
    unfold signedQuotient
    apply wp_ite
    · intro odd
      have sign : (-1 : ℚ) ^ (f.natDegree * (f.natDegree - 1) / 2) = -1 := Odd.neg_one_pow (Nat.odd_iff.mpr (by omega))
      rw [sign, neg_one_mul, neg_div, ← zero_sub] at promised
      exact (exact.sub _ _).use fun _ => ⟨nonzero, fun low => absurd low high, fun _ => promised⟩
    · intro even
      have sign : (-1 : ℚ) ^ (f.natDegree * (f.natDegree - 1) / 2) = 1 := Even.neg_one_pow (Nat.even_iff.mpr (by omega))
      rw [sign, one_mul] at promised
      exact ⟨nonzero, fun low => absurd low high, fun _ => promised⟩

end

noncomputable def univariate (name : Name) (expression : Expr) : Option (Polynomial ℚ) :=
  (denote [name] expression).map toUnivariate

theorem wp_univariate {State : Type} {engine : Engine State} (exact : engine.Exact) (name : Name) (expression : Expr) (s : State) :
    wp (polyFromIrNode engine [name] expression) (fun poly _ => ∃ f, univariate name expression = some f ∧ Univariate f poly)
      (fun _ _ => True) s := by
  apply wp_good (wp_polyFromIrNode exact [name] expression s)
  rintro poly t ⟨p, known, represents⟩
  refine ⟨toUnivariate p, ?_, .of_represents represents⟩
  rw [univariate, known]
  rfl

theorem names_single {symbol : Expr} {names : List Name} (known : validateExplicitVariables.names [symbol] = some names) :
    ∃ name children, symbol = .node (.symbol name) children ∧ names = [name] := by
  unfold validateExplicitVariables.names at known
  split at known
  · rename_i same
    cases same
  · rename_i name children rest same
    obtain ⟨rfl, rfl⟩ := List.cons.inj same
    exact ⟨name, children, rfl, (Option.some.inj known).symm⟩
  · cases known

/-- What is answered for two polynomials is their resultant, and for one of at least the second degree its discriminant. -/
theorem resultants_exact {State : Type} {engine : Engine State} (exact : engine.Exact) (scratch : Scratch State)
    (left right symbol : Expr) (s : State) :
    wp (sparseResultant engine scratch left right symbol) (fun value _ => ∃ name children f g,
        symbol = .node (.symbol name) children ∧ univariate name left = some f ∧ univariate name right = some g ∧
        (f = 0 ∨ g = 0 → value = 0) ∧ (f ≠ 0 → g ≠ 0 → IsResultant f g value)) (fun _ _ => True) s ∧
      wp (sparseDiscriminant engine scratch left symbol) (fun value _ => ∃ name children f,
        symbol = .node (.symbol name) children ∧ univariate name left = some f ∧
        f ≠ 0 ∧ (f.natDegree ≤ 1 → value = 1) ∧ (2 ≤ f.natDegree → IsDiscriminant f value)) (fun _ _ => True) s := by
  constructor
  · unfold sparseResultant
    apply wp_then (wp_validateExplicitVariables [symbol] s)
    rintro names t ⟨known, -⟩
    obtain ⟨name, children, rfl, rfl⟩ := names_single known
    apply wp_then (wp_univariate exact name left t)
    rintro first t ⟨f, denoted, read⟩
    apply wp_then (wp_univariate exact name right t)
    rintro second t ⟨g, denoted', read'⟩
    apply wp_good (wp_resultantPolys exact scratch read read')
    rintro value t ⟨zero, resultant⟩
    refine ⟨name, children, f, g, rfl, denoted, denoted', zero, fun nonzero nonzero' => ?_⟩
    rw [resultant nonzero nonzero']
    exact isResultant nonzero
  · unfold sparseDiscriminant
    apply wp_then (wp_validateExplicitVariables [symbol] s)
    rintro names t ⟨known, -⟩
    obtain ⟨name, children, rfl, rfl⟩ := names_single known
    apply wp_then (wp_univariate exact name left t)
    rintro poly t ⟨f, denoted, read⟩
    apply wp_good (wp_discriminantOf exact scratch read)
    rintro value t ⟨nonzero, low, high⟩
    exact ⟨name, children, f, rfl, denoted, nonzero, low, high⟩

/-- Scratch memory that is never refused. -/
def roomy : Scratch Unit := ⟨fun _ => pure (), fun _ s => s⟩

/-- `x^2 - 2` and `x - 3` -/
theorem resultants_exact_of_square_root :
    (∃ value, sparseResultant plain roomy (.node .add [.node .pow [symbolNode [120], .node (.exact 2) []], .node (.exact (-2)) []])
        (.node .add [symbolNode [120], .node (.exact (-3)) []]) (symbolNode [120]) () = .ok value () ∧ value = 7 ∧
      ∃ f g, univariate [120] (.node .add [.node .pow [symbolNode [120], .node (.exact 2) []], .node (.exact (-2)) []]) = some f ∧
        univariate [120] (.node .add [symbolNode [120], .node (.exact (-3)) []]) = some g ∧ (f = 0 ∨ g = 0 → value = 0) ∧
        (f ≠ 0 → g ≠ 0 → IsResultant f g value)) := by
  obtain ⟨resultant, -⟩ := resultants_exact plain_exact roomy
    (.node .add [.node .pow [symbolNode [120], .node (.exact 2) []], .node (.exact (-2)) []])
    (.node .add [symbolNode [120], .node (.exact (-3)) []]) (symbolNode [120]) ()
  have seven : valueOf (sparseResultant plain roomy
      (.node .add [.node .pow [symbolNode [120], .node (.exact 2) []], .node (.exact (-2)) []])
      (.node .add [symbolNode [120], .node (.exact (-3)) []]) (symbolNode [120])) () = some 7 := by decide +kernel
  obtain ⟨value, t, run, name, children, f, g, same, promised⟩ := wp_value resultant (by rw [seven]; rfl)
  obtain rfl : name = [120] := by
    cases same
    rfl
  refine ⟨value, run, ?_, f, g, promised⟩
  rw [valueOf, run] at seven
  exact Option.some.inj seven

end PhyNspire.Cas.SparsePoly

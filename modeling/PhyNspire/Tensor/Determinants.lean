import Mathlib.LinearAlgebra.Matrix.NonsingularInverse
import PhyNspire.Cas.Engine
import PhyNspire.Tensor.Components

/-!
Determinants and the inverse metric. The determinant is expanded along the first row, and the
inverse is the transposed matrix of cofactors divided by it. A dense array of handles that
is read at `row * dimension + column` is a function of the row and the column here.

The engine works in the context of the tensor's chart.
-/

namespace PhyNspire.Tensor
open Platform Cas Lib.Stateful

variable {State Ref K : Type}

/-- What an operation on tensors works in. -/
structure Memory (State : Type) where
  session : State
  heap : Heap

def scalar {α : Type} (program : EStateM Status State α) : EStateM Status (Memory State) α := fun memory =>
  match program memory.session with
  | .ok value session => .ok value { memory with session := session }
  | .error status session => .error status { memory with session := session }

@[simp] theorem wp_scalar {α : Type} (program : EStateM Status State α) (good : α → Memory State → Prop)
    (bad : Status → Memory State → Prop) (memory : Memory State) :
    wp (scalar program) good bad memory ↔
      wp program (fun value session => good value { memory with session := session })
        (fun status session => bad status { memory with session := session }) memory.session := by
  unfold wp scalar
  cases program memory.session <;> rfl

def request : EStateM Status (Memory State) Unit := do
  let memory ← get
  set { memory with heap := memory.heap.alloc.2 }
  if memory.heap.alloc.1 then pure () else throw .outOfMemory

def tensorMaxDim : Nat := 4

/-- A tensor without declared symmetries, every component the zero handle. -/
def tensorBlank (chart : Chart Ref) (valence : List Variance) (zero : Ref) : Tensor Ref where
  chart := chart
  valence := valence
  zero := zero
  values := List.replicate (chart.coordinates.length ^ valence.length) zero
  signs := List.replicate (chart.coordinates.length ^ valence.length) 1
  sized := List.length_replicate
  paired := by rw [List.length_replicate, List.length_replicate]
  signed := fun _ member => Or.inr (Or.inl (List.eq_of_mem_replicate member))

def tensorCreate (engine : Engine State Ref) (chart : Chart Ref) (valence : List Variance) :
    EStateM Status (Memory State) (Tensor Ref) :=
  if tensorMaxRank < valence.length then throw .unsupported
  else do
    let zero ← scalar (engine.integer 0)
    request
    request
    pure (tensorBlank chart valence zero)

/-- `values[flat] = value` and `signs[flat] = 1`. -/
def Tensor.store (tensor : Tensor Ref) (flat : Nat) (value : Ref) : Tensor Ref where
  chart := tensor.chart
  valence := tensor.valence
  zero := tensor.zero
  values := tensor.values.set flat value
  signs := tensor.signs.set flat 1
  sized := (List.length_set ..).trans tensor.sized
  paired := by rw [List.length_set, List.length_set, tensor.paired]
  signed := fun sign member => (List.mem_or_eq_of_mem_set member).elim (tensor.signed sign) (fun one => Or.inr (Or.inl one))

/-- `phy_tensor_set` on a tensor without declared symmetries, at a component that is not assigned yet. -/
def tensorSet (tensor : Tensor Ref) (indices : List Nat) (value : Ref) : Except Status (Tensor Ref) :=
  if indices.length ≠ tensor.rank ∨ ∃ index ∈ indices, tensor.dimension ≤ index then .error .invalidArgument
  else .ok (tensor.store (tensorFlatOf tensor.dimension indices) value)

def tensorComponentExpression (cas : Cas State Ref) (tensor : Tensor Ref) (indices : List Nat) : EStateM Status State Ref :=
  match tensorGet tensor indices with
  | .error status => throw status
  | .ok entry =>
    if entry.sign = 0 then pure tensor.zero
    else if entry.sign > 0 then pure entry.ref
    else cas.neg entry.ref

/-- The position of a column once the removed one is gone. -/
def skip (removed index : Nat) : Nat := if index < removed then index else index + 1

/-- The sign of a cofactor. -/
def alternate (cas : Cas State Ref) (place : Nat) (term : Ref) : EStateM Status State Ref :=
  if place % 2 = 0 then pure term else cas.neg term

def determinantRecursive (cas : Cas State Ref) : Nat → (Nat → Nat → Ref) → EStateM Status State Ref
  | 0, _ => cas.number 0 1
  | 1, matrix => pure (matrix 0 0)
  | dimension + 2, matrix => do
    let sum ← cas.number 0 1
    countUp (fun column sum => do
      let minorDet ← determinantRecursive cas (dimension + 1) (fun row inner => matrix (row + 1) (skip column inner))
      let term ← cas.mul [matrix 0 column, minorDet]
      let term ← alternate cas column term
      cas.add [sum, term]) (dimension + 2) 0 sum

/-- `matrix[row * dimension + column] = value`. -/
def place (matrix : Nat → Nat → Ref) (row column : Nat) (value : Ref) : Nat → Nat → Ref := fun i j =>
  if i = row ∧ j = column then value else matrix i j

def readMatrix (cas : Cas State Ref) (tensor : Tensor Ref) : EStateM Status State (Nat → Nat → Ref) :=
  countUp (fun row matrix => countUp (fun column matrix => do
    let value ← tensorComponentExpression cas tensor [row, column]
    pure (place matrix row column value)) tensor.dimension 0 matrix) tensor.dimension 0 (fun _ _ => tensor.zero)

def tensorDeterminant (cas : Cas State Ref) (tensor : Tensor Ref) : EStateM Status State Ref :=
  if tensor.rank ≠ 2 then throw .type
  else do
    let entries ← readMatrix cas tensor
    determinantRecursive cas tensor.dimension entries

/-- Every component above the diagonal must be known to equal the one below. -/
def checkSymmetric (engine : Engine State Ref) (dimension : Nat) (matrix : Nat → Nat → Ref) : EStateM Status State Unit :=
  countUp (fun row _ => countUp (fun column _ => do
    let equal ← engine.equivalent (matrix row column) (matrix column row)
    if equal = .zero then pure () else throw .assumption) (dimension - (row + 1)) (row + 1) ()) dimension 0 ()

/-- The cofactor that stands at `[row, column]` of the adjugate. -/
def cofactorAt (cas : Cas State Ref) (dimension : Nat) (matrix : Nat → Nat → Ref) (row column : Nat) :
    EStateM Status State Ref :=
  if dimension = 1 then cas.number 1 1
  else do
    let cofactor ← determinantRecursive cas (dimension - 1) (fun i j => matrix (skip column i) (skip row j))
    alternate cas (row + column) cofactor

def inverseEntry (engine : Engine State Ref) (dimension : Nat) (matrix : Nat → Nat → Ref) (det : Ref) (row column : Nat) :
    EStateM Status State Ref := do
  let cofactor ← cofactorAt engine.toCas dimension matrix row column
  engine.div cofactor det

/-- One component of the inverse, computed and stored. -/
def fillInverse (engine : Engine State Ref) (dimension : Nat) (matrix : Nat → Nat → Ref) (det : Ref) (row column : Nat)
    (inverse : Tensor Ref) : EStateM Status State (Tensor Ref) := do
  let value ← inverseEntry engine dimension matrix det row column
  match tensorSet inverse [row, column] value with
  | .ok inverse => pure inverse
  | .error status => throw status

def tensorInverseMetric (engine : Engine State Ref) (metric : Tensor Ref) : EStateM Status (Memory State) (Tensor Ref) :=
  if metric.valence ≠ [.lower, .lower] then throw .type
  else do
    let matrix ← scalar (readMatrix engine.toCas metric)
    scalar (checkSymmetric engine metric.dimension matrix)
    let det ← scalar (determinantRecursive engine.toCas metric.dimension matrix)
    let zero ← scalar (engine.isZero det)
    if zero = .zero then throw .domain
    else do
      let inverse ← tensorCreate engine metric.chart [.upper, .upper]
      scalar (countUp (fun row inverse => countUp (fun column inverse =>
        fillInverse engine metric.dimension matrix det row column inverse) metric.dimension 0 inverse)
        metric.dimension 0 inverse)

end PhyNspire.Tensor

import PhyNspire.Geom.Exterior
import PhyNspire.Tensor.Determinants

/-!
The two Hodge duals. The orthonormal dual raises an index by the sign of its axis; the dual of a
general metric contracts with the inverse metric, summed over all index tuples, and scales by
the root of the absolute determinant, whose sign the manifold declares.
-/

namespace PhyNspire.Geom
open Platform Cas Tensor Lib.Stateful

variable {State Ref : Type} [DecidableEq Ref]

/-- `orientation_sign` and `metric_orientation_sign`. -/
def orientationSign (manifold : Manifold Ref) : Int :=
  match manifold.orientation with
  | .positive => 1
  | .negative => -1
  | .none => 0

def manifoldSignature (manifold : Manifold Ref) (axis : Nat) : Int := manifold.signature.getD axis 0

def negativeCount (manifold : Manifold Ref) : Nat := (manifold.signature.filter (· < 0)).length

/-- `phy_manifold_metric_sign`: the sign of the determinant that the manifold declares. -/
def manifoldMetricSign (manifold : Manifold Ref) : Int := if negativeCount manifold % 2 = 0 then 1 else -1

def hodgeComponent (cas : Cas State Ref) (form : Form Ref) (target : Nat) : Geometry State Ref Ref :=
  let dual := combinationAt form.dimension (form.dimension - form.degree) target
  let source := complementOf form.dimension dual
  match combinationIndex form.dimension form.degree source with
  | none => throw .corruptDocument
  | some position =>
    let component := form.componentAt position
    if component = form.zero then pure form.zero
    else geomApplySign cas component
      ((sortParity (source ++ dual)).2 * (source.map (manifoldSignature form.manifold)).prod * orientationSign form.manifold)

def formHodge (cas : Cas State Ref) (form : Nat) : Geometry State Ref Nat := do
  let form ← formAt form
  geomCheckCas cas form.manifold
  if orientationSign form.manifold = 0 then throw .assumption
  else formFilled form (form.dimension - form.degree) (hodgeComponent cas form)

/-- `phy_form_set_at`: a component is simplified before it is stored. -/
def formSetAt (cas : Cas State Ref) (address position : Nat) (value : Ref) : Geometry State Ref Unit := do
  let form ← formAt address
  if form.count ≤ position then throw .invalidArgument
  else do
    geomCheckCas cas form.manifold
    let simplified ← scalar (cas.simplify value)
    modify (formPut address position simplified)

def formVolume (cas : Cas State Ref) (manifold : Manifold Ref) (chartIndex : Nat) : Geometry State Ref Nat := do
  geomCheckCas cas manifold
  if orientationSign manifold = 0 then throw .assumption
  else do
    let result ← formCreate manifold chartIndex manifold.dimension
    abandoning (formDestroy result) (do
      let value ← scalar (cas.number (orientationSign manifold) 1)
      formSetAt cas result 0 value)
    pure result

/-- The sign of a number that is kept in machine words. -/
def exactNumericSign (engine : Engine State Ref) (value : Ref) : Option Int :=
  match engine.integerValue value with
  | some integer => some integer.sign
  | none =>
    match engine.rationalValue value with
    | some quotient => some (quotient.1.sign * quotient.2.sign)
    | none => none

def tupleCount (dimension rank : Nat) : Nat := dimension ^ rank

/-- The index tuple at a flat position, the last index running fastest. -/
def tupleAt (dimension : Nat) : Nat → Nat → List Nat
  | 0, _ => []
  | rank + 1, flat => tupleAt dimension rank (flat / dimension) ++ [flat % dimension]

/-- `phy_form_get`: the component at any index tuple. -/
def formGet (cas : Cas State Ref) (form : Form Ref) (indices : List Nat) : Geometry State Ref Ref := do
  geomCheckCas cas form.manifold
  if ∃ index ∈ indices, form.dimension ≤ index then throw .invalidArgument
  else if (sortParity indices).2 = 0 then pure form.zero
  else
    match combinationIndex form.dimension form.degree (sortParity indices).1 with
    | none => throw .invalidArgument
    | some position => geomApplySign cas (form.componentAt position) (sortParity indices).2

def raisedFactors (cas : Cas State Ref) (inverse : Tensor Ref) (upper lower : List Nat) (degree : Nat) (component : Ref) :
    EStateM Status State Ref :=
  countUp (fun slot term => do
    let metricComponent ← tensorComponentExpression cas inverse [upper.getD slot 0, lower.getD slot 0]
    cas.mul [term, metricComponent]) degree 0 component

def raisedTerm (cas : Cas State Ref) (form : Form Ref) (inverse : Tensor Ref) (upper : List Nat) (flat : Nat) (sum : Ref) :
    Geometry State Ref Ref := do
  let lower := tupleAt form.dimension form.degree flat
  let component ← formGet cas form lower
  if component = form.zero then pure sum
  else do
    let term ← scalar (raisedFactors cas inverse upper lower form.degree component)
    scalar (cas.add [sum, term])

def raisedComponent (cas : Cas State Ref) (form : Form Ref) (inverse : Tensor Ref) (upper : List Nat) :
    Geometry State Ref Ref :=
  countUp (raisedTerm cas form inverse upper) (tupleCount form.dimension form.degree) 0 form.zero

def hodgeMetricComponent (cas : Cas State Ref) (form : Form Ref) (inverse : Tensor Ref) (root : Ref) (position : Nat) :
    Geometry State Ref Ref := do
  let dual := combinationAt form.dimension (form.dimension - form.degree) position
  let source := complementOf form.dimension dual
  let raised ← raisedComponent cas form inverse source
  let value ← scalar (cas.mul [root, raised])
  let value ← geomApplySign cas value ((sortParity (source ++ dual)).2 * orientationSign form.manifold)
  scalar (cas.simplify value)

def tensorCall {α : Type} (program : EStateM Status (Memory State) α) : Geometry State Ref α := fun world =>
  match program ⟨world.session, world.heap⟩ with
  | .ok value memory => .ok value { world with session := memory.session, heap := memory.heap }
  | .error status memory => .error status { world with session := memory.session, heap := memory.heap }

def contradicts (engine : Engine State Ref) (manifold : Manifold Ref) (determinant : Ref) : Bool :=
  match exactNumericSign engine determinant with
  | some sign => sign ≠ manifoldMetricSign manifold
  | none => false

def absoluteDeterminant (cas : Cas State Ref) (manifold : Manifold Ref) (determinant : Ref) : EStateM Status State Ref :=
  if manifoldMetricSign manifold < 0 then cas.neg determinant else pure determinant

def volumeScale (engine : Engine State Ref) (manifold : Manifold Ref) (determinant : Ref) : EStateM Status State Ref := do
  let absolute ← absoluteDeterminant engine.toCas manifold determinant
  let half ← engine.number 1 2
  engine.pow absolute half

def formHodgeMetric (engine : Engine State Ref) (form : Nat) (metric : Tensor Ref) : Geometry State Ref Nat := do
  let form ← formAt form
  geomCheckCas engine.toCas form.manifold
  if orientationSign form.manifold = 0 then throw .assumption
  else if metric.chart ≠ form.chart ∨ metric.valence ≠ [.lower, .lower] then throw .type
  else do
    let inverse ← tensorCall (tensorInverseMetric engine metric)
    let determinant ← scalar (tensorDeterminant engine.toCas metric)
    if contradicts engine form.manifold determinant then throw .assumption
    else do
      let root ← scalar (volumeScale engine form.manifold determinant)
      formFilled form (form.dimension - form.degree) (hodgeMetricComponent engine.toCas form inverse root)

def formVolumeMetric (engine : Engine State Ref) (manifold : Manifold Ref) (chartIndex : Nat) (metric : Tensor Ref) :
    Geometry State Ref Nat := do
  let one ← formCreate manifold chartIndex 0
  ensuring (formDestroy one) (do
    let scalarOne ← scalar (engine.number 1 1)
    formSetAt engine.toCas one 0 scalarOne
    formHodgeMetric engine one metric)

end PhyNspire.Geom

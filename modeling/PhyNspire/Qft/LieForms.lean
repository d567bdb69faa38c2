import PhyNspire.Geom.Duality
import PhyNspire.Qft.LieAlgebra

/-!
Forms with values in a Lie algebra and the Yang-Mills operations on them. A Lie form owns one
form per basis element; every operation fills a fresh Lie form component by component,
destroying the component that it replaces, and destroys what it made when it fails.
-/

namespace PhyNspire.Qft
open Platform Cas Tensor Geom Lib.Stateful

/-- `phy_lie_form`: the addresses of its components. -/
structure LieForm (Ref : Type) where
  algebra : LieAlgebra Ref
  manifold : Manifold Ref
  chartIndex : Nat
  degree : Nat
  components : List Nat
deriving DecidableEq

variable {State Ref : Type}

namespace LieForm

abbrev dimension (form : LieForm Ref) : Nat := form.algebra.dimension

def componentAt (form : LieForm Ref) (basis : Nat) : Nat := form.components.getD basis 0

def put (form : LieForm Ref) (basis component : Nat) : LieForm Ref :=
  { form with components := form.components.set basis component }

end LieForm

def destroyComponents (components : List Nat) (world : World State Ref) : World State Ref :=
  components.foldl (fun world component => formDestroy component world) world

def lieFormDestroy (form : LieForm Ref) : World State Ref → World State Ref := destroyComponents form.components

def CasMatches (engine : Placed State Ref) (form : LieForm Ref) : Prop :=
  form.algebra.cas = engine.address ∧ form.manifold.ir = engine.ir

instance (engine : Placed State Ref) (form : LieForm Ref) : Decidable (CasMatches engine form) :=
  inferInstanceAs (Decidable (_ ∧ _))

/-- `compatible`; comparing the algebras and the manifolds compares the pointers. -/
def Compatible (left right : LieForm Ref) : Prop :=
  left.algebra = right.algebra ∧ left.manifold = right.manifold ∧ left.chartIndex = right.chartIndex

instance [DecidableEq Ref] (left right : LieForm Ref) : Decidable (Compatible left right) :=
  inferInstanceAs (Decidable (_ ∧ _ ∧ _))

/-- One more zero component; what was made is destroyed when there is no memory for it. -/
def createComponent (manifold : Manifold Ref) (chartIndex degree : Nat) (made : List Nat) : Geometry State Ref (List Nat) := do
  let component ← abandoning (destroyComponents made) (formCreate manifold chartIndex degree)
  pure (made ++ [component])

def lieFormCreate (algebra : LieAlgebra Ref) (manifold : Manifold Ref) (chartIndex degree : Nat) :
    Geometry State Ref (LieForm Ref) :=
  if manifold.ir ≠ algebra.ir then throw .type
  else if algebra.dimension = 0 ∨ lieMaxDim < algebra.dimension then throw .unsupported
  else if manifold.charts.length ≤ chartIndex ∨ manifold.dimension < degree then throw .invalidArgument
  else do
    let world ← get
    let request := world.heap.alloc
    set { world with heap := request.2 }
    if request.1 then do
      let components ← countUp (fun _ made => createComponent manifold chartIndex degree made) algebra.dimension 0 []
      pure ⟨algebra, manifold, chartIndex, degree, components⟩
    else throw .outOfMemory

/-- A component is computed and takes the place of the one that is there. -/
def replaceComponent (result : LieForm Ref) (basis : Nat) (call : Geometry State Ref Nat) :
    Geometry State Ref (LieForm Ref) := do
  let component ← abandoning (lieFormDestroy result) call
  modify (formDestroy (result.componentAt basis))
  pure (result.put basis component)

def lieFormFilled (like : LieForm Ref) (degree : Nat) (call : Nat → Geometry State Ref Nat) :
    Geometry State Ref (LieForm Ref) := do
  let result ← lieFormCreate like.algebra like.manifold like.chartIndex degree
  countUp (fun basis result => replaceComponent result basis (call basis)) like.dimension 0 result

section Operations

variable [DecidableEq Ref] (engine : Placed State Ref)

def lieFormAdd (left right : LieForm Ref) : Geometry State Ref (LieForm Ref) :=
  if (¬CasMatches engine left ∨ ¬CasMatches engine right) ∨ ¬Compatible left right ∨ left.degree ≠ right.degree then
    throw .type
  else lieFormFilled left left.degree (fun basis =>
    formAdd engine.toCas (left.componentAt basis) (right.componentAt basis))

def lieFormScale (form : LieForm Ref) (factor : Ref) : Geometry State Ref (LieForm Ref) :=
  if ¬CasMatches engine form then throw .type
  else lieFormFilled form form.degree (fun basis => formScale engine.toCas (form.componentAt basis) factor)

def lieFormExteriorDerivative (form : LieForm Ref) : Geometry State Ref (LieForm Ref) :=
  if ¬CasMatches engine form then throw .type
  else if form.manifold.dimension ≤ form.degree then throw .domain
  else lieFormFilled form (form.degree + 1) (fun basis => formExteriorDerivative engine.toCas (form.componentAt basis))

def addScaledWedge (sum left right : Nat) (factor : Ref) : Geometry State Ref Nat := do
  let wedge ← formWedge engine.toCas left right
  ensuring (formDestroy wedge) (do
    let term ← formScale engine.toCas wedge factor
    ensuring (formDestroy term) (formAdd engine.toCas sum term))

def weighStructure (algebra : LieAlgebra Ref) (a b out : Nat) : EStateM Status State (Ref × Decision) := do
  let structural ← structureArgument algebra a b out
  let zero ← engine.isZero structural
  pure (structural, zero)

def bracketTerm (left right : LieForm Ref) (out a b : Nat) (bracket : LieForm Ref) : Geometry State Ref (LieForm Ref) := do
  let weight ← abandoning (lieFormDestroy bracket) (Geom.scalar (weighStructure engine left.algebra a b out))
  if weight.2 = .zero then pure bracket
  else replaceComponent bracket out (addScaledWedge engine (bracket.componentAt out) (left.componentAt a)
    (right.componentAt b) weight.1)

def lieFormBracketWedge (left right : LieForm Ref) : Geometry State Ref (LieForm Ref) :=
  if (¬CasMatches engine left ∨ ¬CasMatches engine right) ∨ ¬Compatible left right then throw .type
  else if left.manifold.dimension < left.degree + right.degree then throw .domain
  else do
    let bracket ← lieFormCreate left.algebra left.manifold left.chartIndex (left.degree + right.degree)
    countUp (fun out bracket => countUp (fun a bracket => countUp (fun b bracket =>
      bracketTerm engine left right out a b bracket) left.dimension 0 bracket) left.dimension 0 bracket)
      left.dimension 0 bracket

def covariantDerivativeChecked (connection : LieForm Ref) (coupling : Ref) (form : LieForm Ref) :
    Geometry State Ref (LieForm Ref) := do
  let derivative ← lieFormExteriorDerivative engine form
  ensuring (lieFormDestroy derivative) (do
    let bracket ← lieFormBracketWedge engine connection form
    ensuring (lieFormDestroy bracket) (do
      let interaction ← lieFormScale engine bracket coupling
      ensuring (lieFormDestroy interaction) (lieFormAdd engine derivative interaction)))

def yangMillsCovariantDerivative (connection : LieForm Ref) (coupling : Ref) (form : LieForm Ref) :
    Geometry State Ref (LieForm Ref) :=
  if ¬Compatible connection form ∨ ¬CasMatches engine connection ∨ ¬CasMatches engine form ∨ connection.degree ≠ 1 then
    throw .type
  else covariantDerivativeChecked engine connection coupling form

/-- The factor of the nonlinear part, `g/2`. -/
def halfCoupling (coupling : Ref) : EStateM Status State Ref := do
  let half ← engine.number 1 2
  engine.mul [half, coupling]

def yangMillsFieldStrength (connection : LieForm Ref) (coupling : Ref) : Geometry State Ref (LieForm Ref) :=
  if ¬CasMatches engine connection ∨ connection.degree ≠ 1 then throw .type
  else do
    let halfCoupling ← Geom.scalar (halfCoupling engine coupling)
    let derivative ← lieFormExteriorDerivative engine connection
    ensuring (lieFormDestroy derivative) (do
      let bracket ← lieFormBracketWedge engine connection connection
      ensuring (lieFormDestroy bracket) (do
        let nonlinear ← lieFormScale engine bracket halfCoupling
        ensuring (lieFormDestroy nonlinear) (lieFormAdd engine derivative nonlinear)))

def yangMillsGaugeVariationConnection (connection : LieForm Ref) (coupling : Ref) (parameter : LieForm Ref) :
    Geometry State Ref (LieForm Ref) :=
  if parameter.degree ≠ 0 then throw .type
  else yangMillsCovariantDerivative engine connection coupling parameter

def yangMillsGaugeVariationCurvature (curvature : LieForm Ref) (coupling : Ref) (parameter : LieForm Ref) :
    Geometry State Ref (LieForm Ref) :=
  if ¬Compatible curvature parameter ∨ ¬CasMatches engine curvature ∨ ¬CasMatches engine parameter ∨
      curvature.degree ≠ 2 ∨ parameter.degree ≠ 0 then throw .type
  else do
    let bracket ← lieFormBracketWedge engine curvature parameter
    ensuring (lieFormDestroy bracket) (lieFormScale engine bracket coupling)

/-- `D F`, which the Bianchi identity says is zero. -/
def yangMillsBianchi (connection : LieForm Ref) (coupling : Ref) : Geometry State Ref (LieForm Ref) := do
  let curvature ← yangMillsFieldStrength engine connection coupling
  ensuring (lieFormDestroy curvature) (yangMillsCovariantDerivative engine connection coupling curvature)

/-- `bilinear[a * n + b]`, or the Killing form where no table is given. -/
def innerProduct (algebra : LieAlgebra Ref) (bilinear : Option (List Ref)) (a b : Nat) : EStateM Status State Ref :=
  match bilinear with
  | some table =>
    match table[a * algebra.dimension + b]? with
    | some inner => pure inner
    | none => throw .invalidArgument
  | none => lieKillingComponent engine.toCas algebra a b

def weighInner (algebra : LieAlgebra Ref) (bilinear : Option (List Ref)) (a b : Nat) :
    EStateM Status State (Ref × Decision) := do
  let inner ← innerProduct engine algebra bilinear a b
  let zero ← engine.isZero inner
  pure (inner, zero)

def addDensity (metric : Tensor Ref) (sum left right : Nat) (factor : Ref) : Geometry State Ref Nat := do
  let dual ← formHodgeMetric engine.toEngine right metric
  ensuring (formDestroy dual) (addScaledWedge engine sum left dual factor)

def lagrangianTerm (curvature : LieForm Ref) (metric : Tensor Ref) (bilinear : Option (List Ref)) (a b : Nat) (sum : Nat) :
    Geometry State Ref Nat := do
  let weight ← abandoning (formDestroy sum) (Geom.scalar (weighInner engine curvature.algebra bilinear a b))
  if weight.2 = .zero then pure sum
  else do
    let next ← abandoning (formDestroy sum)
      (addDensity engine metric sum (curvature.componentAt a) (curvature.componentAt b) weight.1)
    modify (formDestroy sum)
    pure next

def scaleHalf (sum : Nat) : Geometry State Ref Nat := do
  let minusHalf ← Geom.scalar (engine.number (-1) 2)
  formScale engine.toCas sum minusHalf

def yangMillsLagrangian (curvature : LieForm Ref) (metric : Tensor Ref) (bilinear : Option (List Ref)) :
    Geometry State Ref Nat :=
  if ¬CasMatches engine curvature ∨ curvature.degree ≠ 2 then throw .type
  else do
    let sum ← formCreate curvature.manifold curvature.chartIndex curvature.manifold.dimension
    let sum ← countUp (fun a sum => countUp (fun b sum => lagrangianTerm engine curvature metric bilinear a b sum)
      curvature.dimension 0 sum) curvature.dimension 0 sum
    ensuring (formDestroy sum) (scaleHalf engine sum)

end Operations

end PhyNspire.Qft

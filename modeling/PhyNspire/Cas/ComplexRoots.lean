import PhyNspire.Exact.Gaussian

/-!
The isolation of complex roots of complex_roots.c. Durand-Kerner iterates are candidate
centers only: boxes are published when the exact tests certify them.
-/

namespace PhyNspire.Cas.ComplexRoots
open Platform PhyNspire.Exact Lib.Stateful

def complexRootMaxDegree : Nat := 48

def complexRootMaxIterations : Nat := 64

def complexRootGuardBits : Nat := 8

def uint32Max : Nat := 4294967295

/-- `phy_real_ball` and `phy_complex_ball`: a box has two intervals. -/
structure RealInterval where
  midpoint : ℚ
  radius : ℚ
deriving DecidableEq, Repr

structure ComplexBall where
  real : RealInterval
  imaginary : RealInterval
deriving DecidableEq, Repr

variable {State : Type} (kernel : Kernel State)

def realBallSetInterval (lower upper : ℚ) : EStateM Status State RealInterval := do
  let order ← kernel.bigratCompare lower upper
  if 0 < order then throw .domain
  else do
    let two ← kernel.bigratSetI64 2 1
    let midpoint ← kernel.bigratAdd lower upper
    let midpoint ← kernel.bigratDivide midpoint two
    let radius ← kernel.bigratSubtract upper lower
    let radius ← kernel.bigratDivide radius two
    pure ⟨midpoint, radius⟩

def absRat (value : ℚ) : EStateM Status State ℚ :=
  if value < 0 then kernel.bigratNegate value else kernel.bigratCopy value

def gaussianSetParts (real imaginary : ℚ) : EStateM Status State Gaussian := do
  let real ← kernel.bigratCopy real
  let imaginary ← kernel.bigratCopy imaginary
  pure ⟨real, imaginary⟩

def gaussianSetReal (real : ℚ) : EStateM Status State Gaussian := do
  let real ← kernel.bigratCopy real
  let imaginary ← kernel.bigratSetI64 0 1
  pure ⟨real, imaginary⟩

/-- The sum of the parts. -/
def gaussianAbsUpper (value : Gaussian) : EStateM Status State ℚ := do
  let real ← absRat kernel value.real
  let imaginary ← absRat kernel value.imaginary
  kernel.bigratAdd real imaginary

/-- The greater of the parts. -/
def gaussianAbsLower (value : Gaussian) : EStateM Status State ℚ := do
  let real ← absRat kernel value.real
  let imaginary ← absRat kernel value.imaginary
  let order ← kernel.bigratCompare real imaginary
  kernel.bigratCopy (if 0 ≤ order then real else imaginary)

def dyadicEpsilon (bits : Nat) : EStateM Status State ℚ := do
  let two ← kernel.bigintSetI64 2
  let scale ← kernel.bigintPowU32 two bits
  let scaleRat ← kernel.bigratSetBigint scale
  let out ← kernel.bigratSetI64 1 1
  kernel.bigratDivide out scaleRat

def roundRatNearest (value : ℚ) (bits : Nat) : EStateM Status State ℚ := do
  let two ← kernel.bigintSetI64 2
  let scale ← kernel.bigintPowU32 two bits
  let scaled ← kernel.bigintMultiply value.num scale
  let (quotient, remainder) ← kernel.bigintDivmod scaled value.den
  let twiceRemainder ← kernel.bigintAdd remainder remainder
  let quotient ← away quotient twiceRemainder
  let quotientRat ← kernel.bigratSetBigint quotient
  let scaleRat ← kernel.bigratSetBigint scale
  kernel.bigratDivide quotientRat scaleRat
where
  /-- Half and more is rounded away from zero. -/
  away (quotient twiceRemainder : Int) : EStateM Status State Int :=
    if value.den ≤ twiceRemainder.natAbs then do
      let one ← kernel.bigintSetI64 1
      if value < 0 then kernel.bigintSubtract quotient one else kernel.bigintAdd quotient one
    else pure quotient

def roundGaussian (value : Gaussian) (bits : Nat) : EStateM Status State Gaussian := do
  let real ← roundRatNearest kernel value.real bits
  let imaginary ← roundRatNearest kernel value.imaginary bits
  gaussianSetParts kernel real imaginary

def coefficientAt (coefficients : List ℚ) (index : Nat) : ℚ := coefficients.getD index 0

/-- The number in a place of an array. -/
def gaussianAt (values : List Gaussian) (index : Nat) : Gaussian := values.getD index .zero

/-- Horner's rule from the leading coefficient. -/
def polynomialValue (coefficients : List ℚ) (point : Gaussian) : EStateM Status State Gaussian := do
  let count := coefficients.length
  let accumulator ← gaussianSetReal kernel (coefficientAt coefficients (count - 1))
  let accumulator ← countDown (fun index accumulator => do
    let temporary ← gaussianMultiply kernel accumulator point
    let coefficient ← gaussianSetReal kernel (coefficientAt coefficients index)
    gaussianAdd kernel temporary coefficient) (count - 1) accumulator
  gaussianCopy kernel accumulator

def cauchyRadius (coefficients : List ℚ) : EStateM Status State ℚ := do
  let count := coefficients.length
  let leading ← absRat kernel (coefficientAt coefficients (count - 1))
  if leading = 0 then throw .invalidArgument
  else do
    let maximum ← kernel.bigratSetI64 0 1
    let maximum ← countUp (fun index maximum => do
      let coefficient ← absRat kernel (coefficientAt coefficients index)
      let ratio ← kernel.bigratDivide coefficient leading
      let order ← kernel.bigratCompare ratio maximum
      if 0 < order then kernel.bigratCopy ratio else pure maximum) (count - 1) 0 maximum
    let one ← kernel.bigratSetI64 1 1
    kernel.bigratAdd maximum one

/-- The coordinates of a point of the starting polygon, before they are scaled. -/
def quadrantPoint (quadrant : Nat) (t complement : ℚ) : EStateM Status State (ℚ × ℚ) :=
  match quadrant with
  | 0 => place false complement false t
  | 1 => place true t false complement
  | 2 => place true complement true t
  | _ => place false t true complement
where
  place (negateX : Bool) (x : ℚ) (negateY : Bool) (y : ℚ) : EStateM Status State (ℚ × ℚ) := do
    let x ← if negateX then kernel.bigratNegate x else kernel.bigratCopy x
    let y ← if negateY then kernel.bigratNegate y else kernel.bigratCopy y
    pure (x, y)

def seedCenters (radius : ℚ) (degree : Nat) (centers : List Gaussian) : EStateM Status State (List Gaussian) := do
  let one ← kernel.bigratSetI64 1 1
  let shift ← kernel.bigratSetI64 1 (64 * degree * degree : Nat)
  let shift ← kernel.bigratMultiply shift radius
  countUp (fun index centers => do
    let perimeter := 4 * index
    let quadrant := perimeter / degree
    let remainder := perimeter - quadrant * degree
    let t ← kernel.bigratSetI64 remainder degree
    let complement ← kernel.bigratSubtract one t
    let (x, y) ← quadrantPoint kernel quadrant t complement
    let x ← kernel.bigratMultiply x radius
    let y ← kernel.bigratMultiply y radius
    let t ← kernel.bigratSetI64 (index + 1 : Nat) 1
    let offset ← kernel.bigratMultiply shift t
    let x ← kernel.bigratAdd x offset
    let t ← kernel.bigratSetI64 ((index + 1) * (index + 1) : Nat) 1
    let offset ← kernel.bigratMultiply shift t
    let y ← kernel.bigratAdd y offset
    let center ← gaussianSetParts kernel x y
    pure (centers.set index center)) degree 0 centers

def durandKernerStep (coefficients : List ℚ) (centers next : List Gaussian) (bits : Nat) :
    EStateM Status State (List Gaussian) :=
  let degree := coefficients.length - 1
  countUp (fun index next => do
    let value ← polynomialValue kernel coefficients (gaussianAt centers index)
    let denominator ← gaussianSetI64 kernel 1 1 0 1
    let denominator ← countUp (fun other denominator =>
      if other = index then pure denominator
      else do
        let difference ← gaussianSubtract kernel (gaussianAt centers index) (gaussianAt centers other)
        let product ← gaussianMultiply kernel denominator difference
        gaussianCopy kernel product) degree 0 denominator
    let correction ← gaussianDivide kernel value denominator
    let candidate ← gaussianSubtract kernel (gaussianAt centers index) correction
    let rounded ← roundGaussian kernel candidate bits
    pure (next.set index rounded)) degree 0 next

/-- The Taylor coefficients at a center. They are extended by one coefficient of the
polynomial after the other, in place. -/
def expandAtCenter (coefficients : List ℚ) (center : Gaussian) (expanded : List Gaussian) :
    EStateM Status State (List Gaussian) := do
  let count := coefficients.length
  let first ← gaussianSetReal kernel (coefficientAt coefficients (count - 1))
  let (expanded, _) ← countDown (fun source state => extend source state.1 state.2) (count - 1) (expanded.set 0 first, 0)
  pure expanded
where
  shift (below : Nat) (expanded : List Gaussian) : EStateM Status State (List Gaussian) := do
    let product ← gaussianMultiply kernel center (gaussianAt expanded (below + 1))
    let sum ← gaussianAdd kernel (gaussianAt expanded below) product
    let sum ← gaussianCopy kernel sum
    pure (expanded.set (below + 1) sum)
  extend (source : Nat) (expanded : List Gaussian) (currentDegree : Nat) :
      EStateM Status State (List Gaussian × Nat) := do
    let top ← gaussianCopy kernel (gaussianAt expanded currentDegree)
    let expanded ← countDown shift currentDegree (expanded.set (currentDegree + 1) top)
    let product ← gaussianMultiply kernel center (gaussianAt expanded 0)
    let coefficient ← gaussianSetReal kernel (coefficientAt coefficients source)
    let sum ← gaussianAdd kernel product coefficient
    let sum ← gaussianCopy kernel sum
    pure (expanded.set 0 sum, currentDegree + 1)

def pelletOne (coefficients : List ℚ) (center : Gaussian) (radius : ℚ) : EStateM Status State Bool := do
  let degree := coefficients.length - 1
  let expanded ← expandAtCenter kernel coefficients center (List.replicate (degree + 1) .zero)
  let lower ← gaussianAbsLower kernel (gaussianAt expanded 1)
  let left ← kernel.bigratMultiply lower radius
  let right ← kernel.bigratSetI64 0 1
  let twoRadius ← kernel.bigratAdd radius radius
  let power ← kernel.bigratSetI64 1 1
  let (right, _) ← countUp (fun slot sums => do
    let right ← contribute expanded slot sums.1 sums.2
    let power ← if slot ≠ degree then kernel.bigratMultiply sums.2 twoRadius else pure sums.2
    pure (right, power)) (degree + 1) 0 (right, power)
  let order ← kernel.bigratCompare left right
  pure (decide (0 < order))
where
  /-- Every slot but the linear one. -/
  contribute (expanded : List Gaussian) (slot : Nat) (right power : ℚ) : EStateM Status State ℚ :=
    if slot ≠ 1 then do
      let upper ← gaussianAbsUpper kernel (gaussianAt expanded slot)
      let contribution ← kernel.bigratMultiply upper power
      kernel.bigratAdd right contribution
    else pure right

def boxesDisjoint (centers : List Gaussian) (degree : Nat) (radius : ℚ) : EStateM Status State Bool := do
  let diameter ← kernel.bigratAdd radius radius
  countUp (fun left disjoint => countUp (fun right disjoint =>
    if disjoint then apart (gaussianAt centers left) (gaussianAt centers right) diameter else pure false)
      (degree - (left + 1)) (left + 1) disjoint) degree 0 true
where
  /-- Boxes that touch are not disjoint. -/
  apart (left right : Gaussian) (diameter : ℚ) : EStateM Status State Bool := do
    let dx ← kernel.bigratSubtract left.real right.real
    let dy ← kernel.bigratSubtract left.imaginary right.imaginary
    let absDx ← absRat kernel dx
    let absDy ← absRat kernel dy
    let xOrder ← kernel.bigratCompare absDx diameter
    let yOrder ← kernel.bigratCompare absDy diameter
    pure (!(decide (xOrder ≤ 0) && decide (yOrder ≤ 0)))

def publishBoxes (centers : List Gaussian) (degree : Nat) (radius : ℚ) : EStateM Status State (List ComplexBall) :=
  countUp (fun index roots => do
    let center := gaussianAt centers index
    let lower ← kernel.bigratSubtract center.real radius
    let upper ← kernel.bigratAdd center.real radius
    let real ← realBallSetInterval kernel lower upper
    let lower ← kernel.bigratSubtract center.imaginary radius
    let upper ← kernel.bigratAdd center.imaginary radius
    let imaginary ← realBallSetInterval kernel lower upper
    pure (roots ++ [⟨real, imaginary⟩])) degree 0 []

def certifyCenters (coefficients : List ℚ) (centers : List Gaussian) (degree : Nat) (radius : ℚ) :
    EStateM Status State Bool :=
  countUp (fun index certified =>
    if certified then pelletOne kernel coefficients (gaussianAt centers index) radius else pure false) degree 0 true

/-- `next` is copied over `centers`. -/
def copyCenters (next centers : List Gaussian) (degree : Nat) : EStateM Status State (List Gaussian) :=
  countUp (fun index centers => do
    let center ← gaussianCopy kernel (gaussianAt next index)
    pure (centers.set index center)) degree 0 centers

def certified (coefficients : List ℚ) (centers : List Gaussian) (degree : Nat) (radius : ℚ) :
    EStateM Status State Bool := do
  let disjoint ← boxesDisjoint kernel centers degree radius
  if disjoint then certifyCenters kernel coefficients centers degree radius else pure false

def iterationBits (iteration pointBits : Nat) : Nat :=
  let adaptiveBits := if (uint32Max - 24) / 8 < iteration then uint32Max else 24 + iteration * 8
  if adaptiveBits < pointBits then adaptiveBits else pointBits

/-- The iterations that are left. Centers are tested on every fourth one that carries all bits. -/
def iterate (coefficients : List ℚ) (degree : Nat) (radius : ℚ) (pointBits : Nat) :
    Nat → List Gaussian → List Gaussian → EStateM Status State (List Gaussian)
  | 0, _, _ => throw .termLimit
  | remaining + 1, centers, next => do
      let iteration := complexRootMaxIterations - (remaining + 1)
      let bits := iterationBits iteration pointBits
      let next ← durandKernerStep kernel coefficients centers next bits
      let centers ← copyCenters kernel next centers degree
      if bits ≠ pointBits ∨ iteration < 3 ∨ iteration % 4 ≠ 3 then
        iterate coefficients degree radius pointBits remaining centers next
      else do
        let passed ← certified kernel coefficients centers degree radius
        if passed then pure centers else iterate coefficients degree radius pointBits remaining centers next

def complexRootsIsolate (coefficients : List ℚ) (bits rootCapacity : Nat) : EStateM Status State (List ComplexBall) :=
  if coefficients.length < 3 ∨ complexRootMaxDegree + 1 < coefficients.length ∨ bits < 8 then throw .invalidArgument
  else
    let degree := coefficients.length - 1
    if rootCapacity < degree then throw .memoryLimit
    else do
      let enclosure ← cauchyRadius kernel coefficients
      let centers ← seedCenters kernel enclosure degree (List.replicate degree .zero)
      let pointBits := if uint32Max - complexRootGuardBits < bits then uint32Max else bits + complexRootGuardBits
      let radius ← dyadicEpsilon kernel bits
      let centers ← iterate kernel coefficients degree radius pointBits complexRootMaxIterations centers
        (List.replicate degree .zero)
      publishBoxes kernel centers degree radius

end PhyNspire.Cas.ComplexRoots

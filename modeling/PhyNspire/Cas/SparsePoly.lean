import PhyNspire.Ir.Expressions

/-!
The sparse polynomials of sparse_poly.c and their Groebner machinery. A polynomial is its list
of terms in strictly decreasing lexicographic order; the exact coefficients and the budget
of steps are the engine's. Working polynomials are values: a failed allocation counts as
an early stop of the operation that fills it.
-/

namespace PhyNspire.Cas.SparsePoly
open Platform Lib.Stateful Ir.Expressions

def sparseMaxVariables : Nat := 8

def sparseMaxTerms : Nat := 192

def sparseMaxDegree : Nat := 48

def sparseMaxBasis : Nat := 16

def sparseMaxPairs : Nat := sparseMaxBasis * (sparseMaxBasis - 1) / 2

/-- What the engine offers to polynomials: `phy_cas_exact_add_refs` and its siblings, the step
budget, and the node constructors. -/
structure Engine (State : Type) where
  exactAdd : ℚ → ℚ → EStateM Status State ℚ
  exactSub : ℚ → ℚ → EStateM Status State ℚ
  exactMul : ℚ → ℚ → EStateM Status State ℚ
  exactDiv : ℚ → ℚ → EStateM Status State ℚ
  step : EStateM Status State Unit
  /-- `limits.max_steps`: no loop that takes steps turns more often. -/
  maxSteps : Nat
  powNode : Expr → Expr → EStateM Status State Expr
  mulNode : List Expr → EStateM Status State Expr
  addNode : List Expr → EStateM Status State Expr
  functionNode : Name → List Expr → EStateM Status State Expr

/-- `sparse_term`: an exponent for every variable. -/
structure Term where
  coefficient : ℚ
  exponent : List Nat
deriving DecidableEq, Repr

abbrev Poly := List Term

/-- The first exponents that differ decide. -/
def monomialCompare : List Nat → List Nat → Ordering
  | left :: lefts, right :: rights => if left ≠ right then compare left right else monomialCompare lefts rights
  | _, _ => .eq

def monomialDivides : List Nat → List Nat → Bool
  | divisor :: divisors, dividend :: dividends => decide (divisor ≤ dividend) && monomialDivides divisors dividends
  | _, _ => true

variable {State : Type} (engine : Engine State)

/-- The exponents of a product, in `uint8_t` within the degree limit. -/
def addExponents (left right : List Nat) : EStateM Status State (List Nat) :=
  let sums := List.zipWith (· + ·) left right
  if sums.any (fun sum => decide (sparseMaxDegree < sum)) then throw .termLimit else pure sums

/-- The place of a term is found from the leading term on; `count` is that of the whole polynomial. -/
def placeTerm (count : Nat) (coefficient : ℚ) (exponent : List Nat) : Poly → EStateM Status State Poly
  | [] => if sparseMaxTerms ≤ count then throw .termLimit else pure [⟨coefficient, exponent⟩]
  | first :: rest =>
      match monomialCompare exponent first.exponent with
      | .eq => do
          let sum ← engine.exactAdd first.coefficient coefficient
          if sum = 0 then pure rest else pure (⟨sum, first.exponent⟩ :: rest)
      | .gt => if sparseMaxTerms ≤ count then throw .termLimit else pure (⟨coefficient, exponent⟩ :: first :: rest)
      | .lt => do
          let rest ← placeTerm count coefficient exponent rest
          pure (first :: rest)

def insertTerm (poly : Poly) (coefficient : ℚ) (exponent : List Nat) : EStateM Status State Poly :=
  if coefficient = 0 then pure poly else placeTerm engine poly.length coefficient exponent poly

def insertTerms : Poly → Poly → EStateM Status State Poly
  | [], out => pure out
  | term :: rest, out => do
      let out ← insertTerm engine out term.coefficient term.exponent
      insertTerms rest out

def polyAdd (left right : Poly) : EStateM Status State Poly := do
  let out ← insertTerms engine left []
  insertTerms engine right out

def subtractTerms : Poly → Poly → EStateM Status State Poly
  | [], out => pure out
  | term :: rest, out => do
      let negative ← engine.exactSub 0 term.coefficient
      let out ← insertTerm engine out negative term.exponent
      subtractTerms rest out

def polySubtract (left right : Poly) : EStateM Status State Poly := do
  let out ← insertTerms engine left []
  subtractTerms engine right out

def multiplyTerms (first : Term) : Poly → Poly → EStateM Status State Poly
  | [], out => pure out
  | second :: rest, out => do
      engine.step
      let exponent ← addExponents first.exponent second.exponent
      let coefficient ← engine.exactMul first.coefficient second.coefficient
      let out ← insertTerm engine out coefficient exponent
      multiplyTerms first rest out

def polyMultiply (left right : Poly) : EStateM Status State Poly := rows left []
where
  rows : Poly → Poly → EStateM Status State Poly
    | [], out => pure out
    | first :: rest, out => do
        let out ← multiplyTerms engine first right out
        rows rest out

def polyScaleMonomial (source : Poly) (coefficient : ℚ) (exponent : List Nat) : EStateM Status State Poly := scale source []
where
  scale : Poly → Poly → EStateM Status State Poly
    | [], out => pure out
    | term :: rest, out => do
        let powers ← addExponents term.exponent exponent
        let scaled ← engine.exactMul term.coefficient coefficient
        let out ← insertTerm engine out scaled powers
        scale rest out

def polyMakeMonic (poly : Poly) : EStateM Status State Poly :=
  match poly with
  | [] => pure []
  | first :: _ => normalize first.coefficient poly
where
  normalize (leading : ℚ) : Poly → EStateM Status State Poly
    | [] => pure []
    | term :: rest => do
        let normalized ← engine.exactDiv term.coefficient leading
        let rest ← normalize leading rest
        pure (⟨normalized, term.exponent⟩ :: rest)

def zeroExponent (variableCount : Nat) : List Nat := List.replicate variableCount 0

def multiplyWhen (condition : Bool) (left right : Poly) : EStateM Status State Poly :=
  if condition then polyMultiply engine left right else pure left

/-- Square and multiply; an exponent within the degree limit is used up in six turns. -/
def powerLoop : Nat → Nat → Poly → Poly → EStateM Status State Poly
  | 0, _, result, _ => pure result
  | turns + 1, exponent, result, factor =>
      if exponent = 0 then pure result
      else do
        let result ← multiplyWhen engine (decide (exponent % 2 = 1)) result factor
        let factor ← multiplyWhen engine (decide (exponent / 2 ≠ 0)) factor factor
        powerLoop turns (exponent / 2) result factor

def polyPower (variableCount : Nat) (base : Poly) (exponent : Nat) : EStateM Status State Poly := do
  let result ← insertTerm engine [] 1 (zeroExponent variableCount)
  powerLoop engine 6 exponent result base

def variablePosition (symbols : List Name) (symbol : Name) : Option Nat := symbols.findIdx? (· = symbol)

/-- `phy_ir_integer_value` of a number. -/
def integerValue : Expr → Option Int
  | .node (.exact q) _ => if q.den = 1 ∧ Exact.Decimals.FitsI64 q.num then some q.num else none
  | _ => none

mutual
def polyFromIrNode (symbols : List Name) : Expr → EStateM Status State Poly
  | .node (.exact q) _ => insertTerm engine [] q (zeroExponent symbols.length)
  | .node (.symbol name) _ =>
      match variablePosition symbols name with
      | none => throw .unsupported
      | some position => insertTerm engine [] 1 ((zeroExponent symbols.length).set position 1)
  | .node .pow [base, exponent] =>
      match integerValue exponent with
      | none => throw .unsupported
      | some exponent =>
          if exponent < 0 then throw .unsupported
          else if sparseMaxDegree < exponent then throw .termLimit
          else do
            let base ← polyFromIrNode symbols base
            polyPower engine symbols.length base exponent.toNat
  | .node .add children => sumFromIr symbols children []
  | .node .mul children => do
      let one ← insertTerm engine [] 1 (zeroExponent symbols.length)
      productFromIr symbols children one
  | _ => throw .unsupported

def sumFromIr (symbols : List Name) : List Expr → Poly → EStateM Status State Poly
  | [], accumulated => pure accumulated
  | child :: rest, accumulated => do
      let operand ← polyFromIrNode symbols child
      let accumulated ← polyAdd engine accumulated operand
      sumFromIr symbols rest accumulated

def productFromIr (symbols : List Name) : List Expr → Poly → EStateM Status State Poly
  | [], accumulated => pure accumulated
  | child :: rest, accumulated => do
      let operand ← polyFromIrNode symbols child
      let accumulated ← polyMultiply engine accumulated operand
      productFromIr symbols rest accumulated
end

def powerFactor (symbol : Name) (power : Nat) : EStateM Status State Expr :=
  if power ≠ 1 then engine.powNode (.node (.symbol symbol) []) (.node (.exact power) []) else pure (.node (.symbol symbol) [])

/-- The factors of a term: powers of its variables, and its coefficient unless it is a one in front of them. -/
def termFactors : List Name → List Nat → EStateM Status State (List Expr)
  | symbol :: symbols, power :: powers =>
      if power = 0 then termFactors symbols powers
      else do
        let factor ← powerFactor engine symbol power
        let factors ← termFactors symbols powers
        pure (factor :: factors)
  | _, _ => pure []

def termToIr (symbols : List Name) (term : Term) : EStateM Status State Expr := do
  let factors ← termFactors engine symbols term.exponent
  if factors = [] ∨ term.coefficient ≠ 1 then engine.mulNode (factors ++ [.node (.exact term.coefficient) []])
  else engine.mulNode factors

def polyToIr (symbols : List Name) (poly : Poly) : EStateM Status State Expr := do
  let terms ← expressions poly
  engine.addNode terms
where
  expressions : Poly → EStateM Status State (List Expr)
    | [] => pure []
    | term :: rest => do
        let expression ← termToIr engine symbols term
        let rest ← expressions rest
        pure (expression :: rest)

def reducer (divisors : List Poly) (exponent : List Nat) : Option Poly :=
  divisors.find? fun divisor => divisor.head?.any fun leading => monomialDivides leading.exponent exponent

def reduceLeading (work divisor : Poly) (leading divisorLeading : Term) : EStateM Status State Poly := do
  let exponent := List.zipWith (· - ·) leading.exponent divisorLeading.exponent
  let coefficient ← engine.exactDiv leading.coefficient divisorLeading.coefficient
  let scaled ← polyScaleMonomial engine divisor coefficient exponent
  polySubtract engine work scaled

/-- The loop of `poly_normal_form`; every turn takes a step. -/
def normalFormLoop (divisors : List Poly) : Nat → Poly → Poly → EStateM Status State Poly
  | 0, _, _ => throw .timeout
  | turns + 1, work, remainder =>
      match work with
      | [] => pure remainder
      | leading :: rest => do
          engine.step
          match reducer divisors leading.exponent with
          | some (divisorLeading :: divisorRest) => do
              let work ← reduceLeading engine work (divisorLeading :: divisorRest) leading divisorLeading
              normalFormLoop divisors turns work remainder
          | _ => do
              let remainder ← insertTerm engine remainder leading.coefficient leading.exponent
              normalFormLoop divisors turns rest remainder

def polyNormalForm (dividend : Poly) (divisors : List Poly) : EStateM Status State Poly :=
  normalFormLoop engine divisors (engine.maxSteps + 1) dividend []

def polySPolynomial (left right : Poly) : EStateM Status State Poly :=
  match left, right with
  | leftLeading :: _, rightLeading :: _ => do
      let maximum := List.zipWith max leftLeading.exponent rightLeading.exponent
      let leftShift := List.zipWith (· - ·) maximum leftLeading.exponent
      let rightShift := List.zipWith (· - ·) maximum rightLeading.exponent
      let leftInverse ← engine.exactDiv 1 leftLeading.coefficient
      let rightInverse ← engine.exactDiv 1 rightLeading.coefficient
      let leftMultiple ← polyScaleMonomial engine left leftInverse leftShift
      let rightMultiple ← polyScaleMonomial engine right rightInverse rightShift
      polySubtract engine leftMultiple rightMultiple
  | _, _ => pure []

structure Growth where
  basis : List Poly
  pairs : List (Nat × Nat)

/-- A remainder that is not zero joins the basis and is paired with every earlier element. -/
def extendBasis (growth : Growth) (pairCount : Nat) (remainder : Poly) : EStateM Status State Growth :=
  if remainder = [] then pure growth
  else if sparseMaxBasis ≤ growth.basis.length then throw .termLimit
  else do
    let monic ← polyMakeMonic engine remainder
    if sparseMaxPairs < pairCount + growth.basis.length then throw .termLimit
    else pure ⟨growth.basis ++ [monic],
      growth.pairs ++ (List.range growth.basis.length).map fun prior => (prior, growth.basis.length)⟩

/-- The generators in turn, each reduced by the basis so far. -/
def startBasis (symbols : List Name) : List Expr → Growth → EStateM Status State Growth
  | [], growth => pure growth
  | expression :: rest, growth => do
      let candidate ← polyFromIrNode engine symbols expression
      let remainder ← polyNormalForm engine candidate growth.basis
      let growth ← extendBasis engine growth growth.pairs.length remainder
      startBasis symbols rest growth

/-- The pairs in turn. `cursor` pairs have been taken; the turns that are left stand for the places of the others. -/
def completeBasis : Nat → Nat → Growth → EStateM Status State (List Poly)
  | 0, _, growth => if growth.pairs = [] then pure growth.basis else throw .termLimit
  | turns + 1, cursor, growth =>
      match growth.pairs with
      | [] => pure growth.basis
      | (left, right) :: pairs => do
          let sPolynomial ← polySPolynomial engine (growth.basis.getD left []) (growth.basis.getD right [])
          let remainder ← polyNormalForm engine sPolynomial growth.basis
          let growth ← extendBasis engine { growth with pairs := pairs } (cursor + 1 + pairs.length) remainder
          completeBasis turns (cursor + 1) growth

def certifyGenerators (symbols : List Name) (basis : List Poly) : List Expr → EStateM Status State Unit
  | [] => pure ()
  | expression :: rest => do
      let candidate ← polyFromIrNode engine symbols expression
      let remainder ← polyNormalForm engine candidate basis
      if remainder ≠ [] then throw .corruptDocument else certifyGenerators symbols basis rest

def certifyPair (basis : List Poly) (left right : Nat) : EStateM Status State Unit := do
  let sPolynomial ← polySPolynomial engine (basis.getD left []) (basis.getD right [])
  let remainder ← polyNormalForm engine sPolynomial basis
  if remainder ≠ [] then throw .corruptDocument else pure ()

/-- Every S-polynomial reduces to zero. -/
def certifyPairs (basis : List Poly) : EStateM Status State Unit :=
  countUp (fun left _ => countUp (fun right _ => certifyPair engine basis left right) (basis.length - (left + 1)) (left + 1) ())
    basis.length 0 ()

def groebnerCompute (expressions : List Expr) (symbols : List Name) : EStateM Status State (List Poly) := do
  let growth ← startBasis engine symbols expressions ⟨[], []⟩
  let basis ← completeBasis engine sparseMaxPairs 0 growth
  certifyGenerators engine symbols basis expressions
  certifyPairs engine basis
  pure basis

/-- Distinct symbols, at least one and not too many. -/
def validateExplicitVariables (symbols : List Expr) : EStateM Status State (List Name) :=
  if symbols = [] ∨ sparseMaxVariables < symbols.length then throw .invalidArgument
  else match names symbols with
    | none => throw .type
    | some names => if names.Nodup then pure names else throw .type
where
  names : List Expr → Option (List Name)
    | [] => some []
    | .node (.symbol name) _ :: rest => (names rest).map (name :: ·)
    | _ :: _ => none

def listHead : Name := [76, 105, 115, 116]

def sparseGroebnerBasis (expressions symbols : List Expr) : EStateM Status State Expr :=
  if expressions = [] ∨ sparseMaxBasis < expressions.length then throw .invalidArgument
  else do
    let names ← validateExplicitVariables symbols
    let basis ← groebnerCompute engine expressions names
    let published ← publish names basis
    engine.functionNode listHead published
where
  publish (names : List Name) : List Poly → EStateM Status State (List Expr)
    | [] => pure []
    | poly :: rest => do
        let expression ← polyToIr engine names poly
        let rest ← publish names rest
        pure (expression :: rest)

end PhyNspire.Cas.SparsePoly

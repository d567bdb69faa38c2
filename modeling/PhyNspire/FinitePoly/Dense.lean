import PhyNspire.FinitePoly.Residues
import Mathlib.Data.List.DropRight

/-!
The internal operations of finite_poly.c on coefficient arrays. An array of a polynomial is
the list of its first `length` words; the words above are zero and never read.

The loops of the source share two bodies: one that writes a word for each index, and one that
adds or subtracts a multiple of a row at an offset.
-/

namespace PhyNspire.FinitePoly.Dense
open Lib.Stateful Residues

variable (c : FpolyContext)

/-- What `polynomial_valid` checks of the array itself. -/
def wordsValid (words : List Nat) : Bool :=
  decide (words.length ≤ c.limits.maxDegree.toNat + 1) && decide (words.getLast? ≠ some 0) &&
    words.all fun word => decide (word < c.prime)

def fpolyCoefficient (words : List Nat) (degree : Nat) : Nat := if wordsValid c words then words.getD degree 0 else 0

def trim (words : List Nat) : List Nat := words.rdropWhile fun word => decide (word = 0)

def tabulate (word : Nat → Nat) : List Nat → FpolyM (List Nat)
  | [] => pure []
  | index :: indices => do
      step c 1
      let words ← tabulate word indices
      pure (word index :: words)

def accumulate (combine : Nat → Nat → Nat → Nat) (factor : Nat) : List Nat → Nat → List Nat → FpolyM (List Nat)
  | [], _, target => pure target
  | word :: row, index, target => do
      step c 1
      let product := multiplyMod factor word c.prime
      accumulate combine factor row (index + 1) (target.set index (combine (target.getD index 0) product c.prime))

def scaleWords (words : List Nat) (scalar : Nat) : FpolyM (List Nat) :=
  tabulate c (fun index => multiplyMod (words.getD index 0) scalar c.prime) (List.range words.length)

/-- The last word, `coefficients[length - 1]`. -/
def leading (words : List Nat) : Nat := words.getD (words.length - 1) 0

def makeMonic (words : List Nat) : FpolyM (List Nat) :=
  if words.length = 0 then pure words else scaleWords c words (inverseMod (leading words) c.prime)

def multiplyRows (right : List Nat) : List Nat → Nat → List Nat → FpolyM (List Nat)
  | [], _, target => pure target
  | word :: left, index, target => do
      let target ← accumulate c addMod word right index target
      multiplyRows right left (index + 1) target

def multiplyInternal (left right : List Nat) : FpolyM (List Nat) :=
  if left.length = 0 ∨ right.length = 0 then pure []
  else
    let length := left.length + right.length - 1
    if c.limits.maxDegree.toNat + 1 < length then throw .termLimit
    else do
      let result ← multiplyRows c right left 0 (List.replicate length 0)
      pure (trim result)

/-- The loop of a sum or difference. -/
def combineWords (combine : Nat → Nat → Nat → Nat) (left right : List Nat) : FpolyM (List Nat) :=
  tabulate c (fun index => combine (fpolyCoefficient c left index) (fpolyCoefficient c right index) c.prime)
    (List.range (max left.length right.length))

def subtractInternal (left right : List Nat) : FpolyM (List Nat) := do
  let result ← combineWords c subtractMod left right
  pure (trim result)

def scaleInternal (words : List Nat) (scalar : Nat) : FpolyM (List Nat) :=
  let scalar := scalar % c.prime
  if scalar = 0 ∨ words.length = 0 then pure []
  else do
    let result ← scaleWords c words scalar
    pure (trim result)

def derivativeWords (words : List Nat) : FpolyM (List Nat) := do
  let result ← tabulate c
    (fun degree => multiplyMod (words.getD (degree + 1) 0) ((degree + 1) % c.prime) c.prime)
    (List.range (words.length - 1))
  pure (trim result)

/-- The loop `while (remainder.length >= divisor.length && remainder.length != 0)`. Each turn
shortens the remainder. -/
def divideLoop (divisor : List Nat) (leadingInverse : Nat) : Nat → List Nat → List Nat → FpolyM (List Nat × List Nat)
  | 0, quotient, remainder => pure (quotient, remainder)
  | turns + 1, quotient, remainder =>
      if divisor.length ≤ remainder.length ∧ remainder.length ≠ 0 then do
        step c 1
        let shift := remainder.length - divisor.length
        let factor := multiplyMod (leading remainder) leadingInverse c.prime
        let remainder ← accumulate c subtractMod factor divisor shift remainder
        divideLoop divisor leadingInverse turns (quotient.set shift factor) (trim remainder)
      else pure (quotient, remainder)

def divremInternal (dividend divisor : List Nat) : FpolyM (List Nat × List Nat) :=
  if divisor.length = 0 then throw .domain
  else do
    let quotient := List.replicate (dividend.length + 1 - divisor.length) 0
    let leadingInverse := inverseMod (leading divisor) c.prime
    let (quotient, remainder) ← divideLoop c divisor leadingInverse (dividend.length + 1) quotient dividend
    pure (trim quotient, remainder)

def remainderInternal (dividend divisor : List Nat) : FpolyM (List Nat) := do
  let (_, remainder) ← divremInternal c dividend divisor
  pure remainder

def reduceAt (modulus : List Nat) (leadingInverse : Nat) (shift : Nat) (workspace : List Nat) : FpolyM (List Nat) :=
  let top := workspace.getD (shift + (modulus.length - 1)) 0
  if top = 0 then pure workspace
  else accumulate c subtractMod (multiplyMod top leadingInverse c.prime) modulus shift workspace

def multiplyRemainderInternal (left right modulus : List Nat) : FpolyM (List Nat) :=
  if modulus.length = 0 then throw .domain
  else if left.length = 0 ∨ right.length = 0 ∨ modulus.length = 1 then pure []
  else do
    let productLength := left.length + right.length - 1
    let workspace ← multiplyRows c right left 0 (List.replicate productLength 0)
    let modulusDegree := modulus.length - 1
    let leadingInverse := inverseMod (leading modulus) c.prime
    let workspace ← countDown (reduceAt c modulus leadingInverse) (productLength - modulusDegree) workspace
    pure (trim (workspace.take (min productLength modulusDegree)))

/-- The loop `while (b.length != 0)`. Each turn shortens `b`. -/
def gcdLoop : Nat → List Nat → List Nat → FpolyM (List Nat)
  | 0, a, _ => pure a
  | turns + 1, a, b =>
      if b.length = 0 then pure a
      else do
        let remainder ← remainderInternal c a b
        gcdLoop turns b remainder

def gcdInternal (left right : List Nat) : FpolyM (List Nat) := do
  let a ← gcdLoop c (right.length + 1) left right
  makeMonic c a

/-- The three pairs of the extended Euclidean algorithm. -/
structure Cofactors where
  oldRemainder : List Nat
  remainder : List Nat
  oldLeft : List Nat
  leftCofactor : List Nat
  oldRight : List Nat
  rightCofactor : List Nat

def xgcdLoop : Nat → Cofactors → FpolyM Cofactors
  | 0, s => pure s
  | turns + 1, s =>
      if s.remainder.length = 0 then pure s
      else do
        let (quotient, nextRemainder) ← divremInternal c s.oldRemainder s.remainder
        let product ← multiplyInternal c quotient s.leftCofactor
        let nextLeft ← subtractInternal c s.oldLeft product
        let product ← multiplyInternal c quotient s.rightCofactor
        let nextRight ← subtractInternal c s.oldRight product
        xgcdLoop turns
          { oldRemainder := s.remainder
            remainder := nextRemainder
            oldLeft := s.leftCofactor
            leftCofactor := nextLeft
            oldRight := s.rightCofactor
            rightCofactor := nextRight }

/-- The greatest common divisor and its two cofactors. -/
def xgcdInternal (left right : List Nat) : FpolyM (List Nat × List Nat × List Nat) :=
  if left.length = 0 ∧ right.length = 0 then pure ([], [], [])
  else do
    let s ← xgcdLoop c (right.length + 1)
      { oldRemainder := left
        remainder := right
        oldLeft := [1]
        leftCofactor := []
        oldRight := []
        rightCofactor := [1] }
    if s.oldRemainder.length ≠ 0 then do
      let inverse := inverseMod (leading s.oldRemainder) c.prime
      let oldRemainder ← scaleInternal c s.oldRemainder inverse
      let oldLeft ← scaleInternal c s.oldLeft inverse
      let oldRight ← scaleInternal c s.oldRight inverse
      pure (oldRemainder, oldLeft, oldRight)
    else pure (s.oldRemainder, s.oldLeft, s.oldRight)

def powmodLoop (modulus : List Nat) : Nat → List Nat → List Nat → Nat → FpolyM (List Nat)
  | 0, result, _, _ => pure result
  | turns + 1, result, factor, exponent =>
      if exponent = 0 then pure result
      else do
        let result ← (if exponent % 2 = 1 then multiplyRemainderInternal c result factor modulus else pure result)
        let exponent := exponent / 2
        let factor ← (if exponent = 0 then pure factor else multiplyRemainderInternal c factor factor modulus)
        powmodLoop modulus turns result factor exponent

def powmodInternal (base : List Nat) (exponent : Nat) (modulus : List Nat) : FpolyM (List Nat) := do
  let result ← remainderInternal c [1] modulus
  let factor ← remainderInternal c base modulus
  powmodLoop c modulus 64 result factor exponent

/-- The loop of a square-free test: the greatest common divisor with the derivative. -/
def commonWithDerivative (words : List Nat) : FpolyM (List Nat) := do
  let derivative ← derivativeWords c words
  gcdInternal c words derivative

end PhyNspire.FinitePoly.Dense

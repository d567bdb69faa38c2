import PhyNspire.FinitePoly.Dense

/-!
The public functions of finite_poly.c on polynomial objects.

Objects are addressed by numbers, so a caller may pass one object for several arguments. An
address where nothing has been initialized stands for every pointer that fails its check.
-/

namespace PhyNspire.FinitePoly.Calls
open Platform Residues Dense

structure Fpoly where
  context : Nat
  words : List Nat
deriving DecidableEq

structure FpolyFactorization where
  context : Nat
  factors : List Fpoly
deriving DecidableEq

structure Workspace where
  contexts : Nat → Option (FpolyContext × Budget)
  objects : Nat → Option Fpoly
  factorizations : Nat → Option FpolyFactorization

abbrev WorkspaceM := EStateM Status Workspace

namespace Workspace

def contextOf (w : Workspace) (p : Nat) : Option Nat := (w.objects p).map Fpoly.context

def wordsOf (w : Workspace) (p : Nat) : List Nat := ((w.objects p).map Fpoly.words).getD []

def validFpoly (w : Workspace) (f : Fpoly) : Bool :=
  match w.contexts f.context with
  | none => false
  | some (c, _) => wordsValid c f.words

def polynomialValid (w : Workspace) (p : Nat) : Bool :=
  match w.objects p with
  | none => false
  | some f => w.validFpoly f

def sameContext (w : Workspace) (p q : Nat) : Bool := decide (w.contextOf p = w.contextOf q)

def compatible (w : Workspace) (left right out : Nat) : Bool :=
  w.polynomialValid left && w.polynomialValid right && w.polynomialValid out && w.sameContext left right &&
    w.sameContext left out

def withBudget (w : Workspace) (id : Nat) (c : FpolyContext) (b : Budget) : Workspace :=
  { w with contexts := Function.update w.contexts id (some (c, b)) }

def withObject (w : Workspace) (p : Nat) (f : Fpoly) : Workspace :=
  { w with objects := Function.update w.objects p (some f) }

end Workspace

def onContext {α : Type} (p : Nat) (body : FpolyContext → FpolyM α) : WorkspaceM α := fun w =>
  match w.objects p with
  | none => .error .invalidArgument w
  | some f =>
      match w.contexts f.context with
      | none => .error .invalidArgument w
      | some (c, b) =>
          match body c b with
          | .ok value b => .ok value (w.withBudget f.context c b)
          | .error stop b => .error stop (w.withBudget f.context c b)

def publish (operand out : Nat) (words : List Nat) : WorkspaceM Unit := do
  let w ← get
  match w.contextOf operand with
  | none => throw .invalidArgument
  | some id => set (w.withObject out ⟨id, words⟩)

def fpolySet (p : Nat) (coefficients : List UInt32) : WorkspaceM Unit := do
  let w ← get
  if w.polynomialValid p = false then throw .invalidArgument
  else do
    let result ← onContext p fun c =>
      if c.limits.maxDegree.toNat + 1 < coefficients.length then throw .termLimit
      else do
        beginOperation c
        let result ← tabulate c (fun index => (coefficients.getD index 0).toNat % c.prime)
          (List.range coefficients.length)
        pure (trim result)
    publish p p result

def fpolyCopy (source destination : Nat) : WorkspaceM Unit := do
  let w ← get
  if !(w.polynomialValid source && w.polynomialValid destination && w.sameContext source destination) then
    throw .invalidArgument
  else publish source destination (w.wordsOf source)

/-- Addition and subtraction differ in the word operation only. -/
def fpolyCombine (combine : Nat → Nat → Nat → Nat) (left right out : Nat) : WorkspaceM Unit := do
  let w ← get
  if !w.compatible left right out then throw .invalidArgument
  else do
    let result ← onContext left fun c => do
      beginOperation c
      let result ← combineWords c combine (w.wordsOf left) (w.wordsOf right)
      pure (trim result)
    publish left out result

def fpolyAdd (left right out : Nat) : WorkspaceM Unit := fpolyCombine addMod left right out

def fpolySubtract (left right out : Nat) : WorkspaceM Unit := fpolyCombine subtractMod left right out

def fpolyMultiply (left right out : Nat) : WorkspaceM Unit := do
  let w ← get
  if !w.compatible left right out then throw .invalidArgument
  else do
    let result ← onContext left fun c => do
      beginOperation c
      multiplyInternal c (w.wordsOf left) (w.wordsOf right)
    publish left out result

def fpolyMulmod (left right modulus out : Nat) : WorkspaceM Unit := do
  let w ← get
  if !(w.compatible left right out && w.polynomialValid modulus && w.sameContext left modulus) then
    throw .invalidArgument
  else if (w.wordsOf modulus).length = 0 then throw .domain
  else do
    let result ← onContext left fun c => do
      beginOperation c
      multiplyRemainderInternal c (w.wordsOf left) (w.wordsOf right) (w.wordsOf modulus)
    publish left out result

def fpolyDerivative (p out : Nat) : WorkspaceM Unit := do
  let w ← get
  if !(w.polynomialValid p && w.polynomialValid out && w.sameContext p out) then throw .invalidArgument
  else do
    let result ← onContext p fun c => do
      beginOperation c
      derivativeWords c (w.wordsOf p)
    publish p out result

def fpolyDivrem (dividend divisor quotient remainder : Nat) : WorkspaceM Unit := do
  let w ← get
  if !(w.compatible dividend divisor quotient && w.polynomialValid remainder && w.sameContext dividend remainder &&
      decide (quotient ≠ remainder)) then throw .invalidArgument
  else do
    let result ← onContext dividend fun c => do
      beginOperation c
      divremInternal c (w.wordsOf dividend) (w.wordsOf divisor)
    publish dividend quotient result.1
    publish quotient remainder result.2

def fpolyGcd (left right out : Nat) : WorkspaceM Unit := do
  let w ← get
  if !w.compatible left right out then throw .invalidArgument
  else do
    let result ← onContext left fun c => do
      beginOperation c
      gcdInternal c (w.wordsOf left) (w.wordsOf right)
    publish left out result

def fpolyXgcd (left right out leftCofactor rightCofactor : Nat) : WorkspaceM Unit := do
  let w ← get
  if !(w.compatible left right out && w.polynomialValid leftCofactor && w.polynomialValid rightCofactor &&
      w.sameContext left leftCofactor && w.sameContext left rightCofactor && decide (out ≠ leftCofactor) &&
      decide (out ≠ rightCofactor) && decide (leftCofactor ≠ rightCofactor)) then throw .invalidArgument
  else do
    let result ← onContext left fun c => do
      beginOperation c
      xgcdInternal c (w.wordsOf left) (w.wordsOf right)
    publish left out result.1
    publish out leftCofactor result.2.1
    publish out rightCofactor result.2.2

def fpolyPowmod (base : Nat) (exponent : UInt64) (modulus out : Nat) : WorkspaceM Unit := do
  let w ← get
  if !w.compatible base modulus out then throw .invalidArgument
  else if (w.wordsOf modulus).length = 0 then throw .domain
  else do
    let result ← onContext base fun c => do
      beginOperation c
      powmodInternal c (w.wordsOf base) exponent.toNat (w.wordsOf modulus)
    publish base out result

def fpolyIsSquareFree (p : Nat) : WorkspaceM Bool := do
  let w ← get
  if w.polynomialValid p = false then throw .invalidArgument
  else
    onContext p fun c => do
      beginOperation c
      if (w.wordsOf p).length ≤ 2 then pure true
      else do
        let common ← commonWithDerivative c (w.wordsOf p)
        pure (decide (common.length ≤ 1))

/-- The operations on polynomial objects. -/
inductive FpolyCall where
  | set (p : Nat) (coefficients : List UInt32)
  | copy (source destination : Nat)
  | add (left right out : Nat)
  | subtract (left right out : Nat)
  | multiply (left right out : Nat)
  | mulmod (left right modulus out : Nat)
  | powmod (base : Nat) (exponent : UInt64) (modulus out : Nat)
  | derivative (p out : Nat)
  | divrem (dividend divisor quotient remainder : Nat)
  | gcd (left right out : Nat)
  | xgcd (left right out leftCofactor rightCofactor : Nat)
  | isSquareFree (p : Nat)

namespace FpolyCall

/-- The result is the answer of the square-free test. -/
def exec : FpolyCall → WorkspaceM (Option Bool)
  | set p coefficients => (fun _ => none) <$> fpolySet p coefficients
  | copy source destination => (fun _ => none) <$> fpolyCopy source destination
  | add left right out => (fun _ => none) <$> fpolyAdd left right out
  | subtract left right out => (fun _ => none) <$> fpolySubtract left right out
  | multiply left right out => (fun _ => none) <$> fpolyMultiply left right out
  | mulmod left right modulus out => (fun _ => none) <$> fpolyMulmod left right modulus out
  | powmod base exponent modulus out => (fun _ => none) <$> fpolyPowmod base exponent modulus out
  | derivative p out => (fun _ => none) <$> fpolyDerivative p out
  | divrem dividend divisor quotient remainder => (fun _ => none) <$> fpolyDivrem dividend divisor quotient remainder
  | gcd left right out => (fun _ => none) <$> fpolyGcd left right out
  | xgcd left right out first second => (fun _ => none) <$> fpolyXgcd left right out first second
  | isSquareFree p => some <$> fpolyIsSquareFree p

def outputs : FpolyCall → List Nat
  | set p _ => [p]
  | copy _ destination => [destination]
  | add _ _ out | subtract _ _ out | multiply _ _ out | mulmod _ _ _ out | powmod _ _ _ out | derivative _ out
  | gcd _ _ out => [out]
  | divrem _ _ quotient remainder => [quotient, remainder]
  | xgcd _ _ out first second => [out, first, second]
  | isSquareFree _ => []

end FpolyCall

end PhyNspire.FinitePoly.Calls

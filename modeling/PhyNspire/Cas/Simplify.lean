import PhyNspire.Cas.Collect

/-!
The scalar normal form of simplify.c: powers, the rebuilding of a node under the rules of its kind,
and the walk from the leaves up. The functions call one another; a run of them is given by how deep
the calls may go.
-/

namespace PhyNspire.Cas.Core
open Platform Lib Ir.Expressions Num
open SparsePoly (integerValue)

/-- A divisor taken out as often as it divides. -/
def stripDivisor (divisor : Nat) : Nat → Nat → Nat → Nat × Nat
  | 0, remaining, multiplicity => (remaining, multiplicity)
  | turns + 1, remaining, multiplicity =>
      if remaining % divisor = 0 then stripDivisor divisor turns (remaining / divisor) (multiplicity + 1)
      else (remaining, multiplicity)

/-- The loop of `square_decompose_bounded`: what is left, the square's root, and the square-free part. -/
def squareLoop : Nat → Nat → Nat → Nat → Nat → Nat × Nat × Nat
  | 0, _, remaining, square, squareFree => (remaining, square, squareFree)
  | turns + 1, divisor, remaining, square, squareFree =>
      if divisor ≤ remaining / divisor then
        let stripped := stripDivisor divisor 20 remaining 0
        squareLoop turns (divisor + 1) stripped.1 (square * divisor ^ (stripped.2 / 2))
          (if stripped.2 % 2 = 1 then squareFree * divisor else squareFree)
      else (remaining, square, squareFree)

def maxRadicandToFactor : Int := 1000000

/-- `square_decompose_bounded`: the root of the square part, and the square-free part. -/
def squareDecomposeBounded (value : Int) : Option (Nat × Nat) :=
  if value ≤ 0 ∨ maxRadicandToFactor < value then none
  else
    let (remaining, square, squareFree) := squareLoop 1000 2 value.toNat 1 1
    some (square, if 1 < remaining then squareFree * remaining else squareFree)

def splitRadicand (radicand : CasRat) : Option (ℚ × ℚ) :=
  match squareDecomposeBounded radicand.num.toInt, squareDecomposeBounded radicand.den.toInt with
  | some (numeratorSquare, numeratorFree), some (denominatorSquare, denominatorFree) =>
      some (numeratorSquare / denominatorSquare, numeratorFree / denominatorFree)
  | _, _ => none

variable (self : Calls)

def squareRoot (base exponent : Expr) (coefficient radicand : ℚ) : CasM Expr :=
  if radicand = 1 then irNode (.exact coefficient) []
  else if coefficient ≠ 1 then do
    let outer ← irNode (.exact coefficient) []
    let inner ← irNode (.exact radicand) []
    let root ← irNode .pow [inner, exponent]
    self.mulNode [outer, root]
  else irNode .pow [base, exponent]

def unitPower (exponent : ℚ) : CasM Expr := do
  request
  match (exponent.num % 4).toNat with
  | 0 => pure one
  | 1 => pure constantI
  | 2 => pure minusOne
  | _ => irNary .mul [minusOne, constantI]

def powAll (exponent : Expr) : List Expr → CasM (List Expr)
  | [] => pure []
  | factor :: rest => do
      let power ← self.powNode factor exponent
      let rest ← powAll exponent rest
      pure (power :: rest)

def standing (base exponent : Expr) : CasM Expr := irNode .pow [base, exponent]

/-- An integer power of a base that is not a small zero, in `phy_cas_pow_node`. -/
def integerPower (base exponent : Expr) (k : Int) : CasM Expr :=
  match base with
  | .node (.exact q) [] => do
      match ← powExact q k with
      | some power => irNode (.exact power) []
      | none => standing base exponent
  | .node .pow [inner, power] => do
      let product ← self.mulNode [power, exponent]
      self.powNode inner product
  | .node .mul factors => do
      request
      let powers ← powAll self exponent factors
      mulAt self powers
  | _ => standing base exponent

def generalPower (base exponent : Expr) : CasM Expr :=
  match exactValue base, exactValue exponent with
  | some number, some power =>
      if number.num = 0 then
        if power.num < 0 then refuse .domain else pure zero
      else if 0 < number.num ∧ power.num = 1 ∧ power.den = 2 then
        match splitRadicand number with
        | some (coefficient, radicand) => squareRoot self base exponent coefficient radicand
        | none => standing base exponent
      else anyPower
  | some number, none => if number.num = 0 then standing base exponent else anyPower
  | none, _ => anyPower
where
  anyPower : CasM Expr :=
    match integerValue exponent with
    | some k => integerPower self base exponent k
    | none => standing base exponent

def trivialPower (base exponent : Expr) : CasM Expr :=
  match integerValue exponent with
  | some 0 => if isInteger base 0 then refuse .domain else pure one
  | some 1 => pure base
  | _ => if isInteger base 1 then pure one else generalPower self base exponent

/-- The powers of closed complex trees come first. -/
def gaussianPower (base exponent : Expr) : CasM Expr :=
  match integerValue exponent with
  | some k => do
      match ← gaussianPowNode base k with
      | some result => pure result
      | none => trivialPower self base exponent
  | none => trivialPower self base exponent

def isError : Expr → Bool
  | .node (.error _) _ => true
  | _ => false

def powNode (base exponent : Expr) : CasM Expr :=
  if isError base then pure base
  else if isError exponent then pure exponent
  else
    match exactOf exponent with
    | some q => if base = constantI ∧ q.den = 1 then unitPower q else gaussianPower self base exponent
    | none => gaussianPower self base exponent

/-- What the rules of the function table do with a call: they ask the scalar layer, and answer or leave
the call as it is. -/
inductive Rule where
  | unmatched
  | answer (result : Expr)
  | refuse (status : Status)
  | request (next : Rule)
  | simplify (expr : Expr) (next : Expr → Rule)
  | add (terms : List Expr) (next : Expr → Rule)
  | mul (factors : List Expr) (next : Expr → Rule)
  | pow (base exponent : Expr) (next : Expr → Rule)

def Rule.run : Rule → CasM (Option Expr)
  | unmatched => pure none
  | answer result => pure (some result)
  | refuse status => Core.refuse status
  | request next => do
      Core.request
      next.run
  | simplify expr next => do
      let result ← self.simplifyNode expr
      (next result).run
  | add terms next => do
      let result ← self.addNode terms
      (next result).run
  | mul factors next => do
      let result ← self.mulNode factors
      (next result).run
  | pow base exponent next => do
      let result ← self.powNode base exponent
      (next result).run

variable (rules : Name → List Expr → Rule)

def rebuildAt (label : Label) (children : List Expr) : CasM Expr :=
  match label with
  | .add => addAt children
  | .mul => mulAt self children
  | .pow =>
      match children with
      | [base, exponent] => powNode self base exponent
      | _ => refuse .invalidArgument
  | .function head => do
      match ← (rules head children).run self with
      | some result => pure result
      | none => irNode label children
  | .ncmul => irNary .ncmul children
  | .wedge => irNary .wedge children
  | .equation | .tensor _ | .operator _ | .derivative => irNode label children
  | _ => refuse .unsupported

/-- The operands, simplified from left to right; an error value ends the walk. -/
def simplifyChildren : List Expr → CasM (Except Expr (List Expr))
  | [] => pure (.ok [])
  | child :: rest => do
      let child ← self.simplifyNode child
      if isError child then pure (.error child)
      else do
        match ← simplifyChildren rest with
        | .ok rest => pure (.ok (child :: rest))
        | .error failed => pure (.error failed)

/-- The node of a walk over simplified operands, or the error value among them. -/
def rebuilt (label : Label) : Except Expr (List Expr) → CasM Expr
  | .error failed => pure failed
  | .ok children => rebuildAt self rules label children

def simplifyNode (expr : Expr) : CasM Expr := do
  match ← cacheGet .simplify expr .null with
  | some entry => pure entry.r0
  | none => do
      step
      if expr.label.atom then do
        cachePut ⟨.simplify, expr, .null, expr, none⟩
        pure expr
      else do
        request
        let children ← simplifyChildren self expr.children
        let result ← rebuilt self rules expr.label children
        cachePut ⟨.simplify, expr, .null, result, none⟩
        pure result

def stagedOperation (operation : List Expr → CasM Expr) (operands : List Expr) : CasM Expr := do
  request
  match ← simplifyChildren self operands with
  | .error failed => pure failed
  | .ok operands => operation operands

def Calls.cutOff : Calls where
  simplifyNode _ := throw none
  addNode _ := throw none
  mulNode _ := throw none
  powNode _ _ := throw none

def calls : Nat → Calls
  | 0 => .cutOff
  | depth + 1 =>
      { simplifyNode := simplifyNode (calls depth) rules
        addNode := stagedOperation (calls depth) addAt
        mulNode := stagedOperation (calls depth) (mulAt (calls depth))
        powNode := powNode (calls depth) }

def casSimplify (depth : Nat) (expr : Expr) : CasM Expr := do
  casBegin
  (calls rules depth).simplifyNode expr

end PhyNspire.Cas.Core

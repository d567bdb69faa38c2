import PhyNspire.Cas.Substitution
import PhyNspire.Ir.Reader

/-!
Partial differentiation of diff.c: what may depend on a variable, the rules for every kind of node, and
the derivative that is left unevaluated where a dependence is not visible.
-/

namespace PhyNspire.Cas.Core
open Lib Lib.Trees Ir.Expressions
open Ir.Reader (ascii)

inductive CasFunction where
  | sin
  | cos
  | tan
  | exp
  | log
  | asin
  | acos
  | atan
  | sinh
  | cosh
  | tanh
  | asinh
  | acosh
  | atanh
  | gamma
  | loggamma
  | erf
  | erfc
  | factorial
  | pochhammer
  | binomial
  | bernoulli
  | harmonic
  | digamma
deriving DecidableEq, Repr

/-- The names in `k_function_descriptors`. -/
def CasFunction.name : CasFunction → Name
  | sin => sinName
  | cos => cosName
  | tan => ascii "tan"
  | exp => ascii "exp"
  | log => ascii "log"
  | asin => ascii "asin"
  | acos => ascii "acos"
  | atan => ascii "atan"
  | sinh => ascii "sinh"
  | cosh => ascii "cosh"
  | tanh => ascii "tanh"
  | asinh => ascii "asinh"
  | acosh => ascii "acosh"
  | atanh => ascii "atanh"
  | gamma => ascii "gammafn"
  | loggamma => ascii "loggamma"
  | erf => ascii "erf"
  | erfc => ascii "erfc"
  | factorial => ascii "factorial"
  | pochhammer => ascii "pochhammer"
  | binomial => ascii "binomial"
  | bernoulli => ascii "bernoulli"
  | harmonic => ascii "harmonic"
  | digamma => ascii "digamma"

def CasFunction.all : List CasFunction :=
  [sin, cos, tan, exp, log, asin, acos, atan, sinh, cosh, tanh, asinh, acosh, atanh, gamma, loggamma, erf, erfc,
    factorial, pochhammer, binomial, bernoulli, harmonic, digamma]

def functionId (head : Name) : Option CasFunction := CasFunction.all.find? fun function => decide (function.name = head)

/-- `phy_cas_known_function`: a call of a known head with one argument. -/
def knownFunction (label : Label) (children : List Expr) : Option CasFunction :=
  match label, children with
  | .function head, [_] => functionId head
  | _, _ => none

def kindIsOpaque : Label → Bool
  | .index _ _ _ | .ncmul | .tensor _ | .operator _ | .derivative | .wedge => true
  | _ => false

def isFunction : Label → Bool
  | .function _ => true
  | _ => false

/-- An unknown function without arguments could be a function of anything. -/
def bareCall (label : Label) (children : List Expr) : Bool :=
  isFunction label && (knownFunction label children).isNone && children.isEmpty

mutual
def mayDepend (var : Expr) : Expr → CasM Bool
  | .node label children =>
      if Rose.node label children = var then pure true
      else do
        match ← cacheGet .depends (.node label children) (.ref var) with
        | some entry => pure (decide (entry.r0 ≠ zero))
        | none => do
            step
            if kindIsOpaque label || bareCall label children then do
              cachePut ⟨.depends, .node label children, .ref var, one, none⟩
              pure true
            else do
              let depends ← mayDependAny var children
              cachePut ⟨.depends, .node label children, .ref var, if depends then one else zero, none⟩
              pure depends

def mayDependAny (var : Expr) : List Expr → CasM Bool
  | [] => pure false
  | child :: rest => do
      let depends ← mayDepend var child
      if depends then pure true else mayDependAny var rest
end

variable (self : Calls) (rules : Name → List Expr → Rule)

def unaryCall (function : CasFunction) (argument : Expr) : CasM Expr := do
  request
  rebuildAt self rules (.function function.name) [argument]

def isInverseFunction : CasFunction → Bool
  | .asin | .acos | .atan | .asinh | .acosh | .atanh => true
  | _ => false

/-- The denominator of the derivative of `acosh`. -/
def acoshDenominator (argument : Expr) : CasM Expr := do
  let lower ← self.addNode [argument, minusOne]
  let upper ← self.addNode [argument, one]
  let half ← irNode (.exact (1 / 2)) []
  let lowerRoot ← self.powNode lower half
  let upperRoot ← self.powNode upper half
  self.mulNode [lowerRoot, upperRoot]

/-- One plus or minus the square of the argument. -/
def squareDenominator (function : CasFunction) (square : Expr) : CasM Expr :=
  if function = .atan ∨ function = .asinh then self.addNode [one, square]
  else do
    let negated ← negNode self square
    self.addNode [one, negated]

def rootedDenominator (function : CasFunction) (denominator : Expr) : CasM Expr :=
  if function = .asin ∨ function = .acos ∨ function = .asinh then do
    let half ← irNode (.exact (1 / 2)) []
    self.powNode denominator half
  else pure denominator

def inverseDenominator (function : CasFunction) (argument square : Expr) : CasM Expr :=
  if function = .acosh then acoshDenominator self argument
  else do
    let denominator ← squareDenominator self function square
    rootedDenominator self function denominator

def negateWhen (needed : Bool) (expr : Expr) : CasM Expr := if needed then negNode self expr else pure expr

/-- The inverse of a power of a call: one over the square of `cos` or `cosh`. -/
def inverseSquare (function : CasFunction) (argument : Expr) : CasM Expr := do
  let call ← rebuildAt self rules (.function function.name) [argument]
  let minusTwo ← irNode (.exact (-2)) []
  self.powNode call minusTwo

def inverseOuter (function : CasFunction) (argument : Expr) : CasM Expr := do
  let two ← irNode (.exact 2) []
  let square ← self.powNode argument two
  let denominator ← inverseDenominator self function argument square
  let inverse ← self.powNode denominator minusOne
  negateWhen self (decide (function = .acos)) inverse

def constantPi : Expr := symbolNode (ascii "Pi")

def errorOuter (function : CasFunction) (argument : Expr) : CasM Expr := do
  let two ← irNode (.exact 2) []
  let square ← self.powNode argument two
  let negated ← negNode self square
  let exponential ← unaryCall self rules .exp negated
  let minusHalf ← irNode (.exact (-1 / 2)) []
  let piFactor ← self.powNode constantPi minusHalf
  let result ← self.mulNode [two, piFactor, exponential]
  negateWhen self (decide (function = .erfc)) result

/-- `outer_derivative`: the derivative of a known function at its argument. -/
def outerDerivative (function : CasFunction) (argument : Expr) : CasM Expr := do
  request
  match function with
  | .sin => rebuildAt self rules (.function CasFunction.cos.name) [argument]
  | .cos => do
      let call ← rebuildAt self rules (.function CasFunction.sin.name) [argument]
      negNode self call
  | .tan => inverseSquare self rules .cos argument
  | .exp => rebuildAt self rules (.function CasFunction.exp.name) [argument]
  | .log => self.powNode argument minusOne
  | .sinh => rebuildAt self rules (.function CasFunction.cosh.name) [argument]
  | .cosh => rebuildAt self rules (.function CasFunction.sinh.name) [argument]
  | .tanh => inverseSquare self rules .cosh argument
  | .asin | .acos | .atan | .asinh | .acosh | .atanh => inverseOuter self function argument
  | .gamma => do
      let digamma ← unaryCall self rules .digamma argument
      let gamma ← unaryCall self rules .gamma argument
      self.mulNode [digamma, gamma]
  | .loggamma => unaryCall self rules .digamma argument
  | .erf | .erfc => errorOuter self rules function argument
  | .factorial => do
      let shifted ← self.addNode [argument, one]
      let digamma ← unaryCall self rules .digamma shifted
      let factorial ← unaryCall self rules .factorial argument
      self.mulNode [factorial, digamma]
  | .pochhammer | .binomial | .bernoulli | .harmonic | .digamma => refuse .unsupported

/-- `defer`: an existing derivative gains a variable. -/
def deferred (var : Expr) : Expr → Expr
  | .node .derivative children => .node .derivative (children ++ [var])
  | expr => .node .derivative [expr, var]

def defer (var expr : Expr) : CasM Expr := do
  request
  pure (deferred var expr)

/-- The rule for a node that may depend on the variable, from the runs over its operands. -/
def diffRule (var : Expr) (label : Label) (children : List Expr) (each factors : CasM (List Expr)) (power : CasM Expr)
    (call : CasFunction → CasM Expr) : CasM Expr :=
  match label with
  | .add => do
      request
      let terms ← each
      addAt terms
  | .mul => do
      request
      request
      let terms ← factors
      addAt terms
  | .pow => power
  | .equation => do
      request
      let sides ← each
      rebuildAt self rules .equation sides
  | .function _ =>
      match knownFunction label children with
      | none => defer var (.node label children)
      | some function => call function
  | _ => defer var (.node label children)

mutual
def diffNode (var : Expr) : Expr → CasM Expr
  | .node label children =>
      if Rose.node label children = var then pure one
      else do
        match ← cacheGet .diff (.node label children) (.ref var) with
        | some entry => pure entry.r0
        | none => do
            step
            if isError (.node label children) then do
              cachePut ⟨.diff, .node label children, .ref var, .node label children, none⟩
              pure (.node label children)
            else do
              let varies ← mayDepend var (.node label children)
              if varies then do
                let result ← diffRule self rules var label children (diffEach var children) (diffFactors var [] children)
                  (diffPower var (.node label children) children) (fun function => diffCall var function children)
                cachePut ⟨.diff, .node label children, .ref var, result, none⟩
                pure result
              else do
                cachePut ⟨.diff, .node label children, .ref var, zero, none⟩
                pure zero

def diffEach (var : Expr) : List Expr → CasM (List Expr)
  | [] => pure []
  | child :: rest => do
      let term ← diffNode var child
      let terms ← diffEach var rest
      pure (term :: terms)

/-- The product rule: one term for every factor, which is replaced by its derivative. -/
def diffFactors (var : Expr) (before : List Expr) : List Expr → CasM (List Expr)
  | [] => pure []
  | factor :: rest => do
      let entry ← diffNode var factor
      let term ← mulAt self (before ++ entry :: rest)
      let terms ← diffFactors var (before ++ [factor]) rest
      pure (term :: terms)

def diffPower (var expr : Expr) : List Expr → CasM Expr
  | [base, exponent] => do
      let exponentVaries ← mayDepend var exponent
      if exponentVaries then do
        let baseVaries ← mayDepend var base
        request
        let exponentDerivative ← diffNode var exponent
        request
        let logarithm ← rebuildAt self rules (.function CasFunction.log.name) [base]
        let first ← self.mulNode [exponentDerivative, logarithm]
        if baseVaries then do
          let derivative ← diffNode var base
          let inverse ← self.powNode base minusOne
          let second ← self.mulNode [exponent, derivative, inverse]
          let inner ← addAt [first, second]
          self.mulNode [expr, inner]
        else do
          let inner ← addAt [first]
          self.mulNode [expr, inner]
      else do
        let lowered ← self.addNode [exponent, minusOne]
        let reduced ← self.powNode base lowered
        let derivative ← diffNode var base
        self.mulNode [exponent, reduced, derivative]
  | _ => refuse .invalidArgument

/-- The chain rule. -/
def diffCall (var : Expr) (function : CasFunction) : List Expr → CasM Expr
  | argument :: _ => do
      let outer ← outerDerivative self rules function argument
      let inner ← diffNode var argument
      self.mulNode [outer, inner]
  | [] => refuse .invalidArgument
end

def variableName : Expr → Option Name
  | .node (.symbol name) [] => some name
  | _ => none

/-- `phy_cas_diff`: the variable is a symbol that is not declared constant. -/
def casDiff (depth : Nat) (expr var : Expr) : CasM Expr := do
  casBegin
  match variableName var with
  | none => refuse .type
  | some name => do
      let cas ← get
      if cas.constant name then refuse .type
      else do
        let reduced ← (calls rules depth).simplifyNode expr
        diffNode (calls rules depth) rules var reduced

end PhyNspire.Cas.Core

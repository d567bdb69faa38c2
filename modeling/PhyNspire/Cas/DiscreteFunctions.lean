import PhyNspire.Cas.Engine
import PhyNspire.Exact.Kernel

/-!
The discrete special functions: factorials, Pochhammer symbols, binomial coefficients, Bernoulli and harmonic
numbers, and the values and shifts of the gamma and digamma functions. Exact arguments go through the rational
kernel, symbolic ones through the scalar engine, and every loop has a ceiling.
-/

namespace PhyNspire.Cas.Discrete
open Platform PhyNspire.Exact

/-- `phy_cas_function`, as far as the rules here go. -/
inductive CasFunction where
  | log
  | gamma
  | digamma
  | factorial
  | pochhammer
  | binomial
  | bernoulli
  | harmonic
  | other (code : Nat)
deriving DecidableEq, Repr

/-- The scalar layer as special.c sees it: with the rational kernel, the step budget and the constants. -/
structure Specials (State Ref : Type) extends Engine State Ref where
  kernel : Kernel State
  /-- `phy_bigrat_reciprocal`. -/
  bigratReciprocal : ℚ → EStateM Status State ℚ
  /-- `phy_bigrat_read` of the decimal text of a promoted number. -/
  bigratRead : ℚ → EStateM Status State ℚ
  /-- `phy_cas_exact_publish_bigrat`. -/
  exactPublishBigrat : ℚ → EStateM Status State Ref
  /-- `phy_cas_exact_operation_context`, with the values that are initialised in it. -/
  exactOperationContext : EStateM Status State Unit
  /-- `phy_cas_charge`. -/
  charge : Nat → EStateM Status State Unit
  /-- `phy_cas_scratch_alloc`. -/
  scratchAlloc : Nat → EStateM Status State Unit
  /-- The children of a sum. -/
  addends : Ref → Option (List Ref)
  /-- `phy_ir_function`. -/
  call : CasFunction → List Ref → EStateM Status State Ref
  zero : Ref
  one : Ref
  minusOne : Ref
  eulerGamma : Ref
  pi : Ref

def factorialMax : Nat := 512

def exactProductMax : Nat := 512

def symbolicProductMax : Nat := 64

def bernoulliMax : Nat := 64

def harmonicMax : Nat := 4096

def recurrenceMax : Nat := 64

variable {State Ref : Type} (cas : Specials State Ref)

/-- Whether a node is of the kind `PHY_IR_INTEGER`. -/
def isIntegerKind (ref : Ref) : Bool :=
  match cas.exact ref with
  | some q => decide (q.den = 1)
  | none => false

def exactSignRef (ref : Ref) : Int :=
  match cas.exact ref with
  | some q => q.num.sign
  | none => 0

def exactLoadRef (ref : Ref) : EStateM Status State ℚ :=
  match cas.exact ref with
  | some q => if Machine q then cas.kernel.bigratSetI64 q.num q.den else cas.bigratRead q
  | none => throw .invalidArgument

/-- `binary` of big_num.c. -/
def exactBinary (operation : ℚ → ℚ → EStateM Status State ℚ) (left right : Ref) : EStateM Status State Ref := do
  cas.exactOperationContext
  let a ← exactLoadRef cas left
  let b ← exactLoadRef cas right
  let result ← operation a b
  cas.exactPublishBigrat result

def exactAddRefs : Ref → Ref → EStateM Status State Ref := exactBinary cas cas.kernel.bigratAdd

def exactSubRefs : Ref → Ref → EStateM Status State Ref := exactBinary cas cas.kernel.bigratSubtract

def exactMulRefs : Ref → Ref → EStateM Status State Ref := exactBinary cas cas.kernel.bigratMultiply

def exactDivRefs : Ref → Ref → EStateM Status State Ref := exactBinary cas cas.kernel.bigratDivide

/-- The next factor of `exact_rising`. -/
def risingNext (up : Bool) (current : ℚ) : EStateM Status State ℚ :=
  if up then cas.kernel.bigratAdd current 1 else cas.kernel.bigratSubtract current 1

/-- The loop of `exact_rising`; the factors go up or down. -/
def risingLoop (up : Bool) : Nat → ℚ → ℚ → EStateM Status State ℚ
  | 0, _, result => pure result
  | left + 1, current, result => do
      let result ← cas.kernel.bigratMultiply result current
      if left = 0 then pure result
      else do
        let current ← risingNext cas up current
        risingLoop up left current result

def risingFirst (count : Int) (current one : ℚ) : EStateM Status State ℚ :=
  if count < 0 then cas.kernel.bigratSubtract current one else pure current

/-- A product of lower factors is inverted. -/
def risingLast (count : Int) (result : ℚ) : EStateM Status State ℚ :=
  if count < 0 then cas.bigratReciprocal result else pure result

def exactRising (start : Ref) (count : Int) : EStateM Status State Ref :=
  if exactProductMax < count.natAbs then throw .termLimit
  else do
    cas.charge count.natAbs
    cas.exactOperationContext
    let current ← exactLoadRef cas start
    let result ← cas.kernel.bigratSetI64 1 1
    let one ← cas.kernel.bigratSetI64 1 1
    let current ← risingFirst cas count current one
    let result ← risingLoop cas (decide (0 ≤ count)) count.natAbs current result
    let result ← risingLast cas count result
    cas.exactPublishBigrat result

/-- The loop of `exact_binomial`, from an index on. -/
def binomialLoop : Nat → Nat → ℚ → ℚ → EStateM Status State ℚ
  | 0, _, _, result => pure result
  | left + 1, index, current, result => do
      let result ← cas.kernel.bigratMultiply result current
      let divisor ← cas.kernel.bigratSetI64 index 1
      let result ← cas.kernel.bigratDivide result divisor
      if left = 0 then pure result
      else do
        let current ← cas.kernel.bigratSubtract current 1
        binomialLoop left (index + 1) current result

def exactBinomial (upper : Ref) (lower : Nat) : EStateM Status State Ref :=
  if exactProductMax < lower then throw .termLimit
  else do
    cas.charge lower
    cas.exactOperationContext
    let current ← exactLoadRef cas upper
    let result ← cas.kernel.bigratSetI64 1 1
    let _ ← cas.kernel.bigratSetI64 1 1
    let result ← binomialLoop cas lower 1 current result
    cas.exactPublishBigrat result

def shiftedFactor (base : Ref) (shift : Int) : EStateM Status State Ref :=
  if shift = 0 then pure base
  else do
    let offset ← cas.number shift 1
    cas.add [base, offset]

def divideSymbolic (numerator denominator : Ref) : EStateM Status State Ref :=
  if cas.integerValue denominator = some 0 then throw .domain
  else do
    let reciprocal ← cas.pow denominator cas.minusOne
    cas.mul [numerator, reciprocal]

/-- The product of the shifted bases from an index on, the shifts being those of a function of the index. -/
def shiftedProduct (base : Ref) (shift : Nat → Int) : Nat → Nat → Ref → EStateM Status State Ref
  | 0, _, product => pure product
  | left + 1, index, product => do
      let factor ← shiftedFactor cas base (shift index)
      let product ← cas.mul [product, factor]
      shiftedProduct base shift left (index + 1) product

def symbolicRising (start : Ref) (count : Int) : EStateM Status State Ref :=
  if symbolicProductMax < count.natAbs then throw .termLimit
  else do
    cas.charge count.natAbs
    let product ← shiftedProduct cas start (fun index => if 0 ≤ count then index else -(index + 1)) count.natAbs 0 cas.one
    if count < 0 then divideSymbolic cas cas.one product else pure product

def symbolicBinomial (upper : Ref) (lower : Nat) : EStateM Status State Ref :=
  if symbolicProductMax < lower then throw .termLimit
  else do
    cas.charge lower
    let numerator ← shiftedProduct cas upper (fun index => -index) lower 0 cas.one
    let denominator ← exactRising cas cas.one lower
    divideSymbolic cas numerator denominator

def factorial (argument : Ref) : EStateM Status State (Option Ref) :=
  if isIntegerKind cas argument then
    if exactSignRef cas argument < 0 then throw .domain
    else match cas.integerValue argument with
      | none => throw .termLimit
      | some value =>
        if value < 0 ∨ factorialMax < value.toNat then throw .termLimit
        else some <$> exactRising cas cas.one value
  else pure none

def pochhammer (start count : Ref) : EStateM Status State (Option Ref) :=
  if isIntegerKind cas count then
    match cas.integerValue count with
    | none => throw .termLimit
    | some count => some <$> if (cas.exact start).isSome then exactRising cas start count else symbolicRising cas start count
  else pure none

/-- The lower index, or its reflection in a small upper one; nothing where the coefficient is zero. -/
def reflectedLower (upper : Ref) (lower : Nat) : Option Nat :=
  match cas.integerValue upper with
  | some upper =>
    if 0 ≤ upper then
      if upper.toNat < lower then none
      else if upper.toNat - lower < lower then some (upper.toNat - lower) else some lower
    else some lower
  | none => some lower

def binomial (upper lower : Ref) : EStateM Status State (Option Ref) :=
  if isIntegerKind cas lower then
    match cas.integerValue lower with
    | none => if exactSignRef cas lower < 0 then pure (some cas.zero) else throw .termLimit
    | some index =>
      if index < 0 then pure (some cas.zero)
      else match reflectedLower cas upper index.toNat with
        | none => pure (some cas.zero)
        | some lower =>
          if 4294967295 < lower then throw .termLimit
          else some <$> if (cas.exact upper).isSome then exactBinomial cas upper lower else symbolicBinomial cas upper lower
  else pure none

/-- The inner loop of `bernoulli`, over the values found so far. -/
def bernoulliSum (upper : Ref) : List Ref → Nat → Ref → EStateM Status State Ref
  | [], _, sum => pure sum
  | value :: rest, k, sum => do
      let coefficient ← exactBinomial cas upper k
      let term ← exactMulRefs cas coefficient value
      let sum ← exactAddRefs cas sum term
      bernoulliSum upper rest (k + 1) sum

/-- The outer loop of `bernoulli`: one more value for each turn. -/
def bernoulliLoop : Nat → List Ref → EStateM Status State (List Ref)
  | 0, values => pure values
  | left + 1, values => do
      let upper ← cas.integer (values.length + 1)
      let sum ← bernoulliSum cas upper values 0 cas.zero
      let divisor ← cas.integer (values.length + 1)
      let negative ← exactSubRefs cas cas.zero sum
      let value ← exactDivRefs cas negative divisor
      bernoulliLoop left (values ++ [value])

def bernoulli (argument : Ref) : EStateM Status State (Option Ref) :=
  if isIntegerKind cas argument then
    match cas.integerValue argument with
    | none => if exactSignRef cas argument < 0 then throw .domain else throw .termLimit
    | some order =>
      if order < 0 then throw .domain
      else if bernoulliMax < order.toNat then throw .termLimit
      else if 1 < order ∧ order % 2 ≠ 0 then pure (some cas.zero)
      else do
        let values ← bernoulliLoop cas order.toNat [cas.one]
        pure values.getLast?
  else pure none

/-- The loop of `exact_harmonic`, from a denominator on. -/
def harmonicLoop : Nat → Nat → ℚ → EStateM Status State ℚ
  | 0, _, sum => pure sum
  | left + 1, denominator, sum => do
      let term ← cas.kernel.bigratSetI64 1 denominator
      let sum ← cas.kernel.bigratAdd sum term
      harmonicLoop left (denominator + 1) sum

def exactHarmonic (order : Nat) : EStateM Status State Ref :=
  if harmonicMax < order then throw .termLimit
  else do
    cas.charge order
    cas.exactOperationContext
    let sum ← cas.kernel.bigratSetI64 0 1
    let sum ← harmonicLoop cas order 1 sum
    cas.exactPublishBigrat sum

def harmonic (argument : Ref) : EStateM Status State (Option Ref) :=
  if isIntegerKind cas argument then
    match cas.integerValue argument with
    | none => if exactSignRef cas argument < 0 then throw .domain else throw .termLimit
    | some order =>
      if order < 0 then throw .domain
      else if 4294967295 < order then throw .termLimit
      else some <$> exactHarmonic cas order.toNat
  else pure none

def splitAddends : List Ref → Int → EStateM Status State (Int × List Ref)
  | [], shift => pure (shift, [])
  | child :: rest, shift =>
    if isIntegerKind cas child then
      match cas.integerValue child with
      | none => throw .termLimit
      | some value =>
        if FitsWord (shift + value) then splitAddends rest (shift + value) else throw .termLimit
    else do
      let split ← splitAddends rest shift
      pure (split.1, child :: split.2)

/-- `split_integer_shift`: a base and a shift, if there are both. -/
def splitIntegerShift (argument : Ref) : EStateM Status State (Option (Ref × Int)) :=
  match cas.addends argument with
  | none => pure none
  | some children => do
      cas.scratchAlloc children.length
      let split ← splitAddends cas children 0
      if split.1 ≠ 0 ∧ split.2 ≠ [] then do
        let base ← cas.add split.2
        pure (some (base, split.1))
      else pure none

def logarithmOfTwo : EStateM Status State Ref := do
  let two ← cas.integer 2
  cas.call .log [two]

def digammaHalfInteger (numerator : Int) : EStateM Status State Ref :=
  if numerator ≤ 0 ∨ numerator % 2 = 0 then throw .unsupported
  else
    let n := (numerator.toNat - 1) / 2
    if harmonicMax / 2 < n then throw .termLimit
    else do
      let hTwice ← exactHarmonic cas (2 * n)
      let hOnce ← exactHarmonic cas n
      let two ← cas.integer 2
      let twiceH ← exactMulRefs cas two hTwice
      let rational ← exactSubRefs cas twiceH hOnce
      let logTwo ← logarithmOfTwo cas
      let negativeGamma ← cas.neg cas.eulerGamma
      let minusTwo ← cas.integer (-2)
      let negativeLog ← cas.mul [minusTwo, logTwo]
      cas.add [rational, negativeGamma, negativeLog]

/-- The term of a shift upwards is the reciprocal, that of a shift downwards its negative. -/
def recurrenceTerm (up : Bool) (reciprocal : Ref) : EStateM Status State Ref :=
  if up then pure reciprocal else cas.neg reciprocal

/-- The loop of `recurrence_sum`. -/
def recurrenceLoop (base : Ref) (up : Bool) : Nat → Nat → Ref → EStateM Status State Ref
  | 0, _, sum => pure sum
  | left + 1, index, sum => do
      let denominator ← shiftedFactor cas base (if up then index else -(index + 1))
      let reciprocal ← cas.pow denominator cas.minusOne
      let term ← recurrenceTerm cas up reciprocal
      let sum ← cas.add [sum, term]
      recurrenceLoop base up left (index + 1) sum

def recurrenceSum (base : Ref) (shift : Int) : EStateM Status State Ref :=
  if recurrenceMax < shift.natAbs then throw .termLimit
  else recurrenceLoop cas base (decide (0 < shift)) shift.natAbs 0 cas.zero

/-- The order as `uint32_t`. -/
def digamma (argument : Ref) : EStateM Status State (Option Ref) :=
  if isIntegerKind cas argument then
    match cas.integerValue argument with
    | none => if 0 < exactSignRef cas argument then throw .termLimit else pure none
    | some value =>
      if value ≤ 0 then pure none
      else do
        let harmonicValue ← exactHarmonic cas ((value - 1).toNat % 4294967296)
        let negativeGamma ← cas.neg cas.eulerGamma
        some <$> cas.add [harmonicValue, negativeGamma]
  else match halfInteger argument with
    | some numerator => some <$> digammaHalfInteger cas numerator
    | none => do
        match ← splitIntegerShift cas argument with
        | none => pure none
        | some (base, shift) =>
          if recurrenceMax < shift.natAbs then throw .termLimit
          else do
            let baseCall ← cas.call .digamma [base]
            let correction ← recurrenceSum cas base shift
            some <$> cas.add [baseCall, correction]
where
  /-- The numerator of a positive half-integer. -/
  halfInteger (argument : Ref) : Option Int :=
    match cas.rationalValue argument with
    | some (numerator, denominator) => if denominator = 2 ∧ 0 < numerator ∧ numerator % 2 ≠ 0 then some numerator else none
    | none => none

def gammaRecurrence (argument : Ref) : EStateM Status State (Option Ref) :=
  match positiveInteger argument, digamma.halfInteger cas argument with
  | some integer, _ =>
    if exactProductMax < (integer - 1).toNat then throw .termLimit
    else some <$> exactRising cas cas.one (integer - 1)
  | none, some numerator => do
      let half ← cas.number 1 2
      let coefficient ← exactRising cas half ((numerator - 1) / 2)
      let sqrtPi ← cas.pow cas.pi half
      some <$> cas.mul [coefficient, sqrtPi]
  | none, none => do
      match ← splitIntegerShift cas argument with
      | none => pure none
      | some (base, shift) =>
        if recurrenceMax < shift.natAbs then throw .termLimit
        else do
          let baseGamma ← cas.call .gamma [base]
          if 0 < shift then do
            let rising ← symbolicRising cas base shift
            some <$> cas.mul [baseGamma, rising]
          else do
            let denominator ← symbolicRising cas argument (-shift)
            some <$> divideSymbolic cas baseGamma denominator
where
  positiveInteger (argument : Ref) : Option Int :=
    if isIntegerKind cas argument then
      match cas.integerValue argument with
      | some integer => if 0 < integer then some integer else none
      | none => none
    else none

def pochhammerRecurrence (start count : Ref) : EStateM Status State (Option Ref) := do
  match ← splitIntegerShift cas count with
  | none => pure none
  | some (baseCount, shift) =>
    if recurrenceMax < shift.natAbs then throw .termLimit
    else do
      let baseCall ← cas.call .pochhammer [start, baseCount]
      let recurrenceStart ← cas.add [start, if 0 < shift then baseCount else count]
      let finite ← symbolicRising cas recurrenceStart shift.natAbs
      if 0 < shift then some <$> cas.mul [baseCall, finite] else some <$> divideSymbolic cas baseCall finite

def discreteFunction (function : CasFunction) (arguments : List Ref) : EStateM Status State (Option Ref) :=
  match function, arguments with
  | .factorial, [first] => factorial cas first
  | .pochhammer, [first, second] => do
      match ← pochhammer cas first second with
      | some result => pure (some result)
      | none => pochhammerRecurrence cas first second
  | .binomial, [first, second] => binomial cas first second
  | .bernoulli, [first] => bernoulli cas first
  | .harmonic, [first] => harmonic cas first
  | .digamma, [first] => digamma cas first
  | .gamma, [first] => gammaRecurrence cas first
  | _, _ => pure none

end PhyNspire.Cas.Discrete

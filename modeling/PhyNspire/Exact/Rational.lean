import PhyNspire.Exact.Integer

/-!
The canonical rationals of rational.c over the bigint kernel.

A `phy_bigrat` is named by its address; its numerator and denominator are the handles at
that address, and its magic number is set exactly while both are live.
-/

namespace PhyNspire.Exact.Rational
open Lib Lib.Stateful Context Integer

abbrev Bigrat := Nat

def rationalValidShallow (context : ExactContext) (value : Bigrat) : Bool :=
  context.bigintShallowValid (.numerator value) && context.bigintShallowValid (.denominator value) &&
    decide (0 < (context.payload (.denominator value)).sign) &&
    !(decide ((context.payload (.numerator value)).count = 0) &&
      !(decide ((context.payload (.denominator value)).limbs = [1#32])))

def compatible2 (context : ExactContext) (left right : Bigrat) : Bool :=
  rationalValidShallow context left && rationalValidShallow context right

def compatible3 (context : ExactContext) (left right output : Bigrat) : Bool :=
  compatible2 context left right && rationalValidShallow context output

def swapPayload (left right : Bigrat) (context : ExactContext) : ExactContext :=
  bigintSwapPayload (.denominator left) (.denominator right)
    (bigintSwapPayload (.numerator left) (.numerator right) context)

def bigratDestroy (value : Bigrat) (context : ExactContext) : ExactContext :=
  bigintDestroy (.numerator value) (bigintDestroy (.denominator value) context)

def bigratInit (value : Bigrat) : ExactM Unit := do
  modify (bigintInit (.numerator value))
  modify (bigintInit (.denominator value))
  abandoning (bigratDestroy value) (bigintAssignU64 (.denominator value) 1 1)

def withRational {α : Type} (body : Bigrat → ExactM α) : ExactM α := do
  let context ← get
  let temporary := freshAddress context
  bigratInit temporary
  ensuring (bigratDestroy temporary) (body temporary)

def normalizeInPlace (value : Bigrat) : ExactM Unit := do
  let context ← get
  if !context.bigintShallowValid (.numerator value) || !context.bigintShallowValid (.denominator value) then
    throw .invalidArgument
  else if (context.payload (.denominator value)).count = 0 then throw .domain
  else do
    positiveDenominator (context.payload (.denominator value)).sign
    let context ← get
    if (context.payload (.numerator value)).count = 0 then bigintSetI64 (.denominator value) 1
    else withTemporary fun gcd => withTemporary fun reducedNumerator => withTemporary fun reducedDenominator => do
      bigintGcd (.numerator value) (.denominator value) gcd
      bigintDivideExact (.numerator value) gcd reducedNumerator
      bigintDivideExact (.denominator value) gcd reducedDenominator
      modify (bigintSwapPayload (.numerator value) reducedNumerator)
      modify (bigintSwapPayload (.denominator value) reducedDenominator)
where
  /-- Both signs are reversed when the denominator is negative. -/
  positiveDenominator (sign : Int) : ExactM Unit :=
    if sign < 0 then do
      bigintNegate (.denominator value) (.denominator value)
      bigintNegate (.numerator value) (.numerator value)
    else pure ()

def bigratSetI64 (value : Bigrat) (numerator denominator : Int64) : ExactM Unit := do
  let context ← get
  if !rationalValidShallow context value then throw .invalidArgument
  else operation <| withRational fun temporary => do
    bigintSetI64 (.numerator temporary) numerator
    bigintSetI64 (.denominator temporary) denominator
    normalizeInPlace temporary
    modify (swapPayload value temporary)

def bigratRead (value : Bigrat) (numerator denominator : List UInt8) : ExactM Unit := do
  let context ← get
  if !rationalValidShallow context value then throw .invalidArgument
  else operation <| withRational fun temporary => do
    bigintRead (.numerator temporary) numerator
    bigintRead (.denominator temporary) denominator
    normalizeInPlace temporary
    modify (swapPayload value temporary)

def bigratCopy (source destination : Bigrat) : ExactM Unit := do
  let context ← get
  if !compatible2 context source destination then throw .invalidArgument
  else operation do
    if source = destination then pure ()
    else withRational fun temporary => do
      bigintCopy (.numerator source) (.numerator temporary)
      bigintCopy (.denominator source) (.denominator temporary)
      modify (swapPayload destination temporary)

def bigratAdd (left right outSum : Bigrat) : ExactM Unit := do
  let context ← get
  if !compatible3 context left right outSum then throw .invalidArgument
  else operation <| withRational fun temporary => withTemporary fun gcd =>
    withTemporary fun leftScale => withTemporary fun rightScale =>
    withTemporary fun leftTerm => withTemporary fun rightTerm => do
      bigintGcd (.denominator left) (.denominator right) gcd
      bigintDivideExact (.denominator right) gcd leftScale
      bigintDivideExact (.denominator left) gcd rightScale
      bigintMultiply (.numerator left) leftScale leftTerm
      bigintMultiply (.numerator right) rightScale rightTerm
      bigintAdd leftTerm rightTerm (.numerator temporary)
      bigintMultiply (.denominator left) leftScale (.denominator temporary)
      normalizeInPlace temporary
      modify (swapPayload outSum temporary)

def bigratNegate (value outNegated : Bigrat) : ExactM Unit := do
  let context ← get
  if !compatible2 context value outNegated then throw .invalidArgument
  else operation <| withRational fun temporary => do
    bigintNegate (.numerator value) (.numerator temporary)
    bigintCopy (.denominator value) (.denominator temporary)
    modify (swapPayload outNegated temporary)

def bigratSubtract (left right outDifference : Bigrat) : ExactM Unit := do
  let context ← get
  if !compatible3 context left right outDifference then throw .invalidArgument
  else operation <| withRational fun negated => do
    bigratNegate right negated
    bigratAdd left negated outDifference

def bigratMultiply (left right outProduct : Bigrat) : ExactM Unit := do
  let context ← get
  if !compatible3 context left right outProduct then throw .invalidArgument
  else operation <| withRational fun temporary => withTemporary fun gcdLeft =>
    withTemporary fun gcdRight => withTemporary fun leftNumerator => withTemporary fun rightNumerator =>
    withTemporary fun leftDenominator => withTemporary fun rightDenominator => do
      bigintGcd (.numerator left) (.denominator right) gcdLeft
      bigintGcd (.numerator right) (.denominator left) gcdRight
      bigintDivideExact (.numerator left) gcdLeft leftNumerator
      bigintDivideExact (.denominator right) gcdLeft rightDenominator
      bigintDivideExact (.numerator right) gcdRight rightNumerator
      bigintDivideExact (.denominator left) gcdRight leftDenominator
      bigintMultiply leftNumerator rightNumerator (.numerator temporary)
      bigintMultiply leftDenominator rightDenominator (.denominator temporary)
      normalizeInPlace temporary
      modify (swapPayload outProduct temporary)

def bigratReciprocal (value outReciprocal : Bigrat) : ExactM Unit := do
  let context ← get
  if !compatible2 context value outReciprocal then throw .invalidArgument
  else if (context.payload (.numerator value)).count = 0 then throw .domain
  else operation <| withRational fun temporary => do
    bigintCopy (.denominator value) (.numerator temporary)
    bigintCopy (.numerator value) (.denominator temporary)
    normalizeInPlace temporary
    modify (swapPayload outReciprocal temporary)

def bigratDivide (dividend divisor outQuotient : Bigrat) : ExactM Unit := do
  let context ← get
  if !compatible3 context dividend divisor outQuotient then throw .invalidArgument
  else operation <| withRational fun reciprocal => do
    bigratReciprocal divisor reciprocal
    bigratMultiply dividend reciprocal outQuotient

/-- `(uint32_t)(-(int64_t)exponent)` for a negative exponent. -/
def powMagnitude (exponent : Int32) : UInt32 :=
  if exponent < 0 then UInt32.ofInt (-exponent.toInt) else exponent.toUInt32

def bigratPowI32 (base : Bigrat) (exponent : Int32) (outPower : Bigrat) : ExactM Unit := do
  let context ← get
  if !compatible2 context base outPower then throw .invalidArgument
  else if exponent < 0 ∧ (context.payload (.numerator base)).count = 0 then throw .domain
  else operation <| withRational fun temporary => do
    raise (powMagnitude exponent) temporary
    normalizeInPlace temporary
    modify (swapPayload outPower temporary)
where
  /-- A negative exponent exchanges numerator and denominator. -/
  raise (magnitude : UInt32) (temporary : Bigrat) : ExactM Unit :=
    if 0 ≤ exponent then do
      bigintPowU32 (.numerator base) magnitude (.numerator temporary)
      bigintPowU32 (.denominator base) magnitude (.denominator temporary)
    else do
      bigintPowU32 (.denominator base) magnitude (.numerator temporary)
      bigintPowU32 (.numerator base) magnitude (.denominator temporary)

def bigratCompare (left right : Bigrat) : ExactM Int := do
  let context ← get
  if !compatible2 context left right then throw .invalidArgument
  else operation <| withTemporary fun leftCross => withTemporary fun rightCross => do
    bigintMultiply (.numerator left) (.denominator right) leftCross
    bigintMultiply (.numerator right) (.denominator left) rightCross
    let context ← get
    pure (bigintCompare context leftCross rightCross)

end PhyNspire.Exact.Rational

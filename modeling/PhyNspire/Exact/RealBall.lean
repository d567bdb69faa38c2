import PhyNspire.Exact.Rational

/-!
The certified real balls of ball.c over the rational kernel, up to the square root.

A `phy_real_ball` is named by its address, and its midpoint and radius are the rationals
at that address; two balls overlap only when they are equal. Its magic number is set
exactly while both rationals are live.
-/

namespace PhyNspire.Exact.RealBall
open Lib Lib.Stateful Context Integer Rational

structure RealBall where
  address : Nat
deriving DecidableEq, Repr

namespace RealBall

def midpoint (ball : RealBall) : Bigrat := 2 * ball.address

def radius (ball : RealBall) : Bigrat := 2 * ball.address + 1

end RealBall

def initialized (context : ExactContext) (ball : RealBall) : Bool :=
  rationalValidShallow context ball.midpoint && rationalValidShallow context ball.radius

def bigratSwap (left right : Bigrat) : ExactM Unit := do
  let context ← get
  if !compatible2 context left right then throw .invalidArgument
  else modify (swapPayload left right)

def bigratSign (context : ExactContext) (value : Bigrat) : Int :=
  if rationalValidShallow context value then (context.payload (.numerator value)).sign else 0

def publish (temporary out : RealBall) : ExactM Unit := do
  bigratSwap temporary.midpoint out.midpoint
  bigratSwap temporary.radius out.radius

def realBallDestroy (ball : RealBall) (context : ExactContext) : ExactContext :=
  bigratDestroy ball.midpoint (bigratDestroy ball.radius context)

def realBallInit (ball : RealBall) : ExactM Unit := do
  bigratInit ball.midpoint
  abandoning (bigratDestroy ball.midpoint) (bigratInit ball.radius)
  abandoning (realBallDestroy ball) do
    bigratSetI64 ball.midpoint 0 1
    bigratSetI64 ball.radius 0 1

def withBall {α : Type} (body : RealBall → ExactM α) : ExactM α := do
  let context ← get
  let temporary : RealBall := ⟨freshAddress context⟩
  realBallInit temporary
  ensuring (realBallDestroy temporary) (body temporary)

def realBallSetI64 (ball : RealBall) (numerator denominator : Int64) : ExactM Unit := do
  let context ← get
  if !initialized context ball then throw .invalidArgument
  else withBall fun temporary => do
    bigratSetI64 temporary.midpoint numerator denominator
    publish temporary ball

def realBallSetExact (ball : RealBall) (value : Bigrat) : ExactM Unit := do
  let context ← get
  if !initialized context ball then throw .invalidArgument
  else withBall fun temporary => do
    bigratCopy value temporary.midpoint
    publish temporary ball

def realBallSetInterval (ball : RealBall) (lower upper : Bigrat) : ExactM Unit := do
  let context ← get
  if !initialized context ball then throw .invalidArgument
  else do
    let order ← bigratCompare lower upper
    if 0 < order then throw .domain
    else withBall fun temporary => withRational fun two => do
      bigratSetI64 two 2 1
      bigratAdd lower upper temporary.midpoint
      bigratDivide temporary.midpoint two temporary.midpoint
      bigratSubtract upper lower temporary.radius
      bigratDivide temporary.radius two temporary.radius
      publish temporary ball

def realBallCopy (source destination : RealBall) : ExactM Unit := do
  let context ← get
  if !initialized context source || !initialized context destination then throw .invalidArgument
  else withBall fun temporary => do
    bigratCopy source.midpoint temporary.midpoint
    bigratCopy source.radius temporary.radius
    publish temporary destination

def realBallLower (ball : RealBall) (outLower : Bigrat) : ExactM Unit := do
  let context ← get
  if !initialized context ball then throw .invalidArgument
  else bigratSubtract ball.midpoint ball.radius outLower

def realBallUpper (ball : RealBall) (outUpper : Bigrat) : ExactM Unit := do
  let context ← get
  if !initialized context ball then throw .invalidArgument
  else bigratAdd ball.midpoint ball.radius outUpper

def absoluteRational (value out : Bigrat) : ExactM Unit := do
  bigratCopy value out
  let context ← get
  if bigratSign context out < 0 then bigratNegate out out else pure ()

def realBallContainsZeroChecked (ball : RealBall) : ExactM Bool := do
  let context ← get
  if !initialized context ball then throw .invalidArgument
  else withRational fun magnitude => do
    absoluteRational ball.midpoint magnitude
    let order ← bigratCompare magnitude ball.radius
    pure (decide (order ≤ 0))

/-- A check that does not come to an end counts as zero. -/
def realBallContainsZero (ball : RealBall) : ExactM Bool := do
  let checked ← attempt (realBallContainsZeroChecked ball)
  pure (checked.getD true)

def realBallAdd (left right outSum : RealBall) : ExactM Unit := do
  let context ← get
  if !initialized context left || !initialized context right || !initialized context outSum then
    throw .invalidArgument
  else withBall fun temporary => do
    bigratAdd left.midpoint right.midpoint temporary.midpoint
    bigratAdd left.radius right.radius temporary.radius
    publish temporary outSum

def realBallSubtract (left right outDifference : RealBall) : ExactM Unit := do
  let context ← get
  if !initialized context left || !initialized context right || !initialized context outDifference then
    throw .invalidArgument
  else withBall fun temporary => do
    bigratSubtract left.midpoint right.midpoint temporary.midpoint
    bigratAdd left.radius right.radius temporary.radius
    publish temporary outDifference

def realBallMultiply (left right outProduct : RealBall) : ExactM Unit := do
  let context ← get
  if !initialized context left || !initialized context right || !initialized context outProduct then
    throw .invalidArgument
  else withBall fun temporary => withRational fun leftAbs => withRational fun rightAbs =>
    withRational fun first => withRational fun second => withRational fun third => do
      bigratMultiply left.midpoint right.midpoint temporary.midpoint
      absoluteRational left.midpoint leftAbs
      absoluteRational right.midpoint rightAbs
      bigratMultiply leftAbs right.radius first
      bigratMultiply rightAbs left.radius second
      bigratMultiply left.radius right.radius third
      bigratAdd first second temporary.radius
      bigratAdd temporary.radius third temporary.radius
      publish temporary outProduct

def realBallDivide (dividend divisor outQuotient : RealBall) : ExactM Unit := do
  let context ← get
  if !initialized context dividend || !initialized context divisor || !initialized context outQuotient then
    throw .invalidArgument
  else do
    let divisorContainsZero ← realBallContainsZeroChecked divisor
    if divisorContainsZero then throw .domain
    else withRational fun lower => withRational fun upper => withRational fun reciprocalLower =>
      withRational fun reciprocalUpper => do
        realBallLower divisor lower
        realBallUpper divisor upper
        bigratReciprocal upper reciprocalLower
        bigratReciprocal lower reciprocalUpper
        withBall fun reciprocal => do
          realBallSetInterval reciprocal reciprocalLower reciprocalUpper
          realBallMultiply dividend reciprocal outQuotient

/-- A product formed in the temporary replaces its first factor. -/
def multiplyWhen (condition : Bool) (left right temporary : RealBall) : ExactM Unit :=
  if condition then do
    realBallMultiply left right temporary
    realBallCopy temporary left
  else pure ()

/-- The square-and-multiply loop; an exponent of 32 bits is used up in 32 turns. -/
def powLoop (result factor temporary : RealBall) : Nat → Nat → ExactM Unit
  | 0, _ => pure ()
  | turns + 1, power =>
      if power ≠ 0 then do
        multiplyWhen (decide (power &&& 1 ≠ 0)) result factor temporary
        let power := power >>> 1
        multiplyWhen (decide (power ≠ 0)) factor factor temporary
        powLoop result factor temporary turns power
      else pure ()

def realBallPowI32 (base : RealBall) (exponent : Int32) (outPower : RealBall) : ExactM Unit := do
  let context ← get
  if !initialized context base || !initialized context outPower then throw .invalidArgument
  else do
    refuseZero
    withBall fun result => withBall fun factor => withBall fun temporary => do
      realBallSetI64 result 1 1
      realBallCopy base factor
      powLoop result factor temporary 32 (powMagnitude exponent).toNat
      reciprocate result factor temporary
      realBallCopy result outPower
where
  refuseZero : ExactM Unit :=
    if exponent < 0 then do
      let baseContainsZero ← realBallContainsZeroChecked base
      if baseContainsZero then throw .domain else pure ()
    else pure ()
  /-- A negative exponent ends with a division. -/
  reciprocate (result factor temporary : RealBall) : ExactM Unit :=
    if exponent < 0 then do
      realBallSetI64 factor 1 1
      realBallDivide factor result temporary
      realBallCopy temporary result
    else pure ()

/-- The two bounds of a bisection and the rationals that its turns work in. -/
structure Bisection where
  low : Bigrat
  high : Bigrat
  two : Bigrat
  midpoint : Bigrat
  square : Bigrat

namespace Bisection

/-- The end of a turn: the midpoint replaces a bound, or both when it is the root. -/
def narrow (bounds : Bisection) (order : Int) : ExactM Bool :=
  if order = 0 then do
    bigratCopy bounds.midpoint bounds.low
    bigratCopy bounds.midpoint bounds.high
    pure true
  else if order < 0 then do
    bigratCopy bounds.midpoint bounds.low
    pure false
  else do
    bigratCopy bounds.midpoint bounds.high
    pure false

def turn (bounds : Bisection) (value : Bigrat) : ExactM Bool := do
  bigratAdd bounds.low bounds.high bounds.midpoint
  bigratDivide bounds.midpoint bounds.two bounds.midpoint
  bigratMultiply bounds.midpoint bounds.midpoint bounds.square
  let order ← bigratCompare bounds.square value
  bounds.narrow order

def rounds (bounds : Bisection) (value : Bigrat) : Nat → ExactM Unit
  | 0 => pure ()
  | remaining + 1 => do
      let found ← bounds.turn value
      if found then pure () else bounds.rounds value remaining

end Bisection

def sqrtIntervalBound (value : Bigrat) (rounds : UInt32) (upperBound : Bool) (out : Bigrat) : ExactM Unit := do
  let context ← get
  if bigratSign context value < 0 then throw .domain
  else withRational fun low => withRational fun high => withRational fun one => withRational fun two =>
    withRational fun midpoint => withRational fun square => do
      bigratSetI64 low 0 1
      bigratSetI64 one 1 1
      bigratSetI64 two 2 1
      let order ← bigratCompare value one
      bigratCopy (if 0 < order then value else one) high
      (Bisection.mk low high two midpoint square).rounds value rounds.toNat
      bigratCopy (if upperBound then high else low) out

def realBallSqrt (argument : RealBall) (rounds : UInt32) (outRoot : RealBall) : ExactM Unit := do
  let context ← get
  if !initialized context argument || !initialized context outRoot then throw .invalidArgument
  else withRational fun lower => withRational fun upper => withRational fun rootLower =>
    withRational fun rootUpper => do
      realBallLower argument lower
      realBallUpper argument upper
      let context ← get
      if bigratSign context lower < 0 then throw .domain
      else do
        sqrtIntervalBound lower rounds false rootLower
        sqrtIntervalBound upper rounds true rootUpper
        realBallSetInterval outRoot rootLower rootUpper

end PhyNspire.Exact.RealBall

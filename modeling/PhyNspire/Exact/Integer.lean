import PhyNspire.Exact.Context

/-!
The base-2^32 signed integers of integer.c.

A public operation computes into a temporary and swaps it into its output only at the
end. Limbs are written as the C code writes them; `uint64_t` intermediates are reduced by
`u64`, and a limb keeps the low 32 bits of what is stored into it.
-/

namespace PhyNspire.Exact.Integer
open Platform Lib Lib.Stateful Context

def magnitudeI64 (value : Int64) : Nat :=
  if value < 0 then (~~~value.toUInt64 + 1).toNat else value.toUInt64.toNat

def compatible2 (context : ExactContext) (left right : Handle) : Bool :=
  context.bigintShallowValid left && context.bigintShallowValid right

def compatible3 (context : ExactContext) (left right output : Handle) : Bool :=
  compatible2 context left right && context.bigintShallowValid output

def adjust (handle : Handle) (change : Bigint → Bigint) : ExactM Unit :=
  modify fun context => context.store handle (change (context.payload handle))

def setLimb (index word : Nat) (value : Bigint) : Bigint :=
  { value with limbs := value.limbs.set index (BitVec.ofNat 32 word) }

/-- `value->limbs[value->count++] = word`. -/
def pushLimb (word : Nat) (value : Bigint) : Bigint :=
  { value with limbs := value.limbs ++ [BitVec.ofNat 32 word] }

def pushCarry (handle : Handle) (carry : Nat) : ExactM Unit :=
  if carry ≠ 0 then adjust handle (pushLimb carry) else pure ()

def withSign (sign : Int) (value : Bigint) : Bigint := { value with sign := sign }

def cleared (value : Bigint) : Bigint := { value with limbs := [], sign := 0 }

def bigintAssignU64 (handle : Handle) (magnitude : Nat) (sign : Int) : ExactM Unit := do
  let context ← get
  if !context.bigintShallowValid handle || decide (sign < -1) || decide (1 < sign) then
    throw .invalidArgument
  else if magnitude = 0 then adjust handle cleared
  else do
    let needed := if 0xffffffff < magnitude then 2 else 1
    bigintReserve handle needed
    let low := BitVec.ofNat 32 magnitude
    let high := BitVec.ofNat 32 (magnitude >>> 32)
    adjust handle fun value =>
      { value with
        limbs := if needed = 2 then [low, high] else [low]
        sign := if sign = 0 then 1 else sign }

def copyPayload (source destination : Handle) (magnitudeOnly : Bool) : ExactM Unit := do
  let context ← get
  bigintReserve destination (context.payload source).count
  let context ← get
  let copied := context.payload source
  adjust destination fun value =>
    { value with
      limbs := copied.limbs
      sign := if copied.limbs = [] then 0 else if magnitudeOnly then 1 else copied.sign }

def bigintSetI64 (value : Handle) (integer : Int64) : ExactM Unit := do
  let context ← get
  if !context.bigintShallowValid value then throw .invalidArgument
  else operation <| withTemporary fun temporary => do
    bigintAssignU64 temporary (magnitudeI64 integer)
      (if integer < 0 then -1 else if 0 < integer then 1 else 0)
    modify (bigintSwapPayload value temporary)

def bigintCopy (source destination : Handle) : ExactM Unit := do
  let context ← get
  if !compatible2 context source destination then throw .invalidArgument
  else operation do
    if source = destination then pure ()
    else withTemporary fun temporary => do
      copyPayload source temporary false
      modify (bigintSwapPayload destination temporary)

/-- The shift loop of `limb_bit_length`; a limb is zero after 32 turns. -/
def limbBitLength : Nat → Nat → Nat
  | 0, _ => 0
  | turns + 1, limb => if limb ≠ 0 then limbBitLength turns (limb >>> 1) + 1 else 0

def bitLength (value : Bigint) : Nat :=
  if value.count = 0 then 0
  else (value.count - 1) * 32 + limbBitLength 32 (Limbs.digit value.limbs (value.count - 1))

/-- The comparison loop of `phy_bigint_compare_abs`, from the top limb down. -/
def compareLimbs (left right : List (BitVec 32)) : Nat → Int
  | 0 => 0
  | index + 1 =>
      if Limbs.digit left index ≠ Limbs.digit right index then
        if Limbs.digit right index < Limbs.digit left index then 1 else -1
      else compareLimbs left right index

def compareAbs (left right : Bigint) : Int :=
  if left.count ≠ right.count then if right.count < left.count then 1 else -1
  else compareLimbs left.limbs right.limbs left.count

def bigintCompareAbs (context : ExactContext) (left right : Handle) : Int :=
  if !compatible2 context left right then 0
  else compareAbs (context.payload left) (context.payload right)

def bigintCompare (context : ExactContext) (left right : Handle) : Int :=
  if !compatible2 context left right then 0
  else
    let a := context.payload left
    let b := context.payload right
    if a.sign ≠ b.sign then if b.sign < a.sign then 1 else -1
    else if a.sign = 0 then 0
    else if 0 < a.sign then compareAbs a b else -compareAbs a b

/-- A pass over the limbs of a value in place, low to high. A column takes the index, the limb
and the carry to what is stored and the next carry. -/
def limbPass (handle : Handle) (column : Nat → Nat → Nat → Nat × Nat) (count carry : Nat) : ExactM Nat :=
  countUp (fun index carry => do
    exactStep 1
    let context ← get
    let next := column index (Limbs.digit (context.payload handle).limbs index) carry
    adjust handle (setLimb index next.1)
    pure next.2) count 0 carry

/-- A pass that writes fresh limbs, low to high, and hands them back with the last carry. -/
def limbColumns (column : Nat → Nat → Nat × Nat) (count : Nat) : ExactM (List (BitVec 32) × Nat) :=
  countUp (fun index acc => do
    exactStep 1
    let next := column index acc.2
    pure (acc.1 ++ [BitVec.ofNat 32 next.1], next.2)) count 0 ([], 0)

def multiplySmallInPlace (handle : Handle) (factor : Nat) : ExactM Unit := do
  let context ← get
  let count := (context.payload handle).count
  if count = 0 ∨ factor = 1 then pure ()
  else if factor = 0 then adjust handle cleared
  else do
    bigintReserve handle (count + 1)
    let carry ← limbPass handle (fun _ limb carry =>
      let product := u64 (u64 (limb * factor) + carry)
      (product, product >>> 32)) count 0
    pushCarry handle carry

/-- The loop of `add_small_in_place`, which ends with its carry. -/
def addSmallLoop (handle : Handle) : Nat → Nat → Nat → ExactM Nat
  | 0, _, carry => pure carry
  | remaining + 1, index, carry =>
      if carry ≠ 0 then do
        exactStep 1
        let context ← get
        let sum := u64 (Limbs.digit (context.payload handle).limbs index + carry)
        adjust handle (setLimb index sum)
        addSmallLoop handle remaining (index + 1) (sum >>> 32)
      else pure carry

def addSmallInPlace (handle : Handle) (addend : Nat) : ExactM Unit := do
  let context ← get
  let count := (context.payload handle).count
  if addend = 0 then pure ()
  else if count = 0 then bigintAssignU64 handle addend 1
  else do
    bigintReserve handle (count + 1)
    let carry ← addSmallLoop handle count 0 addend
    pushCarry handle carry

def readDigits (handle : Handle) : List UInt8 → ExactM Unit
  | [] => pure ()
  | digit :: rest => do
      multiplySmallInPlace handle 10
      addSmallInPlace handle (digit.toNat - 48)
      readDigits handle rest

def cString (memory : List UInt8) : List UInt8 := memory.takeWhile (· ≠ 0)

def splitSign : List UInt8 → Int × List UInt8
  | [] => (1, [])
  | first :: rest =>
      if first = 43 ∨ first = 45 then (if first = 45 then -1 else 1, rest) else (1, first :: rest)

def isDigit (byte : UInt8) : Bool := !(decide (byte < 48) || decide (57 < byte))

def bigintRead (value : Handle) (decimal : List UInt8) : ExactM Unit := do
  let context ← get
  if !context.bigintShallowValid value then throw .invalidArgument
  else operation do
    let (sign, digits) := splitSign (cString decimal)
    if digits = [] then throw .parse
    else if !digits.all isDigit then throw .parse
    else withTemporary fun temporary => do
      readDigits temporary digits
      adjust temporary fun read => if read.count ≠ 0 then withSign sign read else read
      modify (bigintSwapPayload value temporary)

def addMagnitudes (left right output : Handle) : ExactM Unit := do
  let context ← get
  let a := context.payload left
  let b := context.payload right
  let count := if b.count < a.count then a.count else b.count
  bigintReserve output (count + 1)
  let (limbs, carry) ← limbColumns (fun index carry =>
    let sum := u64 (u64 (Limbs.digit a.limbs index + Limbs.digit b.limbs index) + carry)
    (sum, sum >>> 32)) count
  adjust output fun value => { value with limbs := limbs }
  pushCarry output carry

/-- One column of a subtraction: the difference wraps in 64 bits and the borrow remembers it. -/
def borrowColumn (limb subtrahend borrow : Nat) : Nat × Nat :=
  let total := u64 (subtrahend + borrow)
  (u64 (limb + (2 ^ 64 - total)), if limb < total then 1 else 0)

def subtractMagnitudes (left right output : Handle) : ExactM Unit := do
  let context ← get
  let a := context.payload left
  let b := context.payload right
  bigintReserve output a.count
  let (limbs, borrow) ← limbColumns (fun index borrow =>
    borrowColumn (Limbs.digit a.limbs index) (Limbs.digit b.limbs index) borrow) a.count
  if borrow ≠ 0 then throw .corruptDocument
  else do
    adjust output fun value => { value with limbs := limbs, sign := 1 }
    modify (bigintNormalize output)

def addSigned (left right : Handle) (rightSign : Int) (output : Handle) : ExactM Unit := do
  let context ← get
  let a := context.payload left
  let b := context.payload right
  if a.count = 0 then do
    copyPayload right output false
    adjust output fun value => if value.count ≠ 0 then withSign rightSign value else value
  else if b.count = 0 then copyPayload left output false
  else if a.sign = rightSign then do
    addMagnitudes left right output
    adjust output (withSign a.sign)
  else
    let order := bigintCompareAbs context left right
    if order = 0 then adjust output cleared
    else do
      subtractMagnitudes (if 0 < order then left else right) (if 0 < order then right else left) output
      adjust output fun value =>
        if value.count ≠ 0 then withSign (if 0 < order then a.sign else rightSign) value else value

def bigintAdd (left right outSum : Handle) : ExactM Unit := do
  let context ← get
  if !compatible3 context left right outSum then throw .invalidArgument
  else operation <| withTemporary fun temporary => do
    let context ← get
    addSigned left right (context.payload right).sign temporary
    modify (bigintSwapPayload outSum temporary)

def bigintSubtract (left right outDifference : Handle) : ExactM Unit := do
  let context ← get
  if !compatible3 context left right outDifference then throw .invalidArgument
  else operation <| withTemporary fun temporary => do
    let context ← get
    addSigned left right (-(context.payload right).sign) temporary
    modify (bigintSwapPayload outDifference temporary)

def bigintNegate (value outValue : Handle) : ExactM Unit := do
  let context ← get
  if !compatible2 context value outValue then throw .invalidArgument
  else operation <| withTemporary fun temporary => do
    copyPayload value temporary false
    adjust temporary fun copied => if copied.count ≠ 0 then withSign (-copied.sign) copied else copied
    modify (bigintSwapPayload outValue temporary)

/-- Row `i` of the schoolbook product. The row's last carry is assigned, not added, to the
limb above the row. -/
def multiplyRow (a b : Bigint) (temporary : Handle) (i : Nat) : ExactM Unit := do
  let carry ← countUp (fun j carry => do
    exactStep 1
    let context ← get
    let position := i + j
    let product := u64 (u64 (u64 (Limbs.digit a.limbs i * Limbs.digit b.limbs j) +
      Limbs.digit (context.payload temporary).limbs position) + carry)
    adjust temporary (setLimb position product)
    pure (product >>> 32)) b.count 0 0
  let context ← get
  if i + b.count < (context.payload temporary).capacity then adjust temporary (setLimb (i + b.count) carry)
  else if carry ≠ 0 then throw .memoryLimit
  else pure ()

def multiplyLimbs (left right temporary : Handle) : ExactM Unit := do
  let context ← get
  let a := context.payload left
  let b := context.payload right
  if sizeMax - b.count < a.count then throw .memoryLimit
  else
    let fullCount := a.count + b.count
    let minimumCount := fullCount - 1
    let count := if fullCount ≤ context.maxLimbs then fullCount else minimumCount
    if context.maxLimbs < minimumCount then throw .memoryLimit
    else do
      bigintReserve temporary count
      adjust temporary fun value =>
        { value with
          limbs := List.replicate count 0#32
          sign := if a.sign = b.sign then 1 else -1 }
      countUp (fun i _ => multiplyRow a b temporary i) a.count 0 ()
      modify (bigintNormalize temporary)

def bigintMultiply (left right outProduct : Handle) : ExactM Unit := do
  let context ← get
  if !compatible3 context left right outProduct then throw .invalidArgument
  else operation <| withTemporary fun temporary => do
    let context ← get
    if (context.payload left).count ≠ 0 ∧ (context.payload right).count ≠ 0 then
      multiplyLimbs left right temporary
    else pure ()
    modify (bigintSwapPayload outProduct temporary)

def multiplyWhen (condition : Bool) (left right outProduct : Handle) : ExactM Unit :=
  if condition then bigintMultiply left right outProduct else pure ()

/-- The square-and-multiply loop; an exponent of 32 bits is used up in 32 turns. -/
def powLoop (result factor : Handle) : Nat → Nat → ExactM Unit
  | 0, _ => pure ()
  | turns + 1, remaining =>
      if remaining ≠ 0 then do
        multiplyWhen (decide (remaining &&& 1 ≠ 0)) result factor result
        let remaining := remaining >>> 1
        multiplyWhen (decide (remaining ≠ 0)) factor factor factor
        powLoop result factor turns remaining
      else pure ()

def bigintPowU32 (base : Handle) (exponent : UInt32) (outPower : Handle) : ExactM Unit := do
  let context ← get
  if !compatible2 context base outPower then throw .invalidArgument
  else operation <| withTemporary fun result => withTemporary fun factor => do
    bigintAssignU64 result 1 1
    copyPayload base factor false
    powLoop result factor 32 exponent.toNat
    modify (bigintSwapPayload outPower result)

def bitAt (value : Bigint) (bit : Nat) : Bool :=
  decide (bit / 32 < value.count) && decide ((Limbs.digit value.limbs (bit / 32) >>> (bit % 32)) &&& 1 ≠ 0)

/-- Zero limbs up to `count` of them. -/
def padded (count : Nat) (value : Bigint) : Bigint :=
  { value with limbs := value.limbs ++ List.replicate (count - value.count) 0#32 }

def setBit (handle : Handle) (bit : Nat) : ExactM Unit := do
  bigintReserve handle (bit / 32 + 1)
  adjust handle (padded (bit / 32 + 1))
  adjust handle fun value =>
    withSign 1 (setLimb (bit / 32) (Limbs.digit value.limbs (bit / 32) ||| 1 <<< (bit % 32)) value)

def shiftLeftOne (handle : Handle) (lowBit : Bool) : ExactM Unit := do
  let context ← get
  let value := context.payload handle
  let grows := value.count = 0 ∨ Limbs.digit value.limbs (value.count - 1) &&& 0x80000000 ≠ 0
  bigintReserve handle (value.count + if grows then 1 else 0)
  let carry ← limbPass handle (fun _ limb carry =>
    let shifted := u64 (limb <<< 1) ||| carry
    (shifted, shifted >>> 32)) value.count (if lowBit then 1 else 0)
  pushCarry handle carry
  adjust handle fun value => if value.count ≠ 0 then withSign 1 value else value

def subtractAbsInPlace (handle subtrahend : Handle) : ExactM Unit := do
  let context ← get
  let b := context.payload subtrahend
  let borrow ← limbPass handle (fun index limb borrow => borrowColumn limb (Limbs.digit b.limbs index) borrow)
    (context.payload handle).count 0
  if borrow ≠ 0 then throw .corruptDocument
  else do
    modify (bigintNormalize handle)
    adjust handle fun value => if value.count ≠ 0 then withSign 1 value else value

/-- The fast path for a divisor of one limb. The quotient's limbs come from the top down. -/
def divideByLimb (dividend quotient remainder : Handle) (small : Nat) : ExactM Unit := do
  let context ← get
  let a := context.payload dividend
  bigintReserve quotient a.count
  let (limbs, carry) ← countDown (fun index acc => do
    exactStep 1
    let current := u64 (acc.2 <<< 32) ||| Limbs.digit a.limbs index
    pure (BitVec.ofNat 32 (current / small) :: acc.1, current % small)) a.count ([], 0)
  adjust quotient fun value => { value with limbs := limbs, sign := 1 }
  modify (bigintNormalize quotient)
  bigintAssignU64 remainder carry (if carry ≠ 0 then 1 else 0)

def divideBit (dividend divisor quotient remainder : Handle) (bit : Nat) : ExactM Unit := do
  exactStep 1
  let context ← get
  shiftLeftOne remainder (bitAt (context.payload dividend) bit)
  let context ← get
  if 0 ≤ bigintCompareAbs context remainder divisor then do
    subtractAbsInPlace remainder divisor
    setBit quotient bit
  else pure ()

def divmodAbs (dividend divisor quotient remainder : Handle) : ExactM Unit := do
  adjust quotient cleared
  adjust remainder cleared
  let context ← get
  if bigintCompareAbs context dividend divisor < 0 then copyPayload dividend remainder true
  else if (context.payload divisor).count = 1 then
    divideByLimb dividend quotient remainder (Limbs.digit (context.payload divisor).limbs 0)
  else
    ensuring (fun context => bigintNormalize remainder (bigintNormalize quotient context)) do
      bigintReserve quotient (context.payload dividend).count
      countDown (fun bit _ => divideBit dividend divisor quotient remainder bit)
        (bitLength (context.payload dividend)) ()

def bigintDivmod (dividend divisor outQuotient outRemainder : Handle) : ExactM Unit := do
  let context ← get
  if !compatible3 context dividend divisor outQuotient || !context.bigintShallowValid outRemainder ||
      decide (outQuotient = outRemainder) then throw .invalidArgument
  else if (context.payload divisor).count = 0 then throw .domain
  else operation <| withTemporary fun quotient => withTemporary fun remainder => do
    divmodAbs dividend divisor quotient remainder
    let context ← get
    let a := context.payload dividend
    let b := context.payload divisor
    adjust quotient fun value =>
      if value.count ≠ 0 then withSign (if a.sign = b.sign then 1 else -1) value else value
    adjust remainder fun value => if value.count ≠ 0 then withSign a.sign value else value
    modify (bigintSwapPayload outQuotient quotient)
    modify (bigintSwapPayload outRemainder remainder)

def bigintDivideExact (dividend divisor outQuotient : Handle) : ExactM Unit := do
  let context ← get
  if !compatible3 context dividend divisor outQuotient then throw .invalidArgument
  else operation <| withTemporary fun quotient => withTemporary fun remainder => do
    bigintDivmod dividend divisor quotient remainder
    let context ← get
    if (context.payload remainder).count ≠ 0 then throw .domain
    else modify (bigintSwapPayload outQuotient quotient)

/-- Euclid's loop. Every turn makes `b` smaller, so its magnitude bounds the turns. -/
def gcdLoop (a b quotient remainder : Handle) : Nat → ExactM Unit
  | 0 => pure ()
  | turns + 1 => do
      let context ← get
      if (context.payload b).count ≠ 0 then do
        bigintDivmod a b quotient remainder
        modify (bigintSwapPayload a b)
        modify (bigintSwapPayload b remainder)
        gcdLoop a b quotient remainder turns
      else pure ()

def bigintGcd (left right outGcd : Handle) : ExactM Unit := do
  let context ← get
  if !compatible3 context left right outGcd then throw .invalidArgument
  else operation <| withTemporary fun a => withTemporary fun b =>
    withTemporary fun quotient => withTemporary fun remainder => do
      copyPayload left a true
      copyPayload right b true
      let context ← get
      gcdLoop a b quotient remainder (Limbs.value (context.payload b).limbs)
      modify (bigintSwapPayload outGcd a)

def bigintModU32 (value : Handle) (modulus : UInt32) : ExactM UInt32 := do
  let context ← get
  if !context.bigintShallowValid value then throw .invalidArgument
  else if modulus = 0 then throw .domain
  else operation do
    let a := context.payload value
    let remainder ← countDown (fun index remainder => do
      exactStep 1
      pure ((u64 (remainder <<< 32) ||| Limbs.digit a.limbs index) % modulus.toNat)) a.count 0
    let remainder := if a.sign < 0 ∧ remainder ≠ 0 then modulus.toNat - remainder else remainder
    pure (UInt32.ofNat remainder)

end PhyNspire.Exact.Integer

import PhyNspire.Platform
import PhyNspire.Lib.Limbs
import PhyNspire.Lib.Registry
import PhyNspire.Lib.Stateful

/-!
The exact context of context.c: bounded allocation, lifecycle, cancellation and
operation accounting.

The linked list of handles is a registry keyed by the handle's address. A temporary of
the C stack is a handle registered for the time its body runs. The `limbs` pointer is
null exactly when the capacity is zero.
-/

namespace PhyNspire.Exact.Context
open Platform Lib Lib.Stateful Lib.Registry

/-- The address of a `phy_bigint`: an object of its own, or a field of the `phy_bigrat` at
an address. Two handles overlap only when they are equal. -/
inductive Handle where
  | object (address : Nat)
  | numerator (address : Nat)
  | denominator (address : Nat)
deriving DecidableEq, Repr

def Handle.address : Handle → Nat
  | .object address => address
  | .numerator address => address
  | .denominator address => address

structure ExactLimits where
  maxLimbs : UInt32
  maxSteps : UInt32
  maxBytes : UInt32
deriving DecidableEq, Repr

def exactLimitsDefaults : ExactLimits := ⟨256, 4000000, 256 * 1024⟩

def exactMaxLimbsCeiling : UInt32 := 1048576

def limbSize : Nat := 4

/-- `sizeof(phy_exact_context)` on the device. -/
def contextSize : Nat := 56

/-- `phy_bigint`: the first `count` limbs, the allocated capacity and the sign. -/
structure Bigint where
  limbs : List (BitVec 32)
  capacity : Nat
  sign : Int
deriving DecidableEq, Repr

def Bigint.count (value : Bigint) : Nat := value.limbs.length

def Bigint.empty : Bigint := ⟨[], 0, 0⟩

structure ExactContext where
  limits : ExactLimits
  bytes : Nat
  steps : Nat
  operationDepth : Nat
  cancelled : Option (Nat → Bool)
  polls : Nat
  values : Entries Handle Bigint
  valueCount : Nat
  heap : Heap

/-- An operation stops with a status other than `PHY_OK`, or returns. -/
abbrev ExactM := EStateM Status ExactContext

def resolveLimits (requested : Option ExactLimits) : ExactLimits :=
  let defaults := exactLimitsDefaults
  let resolved := requested.getD defaults
  let maxLimbs := if resolved.maxLimbs = 0 then defaults.maxLimbs else resolved.maxLimbs
  { maxLimbs := if exactMaxLimbsCeiling < maxLimbs then exactMaxLimbsCeiling else maxLimbs
    maxSteps := if resolved.maxSteps = 0 then defaults.maxSteps else resolved.maxSteps
    maxBytes := if resolved.maxBytes = 0 then defaults.maxBytes else resolved.maxBytes }

/-- `NULL` leaves the heap as the failed request left it. -/
def exactContextCreate (limits : Option ExactLimits) (heap : Heap) : Option ExactContext × Heap :=
  let resolved := resolveLimits limits
  if resolved.maxLimbs = 0 ∨ resolved.maxSteps = 0 ∨ resolved.maxBytes.toNat < contextSize then
    (none, heap)
  else
    let (granted, heap) := heap.alloc
    if granted then
      (some
        { limits := resolved
          bytes := contextSize
          steps := 0
          operationDepth := 0
          cancelled := none
          polls := 0
          values := []
          valueCount := 0
          heap := heap }, heap)
    else (none, heap)

def exactSetCancel (cancelled : Option (Nat → Bool)) (context : ExactContext) : ExactContext :=
  { context with cancelled := cancelled, polls := 0 }

namespace ExactContext

def maxLimbs (context : ExactContext) : Nat := context.limits.maxLimbs.toNat

def lookup (context : ExactContext) (handle : Handle) : Option Bigint := find handle context.values

/-- The payload behind a handle, for reads that a validity check has guarded. -/
def payload (context : ExactContext) (handle : Handle) : Bigint := (context.lookup handle).getD .empty

def store (context : ExactContext) (handle : Handle) (value : Bigint) : ExactContext :=
  { context with values := update handle value context.values }

def discharge (context : ExactContext) (bytes : Nat) : ExactContext :=
  { context with bytes := context.bytes - min bytes context.bytes }

end ExactContext

def checkedBytes (count element : Nat) : Option Nat :=
  if count ≠ 0 ∧ sizeMax / count < element then none else some (count * element)

def charge (bytes : Nat) : ExactM Bool := do
  let context ← get
  if context.limits.maxBytes.toNat - context.bytes < bytes then
    pure false
  else do
    set { context with bytes := context.bytes + bytes }
    pure true

/-- `phy_alloc` of a charged block; the charge is taken back when it fails. -/
def allocate (bytes : Nat) : ExactM Unit := do
  let context ← get
  let (granted, heap) := context.heap.alloc
  if granted then
    set { context with heap := heap }
  else do
    set ({ context with heap := heap }.discharge bytes)
    throw .outOfMemory

/-- The numeric invariant that `phy_bigint_shallow_valid` checks on one value. -/
def Bigint.valid (value : Bigint) (maxLimbs : Nat) : Bool :=
  decide (value.count ≤ value.capacity) && decide (value.capacity ≤ maxLimbs) &&
    decide (-1 ≤ value.sign) && decide (value.sign ≤ 1) &&
      match value.limbs.getLast? with
      | none => decide (value.sign = 0)
      | some top => decide (value.sign ≠ 0) && decide (top ≠ 0#32)

def ExactContext.bigintShallowValid (context : ExactContext) (handle : Handle) : Bool :=
  match context.lookup handle with
  | none => false
  | some value => value.valid context.maxLimbs

/-- The walk of `phy_exact_validate` over the registered values, with its running totals. -/
def validateValues (context : ExactContext) : Entries Handle Bigint → Nat → Nat → Bool
  | [], count, bytes => decide (count = context.valueCount) && decide (bytes = context.bytes)
  | entry :: rest, count, bytes =>
      if !entry.2.valid context.maxLimbs || decide (context.valueCount ≤ count) then false
      else match checkedBytes entry.2.capacity limbSize with
        | none => false
        | some limbBytes =>
            if sizeMax - bytes < limbBytes then false
            else validateValues context rest (count + 1) (bytes + limbBytes)

def exactValidate (context : ExactContext) : Status :=
  if context.bytes < contextSize ∨ context.limits.maxBytes.toNat < context.bytes then .corruptDocument
  else if validateValues context context.values 0 contextSize then .ok
  else .corruptDocument

def exactOperationBegin (context : ExactContext) : ExactContext :=
  { context with
    steps := if context.operationDepth = 0 then 0 else context.steps
    operationDepth := context.operationDepth + 1 }

def exactOperationEnd (context : ExactContext) : ExactContext :=
  { context with operationDepth := context.operationDepth - 1 }

/-- The bracket of a public operation; every return passes through its end. -/
def operation {α : Type} (body : ExactM α) : ExactM α := do
  modify exactOperationBegin
  ensuring exactOperationEnd body

def exactStep (amount : Nat) : ExactM Unit := do
  let context ← get
  if context.limits.maxSteps.toNat - context.steps < amount then
    throw .timeout
  else do
    let context := { context with steps := context.steps + amount }
    match context.cancelled with
    | none => set context
    | some cancelled =>
        set { context with polls := context.polls + 1 }
        if cancelled context.polls then throw .interrupted else pure ()

def exactTempAlloc (bytes : Nat) : ExactM Unit := do
  if bytes = 0 then throw .invalidArgument
  else do
    let affordable ← charge bytes
    if affordable then allocate bytes else throw .memoryLimit

def bigintInit (handle : Handle) (context : ExactContext) : ExactContext :=
  { context with
    values := (handle, .empty) :: context.values
    valueCount := context.valueCount + 1 }

def bigintDestroy (handle : Handle) (context : ExactContext) : ExactContext :=
  match context.lookup handle with
  | none => context
  | some value =>
      let context := if value.capacity = 0 then context else context.discharge (value.capacity * limbSize)
      { context with
        values := remove handle context.values
        valueCount := context.valueCount - 1 }

/-- The end of the stack: no live handle is at this address. -/
def freshAddress (context : ExactContext) : Nat :=
  ((keys context.values).map Handle.address).sum + 1

/-- A handle on the C stack: initialized at a new address and destroyed on every return. -/
def withTemporary {α : Type} (body : Handle → ExactM α) : ExactM α := do
  let context ← get
  let temporary := Handle.object (freshAddress context)
  set (bigintInit temporary context)
  ensuring (bigintDestroy temporary) (body temporary)

/-- The doubling loop of `phy_bigint_reserve`. Each turn adds at least one limb, so `needed`
turns are enough. -/
def growCapacity (maxLimbs needed : Nat) : Nat → Nat → Option Nat
  | 0, capacity => if capacity < needed then none else some capacity
  | turns + 1, capacity =>
      if capacity < needed then
        let doubled := if capacity ≤ maxLimbs / 2 then capacity * 2 else maxLimbs
        if doubled = capacity then none else growCapacity maxLimbs needed turns doubled
      else some capacity

def bigintReserve (handle : Handle) (needed : Nat) : ExactM Unit := do
  let context ← get
  let value := context.payload handle
  if !context.bigintShallowValid handle then throw .invalidArgument
  else if needed ≤ value.capacity then pure ()
  else if context.maxLimbs < needed then throw .memoryLimit
  else
    match growCapacity context.maxLimbs needed needed (if value.capacity ≠ 0 then value.capacity else 1) with
    | none => throw .memoryLimit
    | some capacity =>
        match checkedBytes capacity limbSize with
        | none => throw .memoryLimit
        | some bytes => do
            let affordable ← charge bytes
            if affordable then do
              allocate bytes
              if value.capacity ≠ 0 then modify (·.discharge (value.capacity * limbSize))
              else pure ()
              modify (·.store handle { value with capacity := capacity })
            else throw .memoryLimit

def Bigint.normalize (value : Bigint) : Bigint :=
  let limbs := Limbs.trim value.limbs
  { value with limbs := limbs, sign := if limbs = [] then 0 else value.sign }

def bigintNormalize (handle : Handle) (context : ExactContext) : ExactContext :=
  context.store handle (context.payload handle).normalize

def bigintSwapPayload (left right : Handle) (context : ExactContext) : ExactContext :=
  (context.store left (context.payload right)).store right (context.payload left)

end PhyNspire.Exact.Context

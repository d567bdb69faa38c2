import PhyNspire.Ir.Expressions
import PhyNspire.Lib.Chains

/-!
The IR context of ir.c: its pools, their growth under the byte ceiling, and creation.

A pool's `data` and `count` are a list, its `capacity` is kept apart with the other
capacities: it decides when the next growth happens and nothing else. A pool has data
exactly when its capacity is not zero.
-/

namespace PhyNspire.Ir.Context
open Platform Lib Lib.Stateful Expressions

structure IrLimits where
  maxNodes : UInt32
  maxDepth : UInt32
  maxChildren : UInt32
  maxBytes : UInt32
deriving DecidableEq, Repr

def irLimitsDefaults : IrLimits := ⟨200000, 256, 4096, 8 * 1024 * 1024⟩

def maxDepthCeiling : UInt32 := 1024

def maxChildrenCeiling : UInt32 := 65535

/-- The union of a node. -/
inductive Payload where
  | none
  | childOffset (offset : Nat)
  | rationalIndex (index : Nat)
  | indexSpace (space : Nat)
  | integer (value : Int64)
  | real (bits : UInt64)
deriving DecidableEq, Repr

namespace Payload

/-- `u.child_offset` and the fields that overlay it. -/
def word : Payload → Nat
  | childOffset offset => offset
  | rationalIndex index => index
  | indexSpace space => space
  | _ => 0

def integerValue : Payload → Int64
  | integer value => value
  | _ => 0

def realBits : Payload → UInt64
  | real bits => bits
  | _ => 0

end Payload

/-- `phy_ir_node`. -/
structure Node where
  kind : Kind
  aux : Nat
  depth : Nat
  childCount : Nat
  hash : UInt32
  internNext : Nat
  head : Nat
  payload : Payload
deriving DecidableEq, Repr

/-- `PHY_IR_EXACT_BIG`, the `aux` of a promoted exact number. -/
def exactBig : Nat := 0x80

def Node.null : Node := ⟨.invalid, 0, 0, 0, 0, 0, 0, .none⟩

/-- `phy_ir_rat`. -/
structure Rat64 where
  numerator : Int64
  denominator : Int64
deriving DecidableEq, Repr

structure BigExact where
  numeratorOffset : Nat
  numeratorLength : Nat
  denominatorOffset : Nat
  denominatorLength : Nat
deriving DecidableEq, Repr

structure SymbolRecord where
  nameOffset : Nat
  nameLength : Nat
  nameHash : UInt32
  assumptions : UInt32
  symmetryHead : Nat
  internNext : Nat
deriving DecidableEq, Repr

def SymbolRecord.null : SymbolRecord := ⟨0, 0, 0, 0, 0, 0⟩

structure SymmetryRecord where
  slotA : Nat
  slotB : Nat
  next : Nat
  symmetry : Nat
deriving DecidableEq, Repr

def SymmetryRecord.null : SymmetryRecord := ⟨0, 0, 0, 0⟩

/-- The elements of the pools. Element zero of `nodes`, `symbols` and `symmetries` is a sentinel. -/
structure Pools where
  nodes : List Node
  children : List Nat
  rationals : List Rat64
  bigExacts : List BigExact
  exactText : List UInt8
  symbols : List SymbolRecord
  strings : List UInt8
  symmetries : List SymmetryRecord
  nodeBuckets : List Nat
  symbolBuckets : List Nat
deriving DecidableEq

inductive PoolName where
  | nodes
  | children
  | rationals
  | bigExacts
  | exactText
  | symbols
  | strings
  | symmetries
  | nodeBuckets
  | symbolBuckets
  | scratch
deriving DecidableEq, Repr

/-- `sizeof` the elements on the device. -/
def PoolName.elemSize : PoolName → Nat
  | nodes => 32
  | children => 4
  | rationals => 16
  | bigExacts => 16
  | exactText => 1
  | symbols => 24
  | strings => 1
  | symmetries => 16
  | nodeBuckets => 4
  | symbolBuckets => 4
  | scratch => 4

def contextSize : Nat := 156

structure IrContext where
  limits : IrLimits
  error : Status
  bytes : Nat
  pools : Pools
  capacities : PoolName → Nat
  heap : Heap

/-- `PHY_IR_NULL`, `PHY_IR_NO_SYMBOL` or `false`: why is in the context. -/
inductive Refusal where
  | null
deriving DecidableEq, Repr

abbrev IrM := EStateM Refusal IrContext

def setError (status : Status) : IrM Unit :=
  modify fun context => { context with error := if context.error = .ok then status else context.error }

def refuse {α : Type} (status : Status) : IrM α := do
  setError status
  throw .null

def irClearError (context : IrContext) : IrContext := { context with error := .ok }

def changePools (change : Pools → Pools) : IrM Unit :=
  modify fun context => { context with pools := change context.pools }

def IrContext.discharge (context : IrContext) (amount : Nat) : IrContext :=
  { context with bytes := context.bytes - min amount context.bytes }

def charge (extra : Nat) : IrM Unit := do
  let context ← get
  let maxBytes := context.limits.maxBytes.toNat
  if maxBytes ≤ context.bytes ∨ maxBytes - context.bytes < extra then refuse .memoryLimit
  else set { context with bytes := context.bytes + extra }

/-- The doubling loop of `phy_ir_pool_reserve`; a capacity has at most 32 bits. -/
def growCapacity (needed : Nat) : Nat → Nat → Nat
  | 0, capacity => capacity
  | turns + 1, capacity =>
      if capacity < needed then
        if sizeMax / 2 < capacity then needed else growCapacity needed turns (capacity * 2)
      else capacity

/-- The new block stands beside the old one until the elements are copied. -/
def poolReserve (elemSize capacity needed : Nat) : IrM Nat := do
  if needed ≤ capacity then pure capacity
  else
    let grown := growCapacity needed 32 (if capacity ≠ 0 then capacity else 16)
    if sizeMax / elemSize < grown then refuse .memoryLimit
    else do
      charge (grown * elemSize)
      let context ← get
      let (granted, heap) := context.heap.alloc
      if granted then do
        set { context with heap := heap }
        if capacity ≠ 0 then modify (·.discharge (capacity * elemSize)) else pure ()
        pure grown
      else do
        set ({ context with heap := heap }.discharge (grown * elemSize))
        refuse .outOfMemory

def setCapacity (pool : PoolName) (capacity : Nat) : IrM Unit :=
  modify fun context => { context with capacities := Function.update context.capacities pool capacity }

def reserve (pool : PoolName) (needed : Nat) : IrM Unit := do
  let context ← get
  let capacity ← poolReserve pool.elemSize (context.capacities pool) needed
  setCapacity pool capacity

def pushNode (node : Node) : IrM Nat := do
  let context ← get
  reserve .nodes (context.pools.nodes.length + 1)
  changePools fun pools => { pools with nodes := pools.nodes ++ [node] }
  pure context.pools.nodes.length

def pushSymbol (record : SymbolRecord) : IrM Nat := do
  let context ← get
  reserve .symbols (context.pools.symbols.length + 1)
  changePools fun pools => { pools with symbols := pools.symbols ++ [record] }
  pure context.pools.symbols.length

def pushSymmetry (record : SymmetryRecord) : IrM Nat := do
  let context ← get
  reserve .symmetries (context.pools.symmetries.length + 1)
  changePools fun pools => { pools with symmetries := pools.symmetries ++ [record] }
  pure context.pools.symmetries.length

def pushRational (rational : Rat64) : IrM Nat := do
  let context ← get
  reserve .rationals (context.pools.rationals.length + 1)
  changePools fun pools => { pools with rationals := pools.rationals ++ [rational] }
  pure context.pools.rationals.length

def pushBigExact (record : BigExact) : IrM Nat := do
  let context ← get
  reserve .bigExacts (context.pools.bigExacts.length + 1)
  changePools fun pools => { pools with bigExacts := pools.bigExacts ++ [record] }
  pure context.pools.bigExacts.length

def bucketsInit (count : Nat) : IrM (Nat × List Nat) := do
  let capacity ← poolReserve 4 0 count
  pure (capacity, List.replicate count 0)

/-- Zero fields take their defaults, deep and wide requests are clamped, and a budget below
64 KiB is refused. -/
def resolveLimits (requested : IrLimits) : Option IrLimits :=
  let defaults := irLimitsDefaults
  let maxDepth := if requested.maxDepth = 0 then defaults.maxDepth else requested.maxDepth
  let maxChildren := if requested.maxChildren = 0 then defaults.maxChildren else requested.maxChildren
  let maxBytes := if requested.maxBytes = 0 then defaults.maxBytes else requested.maxBytes
  if maxBytes < 64 * 1024 then none
  else some
    { maxNodes := if requested.maxNodes = 0 then defaults.maxNodes else requested.maxNodes
      maxDepth := if maxDepthCeiling < maxDepth then maxDepthCeiling else maxDepth
      maxChildren := if maxChildrenCeiling < maxChildren then maxChildrenCeiling else maxChildren
      maxBytes := maxBytes }

/-- The sentinels and the empty tables of a fresh context. -/
def openPools : IrM Unit := do
  let _ ← pushNode .null
  let _ ← pushSymbol .null
  let _ ← pushSymmetry .null
  let (capacity, table) ← bucketsInit 256
  setCapacity .nodeBuckets capacity
  changePools fun pools => { pools with nodeBuckets := table }
  let (capacity, table) ← bucketsInit 128
  setCapacity .symbolBuckets capacity
  changePools fun pools => { pools with symbolBuckets := table }

/-- `NULL` leaves the heap as the failed requests left it. -/
def irContextCreate (limits : Option IrLimits) (heap : Heap) : Option IrContext × Heap :=
  match resolveLimits (limits.getD ⟨0, 0, 0, 0⟩) with
  | none => (none, heap)
  | some resolved =>
      let (granted, heap) := heap.alloc
      if granted then
        let blank : IrContext :=
          { limits := resolved
            error := .ok
            bytes := contextSize
            pools := ⟨[], [], [], [], [], [], [], [], [], []⟩
            capacities := fun _ => 0
            heap := heap }
        match openPools blank with
        | .ok _ context => (some context, context.heap)
        | .error _ context => (none, context.heap)
      else (none, heap)

/-- `phy_ir_node_at`. -/
def nodeAt (pools : Pools) (ref : Nat) : Option Node := if ref = 0 then none else pools.nodes[ref]?

/-- `phy_ir_symbol_at`. -/
def symbolAt (pools : Pools) (symbol : Nat) : Option SymbolRecord :=
  if symbol = 0 then none else pools.symbols[symbol]?

/-- A run of a pool. -/
def slice {α : Type} (items : List α) (offset length : Nat) : List α := (items.drop offset).take length

def childrenOf (pools : Pools) (node : Node) : List Nat := slice pools.children node.payload.word node.childCount

def kindOf (pools : Pools) (ref : Nat) : Kind := ((nodeAt pools ref).map Node.kind).getD .invalid

def irHash (pools : Pools) (ref : Nat) : UInt32 := ((nodeAt pools ref).map Node.hash).getD 0

/-- Tables have a power of two slots, so the mask is the remainder. -/
def bucketOf (hash : UInt32) (size : Nat) : Nat := hash.toNat &&& (size - 1)

theorem bucketOf_lt (hash : UInt32) {size : Nat} (positive : 0 < size) : bucketOf hash size < size := by
  have below : bucketOf hash size ≤ size - 1 := Nat.and_le_right
  omega

/-- Only the accounts have moved: bytes, capacities, the pending error and the heap. -/
structure Kept (s t : IrContext) : Prop where
  pools : t.pools = s.pools
  limits : t.limits = s.limits

section

variable {s t u : IrContext}

theorem Kept.refl (s : IrContext) : Kept s s := ⟨rfl, rfl⟩

theorem Kept.trans (first : Kept s t) (second : Kept t u) : Kept s u :=
  ⟨second.pools.trans first.pools, second.limits.trans first.limits⟩

theorem wp_refuse {α : Type} {good : α → IrContext → Prop} {bad : Refusal → IrContext → Prop} (status : Status)
    (stops : ∀ t, Kept s t → bad .null t) : wp (refuse status : IrM α) good bad s :=
  stops _ ⟨rfl, rfl⟩

theorem poolReserve_spec (elemSize capacity needed : Nat) :
    wp (poolReserve elemSize capacity needed) (fun _ t => Kept s t) (fun _ t => Kept s t) s := by
  unfold poolReserve charge
  apply wp_ite
  · intro _
    exact .refl s
  intro _
  dsimp only
  apply wp_ite
  · intro _
    exact wp_refuse _ (fun _ kept => kept)
  intro _
  simp only [wp_bind, wp_get]
  apply wp_ite
  · intro _
    exact wp_refuse _ (fun _ kept => kept)
  intro _
  simp only [wp_set, Heap.alloc]
  apply wp_ite
  · intro _
    simp only [wp_bind, wp_set]
    apply wp_ite
    · intro _
      exact ⟨rfl, rfl⟩
    · intro _
      exact ⟨rfl, rfl⟩
  · intro _
    simp only [wp_bind, wp_set]
    exact wp_refuse _ (fun _ kept => ⟨kept.pools, kept.limits⟩)

theorem reserve_spec (pool : PoolName) (needed : Nat) :
    wp (reserve pool needed) (fun _ t => Kept s t) (fun _ t => Kept s t) s := by
  unfold reserve setCapacity
  simp only [wp_bind, wp_get, wp_modify]
  exact wp_good (poolReserve_spec _ _ _) fun _ _ kept => ⟨kept.pools, kept.limits⟩

end

end PhyNspire.Ir.Context

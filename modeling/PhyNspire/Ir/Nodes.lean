import PhyNspire.Ir.Context

/-!
Symbols of ir.c: interning of names, assumptions and slot symmetries.
-/

namespace PhyNspire.Ir.Symbols
open Platform Lib Lib.Stateful Lib.Chains Expressions Context

def symbolBucket (size : Nat) (record : SymbolRecord) : Nat := bucketOf record.nameHash size

def linkSymbol (link : Nat) (record : SymbolRecord) : SymbolRecord := { record with internNext := link }

def nameOf (pools : Pools) (record : SymbolRecord) : Name := slice pools.strings record.nameOffset record.nameLength

/-- A failed rehash is not a failed operation: the pending error is restored. -/
def symbolRehash : IrM Unit := do
  let context ← get
  let buckets := context.pools.symbolBuckets.length
  if context.pools.symbols.length ≤ buckets - buckets / 4 then pure ()
  else do
    match ← attempt (bucketsInit (buckets * 2)) with
    | none => modify fun failed => { failed with error := context.error }
    | some (capacity, _) => do
        modify (·.discharge (context.capacities .symbolBuckets * 4))
        setCapacity .symbolBuckets capacity
        changePools fun pools =>
          let filed := rehash (symbolBucket (buckets * 2)) linkSymbol (buckets * 2) pools.symbols
          { pools with symbols := filed.1, symbolBuckets := filed.2 }

/-- The search of `phy_ir_intern_n` along one bucket. -/
def findSymbol (pools : Pools) (name : Name) : Option Nat :=
  let hash := hashName name
  let hit (symbol : Nat) : Bool :=
    match pools.symbols[symbol]? with
    | none => false
    | some record =>
        decide (record.nameHash = hash) && decide (record.nameLength = name.length) && decide (nameOf pools record = name)
  walk (nextAt SymbolRecord.internNext pools.symbols) hit pools.symbols.length
    (pools.symbolBuckets.getD (bucketOf hash pools.symbolBuckets.length) 0)

/-- The second half of `phy_ir_intern_n`: copy the name, then publish the record. The copy is
taken back when the record cannot be published. -/
def publishSymbol (name : Name) : IrM Nat := do
  let context ← get
  let offset := context.pools.strings.length
  reserve .strings (offset + name.length + 1)
  changePools fun pools => { pools with strings := pools.strings ++ (name ++ [0]) }
  let hash := hashName name
  let bucket := bucketOf hash context.pools.symbolBuckets.length
  let record : SymbolRecord :=
    { nameOffset := offset
      nameLength := name.length
      nameHash := hash
      assumptions := 0
      symmetryHead := 0
      internNext := context.pools.symbolBuckets.getD bucket 0 }
  let index ← abandoning
    (fun failed => { failed with pools := { failed.pools with strings := failed.pools.strings.take offset } })
    (pushSymbol record)
  changePools fun pools => { pools with symbolBuckets := pools.symbolBuckets.set bucket index }
  symbolRehash
  pure index

def irInternN (name : Name) : IrM Nat := do
  if name = [] then refuse .invalidArgument
  else do
    let context ← get
    match findSymbol context.pools name with
    | some symbol => pure symbol
    | none => publishSymbol name

def assumePositive : UInt32 := 2

def assumeNegative : UInt32 := 4

def assumeAll : UInt32 := 0x7f

def changeSymbol (symbol : Nat) (change : SymbolRecord → SymbolRecord) : IrM Unit :=
  changePools fun pools => { pools with symbols := pools.symbols.modify symbol change }

def answer (status : Status) : IrM Status := do
  setError status
  pure status

def irAssume (symbol : Nat) (assumptions : UInt32) : IrM Status := do
  let context ← get
  match symbolAt context.pools symbol with
  | none => answer .invalidArgument
  | some record =>
      if assumptions &&& ~~~assumeAll ≠ 0 then answer .invalidArgument
      else
        let merged := record.assumptions ||| assumptions
        if merged &&& assumePositive ≠ 0 ∧ merged &&& assumeNegative ≠ 0 then answer .assumption
        else do
          changeSymbol symbol fun record => { record with assumptions := merged }
          pure .ok

def findSymmetry (pools : Pools) (head low high : Nat) : Option Nat :=
  let hit (index : Nat) : Bool :=
    match pools.symmetries[index]? with
    | none => false
    | some record => decide (record.slotA = low) && decide (record.slotB = high)
  walk (nextAt SymmetryRecord.next pools.symmetries) hit pools.symmetries.length head

/-- `phy_ir_declare_symmetry`; the symmetry is the enumerator's value. -/
def irDeclareSymmetry (symbol slotA slotB symmetry : Nat) : IrM Status := do
  let context ← get
  match symbolAt context.pools symbol with
  | none => answer .invalidArgument
  | some owner =>
      if slotA = slotB ∨ symmetry = 0 ∨ 2 < symmetry then answer .invalidArgument
      else
        let low := min slotA slotB
        let high := max slotA slotB
        match findSymmetry context.pools owner.symmetryHead low high with
        | some index =>
            if (context.pools.symmetries[index]?.map SymmetryRecord.symmetry) = some symmetry then pure .ok
            else answer .assumption
        | none => do
            match ← attempt (pushSymmetry ⟨low, high, owner.symmetryHead, symmetry⟩) with
            | none => do
                let failed ← get
                pure failed.error
            | some index => do
                changeSymbol symbol fun record => { record with symmetryHead := index }
                pure .ok

/-- `phy_ir_slot_symmetry`, as the enumerator's value. -/
def irSlotSymmetry (pools : Pools) (symbol slotA slotB : Nat) : Nat :=
  match symbolAt pools symbol with
  | none => 0
  | some owner =>
      if slotA = slotB then 0
      else
        match findSymmetry pools owner.symmetryHead (min slotA slotB) (max slotA slotB) with
        | none => 0
        | some index => ((pools.symmetries[index]?).map SymmetryRecord.symmetry).getD 0

end PhyNspire.Ir.Symbols

/-!
Node interning of ir.c: the single entry through which nodes reach the graph.
-/

namespace PhyNspire.Ir.Nodes
open Platform Lib Lib.Stateful Lib.Chains Expressions Context

def nodeBucket (size : Nat) (node : Node) : Nat := bucketOf node.hash size

def linkNode (link : Nat) (node : Node) : Node := { node with internNext := link }

def nodeRehash : IrM Unit := do
  let context ← get
  let buckets := context.pools.nodeBuckets.length
  if context.pools.nodes.length ≤ buckets - buckets / 4 then pure ()
  else do
    match ← attempt (bucketsInit (buckets * 2)) with
    | none => modify fun failed => { failed with error := context.error }
    | some (capacity, _) => do
        modify (·.discharge (context.capacities .nodeBuckets * 4))
        setCapacity .nodeBuckets capacity
        changePools fun pools =>
          let filed := rehash (nodeBucket (buckets * 2)) linkNode (buckets * 2) pools.nodes
          { pools with nodes := filed.1, nodeBuckets := filed.2 }

/-- `big_exact_proto`: the decimal parts of a promoted number, no denominator for an integer. -/
structure BigExactProto where
  numerator : List UInt8
  denominator : List UInt8
deriving DecidableEq, Repr

/-- What does not fit the node: the last three arguments of `intern_node`. -/
structure Extra where
  children : List Nat
  rat : Option Rat64
  bigExact : Option BigExactProto
deriving DecidableEq, Repr

def Extra.none : Extra := ⟨[], Option.none, Option.none⟩

def bigExactText (pools : Pools) (held : BigExact) : BigExactProto :=
  ⟨slice pools.exactText held.numeratorOffset held.numeratorLength,
    slice pools.exactText held.denominatorOffset held.denominatorLength⟩

def samePayload (pools : Pools) (stored proto : Node) (extra : Extra) : Bool :=
  if stored.kind ≠ proto.kind ∨ stored.aux ≠ proto.aux ∨ stored.head ≠ proto.head ∨
      stored.childCount ≠ proto.childCount then false
  else
    match stored.kind with
    | .integer =>
        if stored.aux = exactBig then
          match pools.bigExacts[stored.payload.word]?, extra.bigExact with
          | some held, some bigExact =>
              decide (held.denominatorLength = 0) && decide (held.numeratorLength = bigExact.numerator.length) &&
                decide ((bigExactText pools held).numerator = bigExact.numerator)
          | _, _ => false
        else decide (stored.payload.integerValue = proto.payload.integerValue)
    | .real => decide (stored.payload.realBits = proto.payload.realBits)
    | .rational =>
        if stored.aux = exactBig then
          match pools.bigExacts[stored.payload.word]?, extra.bigExact with
          | some held, some bigExact =>
              decide (held.numeratorLength = bigExact.numerator.length) &&
                decide (held.denominatorLength = bigExact.denominator.length) &&
                decide (bigExactText pools held = bigExact)
          | _, _ => false
        else
          match pools.rationals[stored.payload.word]?, extra.rat with
          | some held, some rat => decide (held = rat)
          | _, _ => false
    | .index => decide (stored.payload.word = proto.payload.word)
    | _ => if stored.childCount = 0 then true else decide (childrenOf pools stored = extra.children)

/-- The search of `intern_node` along one bucket. -/
def findNode (pools : Pools) (proto : Node) (extra : Extra) : Option Nat :=
  let hit (ref : Nat) : Bool :=
    match pools.nodes[ref]? with
    | none => false
    | some stored => decide (stored.hash = proto.hash) && samePayload pools stored proto extra
  walk (nextAt Node.internNext pools.nodes) hit pools.nodes.length
    (pools.nodeBuckets.getD (bucketOf proto.hash pools.nodeBuckets.length) 0)

def rewind (marks : Pools) (context : IrContext) : IrContext :=
  { context with
    pools :=
      { context.pools with
        rationals := context.pools.rationals.take marks.rationals.length
        bigExacts := context.pools.bigExacts.take marks.bigExacts.length
        exactText := context.pools.exactText.take marks.exactText.length
        children := context.pools.children.take marks.children.length } }

/-- The decimal text of a promoted number and its record. -/
def appendBigExact (bigExact : BigExactProto) : IrM Nat := do
  let context ← get
  let offset := context.pools.exactText.length
  let textBytes := bigExact.numerator.length + bigExact.denominator.length
  if bigExact.numerator.length = 0 ∨ sizeMax < offset + textBytes then throw .null
  else do
    reserve .exactText (offset + textBytes)
    changePools fun pools => { pools with exactText := pools.exactText ++ (bigExact.numerator ++ bigExact.denominator) }
    abandoning (rewind context.pools) (pushBigExact
      { numeratorOffset := offset
        numeratorLength := bigExact.numerator.length
        denominatorOffset := offset + bigExact.numerator.length
        denominatorLength := bigExact.denominator.length })

def appendChildren (children : List Nat) : IrM Nat := do
  let context ← get
  let offset := context.pools.children.length
  reserve .children (offset + children.length)
  changePools fun pools => { pools with children := pools.children ++ children }
  pure offset

/-- The payload of a new node goes to its pool before the node that owns it exists. -/
def appendPayload (proto : Node) (extra : Extra) : IrM Node :=
  match extra.bigExact, extra.rat with
  | some bigExact, _ => do
      let index ← appendBigExact bigExact
      pure { proto with payload := .rationalIndex index }
  | none, some rat => do
      let index ← pushRational rat
      pure { proto with payload := .rationalIndex index }
  | none, none =>
      if proto.childCount ≠ 0 then do
        let offset ← appendChildren extra.children
        pure { proto with payload := .childOffset offset }
      else pure proto

def publishNode (proto : Node) (extra : Extra) : IrM Nat := do
  let context ← get
  let bucket := bucketOf proto.hash context.pools.nodeBuckets.length
  let node ← appendPayload proto extra
  let index ← abandoning (rewind context.pools)
    (pushNode { node with internNext := context.pools.nodeBuckets.getD bucket 0 })
  changePools fun pools => { pools with nodeBuckets := pools.nodeBuckets.set bucket index }
  nodeRehash
  pure index

def internNode (proto : Node) (extra : Extra) : IrM Nat := do
  let context ← get
  match findNode context.pools proto extra with
  | some ref => pure ref
  | none =>
      if context.limits.maxNodes.toNat ≤ context.pools.nodes.length - 1 then refuse .nodeLimit
      else publishNode proto extra

end PhyNspire.Ir.Nodes

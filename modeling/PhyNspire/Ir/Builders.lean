import PhyNspire.Ir.Nodes
import PhyNspire.Lib.Heapsort

/-!
The canonical order of order.c on the refs of one context, and the sort built on it.
-/

namespace PhyNspire.Ir.Order
open Platform Lib Lib.Decimal Exact.Integer Exact.Decimals Expressions Context Symbols Nodes

/-- `umul64`: the high and the low word of a product, in pieces of 32 bits. -/
def umul64 (a b : Nat) : Nat × Nat :=
  let aLow := a % 2 ^ 32
  let aHigh := a >>> 32
  let bLow := b % 2 ^ 32
  let bHigh := b >>> 32
  let lowLow := u64 (aLow * bLow)
  let lowHigh := u64 (aLow * bHigh)
  let highLow := u64 (aHigh * bLow)
  let highHigh := u64 (aHigh * bHigh)
  let middle := u64 ((lowLow >>> 32) + lowHigh % 2 ^ 32 + highLow % 2 ^ 32)
  (u64 (highHigh + (lowHigh >>> 32) + (highLow >>> 32) + (middle >>> 32)), lowLow % 2 ^ 32 ||| u64 (middle <<< 32))

/-- `compare_exact`: the fractions by their signs, then by their cross products. -/
def compareExact (an ad bn bd : Int64) : Ordering :=
  let signA := an.toInt.sign
  let signB := bn.toInt.sign
  if signA ≠ signB then compare signA signB
  else if signA = 0 then .eq
  else
    let left := umul64 (magnitudeI64 an) bd.toUInt64.toNat
    let right := umul64 (magnitudeI64 bn) ad.toUInt64.toNat
    let result := (compare left.1 right.1).then (compare left.2 right.2)
    if 0 < signA then result else result.swap

/-- `exact_value`: an inline number as a fraction. -/
def exactFraction (pools : Pools) (node : Node) : Int64 × Int64 :=
  if node.kind = .integer then (node.payload.integerValue, 1)
  else
    match pools.rationals[node.payload.word]? with
    | none => (0, 1)
    | some rat => (rat.numerator, rat.denominator)

def writeI64Decimal (value : Int64) : List UInt8 :=
  (if value < 0 then [45] else []) ++ (wordDigits 20 (magnitudeI64 value)).reverse

/-- `phy_ir_exact_decimal_view`: the decimal text of both parts of an exact number. -/
def exactDecimalView (pools : Pools) (ref : Nat) : Option (List UInt8 × List UInt8) :=
  match nodeAt pools ref with
  | none => none
  | some node =>
      if node.kind ≠ .integer ∧ node.kind ≠ .rational then none
      else if node.aux = exactBig then
        match pools.bigExacts[node.payload.word]? with
        | none => none
        | some held =>
            if pools.exactText.length < held.numeratorOffset + held.numeratorLength ∨
                pools.exactText.length < held.denominatorOffset + held.denominatorLength then none
            else
              let text := bigExactText pools held
              some (text.numerator, if held.denominatorLength = 0 then [49] else text.denominator)
      else if node.kind = .rational ∧ pools.rationals[node.payload.word]? = none then none
      else
        let fraction := exactFraction pools node
        some (writeI64Decimal fraction.1, writeI64Decimal fraction.2)

def startsWithMinus (text : List UInt8) : Bool := decide (text.head? = some 45)

def compareBigExact (pools : Pools) (left right : Nat) : Ordering :=
  match exactDecimalView pools left, exactDecimalView pools right with
  | some a, some b =>
      let negativeA := startsWithMinus a.1
      let negativeB := startsWithMinus b.1
      if negativeA ≠ negativeB then if negativeA then .lt else .gt
      else
        let magnitudes :=
          compareText (a.1.drop (if negativeA then 1 else 0)) (b.1.drop (if negativeB then 1 else 0))
        if magnitudes ≠ .eq then if negativeA then magnitudes.swap else magnitudes
        else
          let ordered := compareText a.2 b.2
          if negativeA then ordered else ordered.swap
  | _, _ => .eq

/-- The numeric case of `phy_ir_compare`. -/
def compareNumbers (pools : Pools) (a b : Nat) (na nb : Node) : Ordering :=
  let bigA := decide (na.aux = exactBig)
  let bigB := decide (nb.aux = exactBig)
  if bigA ≠ bigB then
    match exactDecimalView pools a, exactDecimalView pools b with
    | some viewA, some viewB =>
        let negativeA := startsWithMinus viewA.1
        let negativeB := startsWithMinus viewB.1
        if negativeA ≠ negativeB then if negativeA then .lt else .gt
        else if negativeA then if bigA then .lt else .gt
        else if bigA then .gt else .lt
    | _, _ => if bigA then .gt else .lt
  else if bigA then compareBigExact pools a b
  else
    let left := exactFraction pools na
    let right := exactFraction pools nb
    compareExact left.1 left.2 right.1 right.2

/-- `compare_names`: bytes of the common length first, then the lengths. -/
def compareNames (pools : Pools) (a b : Nat) : Ordering :=
  if a = b then .eq
  else
    match symbolAt pools a, symbolAt pools b with
    | none, none => .eq
    | none, some _ => .lt
    | some _, none => .gt
    | some ra, some rb =>
        let shortest := min ra.nameLength rb.nameLength
        (List.compareLex compare (slice pools.strings ra.nameOffset shortest)
          (slice pools.strings rb.nameOffset shortest)).then (compare ra.nameLength rb.nameLength)

/-- `phy_ir_compare` down to a given depth. -/
def irCompareUpTo (pools : Pools) : Nat → Nat → Nat → Ordering
  | 0, _, _ => .eq
  | depth + 1, a, b =>
      if a = b then .eq
      else
        match nodeAt pools a, nodeAt pools b with
        | none, none => .eq
        | none, some _ => .lt
        | some _, none => .gt
        | some na, some nb =>
            if na.kind.rank ≠ nb.kind.rank then compare na.kind.rank nb.kind.rank
            else
              match na.kind with
              | .integer => compareNumbers pools a b na nb
              | .rational => compareNumbers pools a b na nb
              | .real => compare (orderedRealKey na.payload.realBits) (orderedRealKey nb.payload.realBits)
              | .symbol => compareNames pools na.head nb.head
              | .index =>
                  let byName := compareNames pools na.head nb.head
                  if byName ≠ .eq then byName
                  else if na.aux ≠ nb.aux then compare na.aux nb.aux
                  else compareNames pools na.payload.word nb.payload.word
              | .error => if na.aux < nb.aux then .lt else .gt
              | _ =>
                  if na.kind ≠ nb.kind then compare na.kind.code nb.kind.code
                  else
                    let byName := if na.head ≠ nb.head then compareNames pools na.head nb.head else .eq
                    if byName ≠ .eq then byName
                    else if na.childCount ≠ nb.childCount then compare na.childCount nb.childCount
                    else List.compareLex (irCompareUpTo pools depth) (childrenOf pools na) (childrenOf pools nb)

/-- `phy_ir_compare`. Children stand before their parents, so no path is longer than the pool. -/
def irCompare (pools : Pools) (a b : Nat) : Ordering := irCompareUpTo pools pools.nodes.length a b

def irSortRefs (pools : Pools) (refs : List Nat) : List Nat :=
  Heapsort.heapsort (fun a b => decide (irCompare pools a b = .gt)) refs

end PhyNspire.Ir.Order

/-!
The builders of ir.c. Texts of exact numbers go through a short-lived exact context that
shares the heap with the IR context.
-/

namespace PhyNspire.Ir.Builders
open Platform Lib Exact.Context Exact.Integer Exact.Rational Exact.Decimals
open Expressions Context Symbols Nodes Order

def makeInteger (value : Int64) : IrM Nat :=
  internNode ⟨.integer, 0, 1, 0, hashBytes (hashKind .integer) (bytesI64 value), 0, 0, .integer value⟩ .none

def makeRational (rat : Rat64) : IrM Nat :=
  internNode
    ⟨.rational, 0, 1, 0, hashBytes (hashKind .rational) (bytesI64 rat.numerator ++ bytesI64 rat.denominator), 0, 0, .none⟩
    ⟨[], some rat, none⟩

def irInteger (value : Int64) : IrM Nat := makeInteger value

/-- The loop of `gcd_u64`; its second argument falls every turn. -/
def gcdU64 : Nat → Nat → Nat → Nat
  | 0, a, _ => a
  | turns + 1, a, b => if b ≠ 0 then gcdU64 turns b (a % b) else a

def irRational (numerator denominator : Int64) : IrM Nat :=
  if denominator = 0 then refuse .domain
  else if numerator = 0 then makeInteger 0
  else
    let negative := decide (numerator < 0) != decide (denominator < 0)
    let divisor := gcdU64 (magnitudeI64 denominator + 1) (magnitudeI64 numerator) (magnitudeI64 denominator)
    let n := magnitudeI64 numerator / divisor
    let d := magnitudeI64 denominator / divisor
    let limit := if negative then 2 ^ 63 else 2 ^ 63 - 1
    if limit < n ∨ 2 ^ 63 - 1 < d then refuse .overflow
    else
      let signedNumerator := if negative then Int64.ofInt (-(n : Int)) else Int64.ofInt n
      if d = 1 then makeInteger signedNumerator else makeRational ⟨signedNumerator, Int64.ofInt d⟩

/-- An exact operation inside a builder: its failure is the builder's. -/
def onExact {α : Type} (exact : ExactContext) (program : ExactM α) : IrM (α × ExactContext) := do
  let context ← get
  match program { exact with heap := context.heap } with
  | .ok value exact => do
      set { context with heap := exact.heap }
      pure (value, exact)
  | .error status exact => do
      set { context with heap := exact.heap }
      refuse status

/-- `phy_alloc` outside the byte ceiling. -/
def allocate : IrM Bool := do
  let context ← get
  let (granted, heap) := context.heap.alloc
  set { context with heap := heap }
  pure granted

def hashPromoted (kind : Kind) (bigExact : BigExactProto) : UInt32 :=
  let numerator := hashBytes (hashKind kind) bigExact.numerator
  if kind = .integer then numerator else hashBytes (hashBytes numerator [47]) bigExact.denominator

def makePromoted (kind : Kind) (bigExact : BigExactProto) : IrM Nat :=
  internNode ⟨kind, exactBig, 1, 0, hashPromoted kind bigExact, 0, 0, .none⟩ ⟨[], none, some bigExact⟩

def publishBigRational (exact : ExactContext) (value : Bigrat) : IrM Nat :=
  match bigratTryI64 exact value with
  | some (numerator, denominator) => irRational numerator denominator
  | none => do
      let (numeratorSize, exact) ← onExact exact (bigintWrite (.numerator value) none)
      let (denominatorSize, exact) ← onExact exact (bigintWrite (.denominator value) none)
      let first ← allocate
      let second ← allocate
      if !first || !second then refuse .outOfMemory
      else do
        let (numerator, exact) ← onExact exact (bigintWrite (.numerator value) (some numeratorSize.1))
        let (denominator, _) ← onExact exact (bigintWrite (.denominator value) (some denominatorSize.1))
        if numerator.1 ≠ numeratorSize.1 ∨ denominator.1 ≠ denominatorSize.1 then refuse .corruptDocument
        else if denominator.1 = 2 ∧ denominator.2.head? = some 49 then
          makePromoted .integer ⟨numerator.2.take (numerator.1 - 1), []⟩
        else
          makePromoted .rational ⟨numerator.2.take (numerator.1 - 1), denominator.2.take (denominator.1 - 1)⟩

def copyDecimalToken (text : List UInt8) : IrM Bool := do
  if text = [] then do
    setError .invalidArgument
    pure false
  else do
    let granted ← allocate
    if granted then pure true
    else do
      setError .outOfMemory
      pure false

def exactReaderCreate : IrM ExactContext := do
  let context ← get
  let limits : ExactLimits :=
    { exactLimitsDefaults with maxLimbs := 0xffffffff, maxBytes := context.limits.maxBytes }
  let (created, heap) := exactContextCreate (some limits) context.heap
  set { context with heap := heap }
  match created with
  | none => refuse .outOfMemory
  | some exact => pure exact

def irRationalTextN (numerator denominator : List UInt8) : IrM Nat := do
  let first ← copyDecimalToken numerator
  let second ← copyDecimalToken denominator
  if !first || !second then throw .null
  else do
    let exact ← exactReaderCreate
    let (_, exact) ← onExact exact do
      bigratInit 0
      bigratRead 0 (numerator ++ [0]) (denominator ++ [0])
    publishBigRational exact 0

def irIntegerTextN (decimal : List UInt8) : IrM Nat := irRationalTextN decimal [49]

/-- `phy_ir_real`, of the number's object representation. -/
def irReal (bits : UInt64) : IrM Nat :=
  if (bits >>> 52) &&& 0x7ff = 0x7ff then refuse .domain
  else
    let bits := if bits = 0x8000000000000000 then 0 else bits
    internNode ⟨.real, 0, 1, 0, hashBytes (hashKind .real) (littleEndian 8 bits.toNat), 0, 0, .real bits⟩ .none

def irSymbolRef (symbol : Nat) : IrM Nat := do
  let context ← get
  match symbolAt context.pools symbol with
  | none => refuse .invalidArgument
  | some record =>
      let hash := hashU32 (hashU32 (hashKind .symbol) record.nameHash) 0
      internNode ⟨.symbol, 0, 1, 0, hash, 0, symbol, .none⟩ .none

/-- `phy_ir_index_in_space`; the variance is the enumerator's value and space zero is no space. -/
def irIndexInSpace (name variance space : Nat) : IrM Nat := do
  if 1 < variance then refuse .invalidArgument
  else do
    let context ← get
    match symbolAt context.pools name with
    | none => refuse .invalidArgument
    | some record =>
        if space ≠ 0 ∧ symbolAt context.pools space = none then refuse .invalidArgument
        else
          let spaceHash := ((symbolAt context.pools space).map SymbolRecord.nameHash).getD 0
          let hash := hashU32 (hashU32 (hashU32 (hashKind .index) record.nameHash) (UInt32.ofNat variance)) spaceHash
          internNode ⟨.index, variance, 1, 0, hash, 0, name, .indexSpace space⟩ .none

def irIndex (name variance : Nat) : IrM Nat := irIndexInSpace name variance 0

def statusCount : Nat := 21

def irError (code : Nat) : IrM Nat :=
  if code = 0 ∨ statusCount ≤ code then refuse .invalidArgument
  else internNode ⟨.error, code, 1, 0, hashU32 (hashKind .error) (UInt32.ofNat code), 0, 0, .none⟩ .none

def operandNodes (pools : Pools) (refs : List Nat) : Option (List Node) := refs.mapM (nodeAt pools)

/-- `operands_ok`: the depth of the parent. -/
def operandsOk (refs : List Nat) : IrM Nat := do
  let context ← get
  if context.limits.maxChildren.toNat < refs.length then refuse .termLimit
  else
    match operandNodes context.pools refs with
    | none => refuse .invalidArgument
    | some nodes =>
        let deepest := (nodes.map Node.depth).foldl max 0
        if context.limits.maxDepth.toNat < deepest + 1 then refuse .depthLimit else pure (deepest + 1)

def makeCompound (kind : Kind) (head : Nat) (children : List Nat) : IrM Nat := do
  let depth ← operandsOk children
  let context ← get
  let hashes := children.map fun child => ((nodeAt context.pools child).map Node.hash).getD 0
  if kind.headed then
    match symbolAt context.pools head with
    | none => refuse .invalidArgument
    | some record =>
        internNode ⟨kind, 0, depth, children.length, hashCompound kind record.nameHash hashes, 0, head, .none⟩
          ⟨children, none, none⟩
  else
    internNode ⟨kind, 0, depth, children.length, hashCompound kind 0 hashes, 0, 0, .none⟩ ⟨children, none, none⟩

/-- What one operand contributes to the staged run: its children when its kind is absorbed. -/
def stageOperand (pools : Pools) (kind : Kind) (operand : Nat) : List Nat :=
  match nodeAt pools operand with
  | none => [operand]
  | some child => if kind.associative ∧ child.kind = kind then childrenOf pools child else [operand]

def makeNary (kind : Kind) (operands : List Nat) : IrM Nat := do
  if operands = [] then refuse .invalidArgument
  else do
    let context ← get
    match operandNodes context.pools operands with
    | none => refuse .invalidArgument
    | some nodes =>
        let total := (nodes.map fun child =>
          if kind.associative ∧ child.kind = kind then child.childCount else 1).sum
        if context.limits.maxChildren.toNat < total then refuse .termLimit
        else do
          reserve .scratch total
          let flat := operands.flatMap (stageOperand context.pools kind)
          let staged := if kind.commutative then irSortRefs context.pools flat else flat
          match staged with
          | [single] => if kind.associative then pure single else makeCompound kind 0 staged
          | _ => makeCompound kind 0 staged

def irAdd (terms : List Nat) : IrM Nat := makeNary .add terms

def irMul (factors : List Nat) : IrM Nat := makeNary .mul factors

def irNcmul (factors : List Nat) : IrM Nat := makeNary .ncmul factors

def irWedge (factors : List Nat) : IrM Nat := makeNary .wedge factors

def irPow (base exponent : Nat) : IrM Nat := makeCompound .pow 0 [base, exponent]

def irEquation (lhs rhs : Nat) : IrM Nat := makeCompound .equation 0 [lhs, rhs]

def irFunction (head : Nat) (args : List Nat) : IrM Nat := makeCompound .function head args

/-- A tensor slot holds an index, never an arbitrary expression. -/
def irTensor (head : Nat) (indices : List Nat) : IrM Nat := do
  let context ← get
  if indices.any (fun index => decide (kindOf context.pools index ≠ .index)) then refuse .type
  else makeCompound .tensor head indices

def irOperator (head : Nat) (args : List Nat) : IrM Nat := makeCompound .operator head args

def irDerivative (expr : Nat) (vars : List Nat) : IrM Nat := do
  if vars = [] then refuse .invalidArgument
  else do
    let context ← get
    let isVariable (var : Nat) : Bool :=
      decide (kindOf context.pools var = .symbol) || decide (kindOf context.pools var = .index)
    if !vars.all isVariable then refuse .type
    else if context.limits.maxChildren.toNat < vars.length + 1 then refuse .termLimit
    else do
      reserve .scratch (vars.length + 1)
      makeCompound .derivative 0 (expr :: vars)

end PhyNspire.Ir.Builders

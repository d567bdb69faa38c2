import PhyNspire.Cas.Scalars
import PhyNspire.Permutation.Bsgs

/-!
Component tensors of component.c: an abstract tensor head realized in concrete bases. The
head's signed slot group is built once, with a chain of transversals for the search; the
components themselves are kept in a sparse table of canonical index tuples.

The rank is the index `n` of the types, as the degree is for the group. Pointers that the
interface checks against NULL are values here.
-/

namespace PhyNspire.Component
open Platform Cas Permutation.Perm Permutation.Bsgs

variable {State Ref : Type} {n : Nat}

/-- `uint32_t indices[rank]`. -/
abbrev Indices (n : Nat) := Fin n → Nat

/-- Valid as the image of a slot symmetry: a permutation that exchanges no two index spaces. -/
def validImage (slotSpaces : Fin n → Nat) (image : Words n) : Bool :=
  (List.finRange n).all fun i =>
    if inside : (image i).toNat < n then
      (List.finRange n).all (fun prior => !(decide (prior < i) && decide (image prior = image i))) &&
        decide (slotSpaces i = slotSpaces ⟨(image i).toNat, inside⟩)
    else false

/-- `phy_abstract_tensor_head`, with what `phy_tensor_head_add_symmetry` checks of every generator
that it accepts. An index space is known by its address. -/
structure TensorHead (n : Nat) where
  slotSpaces : Fin n → Nat
  generators : List (Words n × Int)
  signed : ∀ generator ∈ generators, generator.2 = -1 ∨ generator.2 = 1
  valid : ∀ generator ∈ generators, validImage slotSpaces generator.1 = true

/-- `phy_component_basis`; its address is part of it. -/
structure ComponentBasis where
  address : Nat
  space : Nat
  dimension : Nat
deriving DecidableEq, Repr

/-- `phy_ir_variance` as a caller may pass it. -/
def indexLower : Nat := 0
def indexUpper : Nat := 1

structure ComponentLimits where
  maxRank : UInt32
  maxDimension : UInt32
  maxEntries : UInt32
  maxGenerators : UInt32
  maxStrongGenerators : UInt32
  maxSteps : UInt32
  maxCandidates : UInt64
  maxBytes : UInt32
deriving DecidableEq

def componentLimitsDefaults : ComponentLimits := ⟨32, 256, 4096, 256, 1024, 2000000, 100000, 512 * 1024⟩

def resolveLimits (requested : Option ComponentLimits) : Except Status ComponentLimits :=
  let choose (chosen default : UInt32) : UInt32 := if chosen ≠ 0 then chosen else default
  let defaults := componentLimitsDefaults
  let out :=
    match requested with
    | none => defaults
    | some requested =>
        { maxRank := choose requested.maxRank defaults.maxRank
          maxDimension := choose requested.maxDimension defaults.maxDimension
          maxEntries := choose requested.maxEntries defaults.maxEntries
          maxGenerators := choose requested.maxGenerators defaults.maxGenerators
          maxStrongGenerators := choose requested.maxStrongGenerators defaults.maxStrongGenerators
          maxSteps := choose requested.maxSteps defaults.maxSteps
          maxCandidates :=
            if requested.maxCandidates ≠ 0 then requested.maxCandidates else defaults.maxCandidates
          maxBytes := choose requested.maxBytes defaults.maxBytes }
  if out.maxRank = 0 ∨ 65535 < out.maxRank ∨ out.maxDimension = 0 ∨ out.maxEntries = 0 ∨
      out.maxGenerators = 0 ∨ out.maxStrongGenerators = 0 ∨ out.maxSteps = 0 ∨ out.maxCandidates = 0 ∨
      out.maxBytes < 8192 then .error .invalidArgument
  else .ok out

/-- The rows that a search works in. `choice_permutation` is left out: every read of it follows the
write of the same value. -/
structure Scratch (n : Nat) where
  permutationStack : Nat → Image n
  processedPoints : Fin n → Fin n → Bool
  bestIndices : Indices n

/-- `phy_component_tensor`; the entry count is the length of the list of entries. -/
structure ComponentTensor (Ref : Type) (n : Nat) extends Scratch n where
  head : TensorHead n
  limits : ComponentLimits
  bases : Fin n → ComponentBasis
  valence : Fin n → Nat
  group : Option (PermGroup n)
  chain : PermChain n
  entries : List (Indices n × Ref)
  entryCapacity : Nat
  entryBytes : Nat
  otherBudget : Nat
  bytesUsed : Nat
  zero : Ref

structure World (State Ref : Type) (n : Nat) where
  session : State
  heap : Heap
  tensor : ComponentTensor Ref n

abbrev ComponentM (State Ref : Type) (n : Nat) := EStateM Status (World State Ref n)

/-- A call of the scalar engine, which sees its own session only. -/
def scalar {α : Type} (program : EStateM Status State α) : ComponentM State Ref n α := fun world =>
  match program world.session with
  | .ok value session => .ok value { world with session := session }
  | .error status session => .error status { world with session := session }

/-- `sizeof(phy_component_tensor)` on the device. -/
def componentTensorSize : Nat := 192

def validateRealization (head : TensorHead n) (bases : Fin n → ComponentBasis) (valence : Fin n → Nat)
    (limits : ComponentLimits) : Status :=
  if limits.maxRank.toNat < n then .termLimit
  else if ∃ slot, (bases slot).space ≠ head.slotSpaces slot ∨ limits.maxDimension.toNat < (bases slot).dimension ∨
      valence slot ≠ indexLower ∧ valence slot ≠ indexUpper then .type
  else if ∃ generator ∈ head.generators, ∃ slot, bases slot ≠ bases (readImage generator.1 slot) ∨
      valence slot ≠ valence (readImage generator.1 slot) then .type
  else .ok

def reserveArray (total count element : Nat) : Option Nat :=
  if count ≠ 0 ∧ sizeMax / count < element then none
  else if sizeMax - count * element < alignUp total 4 then none
  else some (alignUp total 4 + count * element)

/-- The size of the block behind the bases, the valence and the scratch rows. -/
def metadataBytes (rank : Nat) : Option Nat := do
  let bytes ← reserveArray 0 rank 4
  let bytes ← reserveArray bytes rank 4
  let bytes ← reserveArray bytes (if rank = 0 then 0 else (rank + 1) * rank) 2
  let bytes ← reserveArray bytes rank 2
  let bytes ← reserveArray bytes (if rank = 0 then 0 else rank * rank) 1
  reserveArray bytes rank 4

/-- The statements of `build_slot_group` that follow the creation of the group. -/
def declareSymmetries (generators : List (Words n × Int)) : PermM n Unit := do
  generators.forM fun generator => permGroupAddGenerator generator.1 generator.2
  permGroupBuildBsgs
  permChainAllocate
  modify fun s => { s with steps := 0 }
  permChainBuild

def buildSlotGroup (generators : List (Words n × Int)) (limits : ComponentLimits) (groupBudget : UInt32) :
    EStateM Status Heap (Option (PermGroup n) × PermChain n) := fun heap =>
  if n = 0 then .ok (none, blankChain) heap
  else
    match permGroupCreate n
      (some ⟨limits.maxRank, limits.maxGenerators, limits.maxStrongGenerators, limits.maxSteps, groupBudget⟩) heap with
    | (.error status, heap) => .error status heap
    | (.ok group, heap) =>
        match declareSymmetries generators ⟨group, heap, blankChain, fun _ => false, 0⟩ with
        | .error status session => .error status session.heap
        | .ok _ session => .ok (some session.group, session.chain) session.heap

def request : EStateM Status Heap Unit := do
  let heap ← get
  set heap.alloc.2
  if heap.alloc.1 then pure () else throw .memoryLimit

/-- Everything of `phy_component_tensor_create` up to the zero handle. -/
def componentTensorBuild (head : TensorHead n) (bases : Fin n → ComponentBasis) (valence : Fin n → Nat)
    (requested : Option ComponentLimits) : EStateM Status Heap (Ref → ComponentTensor Ref n) :=
  match resolveLimits requested with
  | .error status => throw status
  | .ok limits =>
      if validateRealization head bases valence limits ≠ .ok then
        throw (validateRealization head bases valence limits)
      else do
        request
        let groupBudget : UInt32 := if n = 0 then 0 else limits.maxBytes / 2
        let otherBudget := limits.maxBytes.toNat - groupBudget.toNat
        if otherBudget < componentTensorSize then throw .memoryLimit
        else
          match metadataBytes n with
          | none => throw .memoryLimit
          | some bytes =>
              if otherBudget - componentTensorSize < bytes then throw .memoryLimit
              else do
                request
                let (group, chain) ← buildSlotGroup head.generators limits groupBudget
                pure fun zero =>
                  { permutationStack := fun _ => blankImage
                    processedPoints := fun _ _ => false
                    bestIndices := fun _ => 0
                    head, limits, bases, valence, group, chain
                    entries := []
                    entryCapacity := 0
                    entryBytes := 0
                    otherBudget
                    bytesUsed := componentTensorSize + (if bytes = 0 then 1 else bytes)
                    zero }

def componentTensorCreate (cas : Cas State Ref) (head : TensorHead n) (bases : Fin n → ComponentBasis)
    (valence : Fin n → Nat) (requested : Option ComponentLimits) (session : State) (heap : Heap) :
    Except Status (World State Ref n) :=
  match componentTensorBuild head bases valence requested heap with
  | .error status _ => .error status
  | .ok finish heap =>
      match cas.number 0 1 session with
      | .error status _ => .error status
      | .ok zero session => .ok ⟨session, heap, finish zero⟩

end PhyNspire.Component

/-!
The search of component.c for the canonical index tuple: depth first down the stabilizer
chain, the points of a level in the order of the index values they bring to the front,
cutting every branch whose prefix is already greater than the best tuple.
-/

namespace PhyNspire.Component
open Platform Permutation.Perm

variable {State Ref : Type} {n : Nat}

/-- `phy_component_search`, with the rows of the tensor that it works in. -/
structure Search (n : Nat) extends Scratch n where
  bestFound : Bool
  zero : Bool
  bestSign : Int
  steps : Nat
  candidates : Nat

abbrev SearchM (n : Nat) := EStateM Status (Search n)

def compareSlots (candidate best : Indices n) : List (Fin n) → Int
  | [] => 0
  | slot :: slots =>
      if candidate slot ≠ best slot then (if candidate slot < best slot then -1 else 1)
      else compareSlots candidate best slots

section
variable (chain : PermChain n) (limits : ComponentLimits) (input : Indices n)

def compareCandidateToBest (search : Search n) (permutation : Image n) (prefixCount : Nat) : Int :=
  compareSlots (fun slot => input (permutation slot)) search.bestIndices ((List.finRange n).take prefixCount)

def visitComponentCandidate (permutation : Image n) (sign : Int) : SearchM n Unit := do
  let search ← get
  if limits.maxCandidates.toNat ≤ search.candidates then throw .timeout
  else do
    modify fun search => { search with candidates := search.candidates + 1 }
    let order := if search.bestFound then compareCandidateToBest input search permutation n else -1
    if !search.bestFound || decide (order < 0) then
      modify fun search => { search with
        bestIndices := fun slot => input (permutation slot)
        bestSign := sign
        bestFound := true }
    else if decide (order = 0) && decide (search.bestSign ≠ sign) then
      modify fun search => { search with zero := true }
    else pure ()

/-- The loop over the points of a level: the first one of the least input value. -/
def scanPoints (level : Fin n) : List (Fin n) → Option (Fin n × Nat) → SearchM n (Option (Fin n × Nat))
  | [], best => pure best
  | point :: points, best => do
      let search ← get
      if search.processedPoints level point || !chain.valid level point then scanPoints level points best
      else if limits.maxSteps.toNat - search.steps < n then throw .timeout
      else do
        set { search with steps := search.steps + n }
        let choicePermutation := permComposeUnchecked (search.permutationStack level) (chain.transversal level point)
        let value := input (choicePermutation level)
        match best with
        | none => scanPoints level points (some (point, value))
        | some (_, bestValue) => scanPoints level points (if value < bestValue then some (point, value) else best)

/-- One choice of the outer loop: the chosen point counts as processed. -/
def choosePoint (level : Fin n) : SearchM n (Fin n) := do
  match ← scanPoints chain limits input level (List.finRange n) none with
  | none => throw .corruptDocument
  | some (point, _) => do
      modify fun search => { search with
        processedPoints :=
          Function.update search.processedPoints level (Function.update (search.processedPoints level) point true) }
      pure point

/-- The loop `for (choice = 0; choice < choices; ++choice)`, which `descend` may leave. -/
def eachChoice (choose : SearchM n (Fin n)) (descend : Fin n → SearchM n Bool) : Nat → SearchM n Unit
  | 0 => pure ()
  | choices + 1 => do
      let point ← choose
      let left ← descend point
      if left then pure () else eachChoice choose descend choices

/-- Row `level + 1` of the stack for a chosen point, and whether the branch is cut there. -/
def enterPoint (level point : Fin n) : SearchM n Bool := do
  let search ← get
  let next := permComposeUnchecked (search.permutationStack level) (chain.transversal level point)
  set { search with permutationStack := Function.update search.permutationStack (level + 1) next }
  pure (search.bestFound && decide (0 < compareCandidateToBest input search next (level + 1)))

/-- `traverse_components`, over the levels that are left. -/
def traverseComponents : List (Fin n) → Int → SearchM n Unit
  | [], sign => do
      let search ← get
      if search.zero then pure () else visitComponentCandidate limits input (search.permutationStack n) sign
  | level :: levels, sign => do
      let search ← get
      if search.zero then pure ()
      else do
        set { search with processedPoints := Function.update search.processedPoints level fun _ => false }
        eachChoice (choosePoint chain limits input level)
          (fun point => do
            let cut ← enterPoint chain input level point
            if cut then pure false
            else do
              traverseComponents levels (sign * chain.sign level point)
              let search ← get
              pure search.zero)
          (chain.orbitCount level)

end

def validateIndices (tensor : ComponentTensor Ref n) (indices : Indices n) : Bool :=
  decide (∀ slot, indices slot < (tensor.bases slot).dimension)

/-- The zeroed `phy_component_search` over the rows of the tensor. -/
def startSearch (scratch : Scratch n) : Search n :=
  { scratch with
    permutationStack := Function.update scratch.permutationStack 0 permutationIdentity
    bestFound := false
    zero := false
    bestSign := 0
    steps := 0
    candidates := 0 }

/-- The search runs in the rows of the tensor, whatever becomes of it. -/
def searching {α : Type} (program : SearchM n α) : ComponentM State Ref n (α × Search n) := fun world =>
  match program (startSearch world.tensor.toScratch) with
  | .ok value search =>
      .ok (value, search) { world with tensor := { world.tensor with toScratch := search.toScratch } }
  | .error status search =>
      .error status { world with tensor := { world.tensor with toScratch := search.toScratch } }

/-- `phy_component_tensor_canonical_indices`: the tuple and the sign that it hands out. -/
def componentTensorCanonicalIndices (indices : Indices n) : ComponentM State Ref n (Indices n × Int) := do
  let world ← get
  let tensor := world.tensor
  if !validateIndices tensor indices then throw .invalidArgument
  else if n = 0 then pure (indices, 1)
  else if tensor.group.any permGroupHasNegativeIdentity then pure (indices, 0)
  else do
    let (_, search) ← searching (traverseComponents tensor.chain tensor.limits indices (List.finRange n) 1)
    if !search.bestFound then throw .corruptDocument
    else pure (search.bestIndices, if search.zero then 0 else search.bestSign)

end PhyNspire.Component

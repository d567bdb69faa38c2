import PhyNspire.Permutation.Perm
import PhyNspire.Lib.Search

/-!
Signed Schreier-Sims of bsgs.c: the transversal chain, sifting, and the passes that add
Schreier generators until nothing changes.
-/

namespace PhyNspire.Permutation.Bsgs
open Platform Lib.Search Perm

variable {n : Nat}

def chainBytes (n : Nat) : Option Nat := do
  if sizeMax / n < n then none
  else if sizeMax / n < n * n then none
  else do
    let offset ← addBytes 0 (n * n) 1
    let offset ← addBytes offset (n * n) 1
    let offset ← addBytes (alignUp offset 2) (n * n * n) 2
    let offset ← addBytes (alignUp offset 4) n 4
    let offset ← addBytes (alignUp offset 2) n 2
    let offset ← addBytes offset n 2
    let offset ← addBytes offset n 2
    let offset ← addBytes offset n 2
    let offset ← addBytes offset n 2
    let offset ← addBytes offset n 2
    addBytes offset n 2

def permChainAllocate : PermM n Unit := do
  let s ← get
  match chainBytes n with
  | none => throw .memoryLimit
  | some offset =>
      if s.group.limits.maxBytes.toNat - s.group.persistentBytes < offset then throw .memoryLimit
      else do
        let (granted, heap) := s.heap.alloc
        set { s with heap := heap, chain := blankChain }
        if granted then pure () else throw .memoryLimit

namespace Chain

def cleared (chain : PermChain n) : PermChain n :=
  { chain with valid := fun _ _ => false, sign := fun _ _ => 0 }

def record (chain : PermChain n) (level point : Fin n) (image : Image n) (sign : Int) : PermChain n :=
  { chain with
    valid := Function.update chain.valid level (Function.update (chain.valid level) point true)
    sign := Function.update chain.sign level (Function.update (chain.sign level) point sign)
    transversal :=
      Function.update chain.transversal level (Function.update (chain.transversal level) point image) }

def count (chain : PermChain n) (level : Fin n) (tail : Nat) : PermChain n :=
  { chain with orbitCount := Function.update chain.orbitCount level tail }

end Chain

/-- The innermost statements of `phy_perm_chain_build`: one generator at one point. -/
def extendOrbit (level point : Fin n) (generator : StrongGenerator n) : PermM n (Option (Fin n)) := do
  if generator.level < level.val then pure none
  else do
    permStep 1
    let s ← get
    let image := generator.image point
    if s.chain.valid level image then pure none
    else do
      modify (·.withChain fun chain => Chain.record chain level image
        (permComposeUnchecked generator.image (chain.transversal level point))
        (generator.sign * chain.sign level point))
      pure (some image)

def buildLevel (level : Fin n) : PermM n Unit := do
  modify (·.withChain fun chain => Chain.record chain level level permutationIdentity 1)
  let s ← get
  -- No point is queued twice, so `n` turns of the loop are enough.
  let queue ← explore (extendOrbit level) s.group.strong n 0 [level]
  modify (·.withChain fun chain => Chain.count chain level queue.length)

def permChainBuild : PermM n Unit := do
  modify (·.withChain Chain.cleared)
  (List.finRange n).forM buildLevel

/-- The loop over the levels that are left. The result is the remainder and its sign. -/
def permSift : List (Fin n) → Image n → Int → PermM n (Image n × Int)
  | [], remainder, sign => pure (remainder, sign)
  | level :: levels, remainder, sign => do
      let s ← get
      let imageOfBase := remainder level
      if !s.chain.valid level imageOfBase then pure (remainder, sign)
      else do
        permStep 2
        let inverse := permInverseUnchecked (s.chain.transversal level imageOfBase) blankImage
        permSift levels (permComposeUnchecked inverse remainder) (sign * s.chain.sign level imageOfBase)

/-- `for (level = start; level < degree; ++level)`. -/
def levelsFrom (start : Nat) : List (Fin n) := (List.finRange n).drop start

def initializeStrongGenerators : PermM n Unit := do
  modify (·.withGroup fun group => { group with strong := [], negativeIdentity := false })
  let s ← get
  s.group.generators.forM fun generator => do
    let _ ← permAddStrong generator.image generator.sign
    pure ()

def addSchreierGenerator (level point : Fin n) (generator : StrongGenerator n) : PermM n Bool := do
  if generator.level < level.val then pure false
  else do
    permStep 4
    let s ← get
    let y := generator.image point
    let temp := permComposeUnchecked generator.image (s.chain.transversal level point)
    let inverse := permInverseUnchecked (s.chain.transversal level y) blankImage
    let schreier := permComposeUnchecked inverse temp
    let schreierSign := s.chain.sign level y * generator.sign * s.chain.sign level point
    let (remainder, remainderSign) ← permSift (levelsFrom (level.val + 1)) schreier schreierSign
    permAddStrong remainder remainderSign

def anyChange {α : Type} (step : α → PermM n Bool) : List α → Bool → PermM n Bool
  | [], changed => pure changed
  | item :: rest, changed => do
      let now ← step item
      anyChange step rest (changed || now)

/-- The transversals describe the strong generators at the start of the pass, so only these
are used; what the pass finds joins the next one. -/
def addSchreierGenerators : PermM n Bool := do
  let s ← get
  let strongAtStart := s.group.strong
  anyChange (fun level =>
    anyChange (fun point =>
      if s.chain.valid level point then
        anyChange (addSchreierGenerator level point) strongAtStart false
      else pure false) (List.finRange n) false) (List.finRange n) false

/-- The loop `while (changed)`. Every pass that changes the group adds a strong generator or
finds the negative identity, which bounds the number of turns. -/
def schreierPasses : Nat → PermM n Unit
  | 0 => throw .timeout
  | turns + 1 => do
      permChainBuild
      let changed ← addSchreierGenerators
      if changed then schreierPasses turns else pure ()

def computeOrder : PermM n Unit := do
  let s ← get
  let order ← multiplyFactors s.chain (List.finRange n) (if s.group.negativeIdentity then 2 else 1)
  modify (·.withGroup fun group => { group with order := UInt64.ofNat order })
where
  /-- The product of the orbit lengths, checked against `UINT64_MAX`. -/
  multiplyFactors (chain : PermChain n) : List (Fin n) → Nat → PermM n Nat
    | [], order => pure order
    | level :: levels, order =>
        let factor := chain.orbitCount level
        if factor ≠ 0 ∧ (2 ^ 64 - 1) / factor < order then throw .overflow
        else multiplyFactors chain levels (order * factor)

def permGroupBuildBsgs : PermM n Unit := do
  modify (·.withGroup fun group => { group with built := false, order := 0 })
  initializeStrongGenerators
  permChainAllocate
  modify fun s => { s with steps := 0 }
  let s ← get
  schreierPasses (s.group.limits.maxStrongGenerators.toNat + 2)
  permChainBuild
  computeOrder
  modify (·.withGroup fun group => { group with built := true })

end PhyNspire.Permutation.Bsgs

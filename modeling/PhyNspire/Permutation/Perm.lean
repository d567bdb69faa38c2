import PhyNspire.Platform
import PhyNspire.Lib.Stateful
import Mathlib.Data.Fintype.Pi

/-!
Signed permutation groups of perm.c: image arithmetic, limits, generators and strong
generators.

An image array of the group's degree `n` is a function on `Fin n`. A group is indexed by
its degree, which never changes.
-/

namespace PhyNspire.Permutation.Perm
open Platform

/-- `uint16_t image[degree]`, as a caller passes it. -/
abbrev Words (n : Nat) := Fin n → UInt16

/-- An image array whose words are known to be below the degree. -/
abbrev Image (n : Nat) := Fin n → Fin n

variable {n : Nat}

structure PermLimits where
  maxDegree : UInt32
  maxGenerators : UInt32
  maxStrongGenerators : UInt32
  maxSteps : UInt32
  maxBytes : UInt32
deriving DecidableEq

def permLimitsDefaults : PermLimits := ⟨32, 256, 1024, 2000000, 768 * 1024⟩

/-- `sizeof(phy_perm_group)` on the device. -/
def permGroupSize : Nat := 80

def permResolveLimits (requested : Option PermLimits) : Except Status PermLimits :=
  let choose (chosen default : UInt32) : UInt32 := if chosen ≠ 0 then chosen else default
  let defaults := permLimitsDefaults
  let out :=
    match requested with
    | none => defaults
    | some requested =>
        { maxDegree := choose requested.maxDegree defaults.maxDegree
          maxGenerators := choose requested.maxGenerators defaults.maxGenerators
          maxStrongGenerators := choose requested.maxStrongGenerators defaults.maxStrongGenerators
          maxSteps := choose requested.maxSteps defaults.maxSteps
          maxBytes := choose requested.maxBytes defaults.maxBytes }
  if out.maxDegree = 0 ∨ 65535 < out.maxDegree ∨ out.maxGenerators = 0 ∨ out.maxStrongGenerators = 0 ∨
      out.maxSteps = 0 ∨ out.maxBytes.toNat < permGroupSize then .error .invalidArgument
  else .ok out

def permutationValid (image : Words n) : Bool :=
  !decide (n = 0 ∨ 65535 < n) &&
    (List.finRange n).all fun i =>
      decide ((image i).toNat < n) &&
        (List.finRange n).all fun prior => !(decide (prior < i) && decide (image prior = image i))

/-- The array read as images; the validity check has excluded words that are too large. -/
def readImage (image : Words n) : Image n := fun i =>
  if inside : (image i).toNat < n then ⟨(image i).toNat, inside⟩ else i

def permutationIdentity : Image n := fun i => i

def permComposeUnchecked (left right : Image n) : Image n := fun i => left (right i)

/-- The loop `out[image[i]] = i` over an array that held `out`. -/
def permInverseUnchecked (image out : Image n) : Image n :=
  (List.finRange n).foldl (fun out i => Function.update out (image i) i) out

/-- The first point that is moved, or the degree. -/
def permLevel (image : Image n) : Nat :=
  match (List.finRange n).find? (fun i => decide (image i ≠ i)) with
  | some i => i.val
  | none => n

def permIdentityImage (image : Image n) : Bool := decide (permLevel image = n)

/-- Zeroed memory read as an image array. -/
def blankImage : Image n := fun i => ⟨0, i.pos⟩

structure SignedImage (n : Nat) where
  image : Image n
  sign : Int
deriving DecidableEq

structure StrongGenerator (n : Nat) extends SignedImage n where
  level : Nat
deriving DecidableEq

/-- `phy_perm_group`; each count is the length of its list. -/
structure PermGroup (n : Nat) where
  limits : PermLimits
  persistentBytes : Nat
  generators : List (SignedImage n)
  strong : List (StrongGenerator n)
  built : Bool
  negativeIdentity : Bool
  order : UInt64

/-- `phy_perm_chain`: one row of each table for each level. -/
structure PermChain (n : Nat) where
  valid : Fin n → Fin n → Bool
  sign : Fin n → Fin n → Int
  transversal : Fin n → Fin n → Image n
  orbitCount : Fin n → Nat

def blankChain : PermChain n :=
  { valid := fun _ _ => false
    sign := fun _ _ => 0
    transversal := fun _ _ => blankImage
    orbitCount := fun _ => 0 }

/-- A group with the allocator, and with the chain, the marks and the step count of the
operation under way. -/
structure Session (n : Nat) where
  group : PermGroup n
  heap : Heap
  chain : PermChain n
  seen : Fin n → Bool
  steps : Nat

abbrev PermM (n : Nat) := EStateM Status (Session n)

namespace Session

def withGroup (change : PermGroup n → PermGroup n) (s : Session n) : Session n := { s with group := change s.group }

def withChain (change : PermChain n → PermChain n) (s : Session n) : Session n := { s with chain := change s.chain }

end Session

def alignUp (value alignment : Nat) : Nat :=
  let remainder := value % alignment
  if remainder = 0 then value else value + alignment - remainder

def addBytes (total count element : Nat) : Option Nat :=
  if sizeMax / element < count then none
  else if sizeMax - count * element < total then none
  else some (total + count * element)

def groupStorage (degree maxGenerators maxStrong : Nat) : Option Nat := do
  if sizeMax / degree < maxGenerators ∨ sizeMax / degree < maxStrong then none
  else do
    let offset ← addBytes (alignUp 0 2) (maxGenerators * degree) 2
    let offset ← addBytes offset maxGenerators 1
    let offset ← addBytes (alignUp offset 2) (maxStrong * degree) 2
    let offset ← addBytes offset maxStrong 1
    addBytes (alignUp offset 2) maxStrong 2

def permGroupCreate (degree : Nat) (limits : Option PermLimits) (heap : Heap) :
    Except Status (PermGroup degree) × Heap :=
  if degree = 0 then (.error .invalidArgument, heap)
  else
    match permResolveLimits limits with
    | .error status => (.error status, heap)
    | .ok resolved =>
        if resolved.maxDegree.toNat < degree then (.error .termLimit, heap)
        else
          match groupStorage degree resolved.maxGenerators.toNat resolved.maxStrongGenerators.toNat with
          | none => (.error .memoryLimit, heap)
          | some offset =>
              if resolved.maxBytes.toNat - permGroupSize < offset then (.error .memoryLimit, heap)
              else
                let (granted, heap) := heap.alloc
                if !granted then (.error .memoryLimit, heap)
                else
                  let (granted, heap) := heap.alloc
                  if !granted then (.error .memoryLimit, heap)
                  else
                    (.ok
                      { limits := resolved
                        persistentBytes := permGroupSize + offset
                        generators := []
                        strong := []
                        built := false
                        negativeIdentity := false
                        order := 0 }, heap)

def permGroupAddGenerator (image : Words n) (sign : Int) : PermM n Unit := do
  let s ← get
  let generator : SignedImage n := ⟨readImage image, sign⟩
  if (sign ≠ -1 ∧ sign ≠ 1) ∨ permutationValid image = false then throw .invalidArgument
  else if generator ∈ s.group.generators then pure ()
  else if s.group.limits.maxGenerators.toNat ≤ s.group.generators.length then throw .termLimit
  else
    modify (·.withGroup fun group =>
      { group with generators := group.generators ++ [generator], built := false, order := 0 })

def permStep (amount : Nat) : PermM n Unit := do
  let s ← get
  if s.group.limits.maxSteps.toNat - s.steps < amount then throw .timeout
  else set { s with steps := s.steps + amount }

/-- The result says whether the group has changed. -/
def permAddStrong (image : Image n) (sign : Int) : PermM n Bool := do
  let s ← get
  if permIdentityImage image then
    noteNegative (decide (sign < 0)) s.group.negativeIdentity
  else
    match s.group.strong.find? fun generator => decide (generator.image = image) with
    | some generator => noteNegative (decide (generator.sign ≠ sign)) s.group.negativeIdentity
    | none =>
        if s.group.limits.maxStrongGenerators.toNat ≤ s.group.strong.length then throw .termLimit
        else do
          modify (·.withGroup fun group =>
            { group with strong := group.strong ++ [⟨⟨image, sign⟩, permLevel image⟩] })
          pure true
where
  /-- The identity has been met with the sign -1. -/
  noteNegative (met known : Bool) : PermM n Bool :=
    if met && !known then do
      modify (·.withGroup fun group => { group with negativeIdentity := true })
      pure true
    else pure false

def permGroupOrder (group : PermGroup n) : UInt64 := if group.built then group.order else 0

def permGroupHasNegativeIdentity (group : PermGroup n) : Bool := group.built && group.negativeIdentity

end PhyNspire.Permutation.Perm

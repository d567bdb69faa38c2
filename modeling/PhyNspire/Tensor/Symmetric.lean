import Mathlib.Data.Fintype.Inv
import PhyNspire.Tensor.SlotGroup

/-!
Dense tensors that keep their declared symmetries. A component is a handle and a sign; an assignment
writes a whole orbit, the handle to all its members and the sign of the group element to each. A component
that a group element with the sign minus one leaves in place is forced to vanish.
-/

namespace PhyNspire.Tensor.Symmetric
open Platform

abbrev Index (rank dimension : Nat) := Fin rank → Fin dimension

variable {Ref : Type} [DecidableEq Ref] {rank dimension : Nat} [NeZero dimension]

/-- `phy_tensor_permute`: the index at a slot goes to the image of the slot. -/
def permute (entry : SlotPerm rank) (indices : Index rank dimension) : Index rank dimension :=
  fun slot => indices (entry.1.symm slot)

def flatOf (indices : Index rank dimension) : Nat := tensorFlatOf dimension (List.ofFn fun slot => (indices slot).val)

/-- `phy_tensor_indices_of`. -/
def indicesOf (flat : Nat) : Index rank dimension := fun slot => Fin.ofNat dimension (flat / dimension ^ (rank - 1 - slot.val))

/-- The tuples in the order of the table. -/
def flats (rank dimension : Nat) [NeZero dimension] : List (Index rank dimension) :=
  (List.range (dimension ^ rank)).map indicesOf

/-- `phy_tensor`, with its group and its tables. -/
structure SymmetricTensor (Ref : Type) (rank dimension : Nat) where
  valence : Fin rank → Variance
  zero : Ref
  group : SlotGroup rank
  hasAssignment : Bool
  values : Index rank dimension → Ref
  signs : Index rank dimension → Int
  assigned : Index rank dimension → Bool

/-- What `phy_tensor_canonical_flat` has found: the best tuple, its sign, and whether the component vanishes. -/
structure Canonical (rank dimension : Nat) where
  best : Index rank dimension
  bestSign : Int
  forcedZero : Bool

def canonicalStep (indices : Index rank dimension) (found : Canonical rank dimension) (entry : SlotPerm rank) :
    Canonical rank dimension :=
  let candidate := permute entry indices
  let forced := found.forcedZero || decide (flatOf candidate = flatOf indices ∧ entry.2 = -1)
  if flatOf candidate < flatOf found.best then ⟨candidate, entry.2, forced⟩ else { found with forcedZero := forced }

/-- `phy_tensor_canonical_flat`: the representative of an orbit, and the sign. -/
def canonicalFlat (tensor : SymmetricTensor Ref rank dimension) (indices : Index rank dimension) :
    Index rank dimension × Int :=
  let found := tensor.group.entries.foldl (canonicalStep indices) ⟨indices, 1, tensor.group.identicallyZero⟩
  (found.best, if found.forcedZero then 0 else found.bestSign)

/-- The sign of a component that nothing is assigned to. -/
def emptySign (tensor : SymmetricTensor Ref rank dimension) (indices : Index rank dimension) : Int :=
  if (canonicalFlat tensor indices).2 = 0 then 0 else 1

def resetTables (tensor : SymmetricTensor Ref rank dimension) : SymmetricTensor Ref rank dimension :=
  { tensor with
    values := fun _ => tensor.zero
    signs := emptySign tensor
    assigned := fun _ => false
    hasAssignment := false }

def tensorCreate (valence : Fin rank → Variance) (zero : Ref) : Except Status (SymmetricTensor Ref rank dimension) :=
  if tensorMaxRank < rank then .error .unsupported
  else .ok (resetTables ⟨valence, zero, .identity rank, false, fun _ => zero, fun _ => 0, fun _ => false⟩)

/-- The permutation with given images; every slot must be hit once. -/
def permOf (rank : Nat) (image : List Nat) : Option (Equiv.Perm (Fin rank)) :=
  if shape : image.length = rank ∧ (∀ slot ∈ image, slot < rank) ∧ image.Nodup then
    let send (slot : Fin rank) : Fin rank :=
      ⟨image.get (slot.cast shape.1.symm), shape.2.1 _ (List.get_mem _ _)⟩
    have injective : Function.Injective send := by
      intro first second same
      exact Fin.cast_injective shape.1.symm (shape.2.2.injective_get (Fin.ext_iff.mp same))
    some ⟨send, Fintype.bijInv (Finite.injective_iff_bijective.mp injective),
      Fintype.leftInverse_bijInv _, Fintype.rightInverse_bijInv _⟩
  else none

def unitOf (sign : Int) : ℤˣ := if sign = 1 then 1 else -1

def declarePermutation (tensor : SymmetricTensor Ref rank dimension) (image : List Nat) (sign : Int) :
    Status × SymmetricTensor Ref rank dimension :=
  if tensor.hasAssignment then (.assumption, tensor)
  else if image.length ≠ rank then (.invalidArgument, tensor)
  else if sign ≠ 1 ∧ sign ≠ -1 then (.invalidArgument, tensor)
  else match permOf rank image with
    | none => (.invalidArgument, tensor)
    | some perm =>
      if ∃ slot, tensor.valence (perm slot) ≠ tensor.valence slot then (.type, tensor)
      else match addGenerator tensor.group (perm, unitOf sign) with
        | .error status => (status, tensor)
        | .ok group => (.ok, resetTables { tensor with group := group })

/-- `phy_ir_symmetry`. -/
inductive Symmetry where
  | none
  | symmetric
  | antisymmetric
deriving DecidableEq, Repr

def exchangeImage (rank slotA slotB : Nat) : List Nat := ((List.range rank).set slotA slotB).set slotB slotA

def declareSlotSymmetry (tensor : SymmetricTensor Ref rank dimension) (slotA slotB : Nat) (symmetry : Symmetry) :
    Status × SymmetricTensor Ref rank dimension :=
  if slotA = slotB ∨ rank ≤ slotA ∨ rank ≤ slotB then (.invalidArgument, tensor)
  else match symmetry with
    | .symmetric => declarePermutation tensor (exchangeImage rank slotA slotB) 1
    | .antisymmetric => declarePermutation tensor (exchangeImage rank slotA slotB) (-1)
    | .none => (.invalidArgument, tensor)

/-- The declarations of `phy_tensor_declare_riemann_symmetry`. -/
def riemannDeclarations : List (List Nat × Int) := [([1, 0, 2, 3], -1), ([0, 1, 3, 2], -1), ([2, 3, 0, 1], 1)]

def declareAll (tensor : SymmetricTensor Ref rank dimension) :
    List (List Nat × Int) → Status × SymmetricTensor Ref rank dimension
  | [] => (.ok, tensor)
  | declaration :: rest =>
    let declared := declarePermutation tensor declaration.1 declaration.2
    if declared.1 = .ok then declareAll declared.2 rest else declared

/-- `phy_tensor_declare_riemann_symmetry`: all three declarations or none. -/
def declareRiemannSymmetry (tensor : SymmetricTensor Ref rank dimension) : Status × SymmetricTensor Ref rank dimension :=
  if rank ≠ 4 then (.invalidArgument, tensor)
  else if tensor.hasAssignment then (.assumption, tensor)
  else
    let declared := declareAll tensor riemannDeclarations
    if declared.1 ≠ .ok then (declared.1, resetTables { declared.2 with group := tensor.group }) else declared

def writeAt {α β : Type} [DecidableEq α] (table : α → β) (place : α) (value : β) : α → β :=
  fun other => if other = place then value else table other

/-- One component of an orbit, from a component with the handle and sign that are given. -/
def writeEntry (indices : Index rank dimension) (value : Ref) (sign : Int) (tensor : SymmetricTensor Ref rank dimension)
    (entry : SlotPerm rank) : SymmetricTensor Ref rank dimension :=
  { tensor with
    values := writeAt tensor.values (permute entry indices) value
    signs := writeAt tensor.signs (permute entry indices) (entry.2 * sign)
    assigned := writeAt tensor.assigned (permute entry indices) true }

def markEntry (indices : Index rank dimension) (tensor : SymmetricTensor Ref rank dimension) (entry : SlotPerm rank) :
    SymmetricTensor Ref rank dimension :=
  { tensor with assigned := writeAt tensor.assigned (permute entry indices) true }

def assignOrbit (tensor : SymmetricTensor Ref rank dimension) (indices : Index rank dimension) (value : Ref) :
    Status × SymmetricTensor Ref rank dimension :=
  if (canonicalFlat tensor indices).2 = 0 then
    if value ≠ tensor.zero then (.assumption, tensor)
    else (.ok, { tensor.group.entries.foldl (markEntry indices) tensor with hasAssignment := true })
  else if tensor.group.entries.any fun entry => tensor.assigned (permute entry indices) &&
      (decide (tensor.values (permute entry indices) ≠ value) || decide (tensor.signs (permute entry indices) ≠ entry.2)) then
    (.assumption, tensor)
  else (.ok, { tensor.group.entries.foldl (writeEntry indices value 1) tensor with hasAssignment := true })

def checkIndices (dimension : Nat) (indices : Fin rank → Nat) : Option (Index rank dimension) :=
  if inside : ∀ slot, indices slot < dimension then some fun slot => ⟨indices slot, inside slot⟩ else none

/-- `phy_tensor_set`; no value stands for `PHY_IR_NULL`. -/
def tensorSet (tensor : SymmetricTensor Ref rank dimension) (indices : Fin rank → Nat) (value : Option Ref) :
    Status × SymmetricTensor Ref rank dimension :=
  match value, checkIndices dimension indices with
  | some value, some indices => assignOrbit tensor indices value
  | _, _ => (.invalidArgument, tensor)

def tensorSetFlat (tensor : SymmetricTensor Ref rank dimension) (flat : Nat) (value : Option Ref) :
    Status × SymmetricTensor Ref rank dimension :=
  match value with
  | none => (.invalidArgument, tensor)
  | some value => if dimension ^ rank ≤ flat then (.invalidArgument, tensor) else assignOrbit tensor (indicesOf flat) value

def clearEntry (indices : Index rank dimension) (tensor : SymmetricTensor Ref rank dimension) (entry : SlotPerm rank) :
    SymmetricTensor Ref rank dimension :=
  { tensor with
    values := writeAt tensor.values (permute entry indices) tensor.zero
    signs := writeAt tensor.signs (permute entry indices) (emptySign tensor (permute entry indices))
    assigned := writeAt tensor.assigned (permute entry indices) false }

def clearComponent (tensor : SymmetricTensor Ref rank dimension) (indices : Fin rank → Nat) :
    Status × SymmetricTensor Ref rank dimension :=
  match checkIndices dimension indices with
  | none => (.invalidArgument, tensor)
  | some indices =>
    let cleared := tensor.group.entries.foldl (clearEntry indices) tensor
    (.ok, { cleared with hasAssignment := (flats rank dimension).any cleared.assigned })

/-- The body of the loop of `phy_tensor_fill_symmetries`. -/
def fillOrbit (tensor : SymmetricTensor Ref rank dimension) (indices : Index rank dimension) :
    SymmetricTensor Ref rank dimension :=
  let found := canonicalFlat tensor indices
  if found.1 ≠ indices ∨ found.2 = 0 ∨ tensor.assigned indices = false then tensor
  else tensor.group.entries.foldl (writeEntry indices (tensor.values indices) (tensor.signs indices)) tensor

def fillSymmetries (tensor : SymmetricTensor Ref rank dimension) : Status × SymmetricTensor Ref rank dimension :=
  (.ok, (flats rank dimension).foldl fillOrbit tensor)

/-- The checks of `phy_tensor_check_symmetries` on one component. -/
def componentAgrees (tensor : SymmetricTensor Ref rank dimension) (indices : Index rank dimension) : Bool :=
  !(decide (tensor.signs indices = 0 ∧ tensor.values indices ≠ tensor.zero)) &&
    !(tensor.group.identicallyZero && decide (tensor.values indices ≠ tensor.zero)) &&
    tensor.group.entries.all fun entry =>
      let target := permute entry indices
      decide (tensor.values indices = tensor.zero ∧ tensor.values target = tensor.zero) ||
        (decide (tensor.values target = tensor.values indices) &&
          decide (tensor.signs target = entry.2 * tensor.signs indices))

def checkSymmetries (tensor : SymmetricTensor Ref rank dimension) : Status :=
  if (flats rank dimension).all (componentAgrees tensor) then .ok else .assumption

/-- The calls that change a tensor. -/
inductive Operation (Ref : Type) (rank : Nat) where
  | declarePermutation (image : List Nat) (sign : Int)
  | declareSlotSymmetry (slotA slotB : Nat) (symmetry : Symmetry)
  | declareRiemannSymmetry
  | set (indices : Fin rank → Nat) (value : Option Ref)
  | setFlat (flat : Nat) (value : Option Ref)
  | clearComponent (indices : Fin rank → Nat)
  | clear
  | fillSymmetries

def perform (tensor : SymmetricTensor Ref rank dimension) :
    Operation Ref rank → Status × SymmetricTensor Ref rank dimension
  | .declarePermutation image sign => declarePermutation tensor image sign
  | .declareSlotSymmetry slotA slotB symmetry => declareSlotSymmetry tensor slotA slotB symmetry
  | .declareRiemannSymmetry => declareRiemannSymmetry tensor
  | .set indices value => tensorSet tensor indices value
  | .setFlat flat value => tensorSetFlat tensor flat value
  | .clearComponent indices => clearComponent tensor indices
  | .clear => (.ok, resetTables tensor)
  | .fillSymmetries => fillSymmetries tensor

end PhyNspire.Tensor.Symmetric

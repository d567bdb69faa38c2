import Mathlib.Data.List.GetD
import PhyNspire.Platform

/-!
Dense component tensors: one handle and one sign for each index tuple, in row-major order.
-/

namespace PhyNspire.Tensor
open Platform

/-- `phy_ir_variance`. -/
inductive Variance where
  | lower
  | upper
deriving DecidableEq, Repr

/-- `phy_chart`: one coordinate symbol for each axis. -/
structure Chart (Ref : Type) where
  address : Nat
  coordinates : List Ref
deriving DecidableEq, Repr

/-- `phy_tensor`. A declared symmetry can force a component to vanish, which its sign records. -/
structure Tensor (Ref : Type) where
  chart : Chart Ref
  valence : List Variance
  zero : Ref
  values : List Ref
  signs : List Int
  sized : values.length = chart.coordinates.length ^ valence.length
  paired : signs.length = values.length
  signed : ∀ sign ∈ signs, sign = 0 ∨ sign = 1 ∨ sign = -1

/-- `phy_tensor_component`. -/
structure Component (Ref : Type) where
  ref : Ref
  sign : Int
deriving DecidableEq, Repr

def tensorMaxRank : Nat := 4

variable {Ref : Type}

abbrev Tensor.rank (tensor : Tensor Ref) : Nat := tensor.valence.length
abbrev Tensor.dimension (tensor : Tensor Ref) : Nat := tensor.chart.coordinates.length

def tensorFlatOf (dimension : Nat) (indices : List Nat) : Nat :=
  indices.foldl (fun flat index => flat * dimension + index) 0

def tensorGetFlat (tensor : Tensor Ref) (flat : Nat) : Except Status (Component Ref) :=
  if flat < tensor.values.length then
    .ok ⟨tensor.values.getD flat tensor.zero, tensor.signs.getD flat 0⟩
  else .error .invalidArgument

def tensorGet (tensor : Tensor Ref) (indices : List Nat) : Except Status (Component Ref) :=
  if indices.length ≠ tensor.rank ∨ ∃ index ∈ indices, tensor.dimension ≤ index then .error .invalidArgument
  else tensorGetFlat tensor (tensorFlatOf tensor.dimension indices)

theorem tensorGet_sign {tensor : Tensor Ref} {indices : List Nat} {entry : Component Ref}
    (read : tensorGet tensor indices = .ok entry) : entry.sign = 0 ∨ entry.sign = 1 ∨ entry.sign = -1 := by
  unfold tensorGet tensorGetFlat at read
  split_ifs at read with bad inside
  cases read
  rw [← tensor.paired] at inside
  rw [List.getD_eq_getElem _ _ inside]
  exact tensor.signed _ (List.getElem_mem inside)

end PhyNspire.Tensor

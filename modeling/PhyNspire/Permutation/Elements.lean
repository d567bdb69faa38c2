import Mathlib.Algebra.Ring.Int.Units
import Mathlib.GroupTheory.Perm.Basic
import Mathlib.Tactic.Group
import PhyNspire.Permutation.Bsgs

/-!
Queries of a built group: membership and orbits, as orbit.c answers them.
-/

namespace PhyNspire.Permutation.Orbit
open Platform Lib.Search Perm Bsgs

variable {n : Nat}

def permGroupContains (image : Words n) (sign : Int) : PermM n Bool := do
  let s ← get
  if s.group.built = false ∨ (sign ≠ -1 ∧ sign ≠ 1) ∨ permutationValid image = false then throw .invalidArgument
  else do
    permChainAllocate
    modify fun s => { s with steps := 0 }
    permChainBuild
    let (remainder, remainderSign) ← permSift (levelsFrom 0) (readImage image) sign
    pure (permIdentityImage remainder && (decide (0 < remainderSign) || s.group.negativeIdentity))

/-- The innermost statements of `phy_perm_group_orbit`. -/
def markImage (current : Fin n) (generator : StrongGenerator n) : PermM n (Option (Fin n)) := do
  permStep 1
  let s ← get
  let image := generator.image current
  if s.seen image then pure none
  else do
    set { s with seen := Function.update s.seen image true }
    pure (some image)

/-- The points of an orbit in the order in which they are found, for an output array of the
given capacity. -/
def permGroupOrbit (point : UInt16) (capacity : Nat) : PermM n (List (Fin n)) := do
  let s ← get
  if inside : point.toNat < n then
    if s.group.built = false then throw .invalidArgument
    else if capacity < n then throw .termLimit
    else
      let queueOffset := alignUp n 2
      if (sizeMax - queueOffset) / 2 < n then throw .memoryLimit
      else if s.group.limits.maxBytes.toNat - s.group.persistentBytes < queueOffset + n * 2 then throw .memoryLimit
      else do
        let (granted, heap) := s.heap.alloc
        set { s with heap := heap, seen := fun _ => false, steps := 0 }
        if granted then exploreFrom ⟨point.toNat, inside⟩ else throw .memoryLimit
  else throw .invalidArgument
where
  exploreFrom (point : Fin n) : PermM n (List (Fin n)) := do
    modify fun s => { s with seen := Function.update s.seen point true }
    let s ← get
    explore markImage s.group.strong n 0 [point]

end PhyNspire.Permutation.Orbit

/-!
Signed image arrays as elements of the group of signed permutations.

The arithmetic of image arrays is that of `ℤˣ × Equiv.Perm (Fin n)`, as long as the arrays
are injective and the signs are 1 or -1.
-/

namespace PhyNspire.Permutation.Elements
open Perm

variable {n : Nat} {image left right : Image n} {sign sign' : Int}

abbrev Signed (n : Nat) := ℤˣ × Equiv.Perm (Fin n)

structure Proper (image : Image n) (sign : Int) : Prop where
  injective : Function.Injective image
  signed : sign = 1 ∨ sign = -1

noncomputable def permOf (image : Image n) : Equiv.Perm (Fin n) := by
  classical
  exact if injective : Function.Injective image then
    Equiv.ofBijective image (Finite.injective_iff_bijective.mp injective) else 1

def signOf (sign : Int) : ℤˣ := if sign < 0 then -1 else 1

noncomputable def elementOf (image : Image n) (sign : Int) : Signed n := (signOf sign, permOf image)

theorem permOf_apply (injective : Function.Injective image) (i : Fin n) : permOf image i = image i := by
  rw [permOf, dif_pos injective, Equiv.ofBijective_apply]

theorem permOf_eq (σ : Equiv.Perm (Fin n)) (same : ∀ i, image i = σ i) : permOf image = σ := by
  have injective : Function.Injective image := fun i j equal => σ.injective (by rw [← same, ← same, equal])
  ext i
  rw [permOf_apply injective, same]

theorem permOf_identity : permOf (permutationIdentity : Image n) = 1 := permOf_eq 1 fun _ => rfl

theorem Proper.compose (first : Proper left sign) (second : Proper right sign') :
    Proper (permComposeUnchecked left right) (sign * sign') := by
  refine ⟨fun i j equal => second.injective (first.injective equal), ?_⟩
  rcases first.signed with rfl | rfl <;> rcases second.signed with rfl | rfl <;> decide

theorem elementOf_compose (first : Proper left sign) (second : Proper right sign') :
    elementOf (permComposeUnchecked left right) (sign * sign') = elementOf left sign * elementOf right sign' := by
  refine Prod.ext ?_ (permOf_eq _ fun i => ?_)
  · change signOf (sign * sign') = signOf sign * signOf sign'
    rcases first.signed with rfl | rfl <;> rcases second.signed with rfl | rfl <;> decide
  · rw [Prod.snd_mul, Equiv.Perm.mul_apply]
    exact (congrArg left (permOf_apply second.injective i).symm).trans (permOf_apply first.injective _).symm

theorem inverse_loop (injective : Function.Injective image) (indices : List (Fin n)) (out : Image n) (i : Fin n)
    (inside : i ∈ indices) :
    indices.foldl (fun out i => Function.update out (image i) i) out (image i) = i := by
  induction indices generalizing out with
  | nil => cases inside
  | cons first rest ih =>
    rw [List.foldl_cons]
    by_cases later : i ∈ rest
    · exact ih _ later
    · obtain rfl : i = first := (List.mem_cons.mp inside).resolve_right later
      have untouched : ∀ (indices : List (Fin n)) (out : Image n), i ∉ indices →
          indices.foldl (fun out i => Function.update out (image i) i) out (image i) = out (image i) := by
        intro indices
        induction indices with
        | nil => exact fun _ _ => rfl
        | cons j rest ih =>
          intro out absent
          rw [List.foldl_cons, ih _ (List.not_mem_of_not_mem_cons absent), Function.update_of_ne]
          intro equal
          exact absent (by simp [injective equal])
      rw [untouched rest _ later, Function.update_self]

theorem permInverseUnchecked_apply (injective : Function.Injective image) (out : Image n) (i : Fin n) :
    permInverseUnchecked image out (image i) = i :=
  inverse_loop injective (List.finRange n) out i (List.mem_finRange i)

theorem permOf_inverse (injective : Function.Injective image) (out : Image n) :
    permOf (permInverseUnchecked image out) = (permOf image)⁻¹ := by
  refine permOf_eq _ fun i => ?_
  obtain ⟨j, rfl⟩ := (Finite.injective_iff_surjective.mp injective) i
  rw [permInverseUnchecked_apply injective, Equiv.Perm.eq_inv_iff_eq, permOf_apply injective]

theorem Proper.inverse (proper : Proper image sign) (out : Image n) :
    Proper (permInverseUnchecked image out) sign := by
  refine ⟨fun i j equal => ?_, proper.signed⟩
  obtain ⟨k, rfl⟩ := (Finite.injective_iff_surjective.mp proper.injective) i
  obtain ⟨l, rfl⟩ := (Finite.injective_iff_surjective.mp proper.injective) j
  rw [permInverseUnchecked_apply proper.injective, permInverseUnchecked_apply proper.injective] at equal
  rw [equal]

theorem elementOf_inverse (proper : Proper image sign) (out : Image n) :
    elementOf (permInverseUnchecked image out) sign = (elementOf image sign)⁻¹ := by
  refine Prod.ext ?_ (permOf_inverse proper.injective out)
  rcases proper.signed with rfl | rfl <;> simp [elementOf, signOf]

theorem Proper.identity : Proper (permutationIdentity : Image n) 1 := ⟨fun _ _ equal => equal, .inl rfl⟩

theorem elementOf_identity : elementOf (permutationIdentity : Image n) 1 = 1 :=
  Prod.ext (by simp [elementOf, signOf]) permOf_identity

theorem permLevel_le (image : Image n) : permLevel image ≤ n := by
  unfold permLevel
  split
  · exact Fin.is_le'
  · exact Nat.le_refl n

theorem permLevel_fixes (i : Fin n) (below : i.val < permLevel image) : image i = i := by
  unfold permLevel at below
  by_contra moved
  split at below
  · rename_i first found
    obtain ⟨_, before, after, split, fixed⟩ := List.find?_eq_some_iff_append.mp found
    have member : i ∈ before ++ first :: after := split ▸ List.mem_finRange i
    have sorted : (before ++ first :: after).Pairwise (· < ·) := split ▸ List.pairwise_lt_finRange n
    rcases List.mem_append.mp member with earlier | later
    · exact absurd (fixed i earlier) (by simpa using moved)
    · rcases List.mem_cons.mp later with rfl | after_first
      · exact absurd below (Nat.lt_irrefl _)
      · have larger := (List.pairwise_cons.mp (List.pairwise_append.mp sorted).2.1).1 i after_first
        exact absurd (Fin.lt_def.mp larger) (by omega)
  · rename_i none
    have fixed := List.find?_eq_none.mp none i (List.mem_finRange i)
    exact moved (by simpa using fixed)

theorem permIdentityImage_iff : permIdentityImage image = true ↔ image = permutationIdentity := by
  rw [permIdentityImage, decide_eq_true_iff]
  constructor
  · intro whole
    funext i
    exact permLevel_fixes i (by omega)
  · rintro rfl
    have none : (List.finRange n).find? (fun i => decide (permutationIdentity i ≠ i)) = none :=
      List.find?_eq_none.mpr fun i _ => by simp [permutationIdentity]
    simp only [permLevel, none]

theorem le_permLevel {level : Nat} (within : level ≤ n) (fixed : ∀ i : Fin n, i.val < level → image i = i) :
    level ≤ permLevel image := by
  unfold permLevel
  split
  · rename_i first found
    have moved := List.find?_some found
    by_contra less
    exact absurd (fixed first (by omega)) (by simpa using moved)
  · exact within

theorem readImage_val {words : Words n} (valid : permutationValid words = true) (i : Fin n) :
    (readImage words i).val = (words i).toNat := by
  simp only [permutationValid, Bool.and_eq_true, List.all_eq_true, List.mem_finRange, true_implies,
    decide_eq_true_eq] at valid
  rw [readImage, dif_pos (valid.2 i).1]

theorem readImage_injective {words : Words n} (valid : permutationValid words = true) :
    Function.Injective (readImage words) := by
  have values := readImage_val valid
  simp only [permutationValid, Bool.and_eq_true, List.all_eq_true, List.mem_finRange, true_implies,
    decide_eq_true_eq, Bool.not_eq_true', Bool.and_eq_false_iff, decide_eq_false_iff_not] at valid
  intro i j equal
  have same : words i = words j := by
    rw [← UInt16.toNat_inj, ← values, ← values, equal]
  rcases lt_trichotomy i j with less | rfl | more
  · rcases (valid.2 j).2 i with order | different
    · exact absurd less order
    · exact absurd same different
  · rfl
  · rcases (valid.2 i).2 j with order | different
    · exact absurd more order
    · exact absurd same.symm different

end PhyNspire.Permutation.Elements

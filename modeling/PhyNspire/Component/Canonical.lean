import PhyNspire.Component.Orbits
import PhyNspire.Permutation.Runs

/-!
Canonical index tuples: what a successful creation establishes about the slot group, and
what `phy_component_tensor_canonical_indices` hands out.
-/

namespace PhyNspire.Component
open Platform Lib.Stateful Permutation.Perm Permutation.Bsgs Permutation.Elements Permutation.Transversals
open Permutation.StrongGenerators Permutation.Sifting Permutation.SchreierSims Permutation.Runs

variable {State Ref : Type} {n : Nat}

/-- The slot group of a head. A head without slots has nothing to permute, so whatever signs it
declares its group is trivial. -/
def slotGroup (head : TensorHead n) : Subgroup (Signed n) := if n = 0 then ⊥ else generatedFrom head.generators

structure BuiltFor (G : Subgroup (Signed n)) (group : PermGroup n) (chain : PermChain n) : Prop where
  ready : group.built = true
  built : Built group
  generates : generatedBy group.generators = G
  rows : ∀ level, Row group.strong chain level

structure Realized (tensor : ComponentTensor Ref n) : Prop where
  group : n ≠ 0 → ∃ group, tensor.group = some group ∧ BuiltFor (slotGroup tensor.head) group tensor.chain
  bases : ∀ generator ∈ tensor.head.generators, ∀ slot,
    tensor.bases slot = tensor.bases (readImage generator.1 slot)

theorem addGenerators_spec (generators accepted : List (Words n × Int)) (s : Session n) (consistent : Consistent accepted s) :
    wp (generators.forM fun generator => permGroupAddGenerator generator.1 generator.2 : PermM n Unit)
      (fun _ t => Consistent (accepted ++ generators) t) (fun _ _ => True) s := by
  induction generators generalizing accepted s with
  | nil =>
    rw [List.append_nil]
    exact consistent
  | cons generator generators ih =>
    rw [List.forM, wp_bind]
    refine wp_mono (permGroupAddGenerator_spec generator.1 generator.2 consistent) ?_ (fun _ _ _ => trivial)
    intro _ t held
    simpa only [List.append_assoc, List.singleton_append] using ih (accepted ++ [generator]) t held

theorem declareSymmetries_spec (generators : List (Words n × Int)) (s : Session n) (consistent : Consistent [] s) :
    wp (declareSymmetries generators) (fun _ t => BuiltFor (generatedFrom generators) t.group t.chain)
      (fun _ _ => True) s := by
  unfold declareSymmetries
  rw [wp_bind]
  refine wp_mono (addGenerators_spec generators [] s consistent) ?_ (fun _ _ _ => trivial)
  rintro _ t held
  rw [wp_bind]
  refine wp_mono (permGroupBuildBsgs_spec t held.fits) ?_ (fun _ _ _ => trivial)
  rintro _ u ⟨same_u, ready, built⟩
  rw [wp_bind]
  refine wp_mono (permChainAllocate_spec u) ?_ (fun _ _ _ => trivial)
  rintro _ v same_v
  rw [wp_bind, wp_modify]
  rw [← same_v] at ready built same_u
  refine wp_mono (permChainBuild_spec _ built.sound.proper) ?_ (fun _ _ _ => trivial)
  rintro _ w ⟨same_w, rows⟩
  rw [same_w]
  exact ⟨ready, built, by rw [same_u, held.generated, List.nil_append], rows⟩

theorem buildSlotGroup_spec (head : TensorHead n) (limits : ComponentLimits) (groupBudget : UInt32) (heap : Heap) :
    wp (buildSlotGroup head.generators limits groupBudget)
      (fun result _ => n ≠ 0 → ∃ group, result.1 = some group ∧ BuiltFor (slotGroup head) group result.2)
      (fun _ _ => True) heap := by
  unfold wp buildSlotGroup
  by_cases empty : n = 0
  · rw [if_pos empty]
    exact fun positive => absurd empty positive
  · rw [if_neg empty]
    generalize made : permGroupCreate n _ heap = result
    rcases result with ⟨status | group, heap'⟩
    · trivial
    · have consistent : Consistent [] (⟨group, heap', blankChain, fun _ => false, 0⟩ : Session n) :=
        permGroupCreate_consistent made rfl
      have held := declareSymmetries_spec head.generators _ consistent
      unfold wp at held
      dsimp only
      cases run : declareSymmetries head.generators ⟨group, heap', blankChain, fun _ => false, 0⟩ with
      | error status session => trivial
      | ok value session =>
        rw [run] at held
        refine fun _ => ⟨_, rfl, ?_⟩
        rw [slotGroup, if_neg empty]
        exact held

structure Created (head : TensorHead n) (bases : Fin n → ComponentBasis) (tensor : ComponentTensor Ref n) : Prop where
  realized : Realized tensor
  head : tensor.head = head
  bases : tensor.bases = bases
  empty : tensor.entries = []

theorem componentTensorBuild_spec (head : TensorHead n) (bases : Fin n → ComponentBasis) (valence : Fin n → Nat)
    (requested : Option ComponentLimits) (heap : Heap) :
    wp (componentTensorBuild head bases valence requested)
      (fun finish _ => ∀ zero : Ref, Created head bases (finish zero) ∧ (finish zero).zero = zero)
      (fun _ _ => True) heap := by
  unfold componentTensorBuild
  cases resolveLimits requested with
  | error status => trivial
  | ok limits =>
    refine wp_ite (fun _ => trivial) (fun valid => ?_)
    have alike : ∀ generator ∈ head.generators, ∀ slot, bases slot = bases (readImage generator.1 slot) := by
      have valid := not_not.mp valid
      unfold validateRealization at valid
      split_ifs at valid with _ _ mixed
      intro generator member slot
      by_contra different
      exact mixed ⟨generator, member, slot, .inl different⟩
    have asked : ∀ {good : Unit → Heap → Prop} (heap : Heap), good () heap.alloc.2 →
        wp request good (fun _ _ => True) heap := fun heap held => by
      unfold request
      simp only [wp_bind, wp_get, wp_set]
      exact wp_ite (fun _ => held) (fun _ => trivial)
    rw [wp_bind]
    refine asked heap (wp_ite (fun _ => trivial) (fun _ => ?_))
    cases metadataBytes n with
    | none => trivial
    | some bytes =>
      refine wp_ite (fun _ => trivial) (fun _ => ?_)
      rw [wp_bind]
      refine asked _ ?_
      rw [wp_bind]
      refine wp_mono (buildSlotGroup_spec head limits _ _) ?_ (fun _ _ _ => trivial)
      exact fun result _ held zero => ⟨⟨⟨held, alike⟩, rfl, rfl, rfl⟩, rfl⟩

structure Canonical (G : Subgroup (Signed n)) (indices : Indices n) (result : Indices n × Int) : Prop where
  orbit : ∃ g ∈ G, moved g indices = result.1
  forced : result.2 = 0 ↔ ∃ g ∈ G, g.1 = -1 ∧ moved g indices = indices
  reached : result.2 ≠ 0 → ∃ g ∈ G, moved g indices = result.1 ∧ (g.1 : Int) = result.2
  least : result.2 ≠ 0 → ∀ g ∈ G, toLex result.1 ≤ toLex (moved g indices)

/-- Two memories that differ in the rows of the search at most. -/
def Scratched (world world' : World State Ref n) : Prop :=
  ∃ scratch : Scratch n, world' = { world with tensor := { world.tensor with toScratch := scratch } }

theorem Scratched.refl (world : World State Ref n) : Scratched world world := ⟨world.tensor.toScratch, rfl⟩

theorem canonical_of_covered {G : Subgroup (Signed n)} {indices : Indices n} {search : Search n}
    (honest : Honest G indices search) (going : search.zero = false) (found : search.bestFound = true)
    (covered : ∀ g ∈ G, Covered indices search g) :
    Canonical G indices (search.bestIndices, search.bestSign) := by
  obtain ⟨b, inside, best, signed⟩ := honest.found found
  have nonzero : search.bestSign ≠ 0 := by
    rw [← signed]
    exact Units.ne_zero b.1
  refine ⟨⟨b, inside, best⟩, ⟨fun zero => absurd zero nonzero, ?_⟩, fun _ => ⟨b, inside, best, signed⟩, fun _ g member => ?_⟩
  · rintro ⟨r, reversal, minus, fixed⟩
    have image : moved (r * b) indices = search.bestIndices := by rw [moved_mul, fixed, best]
    rcases (covered (r * b) (mul_mem reversal inside)).2 with below | ⟨_, sign⟩
    · rw [image] at below
      exact absurd below (lt_irrefl _)
    · have same : r.1 * b.1 = b.1 := Units.ext (sign.trans signed.symm)
      rw [mul_eq_right, minus] at same
      exact absurd same (by decide)
  · rcases (covered g member).2 with below | ⟨equal, _⟩
    · exact below.le
    · rw [equal]

theorem componentTensorCanonicalIndices_spec (indices : Indices n) (world : World State Ref n)
    (realized : Realized world.tensor) :
    wp (componentTensorCanonicalIndices indices)
      (fun result world' => Scratched world world' ∧ validateIndices world.tensor indices = true ∧
        Canonical (slotGroup world.tensor.head) indices result)
      (fun status world' => Scratched world world' ∧
        (status = .timeout ∨ status = .invalidArgument ∧ validateIndices world.tensor indices = false)) world := by
  unfold componentTensorCanonicalIndices
  rw [wp_bind, wp_get]
  refine wp_ite (fun outside => ⟨.refl _, .inr ⟨rfl, by simpa using outside⟩⟩) (fun inside => ?_)
  have inside : validateIndices world.tensor indices = true := by simpa using inside
  refine wp_ite (fun empty => ?_) (fun ranked => ?_)
  · have trivialGroup : slotGroup world.tensor.head = ⊥ := if_pos empty
    rw [wp_pure, trivialGroup]
    refine ⟨.refl _, inside, ⟨1, rfl, rfl⟩, ⟨fun never => (by cases never), ?_⟩, fun _ => ⟨1, rfl, rfl, rfl⟩, ?_⟩
    · rintro ⟨g, rfl, minus, _⟩
      exact absurd (show (1 : ℤˣ) = -1 from minus) (by decide)
    · rintro _ g rfl
      exact le_refl _
  · obtain ⟨group, some, built⟩ := realized.group ranked
    refine wp_ite (fun negative => ?_) (fun positive => ?_)
    · rw [some, Option.any_some, permGroupHasNegativeIdentity, built.ready, Bool.true_and] at negative
      have reversal := built.built.sound.negative negative
      rw [built.generates] at reversal
      exact ⟨.refl _, inside, ⟨1, one_mem _, rfl⟩, ⟨fun _ => ⟨minus, reversal, rfl, rfl⟩, fun _ => rfl⟩,
        fun never => absurd rfl never, fun never => absurd rfl never⟩
    · rw [some, Option.any_some, permGroupHasNegativeIdentity, built.ready, Bool.true_and, Bool.not_eq_true] at positive
      have whole : groupFrom group.strong false 0 = slotGroup world.tensor.head := by
        rw [← positive, groupFrom_eq built.built.sound built.built.generates, built.generates]
      have searchable : Searchable group.strong world.tensor.chain :=
        ⟨built.built.sound.proper, built.rows, positive ▸ built.built.generating⟩
      have honest : Honest (slotGroup world.tensor.head) indices (startSearch world.tensor.toScratch) :=
        ⟨fun never => (by cases never), fun never => (by cases never)⟩
      have start : (startSearch world.tensor.toScratch).permutationStack 0 = permutationIdentity := by simp [startSearch]
      have outcome : wp (traverseComponents world.tensor.chain world.tensor.limits indices (levelsFrom 0) 1) _ _ _ :=
        traverseComponents_spec searchable whole.le 0 (Nat.zero_le n) 1 permutationIdentity
          (startSearch world.tensor.toScratch) .identity start (elementOf_identity ▸ one_mem _) honest
      rw [wp_bind]
      unfold wp searching
      unfold wp at outcome
      rw [show levelsFrom 0 = List.finRange n from List.drop_zero] at outcome
      cases run : traverseComponents world.tensor.chain world.tensor.limits indices (List.finRange n) 1
          (startSearch world.tensor.toScratch) with
      | error status search =>
        rw [run] at outcome
        exact ⟨⟨_, rfl⟩, .inl outcome⟩
      | ok value search =>
        rw [run] at outcome
        obtain ⟨advances, covered⟩ := outcome
        have covered : search.zero = false → ∀ g ∈ slotGroup world.tensor.head, Covered indices search g := by
          intro going g member
          have here := covered going g (whole ▸ member)
          rwa [elementOf_identity, one_mul] at here
        have found : search.bestFound = true := by
          cases zero : search.zero with
          | true => exact (advances.honest.reversal zero).1
          | false => exact (covered zero 1 (one_mem _)).1
        refine wp_ite (fun never => ?_) (fun _ => ⟨⟨_, rfl⟩, inside, ?_⟩)
        · rw [found] at never
          cases never
        · cases zero : search.zero with
          | true =>
            obtain ⟨b, member, best, _⟩ := advances.honest.found found
            exact ⟨⟨b, member, best⟩, ⟨fun _ => (advances.honest.reversal zero).2, fun _ => rfl⟩,
              fun never => absurd rfl never, fun never => absurd rfl never⟩
          | false => exact canonical_of_covered advances.honest zero found (covered zero)

end PhyNspire.Component

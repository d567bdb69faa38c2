import PhyNspire.Permutation.Queries

/-!
Groups in use: any sequence of additions, builds and queries, whatever their outcome, and
what a build that succeeds has established about the additions that were accepted.
-/

namespace PhyNspire.Permutation.Runs
open Platform Lib.Stateful Perm Bsgs Orbit Elements Transversals Sifting StrongGenerators SchreierSims Queries Subgroup

variable {n : Nat}

/-- A signed slot permutation, as callers write it, denotes an element. -/
def Denotes (image : Words n) (sign : Int) (g : Signed n) : Prop :=
  (g.1 : Int) = sign ∧ ∀ i, (g.2 i).val = (image i).toNat

def generatedFrom (accepted : List (Words n × Int)) : Subgroup (Signed n) :=
  closure {g | ∃ entry ∈ accepted, Denotes entry.1 entry.2 g}

inductive PermCall (n : Nat) where
  | addGenerator (image : Words n) (sign : Int)
  | buildBsgs
  | contains (image : Words n) (sign : Int)
  | orbit (point : UInt16) (capacity : Nat)

namespace PermCall

def exec : PermCall n → PermM n Unit
  | addGenerator image sign => permGroupAddGenerator image sign
  | buildBsgs => permGroupBuildBsgs
  | contains image sign => (fun _ => ()) <$> permGroupContains image sign
  | orbit point capacity => (fun _ => ()) <$> permGroupOrbit point capacity

def additions : PermCall n → List (Words n × Int)
  | addGenerator image sign => [(image, sign)]
  | _ => []

def after (call : PermCall n) (accepted : List (Words n × Int)) (s : Session n) : List (Words n × Int) × Session n :=
  match call.exec s with
  | .ok _ t => (accepted ++ call.additions, t)
  | .error _ t => (accepted, t)

end PermCall

/-- The sessions that a client can bring about, with the permutations accepted on the way. The
chain, the marks and the steps of a finished operation are not kept. -/
inductive Reachable : List (Words n × Int) → Session n → Prop where
  | create {limits : Option PermLimits} {heap heap' : Heap} {group : PermGroup n} {chain : PermChain n}
      {seen : Fin n → Bool} {steps : Nat} (created : permGroupCreate n limits heap = (.ok group, heap')) :
      Reachable [] ⟨group, heap', chain, seen, steps⟩
  | call {accepted : List (Words n × Int)} {s : Session n} (before : Reachable accepted s) (call : PermCall n) :
      Reachable (call.after accepted s).1 (call.after accepted s).2

/-- What holds between calls. -/
structure Consistent (accepted : List (Words n × Int)) (s : Session n) : Prop where
  fits : ∀ generator ∈ s.group.generators, Proper generator.image generator.sign
  generated : generatedBy s.group.generators = generatedFrom accepted
  built : s.group.built = true → Built s.group

variable {accepted : List (Words n × Int)} {s t : Session n}

theorem Consistent.of_group (consistent : Consistent accepted s) (same : t.group = s.group) : Consistent accepted t := by
  refine ⟨?_, ?_, ?_⟩ <;> rw [same]
  · exact consistent.fits
  · exact consistent.generated
  · exact consistent.built

theorem denotes_iff {image : Words n} {sign : Int} (valid : permutationValid image = true) (signs : sign = 1 ∨ sign = -1)
    (g : Signed n) : Denotes image sign g ↔ g = elementOf (readImage image) sign := by
  have value : ((signOf sign : ℤˣ) : Int) = sign := by rcases signs with rfl | rfl <;> decide
  have injective := readImage_injective valid
  constructor
  · rintro ⟨sign_eq, images⟩
    refine Prod.ext (Units.ext (by rw [sign_eq, elementOf, value])) (Equiv.ext fun i => Fin.ext ?_)
    change (g.2 i).val = (permOf (readImage image) i).val
    rw [images, permOf_apply injective, readImage_val valid]
  · rintro rfl
    refine ⟨value, fun i => ?_⟩
    change (permOf (readImage image) i).val = _
    rw [permOf_apply injective, readImage_val valid]

theorem generatedFrom_append (accepted : List (Words n × Int)) (image : Words n) (sign : Int) (valid : permutationValid image = true)
    (signs : sign = 1 ∨ sign = -1) :
    generatedFrom (accepted ++ [(image, sign)]) = generatedFrom accepted ⊔ closure {elementOf (readImage image) sign} := by
  rw [generatedFrom, generatedFrom, ← Subgroup.closure_union]
  congr 1
  ext g
  simp only [List.mem_append, List.mem_singleton, or_and_right, exists_or, exists_eq_left, Set.mem_union,
    Set.mem_ofPred_eq, Set.mem_singleton_iff, denotes_iff valid signs]

theorem permGroupAddGenerator_spec (image : Words n) (sign : Int) (consistent : Consistent accepted s) :
    wp (permGroupAddGenerator image sign) (fun _ t => Consistent (accepted ++ [(image, sign)]) t)
      (fun _ t => t.group = s.group) s := by
  unfold permGroupAddGenerator
  simp only [wp_bind, wp_get]
  apply wp_ite
  · exact fun _ => rfl
  · intro checked
    simp only [not_or, Bool.not_eq_false] at checked
    obtain ⟨signs, valid⟩ := checked
    have signs : sign = 1 ∨ sign = -1 := by omega
    have fits : Proper (readImage image) sign := ⟨readImage_injective valid, signs⟩
    have generated := generatedFrom_append accepted image sign valid signs
    rw [← consistent.generated] at generated
    apply wp_ite
    · intro listed
      have inside : elementOf (readImage image) sign ∈ generatedBy s.group.generators :=
        subset_closure ⟨_, listed, rfl⟩
      rw [sup_eq_left.mpr ((closure_le _).mpr (by simpa using inside))] at generated
      exact ⟨consistent.fits, generated.symm, consistent.built⟩
    · intro _
      apply wp_ite
      · exact fun _ => rfl
      · intro _
        refine ⟨fun generator member => ?_, ?_, fun ready => (by cases ready)⟩
        · rcases List.mem_append.mp member with old | new
          · exact consistent.fits generator old
          · obtain rfl := List.mem_singleton.mp new
            exact fits
        · rw [generated, generatedBy, generatedBy, ← Subgroup.closure_union]
          congr 1
          ext g
          simp [Session.withGroup, or_and_right, exists_or, or_comm]

theorem permGroupCreate_consistent {limits : Option PermLimits} {heap heap' : Heap} {group : PermGroup n}
    (created : permGroupCreate n limits heap = (.ok group, heap')) (same : s.group = group) : Consistent [] s := by
  have fresh : group.generators = [] ∧ group.built = false := by
    unfold permGroupCreate at created
    grind
  refine ⟨?_, ?_, ?_⟩ <;> rw [same]
  · simp [fresh.1]
  · rw [fresh.1, generatedBy, generatedFrom]
    simp
  · simp [fresh.2]

theorem PermCall.consistent (call : PermCall n) (consistent : Consistent accepted s) :
    Consistent (call.after accepted s).1 (call.after accepted s).2 := by
  have outcome : wp call.exec (fun _ t => Consistent (accepted ++ call.additions) t)
      (fun _ t => Consistent accepted t) s := by
    cases call with
    | addGenerator image sign =>
      exact wp_mono (permGroupAddGenerator_spec image sign consistent) (fun _ _ held => held)
        (fun _ _ same => consistent.of_group same)
    | buildBsgs =>
      refine wp_mono (permGroupBuildBsgs_spec s consistent.fits) ?_ ?_
      · rintro _ t ⟨generators, _, built⟩
        refine ⟨?_, ?_, fun _ => built⟩ <;> rw [generators]
        · exact consistent.fits
        · simpa only [additions, List.append_nil] using consistent.generated
      · rintro _ t ⟨generators, unbuilt⟩
        refine ⟨?_, ?_, fun ready => ?_⟩
        · rw [generators]
          exact consistent.fits
        · rw [generators]
          exact consistent.generated
        · rw [unbuilt] at ready
          cases ready
    | contains image sign =>
      simp only [exec, wp_map, additions, List.append_nil]
      exact wp_mono (permGroupContains_spec s consistent.built image sign) (fun _ _ held => consistent.of_group held.1)
        (fun _ _ same => consistent.of_group same)
    | orbit point capacity =>
      simp only [exec, wp_map, additions, List.append_nil]
      exact wp_mono (permGroupOrbit_spec s consistent.built point capacity)
        (fun _ _ held => consistent.of_group held.1) (fun _ _ same => consistent.of_group same)
  unfold wp at outcome
  unfold after
  cases run : call.exec s <;> rw [run] at outcome <;> exact outcome

theorem Reachable.consistent (reachable : Reachable accepted s) : Consistent accepted s := by
  induction reachable with
  | create created => exact permGroupCreate_consistent created rfl
  | call _ call ih => exact call.consistent ih

/-- The group of a session answers every query as the abstract group `G` does. -/
structure Describes (G : Subgroup (Signed n)) (group : PermGroup n) : Prop where
  order : (permGroupOrder group).toNat = Nat.card G
  negativeIdentity : permGroupHasNegativeIdentity group = true ↔ (-1, 1) ∈ G
  contains : ∀ (s : Session n) (image : Words n) (sign : Int), s.group = group →
    wp (permGroupContains image sign) (fun answer _ => answer = true ↔ ∃ g ∈ G, Denotes image sign g)
      (fun _ _ => True) s
  chain : ∀ s : Session n, s.group = group →
    wp permChainBuild
      (fun _ t => ∀ g, g ∈ G ↔ ∃! choice, Factorization t.chain (permGroupHasNegativeIdentity group) g choice)
      (fun _ _ => True) s
  orbit : ∀ (s : Session n) (point : UInt16) (capacity : Nat), s.group = group →
    wp (permGroupOrbit point capacity)
      (fun points _ => points.Nodup ∧ ∃ inside : point.toNat < n, ∀ x, x ∈ points ↔
        ∃ g ∈ G, g.2 ⟨point.toNat, inside⟩ = x)
      (fun _ _ => True) s

theorem permGroupContains_denotes (s : Session n) (built : Built s.group) (image : Words n) (sign : Int) :
    wp (permGroupContains image sign)
      (fun answer _ => answer = true ↔ ∃ g ∈ generatedBy s.group.generators, Denotes image sign g)
      (fun _ _ => True) s := by
  by_cases valid : (sign = 1 ∨ sign = -1) ∧ permutationValid image = true
  · refine wp_mono (permGroupContains_spec s (fun _ => built) image sign) ?_ (fun _ _ _ => trivial)
    rintro answer _ ⟨_, exact⟩
    rw [exact]
    simp only [denotes_iff valid.2 valid.1, exists_eq_right]
  · unfold permGroupContains
    simp only [wp_bind, wp_get]
    apply wp_ite
    · exact fun _ => trivial
    · intro accepted
      simp only [not_or, Bool.not_eq_false] at accepted
      exact absurd ⟨by omega, accepted.2.2⟩ valid

theorem built_describes {group : PermGroup n} (built : Built group) (ready : group.built = true) :
    Describes (generatedBy group.generators) group := by
  refine ⟨?_, ?_, ?_, ?_, ?_⟩
  · rw [permGroupOrder, if_pos ready, built.order]
  · rw [permGroupHasNegativeIdentity, ready, Bool.true_and]
    refine ⟨built.sound.negative, fun member => ?_⟩
    rw [← groupFrom_eq built.sound built.generates] at member
    exact negative_of_mem built.generating built.sound.proper member
  · rintro s image sign rfl
    exact permGroupContains_denotes s built image sign
  · rintro s rfl
    rw [permGroupHasNegativeIdentity, ready, Bool.true_and]
    exact permChainBuild_factors s built
  · rintro s point capacity rfl
    exact wp_mono (permGroupOrbit_spec s (fun _ => built) point capacity) (fun _ _ held => held.2)
      (fun _ _ _ => trivial)

/-- After any run of a session, a build that succeeds describes the group that the accepted
permutations generate. -/
theorem schreier_sims (reachable : Reachable accepted s) :
    wp permGroupBuildBsgs (fun _ t => Describes (generatedFrom accepted) t.group) (fun _ _ => True) s := by
  have consistent := reachable.consistent
  refine wp_mono (permGroupBuildBsgs_spec s consistent.fits) ?_ (fun _ _ _ => trivial)
  rintro _ t ⟨generators, ready, built⟩
  rw [← consistent.generated, ← generators]
  exact built_describes built ready

def twoSlots : Session 2 :=
  { group :=
      { limits := permLimitsDefaults
        persistentBytes := permGroupSize + 8448
        generators := []
        strong := []
        built := false
        negativeIdentity := false
        order := 0 }
    heap := ⟨fun _ => true, 2⟩
    chain := blankChain
    seen := fun _ => false
    steps := 0 }

def exchange : Words 2 := fun i => if i = 0 then 1 else 0

@[irreducible] def antisymmetric : Session 2 := ((PermCall.addGenerator exchange (-1)).after [] twoSlots).2

theorem antisymmetric_reachable : Reachable [(exchange, -1)] antisymmetric := by
  unfold antisymmetric
  have created : permGroupCreate 2 none ⟨fun _ => true, 0⟩ = (.ok twoSlots.group, ⟨fun _ => true, 2⟩) := by rfl
  have start : Reachable [] twoSlots := .create created
  exact .call start (.addGenerator exchange (-1))

theorem schreier_sims_antisymmetric :
    ∃ t, permGroupBuildBsgs antisymmetric = .ok () t ∧ Describes (generatedFrom [(exchange, -1)]) t.group := by
  obtain ⟨_, t, run, describes⟩ := wp_returns (schreier_sims antisymmetric_reachable) (by decide +kernel)
  exact ⟨t, run, describes⟩

end PhyNspire.Permutation.Runs

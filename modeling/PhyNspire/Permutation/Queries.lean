import PhyNspire.Permutation.SchreierSims

/-!
The queries of a built group: membership is membership in the generated group, every element
has one factorization through a chain, and the orbits are its orbits.
-/

namespace PhyNspire.Permutation.Queries
open Lib.Stateful Lib.Search Lib.StabilizerChain Perm Bsgs Orbit Elements Transversals Sifting StrongGenerators
  SchreierSims Subgroup

variable {n : Nat}

theorem mem_remainders_iff {image : Image n} {sign : Int} (fits : Proper image sign) (negative : Bool) :
    (permIdentityImage image && (decide (0 < sign) || negative)) = true ↔
      elementOf image sign ∈ (remainders negative : Subgroup (Signed n)) := by
  have still : permIdentityImage image = true ↔ permOf image = 1 := by
    rw [permIdentityImage_iff]
    constructor
    · rintro rfl
      exact permOf_identity
    · intro identity
      funext i
      rw [← permOf_apply fits.injective, identity]
      rfl
  have positive : 0 < sign ↔ signOf sign = 1 := by
    rcases fits.signed with rfl | rfl <;> decide
  rw [Bool.and_eq_true, Bool.or_eq_true, decide_eq_true_iff, still, positive]
  exact (mem_remainders (g := elementOf image sign)).symm

theorem permGroupContains_spec (s : Session n) (built : s.group.built = true → Built s.group) (image : Words n)
    (sign : Int) :
    wp (permGroupContains image sign)
      (fun answer t => t.group = s.group ∧
        (answer = true ↔ elementOf (readImage image) sign ∈ generatedBy s.group.generators))
      (fun _ t => t.group = s.group) s := by
  unfold permGroupContains
  simp only [wp_bind, wp_get]
  apply wp_ite
  · exact fun _ => rfl
  · intro accepted
    simp only [not_or, Bool.not_eq_false] at accepted
    obtain ⟨ready, signs, valid⟩ := accepted
    have fits : Proper (readImage image) sign := ⟨readImage_injective valid, by omega⟩
    have built := built ready
    simp only [wp_bind, wp_modify, wp_pure]
    refine wp_good (permChainAllocate_spec s) ?_
    rintro _ t same_t
    refine wp_mono (permChainBuild_spec { t with steps := 0 } (by rw [same_t]; exact built.sound.proper)) ?_
      (fun _ _ same => same.trans same_t)
    rintro _ u ⟨same_u, rows⟩
    simp only at same_u rows
    rw [same_t] at same_u rows
    refine wp_mono (permSift_spec rows built.sound.proper 0 fits (fun _ below => absurd below (Nat.not_lt_zero _)) u
      rfl) ?_ (fun _ _ same => same.trans same_u)
    rintro ⟨remainder, sign'⟩ v ⟨same_v, _, sifts⟩
    have complete := complete_of_strongGenerating built.sound.proper rows built.generating 0
    have group := groupFrom_eq built.sound built.generates
    refine ⟨same_v.trans same_u, ?_⟩
    change (permIdentityImage remainder && (decide (0 < sign') || s.group.negativeIdentity)) = true ↔ _
    have factored : elementOf (readImage image) sign ∈
        factored (remainders s.group.negativeIdentity) (chainFrom s.group.strong u.chain 0) ↔
        elementOf (readImage image) sign ∈ generatedBy s.group.generators := by
      rw [factored_eq (remainders_central _) complete, groupOf_chainFrom _ built.sound.proper, group]
      rfl
    rw [mem_remainders_iff sifts.proper, ← factored]
    exact ⟨fun member => sifts.factors _ member, fun member => sifts.complete _ complete member⟩

noncomputable def transversalProduct (chain : PermChain n) (choice : Fin n → Fin n) : Signed n :=
  ((List.finRange n).map fun level =>
    elementOf (chain.transversal level (choice level)) (chain.sign level (choice level))).prod

/-- A choice of points factors an element, up to the negative identity when it is known. -/
def Factorization (chain : PermChain n) (negative : Bool) (g : Signed n) (choice : Fin n → Fin n) : Prop :=
  (∀ level, chain.valid level (choice level) = true) ∧
    (g = transversalProduct chain choice ∨ negative = true ∧ g = minus * transversalProduct chain choice)

theorem factors_choice (strong : List (StrongGenerator n)) (chain : PermChain n) (negative : Bool) (g : Signed n)
    (choice : Fin n → Fin n) :
    Factors (remainders negative) (chainFrom strong chain 0) ((List.finRange n).map choice) g ↔
      Factorization chain negative g choice := by
  have commutes : transversalProduct chain choice * minus = minus * transversalProduct chain choice :=
    Prod.ext (mul_comm _ _) ((mul_one _).trans (one_mul _).symm)
  rw [chainFrom, levelsFrom, List.drop_zero, factors_map, Factorization]
  refine and_congr (by simp [levelOf]) ?_
  change (∃ r ∈ remainders negative, g = transversalProduct chain choice * r) ↔ _
  constructor
  · rintro ⟨⟨sign, perm⟩, ⟨still, one | known⟩, rfl⟩
    · obtain rfl : sign = 1 := one
      obtain rfl : perm = 1 := still
      exact .inl (mul_one _)
    · obtain rfl : perm = 1 := still
      rcases Int.units_eq_one_or sign with rfl | rfl
      · exact .inl (mul_one _)
      · exact .inr ⟨known, commutes⟩
  · rintro (rfl | ⟨known, rfl⟩)
    · exact ⟨1, one_mem _, (mul_one _).symm⟩
    · exact ⟨minus, minus_mem_remainders.mpr known, commutes.symm⟩

theorem permChainBuild_factors (s : Session n) (built : Built s.group) :
    wp permChainBuild
      (fun _ t => ∀ g, g ∈ generatedBy s.group.generators ↔
        ∃! choice, Factorization t.chain s.group.negativeIdentity g choice)
      (fun _ _ => True) s := by
  refine wp_mono (permChainBuild_spec s built.sound.proper) ?_ (fun _ _ _ => trivial)
  rintro _ t ⟨_, rows⟩ g
  have complete := complete_of_strongGenerating built.sound.proper rows built.generating 0
  rw [← groupFrom_eq built.sound built.generates, ← groupOf_chainFrom t.chain built.sound.proper,
    ← SetLike.mem_coe, ← factored_eq (remainders_central _) complete, factored_iff]
  constructor
  · rintro ⟨points, factors⟩
    have length : points.length = n := by
      rw [factors.length, chainFrom, levelsFrom, List.drop_zero, List.length_map, List.length_finRange]
    obtain ⟨choice, rfl⟩ : ∃ choice : Fin n → Fin n, points = (List.finRange n).map choice := by
      refine ⟨fun level => points.get (level.cast length.symm), List.ext_getElem (by simp [length]) fun i _ _ => ?_⟩
      simp
    refine ⟨choice, (factors_choice _ _ _ _ _).mp factors, fun other factors' => funext fun level => ?_⟩
    have same := factors_unique (remainders_central _) (remainders_still _) complete
      ((factors_choice _ _ _ _ _).mpr factors') factors
    exact List.map_inj_left.mp same level (List.mem_finRange level)
  · rintro ⟨choice, factors, _⟩
    exact ⟨_, (factors_choice _ _ _ _ _).mpr factors⟩

structure Marked (start : Session n) (point : Fin n) (queue : List (Fin n)) (t : Session n) : Prop where
  group : t.group = start.group
  queued : ∀ x, t.seen x = true ↔ x ∈ queue
  nodup : queue.Nodup
  base : point ∈ queue
  reached : ∀ x ∈ queue, ∃ g ∈ generatedBy start.group.generators, g.2 point = x

theorem markImage_visits (start : Session n) (built : Built start.group) (point : Fin n) :
    Visits markImage start.group.strong (fun _ t => t.group = start.group) (Marked start point)
      (fun x generator => some (generator.image x)) := by
  intro queue s marked x member generator listed
  unfold markImage
  simp only [wp_bind]
  refine wp_good (permStep_spec s 1 fun _ => marked.group) ?_
  rintro _ t rfl
  simp only [wp_get]
  apply wp_ite
  · intro known
    have old := (marked.queued _).mp known
    exact ⟨by simpa using (⟨marked.group, marked.queued, marked.nodup, marked.base, marked.reached⟩ :
      Marked start point queue { s with steps := s.steps + 1 }), by simpa using old⟩
  · intro unknown
    have new : generator.image x ∉ queue := fun old => unknown ((marked.queued _).mpr old)
    simp only [wp_bind, wp_set, wp_pure, Option.toList_some, Option.mem_some_iff, forall_eq', List.mem_append,
      List.mem_singleton, or_true, and_true]
    refine ⟨marked.group, fun y => ?_, ?_, by simp [marked.base], fun y inside => ?_⟩
    · by_cases here : y = generator.image x
      · simp [here]
      · simp [marked.queued y, here]
    · exact List.nodup_append.mpr ⟨marked.nodup, by simp, by
        intro y old z last
        rw [List.mem_singleton.mp last]
        rintro rfl
        exact new old⟩
    · rcases List.mem_append.mp inside with old | last
      · exact marked.reached y old
      · obtain rfl := List.mem_singleton.mp last
        obtain ⟨g, generated, rfl⟩ := marked.reached x member
        have proper := (built.sound.proper generator listed).1
        refine ⟨elementOf generator.image generator.sign * g,
          mul_mem (built.sound.inside ⟨generator, listed, Nat.zero_le _, rfl⟩) generated, ?_⟩
        rw [Prod.snd_mul, Equiv.Perm.mul_apply]
        exact permOf_apply proper.injective _

theorem closed_group {group : PermGroup n} (built : Built group) {points : List (Fin n)}
    (closed : ∀ x ∈ points, ∀ generator ∈ group.strong, generator.image x ∈ points) {g : Signed n}
    (member : g ∈ generatedBy group.generators) : ∀ x ∈ points, g.2 x ∈ points := by
  rw [← groupFrom_eq built.sound built.generates, groupFrom, ← mem_toSubmonoid, closure_toSubmonoid_of_finite] at member
  induction member using Submonoid.closure_induction with
  | mem g generator =>
    intro x inside
    rcases generator with ⟨generator, listed, _, rfl⟩ | ⟨still, _⟩
    · change permOf generator.image x ∈ points
      rw [permOf_apply (built.sound.proper generator listed).1.injective]
      exact closed x inside generator listed
    · rwa [still]
  | one => exact fun x inside => inside
  | mul g h _ _ left right => exact fun x inside => left _ (right x inside)

theorem exploreFrom_spec (s : Session n) (built : Built s.group) (point : Fin n) (empty : ∀ x, s.seen x = false) :
    wp (permGroupOrbit.exploreFrom point)
      (fun points t => t.group = s.group ∧ points.Nodup ∧
        ∀ x, x ∈ points ↔ ∃ g ∈ generatedBy s.group.generators, g.2 point = x)
      (fun _ t => t.group = s.group) s := by
  unfold permGroupOrbit.exploreFrom
  simp only [wp_bind, wp_modify, wp_get]
  have start : Marked s point [point] { s with seen := Function.update s.seen point true } := by
    refine ⟨rfl, fun x => ?_, by simp, by simp, fun x inside => ⟨1, one_mem _, (List.mem_singleton.mp inside).symm⟩⟩
    by_cases here : x = point
    · simp [here]
    · simp [here, empty x]
  have bounded : ∀ queue t, Marked s point queue t → queue.length ≤ n := fun queue t marked => by
    have bound := marked.nodup.length_le_card
    rwa [Fintype.card_fin] at bound
  refine wp_good (wp_explore (markImage_visits s built point) bounded n 0 [point] _ (by omega) start (by simp)) ?_
  rintro points t ⟨marked, _, closed⟩
  refine ⟨marked.group, marked.nodup, fun x => ⟨marked.reached x, ?_⟩⟩
  rintro ⟨g, member, rfl⟩
  exact closed_group built (fun x inside generator listed => closed x inside generator listed _ rfl) member point
    marked.base

theorem permGroupOrbit_spec (s : Session n) (built : s.group.built = true → Built s.group) (point : UInt16)
    (capacity : Nat) :
    wp (permGroupOrbit point capacity)
      (fun points t => t.group = s.group ∧ points.Nodup ∧ ∃ inside : point.toNat < n, ∀ x, x ∈ points ↔
        ∃ g ∈ generatedBy s.group.generators, g.2 ⟨point.toNat, inside⟩ = x)
      (fun _ t => t.group = s.group) s := by
  unfold permGroupOrbit
  simp only [wp_bind, wp_get]
  split
  · rename_i inside
    apply wp_ite
    · exact fun _ => rfl
    · intro ready
      have built := built (by simpa using ready)
      apply wp_ite
      · exact fun _ => rfl
      · intro _
        apply wp_ite
        · exact fun _ => rfl
        · intro _
          apply wp_ite
          · exact fun _ => rfl
          · intro _
            simp only [wp_bind, wp_set]
            apply wp_ite
            · intro _
              let cleared : Session n := { s with heap := s.heap.alloc.2, seen := fun _ => false, steps := 0 }
              refine wp_good (exploreFrom_spec cleared built ⟨point.toNat, inside⟩ fun _ => rfl) ?_
              rintro points t ⟨same, distinct, exact⟩
              exact ⟨same, distinct, inside, exact⟩
            · exact fun _ => rfl
  · exact rfl

end PhyNspire.Permutation.Queries

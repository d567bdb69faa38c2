import Mathlib.GroupTheory.OrderOfElement
import Mathlib.Data.Set.Card.Arithmetic
import Mathlib.Tactic.Group

/-!
Stabilizer chains of a finite group that acts on points through a homomorphism.

Each level has a base point, generators, the orbit of the base point under them, and for
every point of the orbit an element that carries the base point there. When the elements
of Schreier's lemma factor through the levels below, every element of the group factors
in exactly one way. A central subgroup that moves no point is carried along as remainder.
-/

namespace PhyNspire.Lib.StabilizerChain
open Subgroup

variable {Γ α : Type} [Group Γ]

structure Level (Γ α : Type) where
  base : α
  generators : Set Γ
  orbit : Set α
  representative : α → Γ

def factored (rest : Subgroup Γ) : List (Level Γ α) → Set Γ
  | [] => rest
  | level :: chain => {g | ∃ x ∈ level.orbit, ∃ h ∈ factored rest chain, g = level.representative x * h}

def generatorsOf : List (Level Γ α) → Set Γ
  | [] => ∅
  | level :: _ => level.generators

structure Stage (π : Γ →* Equiv.Perm α) (level : Level Γ α) (chain : List (Level Γ α)) : Prop where
  nested : generatorsOf chain ⊆ level.generators
  fixed : ∀ g ∈ generatorsOf chain, π g level.base = level.base
  base : level.base ∈ level.orbit
  identity : level.representative level.base = 1
  carries : ∀ x ∈ level.orbit, π (level.representative x) level.base = x
  generated : ∀ x ∈ level.orbit, level.representative x ∈ closure level.generators
  closed : ∀ g ∈ level.generators, ∀ x ∈ level.orbit, π g x ∈ level.orbit

/-- The element of Schreier's lemma for a generator and a point of the orbit. -/
def schreier (π : Γ →* Equiv.Perm α) (level : Level Γ α) (g : Γ) (x : α) : Γ :=
  (level.representative (π g x))⁻¹ * (g * level.representative x)

inductive Complete (π : Γ →* Equiv.Perm α) (rest : Subgroup Γ) : List (Level Γ α) → Prop where
  | nil : Complete π rest []
  | cons {level : Level Γ α} {chain : List (Level Γ α)} (stage : Stage π level chain)
      (sifted : ∀ g ∈ level.generators, ∀ x ∈ level.orbit, schreier π level g x ∈ factored rest chain)
      (below : Complete π rest chain) : Complete π rest (level :: chain)

section
variable {π : Γ →* Equiv.Perm α} {rest : Subgroup Γ} {level : Level Γ α} {chain : List (Level Γ α)}

def groupOf (rest : Subgroup Γ) (chain : List (Level Γ α)) : Subgroup Γ := closure (generatorsOf chain ∪ rest)

theorem rest_le_groupOf (rest : Subgroup Γ) (chain : List (Level Γ α)) : rest ≤ groupOf rest chain :=
  fun _ member => subset_closure (.inr member)

theorem Stage.below_le (stage : Stage π level chain) : groupOf rest chain ≤ groupOf rest (level :: chain) :=
  closure_mono (Set.union_subset_union_left _ stage.nested)

theorem Stage.representative_mem (stage : Stage π level chain) {x : α} (member : x ∈ level.orbit) :
    level.representative x ∈ groupOf rest (level :: chain) :=
  closure_mono Set.subset_union_left (stage.generated x member)

theorem Stage.fixes (stage : Stage π level chain) (still : ∀ g ∈ rest, π g = 1) {g : Γ}
    (member : g ∈ groupOf rest chain) : π g level.base = level.base := by
  induction member using closure_induction with
  | mem g generator =>
    rcases generator with generator | remainder
    · exact stage.fixed g generator
    · rw [still g remainder]
      rfl
  | one => rw [map_one]; rfl
  | mul g h _ _ left right => rw [map_mul, Equiv.Perm.mul_apply, right, left]
  | inv g _ fixed => rw [map_inv, Equiv.Perm.inv_eq_iff_eq, fixed]

/-- The factored elements are the whole group: they contain the identity, and multiplying one
by a generator on the left only changes its first factor and passes an element of Schreier's
lemma down the chain. -/
theorem factored_eq [Finite Γ] (central : rest ≤ center Γ) (complete : Complete π rest chain) :
    factored rest chain = groupOf rest chain := by
  induction complete with
  | nil => simp [factored, groupOf, generatorsOf]
  | @cons level chain stage sifted below ih =>
    refine Set.Subset.antisymm ?_ ?_
    · rintro g ⟨x, inside, h, deeper, rfl⟩
      rw [ih] at deeper
      exact mul_mem (stage.representative_mem inside) (stage.below_le deeper)
    · intro g member
      change g ∈ closure (level.generators ∪ rest) at member
      rw [← mem_toSubmonoid, closure_toSubmonoid_of_finite] at member
      induction member using Submonoid.closure_induction_left with
      | one =>
        refine ⟨level.base, stage.base, 1, ?_, by rw [stage.identity, mul_one]⟩
        rw [ih]
        exact one_mem _
      | mul_left g generator y _ factors =>
        obtain ⟨x, inside, h, deeper, rfl⟩ := factors
        rcases generator with generator | remainder
        · refine ⟨π g x, stage.closed g generator x inside,
            schreier π level g x * h, ?_, by rw [schreier]; group⟩
          have schreier := sifted g generator x inside
          rw [ih] at deeper schreier ⊢
          exact mul_mem schreier deeper
        · have commutes := mem_center_iff.mp (central remainder) (level.representative x)
          refine ⟨x, inside, g * h, ?_, by rw [← mul_assoc, ← commutes, mul_assoc]⟩
          rw [ih] at deeper ⊢
          exact mul_mem (rest_le_groupOf rest chain remainder) deeper

theorem Stage.first_factor (stage : Stage π level chain) (still : ∀ g ∈ rest, π g = 1) {x : α} {h : Γ}
    (inside : x ∈ level.orbit) (deeper : h ∈ groupOf rest chain) :
    π (level.representative x * h) level.base = x := by
  rw [map_mul, Equiv.Perm.mul_apply, stage.fixes still deeper, stage.carries x inside]

theorem Stage.sift [Finite Γ] (stage : Stage π level chain) (central : rest ≤ center Γ)
    (still : ∀ g ∈ rest, π g = 1) (below : Complete π rest chain) (g : Γ) :
    g ∈ factored rest (level :: chain) ↔
      π g level.base ∈ level.orbit ∧ (level.representative (π g level.base))⁻¹ * g ∈ factored rest chain := by
  constructor
  · rintro ⟨x, inside, h, deeper, rfl⟩
    have member := deeper
    rw [factored_eq central below] at member
    rw [stage.first_factor still inside member]
    exact ⟨inside, by simpa using deeper⟩
  · rintro ⟨inside, deeper⟩
    exact ⟨_, inside, _, deeper, by group⟩

theorem stabilizer_le [Finite Γ] (central : rest ≤ center Γ) (still : ∀ g ∈ rest, π g = 1)
    (complete : Complete π rest (level :: chain)) {g : Γ} (member : g ∈ groupOf rest (level :: chain))
    (fixed : π g level.base = level.base) : g ∈ groupOf rest chain := by
  rw [← SetLike.mem_coe, ← factored_eq central complete] at member
  cases complete with
  | cons stage _ below =>
    have sifted := ((stage.sift central still below g).mp member).2
    rwa [fixed, stage.identity, inv_one, one_mul, factored_eq central below] at sifted

theorem Complete.of_stabilizer [Finite Γ] (central : rest ≤ center Γ) (stage : Stage π level chain)
    (below : Complete π rest chain)
    (stabilizer : ∀ g ∈ groupOf rest (level :: chain), π g level.base = level.base → g ∈ groupOf rest chain) :
    Complete π rest (level :: chain) := by
  refine .cons stage (fun g generator x inside => ?_) below
  have moved := stage.closed g generator x inside
  rw [factored_eq central below]
  refine stabilizer _ ?_ ?_
  · refine mul_mem (inv_mem (stage.representative_mem moved)) (mul_mem ?_ (stage.representative_mem inside))
    exact subset_closure (.inl generator)
  · rw [schreier, map_mul, map_mul, map_inv, Equiv.Perm.mul_apply, Equiv.Perm.mul_apply, stage.carries x inside,
      Equiv.Perm.inv_eq_iff_eq, stage.carries _ moved]

inductive Factors (rest : Subgroup Γ) : List (Level Γ α) → List α → Γ → Prop where
  | nil {g : Γ} (member : g ∈ rest) : Factors rest [] [] g
  | cons {level : Level Γ α} {chain : List (Level Γ α)} {x : α} {points : List α} {h : Γ}
      (inside : x ∈ level.orbit) (deeper : Factors rest chain points h) :
      Factors rest (level :: chain) (x :: points) (level.representative x * h)

theorem Factors.length {points : List α} {g : Γ} (factors : Factors rest chain points g) :
    points.length = chain.length := by
  induction factors with
  | nil => rfl
  | cons _ _ ih => rw [List.length_cons, List.length_cons, ih]

theorem factors_map {β : Type} (levels : List β) (levelAt : β → Level Γ α) (choice : β → α) (g : Γ) :
    Factors rest (levels.map levelAt) (levels.map choice) g ↔
      (∀ i ∈ levels, choice i ∈ (levelAt i).orbit) ∧
        ∃ r ∈ rest, g = (levels.map fun i => (levelAt i).representative (choice i)).prod * r := by
  induction levels generalizing g with
  | nil =>
    constructor
    · rintro ⟨member⟩
      exact ⟨by simp, g, member, by simp⟩
    · rintro ⟨_, r, member, rfl⟩
      exact .nil (by simpa using member)
  | cons i levels ih =>
    constructor
    · rintro ⟨⟩
      rename_i h inside deeper
      obtain ⟨within, r, member, rfl⟩ := (ih h).mp deeper
      exact ⟨by simpa using ⟨inside, within⟩, r, member, by simp [mul_assoc]⟩
    · rintro ⟨within, r, member, rfl⟩
      rw [List.map_cons, List.map_cons, List.map_cons, List.prod_cons, mul_assoc]
      exact .cons (within i (by simp)) ((ih _).mpr ⟨fun j inside => within j (by simp [inside]), r, member, rfl⟩)

theorem factored_iff (g : Γ) : g ∈ factored rest chain ↔ ∃ points, Factors rest chain points g := by
  induction chain generalizing g with
  | nil =>
    constructor
    · exact fun member => ⟨[], .nil member⟩
    · rintro ⟨_, member⟩
      cases member with
      | nil member => exact member
  | cons level chain ih =>
    constructor
    · rintro ⟨x, inside, h, deeper, rfl⟩
      obtain ⟨points, factors⟩ := (ih h).mp deeper
      exact ⟨x :: points, .cons inside factors⟩
    · rintro ⟨_, factors⟩
      cases factors with
      | cons inside deeper => exact ⟨_, inside, _, (ih _).mpr ⟨_, deeper⟩, rfl⟩

theorem factors_unique [Finite Γ] (central : rest ≤ center Γ) (still : ∀ g ∈ rest, π g = 1)
    (complete : Complete π rest chain) {g : Γ} {points points' : List α} (first : Factors rest chain points g)
    (second : Factors rest chain points' g) : points = points' := by
  induction complete generalizing g points points' with
  | nil =>
    cases first
    cases second
    rfl
  | @cons level chain stage sifted below ih =>
    generalize same : g = g' at second
    cases first with
    | @cons _ _ x points h inside deeper =>
      cases second with
      | @cons _ _ x' points' h' inside' deeper' =>
        have member : h ∈ groupOf rest chain := by
          rw [← SetLike.mem_coe, ← factored_eq central below, factored_iff]
          exact ⟨points, deeper⟩
        have member' : h' ∈ groupOf rest chain := by
          rw [← SetLike.mem_coe, ← factored_eq central below, factored_iff]
          exact ⟨points', deeper'⟩
        have image := stage.first_factor still inside member
        rw [same, stage.first_factor still inside' member'] at image
        subst image
        rw [mul_right_inj] at same
        subst same
        rw [ih deeper deeper']

/-- The order of the group is the product of the orbit lengths and the number of remainders. -/
theorem factored_card [Finite Γ] (central : rest ≤ center Γ) (still : ∀ g ∈ rest, π g = 1)
    (complete : Complete π rest chain) :
    (factored rest chain).ncard = Nat.card rest * (chain.map fun level => level.orbit.ncard).prod := by
  induction complete with
  | nil =>
    rw [List.map_nil, List.prod_nil, mul_one, factored, ← Nat.card_coe_set_eq]
    rfl
  | @cons level chain stage sifted below ih =>
    have image : factored rest (level :: chain) =
        (fun pair : α × Γ => level.representative pair.1 * pair.2) '' (level.orbit ×ˢ factored rest chain) := by
      ext g
      constructor
      · rintro ⟨x, inside, h, deeper, rfl⟩
        exact ⟨(x, h), ⟨inside, deeper⟩, rfl⟩
      · rintro ⟨⟨x, h⟩, ⟨inside, deeper⟩, rfl⟩
        exact ⟨x, inside, h, deeper, rfl⟩
    have injective : Set.InjOn (fun pair : α × Γ => level.representative pair.1 * pair.2)
        (level.orbit ×ˢ factored rest chain) := by
      rintro ⟨x, h⟩ ⟨inside, deeper⟩ ⟨x', h'⟩ ⟨inside', deeper'⟩ same
      rw [factored_eq central below] at deeper deeper'
      have points := stage.first_factor still inside deeper
      simp only at same inside inside' points
      rw [same, stage.first_factor still inside' deeper'] at points
      subst points
      rw [mul_right_inj] at same
      rw [same]
    rw [image, injective.ncard_image, Set.ncard_prod, ih, List.map_cons, List.prod_cons]
    ring

end

end PhyNspire.Lib.StabilizerChain

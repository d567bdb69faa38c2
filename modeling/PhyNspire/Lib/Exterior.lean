import Mathlib.Algebra.BigOperators.Group.Finset.Powerset
import Mathlib.RingTheory.Derivation.Basic
import Mathlib.Tactic.LinearCombination

/-!
Exterior calculus on components. A form is given by one component for each finite set of
axes, the set standing for its strictly increasing enumeration, and every operation is
defined by the signed sum over components that text books give. The algebra of the
operations rests on two facts: crossing counts are additive in both sets, and the
operators that add and remove one axis anticommute.
-/

namespace PhyNspire.Lib.Exterior

variable {ι K : Type*} [LinearOrder ι] [CommRing K]

/-- The pairs of two axis sets that stand in the wrong order. -/
def crossings (I J : Finset ι) : ℕ := ∑ i ∈ I, ∑ j ∈ J, if j < i then 1 else 0

/-- The axes of a set that come before a given one. -/
def below (i : ι) (J : Finset ι) : ℕ := ∑ j ∈ J, if j < i then 1 else 0

variable {I : Finset ι}

theorem crossings_union_left {I' : Finset ι} (apart : Disjoint I I') (J : Finset ι) :
    crossings (I ∪ I') J = crossings I J + crossings I' J := Finset.sum_union apart

variable {J : Finset ι}

theorem crossings_union_right (I : Finset ι) {J' : Finset ι} (apart : Disjoint J J') :
    crossings I (J ∪ J') = crossings I J + crossings I J' := by
  unfold crossings
  rw [← Finset.sum_add_distrib]
  exact Finset.sum_congr rfl (fun _ _ => Finset.sum_union apart)

theorem crossings_insert_left {i : ι} (fresh : i ∉ I) (J : Finset ι) :
    crossings (insert i I) J = below i J + crossings I J := Finset.sum_insert fresh

theorem crossings_insert_right (I : Finset ι) {j : ι} (fresh : j ∉ J) :
    crossings I (insert j J) = crossings I {j} + crossings I J := by
  rw [Finset.insert_eq, crossings_union_right I (Finset.disjoint_singleton_left.mpr fresh)]

theorem below_insert {i j : ι} (fresh : j ∉ J) :
    below i (insert j J) = (if j < i then 1 else 0) + below i J := Finset.sum_insert fresh

theorem below_union {i : ι} {J' : Finset ι} (apart : Disjoint J J') :
    below i (J ∪ J') = below i J + below i J' := Finset.sum_union apart

@[simp] theorem below_insert_self {i : ι} (fresh : i ∉ J) : below i (insert i J) = below i J := by
  rw [below_insert fresh, if_neg (lt_irrefl i), Nat.zero_add]

theorem below_add_crossings {i : ι} (fresh : i ∉ J) : below i J + crossings J {i} = J.card := by
  unfold below crossings
  rw [← Finset.sum_add_distrib, Finset.card_eq_sum_ones]
  refine Finset.sum_congr rfl (fun j member => ?_)
  have other : j ≠ i := fun same => fresh (same ▸ member)
  rw [Finset.sum_singleton]
  rcases lt_or_gt_of_ne other with before | after
  · rw [if_pos before, if_neg before.not_gt]
  · rw [if_neg after.not_gt, if_pos after]

theorem crossings_swap (apart : Disjoint I J) :
    crossings I J + crossings J I = I.card * J.card := by
  induction I using Finset.induction_on with
  | empty => simp [crossings]
  | insert i I fresh ih =>
    have outside : i ∉ J := fun member => Finset.disjoint_left.mp apart (Finset.mem_insert_self i I) member
    have rest : Disjoint I J := apart.mono_left (Finset.subset_insert i I)
    have first := below_add_crossings outside
    rw [crossings_insert_left fresh, crossings_insert_right J fresh, Finset.card_insert_of_notMem fresh, Nat.add_mul,
      Nat.one_mul, ← ih rest, ← first]
    ring

theorem crossings_image {κ : Type*} [LinearOrder κ] {φ : κ → ι} {I J : Finset κ}
    (rising : ∀ i ∈ I ∪ J, ∀ j ∈ I ∪ J, i < j → φ i < φ j) : crossings (I.image φ) (J.image φ) = crossings I J := by
  have order {i j : κ} (first : i ∈ I ∪ J) (second : j ∈ I ∪ J) : φ i < φ j ↔ i < j := by
    refine ⟨fun before => ?_, rising i first j second⟩
    rcases lt_trichotomy i j with less | same | more
    · exact less
    · exact absurd before (same ▸ lt_irrefl _)
    · exact absurd before (rising j second i first more).not_gt
  have injective {i j : κ} (first : i ∈ I ∪ J) (second : j ∈ I ∪ J) (same : φ i = φ j) : i = j := by
    rcases lt_trichotomy i j with less | equal | more
    · exact absurd ((order first second).mpr less) (same ▸ lt_irrefl _)
    · exact equal
    · exact absurd ((order second first).mpr more) (same ▸ lt_irrefl _)
  unfold crossings
  rw [Finset.sum_image (fun i first j second same =>
    injective (Finset.mem_union_left J first) (Finset.mem_union_left J second) same)]
  refine Finset.sum_congr rfl (fun i first => ?_)
  rw [Finset.sum_image (fun j second j' second' same =>
    injective (Finset.mem_union_right I second) (Finset.mem_union_right I second') same)]
  refine Finset.sum_congr rfl (fun j second => ?_)
  exact if_congr (order (Finset.mem_union_right I second) (Finset.mem_union_left J first)) rfl rfl

/-- A form of one degree has no other components. -/
def OfDegree (p : ℕ) (α : Finset ι → K) : Prop := ∀ I, I.card ≠ p → α I = 0

/-- The exterior product, summed over the shuffles of the target. -/
def wedge (α β : Finset ι → K) : Finset ι → K := fun M =>
  ∑ I ∈ M.powerset, (-1) ^ crossings I (M \ I) * (α I * β (M \ I))

/-- The product with the coordinate differential of one axis, from the left. -/
def extend (i : ι) (α : Finset ι → K) : Finset ι → K := fun M =>
  if i ∈ M then (-1) ^ below i M * α (M.erase i) else 0

/-- The contraction with the coordinate vector of one axis. -/
def contract (i : ι) (α : Finset ι → K) : Finset ι → K := fun M =>
  if i ∈ M then 0 else (-1) ^ below i M * α (insert i M)

/-- The exterior derivative along the axes of `s`. -/
def exteriorDerivative (s : Finset ι) (δ : ι → Derivation ℤ K K) (α : Finset ι → K) : Finset ι → K := fun M =>
  ∑ i ∈ s, extend i (fun I => δ i (α I)) M

/-- The interior product with a vector that has components on the axes of `s`. -/
def interior (s : Finset ι) (v : ι → K) (α : Finset ι → K) : Finset ι → K := fun M =>
  ∑ i ∈ s, v i * contract i α M

def lieDerivative (s : Finset ι) (δ : ι → Derivation ℤ K K) (v : ι → K) (α : Finset ι → K) : Finset ι → K := fun M =>
  exteriorDerivative s δ (interior s v α) M + interior s v (exteriorDerivative s δ α) M

theorem wedge_add_left (α α' β : Finset ι → K) : wedge (α + α') β = wedge α β + wedge α' β := by
  funext M
  simp only [wedge, Pi.add_apply, add_mul, mul_add, Finset.sum_add_distrib]

theorem wedge_add_right (α β β' : Finset ι → K) : wedge α (β + β') = wedge α β + wedge α β' := by
  funext M
  simp only [wedge, Pi.add_apply, mul_add, Finset.sum_add_distrib]

theorem wedge_smul_left (c : K) (α β : Finset ι → K) : wedge (c • α) β = c • wedge α β := by
  funext M
  simp only [wedge, Pi.smul_apply, smul_eq_mul, Finset.mul_sum]
  exact Finset.sum_congr rfl (fun _ _ => by ring)

theorem wedge_smul_right (c : K) (α β : Finset ι → K) : wedge α (c • β) = c • wedge α β := by
  funext M
  simp only [wedge, Pi.smul_apply, smul_eq_mul, Finset.mul_sum]
  exact Finset.sum_congr rfl (fun _ _ => by ring)

theorem zero_wedge (β : Finset ι → K) : wedge 0 β = 0 := by
  funext M
  exact Finset.sum_eq_zero (fun I _ => by rw [Pi.zero_apply, zero_mul, mul_zero])

theorem wedge_zero (α : Finset ι → K) : wedge α 0 = 0 := by
  funext M
  exact Finset.sum_eq_zero (fun I _ => by rw [Pi.zero_apply, mul_zero, mul_zero])

theorem wedge_assoc (α β γ : Finset ι → K) : wedge (wedge α β) γ = wedge α (wedge β γ) := by
  funext M
  unfold wedge
  simp only [Finset.mul_sum, Finset.sum_mul]
  rw [Finset.sum_sigma', Finset.sum_sigma']
  refine Finset.sum_bij' (fun cut _ => ⟨cut.2, cut.1 \ cut.2⟩) (fun cut _ => ⟨cut.1 ∪ cut.2, cut.1⟩) ?_ ?_ ?_ ?_ ?_
  · rintro ⟨S, I⟩ member
    simp only [Finset.mem_sigma, Finset.mem_powerset] at member ⊢
    exact ⟨member.2.trans member.1, Finset.sdiff_subset_sdiff member.1 (Finset.Subset.refl I)⟩
  · rintro ⟨I, J⟩ member
    simp only [Finset.mem_sigma, Finset.mem_powerset] at member ⊢
    exact ⟨Finset.union_subset member.1 (member.2.trans Finset.sdiff_subset), Finset.subset_union_left⟩
  · rintro ⟨S, I⟩ member
    simp only [Finset.mem_sigma, Finset.mem_powerset] at member
    simp only [Finset.union_sdiff_of_subset member.2]
  · rintro ⟨I, J⟩ member
    simp only [Finset.mem_sigma, Finset.mem_powerset] at member
    have apart : Disjoint I J := (Finset.disjoint_sdiff.mono_right member.2)
    simp only [Finset.union_sdiff_cancel_left apart]
  · rintro ⟨S, I⟩ member
    simp only [Finset.mem_sigma, Finset.mem_powerset] at member
    obtain ⟨inside, part⟩ := member
    have rest : (M \ I) \ (S \ I) = M \ S := by
      rw [sdiff_sdiff_left, Finset.sup_eq_union, Finset.union_sdiff_of_subset part]
    have whole : M \ I = (S \ I) ∪ (M \ S) := by
      rw [Finset.union_comm, Finset.sdiff_union_sdiff_cancel inside part]
    have left : crossings S (M \ S) = crossings I (M \ S) + crossings (S \ I) (M \ S) := by
      rw [← crossings_union_left Finset.disjoint_sdiff, Finset.union_sdiff_of_subset part]
    have right : crossings I (M \ I) = crossings I (S \ I) + crossings I (M \ S) := by
      rw [whole, crossings_union_right I (Finset.disjoint_of_subset_left Finset.sdiff_subset Finset.disjoint_sdiff)]
    simp only [rest, left, right, pow_add]
    ring

variable {α β : Finset ι → K}

theorem wedge_comm {p q : ℕ} (first : OfDegree p α) (second : OfDegree q β) :
    wedge α β = (-1 : K) ^ (p * q) • wedge β α := by
  funext M
  simp only [wedge, Pi.smul_apply, smul_eq_mul, Finset.mul_sum]
  refine Finset.sum_bij' (fun I _ => M \ I) (fun I _ => M \ I) ?_ ?_ ?_ ?_ ?_
  · exact fun I _ => Finset.mem_powerset.mpr Finset.sdiff_subset
  · exact fun I _ => Finset.mem_powerset.mpr Finset.sdiff_subset
  · exact fun I member => Finset.sdiff_sdiff_eq_self (Finset.mem_powerset.mp member)
  · exact fun I member => Finset.sdiff_sdiff_eq_self (Finset.mem_powerset.mp member)
  · intro I member
    rw [Finset.sdiff_sdiff_eq_self (Finset.mem_powerset.mp member)]
    by_cases degrees : I.card = p ∧ (M \ I).card = q
    · have swapped := crossings_swap (Finset.disjoint_sdiff (s := I) (t := M))
      rw [degrees.1, degrees.2] at swapped
      have square : ((-1 : K) ^ crossings (M \ I) I) * (-1) ^ crossings (M \ I) I = 1 := by
        rw [← pow_add, ← two_mul, pow_mul, neg_one_sq, one_pow]
      rw [← swapped, pow_add]
      linear_combination (-(-1) ^ crossings I (M \ I) * (α I * β (M \ I))) * square
    · rcases not_and_or.mp degrees with other | other
      · rw [first I other, zero_mul, mul_zero, mul_zero, mul_zero, mul_zero]
      · rw [second _ other, mul_zero, zero_mul, mul_zero, mul_zero, mul_zero]

theorem OfDegree.add {p : ℕ} (first : OfDegree p α) (second : OfDegree p β) :
    OfDegree p (α + β) := by
  intro I other
  rw [Pi.add_apply, first I other, second I other, add_zero]

theorem OfDegree.wedge {p q : ℕ} (first : OfDegree p α) (second : OfDegree q β) :
    OfDegree (p + q) (wedge α β) := by
  intro M other
  refine Finset.sum_eq_zero (fun I member => ?_)
  by_cases size : I.card = p
  · have rest : (M \ I).card ≠ q := fun same => other (by
      rw [← Finset.card_sdiff_add_card_eq_card (Finset.mem_powerset.mp member), same, size, Nat.add_comm])
    rw [second _ rest, mul_zero, mul_zero]
  · rw [first I size, zero_mul, mul_zero]

theorem OfDegree.wedge_apply {p : ℕ} (first : OfDegree p α) (β : Finset ι → K) (M : Finset ι) :
    Exterior.wedge α β M = ∑ I ∈ M.powersetCard p, (-1) ^ crossings I (M \ I) * (α I * β (M \ I)) := by
  refine (Finset.sum_subset (fun I member => ?_) (fun I member outside => ?_)).symm
  · exact Finset.mem_powerset.mpr (Finset.mem_powersetCard.mp member).1
  · rw [first I (fun size => outside (Finset.mem_powersetCard.mpr ⟨Finset.mem_powerset.mp member, size⟩)), zero_mul,
      mul_zero]

theorem OfDegree.extend {p : ℕ} (degree : OfDegree p α) (i : ι) : OfDegree (p + 1) (extend i α) := by
  intro M other
  unfold Exterior.extend
  split_ifs with member
  · rw [degree _ (fun same => other (by rw [← same, Finset.card_erase_add_one member])), mul_zero]
  · rfl

theorem OfDegree.exteriorDerivative {p : ℕ} (degree : OfDegree p α) (s : Finset ι)
    (δ : ι → Derivation ℤ K K) : OfDegree (p + 1) (exteriorDerivative s δ α) := by
  intro M other
  refine Finset.sum_eq_zero (fun i _ => ?_)
  exact OfDegree.extend (fun I size => by rw [degree I size, map_zero]) i M other

theorem OfDegree.contract {p : ℕ} (degree : OfDegree (p + 1) α) (i : ι) :
    OfDegree p (contract i α) := by
  intro M other
  unfold Exterior.contract
  split_ifs with member
  · rfl
  · rw [degree _ (fun size => other (by rw [Finset.card_insert_of_notMem member] at size; omega)), mul_zero]

theorem OfDegree.interior {p : ℕ} (degree : OfDegree (p + 1) α) (s : Finset ι) (v : ι → K) :
    OfDegree p (interior s v α) := by
  intro M other
  refine Finset.sum_eq_zero (fun i _ => ?_)
  rw [degree.contract i M other, mul_zero]

theorem interior_of_function (degree : OfDegree 0 α) (s : Finset ι) (v : ι → K) :
    interior s v α = 0 := by
  funext M
  refine Finset.sum_eq_zero (fun i _ => ?_)
  unfold contract
  split_ifs with member
  · exact mul_zero _
  · rw [degree _ (Finset.card_ne_zero_of_mem (Finset.mem_insert_self i M)), mul_zero, mul_zero]

theorem extend_insert {i : ι} {R : Finset ι} (fresh : i ∉ R) (α : Finset ι → K) :
    extend i α (insert i R) = (-1) ^ below i R * α R := by
  rw [extend, if_pos (Finset.mem_insert_self i R), below_insert_self fresh, Finset.erase_insert fresh]

theorem extend_of_notMem {i : ι} {M : Finset ι} (absent : i ∉ M) (α : Finset ι → K) : extend i α M = 0 :=
  if_neg absent

theorem contract_of_notMem {i : ι} {M : Finset ι} (absent : i ∉ M) (α : Finset ι → K) :
    contract i α M = (-1) ^ below i M * α (insert i M) := if_neg absent

theorem contract_insert (i : ι) (R : Finset ι) (α : Finset ι → K) : contract i α (insert i R) = 0 :=
  if_pos (Finset.mem_insert_self i R)

theorem extend_self (i : ι) (α : Finset ι → K) : extend i (extend i α) = 0 := by
  funext M
  unfold extend
  split_ifs with member again
  · exact absurd again (Finset.notMem_erase i M)
  · exact mul_zero _
  · rfl

theorem contract_self (i : ι) (α : Finset ι → K) : contract i (contract i α) = 0 := by
  funext M
  unfold contract
  split_ifs with member again
  · rfl
  · exact mul_zero _
  · exact absurd (Finset.mem_insert_self i M) again

theorem extend_swap {i j : ι} (other : i ≠ j) (α : Finset ι → K) :
    extend i (extend j α) = -extend j (extend i α) := by
  funext M
  rw [Pi.neg_apply]
  by_cases present : i ∈ M ∧ j ∈ M
  · obtain ⟨first, second⟩ := present
    obtain ⟨R, shape, absent, absent'⟩ : ∃ R, M = insert i (insert j R) ∧ i ∉ R ∧ j ∉ R :=
      ⟨(M.erase i).erase j, by
        rw [Finset.insert_erase (Finset.mem_erase.mpr ⟨other.symm, second⟩), Finset.insert_erase first],
        fun member => Finset.notMem_erase i M (Finset.mem_of_mem_erase member), Finset.notMem_erase j _⟩
    subst shape
    have outside : i ∉ insert j R := by simp [other, absent]
    have outside' : j ∉ insert i R := by simp [other.symm, absent']
    rw [extend_insert outside, extend_insert absent', Finset.insert_comm, extend_insert outside', extend_insert absent,
      below_insert absent', below_insert absent]
    rcases lt_or_gt_of_ne other with before | after
    · rw [if_neg before.not_gt, if_pos before]
      ring
    · rw [if_pos after, if_neg after.not_gt]
      ring
  · unfold extend
    simp only [Finset.mem_erase]
    split_ifs with a b c d <;> simp_all

theorem contract_swap {i j : ι} (other : i ≠ j) (α : Finset ι → K) :
    contract i (contract j α) = -contract j (contract i α) := by
  funext M
  rw [Pi.neg_apply]
  by_cases absent : i ∉ M ∧ j ∉ M
  · obtain ⟨first, second⟩ := absent
    have outside : j ∉ insert i M := by simp [other.symm, second]
    have outside' : i ∉ insert j M := by simp [other, first]
    rw [contract_of_notMem first, contract_of_notMem outside, contract_of_notMem second, contract_of_notMem outside',
      below_insert first, below_insert second, Finset.insert_comm]
    rcases lt_or_gt_of_ne other with before | after
    · rw [if_neg before.not_gt, if_pos before]
      ring
    · rw [if_pos after, if_neg after.not_gt]
      ring
  · unfold contract
    simp only [Finset.mem_insert]
    split_ifs with a b c d <;> simp_all

theorem extend_wedge (i : ι) (α β : Finset ι → K) : extend i (wedge α β) = wedge (extend i α) β := by
  funext M
  by_cases member : i ∈ M
  · obtain ⟨R, absent, rfl⟩ : ∃ R, i ∉ R ∧ insert i R = M :=
      ⟨M.erase i, Finset.notMem_erase i M, Finset.insert_erase member⟩
    rw [extend_insert absent]
    unfold wedge
    have skipped : ∑ I ∈ R.powerset, (-1) ^ crossings I (insert i R \ I) * (extend i α I * β (insert i R \ I)) = 0 :=
      Finset.sum_eq_zero (fun I inside => by
        rw [extend_of_notMem (fun there => absent (Finset.mem_powerset.mp inside there)), zero_mul, mul_zero])
    rw [Finset.sum_powerset_insert absent, skipped, zero_add, Finset.mul_sum]
    refine Finset.sum_congr rfl (fun I inside => ?_)
    have outside : i ∉ I := fun there => absent (Finset.mem_powerset.mp inside there)
    have rest : insert i R \ insert i I = R \ I := by
      rw [Finset.insert_sdiff_insert, Finset.sdiff_insert_of_notMem absent]
    have split : below i R = below i I + below i (R \ I) := by
      rw [← below_union Finset.disjoint_sdiff, Finset.union_sdiff_of_subset (Finset.mem_powerset.mp inside)]
    rw [rest, crossings_insert_left outside, extend_insert outside, split]
    ring
  · rw [extend_of_notMem member]
    refine (Finset.sum_eq_zero (fun I inside => ?_)).symm
    rw [extend_of_notMem (fun there => member (Finset.mem_powerset.mp inside there)), zero_mul, mul_zero]

theorem neg_one_pow_mul_self (n : ℕ) : (-1 : K) ^ n * (-1) ^ n = 1 := by
  rw [← pow_add, ← two_mul, pow_mul, neg_one_sq, one_pow]

theorem extend_wedge_right {p q : ℕ} (first : OfDegree p α) (second : OfDegree q β) (i : ι) :
    extend i (wedge α β) = (-1 : K) ^ p • wedge α (extend i β) := by
  have pulled : extend i ((-1 : K) ^ (p * q) • wedge β α) = (-1 : K) ^ (p * q) • extend i (wedge β α) := by
    funext M
    unfold extend
    simp only [Pi.smul_apply, smul_eq_mul]
    split_ifs
    · ring
    · rw [mul_zero]
  rw [wedge_comm first second, pulled, extend_wedge, wedge_comm (second.extend i) first, smul_smul]
  congr 1
  calc (-1 : K) ^ (p * q) * (-1) ^ ((q + 1) * p)
      = (-1) ^ p * ((-1) ^ (p * q) * (-1) ^ (p * q)) := by ring
    _ = (-1) ^ p := by rw [neg_one_pow_mul_self, mul_one]

theorem contract_wedge {p : ℕ} (first : OfDegree p α) (β : Finset ι → K) (i : ι) :
    contract i (wedge α β) = wedge (contract i α) β + (-1 : K) ^ p • wedge α (contract i β) := by
  funext M
  simp only [Pi.add_apply, Pi.smul_apply, smul_eq_mul]
  have cross {I J : Finset ι} (outside : i ∉ I) (outside' : i ∉ J) :
      below i I + crossings I (insert i J) = I.card + crossings I J := by
    rw [crossings_insert_right I outside', ← below_add_crossings outside]
    ring
  by_cases member : i ∈ M
  · obtain ⟨R, absent, rfl⟩ : ∃ R, i ∉ R ∧ insert i R = M :=
      ⟨M.erase i, Finset.notMem_erase i M, Finset.insert_erase member⟩
    rw [contract_insert]
    unfold wedge
    rw [Finset.sum_powerset_insert absent, Finset.sum_powerset_insert absent, mul_add, Finset.mul_sum,
      Finset.mul_sum, ← Finset.sum_add_distrib, ← Finset.sum_add_distrib, ← Finset.sum_add_distrib]
    refine (Finset.sum_eq_zero (fun I inside => ?_)).symm
    have outside : i ∉ I := fun there => absent (Finset.mem_powerset.mp inside there)
    have outside' : i ∉ R \ I := fun there => absent ((Finset.mem_sdiff.mp there).1)
    have rest : insert i R \ I = insert i (R \ I) := Finset.insert_sdiff_of_notMem R outside
    have rest' : insert i R \ insert i I = R \ I := by
      rw [Finset.insert_sdiff_insert, Finset.sdiff_insert_of_notMem absent]
    rw [rest, rest', contract_insert, contract_insert, contract_of_notMem outside, contract_of_notMem outside',
      crossings_insert_left outside]
    have counted := cross outside outside'
    by_cases size : (insert i I).card = p
    · rw [Finset.card_insert_of_notMem outside] at size
      have parity : (-1 : K) ^ crossings I (insert i (R \ I)) * (-1) ^ below i I =
          -((-1) ^ p * ((-1) ^ (below i (R \ I) + crossings I (R \ I)) * (-1) ^ below i (R \ I))) := by
        have square := neg_one_pow_mul_self (K := K) (below i (R \ I))
        rw [← pow_add, Nat.add_comm, counted, ← size, pow_add, pow_add, pow_add]
        linear_combination (-(-1) ^ I.card * (-1) ^ crossings I (R \ I)) * square
      linear_combination (α (insert i I) * β (insert i (R \ I))) * parity
    · rw [first _ size]
      ring
  · rw [contract_of_notMem member]
    unfold wedge
    rw [Finset.sum_powerset_insert member, mul_add, Finset.mul_sum, Finset.mul_sum, Finset.mul_sum,
      ← Finset.sum_add_distrib, ← Finset.sum_add_distrib]
    refine Finset.sum_congr rfl (fun I inside => ?_)
    have outside : i ∉ I := fun there => member (Finset.mem_powerset.mp inside there)
    have outside' : i ∉ M \ I := fun there => member ((Finset.mem_sdiff.mp there).1)
    have rest : insert i M \ I = insert i (M \ I) := Finset.insert_sdiff_of_notMem M outside
    have rest' : insert i M \ insert i I = M \ I := by
      rw [Finset.insert_sdiff_insert, Finset.sdiff_insert_of_notMem member]
    have split : below i M = below i I + below i (M \ I) := by
      rw [← below_union Finset.disjoint_sdiff, Finset.union_sdiff_of_subset (Finset.mem_powerset.mp inside)]
    rw [rest, rest', contract_of_notMem outside, contract_of_notMem outside', crossings_insert_left outside, split]
    have counted := cross outside outside'
    have square := neg_one_pow_mul_self (K := K) (below i (M \ I))
    have inner : (-1 : K) ^ (below i I + below i (M \ I)) *
        ((-1) ^ (below i (M \ I) + crossings I (M \ I)) * (α (insert i I) * β (M \ I))) =
        (-1) ^ crossings I (M \ I) * ((-1) ^ below i I * α (insert i I) * β (M \ I)) := by
      rw [pow_add, pow_add]
      linear_combination ((-1) ^ below i I * (-1) ^ crossings I (M \ I) * (α (insert i I) * β (M \ I))) * square
    rw [inner, add_comm]
    congr 1
    by_cases size : I.card = p
    · rw [← size]
      calc (-1 : K) ^ (below i I + below i (M \ I)) * ((-1) ^ crossings I (insert i (M \ I)) * (α I * β (insert i (M \ I))))
          = (-1) ^ (below i I + crossings I (insert i (M \ I))) * ((-1) ^ below i (M \ I) *
              (α I * β (insert i (M \ I)))) := by ring
        _ = (-1) ^ I.card * ((-1) ^ crossings I (M \ I) *
              (α I * ((-1) ^ below i (M \ I) * β (insert i (M \ I))))) := by rw [counted]; ring
    · rw [first _ size]
      ring

theorem sum_antisymmetric (s : Finset ι) (f : ι → ι → K) (diagonal : ∀ i, f i i = 0)
    (opposite : ∀ i j, i ≠ j → f i j = -f j i) : ∑ i ∈ s, ∑ j ∈ s, f i j = 0 := by
  induction s using Finset.induction_on with
  | empty => rfl
  | insert a s fresh ih =>
    rw [Finset.sum_insert fresh, Finset.sum_insert fresh, diagonal, zero_add]
    simp only [Finset.sum_insert fresh, Finset.sum_add_distrib]
    rw [ih, add_zero, ← Finset.sum_add_distrib]
    refine Finset.sum_eq_zero (fun j member => ?_)
    rw [opposite a j (fun same => fresh (same ▸ member)), neg_add_cancel]

theorem map_sign (δ : Derivation ℤ K K) (n : ℕ) (x : K) : δ ((-1) ^ n * x) = (-1) ^ n * δ x := by
  rcases neg_one_pow_eq_or K n with sign | sign
  · rw [sign, one_mul, one_mul]
  · rw [sign, neg_one_mul, neg_one_mul, map_neg]

theorem map_extend (δ : Derivation ℤ K K) (i : ι) (α : Finset ι → K) (M : Finset ι) :
    δ (extend i α M) = extend i (fun I => δ (α I)) M := by
  unfold extend
  split_ifs
  · exact map_sign δ _ _
  · exact map_zero δ

theorem extend_sum (i : ι) (s : Finset ι) (f : ι → Finset ι → K) :
    extend i (fun I => ∑ j ∈ s, f j I) = fun M => ∑ j ∈ s, extend i (f j) M := by
  funext M
  unfold extend
  split_ifs
  · exact Finset.mul_sum _ _ _
  · exact Finset.sum_const_zero.symm

theorem extend_add (i : ι) (α β : Finset ι → K) : extend i (α + β) = extend i α + extend i β := by
  funext M
  simp only [extend, Pi.add_apply]
  split_ifs
  · exact mul_add _ _ _
  · exact (add_zero 0).symm

theorem contract_sum (i : ι) (s : Finset ι) (f : ι → Finset ι → K) :
    contract i (fun I => ∑ j ∈ s, f j I) = fun M => ∑ j ∈ s, contract i (f j) M := by
  funext M
  unfold contract
  split_ifs
  · exact Finset.sum_const_zero.symm
  · exact Finset.mul_sum _ _ _

theorem contract_mul (i : ι) (c : K) (α : Finset ι → K) (M : Finset ι) :
    contract i (fun I => c * α I) M = c * contract i α M := by
  unfold contract
  split_ifs
  · exact (mul_zero c).symm
  · ring

theorem exteriorDerivative_self (s : Finset ι) (δ : ι → Derivation ℤ K K)
    (commute : ∀ i j x, δ i (δ j x) = δ j (δ i x)) (α : Finset ι → K) :
    exteriorDerivative s δ (exteriorDerivative s δ α) = 0 := by
  funext M
  have expanded : exteriorDerivative s δ (exteriorDerivative s δ α) M =
      ∑ i ∈ s, ∑ j ∈ s, extend i (extend j (fun I => δ i (δ j (α I)))) M := by
    refine Finset.sum_congr rfl (fun i _ => ?_)
    have inner : (fun I => δ i (exteriorDerivative s δ α I)) =
        fun I => ∑ j ∈ s, extend j (fun I => δ i (δ j (α I))) I := by
      funext I
      unfold exteriorDerivative
      rw [map_sum]
      exact Finset.sum_congr rfl (fun j _ => map_extend (δ i) j _ I)
    rw [inner, extend_sum]
  rw [expanded]
  refine sum_antisymmetric s _ (fun i => congrFun (extend_self i _) M) (fun i j other => ?_)
  rw [extend_swap other, Pi.neg_apply]
  simp only [commute i j]

theorem interior_self (s : Finset ι) (v : ι → K) (α : Finset ι → K) : interior s v (interior s v α) = 0 := by
  funext M
  have expanded : interior s v (interior s v α) M =
      ∑ i ∈ s, ∑ j ∈ s, v i * (v j * contract i (contract j α) M) := by
    refine Finset.sum_congr rfl (fun i _ => ?_)
    have inner : interior s v α = fun I => ∑ j ∈ s, v j * contract j α I := rfl
    rw [inner, contract_sum, Finset.mul_sum]
    exact Finset.sum_congr rfl (fun j _ => by rw [contract_mul])
  rw [expanded]
  refine sum_antisymmetric s _ (fun i => ?_) (fun i j other => ?_)
  · rw [contract_self, Pi.zero_apply, mul_zero, mul_zero]
  · rw [contract_swap other, Pi.neg_apply]
    ring

theorem map_wedge (δ : Derivation ℤ K K) (α β : Finset ι → K) (M : Finset ι) :
    δ (wedge α β M) = wedge (fun I => δ (α I)) β M + wedge α (fun I => δ (β I)) M := by
  unfold wedge
  rw [map_sum, ← Finset.sum_add_distrib]
  refine Finset.sum_congr rfl (fun I _ => ?_)
  rw [map_sign, Derivation.leibniz]
  simp only [smul_eq_mul]
  ring

theorem exteriorDerivative_wedge (s : Finset ι) (δ : ι → Derivation ℤ K K) {p q : ℕ}
    (first : OfDegree p α) (second : OfDegree q β) :
    exteriorDerivative s δ (wedge α β) =
      wedge (exteriorDerivative s δ α) β + (-1 : K) ^ p • wedge α (exteriorDerivative s δ β) := by
  have left : wedge (exteriorDerivative s δ α) β = fun M => ∑ i ∈ s, wedge (extend i (fun I => δ i (α I))) β M := by
    funext M
    unfold wedge exteriorDerivative
    rw [Finset.sum_comm]
    exact Finset.sum_congr rfl (fun I _ => by rw [Finset.sum_mul, Finset.mul_sum])
  have right : wedge α (exteriorDerivative s δ β) = fun M => ∑ i ∈ s, wedge α (extend i (fun I => δ i (β I))) M := by
    funext M
    unfold wedge exteriorDerivative
    rw [Finset.sum_comm]
    exact Finset.sum_congr rfl (fun I _ => by rw [Finset.mul_sum, Finset.mul_sum])
  funext M
  rw [left, right]
  simp only [Pi.add_apply, Pi.smul_apply, smul_eq_mul]
  rw [Finset.mul_sum, ← Finset.sum_add_distrib]
  refine Finset.sum_congr rfl (fun i _ => ?_)
  have split : (fun I => δ i (wedge α β I)) = wedge (fun I => δ i (α I)) β + wedge α (fun I => δ i (β I)) :=
    funext (map_wedge (δ i) α β)
  have degree : OfDegree q (fun I => δ i (β I)) := fun I size => (congrArg (δ i) (second I size)).trans (map_zero (δ i))
  rw [split, extend_add, extend_wedge, extend_wedge_right first degree]
  rfl

theorem interior_wedge (s : Finset ι) (v : ι → K) {p : ℕ} (first : OfDegree p α) (β : Finset ι → K) :
    interior s v (wedge α β) = wedge (interior s v α) β + (-1 : K) ^ p • wedge α (interior s v β) := by
  have left : wedge (interior s v α) β = fun M => ∑ i ∈ s, v i * wedge (contract i α) β M := by
    funext M
    unfold wedge interior
    simp only [Finset.mul_sum]
    rw [Finset.sum_comm]
    refine Finset.sum_congr rfl (fun I _ => ?_)
    rw [Finset.sum_mul, Finset.mul_sum]
    exact Finset.sum_congr rfl (fun i _ => by ring)
  have right : wedge α (interior s v β) = fun M => ∑ i ∈ s, v i * wedge α (contract i β) M := by
    funext M
    unfold wedge interior
    simp only [Finset.mul_sum]
    rw [Finset.sum_comm]
    exact Finset.sum_congr rfl (fun I _ => Finset.sum_congr rfl (fun i _ => by ring))
  funext M
  rw [left, right]
  simp only [Pi.add_apply, Pi.smul_apply, smul_eq_mul]
  rw [Finset.mul_sum, ← Finset.sum_add_distrib]
  refine Finset.sum_congr rfl (fun i _ => ?_)
  rw [contract_wedge first]
  simp only [Pi.add_apply, Pi.smul_apply, smul_eq_mul]
  ring

theorem interior_zero (s : Finset ι) (v : ι → K) : interior s v (0 : Finset ι → K) = 0 := by
  funext M
  refine Finset.sum_eq_zero (fun i _ => ?_)
  unfold contract
  split_ifs <;> simp only [Pi.zero_apply, mul_zero]

theorem exteriorDerivative_zero (s : Finset ι) (δ : ι → Derivation ℤ K K) :
    exteriorDerivative s δ (0 : Finset ι → K) = 0 := by
  funext M
  refine Finset.sum_eq_zero (fun i _ => ?_)
  unfold extend
  split_ifs <;> simp only [Pi.zero_apply, map_zero, mul_zero]

theorem exteriorDerivative_add (s : Finset ι) (δ : ι → Derivation ℤ K K) (α β : Finset ι → K) :
    exteriorDerivative s δ (α + β) = exteriorDerivative s δ α + exteriorDerivative s δ β := by
  funext M
  simp only [exteriorDerivative, Pi.add_apply, map_add]
  rw [← Finset.sum_add_distrib]
  exact Finset.sum_congr rfl (fun i _ => congrFun (extend_add i (fun I => δ i (α I)) (fun I => δ i (β I))) M)

theorem lieDerivative_exteriorDerivative (s : Finset ι) (δ : ι → Derivation ℤ K K)
    (commute : ∀ i j x, δ i (δ j x) = δ j (δ i x)) (v : ι → K) (α : Finset ι → K) :
    lieDerivative s δ v (exteriorDerivative s δ α) = exteriorDerivative s δ (lieDerivative s δ v α) := by
  have shape (β : Finset ι → K) : lieDerivative s δ v β =
      exteriorDerivative s δ (interior s v β) + interior s v (exteriorDerivative s δ β) := rfl
  rw [shape, shape, exteriorDerivative_add, exteriorDerivative_self s δ commute,
    exteriorDerivative_self s δ commute, interior_zero, add_zero, zero_add]

theorem wedge_inside {s : Finset ι} (first : ∀ I, ¬I ⊆ s → α I = 0)
    (second : ∀ I, ¬I ⊆ s → β I = 0) (M : Finset ι) (outside : ¬M ⊆ s) : wedge α β M = 0 := by
  refine Finset.sum_eq_zero (fun I member => ?_)
  by_cases left : I ⊆ s
  · have right : ¬M \ I ⊆ s := fun placed => outside (by
      rw [← Finset.union_sdiff_of_subset (Finset.mem_powerset.mp member)]
      exact Finset.union_subset left placed)
    rw [second _ right, mul_zero, mul_zero]
  · rw [first I left, zero_mul, mul_zero]

end PhyNspire.Lib.Exterior

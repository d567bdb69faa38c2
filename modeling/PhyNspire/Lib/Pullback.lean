import Mathlib.LinearAlgebra.Matrix.Determinant.Basic
import PhyNspire.Lib.Antisymmetry

/-!
Forms carried along a linear map. A matrix `M` sends the coordinate differential of each target
axis to a combination of source differentials. The induced map on components is read off one
index at a time: an index in front of a tuple contracts the form with its row of `M`. So every
law of the map is an induction over the tuple, and contraction is all it has to know.
-/

namespace PhyNspire.Lib.Exterior

variable {ι κ K : Type*} [LinearOrder ι] [LinearOrder κ] [CommRing K]

theorem interior_add_vector (s : Finset κ) (v w : κ → K) (α : Finset κ → K) :
    interior s (v + w) α = interior s v α + interior s w α := by
  funext J
  simp only [interior, Pi.add_apply, add_mul, Finset.sum_add_distrib]

theorem contract_add (i : ι) (α β : Finset ι → K) : contract i (α + β) = contract i α + contract i β := by
  funext M
  simp only [contract, Pi.add_apply]
  split_ifs
  · exact (add_zero 0).symm
  · exact mul_add _ _ _

theorem contract_smul (i : ι) (c : K) (α : Finset ι → K) : contract i (c • α) = c • contract i α :=
  funext (contract_mul i c α)

theorem interior_add (s : Finset κ) (v : κ → K) (α β : Finset κ → K) :
    interior s v (α + β) = interior s v α + interior s v β := by
  funext J
  simp only [interior, contract_add, Pi.add_apply, mul_add, Finset.sum_add_distrib]

theorem interior_smul (s : Finset κ) (v : κ → K) (c : K) (α : Finset κ → K) :
    interior s v (c • α) = c • interior s v α := by
  funext J
  simp only [interior, contract_smul, Pi.smul_apply, smul_eq_mul, Finset.mul_sum]
  exact Finset.sum_congr rfl (fun _ _ => by ring)

theorem interior_swap (s : Finset κ) (v w : κ → K) (α : Finset κ → K) :
    interior s v (interior s w α) = -interior s w (interior s v α) := by
  have both := interior_self s (v + w) α
  rw [interior_add_vector, interior_add_vector, interior_add, interior_add, interior_self, interior_self, zero_add,
    add_zero] at both
  exact eq_neg_of_add_eq_zero_left both

section Tuples

omit [LinearOrder ι]

/-- The component of the carried form at an index tuple. -/
def carryAt (s : Finset κ) (M : ι → κ → K) : List ι → (Finset κ → K) → K
  | [], α => α ∅
  | i :: l, α => carryAt s M l (interior s (M i) α)

theorem carryAt_add (s : Finset κ) (M : ι → κ → K) (l : List ι) (α β : Finset κ → K) :
    carryAt s M l (α + β) = carryAt s M l α + carryAt s M l β := by
  induction l generalizing α β with
  | nil => rfl
  | cons i l ih => rw [carryAt, interior_add, ih, carryAt, carryAt]

theorem carryAt_smul (s : Finset κ) (M : ι → κ → K) (l : List ι) (c : K) (α : Finset κ → K) :
    carryAt s M l (c • α) = c * carryAt s M l α := by
  induction l generalizing α with
  | nil => rfl
  | cons i l ih => rw [carryAt, interior_smul, ih, carryAt]

theorem carryAt_zero (s : Finset κ) (M : ι → κ → K) (l : List ι) : carryAt s M l 0 = 0 := by
  have scaled := carryAt_smul s M l (0 : K) (0 : Finset κ → K)
  rwa [zero_smul, zero_mul] at scaled

theorem carryAt_neg (s : Finset κ) (M : ι → κ → K) (l : List ι) (α : Finset κ → K) :
    carryAt s M l (-α) = -carryAt s M l α := by
  have scaled := carryAt_smul s M l (-1 : K) α
  rwa [neg_one_smul, neg_one_mul] at scaled

theorem carryAt_front (s : Finset κ) (M : ι → κ → K) (l l' : List ι) (i : ι) (α : Finset κ → K) :
    carryAt s M (l ++ i :: l') α = (-1) ^ l.length * carryAt s M (i :: (l ++ l')) α := by
  induction l generalizing α with
  | nil => rw [List.length_nil, pow_zero, one_mul]; rfl
  | cons a l ih =>
    rw [List.cons_append, carryAt, ih, carryAt, interior_swap, carryAt_neg, List.length_cons, pow_succ]
    change _ = (-1) ^ l.length * -1 * carryAt s M (l ++ l') (interior s (M a) (interior s (M i) α))
    ring

theorem carryAt_repeated (s : Finset κ) (M : ι → κ → K) {l : List ι} {i : ι} (member : i ∈ l) (α : Finset κ → K) :
    carryAt s M (i :: l) α = 0 := by
  obtain ⟨before, after, rfl⟩ := List.append_of_mem member
  rw [carryAt, carryAt_front, carryAt, interior_self, carryAt_zero, mul_zero]

end Tuples

/-- The carried form. -/
def carry (s : Finset κ) (M : ι → κ → K) (α : Finset κ → K) : Finset ι → K := fun I => carryAt s M I.sort α

theorem carry_add (s : Finset κ) (M : ι → κ → K) (α β : Finset κ → K) :
    carry s M (α + β) = carry s M α + carry s M β := funext (fun _ => carryAt_add s M _ α β)

theorem carry_smul (s : Finset κ) (M : ι → κ → K) (c : K) (α : Finset κ → K) : carry s M (c • α) = c • carry s M α :=
  funext (fun _ => carryAt_smul s M _ c α)

theorem carry_zero (s : Finset κ) (M : ι → κ → K) : carry s M (0 : Finset κ → K) = 0 :=
  funext (fun _ => carryAt_zero s M _)

theorem sort_insert {i : ι} {J : Finset ι} (fresh : i ∉ J) :
    ∃ l l' : List ι, (insert i J).sort = l ++ i :: l' ∧ J.sort = l ++ l' ∧ l.length = below i J := by
  let l := J.sort.filter (· < i)
  let l' := J.sort.filter (i < ·)
  have memberLeft (j : ι) : j ∈ l ↔ j ∈ J ∧ j < i := by simp [l]
  have memberRight (j : ι) : j ∈ l' ↔ j ∈ J ∧ i < j := by simp [l']
  have rising : J.sort.Pairwise (· < ·) := (Finset.sortedLT_sort J).pairwise
  have whole : (l ++ i :: l').Pairwise (· < ·) := by
    refine List.pairwise_append.mpr ⟨rising.filter _, List.pairwise_cons.mpr
      ⟨fun j member => ((memberRight j).mp member).2, rising.filter _⟩, fun a first b second => ?_⟩
    have before := ((memberLeft a).mp first).2
    rcases List.mem_cons.mp second with rfl | later
    · exact before
    · exact before.trans ((memberRight b).mp later).2
  have rest : (l ++ l').Pairwise (· < ·) :=
    whole.sublist (List.Sublist.append_left (List.sublist_cons_self i l') l)
  have other (j : ι) (member : j ∈ J) : j < i ∨ i < j := lt_or_gt_of_ne (fun same => fresh (same ▸ member))
  refine ⟨l, l', ?_, ?_, ?_⟩
  · rw [← (List.toFinset_sort (· ≤ ·) whole.nodup).mpr (whole.imp le_of_lt)]
    congr 1
    ext j
    simp only [List.mem_toFinset, List.mem_append, List.mem_cons, memberLeft, memberRight, Finset.mem_insert]
    constructor
    · rintro (rfl | member)
      · exact Or.inr (Or.inl rfl)
      · rcases other j member with before | after
        · exact Or.inl ⟨member, before⟩
        · exact Or.inr (Or.inr ⟨member, after⟩)
    · rintro (⟨member, -⟩ | rfl | ⟨member, -⟩)
      · exact Or.inr member
      · exact Or.inl rfl
      · exact Or.inr member
  · rw [← (List.toFinset_sort (· ≤ ·) rest.nodup).mpr (rest.imp le_of_lt)]
    congr 1
    ext j
    simp only [List.mem_toFinset, List.mem_append, memberLeft, memberRight]
    constructor
    · intro member
      rcases other j member with before | after
      · exact Or.inl ⟨member, before⟩
      · exact Or.inr ⟨member, after⟩
    · rintro (⟨member, -⟩ | ⟨member, -⟩) <;> exact member
  · rw [length_filter_lt i rising.nodup, Finset.sort_toFinset]

theorem contract_carry (s : Finset κ) (M : ι → κ → K) (i : ι) (α : Finset κ → K) :
    contract i (carry s M α) = carry s M (interior s (M i) α) := by
  funext J
  by_cases member : i ∈ J
  · rw [contract, if_pos member]
    exact (carryAt_repeated s M ((Finset.mem_sort (· ≤ ·)).mpr member) α).symm
  · obtain ⟨l, l', whole, rest, length⟩ := sort_insert member
    rw [contract_of_notMem member, carry, carry, whole, rest, carryAt_front, length, ← mul_assoc, neg_one_pow_mul_self,
      one_mul, carryAt]

@[simp] theorem carry_empty (s : Finset κ) (M : ι → κ → K) (α : Finset κ → K) : carry s M α ∅ = α ∅ := by
  rw [carry, Finset.sort_empty]
  rfl

/-- The component of a form at a tuple, by contracting with its indices. -/
def readAt : List ι → (Finset ι → K) → K
  | [], α => α ∅
  | i :: l, α => readAt l (contract i α)

theorem readAt_sort (α : Finset ι → K) {l : List ι} (increasing : l.Pairwise (· < ·)) :
    readAt l α = α l.toFinset := by
  induction l generalizing α with
  | nil => rfl
  | cons i l ih =>
    obtain ⟨first, rest⟩ := List.pairwise_cons.mp increasing
    have fresh : i ∉ l.toFinset := fun member => lt_irrefl i (first i (List.mem_toFinset.mp member))
    have none : below i l.toFinset = 0 :=
      Finset.sum_eq_zero (fun j member => if_neg (first j (List.mem_toFinset.mp member)).not_gt)
    rw [readAt, ih _ rest, contract_of_notMem fresh, none, pow_zero, one_mul, List.toFinset_cons]

theorem eq_of_readAt {α β : Finset ι → K} {I : Finset ι} (alike : readAt I.sort α = readAt I.sort β) : α I = β I := by
  rwa [readAt_sort _ (Finset.sortedLT_sort I).pairwise, readAt_sort _ (Finset.sortedLT_sort I).pairwise,
    Finset.sort_toFinset] at alike

theorem readAt_add (l : List ι) (α β : Finset ι → K) : readAt l (α + β) = readAt l α + readAt l β := by
  induction l generalizing α β with
  | nil => rfl
  | cons i l ih => rw [readAt, contract_add, ih, readAt, readAt]

theorem readAt_smul (l : List ι) (c : K) (α : Finset ι → K) : readAt l (c • α) = c * readAt l α := by
  induction l generalizing α with
  | nil => rfl
  | cons i l ih => rw [readAt, contract_smul, ih, readAt]

theorem wedge_empty (α β : Finset ι → K) : wedge α β ∅ = α ∅ * β ∅ := by
  rw [wedge, Finset.powerset_empty, Finset.sum_singleton, Finset.sdiff_self]
  change (-1) ^ 0 * _ = _
  rw [pow_zero, one_mul]

theorem interior_degree {p : ℕ} {α : Finset κ → K} (degree : OfDegree p α) (s : Finset κ) (v : κ → K) :
    (∃ q, p = q + 1 ∧ OfDegree q (interior s v α)) ∨ (p = 0 ∧ interior s v α = 0) := by
  cases p with
  | zero => exact Or.inr ⟨rfl, interior_of_function degree s v⟩
  | succ q => exact Or.inl ⟨q, rfl, OfDegree.interior degree s v⟩

omit [LinearOrder ι] in
theorem carryAt_degree (s : Finset κ) (M : ι → κ → K) {p : ℕ} {α : Finset κ → K} (degree : OfDegree p α) {l : List ι}
    (other : l.length ≠ p) : carryAt s M l α = 0 := by
  induction l generalizing p α with
  | nil => exact degree ∅ other
  | cons i l ih =>
    rw [carryAt]
    rcases interior_degree degree s (M i) with ⟨q, rfl, lower⟩ | ⟨-, gone⟩
    · exact ih lower (fun same => other (by rw [List.length_cons, same]))
    · rw [gone, carryAt_zero]

theorem carry_degree (s : Finset κ) (M : ι → κ → K) {p : ℕ} {α : Finset κ → K} (degree : OfDegree p α) :
    OfDegree p (carry s M α) := fun I size => carryAt_degree s M degree (fun same => size (by rwa [Finset.length_sort] at same))

theorem readAt_carry_wedge (s : Finset κ) (M : ι → κ → K) (l : List ι) {p : ℕ} {α : Finset κ → K}
    (degree : OfDegree p α) (β : Finset κ → K) :
    readAt l (carry s M (wedge α β)) = readAt l (wedge (carry s M α) (carry s M β)) := by
  induction l generalizing p α β with
  | nil =>
    change carry s M (wedge α β) ∅ = wedge (carry s M α) (carry s M β) ∅
    rw [carry_empty, wedge_empty, wedge_empty, carry_empty, carry_empty]
  | cons i l ih =>
    rw [readAt, readAt, contract_carry, interior_wedge s (M i) degree, contract_wedge (carry_degree s M degree),
      contract_carry, contract_carry, carry_add, carry_smul, readAt_add, readAt_add, readAt_smul, readAt_smul,
      ih degree]
    congr 1
    rcases interior_degree degree s (M i) with ⟨q, -, lower⟩ | ⟨-, gone⟩
    · exact ih lower β
    · rw [gone, zero_wedge, carry_zero, zero_wedge]

theorem carry_wedge (s : Finset κ) (M : ι → κ → K) {p : ℕ} {α : Finset κ → K} (degree : OfDegree p α)
    (β : Finset κ → K) : carry s M (wedge α β) = wedge (carry s M α) (carry s M β) := by
  funext I
  exact eq_of_readAt (readAt_carry_wedge s M I.sort degree β)

end PhyNspire.Lib.Exterior

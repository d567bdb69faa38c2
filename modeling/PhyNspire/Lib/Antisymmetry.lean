import Mathlib.GroupTheory.Perm.DomMulAct
import Mathlib.GroupTheory.Perm.Fin
import PhyNspire.Lib.Exterior

/-!
Components at arbitrary index tuples. Reading a form at a tuple that is out of order costs a
sign for each pair of indices that must be exchanged, and at a tuple with a repeated index
it gives zero. In these terms the shuffle product of two forms is the antisymmetrised
tensor product with the usual factorials.
-/

namespace PhyNspire.Lib.Exterior

variable {ι K : Type*} [LinearOrder ι] [CommRing K]

/-- The pairs of a tuple that stand in the wrong order. -/
def disorder : List ι → ℕ
  | [] => 0
  | a :: l => (l.filter (· < a)).length + disorder l

/-- The component of a form at an index tuple. -/
def component (α : Finset ι → K) (l : List ι) : K :=
  if l.Nodup then (-1) ^ disorder l * α l.toFinset else 0

theorem length_filter_lt (a : ι) {l : List ι} (distinct : l.Nodup) : (l.filter (· < a)).length = below a l.toFinset := by
  induction l with
  | nil => rfl
  | cons b l ih =>
    obtain ⟨fresh, rest⟩ := List.nodup_cons.mp distinct
    rw [List.toFinset_cons, below_insert (fun member => fresh (List.mem_toFinset.mp member)), ← ih rest,
      List.filter_cons]
    split_ifs with before before' before'
    · exact Nat.add_comm _ _
    · exact absurd (of_decide_eq_true before) before'
    · exact absurd (decide_eq_true before') before
    · exact (Nat.zero_add _).symm

theorem disorder_append {l l' : List ι} (distinct : (l ++ l').Nodup) :
    disorder (l ++ l') = disorder l + disorder l' + crossings l.toFinset l'.toFinset := by
  induction l with
  | nil =>
    rw [List.nil_append, List.toFinset_nil]
    exact (Nat.zero_add _).symm
  | cons a l ih =>
    rw [List.cons_append] at distinct ⊢
    obtain ⟨fresh, rest⟩ := List.nodup_cons.mp distinct
    have alone : a ∉ l.toFinset := fun member => fresh (List.mem_append_left l' (List.mem_toFinset.mp member))
    rw [disorder, disorder, ih rest, List.filter_append, List.length_append, List.toFinset_cons,
      crossings_insert_left alone, length_filter_lt a (List.nodup_append.mp rest).2.1]
    ring

theorem disorder_of_increasing {l : List ι} (increasing : l.Pairwise (· < ·)) : disorder l = 0 := by
  induction l with
  | nil => rfl
  | cons a l ih =>
    obtain ⟨first, rest⟩ := List.pairwise_cons.mp increasing
    have none : l.filter (· < a) = [] :=
      List.filter_eq_nil_iff.mpr (fun b member => by simpa using (first b member).le)
    rw [disorder, none, ih rest, List.length_nil]

theorem length_filter_ofFn {n : ℕ} (a : ι) (f : Fin n → ι) :
    ((List.ofFn f).filter (· < a)).length = ∑ j, if f j < a then 1 else 0 := by
  induction n with
  | zero => rfl
  | succ n ih =>
    rw [List.ofFn_succ, Fin.sum_univ_succ, List.filter_cons, ← ih]
    by_cases before : f 0 < a
    · rw [if_pos (decide_eq_true before), if_pos before, List.length_cons, Nat.add_comm]
    · rw [if_neg (by simpa using before), if_neg before, Nat.zero_add]

theorem disorder_ofFn {n : ℕ} (f : Fin n → ι) :
    disorder (List.ofFn f) = ∑ i, ∑ j ∈ Finset.Ioi i, if f j < f i then 1 else 0 := by
  induction n with
  | zero => rfl
  | succ n ih =>
    rw [List.ofFn_succ, disorder, ih, Fin.sum_univ_succ, Fin.sum_Ioi_zero, length_filter_ofFn]
    congr 1
    refine Finset.sum_congr rfl (fun i _ => ?_)
    exact (Fin.sum_Ioi_succ (fun j => if f j < f i.succ then 1 else 0) i).symm

theorem sign_eq_disorder {n : ℕ} {k : Fin n → ι} (increasing : StrictMono k) (π : Equiv.Perm (Fin n)) :
    ((Equiv.Perm.sign π : ℤ) : K) = (-1) ^ disorder (List.ofFn (fun i => k (π i))) := by
  rw [Equiv.Perm.sign_eq_prod_prod_Ioi, disorder_ofFn, ← Finset.prod_pow_eq_pow_sum]
  push_cast
  refine Finset.prod_congr rfl (fun i _ => ?_)
  rw [← Finset.prod_pow_eq_pow_sum]
  refine Finset.prod_congr rfl (fun j member => ?_)
  have other : π i ≠ π j := fun same => (Finset.mem_Ioi.mp member).ne (π.injective same)
  rcases lt_or_gt_of_ne other with before | after
  · rw [if_pos before, if_neg (increasing before).not_gt, pow_zero, Units.val_one, Int.cast_one]
  · rw [if_neg after.not_gt, if_pos (increasing after), pow_one, Units.val_neg, Units.val_one, Int.cast_neg,
      Int.cast_one]

theorem contract_eq_component (i : ι) (α : Finset ι → K) {l : List ι} (increasing : l.Pairwise (· < ·)) :
    contract i α l.toFinset = component α (i :: l) := by
  unfold contract component
  by_cases member : i ∈ l
  · rw [if_pos (List.mem_toFinset.mpr member), if_neg (fun distinct => (List.nodup_cons.mp distinct).1 member)]
  · rw [if_neg (fun there => member (List.mem_toFinset.mp there)),
      if_pos (List.nodup_cons.mpr ⟨member, increasing.nodup⟩), disorder, disorder_of_increasing increasing, Nat.add_zero,
      length_filter_lt i increasing.nodup, List.toFinset_cons]

section Counting

variable {p q : ℕ}

def leftSlots (π : Equiv.Perm (Fin (p + q))) : Finset (Fin (p + q)) :=
  Finset.univ.image (fun i : Fin p => π (Fin.castAdd q i))

theorem mem_leftSlots {π : Equiv.Perm (Fin (p + q))} {a : Fin (p + q)} : π a ∈ leftSlots π ↔ a.val < p := by
  unfold leftSlots
  simp only [Finset.mem_image, Finset.mem_univ, true_and]
  constructor
  · rintro ⟨i, same⟩
    rw [← π.injective same]
    exact i.isLt
  · exact fun small => ⟨⟨a.val, small⟩, rfl⟩

theorem card_leftSlots (π : Equiv.Perm (Fin (p + q))) : (leftSlots π).card = p := by
  unfold leftSlots
  rw [Finset.card_image_of_injective _ (fun i j same => Fin.castAdd_injective p q (π.injective same)),
    Finset.card_univ, Fintype.card_fin]

theorem leftSlots_eq_iff {π : Equiv.Perm (Fin (p + q))} {S : Finset (Fin (p + q))} (size : S.card = p) :
    leftSlots π = S ↔ ∀ a, π a ∈ S ↔ a.val < p := by
  constructor
  · rintro rfl a
    exact mem_leftSlots
  · intro same
    refine Finset.eq_of_subset_of_card_le (fun b member => ?_) (by rw [size, card_leftSlots])
    obtain ⟨i, -, rfl⟩ := Finset.mem_image.mp member
    exact (same _).mpr i.isLt

theorem card_small : (Finset.univ.filter (fun a : Fin (p + q) => a.val < p)).card = p := by
  have shape : Finset.univ.filter (fun a : Fin (p + q) => a.val < p) = leftSlots (Equiv.refl (Fin (p + q))) := by
    ext a
    rw [Finset.mem_filter, ← mem_leftSlots (π := Equiv.refl _), Equiv.refl_apply]
    exact and_iff_right (Finset.mem_univ a)
  rw [shape, card_leftSlots]

theorem exists_leftSlots {S : Finset (Fin (p + q))} (size : S.card = p) :
    ∃ π : Equiv.Perm (Fin (p + q)), leftSlots π = S := by
  have count : Fintype.card {a : Fin (p + q) // a.val < p} = Fintype.card {a // a ∈ S} := by
    rw [Fintype.card_coe, size, Fintype.card_subtype, card_small]
  refine ⟨(Fintype.equivOfCardEq count).extendSubtype, (leftSlots_eq_iff size).mpr (fun a => ?_)⟩
  by_cases small : a.val < p
  · exact iff_of_true (Equiv.extendSubtype_mem _ a small) small
  · exact iff_of_false (Equiv.extendSubtype_not_mem _ a small) small

theorem card_leftSlots_fiber {S : Finset (Fin (p + q))} (size : S.card = p) :
    (Finset.univ.filter (fun π : Equiv.Perm (Fin (p + q)) => leftSlots π = S)).card = p.factorial * q.factorial := by
  obtain ⟨start, reaches⟩ := exists_leftSlots size
  let half : Fin (p + q) → Bool := fun a => decide (a.val < p)
  have inHalf : Fintype.card {a // half a = true} = p := by
    rw [Fintype.card_subtype]
    exact (congrArg Finset.card (Finset.filter_congr (fun a _ => decide_eq_true_iff))).trans card_small
  have outside : Fintype.card {a // half a = false} = q := by
    have total := Fintype.card_subtype_compl (fun a => half a = true)
    rw [inHalf, Fintype.card_fin, Nat.add_sub_cancel_left] at total
    exact (Fintype.card_congr (Equiv.subtypeEquivRight (fun a => by rw [Bool.not_eq_true]))).trans total
  have stabilizer : Fintype.card {g : Equiv.Perm (Fin (p + q)) // half ∘ g = half} = p.factorial * q.factorial := by
    rw [DomMulAct.stabilizer_card, Fintype.prod_bool, inHalf, outside]
  rw [← stabilizer, ← Fintype.card_subtype]
  refine Fintype.card_congr ((Equiv.mulLeft start⁻¹).subtypeEquiv (fun π => ?_))
  have known := (leftSlots_eq_iff size).mp reaches
  rw [leftSlots_eq_iff size, funext_iff]
  refine forall_congr' (fun a => ?_)
  have moved : half (start⁻¹ (π a)) = true ↔ π a ∈ S := by
    have point := known (start⁻¹ (π a))
    rw [show start (start⁻¹ (π a)) = π a from start.apply_symm_apply (π a)] at point
    exact decide_eq_true_iff.trans point.symm
  change _ ↔ half (start⁻¹ (π a)) = half a
  rw [Bool.eq_iff_iff, moved]
  exact iff_congr Iff.rfl decide_eq_true_iff.symm

end Counting

/-- What a permuted tuple contributes depends on the left factor's slots alone. -/
theorem signed_components {p q : ℕ} (α β : Finset ι → K) {k : Fin (p + q) → ι} (increasing : StrictMono k)
    (π : Equiv.Perm (Fin (p + q))) :
    ((Equiv.Perm.sign π : ℤ) : K) * (component α (List.ofFn (fun i => k (π (Fin.castAdd q i)))) *
        component β (List.ofFn (fun j => k (π (Fin.natAdd p j))))) =
      (-1) ^ crossings ((leftSlots π).image k) (Finset.univ.image k \ (leftSlots π).image k) *
        (α ((leftSlots π).image k) * β (Finset.univ.image k \ (leftSlots π).image k)) := by
  have joined : List.ofFn (fun i => k (π i)) = List.ofFn (fun i => k (π (Fin.castAdd q i))) ++
      List.ofFn (fun j => k (π (Fin.natAdd p j))) := List.ofFn_add
  have distinct : (List.ofFn (fun i => k (π i))).Nodup :=
    List.nodup_ofFn.mpr (increasing.injective.comp π.injective)
  have whole : (List.ofFn (fun i => k (π i))).toFinset = Finset.univ.image k := by
    ext a
    simp only [List.mem_toFinset, List.mem_ofFn, Finset.mem_image, Finset.mem_univ, true_and]
    exact (π.surjective.exists (p := fun i => k i = a)).symm
  rw [joined] at distinct whole
  obtain ⟨distinctLeft, distinctRight, apart⟩ := List.nodup_append.mp distinct
  have taken : (List.ofFn (fun i => k (π (Fin.castAdd q i)))).toFinset = (leftSlots π).image k := by
    ext a
    simp only [leftSlots, List.mem_toFinset, List.mem_ofFn, Finset.mem_image, Finset.mem_univ, true_and,
      exists_exists_eq_and]
  have left : (List.ofFn (fun j => k (π (Fin.natAdd p j)))).toFinset = Finset.univ.image k \ (leftSlots π).image k := by
    rw [← whole, List.toFinset_append, taken, Finset.union_sdiff_cancel_left]
    rw [← taken]
    exact Finset.disjoint_left.mpr (fun a member member' =>
      apart a (List.mem_toFinset.mp member) a (List.mem_toFinset.mp member') rfl)
  rw [sign_eq_disorder increasing, joined, disorder_append distinct, component, component, if_pos distinctLeft,
    if_pos distinctRight, taken, left, pow_add, pow_add]
  have square := neg_one_pow_mul_self (K := K) (disorder (List.ofFn (fun i => k (π (Fin.castAdd q i)))))
  have square' := neg_one_pow_mul_self (K := K) (disorder (List.ofFn (fun j => k (π (Fin.natAdd p j)))))
  generalize (-1 : K) ^ disorder (List.ofFn (fun i => k (π (Fin.castAdd q i)))) = a at square ⊢
  generalize (-1 : K) ^ disorder (List.ofFn (fun j => k (π (Fin.natAdd p j)))) = b at square' ⊢
  generalize (-1 : K) ^ crossings ((leftSlots π).image k) (Finset.univ.image k \ (leftSlots π).image k) = c
  generalize α ((leftSlots π).image k) = x
  generalize β (Finset.univ.image k \ (leftSlots π).image k) = y
  linear_combination (c * x * y * b * b) * square + (c * x * y) * square'

/-- The shuffle product is the antisymmetrised tensor product. -/
theorem wedge_antisymmetrized {p q : ℕ} {α : Finset ι → K} (first : OfDegree p α) (β : Finset ι → K)
    {k : Fin (p + q) → ι} (increasing : StrictMono k) :
    ((p.factorial * q.factorial : ℕ) : K) * wedge α β (Finset.univ.image k) =
      ∑ π : Equiv.Perm (Fin (p + q)), ((Equiv.Perm.sign π : ℤ) : K) *
        (component α (List.ofFn (fun i => k (π (Fin.castAdd q i)))) *
          component β (List.ofFn (fun j => k (π (Fin.natAdd p j))))) := by
  simp only [signed_components α β increasing]
  let term (I : Finset ι) : K :=
    (-1) ^ crossings I (Finset.univ.image k \ I) * (α I * β (Finset.univ.image k \ I))
  have grouped : ∑ π : Equiv.Perm (Fin (p + q)), term ((leftSlots π).image k) =
      ∑ S ∈ Finset.univ.powersetCard p, ∑ π ∈ Finset.univ.filter (fun π : Equiv.Perm (Fin (p + q)) => leftSlots π = S),
        term ((leftSlots π).image k) :=
    (Finset.sum_fiberwise_of_maps_to
      (fun π _ => Finset.mem_powersetCard.mpr ⟨Finset.subset_univ _, card_leftSlots π⟩) _).symm
  have counted : ∀ S ∈ Finset.univ.powersetCard p,
      ∑ π ∈ Finset.univ.filter (fun π : Equiv.Perm (Fin (p + q)) => leftSlots π = S), term ((leftSlots π).image k) =
        ((p.factorial * q.factorial : ℕ) : K) * term (S.image k) := by
    intro S member
    rw [Finset.sum_congr rfl (fun π there => by rw [(Finset.mem_filter.mp there).2]), Finset.sum_const,
      card_leftSlots_fiber (Finset.mem_powersetCard.mp member).2, nsmul_eq_mul]
  have supported : wedge α β (Finset.univ.image k) = ∑ I ∈ (Finset.univ.image k).powersetCard p, term I :=
    first.wedge_apply β _
  change _ = ∑ π : Equiv.Perm (Fin (p + q)), term ((leftSlots π).image k)
  rw [grouped, Finset.sum_congr rfl counted, ← Finset.mul_sum, supported]
  congr 1
  let place : Fin (p + q) ↪ ι := ⟨k, increasing.injective⟩
  have shape (S : Finset (Fin (p + q))) : S.map place = S.image k := Finset.map_eq_image place S
  rw [← shape, Finset.powersetCard_map, Finset.sum_map]
  exact Finset.sum_congr rfl (fun S _ => congrArg term (shape S))

end PhyNspire.Lib.Exterior

import PhyNspire.Lib.Pullback

/-!
The minors of a linear map. The component of a carried form is the sum of the components of
the form, each times the minor of the map on its axes. So carrying along the transposed map
is adjoint to carrying, and at the top degree carrying multiplies by the determinant.
-/

namespace PhyNspire.Lib.Exterior

variable {ι κ K : Type*} [LinearOrder ι] [LinearOrder κ] [CommRing K]

/-- The form with the single component one at `J`. -/
def unit (J : Finset ι) : Finset ι → K := fun I => if I = J then 1 else 0

theorem unit_self (J : Finset ι) : (unit J : Finset ι → K) J = 1 := if_pos rfl

theorem unit_degree (J : Finset ι) : OfDegree J.card (unit J : Finset ι → K) :=
  fun _ size => if_neg (fun same => size (congrArg Finset.card same))

variable {J : Finset ι}

theorem contract_unit {i : ι} (member : i ∈ J) :
    contract i (unit J) = (-1 : K) ^ below i J • (unit (J.erase i) : Finset ι → K) := by
  funext M
  rw [Pi.smul_apply, smul_eq_mul]
  by_cases inside : i ∈ M
  · have other : M ≠ J.erase i := fun same => Finset.notMem_erase i J (same ▸ inside)
    rw [contract, if_pos inside, unit, if_neg other, mul_zero]
  · rw [contract_of_notMem inside]
    by_cases same : M = J.erase i
    · rw [same, Finset.insert_erase member, unit_self, unit_self, ← below_insert_self (Finset.notMem_erase i J),
        Finset.insert_erase member]
    · rw [unit, unit, if_neg same, if_neg (fun whole => same (by rw [← whole, Finset.erase_insert inside])), mul_zero,
        mul_zero]

theorem contract_unit_of_notMem {i : ι} (absent : i ∉ J) :
    contract i (unit J) = (0 : Finset ι → K) := by
  funext M
  unfold contract unit
  split_ifs with inside same
  · rfl
  · exact absurd (same ▸ Finset.mem_insert_self i M) absent
  · exact mul_zero _

omit [LinearOrder ι] in
theorem carryAt_sum {τ : Type*} (s : Finset κ) (M : ι → κ → K) (l : List ι) (t : Finset τ) (c : τ → K)
    (f : τ → Finset κ → K) : carryAt s M l (∑ i ∈ t, c i • f i) = ∑ i ∈ t, c i * carryAt s M l (f i) := by
  classical
  induction t using Finset.induction_on with
  | empty => exact carryAt_zero s M l
  | insert i t fresh ih => rw [Finset.sum_insert fresh, Finset.sum_insert fresh, carryAt_add, carryAt_smul, ih]

theorem interior_unit {s J : Finset κ} (inside : J ⊆ s) (v : κ → K) :
    interior s v (unit J) = ∑ k ∈ J, (v k * (-1) ^ below k J) • (unit (J.erase k) : Finset κ → K) := by
  have split : interior s v (unit J) = ∑ k ∈ s, v k • contract k (unit J) := by
    funext I
    rw [Finset.sum_apply]
    rfl
  rw [split, ← Finset.sum_subset inside (fun k _ absent => by rw [contract_unit_of_notMem absent, smul_zero])]
  exact Finset.sum_congr rfl (fun k member => by rw [contract_unit member, smul_smul])

theorem below_slot {m : ℕ} {c : Fin m → κ} (rising : StrictMono c) (a : Fin m) :
    below (c a) (Finset.univ.image c) = a := by
  unfold below
  rw [Finset.sum_image (fun i _ j _ same => rising.injective same)]
  simp only [rising.lt_iff_lt, ← Fin.val_fin_lt]
  rw [← Finset.sum_filter, Finset.sum_const, smul_eq_mul, mul_one]
  exact Fin.card_filter_val_lt.trans (Nat.min_eq_right a.isLt.le)

theorem erase_slot {m : ℕ} {c : Fin (m + 1) → κ} (rising : StrictMono c) (a : Fin (m + 1)) :
    (Finset.univ.image c).erase (c a) = Finset.univ.image (c ∘ a.succAbove) := by
  rw [← Finset.image_image, Fin.image_succAbove_univ, Finset.compl_eq_univ_sdiff, Finset.sdiff_singleton_eq_erase,
    Finset.image_erase rising.injective]

omit [LinearOrder ι] in
theorem carryAt_unit {m : ℕ} (s : Finset κ) (M : ι → κ → K) (r : Fin m → ι) {c : Fin m → κ} (rising : StrictMono c)
    (inside : Finset.univ.image c ⊆ s) :
    carryAt s M (List.ofFn r) (unit (Finset.univ.image c)) = ((Matrix.of M).submatrix r c).det := by
  induction m with
  | zero =>
    rw [Matrix.det_fin_zero, List.ofFn_zero, carryAt]
    exact unit_self ∅
  | succ m ih =>
    rw [List.ofFn_succ, carryAt, interior_unit inside, carryAt_sum, Finset.sum_image (fun i _ j _ same => rising.injective same),
      Matrix.det_succ_row_zero]
    refine Finset.sum_congr rfl (fun a _ => ?_)
    have smaller : Finset.univ.image (c ∘ a.succAbove) ⊆ s := by
      rw [← erase_slot rising]
      exact (Finset.erase_subset _ _).trans inside
    rw [below_slot rising, erase_slot rising, ih (fun i => r i.succ) (rising.comp (Fin.strictMono_succAbove a)) smaller,
      Matrix.submatrix_submatrix, Matrix.submatrix_apply, Matrix.of_apply, mul_comm (M (r 0) (c a))]
    rfl

theorem readAt_eq_component (l : List ι) (α : Finset ι → K) : readAt l α = component α l := by
  induction l generalizing α with
  | nil => simp [readAt, component, disorder]
  | cons i l ih =>
    rw [readAt, ih]
    unfold component
    by_cases distinct : l.Nodup
    · by_cases member : i ∈ l
      · rw [if_pos distinct, if_neg (fun whole => (List.nodup_cons.mp whole).1 member), contract,
          if_pos (List.mem_toFinset.mpr member), mul_zero]
      · rw [if_pos distinct, if_pos (List.nodup_cons.mpr ⟨member, distinct⟩),
          contract_of_notMem (fun inside => member (List.mem_toFinset.mp inside)), disorder, length_filter_lt i distinct,
          List.toFinset_cons, pow_add]
        ring
    · rw [if_neg distinct, if_neg (fun whole => distinct (List.nodup_cons.mp whole).2)]

theorem carryAt_cons (s : Finset κ) (M : ι → κ → K) (i : ι) (l : List ι) (α : Finset κ → K) :
    carryAt s M (i :: l) α = ∑ k ∈ s, M i k * carryAt s M l (contract k α) := by
  have split : interior s (M i) α = ∑ k ∈ s, M i k • contract k α := by
    funext J
    rw [Finset.sum_apply]
    rfl
  rw [carryAt, split, carryAt_sum]

/-- A form that has no components outside `s`. -/
def Inside (s : Finset ι) (α : Finset ι → K) : Prop := ∀ I, ¬I ⊆ s → α I = 0

variable {α : Finset ι → K}

theorem Inside.eq_sum {s : Finset ι} (inside : Inside s α) :
    α = ∑ J ∈ s.powerset, α J • (unit J : Finset ι → K) := by
  funext I
  rw [Finset.sum_apply]
  simp only [Pi.smul_apply, smul_eq_mul, unit, mul_ite, mul_one, mul_zero]
  rw [Finset.sum_ite_eq]
  split_ifs with placed
  · rfl
  · exact inside I (fun subset => placed (Finset.mem_powerset.mpr subset))

theorem carry_inside {s : Finset κ} (M : ι → κ → K) {α : Finset κ → K} (inside : Inside s α) (I : Finset ι) :
    carry s M α I = ∑ J ∈ s.powerset, α J * carry s M (unit J) I := by
  conv_lhs => rw [inside.eq_sum]
  exact carryAt_sum s M I.sort s.powerset α unit

theorem carry_unit {s J : Finset κ} (M : ι → κ → K) {I : Finset ι} (inside : J ⊆ s) {m : ℕ} (rows : I.card = m)
    (columns : J.card = m) :
    carry s M (unit J) I = ((Matrix.of M).submatrix (I.orderEmbOfFin rows) (J.orderEmbOfFin columns)).det := by
  have covers := Finset.image_orderEmbOfFin_univ J columns
  have listed : List.ofFn (I.orderEmbOfFin rows) = I.sort := by
    rw [List.ofFn_eq_map]
    exact Finset.listMap_orderEmbOfFin_finRange I rows
  have minor := carryAt_unit s M (I.orderEmbOfFin rows) (J.orderEmbOfFin columns).strictMono (covers.symm ▸ inside)
  rw [covers, listed] at minor
  exact minor

theorem carry_unit_transpose {s : Finset ι} (M : ι → ι → K) {I : Finset ι} (first : I ⊆ s) (second : J ⊆ s) :
    carry s M (unit J) I = carry s (fun i j => M j i) (unit I) J := by
  by_cases size : I.card = J.card
  · rw [carry_unit M second size rfl, carry_unit _ first rfl size, ← Matrix.det_transpose]
    rfl
  · rw [carry_degree s M (unit_degree J) I size, carry_degree s _ (unit_degree I) J (Ne.symm size)]

/-- The sum of the products of the components on `s`. -/
def pairing (s : Finset ι) (α β : Finset ι → K) : K := ∑ I ∈ s.powerset, α I * β I

theorem pairing_comm (s : Finset ι) (α β : Finset ι → K) : pairing s α β = pairing s β α :=
  Finset.sum_congr rfl (fun I _ => mul_comm (α I) (β I))

theorem pairing_unit {s : Finset ι} (placed : J ⊆ s) (α : Finset ι → K) : pairing s α (unit J) = α J := by
  unfold pairing unit
  simp only [mul_ite, mul_one, mul_zero]
  rw [Finset.sum_ite_eq', if_pos (Finset.mem_powerset.mpr placed)]

theorem pairing_carry {s : Finset ι} (M : ι → ι → K) {β : Finset ι → K} (first : Inside s α) (second : Inside s β) :
    pairing s (carry s M α) β = pairing s α (carry s (fun i j => M j i) β) := by
  calc pairing s (carry s M α) β
      = ∑ I ∈ s.powerset, ∑ J ∈ s.powerset, α J * carry s M (unit J) I * β I := by
        refine Finset.sum_congr rfl (fun I _ => ?_)
        rw [carry_inside M first I, Finset.sum_mul]
    _ = ∑ J ∈ s.powerset, ∑ I ∈ s.powerset, α J * (β I * carry s (fun i j => M j i) (unit I) J) := by
        rw [Finset.sum_comm]
        refine Finset.sum_congr rfl (fun J placed => Finset.sum_congr rfl (fun I placed' => ?_))
        rw [carry_unit_transpose M (Finset.mem_powerset.mp placed') (Finset.mem_powerset.mp placed)]
        ring
    _ = pairing s α (carry s (fun i j => M j i) β) := by
        refine Finset.sum_congr rfl (fun J _ => ?_)
        rw [carry_inside _ second J, Finset.mul_sum]

/-- What a form of top degree is multiplied with. -/
def topMinor (s : Finset ι) (M : ι → ι → K) : K := carry s M (unit s) s

theorem topMinor_eq_det {s : Finset ι} (M : ι → ι → K) {m : ℕ} (size : s.card = m) :
    topMinor s M = ((Matrix.of M).submatrix (s.orderEmbOfFin size) (s.orderEmbOfFin size)).det :=
  carry_unit M (Finset.Subset.refl s) size size

theorem topMinor_range (n : ℕ) (M : ℕ → ℕ → K) :
    topMinor (Finset.range n) M = (Matrix.of (fun i j : Fin n => M i j)).det := by
  have counted := Finset.card_range n
  have numbered : (Fin.val : Fin n → ℕ) = (Finset.range n).orderEmbOfFin counted :=
    Finset.orderEmbOfFin_unique counted (fun i => Finset.mem_range.mpr i.isLt) Fin.val_strictMono
  rw [topMinor_eq_det M counted, ← numbered]
  rfl

theorem carry_top {s : Finset ι} (M : ι → ι → K) (inside : Inside s α) (degree : OfDegree s.card α) :
    carry s M α s = α s * topMinor s M := by
  rw [carry_inside M inside, Finset.sum_eq_single s]
  · rfl
  · intro J placed other
    have smaller : J.card ≠ s.card := fun size =>
      other (Finset.eq_of_subset_of_card_le (Finset.mem_powerset.mp placed) size.ge)
    rw [degree J smaller, zero_mul]
  · exact fun absent => absurd (Finset.mem_powerset_self s) absent

end PhyNspire.Lib.Exterior

/-!
The Hodge dual on components: raise the indices, pass to the complementary axes with the sign
of their order, and scale. Complementing is an isometry of the pairing of components, and it
turns the pairing into the exterior product at the top degree; with carrying as its own
adjoint these two facts give the involution and the symmetry.
-/

namespace PhyNspire.Lib.Exterior

variable {ι K : Type*} [LinearOrder ι] [CommRing K]

/-- The complementary components, signed by the order of the two axis sets. -/
def complement (s : Finset ι) (α : Finset ι → K) : Finset ι → K := fun J =>
  if J ⊆ s then (-1) ^ crossings (s \ J) J * α (s \ J) else 0

/-- The dual, `G` being the inverse metric and `ρ` the volume scale. -/
def hodge (s : Finset ι) (G : ι → ι → K) (ρ : K) (α : Finset ι → K) : Finset ι → K := ρ • complement s (carry s G α)

theorem complement_apply {s J : Finset ι} (placed : J ⊆ s) (α : Finset ι → K) :
    complement s α J = (-1) ^ crossings (s \ J) J * α (s \ J) := if_pos placed

theorem complement_inside (s : Finset ι) (α : Finset ι → K) : Inside s (complement s α) := fun _ out => if_neg out

variable {α : Finset ι → K}

theorem complement_congr {s : Finset ι} {β : Finset ι → K} (same : ∀ J, J ⊆ s → α J = β J) :
    complement s α = complement s β := by
  funext J
  unfold complement
  rw [same (s \ J) Finset.sdiff_subset]

theorem complement_smul (s : Finset ι) (c : K) (α : Finset ι → K) : complement s (c • α) = c • complement s α := by
  funext J
  simp only [complement, Pi.smul_apply, smul_eq_mul]
  split_ifs
  · ring
  · exact (mul_zero c).symm

theorem complement_add (s : Finset ι) (α β : Finset ι → K) : complement s (α + β) = complement s α + complement s β := by
  funext J
  simp only [complement, Pi.add_apply]
  split_ifs
  · ring
  · exact (add_zero 0).symm

def hodgeMap (s : Finset ι) (G : ι → ι → K) (ρ : K) : (Finset ι → K) →ₗ[K] (Finset ι → K) where
  toFun := hodge s G ρ
  map_add' α β := by
    have carried : carry s G (α + β) = carry s G α + carry s G β := funext (fun I => carryAt_add s G _ α β)
    rw [hodge, carried, complement_add, smul_add]
    rfl
  map_smul' k α := by
    have carried : carry s G (k • α) = k • carry s G α := funext (fun I => carryAt_smul s G _ k α)
    rw [hodge, carried, complement_smul, smul_comm]
    rfl

theorem complement_degree {s : Finset ι} {p : ℕ} (degree : OfDegree p α) :
    OfDegree (s.card - p) (complement s α) := by
  intro J size
  by_cases placed : J ⊆ s
  · rw [complement_apply placed, degree (s \ J), mul_zero]
    rw [Finset.card_sdiff_of_subset placed]
    have bound := Finset.card_le_card placed
    omega
  · exact complement_inside s α J placed

theorem hodge_inside (s : Finset ι) (G : ι → ι → K) (ρ : K) (α : Finset ι → K) : Inside s (hodge s G ρ α) := by
  intro I out
  rw [hodge, Pi.smul_apply, complement_inside s _ I out, smul_zero]

theorem hodge_degree (s : Finset ι) (G : ι → ι → K) (ρ : K) {p : ℕ} (degree : OfDegree p α) :
    OfDegree (s.card - p) (hodge s G ρ α) := by
  intro I size
  rw [hodge, Pi.smul_apply, complement_degree (carry_degree s G degree) I size, smul_zero]

theorem complement_complement {s : Finset ι} {p : ℕ} (inside : Inside s α) (degree : OfDegree p α) :
    complement s (complement s α) = (-1 : K) ^ (p * (s.card - p)) • α := by
  funext J
  rw [Pi.smul_apply, smul_eq_mul]
  by_cases placed : J ⊆ s
  · have back : s \ (s \ J) = J := Finset.sdiff_sdiff_eq_self placed
    rw [complement_apply placed, complement_apply Finset.sdiff_subset, back, ← mul_assoc, ← pow_add,
      crossings_swap Finset.sdiff_disjoint, Finset.card_sdiff_of_subset placed]
    by_cases size : J.card = p
    · rw [size, mul_comm p]
    · rw [degree J size, mul_zero, mul_zero]
  · rw [complement_inside _ _ J placed, inside J placed, mul_zero]

theorem sum_complement (s : Finset ι) (f : Finset ι → K) : ∑ J ∈ s.powerset, f (s \ J) = ∑ I ∈ s.powerset, f I := by
  refine Finset.sum_nbij' (s \ ·) (s \ ·) ?_ ?_ ?_ ?_ ?_
  · exact fun _ _ => Finset.mem_powerset.mpr Finset.sdiff_subset
  · exact fun _ _ => Finset.mem_powerset.mpr Finset.sdiff_subset
  · exact fun _ placed => Finset.sdiff_sdiff_eq_self (Finset.mem_powerset.mp placed)
  · exact fun _ placed => Finset.sdiff_sdiff_eq_self (Finset.mem_powerset.mp placed)
  · exact fun _ _ => rfl

theorem pairing_complement (s : Finset ι) (α β : Finset ι → K) :
    pairing s (complement s α) (complement s β) = pairing s α β := by
  unfold pairing
  rw [← sum_complement s (fun I => α I * β I)]
  refine Finset.sum_congr rfl (fun J placed => ?_)
  rw [complement_apply (Finset.mem_powerset.mp placed), complement_apply (Finset.mem_powerset.mp placed)]
  have square := neg_one_pow_mul_self (K := K) (crossings (s \ J) J)
  linear_combination α (s \ J) * β (s \ J) * square

theorem wedge_top (s : Finset ι) (α β : Finset ι → K) : wedge α β s = pairing s (complement s α) β := by
  unfold wedge pairing
  rw [← sum_complement s (fun I => (-1) ^ crossings I (s \ I) * (α I * β (s \ I)))]
  refine Finset.sum_congr rfl (fun J placed => ?_)
  rw [complement_apply (Finset.mem_powerset.mp placed), Finset.sdiff_sdiff_eq_self (Finset.mem_powerset.mp placed)]
  ring

section Symmetric

variable {s : Finset ι} {G : ι → ι → K} (symmetric : ∀ i j, G i j = G j i)
include symmetric

variable {α β : Finset ι → K}

theorem pairing_carry_symmetric (first : Inside s α) (second : Inside s β) :
    pairing s (carry s G α) β = pairing s α (carry s G β) := by
  rw [pairing_carry G first second]
  exact congrArg (fun M => pairing s α (carry s M β)) (funext (fun i => funext (fun j => symmetric j i)))

theorem carry_complement_carry {p : ℕ} (inside : Inside s α) (degree : OfDegree p α) {J : Finset ι} (placed : J ⊆ s) :
    carry s G (complement s (carry s G α)) J = topMinor s G * complement s α J := by
  have other : Inside s (unit J : Finset ι → K) := by
    intro I out
    have different : I ≠ J := fun same => out (same ▸ placed)
    exact if_neg different
  have product : Inside s (wedge α (unit J)) := wedge_inside inside other
  calc carry s G (complement s (carry s G α)) J
      = pairing s (carry s G (complement s (carry s G α))) (unit J) := (pairing_unit placed _).symm
    _ = pairing s (complement s (carry s G α)) (carry s G (unit J)) :=
        pairing_carry_symmetric symmetric (complement_inside s _) other
    _ = carry s G (wedge α (unit J)) s := by rw [← wedge_top, carry_wedge s G degree]
    _ = topMinor s G * complement s α J := ?_
  by_cases full : p + J.card = s.card
  · rw [carry_top G product (full ▸ degree.wedge (unit_degree J)), wedge_top, pairing_unit placed, mul_comm]
  · have size : (s \ J).card ≠ p := by
      rw [Finset.card_sdiff_of_subset placed]
      have bound := Finset.card_le_card placed
      omega
    rw [carry_degree s G (degree.wedge (unit_degree J)) s (Ne.symm full), complement_apply placed, degree _ size,
      mul_zero, mul_zero]

theorem hodge_hodge {p : ℕ} (inside : Inside s α) (degree : OfDegree p α) (ρ ρ' : K) :
    hodge s G ρ' (hodge s G ρ α) = ((-1) ^ (p * (s.card - p)) * (ρ' * ρ * topMinor s G)) • α := by
  have raised : complement s (carry s G (complement s (carry s G α))) = complement s (topMinor s G • complement s α) :=
    complement_congr (fun J placed => carry_complement_carry symmetric inside degree placed)
  unfold hodge
  rw [carry_smul, complement_smul, raised, complement_smul, complement_complement inside degree, smul_smul, smul_smul,
    smul_smul]
  congr 1
  ring

theorem wedge_hodge_comm (first : Inside s α) (second : Inside s β) (ρ : K) :
    wedge α (hodge s G ρ β) s = wedge β (hodge s G ρ α) s := by
  unfold hodge
  rw [wedge_smul_right, wedge_smul_right, Pi.smul_apply, Pi.smul_apply, wedge_top, wedge_top, pairing_complement,
    pairing_complement, pairing_comm s β, pairing_carry_symmetric symmetric first second]

theorem wedge_hodge_symmetric (first : Inside s α) (second : Inside s β) {p : ℕ} (degree : OfDegree p α)
    (degree' : OfDegree p β) (bounded : p ≤ s.card) (ρ : K) : wedge α (hodge s G ρ β) = wedge β (hodge s G ρ α) := by
  have top {γ δ : Finset ι → K} (graded : OfDegree p γ) (graded' : OfDegree p δ) : OfDegree s.card (wedge γ (hodge s G ρ δ)) :=
    Nat.add_sub_cancel' bounded ▸ graded.wedge (hodge_degree s G ρ graded')
  funext I
  by_cases placed : I ⊆ s
  · by_cases size : I.card = s.card
    · rw [Finset.eq_of_subset_of_card_le placed size.ge]
      exact wedge_hodge_comm symmetric first second ρ
    · rw [top degree degree' I size, top degree' degree I size]
  · rw [wedge_inside first (hodge_inside s G ρ β) I placed, wedge_inside second (hodge_inside s G ρ α) I placed]

end Symmetric

theorem hodge_one (s : Finset ι) (G : ι → ι → K) (ρ : K) : hodge s G ρ (unit ∅) = ρ • unit s := by
  unfold hodge
  congr 1
  funext J
  by_cases placed : J ⊆ s
  · rw [complement_apply placed]
    by_cases whole : J = s
    · rw [whole, Finset.sdiff_self, carry_empty, unit_self, unit_self, crossings, Finset.sum_empty, pow_zero, one_mul]
    · have rest : (s \ J).card ≠ (∅ : Finset ι).card := fun none =>
        whole (Finset.Subset.antisymm placed (Finset.sdiff_eq_empty_iff_subset.mp (Finset.card_eq_zero.mp none)))
      rw [carry_degree s G (unit_degree ∅) _ rest, mul_zero, unit, if_neg whole]
  · rw [complement_inside _ _ J placed, unit, if_neg (fun whole => placed whole.le)]

theorem carryAt_diagonal {s : Finset ι} (σ : ι → K) {l : List ι} (placed : ∀ i ∈ l, i ∈ s) (α : Finset ι → K) :
    carryAt s (fun i j => if i = j then σ i else 0) l α = (l.map σ).prod * readAt l α := by
  induction l generalizing α with
  | nil => rw [carryAt, readAt, List.map_nil, List.prod_nil, one_mul]
  | cons i l ih =>
    have row : interior s (fun j => if i = j then σ i else 0) α = σ i • contract i α := by
      funext J
      unfold interior
      simp only [ite_mul, zero_mul]
      rw [Finset.sum_ite_eq, if_pos (placed i (List.mem_cons_self ..))]
      rfl
    rw [carryAt, row, carryAt_smul, ih (fun j member => placed j (List.mem_cons_of_mem i member)), readAt, List.map_cons,
      List.prod_cons, mul_assoc]

theorem carry_diagonal {s : Finset ι} (σ : ι → K) {I : Finset ι} (placed : I ⊆ s) (α : Finset ι → K) :
    carry s (fun i j => if i = j then σ i else 0) α I = (∏ i ∈ I, σ i) * α I := by
  rw [carry, carryAt_diagonal σ (fun i member => placed ((Finset.mem_sort (· ≤ ·)).mp member)),
    readAt_sort α (Finset.sortedLT_sort I).pairwise, Finset.sort_toFinset]
  congr 1
  rw [← List.prod_toFinset σ (Finset.sort_nodup I (· ≤ ·)), Finset.sort_toFinset]

end PhyNspire.Lib.Exterior

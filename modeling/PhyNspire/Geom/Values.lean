import PhyNspire.Geom.Exterior

/-!
What the stored components denote. Each operation is compared with its definition on
components, one target tuple at a time: the terms that the loop collects denote the terms of
the defining sum, and a skipped term denotes zero.
-/

namespace PhyNspire.Geom
open Platform Cas Tensor Lib.Stateful Lib.Exterior

variable {State Ref K : Type} [CommRing K] {cas : Cas State Ref} {value : Ref → Option K}
  {partialBy : Ref → Derivation ℤ K K}

/-- The stored components of a form denote the components of `α`, which has no others. -/
structure Means (value : Ref → Option K) (form : Form Ref) (α : Finset Nat → K) : Prop where
  zero : value form.zero = some 0
  components : ∀ position, position < form.count →
    value (form.componentAt position) = some (α (combinationAt form.dimension form.degree position).toFinset)
  outside : ∀ I, I ∉ (Finset.range form.dimension).powersetCard form.degree → α I = 0

variable {form : Form Ref} {α : Finset Nat → K}

theorem Means.degree (means : Means value form α) : OfDegree form.degree α :=
  fun I size => means.outside I (fun member => size (Finset.mem_powersetCard.mp member).2)

theorem Means.lookup (means : Means value form α) {I : Finset Nat}
    (member : I ∈ (Finset.range form.dimension).powersetCard form.degree) :
    ∃ position, combinationIndex form.dimension form.degree (increasing I) = some position ∧
      value (form.componentAt position) = some (α I) := by
  obtain ⟨position, bound, found, same⟩ := combinationIndex_increasing form.manifold.small form.graded member
  exact ⟨position, found, same ▸ means.components position bound⟩

theorem Means.of_like {like : Form Ref} {degree : Nat} (alike : like.Like degree form) (zero : value like.zero = some 0)
    (components : ∀ position, position < form.count →
      value (form.componentAt position) = some (α (combinationAt like.dimension degree position).toFinset))
    (outside : ∀ I, I ∉ (Finset.range like.dimension).powersetCard degree → α I = 0) : Means value form α := by
  obtain ⟨manifold, -, graded⟩ := alike
  refine ⟨?_, ?_, ?_⟩
  · unfold Form.zero
    rw [manifold]
    exact zero
  · intro position bound
    unfold Form.dimension
    rw [manifold, graded]
    exact components position bound
  · unfold Form.dimension
    rw [manifold, graded]
    exact outside

def Collected (value : Ref → Option K) (forms : List (Option (Form Ref))) (sum : K) (terms : List Ref)
    (world : World State Ref) : Prop :=
  (∃ ks, Denote value terms ks ∧ ks.sum = sum) ∧ world.forms = forms

variable {world : World State Ref}

theorem Collected.snoc {forms : List (Option (Form Ref))} {sum : K} {terms : List Ref} {world' : World State Ref}
    (collected : Collected value forms sum terms world) (same : world'.forms = world.forms) {ref : Ref} {k : K}
    (denotes : value ref = some k) : Collected value forms (sum + k) (terms ++ [ref]) world' := by
  obtain ⟨⟨ks, denote, total⟩, kept⟩ := collected
  refine ⟨⟨ks ++ [k], Denote.snoc denote denotes, ?_⟩, same.trans kept⟩
  rw [List.sum_append, total, List.sum_singleton]

theorem Collected.skip {forms : List (Option (Form Ref))} {sum k : K} {terms : List Ref}
    (collected : Collected value forms sum terms world) (zero : k = 0) :
    Collected value forms (sum + k) terms world := by
  rw [zero, add_zero]
  exact collected

theorem wp_terms {term : Nat → List Ref → Geometry State Ref (List Ref)} (count : Nat) (f : Nat → K)
    (world : World State Ref)
    (step : ∀ i, i < count → ∀ sum terms before, Collected value world.forms sum terms before →
      wp (term i terms) (Collected value world.forms (sum + f i)) (fun _ after => after.forms = world.forms) before) :
    wp (countUp term count 0 []) (Collected value world.forms (∑ i ∈ Finset.range count, f i))
      (fun _ after => after.forms = world.forms) world := by
  have loop : wp (countUp term count 0 [])
      (Collected value world.forms (∑ i ∈ Finset.range (0 + count), f i))
      (fun _ after => after.forms = world.forms) world := by
    refine wp_countUp (fun i => Collected value world.forms (∑ i ∈ Finset.range i, f i)) count 0 [] world
      ⟨⟨[], List.Forall₂.nil, rfl⟩, rfl⟩ ?_
    intro i terms before _ bound collected
    rw [Finset.sum_range_succ]
    exact step i (by omega) _ terms before collected
  rwa [Nat.zero_add] at loop

theorem wp_scalar_of {α : Type} {program : EStateM Status State α} {good : α → Prop}
    (held : wp program (fun result _ => good result) (fun _ _ => True) world.session) :
    wp (scalar program) (fun result after => good result ∧ after.forms = world.forms)
      (fun _ after => after.forms = world.forms) world := by
  rw [wp_scalar]
  exact wp_mono held (fun _ _ known => ⟨known, rfl⟩) (fun _ _ _ => rfl)

/-- Differentiation along the axes of a form's chart. -/
def partials (partialBy : Ref → Derivation ℤ K K) (chart : Chart Ref) (axis : Nat) : Derivation ℤ K K :=
  match chart.coordinates[axis]? with
  | some coordinate => partialBy coordinate
  | none => 0

/-- The stored components of a vector field denote the components of `v`. -/
structure VectorMeans (value : Ref → Option K) (vector : Tensor Ref) (v : Nat → K) : Prop where
  zero : value vector.zero = some 0
  components : ∀ axis, axis < vector.dimension → ∀ entry, tensorGet vector [axis] = .ok entry →
    ∃ k, value entry.ref = some k ∧ v axis = entry.sign * k

theorem parity_of_slot (slot : Nat) : (if slot % 2 = 0 then 1 else -1 : Int) = (-1) ^ slot := by
  split_ifs with even
  · exact (Even.neg_one_pow (Nat.even_iff.mpr even)).symm
  · exact (Odd.neg_one_pow (Nat.odd_iff.mpr (by omega))).symm

section Exact

variable [DecidableEq Ref] (exact : Exact cas value partialBy)
include exact

theorem wp_geomApplySign {ref : Ref} {k : K} (denotes : value ref = some k) {sign : Int} (unit : sign = 1 ∨ sign = -1)
    (world : World State Ref) :
    wp (geomApplySign cas ref sign) (fun result after => value result = some (sign * k) ∧ after.forms = world.forms)
      (fun _ after => after.forms = world.forms) world := by
  unfold geomApplySign
  rcases unit with rfl | rfl
  · rw [if_neg (by decide), if_pos (by decide), wp_pure]
    exact ⟨by rw [denotes, Int.cast_one, one_mul], rfl⟩
  · rw [if_neg (by decide), if_neg (by decide)]
    refine wp_good (wp_scalar_of (exact.neg ref k world.session denotes)) ?_
    rintro result after ⟨known, same⟩
    exact ⟨by rw [known, Int.cast_neg, Int.cast_one, neg_one_mul], same⟩

variable {forms : List (Option (Form Ref))} {sum : K} {terms : List Ref} {world : World State Ref}

theorem wp_geomSum {zero : Ref} (vanishes : value zero = some 0) (collected : Collected value forms sum terms world) :
    wp (geomSum cas zero terms) (fun result after => value result = some sum ∧ after.forms = forms)
      (fun _ after => after.forms = forms) world := by
  obtain ⟨⟨ks, denote, total⟩, kept⟩ := collected
  unfold geomSum
  cases denote with
  | nil =>
    rw [List.sum_nil] at total
    exact ⟨by rw [vanishes, total], kept⟩
  | cons first rest =>
    cases rest with
    | nil =>
      rw [List.sum_singleton] at total
      exact ⟨by rw [first, total], kept⟩
    | cons second rest =>
      rw [← total, ← kept]
      exact wp_scalar_of (exact.add _ _ world.session (List.Forall₂.cons first (List.Forall₂.cons second rest)))

variable {α : Finset Nat → K}

theorem wp_wedgeTerm {left right : Form Ref} {β : Finset Nat → K} (first : Means value left α)
    (second : Means value right β) (same : right.dimension = left.dimension)
    (bounded : left.degree + right.degree ≤ left.dimension) {M : Finset Nat}
    (target : M ∈ (Finset.range left.dimension).powersetCard (left.degree + right.degree))
    {shuffle : Nat} (bound : shuffle < geomBinomial (left.degree + right.degree) left.degree)
        (collected : Collected value forms sum terms world) :
    let I := (combinationAt (left.degree + right.degree) left.degree shuffle).toFinset.image ((increasing M).getD · 0)
    wp (wedgeTerm cas left right (increasing M) shuffle terms)
      (Collected value forms (sum + (-1) ^ crossings I (M \ I) * (α I * β (M \ I))))
      (fun _ after => after.forms = forms) world := by
  intro I
  obtain ⟨inside, size⟩ := Finset.mem_powersetCard.mp target
  have length : (increasing M).length = left.degree + right.degree := (length_increasing M).trans size
  have few : shuffle < geomBinomial (increasing M).length left.degree := length ▸ bound
  have spec := shuffle_spec (increasing_pairwise M) (length.le.trans (bounded.trans left.manifold.small))
    (length ▸ Nat.le_add_right _ _) few
  rw [length, toFinset_increasing] at spec
  change I ∈ M.powersetCard left.degree ∧ _ = increasing I ∧ _ = increasing (M \ I) ∧
    _ = (-1) ^ crossings I (M \ I) at spec
  clear_value I
  obtain ⟨member, taken, rest, parity⟩ := spec
  obtain ⟨placed, counted⟩ := Finset.mem_powersetCard.mp member
  obtain ⟨leftPosition, leftFound, leftValue⟩ :=
    first.lookup (Finset.mem_powersetCard.mpr ⟨placed.trans inside, counted⟩)
  obtain ⟨rightPosition, rightFound, rightValue⟩ := second.lookup (I := M \ I)
    (Finset.mem_powersetCard.mpr ⟨by rw [same]; exact Finset.sdiff_subset.trans inside, by
      rw [Finset.card_sdiff_of_subset placed, size, counted, Nat.add_sub_cancel_left]⟩)
  rw [same] at rightFound
  unfold wedgeTerm
  simp only [taken, rest, leftFound, rightFound]
  refine wp_ite (fun skipped => ?_) (fun _ => ?_)
  · rw [wp_pure]
    refine collected.skip ?_
    rcases skipped with zero | zero
    · rw [zero, first.zero] at leftValue
      rw [← Option.some.inj leftValue, zero_mul, mul_zero]
    · rw [zero, second.zero] at rightValue
      rw [← Option.some.inj rightValue, mul_zero, mul_zero]
  · rw [wp_bind]
    refine wp_mono (wp_scalar_of (exact.mul _ _ world.session
      (List.Forall₂.cons leftValue (List.Forall₂.cons rightValue List.Forall₂.nil)))) ?_
      (fun _ _ kept => kept.trans collected.2)
    rintro product after ⟨known, kept⟩
    rw [List.prod_cons, List.prod_singleton] at known
    rw [wp_bind, parity]
    refine wp_mono (wp_geomApplySign exact known (neg_one_pow_eq_or ℤ _) after) ?_
      (fun _ _ kept' => (kept'.trans kept).trans collected.2)
    rintro signed after' ⟨known', kept'⟩
    rw [wp_pure]
    push_cast at known'
    exact collected.snoc (kept'.trans kept) known'

variable {target : Nat}

theorem wp_wedgeComponent {left right : Form Ref} {β : Finset Nat → K} (first : Means value left α)
    (second : Means value right β) (same : right.dimension = left.dimension)
    (bounded : left.degree + right.degree ≤ left.dimension)
    (inside : target < geomBinomial left.dimension (left.degree + right.degree)) (world : World State Ref) :
    wp (wedgeComponent cas left right target)
      (fun result after =>
        value result = some (wedge α β (combinationAt left.dimension (left.degree + right.degree) target).toFinset) ∧
          after.forms = world.forms)
      (fun _ after => after.forms = world.forms) world := by
  have member := combinationAt_mem left.manifold.small bounded inside
  have shape := increasing_combinationAt left.manifold.small bounded inside
  generalize (combinationAt left.dimension (left.degree + right.degree) target).toFinset = M at member shape ⊢
  have length : (increasing M).length = left.degree + right.degree :=
    (length_increasing M).trans (Finset.mem_powersetCard.mp member).2
  unfold wedgeComponent
  simp only [← shape]
  rw [wp_bind]
  have small : left.degree + right.degree ≤ manifoldMaxDim := bounded.trans left.manifold.small
  refine wp_good (wp_terms _ _ world (fun shuffle bound sum terms before collected =>
    wp_wedgeTerm exact first second same bounded member bound collected)) ?_
  intro terms after collected
  refine wp_good (wp_geomSum exact first.zero collected) ?_
  rintro result after' ⟨known, kept⟩
  refine ⟨known.trans (congrArg some ?_), kept⟩
  rw [sum_combinationAt small (Nat.le_add_right _ _) (fun S =>
    (-1) ^ crossings (S.image ((increasing M).getD · 0)) (M \ S.image ((increasing M).getD · 0)) *
      (α (S.image ((increasing M).getD · 0)) * β (M \ S.image ((increasing M).getD · 0)))), first.degree.wedge_apply β M]
  have slots := sum_powersetCard_slots (increasing_pairwise M) left.degree (fun I =>
    (-1) ^ crossings I (M \ I) * (α I * β (M \ I)))
  rw [length, toFinset_increasing] at slots
  exact slots

variable {form : Form Ref}

theorem wp_derivativeTerm (means : Means value form α) {M : Finset Nat}
    (target : M ∈ (Finset.range form.dimension).powersetCard (form.degree + 1)) {omitted : Nat}
    (bound : omitted < form.degree + 1)
    (collected : Collected value forms sum terms world) :
    let i := (increasing M).getD omitted 0
    wp (derivativeTerm cas form (increasing M) omitted terms)
      (Collected value forms (sum + extend i (fun I => partials partialBy form.chart i (α I)) M))
      (fun _ after => after.forms = forms) world := by
  intro i
  obtain ⟨inside, size⟩ := Finset.mem_powersetCard.mp target
  have slot : omitted < (increasing M).length := by rw [length_increasing, size]; exact bound
  have place := below_getD (increasing_pairwise M) slot
  have erased := toFinset_eraseIdx (increasing_pairwise M) slot
  have member : i ∈ M := by
    rw [← mem_increasing]
    change (increasing M).getD omitted 0 ∈ _
    rw [List.getD_eq_getElem _ _ slot]
    exact List.getElem_mem slot
  change below i _ = omitted at place
  change _ = Finset.erase _ i at erased
  have axis : (increasing M).getD omitted 0 = i := rfl
  clear_value i
  rw [toFinset_increasing] at place erased
  have remaining : (increasing M).eraseIdx omitted = increasing (M.erase i) := by
    rw [← erased, increasing_toFinset ((increasing_pairwise M).sublist (List.eraseIdx_sublist _ _))]
  obtain ⟨source, found, known⟩ := means.lookup (I := M.erase i) (Finset.mem_powersetCard.mpr
    ⟨(Finset.erase_subset i M).trans inside, by rw [Finset.card_erase_of_mem member, size, Nat.add_sub_cancel]⟩)
  have contribution : extend i (fun I => partials partialBy form.chart i (α I)) M =
      (-1) ^ omitted * partials partialBy form.chart i (α (M.erase i)) := by
    rw [extend, if_pos member, place]
  rw [contribution]
  unfold derivativeTerm
  simp only [remaining, found, axis]
  refine wp_ite (fun skipped => ?_) (fun _ => ?_)
  · rw [wp_pure]
    refine collected.skip ?_
    rw [skipped, means.zero] at known
    rw [← Option.some.inj known, map_zero, mul_zero]
  · unfold partials
    cases form.chart.coordinates[i]? with
    | none => exact collected.2
    | some coordinate =>
      simp only
      rw [wp_bind]
      refine wp_mono (wp_scalar_of (exact.diff _ coordinate _ world.session known)) ?_
        (fun _ _ kept => kept.trans collected.2)
      rintro derivative after ⟨known', kept⟩
      refine wp_ite (fun skipped => ?_) (fun _ => ?_)
      · rw [wp_pure]
        rw [skipped, means.zero] at known'
        have moved : Collected value forms sum terms after := ⟨collected.1, kept.trans collected.2⟩
        exact moved.skip (by rw [← Option.some.inj known', mul_zero])
      · rw [wp_bind, parity_of_slot]
        refine wp_mono (wp_geomApplySign exact known' (neg_one_pow_eq_or ℤ _) after) ?_
          (fun _ _ kept' => (kept'.trans kept).trans collected.2)
        rintro signed after' ⟨known'', kept'⟩
        rw [wp_pure]
        push_cast at known''
        exact collected.snoc (kept'.trans kept) known''

theorem wp_derivativeComponent (means : Means value form α) (bounded : form.degree + 1 ≤ form.dimension)
    (inside : target < geomBinomial form.dimension (form.degree + 1)) (world : World State Ref) :
    wp (derivativeComponent cas form target)
      (fun result after => value result = some (exteriorDerivative (Finset.range form.dimension)
          (partials partialBy form.chart) α (combinationAt form.dimension (form.degree + 1) target).toFinset) ∧
        after.forms = world.forms)
      (fun _ after => after.forms = world.forms) world := by
  have member := combinationAt_mem form.manifold.small bounded inside
  have shape := increasing_combinationAt form.manifold.small bounded inside
  generalize (combinationAt form.dimension (form.degree + 1) target).toFinset = M at member shape ⊢
  obtain ⟨placed, size⟩ := Finset.mem_powersetCard.mp member
  unfold derivativeComponent
  simp only [← shape]
  refine wp_then (wp_terms _ _ world (fun omitted bound sum terms before collected =>
    wp_derivativeTerm exact means member bound collected)) ?_
  intro terms after collected
  refine wp_good (wp_geomSum exact means.zero collected) ?_
  rintro result after' ⟨known, kept⟩
  refine ⟨known.trans (congrArg some ?_), kept⟩
  have slots : form.degree + 1 = (increasing M).length := ((length_increasing M).trans size).symm
  have renamed : ∑ i ∈ (Finset.range (increasing M).length).image ((increasing M).getD · 0),
      extend i (fun I => partials partialBy form.chart i (α I)) M =
        ∑ omitted ∈ Finset.range (increasing M).length, extend ((increasing M).getD omitted 0)
          (fun I => partials partialBy form.chart ((increasing M).getD omitted 0) (α I)) M :=
    Finset.sum_image (getD_injOn (increasing_pairwise M))
  rw [slots, ← renamed, image_getD, toFinset_increasing]
  exact Finset.sum_subset placed (fun i _ absent => extend_of_notMem absent _)

theorem wp_interiorTerm (means : Means value form α) {vector : Tensor Ref}
    {v : Nat → K} (field : VectorMeans value vector v) (same : vector.dimension = form.dimension)
    (positive : 0 < form.degree) {J : Finset Nat}
    (target : J ∈ (Finset.range form.dimension).powersetCard (form.degree - 1)) {axis : Nat}
    (bound : axis < form.dimension)
    (collected : Collected value forms sum terms world) :
    wp (interiorTerm cas form vector (increasing J) axis terms)
      (Collected value forms (sum + v axis * contract axis α J)) (fun _ after => after.forms = forms) world := by
  obtain ⟨inside, size⟩ := Finset.mem_powersetCard.mp target
  unfold interiorTerm
  simp only
  by_cases present : axis ∈ J
  · have repeated : ¬(axis :: increasing J).Nodup := fun distinct =>
      (List.nodup_cons.mp distinct).1 (mem_increasing.mpr present)
    rw [if_pos (by rw [sortParity_sign, if_neg repeated]), wp_pure]
    refine collected.skip ?_
    rw [contract, if_pos present, mul_zero]
  · have distinct : (axis :: increasing J).Nodup :=
      List.nodup_cons.mpr ⟨fun member => present (mem_increasing.mp member), (increasing_pairwise J).nodup⟩
    have parity : (sortParity (axis :: increasing J)).2 = (-1) ^ below axis J := by
      rw [sortParity_sign, if_pos distinct, disorder, disorder_of_increasing (increasing_pairwise J), Nat.add_zero,
        length_filter_lt axis (increasing_pairwise J).nodup, toFinset_increasing]
    have sorted : (sortParity (axis :: increasing J)).1 = increasing (insert axis J) := by
      rw [sortParity_sorted distinct, List.toFinset_cons, toFinset_increasing]
    obtain ⟨source, found, known⟩ := means.lookup (I := insert axis J) (Finset.mem_powersetCard.mpr
      ⟨Finset.insert_subset (Finset.mem_range.mpr bound) inside, by
        rw [Finset.card_insert_of_notMem present, size]; omega⟩)
    have contribution : contract axis α J = (-1) ^ below axis J * α (insert axis J) := contract_of_notMem present α
    rw [parity, sorted, if_neg (by rcases neg_one_pow_eq_or ℤ (below axis J) with one | one <;> rw [one] <;> decide),
      contribution]
    simp only [found]
    refine wp_ite (fun skipped => ?_) (fun _ => ?_)
    · rw [wp_pure]
      refine collected.skip ?_
      rw [skipped, means.zero] at known
      rw [← Option.some.inj known, mul_zero, mul_zero]
    · cases read : tensorGet vector [axis] with
      | error status => exact collected.2
      | ok entry =>
        obtain ⟨k, denotes, component⟩ := field.components axis (by rw [same]; exact bound) entry read
        simp only
        refine wp_ite (fun skipped => ?_) (fun kept => ?_)
        · rw [wp_pure]
          refine collected.skip ?_
          rcases skipped with zero | zero
          · rw [component, zero, Int.cast_zero, zero_mul, zero_mul]
          · rw [zero, field.zero] at denotes
            rw [component, ← Option.some.inj denotes, mul_zero, zero_mul]
        · have unit : entry.sign = 1 ∨ entry.sign = -1 :=
            (tensorGet_sign read).resolve_left (fun zero => kept (Or.inl zero))
          have unit' : (-1) ^ below axis J * entry.sign = 1 ∨ (-1) ^ below axis J * entry.sign = -1 := by
            rcases neg_one_pow_eq_or ℤ (below axis J) with one | one <;> rcases unit with one' | one' <;>
              rw [one, one'] <;> decide
          rw [wp_bind]
          refine wp_mono (wp_scalar_of (exact.mul _ _ world.session
            (List.Forall₂.cons denotes (List.Forall₂.cons known List.Forall₂.nil)))) ?_
            (fun _ _ kept => kept.trans collected.2)
          rintro product after ⟨known', kept'⟩
          rw [List.prod_cons, List.prod_singleton] at known'
          rw [wp_bind]
          refine wp_mono (wp_geomApplySign exact known' unit' after) ?_
            (fun _ _ kept'' => (kept''.trans kept').trans collected.2)
          rintro signed after' ⟨known'', kept''⟩
          rw [wp_pure]
          have rearranged : v axis * ((-1) ^ below axis J * α (insert axis J)) =
              (((-1) ^ below axis J * entry.sign : Int) : K) * (k * α (insert axis J)) := by
            rw [component]
            push_cast
            ring
          rw [rearranged]
          exact collected.snoc (kept''.trans kept') known''

theorem wp_interiorComponent (means : Means value form α) {vector : Tensor Ref}
    {v : Nat → K} (field : VectorMeans value vector v) (same : vector.dimension = form.dimension)
    (positive : 0 < form.degree) (inside : target < geomBinomial form.dimension (form.degree - 1))
    (world : World State Ref) :
    wp (interiorComponent cas form vector target)
      (fun result after => value result = some (interior (Finset.range form.dimension) v α
          (combinationAt form.dimension (form.degree - 1) target).toFinset) ∧ after.forms = world.forms)
      (fun _ after => after.forms = world.forms) world := by
  have graded : form.degree - 1 ≤ form.dimension := (Nat.sub_le _ _).trans form.graded
  have member := combinationAt_mem form.manifold.small graded inside
  have shape := increasing_combinationAt form.manifold.small graded inside
  generalize (combinationAt form.dimension (form.degree - 1) target).toFinset = J at member shape ⊢
  unfold interiorComponent
  simp only [← shape]
  refine wp_then (wp_terms _ _ world (fun axis bound sum terms before collected =>
    wp_interiorTerm exact means field same positive member bound collected)) ?_
  intro terms after collected
  exact wp_geomSum exact means.zero collected

end Exact

end PhyNspire.Geom

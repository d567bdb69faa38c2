import PhyNspire.Geom.Values

/-!
The operations as calls. A call that returns has added one form at a fresh address, which
denotes the operation's value on what the operands denote; a call that fails has left the
forms that live as they were.
-/

namespace PhyNspire.Geom
open Platform Cas Tensor Lib.Stateful Lib.Exterior

variable {State Ref K : Type} [CommRing K] {value : Ref → Option K}

variable {form : Form Ref} {α : Finset Nat → K}

theorem Means.inside (means : Means value form α) {I : Finset Nat}
    (outside : ¬I ⊆ Finset.range form.dimension) : α I = 0 :=
  means.outside I (fun member => outside (Finset.mem_powersetCard.mp member).1)

theorem outside_of {n p : Nat} (degree : OfDegree p α)
    (inside : ∀ I, ¬I ⊆ Finset.range n → α I = 0) (I : Finset Nat) (other : I ∉ (Finset.range n).powersetCard p) :
    α I = 0 := by
  by_cases size : I.card = p
  · exact inside I (fun placed => other (Finset.mem_powersetCard.mpr ⟨placed, size⟩))
  · exact degree I size

theorem exteriorDerivative_inside {s : Finset Nat} (δ : Nat → Derivation ℤ K K)
    (first : ∀ I, ¬I ⊆ s → α I = 0) (M : Finset Nat) (outside : ¬M ⊆ s) : exteriorDerivative s δ α M = 0 := by
  refine Finset.sum_eq_zero (fun i axis => ?_)
  unfold extend
  split_ifs with member
  · have rest : ¬M.erase i ⊆ s := fun placed => outside (by
      rw [← Finset.insert_erase member]
      exact Finset.insert_subset axis placed)
    have gone : δ i (α (M.erase i)) = 0 := by rw [first _ rest, map_zero]
    exact (congrArg _ gone).trans (mul_zero _)
  · rfl

theorem interior_inside {s : Finset Nat} (v : Nat → K) (first : ∀ I, ¬I ⊆ s → α I = 0)
    (M : Finset Nat) (outside : ¬M ⊆ s) : interior s v α M = 0 := by
  refine Finset.sum_eq_zero (fun i _ => ?_)
  unfold contract
  split_ifs with member
  · exact mul_zero _
  · rw [first _ (fun placed => outside ((Finset.subset_insert i M).trans placed)), mul_zero, mul_zero]

theorem exteriorDerivative_top {n : Nat} (δ : Nat → Derivation ℤ K K) (degree : OfDegree n α)
    (inside : ∀ I, ¬I ⊆ Finset.range n → α I = 0) : exteriorDerivative (Finset.range n) δ α = 0 := by
  funext M
  by_cases placed : M ⊆ Finset.range n
  · refine OfDegree.exteriorDerivative degree _ δ M (fun size => ?_)
    have bound := Finset.card_le_card placed
    rw [Finset.card_range] at bound
    omega
  · exact exteriorDerivative_inside δ inside M placed

variable {like : Form Ref} {degree : Nat}

theorem Form.Like.chart (alike : like.Like degree form) :
    form.chart = like.chart := by
  obtain ⟨manifold, index, -⟩ := alike
  unfold Form.chart
  simp only [List.get_eq_getElem, manifold, index]

theorem Form.Like.dimension (alike : like.Like degree form) :
    form.dimension = like.dimension := by
  unfold Form.dimension
  rw [alike.1]

variable {world : World State Ref}

theorem wp_formAt {address : Nat} {good : Form Ref → World State Ref → Prop}
    {bad : Status → World State Ref → Prop} (lives : world.form address = some form)
    (held : good form world) : wp (formAt address) good bad world := by
  unfold formAt
  rw [wp_bind, wp_get, lives]
  exact held

def Publishes (world : World State Ref) (call : Geometry State Ref Nat) (result : Form Ref → Prop) : Prop :=
  wp call (fun address after => ∃ form, Adds world after address form ∧ result form)
    (fun _ after => Untouched world after) world

variable {result : Form Ref → Prop}

theorem Publishes.mono {call : Geometry State Ref Nat} {result' : Form Ref → Prop}
    (publishes : Publishes world call result) (weaker : ∀ form, result form → result' form) :
    Publishes world call result' :=
  wp_good publishes (fun _ _ ⟨form, adds, known⟩ => ⟨form, adds, weaker form known⟩)

theorem Untouched.refl (world : World State Ref) : Untouched world world := fun _ => rfl

theorem publishes_throw (world : World State Ref) (status : Status) (result : Form Ref → Prop) :
    Publishes world (throw status) result := Untouched.refl world

theorem publishes_ite {condition : Prop} [Decidable condition] {first second : Geometry State Ref Nat}
    (taken : condition → Publishes world first result) (skipped : ¬condition → Publishes world second result) :
    Publishes world (if condition then first else second) result := wp_ite taken skipped

theorem publishes_check {condition : Prop} [Decidable condition] {status : Status}
    {next : Geometry State Ref Nat} (passed : ¬condition → Publishes world next result) :
    Publishes world ((if condition then throw status else pure () : Geometry State Ref Unit) >>= fun _ => next) result := by
  unfold Publishes
  rw [wp_bind]
  exact wp_ite (fun _ => Untouched.refl world) (fun no => passed no)

theorem publishes_formAt {address : Nat}
    (lives : world.form address = some form) {next : Form Ref → Geometry State Ref Nat}
    (held : Publishes world (next form) result) : Publishes world (formAt address >>= next) result := by
  unfold Publishes
  rw [wp_bind]
  exact wp_formAt lives held

theorem publishes_formFilled {component : Nat → Geometry State Ref Ref} (zero : value like.zero = some 0)
    (computes : ∀ target world, target < geomBinomial like.dimension degree →
      wp (component target)
        (fun result after => value result = some (α (combinationAt like.dimension degree target).toFinset) ∧
          after.forms = world.forms)
        (fun _ after => after.forms = world.forms) world)
    (degreed : OfDegree degree α) (inside : ∀ I, ¬I ⊆ Finset.range like.dimension → α I = 0) :
    Publishes world (formFilled like degree component) (fun form => like.Like degree form ∧ Means value form α) :=
  wp_mono (wp_formFilled world (fun target world bound =>
      wp_mono (computes target world bound) (fun _ _ known => known) (fun _ _ same => ⟨same, trivial⟩)))
    (fun _ _ ⟨form, adds, alike, filled⟩ =>
      ⟨form, adds, alike, Means.of_like alike zero filled (outside_of degreed inside)⟩)
    (fun _ _ same => same.1)

section Exact

variable [DecidableEq Ref] {cas : Cas State Ref} {partialBy : Ref → Derivation ℤ K K}
  (exact : Exact cas value partialBy)
include exact

variable {world : World State Ref} {a : Nat} {α : Finset Nat → K}

theorem publishes_formWedge {b : Nat} {left right : Form Ref} {β : Finset Nat → K}
    (lives : world.form a = some left) (lives' : world.form b = some right) (first : Means value left α)
    (second : Means value right β) :
    Publishes world (formWedge cas a b) (fun form =>
      (left.Like right.degree right ∧ left.Like (left.degree + right.degree) form) ∧ Means value form (wedge α β)) := by
  unfold formWedge geomCheckPair geomCheckCas
  refine publishes_formAt lives (publishes_formAt lives' (publishes_check (fun paired => publishes_check (fun _ => ?_))))
  refine publishes_ite (fun _ => publishes_throw _ _ _) (fun bounded => ?_)
  have alike : left.Like right.degree right :=
    ⟨by_contra (fun other => paired (Or.inl (Ne.symm other))), by_contra (fun other => paired (Or.inr (Ne.symm other))), rfl⟩
  have same := alike.dimension
  refine (publishes_formFilled first.zero (fun target world inside =>
    wp_wedgeComponent exact first second same (Nat.le_of_not_lt bounded) inside world)
    (first.degree.wedge second.degree) ?_).mono (fun form known => ⟨⟨alike, known.1⟩, known.2⟩)
  exact wedge_inside (fun I => first.inside) (fun I outside => second.inside (by rwa [same]))

variable {form : Form Ref}

theorem publishes_formExteriorDerivative (lives : world.form a = some form) (means : Means value form α) :
    Publishes world (formExteriorDerivative cas a) (fun result => form.Like (form.degree + 1) result ∧
      Means value result (exteriorDerivative (Finset.range form.dimension) (partials partialBy form.chart) α)) := by
  unfold formExteriorDerivative geomCheckCas
  refine publishes_formAt lives (publishes_check (fun _ => ?_))
  refine publishes_ite (fun _ => publishes_throw _ _ _) (fun bounded => ?_)
  exact publishes_formFilled means.zero (fun target world inside =>
    wp_derivativeComponent exact means (by omega) inside world)
    (means.degree.exteriorDerivative _ _) (exteriorDerivative_inside _ (fun I => means.inside))

theorem publishes_formInteriorProduct {vector : Tensor Ref}
    {v : Nat → K} (lives : world.form a = some form) (means : Means value form α)
    (field : VectorMeans value vector v) :
    Publishes world (formInteriorProduct cas a vector) (fun result =>
      (0 < form.degree ∧ form.Like (form.degree - 1) result) ∧
        Means value result (interior (Finset.range form.dimension) v α)) := by
  unfold formInteriorProduct geomCheckCas
  refine publishes_formAt lives (publishes_check (fun _ => ?_))
  refine publishes_ite (fun _ => publishes_throw _ _ _) (fun typed => ?_)
  refine publishes_ite (fun _ => publishes_throw _ _ _) (fun positive => ?_)
  have chart : vector.chart = form.chart := by
    by_contra other
    exact typed (Or.inr (Or.inr other))
  have same : vector.dimension = form.dimension := by
    unfold Tensor.dimension
    rw [chart]
    exact form.manifold.charted _ (List.get_mem _ _)
  have degree : OfDegree (form.degree - 1 + 1) α := by
    rw [Nat.sub_add_cancel (Nat.pos_of_ne_zero positive)]
    exact means.degree
  refine (publishes_formFilled means.zero (fun target world inside =>
    wp_interiorComponent exact means field same (Nat.pos_of_ne_zero positive) inside world)
    (degree.interior _ _) (interior_inside v (fun I => means.inside))).mono
      (fun _ known => ⟨⟨Nat.pos_of_ne_zero positive, known.1⟩, known.2⟩)

theorem publishes_combine {b : Nat} {left right : Form Ref} {β : Finset Nat → K}
    (lives : world.form a = some left) (lives' : world.form b = some right) (first : Means value left α)
    (second : Means value right β) (subtract : Bool) :
    Publishes world (combine cas a b subtract) (fun form => left.Like left.degree form ∧
      Means value form (if subtract then α - β else α + β)) := by
  unfold combine geomCheckPair geomCheckCas
  refine publishes_formAt lives (publishes_formAt lives' (publishes_check (fun paired => ?_)))
  refine publishes_ite (fun _ => publishes_throw _ _ _) (fun graded => publishes_check (fun _ => ?_))
  have manifold : left.manifold = right.manifold := by
    by_contra other
    exact paired (Or.inl other)
  have degrees : right.degree = left.degree := (not_not.mp graded).symm
  have same : right.dimension = left.dimension := by
    unfold Form.dimension
    rw [manifold]
  have read : ∀ target, target < geomBinomial left.dimension left.degree →
      value (right.componentAt target) = some (β (combinationAt left.dimension left.degree target).toFinset) := by
    intro target inside
    have known := second.components target (by unfold Form.count; rw [same, degrees]; exact inside)
    rwa [same, degrees] at known
  refine publishes_formFilled first.zero (fun target world inside => ?_) ?_ ?_
  · refine wp_ite (fun yes => ?_) (fun no => ?_)
    · rw [if_pos yes]
      exact wp_scalar_of (exact.sub _ _ _ _ world.session (first.components target inside) (read target inside))
    · rw [if_neg no]
      refine wp_good (wp_scalar_of (exact.add _ _ world.session (List.Forall₂.cons (first.components target inside)
        (List.Forall₂.cons (read target inside) List.Forall₂.nil)))) ?_
      rintro result after ⟨known, kept⟩
      rw [List.sum_cons, List.sum_singleton] at known
      exact ⟨known, kept⟩
  · intro I size
    have zero := second.degree I (by rwa [degrees])
    split_ifs
    · rw [Pi.sub_apply, first.degree I size, zero, sub_zero]
    · rw [Pi.add_apply, first.degree I size, zero, add_zero]
  · intro I outside
    have zero := second.inside (I := I) (by rwa [same])
    split_ifs
    · rw [Pi.sub_apply, first.inside outside, zero, sub_zero]
    · rw [Pi.add_apply, first.inside outside, zero, add_zero]

theorem publishes_formScale {factor : Ref}
    {c : K} (lives : world.form a = some form) (means : Means value form α) (denotes : value factor = some c) :
    Publishes world (formScale cas a factor) (fun result => form.Like form.degree result ∧ Means value result (c • α)) := by
  unfold formScale geomCheckCas
  refine publishes_formAt lives (publishes_check (fun _ => ?_))
  refine publishes_formFilled means.zero (fun target world inside => ?_) ?_ ?_
  · refine wp_good (wp_scalar_of (exact.mul _ _ world.session (List.Forall₂.cons denotes
      (List.Forall₂.cons (means.components target inside) List.Forall₂.nil)))) ?_
    rintro result after ⟨known, kept⟩
    rw [List.prod_cons, List.prod_singleton] at known
    exact ⟨known, kept⟩
  · intro I size
    rw [Pi.smul_apply, means.degree I size, smul_zero]
  · intro I outside
    rw [Pi.smul_apply, means.inside outside, smul_zero]

end Exact

end PhyNspire.Geom

import PhyNspire.Geom.Identities
import PhyNspire.Geom.Stars

/-!
The laws of the two duals, as relations between calls. The general dual takes the sign of the
determinant from the manifold; a determinant that is a number is compared with it, but
only when it is kept in machine words.
-/

namespace PhyNspire.Geom
open Cas Tensor Lib.Stateful Lib.Exterior

variable {State Ref K : Type} [DecidableEq Ref]

/-- `result` is the orthonormal dual of `form`, computed in some memory. -/
def Dualizes (cas : Cas State Ref) (form result : Form Ref) : Prop :=
  ∃ world a, world.form a = some form ∧ Yields world (formHodge cas a) result

def DualizesBy (engine : Engine State Ref) (metric : Tensor Ref) (form result : Form Ref) : Prop :=
  ∃ world a, world.form a = some form ∧ Yields world (formHodgeMetric engine a metric) result

def Measures (cas : Cas State Ref) (manifold : Manifold Ref) (chartIndex : Nat) (result : Form Ref) : Prop :=
  ∃ world, Yields world (formVolume cas manifold chartIndex) result

def MeasuresBy (engine : Engine State Ref) (metric : Tensor Ref) (manifold : Manifold Ref) (chartIndex : Nat)
    (result : Form Ref) : Prop :=
  ∃ world, Yields world (formVolumeMetric engine manifold chartIndex metric) result

structure One [CommRing K] (value : Ref → Option K) (manifold : Manifold Ref) (chartIndex : Nat) (form : Form Ref) : Prop where
  manifold : form.manifold = manifold
  chartIndex : form.chartIndex = chartIndex
  degree : form.degree = 0
  means : Means value form (unit ∅)

section Metric

variable [Field K]

omit [DecidableEq Ref] in
theorem signatureMetric_square (manifold : Manifold Ref) {axis : Nat} (inside : axis < manifold.dimension) :
    ((manifoldSignature manifold axis : Int) : K) * (manifoldSignature manifold axis : Int) = 1 := by
  rcases manifoldSignature_unit manifold inside with one | one <;> rw [one] <;> simp

omit [DecidableEq Ref] in
theorem manifoldMetricSign_square (manifold : Manifold Ref) :
    ((manifoldMetricSign manifold : Int) : K) * (manifoldMetricSign manifold : Int) = 1 := by
  rcases manifoldMetricSign_unit manifold with one | one <;> rw [one] <;> simp

omit [DecidableEq Ref] in
theorem orientationSign_square {manifold : Manifold Ref} (oriented : orientationSign manifold ≠ 0) :
    ((orientationSign manifold : Int) : K) * (orientationSign manifold : Int) = 1 := by
  rcases orientationSign_unit oriented with one | one <;> rw [one] <;> simp

variable {manifold : Manifold Ref} {g : Nat → Nat → K}
  (orthonormal : ∀ i j, i < manifold.dimension → j < manifold.dimension → g i j = signatureMetric manifold i j)
include orthonormal

omit [DecidableEq Ref] in
theorem diagonal_of_signature : Matrix.of (fun i j : Fin manifold.dimension => g i j) =
    Matrix.diagonal (fun i : Fin manifold.dimension => ((manifoldSignature manifold i : Int) : K)) := by
  ext i j
  rw [Matrix.of_apply, orthonormal i j i.isLt j.isLt, Matrix.diagonal_apply, signatureMetric]
  simp only [Fin.ext_iff]

omit [DecidableEq Ref] in
theorem determinantOf_signature : determinantOf manifold.dimension g = (manifoldMetricSign manifold : Int) := by
  rw [determinantOf, diagonal_of_signature orthonormal, Matrix.det_diagonal, manifoldMetricSign_eq, Int.cast_prod,
    Finset.prod_range]

omit [DecidableEq Ref] in
theorem inverseOf_signature : inverseOf manifold.dimension g = signatureMetric manifold := by
  have square : Matrix.of (fun i j : Fin manifold.dimension => g i j) * Matrix.of (fun i j : Fin manifold.dimension => g i j) =
      1 := by
    rw [diagonal_of_signature orthonormal, Matrix.diagonal_mul_diagonal, ← Matrix.diagonal_one]
    exact congrArg Matrix.diagonal (funext (fun i => signatureMetric_square manifold i.isLt))
  funext i j
  unfold inverseOf
  split_ifs with inside
  · rw [Matrix.inv_eq_right_inv square, Matrix.of_apply]
    exact orthonormal i j inside.1 inside.2
  · unfold signatureMetric
    split_ifs with same
    · have far : manifold.signature.length ≤ i := by
        rw [manifold.signed.1]
        omega
      rw [manifoldSignature, List.getD_eq_default _ _ far, Int.cast_zero]
    · rfl

end Metric

section Sound

variable [Field K] {engine : Engine State Ref} {value : Ref → Option K} {root : K → K} {mayStop : Prop}
  {partialBy : Ref → Derivation ℤ K K}

variable {world : World State Ref} {a : Nat} {form : Form Ref} {α : Finset Nat → K} {metric : Tensor Ref}
  {t : List Nat → K}

theorem publishes_formHodgeMetric (sound : Sound engine value root mayStop) (lives : world.form a = some form)
    (means : Means value form α) (components : TensorMeans value metric t)
    (regular : determinantOf form.dimension (entry t) ≠ 0) :
    Publishes world (formHodgeMetric engine a metric) (fun result => form.Like (form.dimension - form.degree) result ∧
      WellPosed engine form metric t ∧ Means value result (metricDual root form t α) ∧
        ∀ q, Determines engine metric q → Machine q → q.num.sign = manifoldMetricSign form.manifold) :=
  wp_mono (wp_formHodgeMetric sound lives means components regular) (fun _ _ known => known) (fun _ _ stops => stops.1)

theorem wp_formHodgeMetric_chart (metric : Tensor Ref) (lives : world.form a = some form) :
    wp (formHodgeMetric engine a metric) (fun _ _ => metric.chart = form.chart) (fun _ _ => True) world := by
  by_cases chart : metric.chart = form.chart
  · exact wp_of_run (fun _ _ _ => chart) (fun _ _ _ => trivial)
  · unfold formHodgeMetric geomCheckCas
    rw [wp_bind]
    refine wp_formAt lives ?_
    rw [wp_bind]
    refine wp_ite (fun _ => trivial) (fun _ => ?_)
    rw [wp_pure]
    exact wp_ite (fun _ => trivial) (fun _ => wp_ite (fun _ => trivial) (fun typed => absurd (Or.inl chart) typed))

variable {result : Form Ref}

theorem DualizesBy.dimension (call : DualizesBy engine metric form result) :
    metric.dimension = form.dimension := by
  obtain ⟨world, a, lives, yields⟩ := call
  have known : wp (formHodgeMetric engine a metric) _ _ world := wp_formHodgeMetric_chart metric lives
  unfold Yields published at yields
  unfold wp at known
  cases run : formHodgeMetric engine a metric world with
  | ok address after =>
    rw [run] at known
    rw [← form.chart_dimension, ← known]
  | error status after =>
    rw [run] at yields
    cases yields

theorem DualizesBy.known (sound : Sound engine value root mayStop)
    (call : DualizesBy engine metric form result) (means : Means value form α)
    (components : TensorMeans value metric t) (regular : determinantOf metric.dimension (entry t) ≠ 0) :
    form.Like (form.dimension - form.degree) result ∧ WellPosed engine form metric t ∧
      Means value result (metricDual root form t α) := by
  rw [call.dimension] at regular
  obtain ⟨world, a, lives, yields⟩ := call
  obtain ⟨alike, posed, known, -⟩ := (publishes_formHodgeMetric sound lives means components regular).yields yields
  exact ⟨alike, posed, known⟩

theorem Dualizes.known (exact : Exact engine.toCas value partialBy)
    (call : Dualizes engine.toCas form result) (means : Means value form α) :
    form.Like (form.dimension - form.degree) result ∧
      Means value result (hodge (Finset.range form.dimension) (signatureMetric form.manifold)
        (orientationSign form.manifold : K) α) := by
  obtain ⟨world, a, lives, yields⟩ := call
  exact (publishes_formHodge exact lives means).yields yields

theorem metricDual_orthonormal (root_one : root 1 = 1)
    (orthonormal : ∀ i j, i < form.dimension → j < form.dimension → entry t i j = signatureMetric form.manifold i j)
    (α : Finset Nat → K) :
    metricDual root form t α = hodge (Finset.range form.dimension) (signatureMetric form.manifold)
      (orientationSign form.manifold : K) α := by
  unfold metricDual
  rw [inverseOf_signature orthonormal, determinantOf_signature orthonormal, manifoldMetricSign_square, root_one, mul_one]

theorem metricDual_metricDual (square : ∀ k, root k * root k = k) {star : Form Ref}
    (posed : WellPosed engine form metric t) (means : Means value form α)
    (regular : determinantOf form.dimension (entry t) ≠ 0) (same : star.manifold = form.manifold) :
    metricDual root star t (metricDual root form t α) =
      ((-1) ^ (form.degree * (form.dimension - form.degree)) * (manifoldMetricSign form.manifold : K)) • α := by
  have dimension : star.dimension = form.dimension := congrArg Manifold.dimension same
  unfold metricDual
  rw [dimension, same, hodge_hodge (fun i j => inverseOf_symmetric posed.symmetric i j) (fun I => means.inside) means.degree,
    Finset.card_range, topMinor_range]
  congr 2
  have inverse := determinantOf_inverseOf regular
  have oriented := orientationSign_square (K := K) posed.oriented
  have scaled := square (manifoldMetricSign form.manifold * determinantOf form.dimension (entry t))
  change determinantOf form.dimension _ * _ = 1 at inverse
  change _ * determinantOf form.dimension (inverseOf form.dimension (entry t)) = _
  linear_combination root (manifoldMetricSign form.manifold * determinantOf form.dimension (entry t)) ^ 2 *
      determinantOf form.dimension (inverseOf form.dimension (entry t)) * oriented +
    determinantOf form.dimension (inverseOf form.dimension (entry t)) * scaled +
    (manifoldMetricSign form.manifold : K) * inverse

theorem wp_formSetAt {cas : Cas State Ref} {forms : List (Option (Form Ref))}
    (last : world.forms = forms ++ [some form]) {position : Nat} (bound : position < form.count) {ref : Ref} {k : K}
    (simplifies : ∀ s, wp (cas.simplify ref) (fun result _ => value result = some k) (fun _ _ => True) s) :
    wp (formSetAt cas forms.length position ref)
      (fun _ after => ∃ result, value result = some k ∧ after.forms = forms ++ [some (form.put position result)])
      (fun _ after => after.forms = world.forms) world := by
  have lives : world.form forms.length = some form := by
    unfold World.form
    rw [last, World.form_append, if_pos rfl]
  unfold formSetAt geomCheckCas
  rw [wp_bind]
  refine wp_formAt lives (wp_ite (fun large => absurd bound (Nat.not_lt.mpr large)) (fun _ => ?_))
  rw [wp_bind]
  refine wp_ite (fun _ => rfl) (fun _ => ?_)
  rw [wp_pure, wp_bind, wp_scalar]
  refine wp_mono (simplifies world.session) (fun result session known => ?_) (fun _ _ _ => rfl)
  rw [wp_modify]
  refine ⟨result, known, ?_⟩
  unfold formPut World.form
  rw [last, World.form_append, if_pos rfl, List.set_append_right _ _ (le_refl _), Nat.sub_self]
  rfl

omit [DecidableEq Ref] in
theorem means_single (zero : value form.zero = some 0) {position : Nat} (bound : position < form.count)
    (only : form.count = 1) {result : Ref} {k : K} (known : value result = some k) :
    Means value (form.put position result)
      (k • unit (combinationAt form.dimension form.degree position).toFinset) := by
  obtain rfl : position = 0 := by omega
  have member := combinationAt_mem form.manifold.small form.graded bound
  refine ⟨zero, fun other inside => ?_, fun I outside => ?_⟩
  · obtain rfl : other = 0 := by
      change other < form.count at inside
      omega
    rw [Form.componentAt_put form bound, if_pos rfl, Pi.smul_apply]
    change _ = some (k • unit _ (combinationAt form.dimension form.degree 0).toFinset)
    rw [unit_self, smul_eq_mul, mul_one, known]
  · have other : I ≠ (combinationAt form.dimension form.degree 0).toFinset := fun same => outside (same ▸ member)
    rw [Pi.smul_apply, unit, if_neg other, smul_zero]

theorem combinationAt_full : ∀ n ∈ Finset.range (manifoldMaxDim + 1),
    (combinationAt n n 0).toFinset = Finset.range n ∧ geomBinomial n n = 1 := by decide

theorem combinationAt_none : ∀ n ∈ Finset.range (manifoldMaxDim + 1),
    (combinationAt n 0 0).toFinset = ∅ ∧ geomBinomial n 0 = 1 := by decide

theorem publishes_formVolume (exact : Exact engine.toCas value partialBy) {manifold : Manifold Ref} {chartIndex : Nat}
    (zero : value manifold.zero = some 0) (world : World State Ref) :
    Publishes world (formVolume engine.toCas manifold chartIndex) (fun result => result.manifold = manifold ∧
      Means value result ((orientationSign manifold : K) • unit (Finset.range manifold.dimension))) := by
  unfold formVolume geomCheckCas
  refine publishes_check (fun _ => publishes_ite (fun _ => publishes_throw _ _ _) (fun _ => ?_))
  unfold Publishes
  rw [wp_bind]
  refine wp_mono (wp_formCreate manifold chartIndex manifold.dimension world) ?_
    (fun _ after refused address => by unfold World.form; rw [refused.1])
  rintro address created ⟨rfl, form, last, same, -, graded, -⟩
  obtain ⟨axes, only⟩ := combinationAt_full manifold.dimension (Finset.mem_range.mpr (Nat.lt_succ_of_le manifold.small))
  have count : form.count = 1 := by
    unfold Form.count Form.dimension
    rw [same, graded, only]
  have first : 0 < form.count := by omega
  have vanishes : value form.zero = some 0 := by
    unfold Form.zero
    rw [same]
    exact zero
  have restored (after : World State Ref) (kept : after.forms = created.forms) :
      Untouched world (formDestroy world.forms.length after) :=
    (adds_last last).destroyed (fun address => by unfold World.form; rw [kept])
  rw [wp_bind, wp_abandoning, wp_bind, wp_scalar]
  refine wp_mono (exact.number (orientationSign manifold) created.session) (fun ref session known => ?_)
    (fun _ _ _ => restored _ rfl)
  have stands : ({ created with session := session } : World State Ref).forms = world.forms ++ [some form] := last
  refine wp_mono (wp_formSetAt stands first (fun s => exact.simplify ref _ s known)) ?_
    (fun _ after kept => restored after kept)
  rintro - after ⟨result, known', last'⟩
  rw [wp_pure]
  have means := means_single vanishes first count known'
  unfold Form.dimension at means
  rw [same, graded, axes] at means
  exact ⟨_, adds_last last', same, means⟩

theorem publishes_formVolumeMetric (sound : Sound engine value root mayStop) {manifold : Manifold Ref} {chartIndex : Nat}
    (zero : value manifold.zero = some 0) (components : TensorMeans value metric t)
    (regular : determinantOf manifold.dimension (entry t) ≠ 0) (world : World State Ref) :
    Publishes world (formVolumeMetric engine manifold chartIndex metric) (fun result => ∃ one : Form Ref,
      one.manifold = manifold ∧ result.manifold = manifold ∧ Means value result (metricDual root one t (unit ∅))) := by
  unfold formVolumeMetric Publishes
  rw [wp_bind]
  refine wp_mono (wp_formCreate manifold chartIndex 0 world) ?_
    (fun _ after refused address => by unfold World.form; rw [refused.1])
  rintro address created ⟨rfl, form, last, same, -, graded, -⟩
  obtain ⟨axes, only⟩ := combinationAt_none manifold.dimension (Finset.mem_range.mpr (Nat.lt_succ_of_le manifold.small))
  have count : form.count = 1 := by
    unfold Form.count Form.dimension
    rw [same, graded, only]
  have first : 0 < form.count := by omega
  have vanishes : value form.zero = some 0 := by
    unfold Form.zero
    rw [same]
    exact zero
  have restored (after : World State Ref) (kept : after.forms = created.forms) :
      Untouched world (formDestroy world.forms.length after) :=
    (adds_last last).destroyed (fun address => by unfold World.form; rw [kept])
  rw [wp_ensuring, wp_bind, wp_scalar]
  refine wp_mono (sound.number 1 created.session) (fun ref session known => ?_) (fun _ _ _ => restored _ rfl)
  rw [Int.cast_one] at known
  rw [wp_bind]
  have stands : ({ created with session := session } : World State Ref).forms = world.forms ++ [some form] := last
  refine wp_mono (wp_formSetAt stands first
    (fun s => wp_mono (sound.simplify ref _ s known) (fun _ _ held => held) (fun _ _ _ => trivial))) ?_
    (fun _ after kept => restored after kept)
  rintro - stored ⟨result, known', last'⟩
  have means := means_single vanishes first count known'
  unfold Form.dimension at means
  rw [same, graded, axes, one_smul] at means
  have adds := adds_last last'
  have dimension : (form.put 0 result).dimension = manifold.dimension := congrArg Manifold.dimension same
  refine wp_mono (publishes_formHodgeMetric sound adds.2.1 means components (dimension ▸ regular))
    (fun address after published => ?_) (fun _ after stops => adds.destroyed stops)
  obtain ⟨dual, added, alike, -, known, -⟩ := published
  exact ⟨dual, adds.remains added, form.put 0 result, same, alike.1.trans same, known⟩

structure DualityLaws (engine : Engine State Ref) (value : Ref → Option K) : Prop where
  agree : ∀ {form frame general metric t α}, Means value form α → TensorMeans value metric t →
    (∀ i j, i < form.dimension → j < form.dimension → entry t i j = signatureMetric form.manifold i j) →
    Dualizes engine.toCas form frame → DualizesBy engine metric form general →
      frame.degree = general.degree ∧ ∃ ω, Means value frame ω ∧ Means value general ω
  involution : ∀ {form star again metric t α}, Means value form α → TensorMeans value metric t →
    determinantOf metric.dimension (entry t) ≠ 0 → DualizesBy engine metric form star → DualizesBy engine metric star again →
      again.degree = form.degree ∧ Means value again
        (((-1) ^ (form.degree * (form.dimension - form.degree)) * (manifoldMetricSign form.manifold : K)) • α)
  symmetric : ∀ {a b starA starB left right metric t α β}, Means value a α → Means value b β → a.degree = b.degree →
    TensorMeans value metric t → determinantOf metric.dimension (entry t) ≠ 0 → DualizesBy engine metric a starA →
      DualizesBy engine metric b starB → Wedges engine.toCas a starB left → Wedges engine.toCas b starA right →
        ∃ ω, Means value left ω ∧ Means value right ω
  volume : ∀ {manifold chartIndex one star measure metric t}, One value manifold chartIndex one →
    TensorMeans value metric t → determinantOf metric.dimension (entry t) ≠ 0 → DualizesBy engine metric one star →
      MeasuresBy engine metric manifold chartIndex measure → ∃ ω, Means value star ω ∧ Means value measure ω
  orthonormalVolume : ∀ {manifold chartIndex one star measure}, One value manifold chartIndex one →
    Dualizes engine.toCas one star → Measures engine.toCas manifold chartIndex measure →
      ∃ ω, Means value star ω ∧ Means value measure ω

omit [DecidableEq Ref] in
theorem metricDual_congr {form' : Form Ref} (same : form.manifold = form'.manifold) (t : List Nat → K)
    (α : Finset Nat → K) : metricDual root form t α = metricDual root form' t α := by
  unfold metricDual Form.dimension
  rw [same]

theorem dualityLaws (exact : Exact engine.toCas value partialBy) (sound : Sound engine value root mayStop) :
    DualityLaws engine value where
  agree {form frame general metric t α} means components orthonormal first second := by
    have regular : determinantOf metric.dimension (entry t) ≠ 0 := by
      rw [second.dimension, determinantOf_signature orthonormal]
      exact left_ne_zero_of_mul_eq_one (manifoldMetricSign_square form.manifold)
    obtain ⟨alike, known⟩ := first.known exact means
    obtain ⟨alike', -, known'⟩ := second.known sound means components regular
    rw [metricDual_orthonormal sound.root_one orthonormal] at known'
    exact ⟨alike.2.2.trans alike'.2.2.symm, _, known, known'⟩
  involution {form star again metric t α} means components regular first second := by
    obtain ⟨alike, posed, known⟩ := first.known sound means components regular
    obtain ⟨alike', -, known'⟩ := second.known sound known components regular
    rw [metricDual_metricDual sound.root_mul_self posed means (first.dimension ▸ regular) alike.1] at known'
    refine ⟨?_, known'⟩
    rw [alike'.2.2, alike.2.2, alike.dimension]
    exact Nat.sub_sub_self form.graded
  symmetric {a b starA starB left right metric t α β} first second same components regular starA starB product product' := by
    obtain ⟨alike, posed, known⟩ := starA.known sound first components regular
    obtain ⟨alike', -, known'⟩ := starB.known sound second components regular
    obtain ⟨⟨paired, -⟩, whole⟩ := product.known exact first known'
    have whole' := (product'.known exact second known).2
    have manifold : a.manifold = b.manifold := paired.1.symm.trans alike'.1
    rw [metricDual_congr manifold.symm] at whole
    have inside : Inside (Finset.range a.dimension) α := fun I => first.inside
    have inside' : Inside (Finset.range a.dimension) β := by
      unfold Form.dimension
      rw [manifold]
      exact fun I => second.inside
    have bounded : a.degree ≤ (Finset.range a.dimension).card := by
      rw [Finset.card_range]
      exact a.graded
    have commutes : wedge α (metricDual root a t β) = wedge β (metricDual root a t α) :=
      wedge_hodge_symmetric (fun i j => inverseOf_symmetric posed.symmetric i j) inside inside' first.degree
        (same ▸ second.degree) bounded _
    exact ⟨_, whole, commutes ▸ whole'⟩
  volume {manifold chartIndex one star measure metric t} single components regular dual measures := by
    obtain ⟨-, -, known⟩ := dual.known sound single.means components regular
    have dimension : metric.dimension = manifold.dimension :=
      dual.dimension.trans (congrArg Manifold.dimension single.manifold)
    have zero : value manifold.zero = some 0 := single.manifold ▸ single.means.zero
    obtain ⟨world, yields⟩ := measures
    obtain ⟨one', manifold', -, known'⟩ :=
      (publishes_formVolumeMetric sound zero components (dimension ▸ regular) world).yields yields
    rw [metricDual_congr (manifold'.trans single.manifold.symm)] at known'
    exact ⟨_, known, known'⟩
  orthonormalVolume {manifold chartIndex one star measure} single dual measures := by
    obtain ⟨-, known⟩ := dual.known exact single.means
    have zero : value manifold.zero = some 0 := single.manifold ▸ single.means.zero
    obtain ⟨world, yields⟩ := measures
    obtain ⟨-, known'⟩ := (publishes_formVolume exact zero world).yields yields
    unfold Form.dimension at known
    rw [hodge_one, single.manifold] at known
    exact ⟨_, known, known'⟩

theorem wp_formHodgeMetric_sign {q : ℚ}
    (lives : world.form a = some form) (determined : Determines engine metric q) (fits : Machine q) :
    wp (formHodgeMetric engine a metric) (fun _ _ => q.num.sign = manifoldMetricSign form.manifold) (fun _ _ => True) world := by
  unfold formHodgeMetric geomCheckCas
  rw [wp_bind]
  refine wp_formAt lives ?_
  rw [wp_bind]
  refine wp_ite (fun _ => trivial) (fun _ => ?_)
  rw [wp_pure]
  refine wp_ite (fun _ => trivial) (fun _ => wp_ite (fun _ => trivial) (fun _ => ?_))
  rw [wp_bind]
  refine wp_of_run (fun inverse after _ => ?_) (fun _ _ _ => trivial)
  rw [wp_bind, wp_scalar]
  refine wp_mono (determined after.session) (fun determinant session number => ?_) (fun _ _ _ => trivial)
  refine wp_ite (fun _ => trivial) (fun agrees => wp_of_run (fun _ _ _ => ?_) (fun _ _ _ => trivial))
  rw [contradicts, exactNumericSign_eq number, if_pos fits] at agrees
  by_contra other
  exact agrees (decide_eq_true other)

def Returns (engine : Engine State Ref) (world : World State Ref) (a : Nat) (metric : Tensor Ref) : Prop :=
  ∃ result, Yields world (formHodgeMetric engine a metric) result

structure DeclaredSign (engine : Engine State Ref) (value : Ref → Option K) (mayStop : Prop) : Prop where
  checked : ∀ {world a form metric q}, world.form a = some form → Determines engine metric q →
    Machine q ∨ q.num.sign = manifoldMetricSign form.manifold → Returns engine world a metric →
      q.num.sign = manifoldMetricSign form.manifold
  exactly : ¬mayStop → ∀ {world a form metric t α q}, world.form a = some form → Means value form α →
    TensorMeans value metric t → WellPosed engine form metric t → (∀ k, world.heap.grants k = true) →
      Determines engine metric q →
        ((Returns engine world a metric → q.num.sign = manifoldMetricSign form.manifold) ↔
          Machine q ∨ q.num.sign = manifoldMetricSign form.manifold)

theorem checked_sign {q : ℚ} (lives : world.form a = some form) (determined : Determines engine metric q)
    (known : Machine q ∨ q.num.sign = manifoldMetricSign form.manifold) (returns : Returns engine world a metric) :
    q.num.sign = manifoldMetricSign form.manifold := by
  refine known.elim (fun fits => ?_) id
  obtain ⟨result, yields⟩ := returns
  have held := wp_formHodgeMetric_sign lives determined fits
  unfold Yields published at yields
  unfold wp at held
  cases run : formHodgeMetric engine a metric world with
  | ok address after =>
    rw [run] at held
    exact held
  | error status after =>
    rw [run] at yields
    cases yields

/-- An engine that never stops returns the dual although the declared sign is wrong, when the determinant
does not fit machine words. -/
theorem returns_of_large [CharZero K] (sound : Sound engine value root mayStop) (total : ¬mayStop) {q : ℚ}
    (lives : world.form a = some form) (means : Means value form α) (components : TensorMeans value metric t)
    (posed : WellPosed engine form metric t) (granted : ∀ k, world.heap.grants k = true)
    (determined : Determines engine metric q) (large : ¬Machine q) : Returns engine world a metric := by
  have dimension : metric.dimension = form.dimension := by
    rw [← form.chart_dimension, ← posed.chart]
  have regular : determinantOf form.dimension (entry t) ≠ 0 := by
    have both := wp_and (wp_tensorDeterminant sound.toArithmetic (dimension ▸ form.manifold.positive) components world.session)
      (determined world.session)
    unfold wp at both
    cases run : tensorDeterminant engine.toCas metric world.session with
    | ok ref session =>
      rw [run] at both
      obtain ⟨denotes, number⟩ := both
      rw [dimension, sound.exact ref q number] at denotes
      rw [← Option.some.inj denotes]
      intro zero
      rw [Rat.cast_eq_zero] at zero
      exact large (zero ▸ by decide)
    | error status session =>
      rw [run] at both
      exact (both.1.elim total (fun other => other (congrArg List.length posed.valence))).elim
  have known := wp_formHodgeMetric sound lives means components regular
  unfold Returns Yields published
  unfold wp at known
  cases run : formHodgeMetric engine a metric world with
  | ok address after =>
    rw [run] at known
    obtain ⟨result, adds, -⟩ := known
    exact ⟨result, adds.2.1⟩
  | error status after =>
    rw [run] at known
    rcases known.2 with (stops | ⟨k, refused⟩) | other | contrary
    · exact absurd stops total
    · rw [granted k] at refused
      cases refused
    · exact absurd posed other
    · exact absurd (contrary q determined).1 large

theorem declaredSign [CharZero K] (sound : Sound engine value root mayStop) : DeclaredSign engine value mayStop where
  checked := checked_sign
  exactly total {world a form metric t α q} lives means components posed granted determined := by
    refine ⟨fun right => ?_, checked_sign lives determined⟩
    by_cases fits : Machine q
    · exact Or.inl fits
    · exact Or.inr (right (returns_of_large sound total lives means components posed granted determined fits))

/-- The duals obey their laws; the declared sign is checked against a determinant that is a number exactly
when machine words hold it. -/
theorem hodge_duality [CharZero K] (exact : Exact engine.toCas value partialBy)
    (sound : Sound engine value root mayStop) : DualityLaws engine value ∧ DeclaredSign engine value mayStop :=
  ⟨dualityLaws exact sound, declaredSign sound⟩

end Sound

def line : Manifold ℂ where
  address := 0
  ir := 0
  dimension := 1
  orientation := .positive
  signature := [1]
  charts := [⟨1, [0]⟩]
  zero := 0
  small := by decide
  positive := by decide
  signed := by decide
  charted := fun chart member => by rw [List.mem_singleton.mp member]; rfl

def lineFunction : Form ℂ where
  manifold := line
  chartIndex := 0
  degree := 0
  components := [1]
  charted := by decide
  graded := by decide
  counted := by decide

def lineMetric (component : ℂ) : Tensor ℂ where
  chart := ⟨1, [0]⟩
  valence := [.lower, .lower]
  zero := 0
  values := [component]
  signs := [1]
  sized := rfl
  paired := rfl
  signed := by decide

theorem lineFunction_means : Means some lineFunction (unit ∅) := by
  refine ⟨rfl, fun position inside => ?_, fun I outside => ?_⟩
  · obtain rfl : position = 0 := Nat.lt_one_iff.mp inside
    exact congrArg some (unit_self ∅).symm
  · have other : I ≠ ∅ := fun same => outside (by rw [same]; decide)
    exact if_neg other

theorem lineMetric_means (component : ℂ) : TensorMeans some (lineMetric component) (fun _ => component) := by
  refine ⟨rfl, fun indices entry read => ?_⟩
  obtain ⟨length, bounds⟩ := inside_of_get read
  obtain ⟨i, j, rfl⟩ := List.length_eq_two.mp length
  obtain rfl : i = 0 := Nat.lt_one_iff.mp (bounds i (by simp))
  obtain rfl : j = 0 := Nat.lt_one_iff.mp (bounds j (by simp))
  cases read
  refine ⟨component, rfl, ?_⟩
  change component = ((1 : Int) : ℂ) * component
  rw [Int.cast_one, one_mul]

theorem inverse_metric_inverts_line :
    wp (inverseAndDeterminants (constants 0) (lineMetric 2)) (fun result _ => result.2.1 * result.2.2 = 1)
      (fun _ _ => False) ⟨(), ⟨fun _ => true, 0⟩⟩ := by
  have regular : determinantOf 1 (entry fun _ => (2 : ℂ)) ≠ 0 := by
    rw [show determinantOf 1 (entry fun _ => (2 : ℂ)) = 2 from Matrix.det_fin_one _]
    exact two_ne_zero
  have positive : 0 < (lineMetric 2).dimension := Nat.one_pos
  refine wp_mono (inverse_metric_inverts (constants_sound 0 False) positive (lineMetric_means 2) regular _) ?_ ?_
  · rintro result _ ⟨_, _, _, _, d, d', known, known', product⟩
    rw [Option.some.inj known, Option.some.inj known', product]
  · rintro _ _ ((stops | ⟨_, refused⟩) | other | asymmetric)
    · exact stops
    · cases refused
    · exact other rfl
    · exact asymmetric fun _ _ _ _ => rfl

theorem lineMetric_determines (q : ℚ) : Determines (constants 0) (lineMetric q) q := by
  intro s
  have positive : 0 < (lineMetric q).dimension := Nat.one_pos
  exact wp_mono (wp_tensorDeterminant (constants_sound 0 True).toArithmetic positive (lineMetric_means q) s)
    (fun ref _ known => (constants_exact_iff 0 ref q).mpr (by
      have entry : determinantOf 1 (entry (fun _ => (q : ℂ))) = q := Matrix.det_fin_one _
      exact entry.symm.trans (Option.some.inj known).symm)) (fun _ _ _ => trivial)

/-- On a line with the metric `-2^64 dx²` and a positive declared sign the dual is returned. -/
theorem declared_sign_missed : ¬∀ (world : World Unit ℂ) (a : Nat) (form : Form ℂ) (metric : Tensor ℂ) (q : ℚ),
    world.form a = some form → Determines (constants 0) metric q → Returns (constants 0) world a metric →
      q.num.sign = manifoldMetricSign form.manifold := by
  intro always
  have posed : WellPosed (constants 0) lineFunction (lineMetric ((-2 ^ 64 : ℚ) : ℂ)) (fun _ => ((-2 ^ 64 : ℚ) : ℂ)) :=
    ⟨rfl, by decide, rfl, rfl, fun _ _ _ _ => rfl⟩
  have returns : Returns (constants 0) ⟨(), ⟨fun _ => true, 0⟩, [some lineFunction]⟩ 0 (lineMetric ((-2 ^ 64 : ℚ) : ℂ)) :=
    returns_of_large (constants_sound 0 False) not_false rfl lineFunction_means (lineMetric_means _) posed (fun _ => rfl)
      (lineMetric_determines (-2 ^ 64)) (by decide)
  have contrary := always _ 0 lineFunction _ (-2 ^ 64) rfl (lineMetric_determines (-2 ^ 64)) returns
  revert contrary
  decide

/-- The laws at the engine of complex numbers. -/
theorem hodge_duality_of_constants : DualityLaws (constants 0) some ∧ DeclaredSign (constants 0) some False :=
  hodge_duality (constants_exact 0) (constants_sound 0 False)

end PhyNspire.Geom

import PhyNspire.Geom.Hodge
import PhyNspire.Geom.Operations
import PhyNspire.Lib.Hodge
import PhyNspire.Tensor.Inverse

/-!
What the Hodge duals compute. Both are the dual of the library: the orthonormal one with the
diagonal metric of the declared signature, the general one with the inverse metric and the
root of the absolute determinant.
-/

namespace PhyNspire.Geom
open Platform Cas Tensor Lib.Stateful Lib.Exterior

variable {State Ref K : Type} [DecidableEq Ref]

omit [DecidableEq Ref] in
theorem orientationSign_unit {manifold : Manifold Ref} (oriented : orientationSign manifold ≠ 0) :
    orientationSign manifold = 1 ∨ orientationSign manifold = -1 := by
  unfold orientationSign at oriented ⊢
  cases side : manifold.orientation with
  | none =>
    rw [side] at oriented
    exact absurd rfl oriented
  | positive => exact Or.inl rfl
  | negative => exact Or.inr rfl

omit [DecidableEq Ref] in
theorem manifoldSignature_unit (manifold : Manifold Ref) {axis : Nat} (inside : axis < manifold.dimension) :
    manifoldSignature manifold axis = 1 ∨ manifoldSignature manifold axis = -1 := by
  have bound : axis < manifold.signature.length := manifold.signed.1 ▸ inside
  unfold manifoldSignature
  rw [List.getD_eq_getElem _ _ bound]
  exact manifold.signed.2 _ (List.getElem_mem bound)

theorem prod_signs {l : List Int} (units : ∀ entry ∈ l, entry = 1 ∨ entry = -1) :
    l.prod = (-1) ^ (l.filter (· < 0)).length := by
  induction l with
  | nil => rfl
  | cons entry l ih =>
    rw [List.prod_cons, ih (fun other member => units other (List.mem_cons_of_mem entry member)), List.filter_cons]
    rcases units entry (List.mem_cons_self ..) with rfl | rfl
    · simp
    · simp [pow_succ]

omit [DecidableEq Ref] in
theorem manifoldMetricSign_eq (manifold : Manifold Ref) :
    manifoldMetricSign manifold = ∏ axis ∈ Finset.range manifold.dimension, manifoldSignature manifold axis := by
  have listed : ∏ axis ∈ Finset.range manifold.dimension, manifoldSignature manifold axis = manifold.signature.prod := by
    rw [← manifold.signed.1, Finset.prod_range, ← Fin.prod_univ_getElem]
    exact Finset.prod_congr rfl (fun axis _ => List.getD_eq_getElem _ _ axis.isLt)
  rw [listed, prod_signs manifold.signed.2]
  unfold manifoldMetricSign negativeCount
  split_ifs with even
  · exact ((Nat.even_iff.mpr even).neg_one_pow).symm
  · exact ((Nat.odd_iff.mpr (by omega)).neg_one_pow).symm

omit [DecidableEq Ref] in
theorem manifoldMetricSign_unit (manifold : Manifold Ref) :
    manifoldMetricSign manifold = 1 ∨ manifoldMetricSign manifold = -1 := by
  unfold manifoldMetricSign
  split_ifs
  · exact Or.inl rfl
  · exact Or.inr rfl

theorem dual_spec {n p position : Nat} (small : n ≤ manifoldMaxDim) (graded : p ≤ n)
    (bound : position < geomBinomial n (n - p)) :
    let dual := combinationAt n (n - p) position
    let J := dual.toFinset
    J ⊆ Finset.range n ∧ Finset.range n \ J ∈ (Finset.range n).powersetCard p ∧
      complementOf n dual = increasing (Finset.range n \ J) ∧
      (sortParity (increasing (Finset.range n \ J) ++ dual)).2 = (-1) ^ crossings (Finset.range n \ J) J := by
  intro dual J
  obtain ⟨inside, size⟩ := Finset.mem_powersetCard.mp (combinationAt_mem small (Nat.sub_le n p) bound)
  have rising : dual.Pairwise (· < ·) := by
    change (combinationAt n (n - p) position).Pairwise (· < ·)
    rw [← increasing_combinationAt small (Nat.sub_le n p) bound]
    exact increasing_pairwise _
  have others : (complementOf n dual).toFinset = Finset.range n \ J := toFinset_complementOf n dual
  refine ⟨inside, Finset.mem_powersetCard.mpr ⟨Finset.sdiff_subset, ?_⟩, ?_, ?_⟩
  · rw [Finset.card_sdiff_of_subset inside, size, Finset.card_range]
    omega
  · rw [← others, increasing_toFinset (complementOf_rising n dual)]
  · rw [← others, increasing_toFinset (complementOf_rising n dual)]
    exact sortParity_increasing (complementOf_rising n dual) rising (others ▸ Finset.sdiff_disjoint)

theorem prod_increasing (f : Nat → Int) (I : Finset Nat) : ((increasing I).map f).prod = ∏ i ∈ I, f i := by
  rw [← List.prod_toFinset f (increasing_pairwise I).nodup, toFinset_increasing]

theorem prod_units {f : Nat → Int} {I : Finset Nat} (units : ∀ i ∈ I, f i = 1 ∨ f i = -1) :
    ∏ i ∈ I, f i = 1 ∨ ∏ i ∈ I, f i = -1 := by
  induction I using Finset.induction_on with
  | empty => exact Or.inl rfl
  | insert i I fresh ih =>
    rw [Finset.prod_insert fresh]
    rcases units i (Finset.mem_insert_self i I) with one | one <;>
      rcases ih (fun j member => units j (Finset.mem_insert_of_mem member)) with one' | one' <;>
      rw [one, one'] <;> decide

def signatureMetric [CommRing K] (manifold : Manifold Ref) (i j : Nat) : K :=
  if i = j then ((manifoldSignature manifold i : Int) : K) else 0

section Orthonormal

variable [CommRing K] {cas : Cas State Ref} {value : Ref → Option K} {partialBy : Ref → Derivation ℤ K K}
  (exact : Exact cas value partialBy)
include exact

theorem wp_hodgeComponent {form : Form Ref} {α : Finset Nat → K} (means : Means value form α)
    (oriented : orientationSign form.manifold ≠ 0) {target : Nat}
    (bound : target < geomBinomial form.dimension (form.dimension - form.degree)) (world : World State Ref) :
    wp (hodgeComponent cas form target)
      (fun result after => value result = some (hodge (Finset.range form.dimension) (signatureMetric form.manifold)
          (orientationSign form.manifold : K) α
          (combinationAt form.dimension (form.dimension - form.degree) target).toFinset) ∧ after.forms = world.forms)
      (fun _ after => after.forms = world.forms) world := by
  obtain ⟨inside, member, source, parity⟩ := dual_spec form.manifold.small form.graded bound
  unfold hodgeComponent
  simp only [source, parity]
  generalize (combinationAt form.dimension (form.dimension - form.degree) target).toFinset = J at inside member ⊢
  obtain ⟨placed, -⟩ := Finset.mem_powersetCard.mp member
  obtain ⟨position, found, known⟩ := means.lookup member
  have dual : hodge (Finset.range form.dimension) (signatureMetric form.manifold) (orientationSign form.manifold : K) α J =
      (((-1) ^ crossings (Finset.range form.dimension \ J) J * (∏ i ∈ Finset.range form.dimension \ J,
        manifoldSignature form.manifold i) * orientationSign form.manifold : Int) : K) *
        α (Finset.range form.dimension \ J) := by
    have diagonal := carry_diagonal (s := Finset.range form.dimension)
      (fun i => ((manifoldSignature form.manifold i : Int) : K)) placed α
    change carry _ (signatureMetric form.manifold) α _ = _ at diagonal
    unfold hodge
    rw [Pi.smul_apply, smul_eq_mul, complement_apply inside, diagonal]
    push_cast
    ring
  rw [dual]
  simp only [found]
  refine wp_ite (fun zero => ?_) (fun _ => ?_)
  · rw [zero, means.zero] at known
    rw [wp_pure, ← Option.some.inj known, mul_zero]
    exact ⟨means.zero, rfl⟩
  · rw [prod_increasing]
    refine wp_geomApplySign exact known ?_ world
    have units := prod_units (fun i axis => manifoldSignature_unit form.manifold (Finset.mem_range.mp (placed axis)))
    rcases neg_one_pow_eq_or ℤ (crossings (Finset.range form.dimension \ J) J) with one | one <;>
      rcases units with one' | one' <;> rcases orientationSign_unit oriented with one'' | one'' <;>
      rw [one, one', one''] <;> decide

theorem publishes_formHodge {world : World State Ref} {a : Nat} {form : Form Ref} {α : Finset Nat → K}
    (lives : world.form a = some form) (means : Means value form α) :
    Publishes world (formHodge cas a) (fun result => form.Like (form.dimension - form.degree) result ∧
      Means value result (hodge (Finset.range form.dimension) (signatureMetric form.manifold)
        (orientationSign form.manifold : K) α)) := by
  unfold formHodge geomCheckCas
  refine publishes_formAt lives (publishes_check (fun _ => ?_))
  refine publishes_ite (fun _ => publishes_throw _ _ _) (fun oriented => ?_)
  have degree := hodge_degree (Finset.range form.dimension) (signatureMetric form.manifold)
    (orientationSign form.manifold : K) means.degree
  rw [Finset.card_range] at degree
  exact publishes_formFilled means.zero (fun target world bound => wp_hodgeComponent exact means oriented bound world)
    degree (hodge_inside _ _ _ α)

end Orthonormal

section Tuples

variable [CommRing K]

omit [DecidableEq Ref] in
theorem tupleAt_length (n r flat : Nat) : (tupleAt n r flat).length = r := by
  induction r generalizing flat with
  | zero => rfl
  | succ r ih => rw [tupleAt, List.length_append, ih, List.length_singleton]

theorem tupleAt_lt {n : Nat} (positive : 0 < n) (r flat : Nat) : ∀ index ∈ tupleAt n r flat, index < n := by
  induction r generalizing flat with
  | zero => exact fun _ member => absurd member List.not_mem_nil
  | succ r ih =>
    intro index member
    rcases List.mem_append.mp member with before | last
    · exact ih _ index before
    · rw [List.mem_singleton.mp last]
      exact Nat.mod_lt flat positive

theorem sum_range_mul (f : Nat → K) (m n : Nat) :
    ∑ i ∈ Finset.range (m * n), f i = ∑ q ∈ Finset.range m, ∑ r ∈ Finset.range n, f (q * n + r) := by
  induction m with
  | zero => rw [Nat.zero_mul, Finset.sum_range_zero, Finset.sum_range_zero]
  | succ m ih => rw [Nat.succ_mul, Finset.sum_range_add, ih, Finset.sum_range_succ]

theorem sum_tupleAt_snoc {n : Nat} (f : List Nat → K) (r : Nat) :
    ∑ flat ∈ Finset.range (n ^ (r + 1)), f (tupleAt n (r + 1) flat) =
      ∑ flat ∈ Finset.range (n ^ r), ∑ k ∈ Finset.range n, f (tupleAt n r flat ++ [k]) := by
  rw [pow_succ, sum_range_mul]
  refine Finset.sum_congr rfl (fun q _ => Finset.sum_congr rfl (fun k below => ?_))
  have bound := Finset.mem_range.mp below
  rw [tupleAt, Nat.mul_comm, Nat.mul_add_div (Nat.zero_lt_of_lt bound), Nat.div_eq_of_lt bound, Nat.add_zero,
    Nat.mul_add_mod, Nat.mod_eq_of_lt bound]

theorem sum_tupleAt_cons {n : Nat} (f : List Nat → K) (r : Nat) :
    ∑ flat ∈ Finset.range (n ^ (r + 1)), f (tupleAt n (r + 1) flat) =
      ∑ k ∈ Finset.range n, ∑ flat ∈ Finset.range (n ^ r), f (k :: tupleAt n r flat) := by
  induction r generalizing f with
  | zero =>
    rw [sum_tupleAt_snoc, Finset.sum_comm]
    rfl
  | succ r ih =>
    rw [sum_tupleAt_snoc, ih (fun l => ∑ k ∈ Finset.range n, f (l ++ [k]))]
    refine Finset.sum_congr rfl (fun k _ => ?_)
    rw [sum_tupleAt_snoc (fun l => f (k :: l))]
    rfl

/-- The factors of the inverse metric on the slots of two tuples. -/
def factors (G : Nat → Nat → K) (upper lower : List Nat) : K := (List.zipWith G upper lower).prod

theorem sum_tuples_eq_carryAt (n : Nat) (G : Nat → Nat → K) (upper : List Nat) (α : Finset Nat → K) :
    ∑ flat ∈ Finset.range (n ^ upper.length), component α (tupleAt n upper.length flat) *
      factors G upper (tupleAt n upper.length flat) = carryAt (Finset.range n) G upper α := by
  induction upper generalizing α with
  | nil =>
    rw [List.length_nil, pow_zero, Finset.sum_range_one, tupleAt, ← readAt_eq_component, readAt, factors, List.zipWith_nil_left,
      List.prod_nil, mul_one, carryAt]
  | cons i upper ih =>
    rw [List.length_cons, sum_tupleAt_cons (fun l => component α l * factors G (i :: upper) l), carryAt_cons]
    refine Finset.sum_congr rfl (fun k _ => ?_)
    rw [← ih, Finset.mul_sum]
    refine Finset.sum_congr rfl (fun flat _ => ?_)
    rw [← readAt_eq_component, readAt, readAt_eq_component, factors, List.zipWith_cons_cons, List.prod_cons, factors]
    ring

theorem factors_eq_prod (G : Nat → Nat → K) {upper lower : List Nat} (length : upper.length = lower.length) :
    factors G upper lower = ∏ slot ∈ Finset.range lower.length, G (upper.getD slot 0) (lower.getD slot 0) := by
  induction upper generalizing lower with
  | nil =>
    rw [List.length_eq_zero_iff.mp length.symm]
    rfl
  | cons i upper ih =>
    cases lower with
    | nil => simp at length
    | cons j lower =>
      rw [factors, List.zipWith_cons_cons, List.prod_cons, List.length_cons, Finset.prod_range_succ', mul_comm]
      exact congrArg (· * G i j) (ih (by simpa using length))

end Tuples

section General

variable [CommRing K] {cas : Cas State Ref} {value : Ref → Option K} {mayStop : Prop}
  (arithmetic : Arithmetic cas value mayStop)
include arithmetic

omit arithmetic [DecidableEq Ref] [CommRing K] in
theorem wp_scalar_within {α : Type} {program : EStateM Status State α} {good : α → Prop} {world : World State Ref}
    (held : wp program (fun result _ => good result) (fun _ _ => mayStop) world.session) :
    wp (scalar program) (fun result after => good result ∧ after.forms = world.forms)
      (fun _ after => after.forms = world.forms ∧ mayStop) world := by
  rw [wp_scalar]
  exact wp_mono held (fun _ _ known => ⟨known, rfl⟩) (fun _ _ stops => ⟨rfl, stops⟩)

theorem wp_applySign_within {ref : Ref} {k : K} (denotes : value ref = some k) {sign : Int} (unit : sign = 1 ∨ sign = -1)
    (world : World State Ref) :
    wp (geomApplySign cas ref sign) (fun result after => value result = some (sign * k) ∧ after.forms = world.forms)
      (fun _ after => after.forms = world.forms ∧ mayStop) world := by
  unfold geomApplySign
  rcases unit with rfl | rfl
  · rw [if_neg (by decide), if_pos (by decide), wp_pure]
    exact ⟨by rw [denotes, Int.cast_one, one_mul], rfl⟩
  · rw [if_neg (by decide), if_neg (by decide)]
    refine wp_good (wp_scalar_within (arithmetic.neg ref k world.session denotes)) ?_
    rintro result after ⟨known, same⟩
    exact ⟨by rw [known, Int.cast_neg, Int.cast_one, neg_one_mul], same⟩

theorem wp_formGet {form : Form Ref} {α : Finset Nat → K} (means : Means value form α) (context : cas.ir = form.manifold.ir)
    {indices : List Nat} (length : indices.length = form.degree) (inside : ∀ index ∈ indices, index < form.dimension)
    (world : World State Ref) :
    wp (formGet cas form indices) (fun ref after => value ref = some (component α indices) ∧ after.forms = world.forms)
      (fun _ after => after.forms = world.forms ∧ mayStop) world := by
  unfold formGet geomCheckCas
  rw [if_neg (not_not.mpr context), wp_bind, wp_pure, if_neg (fun ⟨index, member, large⟩ =>
    absurd (inside index member) (Nat.not_lt.mpr large))]
  by_cases distinct : indices.Nodup
  · have sign : (sortParity indices).2 = (-1) ^ disorder indices := by rw [sortParity_sign, if_pos distinct]
    have unit := neg_one_pow_eq_or ℤ (disorder indices)
    have axes : indices.toFinset ∈ (Finset.range form.dimension).powersetCard form.degree := by
      refine Finset.mem_powersetCard.mpr ⟨fun index member => ?_, ?_⟩
      · exact Finset.mem_range.mpr (inside index (List.mem_toFinset.mp member))
      · rw [List.toFinset_card_of_nodup distinct, length]
    obtain ⟨position, found, known⟩ := means.lookup axes
    rw [sign, if_neg (by rcases unit with one | one <;> rw [one] <;> decide), sortParity_sorted distinct, found]
    refine wp_good (wp_applySign_within arithmetic known unit world) fun ref after signed => ⟨?_, signed.2⟩
    rw [signed.1, component, if_pos distinct]
    push_cast
    rfl
  · have sign : (sortParity indices).2 = 0 := by rw [sortParity_sign, if_neg distinct]
    rw [if_pos sign, wp_pure, component, if_neg distinct]
    exact ⟨means.zero, rfl⟩

omit [DecidableEq Ref] in
theorem wp_raisedFactors {inverse : Tensor Ref} {G : Nat → Nat → K} (rank : inverse.rank = 2)
    (raises : TensorMeans value inverse (paired G)) {upper lower : List Nat} (length : upper.length = lower.length)
    (inside : ∀ index ∈ upper, index < inverse.dimension) (inside' : ∀ index ∈ lower, index < inverse.dimension)
    {component : Ref} {k : K} (denotes : value component = some k) (s : State) :
    wp (raisedFactors cas inverse upper lower lower.length component)
      (fun ref _ => value ref = some (k * factors G upper lower)) (fun _ _ => mayStop) s := by
  have loop : wp (raisedFactors cas inverse upper lower lower.length component)
      (fun ref _ => value ref = some (k * ∏ slot ∈ Finset.range (0 + lower.length), G (upper.getD slot 0) (lower.getD slot 0)))
      (fun _ _ => mayStop) s := by
    refine wp_countUp (fun slot term _ => value term =
      some (k * ∏ slot ∈ Finset.range slot, G (upper.getD slot 0) (lower.getD slot 0))) lower.length 0 component s
      (by rw [Finset.prod_range_zero, mul_one]; exact denotes) (fun slot term s _ bound known => ?_)
    have up : upper.getD slot 0 < inverse.dimension := by
      rw [List.getD_eq_getElem _ _ (by omega)]
      exact inside _ (List.getElem_mem _)
    have down : lower.getD slot 0 < inverse.dimension := by
      rw [List.getD_eq_getElem _ _ (by omega)]
      exact inside' _ (List.getElem_mem _)
    refine wp_then (wp_tensorComponentExpression arithmetic raises (inside_pair rank up down) s) fun factor s known' => ?_
    refine wp_good (arithmetic.mul _ _ s (List.Forall₂.cons known (List.Forall₂.cons known' List.Forall₂.nil)))
      fun product _ total => ?_
    rw [List.prod_cons, List.prod_singleton] at total
    rw [total, Finset.prod_range_succ, mul_assoc]
    rfl
  rwa [Nat.zero_add, ← factors_eq_prod G length] at loop

theorem wp_raisedComponent {form : Form Ref} {α : Finset Nat → K} (means : Means value form α)
    (context : cas.ir = form.manifold.ir) {inverse : Tensor Ref} {G : Nat → Nat → K} (rank : inverse.rank = 2)
    (dimension : inverse.dimension = form.dimension) (raises : TensorMeans value inverse (paired G)) {upper : List Nat}
    (length : upper.length = form.degree) (inside : ∀ index ∈ upper, index < form.dimension) (world : World State Ref) :
    wp (raisedComponent cas form inverse upper)
      (fun ref after => value ref = some (carryAt (Finset.range form.dimension) G upper α) ∧ after.forms = world.forms)
      (fun _ after => after.forms = world.forms ∧ mayStop) world := by
  let term (flat : Nat) : K := component α (tupleAt form.dimension form.degree flat) *
    factors G upper (tupleAt form.dimension form.degree flat)
  have total := sum_tuples_eq_carryAt form.dimension G upper α
  rw [length] at total
  rw [← total]
  have loop : wp (raisedComponent cas form inverse upper)
      (fun ref after => value ref = some (∑ flat ∈ Finset.range (0 + tupleCount form.dimension form.degree), term flat) ∧
        after.forms = world.forms)
      (fun _ after => after.forms = world.forms ∧ mayStop) world := by
    refine wp_countUp (fun flat sum after => value sum = some (∑ flat ∈ Finset.range flat, term flat) ∧
      after.forms = world.forms) _ 0 form.zero world ⟨by rw [Finset.sum_range_zero]; exact means.zero, rfl⟩
      (fun flat sum before _ _ held => ?_)
    obtain ⟨known, kept⟩ := held
    have bounds := tupleAt_lt form.manifold.positive form.degree flat
    have slots := tupleAt_length form.dimension form.degree flat
    unfold raisedTerm
    rw [wp_bind]
    refine wp_mono (wp_formGet arithmetic means context slots bounds before) (fun ref after read => ?_)
      (fun _ _ stops => ⟨stops.1.trans kept, stops.2⟩)
    rw [Finset.sum_range_succ]
    refine wp_ite (fun zero => ?_) (fun _ => ?_)
    · have none : component α (tupleAt form.dimension form.degree flat) = 0 := by
        rw [zero, means.zero] at read
        exact (Option.some.inj read.1).symm
      rw [wp_pure]
      refine ⟨known.trans (congrArg some ?_), read.2.trans kept⟩
      change _ = _ + component α _ * _
      rw [none, zero_mul, add_zero]
    · rw [wp_bind]
      have product := wp_raisedFactors arithmetic rank raises (length.trans slots.symm)
        (fun index member => by rw [dimension]; exact inside index member)
        (fun index member => by rw [dimension]; exact bounds index member) read.1 after.session
      rw [slots] at product
      refine wp_mono (wp_scalar_within product) (fun ref' after' raised => ?_)
        (fun _ _ stops => ⟨stops.1.trans (read.2.trans kept), stops.2⟩)
      refine wp_mono (wp_scalar_within (arithmetic.add _ _ after'.session
        (List.Forall₂.cons known (List.Forall₂.cons raised.1 List.Forall₂.nil)))) (fun ref'' after'' added => ?_)
        (fun _ _ stops => ⟨stops.1.trans (raised.2.trans (read.2.trans kept)), stops.2⟩)
      rw [List.sum_cons, List.sum_singleton] at added
      exact ⟨added.1, added.2.trans (raised.2.trans (read.2.trans kept))⟩
  rwa [Nat.zero_add] at loop

end General

section Sound

variable [Field K] {engine : Engine State Ref} {value : Ref → Option K} {root : K → K} {mayStop : Prop}
  (sound : Sound engine value root mayStop)
include sound

theorem wp_hodgeMetricComponent {form : Form Ref} {α : Finset Nat → K} (means : Means value form α)
    (context : engine.ir = form.manifold.ir) (oriented : orientationSign form.manifold ≠ 0) {inverse : Tensor Ref}
    {G : Nat → Nat → K} (rank : inverse.rank = 2) (dimension : inverse.dimension = form.dimension)
    (raises : TensorMeans value inverse (paired G)) {scale : Ref} {ρ : K} (scales : value scale = some ρ) {target : Nat}
    (bound : target < geomBinomial form.dimension (form.dimension - form.degree)) (world : World State Ref) :
    wp (hodgeMetricComponent engine.toCas form inverse scale target)
      (fun result after => value result = some (hodge (Finset.range form.dimension) G (orientationSign form.manifold * ρ) α
          (combinationAt form.dimension (form.dimension - form.degree) target).toFinset) ∧ after.forms = world.forms)
      (fun _ after => after.forms = world.forms ∧ mayStop) world := by
  obtain ⟨inside, member, source, parity⟩ := dual_spec form.manifold.small form.graded bound
  unfold hodgeMetricComponent
  simp only [source, parity]
  generalize (combinationAt form.dimension (form.dimension - form.degree) target).toFinset = J at inside member ⊢
  obtain ⟨placed, size⟩ := Finset.mem_powersetCard.mp member
  refine wp_then (wp_raisedComponent sound.toArithmetic means context rank dimension raises
    ((length_increasing _).trans size) (fun index axis => Finset.mem_range.mp (placed (mem_increasing.mp axis))) world)
    fun raised first known => ?_
  rw [wp_bind]
  refine wp_mono (wp_scalar_within (sound.mul _ _ first.session
    (List.Forall₂.cons scales (List.Forall₂.cons known.1 List.Forall₂.nil)))) (fun product second scaled => ?_)
    (fun _ _ stops => ⟨stops.1.trans known.2, stops.2⟩)
  rw [List.prod_cons, List.prod_singleton] at scaled
  have unit : (-1) ^ crossings (Finset.range form.dimension \ J) J * orientationSign form.manifold = 1 ∨
      (-1) ^ crossings (Finset.range form.dimension \ J) J * orientationSign form.manifold = -1 := by
    rcases neg_one_pow_eq_or ℤ (crossings (Finset.range form.dimension \ J) J) with one | one <;>
      rcases orientationSign_unit oriented with one' | one' <;> rw [one, one'] <;> decide
  rw [wp_bind]
  refine wp_mono (wp_applySign_within sound.toArithmetic scaled.1 unit second) (fun result third signed => ?_)
    (fun _ _ stops => ⟨stops.1.trans (scaled.2.trans known.2), stops.2⟩)
  have dual : hodge (Finset.range form.dimension) G (orientationSign form.manifold * ρ) α J =
      (((-1) ^ crossings (Finset.range form.dimension \ J) J * orientationSign form.manifold : Int) : K) *
        (ρ * carryAt (Finset.range form.dimension) G (increasing (Finset.range form.dimension \ J)) α) := by
    rw [hodge, Pi.smul_apply, smul_eq_mul, complement_apply inside, carry]
    push_cast
    unfold increasing
    ring
  rw [dual]
  exact wp_mono (wp_scalar_within (sound.simplify _ _ third.session signed.1))
    (fun _ _ same => ⟨same.1, same.2.trans (signed.2.trans (scaled.2.trans known.2))⟩)
    (fun _ _ stops => ⟨stops.1.trans (signed.2.trans (scaled.2.trans known.2)), stops.2⟩)

omit [DecidableEq Ref] in
theorem wp_volumeScale (manifold : Manifold Ref) {determinant : Ref} {k : K} (denotes : value determinant = some k)
    (s : State) :
    wp (volumeScale engine manifold determinant)
      (fun ref _ => value ref = some (root (manifoldMetricSign manifold * k))) (fun _ _ => mayStop) s := by
  unfold volumeScale
  rw [wp_bind]
  have absolute : wp (absoluteDeterminant engine.toCas manifold determinant)
      (fun ref _ => value ref = some (manifoldMetricSign manifold * k)) (fun _ _ => mayStop) s := by
    unfold absoluteDeterminant
    rcases manifoldMetricSign_unit manifold with one | one
    · rw [one, if_neg (by decide), wp_pure, Int.cast_one, one_mul]
      exact denotes
    · rw [one, if_pos (by decide), Int.cast_neg, Int.cast_one, neg_one_mul]
      exact sound.neg determinant k s denotes
  refine wp_good absolute fun ref s known => ?_
  refine wp_then (sound.half s) fun half s exponent => ?_
  exact sound.sqrt ref half _ s known exponent

omit [DecidableEq Ref] sound [Field K] in
theorem exactNumericSign_eq {ref : Ref} {q : ℚ} (number : engine.exact ref = some q) :
    exactNumericSign engine ref = if Machine q then some q.num.sign else none := by
  have whole : engine.integerValue ref = if q.den = 1 ∧ FitsWord q.num then some q.num else none := by
    rw [Engine.integerValue, number]
  have broken : engine.rationalValue ref = if q.den ≠ 1 ∧ Machine q then some (q.num, (q.den : Int)) else none := by
    rw [Engine.rationalValue, number]
  unfold exactNumericSign
  rw [whole, broken]
  by_cases fits : Machine q
  · rw [if_pos fits]
    by_cases one : q.den = 1
    · rw [if_pos ⟨one, fits.1⟩]
    · have positive : (q.den : Int).sign = 1 := Int.sign_eq_one_of_pos (by exact_mod_cast q.den_pos)
      rw [if_neg (fun both => one both.1), if_pos ⟨one, fits⟩]
      dsimp only
      rw [positive, mul_one]
  · have small : ¬(q.den = 1 ∧ FitsWord q.num) := fun both => fits ⟨both.2, by rw [both.1]; decide⟩
    rw [if_neg fits, if_neg small, if_neg (fun both => fits both.2)]

omit [DecidableEq Ref] sound [Field K] in
@[simp] theorem wp_tensorCall {α : Type} (program : EStateM Status (Memory State) α) (good : α → World State Ref → Prop)
    (bad : Status → World State Ref → Prop) (world : World State Ref) :
    wp (tensorCall program) good bad world ↔
      wp program (fun value memory => good value { world with session := memory.session, heap := memory.heap })
        (fun status memory => bad status { world with session := memory.session, heap := memory.heap })
        ⟨world.session, world.heap⟩ := by
  unfold wp tensorCall
  cases program ⟨world.session, world.heap⟩ <;> rfl

structure WellPosed (engine : Engine State Ref) (form : Form Ref) (metric : Tensor Ref) (t : List Nat → K) : Prop where
  context : engine.ir = form.manifold.ir
  oriented : orientationSign form.manifold ≠ 0
  chart : metric.chart = form.chart
  valence : metric.valence = [.lower, .lower]
  symmetric : Symmetric form.dimension (entry t)

/-- The determinant of a metric is the number `q`, as the engine keeps numbers. -/
def Determines (engine : Engine State Ref) (metric : Tensor Ref) (q : ℚ) : Prop :=
  ∀ s, wp (tensorDeterminant engine.toCas metric) (fun ref _ => engine.exact ref = some q) (fun _ _ => True) s

/-- The dual that the code means: the volume scale is the root of the determinant with the declared sign. -/
noncomputable def metricDual (root : K → K) (form : Form Ref) (t : List Nat → K) (α : Finset Nat → K) : Finset Nat → K :=
  hodge (Finset.range form.dimension) (inverseOf form.dimension (entry t))
    (orientationSign form.manifold *
      root (manifoldMetricSign form.manifold * determinantOf form.dimension (entry t))) α

omit [DecidableEq Ref] sound [Field K] in
theorem Form.chart_dimension (form : Form Ref) : form.chart.coordinates.length = form.dimension :=
  form.manifold.charted _ (List.get_mem _ _)

theorem wp_formHodgeMetric {world : World State Ref} {a : Nat} {form : Form Ref} {α : Finset Nat → K} {metric : Tensor Ref}
    {t : List Nat → K} (lives : world.form a = some form) (means : Means value form α)
    (components : TensorMeans value metric t) (regular : determinantOf form.dimension (entry t) ≠ 0) :
    wp (formHodgeMetric engine a metric)
      (fun address after => ∃ result, Adds world after address result ∧ form.Like (form.dimension - form.degree) result ∧
        WellPosed engine form metric t ∧ Means value result (metricDual root form t α) ∧
        ∀ q, Determines engine metric q → Machine q → q.num.sign = manifoldMetricSign form.manifold)
      (fun _ after => Untouched world after ∧ (Refused mayStop world.heap ∨ ¬WellPosed engine form metric t ∨
        ∀ q, Determines engine metric q → Machine q ∧ q.num.sign ≠ manifoldMetricSign form.manifold)) world := by
  have still (other : World State Ref) (same : other.forms = world.forms) : Untouched world other := fun address => by
    unfold World.form
    rw [same]
  unfold formHodgeMetric geomCheckCas
  rw [wp_bind]
  refine wp_formAt lives ?_
  rw [wp_bind]
  refine wp_ite (fun other => ⟨Untouched.refl world, Or.inr (Or.inl (fun posed => other posed.context))⟩) (fun context => ?_)
  rw [wp_pure]
  refine wp_ite (fun flat => ⟨Untouched.refl world, Or.inr (Or.inl (fun posed => posed.oriented flat))⟩) (fun oriented => ?_)
  refine wp_ite (fun typed => ⟨Untouched.refl world, Or.inr (Or.inl (fun posed => typed.elim (fun other => other posed.chart)
    (fun other => other posed.valence)))⟩) (fun typed => ?_)
  have chart : metric.chart = form.chart := by
    by_contra other
    exact typed (Or.inl other)
  have dimension : metric.dimension = form.dimension := by
    rw [← form.chart_dimension, ← chart]
  rw [← dimension] at regular
  rw [wp_bind, wp_tensorCall]
  refine wp_mono (wp_tensorInverseMetric sound (dimension ▸ form.manifold.positive) components regular _)
    (fun inverse memory inverted => ?_) (fun _ memory stops => ⟨still _ rfl, ?_⟩)
  · obtain ⟨⟨chart', valence⟩, symmetric, raises, granted⟩ := inverted
    rw [dimension] at symmetric raises regular
    have posed : WellPosed engine form metric t :=
      ⟨not_not.mp context, oriented, chart, by by_contra other; exact typed (Or.inr other), symmetric⟩
    rw [wp_bind, wp_scalar]
    have known := wp_and (wp_tensorDeterminant sound.toArithmetic (dimension ▸ form.manifold.positive) components
      memory.session) (wp_forall (fun q : {q : ℚ // Determines engine metric q} => q.2 memory.session))
    refine wp_mono known (fun determinant session both => ?_) (fun _ session stops => ⟨still _ rfl, ?_⟩)
    · obtain ⟨denotes, number⟩ := both
      rw [dimension] at denotes
      refine wp_ite (fun contrary => ⟨still _ rfl, Or.inr (Or.inr (fun q determined => ?_))⟩) (fun agrees => ?_)
      · rw [contradicts, exactNumericSign_eq (number ⟨q, determined⟩)] at contrary
        by_cases fits : Machine q
        · rw [if_pos fits] at contrary
          exact ⟨fits, of_decide_eq_true contrary⟩
        · rw [if_neg fits] at contrary
          exact absurd contrary Bool.false_ne_true
      · have signed : ∀ q, Determines engine metric q → Machine q → q.num.sign = manifoldMetricSign form.manifold := by
          intro q determined fits
          rw [contradicts, exactNumericSign_eq (number ⟨q, determined⟩), if_pos fits] at agrees
          by_contra other
          exact agrees (decide_eq_true other)
        rw [wp_bind, wp_scalar]
        refine wp_mono (wp_volumeScale sound form.manifold denotes session) (fun scale session scales => ?_)
          (fun _ session stops => ⟨still _ rfl, Or.inl (Or.inl stops)⟩)
        have size : inverse.dimension = form.dimension := by
          rw [← form.chart_dimension, ← chart, ← chart']
        refine wp_mono (wp_formFilled _ (fun target world bound => wp_hodgeMetricComponent sound means posed.context
          oriented (congrArg List.length valence) size raises scales bound world))
          (fun address after filled => ?_) (fun _ after stops => ⟨stops.1, ?_⟩)
        · obtain ⟨result, adds, alike, filled⟩ := filled
          have degree := hodge_degree (Finset.range form.dimension) (inverseOf form.dimension (entry t))
            ((orientationSign form.manifold : K) *
              root (manifoldMetricSign form.manifold * determinantOf form.dimension (entry t))) means.degree
          rw [Finset.card_range] at degree
          exact ⟨result, adds, alike, posed, Means.of_like alike means.zero filled
            (outside_of degree (hodge_inside _ _ _ α)), signed⟩
        · rcases stops.2 (Nat.sub_le _ _) with stops | ⟨k, refused⟩
          · exact Or.inl (Or.inl stops)
          · exact Or.inl (Or.inr ⟨k, granted ▸ refused⟩)
    · rcases stops.1 with stops | other
      · exact Or.inl (Or.inl stops)
      · exact absurd (congrArg List.length posed.valence) other
  · rcases stops with refused | other | other
    · exact Or.inl refused
    · exact Or.inr (Or.inl (fun posed => other posed.valence))
    · exact Or.inr (Or.inl (fun posed => other (dimension ▸ posed.symmetric)))

end Sound

end PhyNspire.Geom

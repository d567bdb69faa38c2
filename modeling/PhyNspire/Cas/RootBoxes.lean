import PhyNspire.Cas.ComplexRoots
import PhyNspire.Lib.CoefficientLists
import PhyNspire.Lib.Pellet

/-!
Whatever the iterates are, published boxes are disjoint and hold one root each. The exact
Taylor shift and the norms of its coefficients certify a root in every box, and there are
as many boxes as the degree.
-/

namespace PhyNspire.Cas.ComplexRoots
open PhyNspire.Exact Lib.Stateful Lib.CoefficientLists Polynomial

noncomputable def complexPolynomial (coefficients : List ℚ) : ℂ[X] := (ofCoefficients coefficients).map (algebraMap ℚ ℂ)

noncomputable def taylor (coefficients : List ℚ) (center : ℂ) (source : Nat) : ℂ[X] :=
  (complexPolynomial (coefficients.drop source)).comp (X + C center)

def square (center : Gaussian) (radius : ℚ) : Set ℂ :=
  {z | |z.re - center.real| ≤ radius ∧ |z.im - center.imaginary| ≤ radius}

def ComplexBall.region (ball : ComplexBall) : Set ℂ :=
  {z | |z.re - ball.real.midpoint| ≤ ball.real.radius ∧ |z.im - ball.imaginary.midpoint| ≤ ball.imaginary.radius}

def HasRoot (coefficients : List ℚ) (center : Gaussian) (radius : ℚ) : Prop :=
  ∃ z ∈ square center radius, (complexPolynomial coefficients).eval z = 0

/-- A shift extends an expansion by one coefficient. -/
def shifted (center : ℂ) (before after : Nat → ℂ) (a : ℂ) : Prop :=
  after 0 = center * before 0 + a ∧ ∀ k, after (k + 1) = before k + center * before (k + 1)

theorem taylor_shifted {coefficients : List ℚ} (center : ℂ) {source : Nat} (inside : source < coefficients.length) :
    shifted center (taylor coefficients center (source + 1)).coeff (taylor coefficients center source).coeff
      (coefficientAt coefficients source) := by
  have split : taylor coefficients center source =
      C (coefficientAt coefficients source : ℂ) + (X + C center) * taylor coefficients center (source + 1) := by
    unfold taylor complexPolynomial coefficientAt
    rw [List.drop_eq_getElem_cons inside, ofCoefficients_cons, List.getD_eq_getElem _ _ inside, Polynomial.map_add,
      Polynomial.map_mul, map_C, map_X, add_comp, mul_comp, C_comp, X_comp]
    rfl
  rw [split]
  refine ⟨?_, fun k => ?_⟩
  · rw [add_mul, coeff_add, coeff_add, coeff_C_zero, coeff_X_mul_zero, coeff_C_mul]
    ring
  · rw [add_mul, coeff_add, coeff_add, coeff_C_succ, coeff_X_mul, coeff_C_mul]
    ring

theorem taylor_last {coefficients : List ℚ} (center : ℂ) (nonempty : 0 < coefficients.length) (k : Nat) :
    (taylor coefficients center (coefficients.length - 1)).coeff k =
      if k = 0 then (coefficientAt coefficients (coefficients.length - 1) : ℂ) else 0 := by
  have inside : coefficients.length - 1 < coefficients.length := Nat.sub_one_lt_of_lt nonempty
  have nothing : taylor coefficients center (coefficients.length - 1 + 1) = 0 := by
    unfold taylor complexPolynomial
    rw [List.drop_of_length_le (by omega), ofCoefficients_nil, Polynomial.map_zero, zero_comp]
  obtain ⟨first, rest⟩ := taylor_shifted center inside
  rw [nothing] at first rest
  cases k with
  | zero => simpa using first
  | succ k => simpa using rest k

theorem eval_taylor (coefficients : List ℚ) (center z : ℂ) :
    (taylor coefficients center 0).eval z = (complexPolynomial coefficients).eval (z + center) := by
  simp [taylor]

@[simp] theorem gaussianAt_set {values : List Gaussian} {place k : Nat} {z : Gaussian} (inside : place < values.length) :
    gaussianAt (values.set place z) k = if k = place then z else gaussianAt values k := by
  unfold gaussianAt
  rw [List.getD_eq_getElem?_getD, List.getElem?_set, List.getD_eq_getElem?_getD]
  by_cases same : place = k
  · rw [if_pos same, if_pos inside, if_pos same.symm]
    rfl
  · rw [if_neg same, if_neg (Ne.symm same)]

section
variable {State : Type} {kernel : Kernel State} (exact : kernel.Exact) {s : State}
include exact

variable {good : ℚ → State → Prop}

theorem wp_absRat (p : ℚ) (rest : ∀ t, good |p| t) :
    wp (absRat kernel p) good (fun _ _ => True) s := by
  unfold absRat
  apply wp_ite
  · intro negative
    apply (exact.negate p).use
    rwa [← abs_of_neg negative]
  · intro nonneg
    apply (exact.copy p).use
    rwa [abs_of_nonneg (not_lt.mp nonneg)] at rest

theorem wp_gaussianSetReal (p : ℚ) {good : Gaussian → State → Prop} (rest : ∀ t, good ⟨p, 0⟩ t) :
    wp (gaussianSetReal kernel p) good (fun _ _ => True) s := by
  unfold gaussianSetReal
  rw [wp_bind]
  apply (exact.copy p).use
  intro t
  rw [wp_bind]
  apply (exact.setI64 0 1 one_ne_zero).use
  intro t
  have zero : ((0 : Int) : ℚ) / (1 : Int) = 0 := by norm_num
  rw [zero]
  exact rest t

theorem wp_gaussianAbsUpper (z : Gaussian) (rest : ∀ t, good (|z.real| + |z.imaginary|) t) :
    wp (gaussianAbsUpper kernel z) good (fun _ _ => True) s := by
  unfold gaussianAbsUpper
  rw [wp_bind]
  apply wp_absRat exact
  intro t
  rw [wp_bind]
  apply wp_absRat exact
  intro t
  exact (exact.add _ _).use rest

theorem wp_gaussianAbsLower (z : Gaussian)
    (rest : ∀ t, good (max |z.real| |z.imaginary|) t) : wp (gaussianAbsLower kernel z) good (fun _ _ => True) s := by
  unfold gaussianAbsLower
  rw [wp_bind]
  apply wp_absRat exact
  intro t
  rw [wp_bind]
  apply wp_absRat exact
  intro t
  rw [wp_bind]
  apply (exact.compare _ _).use
  intro t
  have greater : (if 0 ≤ order |z.real| |z.imaginary| then |z.real| else |z.imaginary|) = max |z.real| |z.imaginary| := by
    rw [max_def]
    by_cases less : |z.imaginary| ≤ |z.real|
    · rw [if_pos (order_nonneg.mpr less)]
      split
      · apply le_antisymm <;> assumption
      · rfl
    · rw [if_neg (fun nonneg => less (order_nonneg.mp nonneg)), if_pos (not_le.mp less).le]
  rw [greater]
  exact (exact.copy _).use rest

theorem wp_dyadicEpsilon (bits : Nat) (rest : ∀ t, good (1 / 2 ^ bits) t) :
    wp (dyadicEpsilon kernel bits) good (fun _ _ => True) s := by
  unfold dyadicEpsilon
  rw [wp_bind]
  apply (exact.integerSetI64 2).use
  intro t
  rw [wp_bind]
  apply (exact.powU32 2 bits).use
  intro t
  rw [wp_bind]
  apply (exact.setBigint _).use
  intro t
  rw [wp_bind]
  apply (exact.setI64 1 1 one_ne_zero).use
  intro t
  apply wp_good (exact.divide _ _ t)
  rintro out u ⟨-, rfl⟩
  simpa using rest u

variable {expanded : List Gaussian}

theorem wp_shift (center : Gaussian) {currentDegree : Nat}
    (room : currentDegree < expanded.length) {good : List Gaussian → State → Prop}
    (rest : ∀ result t, result.length = expanded.length → (∀ k, (gaussianAt result k).value =
      if 0 < k ∧ k ≤ currentDegree then
        (gaussianAt expanded (k - 1)).value + center.value * (gaussianAt expanded k).value
      else (gaussianAt expanded k).value) → good result t) :
    wp (countDown (expandAtCenter.shift kernel center) currentDegree expanded) good (fun _ _ => True) s := by
  let inv (done : Nat) (result : List Gaussian) (_ : State) : Prop := result.length = expanded.length ∧
    ∀ k, (gaussianAt result k).value = if done < k ∧ k ≤ currentDegree then
      (gaussianAt expanded (k - 1)).value + center.value * (gaussianAt expanded k).value
    else (gaussianAt expanded k).value
  have loop : wp (countDown (expandAtCenter.shift kernel center) currentDegree expanded) (inv 0) (fun _ _ => True) s := by
    apply wp_countDown inv
    · refine ⟨rfl, fun k => ?_⟩
      rw [if_neg (by omega)]
    · rintro below result t less ⟨sized, known⟩
      unfold expandAtCenter.shift
      rw [wp_bind]
      apply wp_gaussianMultiply exact
      intro product t multiplied
      rw [wp_bind]
      apply wp_gaussianAdd exact
      intro sum t added
      rw [wp_bind]
      apply wp_gaussianCopy exact
      intro t
      refine ⟨by rw [List.length_set, sized], fun k => ?_⟩
      rw [gaussianAt_set (by omega)]
      by_cases place : k = below + 1
      · rw [if_pos place, if_pos (by omega), added, multiplied, known, known, if_neg (by omega), if_neg (by omega), place]
        rfl
      · rw [if_neg place, known]
        by_cases above : below < k ∧ k ≤ currentDegree
        · rw [if_pos above, if_pos (by omega)]
        · rw [if_neg above, if_neg (by omega)]
  exact wp_good loop fun result t held => rest result t held.1 held.2

structure Expands (coefficients : List ℚ) (center : ℂ) (source : Nat) (expanded : List Gaussian) (currentDegree : Nat) :
    Prop where
  sized : expanded.length = coefficients.length
  counted : currentDegree + source + 1 = coefficients.length
  known : ∀ k, (gaussianAt expanded k).value = (taylor coefficients center source).coeff k
  above : ∀ k, currentDegree < k → (gaussianAt expanded k).value = 0

variable {coefficients : List ℚ}

theorem wp_extend {center : Gaussian} {source : Nat}
    {currentDegree : Nat} (expands : Expands coefficients center.value (source + 1) expanded currentDegree) :
    wp (expandAtCenter.extend kernel coefficients center source expanded currentDegree)
      (fun result _ => Expands coefficients center.value source result.1 result.2) (fun _ _ => True) s := by
  obtain ⟨sized, counted, known, above⟩ := expands
  unfold expandAtCenter.extend
  rw [wp_bind]
  apply wp_gaussianCopy exact
  intro t
  rw [wp_bind]
  apply wp_shift exact center (by rw [List.length_set]; omega)
  intro result t length moved
  rw [List.length_set] at length
  rw [wp_bind]
  apply wp_gaussianMultiply exact
  intro product t multiplied
  rw [wp_bind]
  apply wp_gaussianSetReal exact
  intro t
  rw [wp_bind]
  apply wp_gaussianAdd exact
  intro sum t added
  rw [wp_bind]
  apply wp_gaussianCopy exact
  intro t
  have top : currentDegree + 1 < expanded.length := by omega
  have before (k : Nat) : (gaussianAt (expanded.set (currentDegree + 1) (gaussianAt expanded currentDegree)) k).value =
      if k = currentDegree + 1 then (gaussianAt expanded currentDegree).value else (gaussianAt expanded k).value := by
    rw [gaussianAt_set top]
    split <;> rfl
  -- the slots above the old degree were zero, so that all of them follow one rule
  have step : shifted center.value (fun k => (gaussianAt expanded k).value)
      (fun k => (gaussianAt (result.set 0 sum) k).value) (coefficientAt coefficients source) := by
    refine ⟨?_, fun k => ?_⟩
    · dsimp only
      rw [gaussianAt_set (by omega), if_pos rfl, added, multiplied, moved, if_neg (by omega), before, if_neg (by omega),
        Gaussian.value_real]
    · dsimp only
      rw [gaussianAt_set (by omega), if_neg (by omega), moved]
      rcases lt_trichotomy k currentDegree with less | same | greater
      · rw [if_pos (by omega), before, before, if_neg (by omega), if_neg (by omega)]
        rfl
      · rw [if_neg (by omega), before, if_pos (by omega), above (k + 1) (by omega), mul_zero, add_zero, same]
      · rw [if_neg (by omega), before, if_neg (by omega), above (k + 1) (by omega), above k greater, mul_zero, add_zero]
  have expected := taylor_shifted center.value (show source < coefficients.length by omega)
  refine ⟨by rw [List.length_set, length, sized], by simp only; omega, fun k => ?_, fun k greater => ?_⟩
  · cases k with
    | zero => rw [expected.1, ← known 0]; exact step.1
    | succ k => rw [expected.2 k, ← known k, ← known (k + 1)]; exact step.2 k
  · cases k with
    | zero => exact absurd greater (Nat.not_lt_zero _)
    | succ k =>
      apply (step.2 k).trans
      change (gaussianAt expanded k).value + center.value * (gaussianAt expanded (k + 1)).value = 0
      rw [above k (Nat.lt_of_succ_lt_succ greater), above (k + 1) (Nat.lt_of_succ_lt greater), mul_zero, add_zero]

theorem wp_expandAtCenter (nonempty : 0 < coefficients.length) (center : Gaussian)
    {good : List Gaussian → State → Prop} (rest : ∀ expanded t,
      (∀ k, (gaussianAt expanded k).value = (taylor coefficients center.value 0).coeff k) →
      (∀ k, coefficients.length ≤ k → (gaussianAt expanded k).value = 0) → good expanded t) :
    wp (expandAtCenter kernel coefficients center (List.replicate (coefficients.length - 1 + 1) .zero)) good
      (fun _ _ => True) s := by
  unfold expandAtCenter
  simp only [wp_bind]
  apply wp_gaussianSetReal exact
  intro t
  let inv (source : Nat) (result : List Gaussian × Nat) (_ : State) : Prop :=
    Expands coefficients center.value source result.1 result.2
  refine wp_good (wp_countDown inv (coefficients.length - 1) _ t ?_ fun source result t _ expands => wp_extend exact expands)
    fun result t expands => rest _ t expands.known fun k past => expands.above k ?_
  have zeros (k : Nat) : gaussianAt (List.replicate (coefficients.length - 1 + 1) .zero) k = .zero := by
    unfold gaussianAt
    rw [List.getD_eq_getElem?_getD, List.getElem?_replicate]
    split <;> rfl
  have first (k : Nat) : (gaussianAt ((List.replicate (coefficients.length - 1 + 1) Gaussian.zero).set 0
      ⟨coefficientAt coefficients (coefficients.length - 1), 0⟩) k).value =
      if k = 0 then (coefficientAt coefficients (coefficients.length - 1) : ℂ) else 0 := by
    rw [gaussianAt_set (by rw [List.length_replicate]; omega), zeros]
    split
    · exact Gaussian.value_real _
    · exact Gaussian.value_zero
  refine ⟨?_, ?_, fun k => ?_, fun k positive => ?_⟩
  · rw [List.length_set, List.length_replicate]
    omega
  · simp only
    omega
  · rw [first, taylor_last center.value nonempty]
  · rw [first, if_neg (Nat.pos_iff_ne_zero.mp positive)]
  · have counted := expands.counted
    omega

omit exact in
theorem norm_le_abs_add (z : Gaussian) : ‖z.value‖ ≤ ((|z.real| + |z.imaginary| : ℚ) : ℝ) := by
  push_cast
  exact Complex.norm_le_abs_re_add_abs_im z.value

omit exact in
theorem max_abs_le_norm (z : Gaussian) : ((max |z.real| |z.imaginary| : ℚ) : ℝ) ≤ ‖z.value‖ := by
  push_cast
  exact max_le (Complex.abs_re_le_norm z.value) (Complex.abs_im_le_norm z.value)

variable {radius : ℚ}

omit exact in
theorem hasRoot_of_pellet {center : Gaussian} {slots : Nat} (positive : 0 < radius)
    (known : ∀ k, (gaussianAt expanded k).value = (taylor coefficients center.value 0).coeff k)
    (enough : ∀ k, slots ≤ k → (gaussianAt expanded k).value = 0)
    (test : (∑ k ∈ Finset.range slots, if k ≠ 1 then
        (|(gaussianAt expanded k).real| + |(gaussianAt expanded k).imaginary|) * (radius + radius) ^ k else 0) <
      max |(gaussianAt expanded 1).real| |(gaussianAt expanded 1).imaginary| * radius) :
    HasRoot coefficients center radius := by
  let p := taylor coefficients center.value 0
  have bound : (0 : ℝ) < radius := Rat.cast_pos.mpr positive
  have term (k : Nat) : ‖p.coeff k‖ * (radius : ℝ) ^ k ≤
      (((|(gaussianAt expanded k).real| + |(gaussianAt expanded k).imaginary|) * (radius + radius) ^ k : ℚ) : ℝ) := by
    rw [Rat.cast_mul, Rat.cast_pow, Rat.cast_add radius]
    refine mul_le_mul ?_ (pow_le_pow_left₀ bound.le (by linarith) k) (pow_nonneg bound.le k) ?_
    · rw [← known k]
      exact norm_le_abs_add _
    · exact Rat.cast_nonneg.mpr (add_nonneg (abs_nonneg _) (abs_nonneg _))
  have support : p.support.erase 1 ⊆ (Finset.range slots).filter (· ≠ 1) := by
    intro k member
    obtain ⟨different, inside⟩ := Finset.mem_erase.mp member
    rw [Finset.mem_filter, Finset.mem_range]
    refine ⟨?_, different⟩
    by_contra past
    exact mem_support_iff.mp inside ((known k).symm.trans (enough k (not_lt.mp past)))
  have light : Lib.Pellet.weight p radius ≤ ((∑ k ∈ Finset.range slots, if k ≠ 1 then
      (|(gaussianAt expanded k).real| + |(gaussianAt expanded k).imaginary|) * (radius + radius) ^ k else 0 : ℚ) : ℝ) := by
    rw [← Finset.sum_filter, Rat.cast_sum]
    calc Lib.Pellet.weight p radius
        ≤ ∑ k ∈ (Finset.range slots).filter (· ≠ 1), ‖p.coeff k‖ * (radius : ℝ) ^ k :=
          Finset.sum_le_sum_of_subset_of_nonneg support fun k _ _ => mul_nonneg (norm_nonneg _) (pow_nonneg bound.le k)
      _ ≤ _ := Finset.sum_le_sum fun k _ => term k
  have heavy : ((max |(gaussianAt expanded 1).real| |(gaussianAt expanded 1).imaginary| * radius : ℚ) : ℝ) ≤
      ‖p.coeff 1‖ * radius := by
    rw [Rat.cast_mul, ← known 1]
    exact mul_le_mul_of_nonneg_right (max_abs_le_norm _) bound.le
  obtain ⟨z, small, zero⟩ := Lib.Pellet.exists_root bound (light.trans_lt ((Rat.cast_lt.mpr test).trans_le heavy))
  refine ⟨z + center.value, ⟨?_, ?_⟩, (eval_taylor coefficients center.value z).symm.trans zero⟩
  · rw [Complex.add_re, Gaussian.value_re, add_sub_cancel_right]
    exact (Complex.abs_re_le_norm z).trans small.le
  · rw [Complex.add_im, Gaussian.value_im, add_sub_cancel_right]
    exact (Complex.abs_im_le_norm z).trans small.le

theorem wp_contribute (expanded : List Gaussian) (slot : Nat) (right power : ℚ)
    (rest : ∀ t, good (right + if slot ≠ 1 then
      (|(gaussianAt expanded slot).real| + |(gaussianAt expanded slot).imaginary|) * power else 0) t) :
    wp (pelletOne.contribute kernel expanded slot right power) good (fun _ _ => True) s := by
  unfold pelletOne.contribute
  apply wp_ite
  · intro other
    rw [if_pos other] at rest
    rw [wp_bind]
    apply wp_gaussianAbsUpper exact
    intro t
    rw [wp_bind]
    apply (exact.multiply _ _).use
    intro t
    exact (exact.add _ _).use rest
  · intro linear
    rw [if_neg linear, add_zero] at rest
    exact rest _

theorem wp_pelletOne (nonempty : 0 < coefficients.length) (center : Gaussian)
    (positive : 0 < radius) : wp (pelletOne kernel coefficients center radius)
      (fun one _ => one = true → HasRoot coefficients center radius) (fun _ _ => True) s := by
  unfold pelletOne
  simp only [wp_bind]
  apply wp_expandAtCenter exact nonempty
  intro expanded t known above
  apply wp_gaussianAbsLower exact
  intro t
  apply (exact.multiply _ _).use
  intro t
  apply (exact.setI64 0 1 one_ne_zero).use
  intro t
  apply (exact.add _ _).use
  intro t
  apply (exact.setI64 1 1 one_ne_zero).use
  intro t
  let part (k : Nat) : ℚ := if k ≠ 1 then
    (|(gaussianAt expanded k).real| + |(gaussianAt expanded k).imaginary|) * (radius + radius) ^ k else 0
  let inv (slot : Nat) (sums : ℚ × ℚ) (_ : State) : Prop := sums.1 = ∑ k ∈ Finset.range slot, part k ∧
    (slot < coefficients.length → sums.2 = (radius + radius) ^ slot)
  refine wp_good (wp_countUp inv (coefficients.length - 1 + 1) 0 _ t ⟨by simp, fun _ => by simp⟩ ?_) ?_
  · rintro slot ⟨right, power⟩ t - inside ⟨summed, raised⟩
    have inside : slot < coefficients.length := by omega
    rw [wp_bind]
    apply wp_contribute exact
    intro t
    have sum : right + (if slot ≠ 1 then
        (|(gaussianAt expanded slot).real| + |(gaussianAt expanded slot).imaginary|) * power else 0) =
        ∑ k ∈ Finset.range (slot + 1), part k := by
      rw [Finset.sum_range_succ, ← summed, show power = _ from raised inside]
    apply wp_ite
    · intro _
      rw [wp_bind]
      apply (exact.multiply _ _).use
      intro t
      exact ⟨sum, fun _ => by rw [show power = _ from raised inside, pow_succ]⟩
    · intro last
      exact ⟨sum, fun more => by omega⟩
  · rintro ⟨right, power⟩ t ⟨summed, -⟩
    dsimp only at summed ⊢
    apply (exact.compare _ _).use
    intro t certified
    have test := order_pos.mp (of_decide_eq_true certified)
    rw [summed] at test
    exact hasRoot_of_pellet positive known (fun k past => above k (by omega)) test

theorem wp_apart (left right : Gaussian) (radius : ℚ) : wp (boxesDisjoint.apart kernel left right (radius + radius))
    (fun apart _ => apart = true → Disjoint (square left radius) (square right radius)) (fun _ _ => True) s := by
  unfold boxesDisjoint.apart
  rw [wp_bind]
  apply (exact.subtract _ _).use
  intro t
  rw [wp_bind]
  apply (exact.subtract _ _).use
  intro t
  rw [wp_bind]
  apply wp_absRat exact
  intro t
  rw [wp_bind]
  apply wp_absRat exact
  intro t
  rw [wp_bind]
  apply (exact.compare _ _).use
  intro t
  rw [wp_bind]
  apply (exact.compare _ _).use
  intro t apart
  apply Set.disjoint_left.mpr
  rintro z ⟨x, y⟩ ⟨x', y'⟩
  have near {a b : ℚ} {c : ℝ} (first : |c - a| ≤ radius) (second : |c - b| ≤ radius) : |a - b| ≤ radius + radius := by
    rw [abs_sub_comm] at first
    have real : |(a : ℝ) - b| ≤ radius + radius := (abs_sub_le _ c _).trans (add_le_add first second)
    exact_mod_cast real
  have touch : order |left.real - right.real| (radius + radius) ≤ 0 ∧
      order |left.imaginary - right.imaginary| (radius + radius) ≤ 0 :=
    ⟨order_nonpos.mpr (near x x'), order_nonpos.mpr (near y y')⟩
  simp [touch.1, touch.2] at apart

theorem wp_boxesDisjoint (centers : List Gaussian) (degree : Nat) (radius : ℚ) :
    wp (boxesDisjoint kernel centers degree radius) (fun disjoint _ => disjoint = true → ∀ i j, i < j → j < degree →
      Disjoint (square (gaussianAt centers i) radius) (square (gaussianAt centers j) radius)) (fun _ _ => True) s := by
  let parted (i j : Nat) : Prop := Disjoint (square (gaussianAt centers i) radius) (square (gaussianAt centers j) radius)
  let outer (left : Nat) (disjoint : Bool) (_ : State) : Prop :=
    disjoint = true → ∀ i j, i < left → i < j → j < degree → parted i j
  let inner (left right : Nat) (disjoint : Bool) (t : State) : Prop :=
    outer left disjoint t ∧ (disjoint = true → ∀ j, left < j → j < right → parted left j)
  unfold boxesDisjoint
  rw [wp_bind]
  apply (exact.add _ _).use
  intro t
  refine wp_good (wp_countUp outer degree 0 true t (fun _ i j before => absurd before (Nat.not_lt_zero i)) ?_)
    fun disjoint t held passed i j less inside => held passed i j (by omega) less inside
  intro left disjoint t _ _ held
  refine wp_good (wp_countUp (inner left) (degree - (left + 1)) (left + 1) disjoint t
    ⟨held, fun _ j above below => by omega⟩ ?_) ?_
  · rintro right disjoint t - inside ⟨earlier, row⟩
    apply wp_ite
    · intro passed
      apply wp_good (wp_apart exact _ _ _)
      intro apart t new
      refine ⟨fun _ => earlier passed, fun held j above below => ?_⟩
      rcases Nat.lt_succ_iff_lt_or_eq.mp below with before | rfl
      · exact row passed j above before
      · exact new held
    · intro _
      have failed : inner left (right + 1) false t :=
        ⟨fun passed => absurd passed Bool.false_ne_true, fun passed => absurd passed Bool.false_ne_true⟩
      exact failed
  · rintro disjoint t ⟨earlier, row⟩ passed i j before less inside
    rcases Nat.lt_succ_iff_lt_or_eq.mp before with older | rfl
    · exact earlier passed i j older less inside
    · exact row passed j less (by omega)

theorem wp_certifyCenters (nonempty : 0 < coefficients.length) (centers : List Gaussian)
    (degree : Nat) (positive : 0 < radius) :
    wp (certifyCenters kernel coefficients centers degree radius)
      (fun certified _ => certified = true → ∀ i < degree, HasRoot coefficients (gaussianAt centers i) radius)
      (fun _ _ => True) s := by
  let inv (index : Nat) (certified : Bool) (_ : State) : Prop :=
    certified = true → ∀ i < index, HasRoot coefficients (gaussianAt centers i) radius
  unfold certifyCenters
  refine wp_good (wp_countUp inv degree 0 true s (fun _ i before => absurd before (Nat.not_lt_zero i)) ?_)
    fun certified t held passed i inside => held passed i (by omega)
  intro index certified t _ _ held
  apply wp_ite
  · intro passed
    apply wp_good (wp_pelletOne exact nonempty _ positive)
    intro one t new same i before
    rcases Nat.lt_succ_iff_lt_or_eq.mp before with older | rfl
    · exact held passed i older
    · exact new same
  · intro _ failed
    cases failed

def Certified (coefficients : List ℚ) (degree : Nat) (radius : ℚ) (centers : List Gaussian) : Prop :=
  (∀ i j, i < j → j < degree → Disjoint (square (gaussianAt centers i) radius) (square (gaussianAt centers j) radius)) ∧
    ∀ i < degree, HasRoot coefficients (gaussianAt centers i) radius

theorem wp_certified (nonempty : 0 < coefficients.length) (centers : List Gaussian)
    (degree : Nat) (positive : 0 < radius) : wp (certified kernel coefficients centers degree radius)
      (fun passed _ => passed = true → Certified coefficients degree radius centers) (fun _ _ => True) s := by
  unfold certified
  apply wp_then (wp_boxesDisjoint exact _ _ _)
  intro disjoint t apart
  apply wp_ite
  · intro passed
    exact wp_good (wp_certifyCenters exact nonempty centers degree positive)
      fun certified _ roots held => ⟨apart passed, roots held⟩
  · intro _ failed
    cases failed

theorem wp_iterate (nonempty : 0 < coefficients.length) (degree : Nat)
    (positive : 0 < radius) (pointBits remaining : Nat) (centers next : List Gaussian) :
    wp (iterate kernel coefficients degree radius pointBits remaining centers next)
      (fun final _ => Certified coefficients degree radius final) (fun _ _ => True) s := by
  induction remaining generalizing centers next s with
  | zero => exact trivial
  | succ remaining ih =>
    unfold iterate
    apply wp_then (wp_any s)
    intro next t _
    apply wp_then (wp_any t)
    intro centers t _
    apply wp_ite
    · exact fun _ => ih centers next
    · intro _
      apply wp_then (wp_certified exact nonempty centers degree positive)
      intro passed t certified
      exact wp_ite certified fun _ => ih centers next

theorem wp_realBallSetInterval (center radius : ℚ) {good : RealInterval → State → Prop}
    (rest : ∀ t, good ⟨center, radius⟩ t) :
    wp (realBallSetInterval kernel (center - radius) (center + radius)) good (fun _ _ => True) s := by
  unfold realBallSetInterval
  rw [wp_bind]
  apply (exact.compare _ _).use
  intro t
  apply wp_ite
  · exact fun _ => trivial
  intro _
  rw [wp_bind]
  apply (exact.setI64 2 1 one_ne_zero).use
  intro t
  rw [wp_bind]
  apply (exact.add _ _).use
  intro t
  apply wp_then (exact.divide _ _ t)
  rintro midpoint t ⟨-, rfl⟩
  rw [wp_bind]
  apply (exact.subtract _ _).use
  intro t
  apply wp_then (exact.divide _ _ t)
  rintro half t ⟨-, rfl⟩
  have midpoint : (center - radius + (center + radius)) / ((2 : Int) / (1 : Int)) = center := by
    push_cast
    ring
  have width : (center + radius - (center - radius)) / ((2 : Int) / (1 : Int)) = radius := by
    push_cast
    ring
  rw [midpoint, width]
  exact rest t

theorem wp_publishBoxes (centers : List Gaussian) (degree : Nat) (radius : ℚ) :
    wp (publishBoxes kernel centers degree radius)
      (fun boxes _ => boxes.map ComplexBall.region = (List.range degree).map fun i => square (gaussianAt centers i) radius)
      (fun _ _ => True) s := by
  let inv (index : Nat) (boxes : List ComplexBall) (_ : State) : Prop :=
    boxes.map ComplexBall.region = (List.range index).map fun i => square (gaussianAt centers i) radius
  unfold publishBoxes
  refine wp_good (wp_countUp inv degree 0 [] s rfl ?_) fun boxes t held => ?_
  · intro index boxes t _ _ held
    rw [wp_bind]
    apply (exact.subtract _ _).use
    intro t
    rw [wp_bind]
    apply (exact.add _ _).use
    intro t
    rw [wp_bind]
    apply wp_realBallSetInterval exact
    intro t
    rw [wp_bind]
    apply (exact.subtract _ _).use
    intro t
    rw [wp_bind]
    apply (exact.add _ _).use
    intro t
    rw [wp_bind]
    apply wp_realBallSetInterval exact
    intro t
    change (boxes ++ _).map _ = _
    rw [List.map_append, held, List.range_succ, List.map_append]
    rfl
  · rwa [Nat.zero_add] at held

theorem wp_cauchyRadius (coefficients : List ℚ) : wp (cauchyRadius kernel coefficients)
    (fun _ _ => coefficientAt coefficients (coefficients.length - 1) ≠ 0) (fun _ _ => True) s := by
  unfold cauchyRadius
  rw [wp_bind]
  apply wp_absRat exact
  intro t
  apply wp_ite
  · exact fun _ => trivial
  · intro nonzero
    exact wp_good (wp_any t) fun _ _ _ => abs_ne_zero.mp nonzero

omit exact in
theorem natDegree_complexPolynomial (leading : coefficientAt coefficients (coefficients.length - 1) ≠ 0) :
    complexPolynomial coefficients ≠ 0 ∧ (complexPolynomial coefficients).natDegree = coefficients.length - 1 := by
  have nonempty : coefficients ≠ [] := fun empty => leading (by rw [empty]; rfl)
  have trimmed : Trimmed coefficients := by
    intro nonempty
    rwa [getLast_eq_coeff, coeff_ofCoefficients]
  have injective : Function.Injective (algebraMap ℚ ℂ) := (algebraMap ℚ ℂ).injective
  refine ⟨fun zero => nonempty (trimmed.eq_zero_iff.mp ?_), ?_⟩
  · exact (Polynomial.map_eq_zero_iff injective).mp zero
  · rw [complexPolynomial, natDegree_map_eq_of_injective injective, trimmed.natDegree nonempty]

structure Isolates (coefficients : List ℚ) (boxes : List ComplexBall) : Prop where
  counted : boxes.length = coefficients.length - 1
  disjoint : ∀ i j : Fin boxes.length, i ≠ j → Disjoint (boxes.get i).region (boxes.get j).region
  single : ∀ i : Fin boxes.length, ∃! z, z ∈ (boxes.get i).region ∧ (complexPolynomial coefficients).eval z = 0
  covered : ∀ z, (complexPolynomial coefficients).eval z = 0 → ∃! i : Fin boxes.length, z ∈ (boxes.get i).region
  squarefree : Squarefree (ofCoefficients coefficients)

omit exact in
theorem isolates_of_certified {centers : List Gaussian} {boxes : List ComplexBall}
    (leading : coefficientAt coefficients (coefficients.length - 1) ≠ 0)
    (certified : Certified coefficients (coefficients.length - 1) radius centers)
    (published : boxes.map ComplexBall.region =
      (List.range (coefficients.length - 1)).map fun i => square (gaussianAt centers i) radius) :
    Isolates coefficients boxes := by
  obtain ⟨nonzero, degree⟩ := natDegree_complexPolynomial leading
  have counted : boxes.length = coefficients.length - 1 := by
    simpa using congrArg List.length published
  have region (i : Fin boxes.length) : (boxes.get i).region = square (gaussianAt centers i) radius := by
    have place := congrArg (fun regions => regions[i.val]?) published
    have inside : i.val < coefficients.length - 1 := counted ▸ i.isLt
    simpa [List.getElem?_eq_getElem i.isLt, inside] using place
  have cast : (complexPolynomial coefficients).natDegree = boxes.length := degree.trans counted.symm
  have apart (i j : Fin boxes.length) (different : i ≠ j) : Disjoint (boxes.get i).region (boxes.get j).region := by
    rw [region, region]
    rcases lt_or_gt_of_ne different with less | greater
    · exact certified.1 i j less (counted ▸ j.isLt)
    · exact (certified.1 j i greater (counted ▸ i.isLt)).symm
  obtain ⟨single, covered, separable⟩ := Lib.Pellet.one_root_each nonzero
    (S := fun i => (boxes.get (i.cast cast)).region) (fun i j different => apart _ _ fun same => different (Fin.cast_injective cast same))
    (fun i => by
      obtain ⟨z, inside, zero⟩ := certified.2 i (degree ▸ i.isLt)
      exact ⟨z, region (i.cast cast) ▸ inside, zero⟩)
  refine ⟨counted, apart, fun i => single (i.cast cast.symm), fun z zero => ?_, (separable_map _).mp separable |>.squarefree⟩
  obtain ⟨i, inside, unique⟩ := covered z zero
  exact ⟨i.cast cast, inside, fun j member => by rw [← unique (j.cast cast.symm) member]; rfl⟩

/-- The boxes of a call that returns isolate the roots, whatever the polynomial is and whatever the
iterates do. -/
theorem complex_roots_isolated (coefficients : List ℚ) (bits rootCapacity : Nat) :
    wp (complexRootsIsolate kernel coefficients bits rootCapacity) (fun boxes _ => Isolates coefficients boxes)
      (fun _ _ => True) s := by
  unfold complexRootsIsolate
  apply wp_ite
  · exact fun _ => trivial
  intro accepted
  apply wp_ite
  · exact fun _ => trivial
  intro _
  have nonempty : 0 < coefficients.length := by omega
  apply wp_then (wp_cauchyRadius exact coefficients)
  intro enclosure t leading
  apply wp_then (wp_any t)
  intro centers t _
  rw [wp_bind]
  apply wp_dyadicEpsilon exact
  intro t
  have positive : (0 : ℚ) < 1 / 2 ^ bits := one_div_pos.mpr (pow_pos two_pos bits)
  apply wp_then (wp_iterate exact nonempty _ positive _ _ _ _)
  intro final t certified
  exact wp_good (wp_publishBoxes exact final _ _)
    fun boxes t published => isolates_of_certified leading certified published

omit exact in
theorem complex_roots_isolated_of_units :
    ∃ boxes t, complexRootsIsolate unlimited [1, 0, 1] 8 2 () = .ok boxes t ∧ Isolates [1, 0, 1] boxes :=
  wp_value (complex_roots_isolated unlimited_exact [1, 0, 1] 8 2) (by decide +kernel)

end

end PhyNspire.Cas.ComplexRoots

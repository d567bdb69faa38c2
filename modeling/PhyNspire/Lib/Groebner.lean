import Mathlib

/-!
Buchberger's criterion over a field, for any monomial order. A family of polynomials spans,
below every exponent, the multiples that end there. When the S-polynomial of every pair lies in
the span below the common multiple of the leading exponents, leading terms that cancel
cancel within the span, and every element of the ideal has a leading term of the family.
-/

namespace PhyNspire.Lib.Groebner
open MvPolynomial

variable {σ ι K : Type*} [Field K] (m : MonomialOrder σ) (g : ι → MvPolynomial σ K)

noncomputable def below (s : m.syn) : Submodule K (MvPolynomial σ K) :=
  Submodule.span K {f | ∃ i a, m.toSyn (a + m.degree (g i)) < s ∧ f = monomial a 1 * g i}

/-- The same with the exponent. -/
noncomputable def upTo (s : m.syn) : Submodule K (MvPolynomial σ K) :=
  Submodule.span K {f | ∃ i a, m.toSyn (a + m.degree (g i)) ≤ s ∧ f = monomial a 1 * g i}

/-- The multiple of one polynomial that has the leading term one at an exponent. -/
noncomputable def lifted (f : MvPolynomial σ K) (e : σ →₀ ℕ) : MvPolynomial σ K :=
  monomial (e - m.degree f) (m.leadingCoeff f)⁻¹ * f

noncomputable def sPolynomial (f h : MvPolynomial σ K) : MvPolynomial σ K :=
  lifted m f (m.degree f ⊔ m.degree h) - lifted m h (m.degree f ⊔ m.degree h)

variable {m g}

theorem upTo_mono {s t : m.syn} (order : s ≤ t) : upTo m g s ≤ upTo m g t := by
  apply Submodule.span_mono
  rintro f ⟨i, a, less, rfl⟩
  exact ⟨i, a, less.trans order, rfl⟩

theorem upTo_le_below {s t : m.syn} (order : s < t) : upTo m g s ≤ below m g t := by
  apply Submodule.span_mono
  rintro f ⟨i, a, less, rfl⟩
  exact ⟨i, a, less.trans_lt order, rfl⟩

theorem monomial_mem_upTo (i : ι) (a : σ →₀ ℕ) (c : K) :
    monomial a c * g i ∈ upTo m g (m.toSyn (a + m.degree (g i))) := by
  have scaled : monomial a c * g i = c • (monomial a 1 * g i) := by
    rw [← smul_mul_assoc, smul_monomial, smul_eq_mul, mul_one]
  rw [scaled]
  exact Submodule.smul_mem _ c (Submodule.subset_span ⟨i, a, le_rfl, rfl⟩)

theorem coeff_multiple {f : MvPolynomial σ K} {a k : σ →₀ ℕ} (late : m.toSyn (a + m.degree f) < m.toSyn k) (c : K) :
    coeff k (monomial a c * f) = 0 := by
  rw [coeff_monomial_mul']
  split
  · rename_i inside
    rw [m.coeff_eq_zero_of_lt, mul_zero]
    have split : m.toSyn k = m.toSyn a + m.toSyn (k - a) := by rw [← map_add, add_tsub_cancel_of_le inside]
    rwa [map_add, split, add_lt_add_iff_left] at late
  · rfl

theorem coeff_of_mem_below {s : m.syn} {f : MvPolynomial σ K} (member : f ∈ below m g s) {k : σ →₀ ℕ} (late : s ≤ m.toSyn k) :
    coeff k f = 0 := by
  induction member using Submodule.span_induction with
  | mem f generator =>
    obtain ⟨i, a, less, rfl⟩ := generator
    exact coeff_multiple (less.trans_le late) 1
  | zero => rfl
  | add f h _ _ first second => rw [coeff_add, first, second, add_zero]
  | smul c f _ ih => rw [coeff_smul, ih, smul_zero]

theorem coeff_of_mem_upTo {s : m.syn} {f : MvPolynomial σ K} (member : f ∈ upTo m g s) {k : σ →₀ ℕ} (late : s < m.toSyn k) :
    coeff k f = 0 :=
  coeff_of_mem_below (upTo_le_below late member) le_rfl

theorem degree_le_of_mem_upTo {e : σ →₀ ℕ} {f : MvPolynomial σ K} (member : f ∈ upTo m g (m.toSyn e)) :
    m.toSyn (m.degree f) ≤ m.toSyn e := by
  apply m.degree_le_iff.mpr
  intro k inside
  by_contra late
  exact mem_support_iff.mp inside (coeff_of_mem_upTo member (not_le.mp late))

theorem exists_upTo {s : m.syn} {f : MvPolynomial σ K} (member : f ∈ below m g s) : f = 0 ∨ ∃ t < s, f ∈ upTo m g t := by
  induction member using Submodule.span_induction with
  | mem f generator =>
    obtain ⟨i, a, less, rfl⟩ := generator
    exact .inr ⟨_, less, Submodule.subset_span ⟨i, a, le_rfl, rfl⟩⟩
  | zero => exact .inl rfl
  | add f h _ _ first second =>
    rcases first with rfl | ⟨t, less, first⟩
    · rwa [zero_add]
    rcases second with rfl | ⟨u, less', second⟩
    · exact .inr ⟨t, less, by rwa [add_zero]⟩
    · exact .inr ⟨max t u, max_lt less less',
        Submodule.add_mem _ (upTo_mono (le_max_left t u) first) (upTo_mono (le_max_right t u) second)⟩
  | smul c f _ ih =>
    rcases ih with rfl | ⟨t, less, inside⟩
    · exact .inl (smul_zero c)
    · exact .inr ⟨t, less, Submodule.smul_mem _ c inside⟩

theorem monomial_mul_mem_below {s : m.syn} {f : MvPolynomial σ K} (member : f ∈ below m g s) (b : σ →₀ ℕ) :
    monomial b 1 * f ∈ below m g (m.toSyn b + s) := by
  induction member using Submodule.span_induction with
  | mem f generator =>
    obtain ⟨i, a, less, rfl⟩ := generator
    refine Submodule.subset_span ⟨i, b + a, ?_, ?_⟩
    · rw [add_assoc, map_add]
      exact add_lt_add_right less _
    · rw [← mul_assoc, monomial_mul, mul_one]
  | zero => rw [mul_zero]; exact Submodule.zero_mem _
  | add f h _ _ first second => rw [mul_add]; exact Submodule.add_mem _ first second
  | smul c f _ ih => rw [mul_smul_comm]; exact Submodule.smul_mem _ c ih

theorem mul_mem_upTo {f : MvPolynomial σ K} (p : MvPolynomial σ K) (i : ι) (same : f = p * g i) :
    ∃ s, f ∈ upTo m g s := by
  subst same
  induction p using MvPolynomial.induction_on' with
  | monomial a c => exact ⟨_, monomial_mem_upTo i a c⟩
  | add p q first second =>
    obtain ⟨s, first⟩ := first
    obtain ⟨t, second⟩ := second
    exact ⟨max s t, by
      rw [add_mul]
      exact Submodule.add_mem _ (upTo_mono (le_max_left s t) first) (upTo_mono (le_max_right s t) second)⟩

theorem exists_upTo_of_mem_ideal {f : MvPolynomial σ K} (member : f ∈ Ideal.span (Set.range g)) : ∃ s, f ∈ upTo m g s := by
  induction member using Submodule.closure_induction with
  | zero => exact ⟨0, Submodule.zero_mem _⟩
  | add f h _ _ first second =>
    obtain ⟨s, first⟩ := first
    obtain ⟨t, second⟩ := second
    exact ⟨max s t, Submodule.add_mem _ (upTo_mono (le_max_left s t) first) (upTo_mono (le_max_right s t) second)⟩
  | smul_mem p f generator =>
    obtain ⟨i, rfl⟩ := generator
    exact mul_mem_upTo p i rfl

theorem upTo_le_ideal (s : m.syn) {f : MvPolynomial σ K} (member : f ∈ upTo m g s) : f ∈ Ideal.span (Set.range g) := by
  induction member using Submodule.span_induction with
  | mem f generator =>
    obtain ⟨i, a, -, rfl⟩ := generator
    exact Ideal.mul_mem_left _ _ (Ideal.subset_span ⟨i, rfl⟩)
  | zero => exact Submodule.zero_mem _
  | add f h _ _ first second => exact Ideal.add_mem _ first second
  | smul c f _ ih =>
    rw [smul_eq_C_mul]
    exact Ideal.mul_mem_left _ _ ih

section
variable {f h : MvPolynomial σ K} {e : σ →₀ ℕ}

theorem coeff_lifted (nonzero : f ≠ 0) (reach : m.degree f ≤ e) : coeff e (lifted m f e) = 1 := by
  unfold lifted
  rw [coeff_monomial_mul', if_pos tsub_le_self, tsub_tsub_cancel_of_le reach]
  exact inv_mul_cancel₀ (m.leadingCoeff_ne_zero_iff.mpr nonzero)

theorem lifted_lift {e' : σ →₀ ℕ} (reach : m.degree f ≤ e) (further : e ≤ e') :
    lifted m f e' = monomial (e' - e) 1 * lifted m f e := by
  unfold lifted
  rw [← mul_assoc, monomial_mul, one_mul, ← add_tsub_assoc_of_le reach, tsub_add_cancel_of_le further]

theorem lifted_sub_lifted (first : m.degree f ≤ e) (second : m.degree h ≤ e) :
    lifted m f e - lifted m h e = monomial (e - (m.degree f ⊔ m.degree h)) 1 * sPolynomial m f h := by
  have common : m.degree f ⊔ m.degree h ≤ e := sup_le first second
  rw [sPolynomial, mul_sub, ← lifted_lift le_sup_left common, ← lifted_lift le_sup_right common]

end

/-- The S-polynomial of every pair is a combination that ends below the common multiple. -/
def Confluent (m : MonomialOrder σ) (g : ι → MvPolynomial σ K) : Prop :=
  ∀ i j, sPolynomial m (g i) (g j) ∈ below m g (m.toSyn (m.degree (g i) ⊔ m.degree (g j)))

theorem lifted_sub_mem (confluent : Confluent m g) {i j : ι} {e : σ →₀ ℕ} (first : m.degree (g i) ≤ e)
    (second : m.degree (g j) ≤ e) : lifted m (g i) e - lifted m (g j) e ∈ below m g (m.toSyn e) := by
  rw [lifted_sub_lifted first second]
  have common : m.degree (g i) ⊔ m.degree (g j) ≤ e := sup_le first second
  have moved := monomial_mul_mem_below (confluent i j) (e - (m.degree (g i) ⊔ m.degree (g j)))
  rwa [← map_add, tsub_add_cancel_of_le common] at moved

theorem exists_single (nonzero : ∀ i, g i ≠ 0) (confluent : Confluent m g) {j : ι} {e : σ →₀ ℕ}
    (reach : m.degree (g j) ≤ e) {f : MvPolynomial σ K} (member : f ∈ upTo m g (m.toSyn e)) :
    ∃ c : K, f - c • lifted m (g j) e ∈ below m g (m.toSyn e) := by
  induction member using Submodule.span_induction with
  | mem f generator =>
    obtain ⟨i, a, order, rfl⟩ := generator
    rcases order.lt_or_eq with less | same
    · refine ⟨0, ?_⟩
      rw [zero_smul, sub_zero]
      exact Submodule.subset_span ⟨i, a, less, rfl⟩
    · have exponent : a + m.degree (g i) = e := m.toSyn.injective same
      have multiple : monomial a 1 * g i = m.leadingCoeff (g i) • lifted m (g i) e := by
        rw [lifted, ← exponent, add_tsub_cancel_right, ← smul_mul_assoc, smul_monomial, smul_eq_mul,
          mul_inv_cancel₀ (m.leadingCoeff_ne_zero_iff.mpr (nonzero i))]
      refine ⟨m.leadingCoeff (g i), ?_⟩
      rw [multiple, ← smul_sub]
      exact Submodule.smul_mem _ _ (lifted_sub_mem confluent (exponent ▸ le_add_self) reach)
  | zero => exact ⟨0, by rw [zero_smul, sub_zero]; exact Submodule.zero_mem _⟩
  | add f h _ _ first second =>
    obtain ⟨c, first⟩ := first
    obtain ⟨d, second⟩ := second
    refine ⟨c + d, ?_⟩
    rw [add_smul, add_sub_add_comm]
    exact Submodule.add_mem _ first second
  | smul b f _ ih =>
    obtain ⟨c, inside⟩ := ih
    refine ⟨b * c, ?_⟩
    rw [mul_smul, ← smul_sub]
    exact Submodule.smul_mem _ b inside

/-- Buchberger's criterion. -/
theorem exists_leading_of_confluent (nonzero : ∀ i, g i ≠ 0) (confluent : Confluent m g) {f : MvPolynomial σ K}
    (member : f ∈ Ideal.span (Set.range g)) (some : f ≠ 0) : ∃ i, m.degree (g i) ≤ m.degree f := by
  obtain ⟨s, member⟩ := exists_upTo_of_mem_ideal (m := m) member
  induction s using WellFoundedLT.induction with
  | ind s ih =>
    obtain ⟨e, rfl⟩ := m.toSyn.surjective s
    have lower (inside : f ∈ below m g (m.toSyn e)) : ∃ i, m.degree (g i) ≤ m.degree f := by
      rcases exists_upTo inside with rfl | ⟨t, less, smaller⟩
      · exact absurd rfl some
      · exact ih t less smaller
    by_cases reached : ∃ j, m.degree (g j) ≤ e
    · obtain ⟨j, reach⟩ := reached
      obtain ⟨c, inside⟩ := exists_single nonzero confluent reach member
      by_cases cancelled : c = 0
      · rw [cancelled, zero_smul, sub_zero] at inside
        exact lower inside
      · have top : coeff e f = c := by
          have difference := coeff_of_mem_below inside (le_refl (m.toSyn e))
          rw [coeff_sub, coeff_smul, coeff_lifted (nonzero j) reach, smul_eq_mul, mul_one] at difference
          exact sub_eq_zero.mp difference
        have degree : m.degree f = e := by
          apply m.toSyn.injective
          apply le_antisymm
          · by_contra late
            exact some (m.coeff_degree_eq_zero_iff.mp (coeff_of_mem_upTo member (not_le.mp late)))
          · exact m.le_degree (mem_support_iff.mpr (by rwa [top]))
        exact ⟨j, degree ▸ reach⟩
    · apply lower
      apply Submodule.span_le.mpr _ member
      rintro _ ⟨i, a, order, rfl⟩
      rcases order.lt_or_eq with less | same
      · exact Submodule.subset_span ⟨i, a, less, rfl⟩
      · have exponent : a + m.degree (g i) = e := m.toSyn.injective same
        exact absurd ⟨i, exponent ▸ le_add_self⟩ reached

theorem coeff_lifted_late {f : MvPolynomial σ K} {e k : σ →₀ ℕ} (reach : m.degree f ≤ e) (late : m.toSyn e < m.toSyn k) :
    coeff k (lifted m f e) = 0 := by
  apply coeff_multiple
  rwa [tsub_add_cancel_of_le reach]

theorem degree_sPolynomial_lt {f h : MvPolynomial σ K} (first : f ≠ 0) (second : h ≠ 0) (some : sPolynomial m f h ≠ 0) :
    m.toSyn (m.degree (sPolynomial m f h)) < m.toSyn (m.degree f ⊔ m.degree h) := by
  have vanishes (k : σ →₀ ℕ) (late : m.toSyn (m.degree f ⊔ m.degree h) ≤ m.toSyn k) : coeff k (sPolynomial m f h) = 0 := by
    rw [sPolynomial, coeff_sub]
    rcases late.lt_or_eq with above | same
    · rw [coeff_lifted_late le_sup_left above, coeff_lifted_late le_sup_right above, sub_zero]
    · rw [← m.toSyn.injective same, coeff_lifted first le_sup_left, coeff_lifted second le_sup_right, sub_self]
  by_contra late
  exact m.coeff_degree_ne_zero_iff.mpr some (vanishes _ (not_lt.mp late))

theorem mem_below_of_reduces {i j : ι} (nonzero : ∀ i, g i ≠ 0)
    (reduces : sPolynomial m (g i) (g j) ∈ upTo m g (m.toSyn (m.degree (sPolynomial m (g i) (g j))))) :
    sPolynomial m (g i) (g j) ∈ below m g (m.toSyn (m.degree (g i) ⊔ m.degree (g j))) := by
  by_cases none : sPolynomial m (g i) (g j) = 0
  · rw [none]
    exact Submodule.zero_mem _
  · exact upTo_le_below (degree_sPolynomial_lt (nonzero i) (nonzero j) none) reduces

theorem confluent_of_pairs [LinearOrder ι] (nonzero : ∀ i, g i ≠ 0)
    (reduces : ∀ i j, i < j → sPolynomial m (g i) (g j) ∈ upTo m g (m.toSyn (m.degree (sPolynomial m (g i) (g j))))) :
    Confluent m g := by
  intro i j
  rcases lt_trichotomy i j with less | rfl | greater
  · exact mem_below_of_reduces nonzero (reduces i j less)
  · rw [sPolynomial, sub_self]
    exact Submodule.zero_mem _
  · have swapped := mem_below_of_reduces nonzero (reduces j i greater)
    have negated : sPolynomial m (g i) (g j) = -sPolynomial m (g j) (g i) := by
      rw [sPolynomial, sPolynomial, neg_sub, sup_comm]
    rw [negated, sup_comm]
    exact Submodule.neg_mem _ swapped

/-- Every element of the ideal has a leading exponent that one of the set divides. -/
def IsBasis (m : MonomialOrder σ) (B : Set (MvPolynomial σ K)) : Prop :=
  ∀ f ∈ Ideal.span B, f ≠ 0 → ∃ b ∈ B, b ≠ 0 ∧ m.degree b ≤ m.degree f

variable {B : Set (MvPolynomial σ K)}

theorem isBasis_range (nonzero : ∀ i, g i ≠ 0) (confluent : Confluent m g) : IsBasis m (Set.range g) := by
  intro f member some
  obtain ⟨i, divides⟩ := exists_leading_of_confluent nonzero confluent member some
  exact ⟨g i, ⟨i, rfl⟩, nonzero i, divides⟩

theorem IsBasis.mem_iff (basis : IsBasis m B) {f r : MvPolynomial σ K} (reduced : f - r ∈ Ideal.span B)
    (normal : ∀ e ∈ r.support, ∀ b ∈ B, b ≠ 0 → ¬m.degree b ≤ e) : f ∈ Ideal.span B ↔ r = 0 := by
  constructor
  · intro member
    by_contra some
    have inside : r ∈ Ideal.span B := by
      have difference := Ideal.sub_mem _ member reduced
      rwa [sub_sub_cancel] at difference
    obtain ⟨b, generator, nonzero, divides⟩ := basis r inside some
    exact normal _ (m.degree_mem_support some) b generator nonzero divides
  · rintro rfl
    rwa [sub_zero] at reduced

theorem IsBasis.eq_top_iff (basis : IsBasis m B) : Ideal.span B = ⊤ ↔ ∃ b ∈ B, ∃ c : K, c ≠ 0 ∧ b = C c := by
  constructor
  · intro whole
    have member : (1 : MvPolynomial σ K) ∈ Ideal.span B := by
      rw [whole]
      exact Submodule.mem_top
    obtain ⟨b, generator, nonzero, divides⟩ := basis 1 member one_ne_zero
    have degree_one : m.degree (1 : MvPolynomial σ K) = 0 := m.degree_C 1
    have constant : m.degree b = 0 := le_antisymm (degree_one ▸ divides) zero_le
    exact ⟨b, generator, m.leadingCoeff b, m.leadingCoeff_ne_zero_iff.mpr nonzero, m.eq_C_of_degree_eq_zero constant⟩
  · rintro ⟨b, generator, c, nonzero, rfl⟩
    exact Ideal.eq_top_of_isUnit_mem _ (Ideal.subset_span generator) ((isUnit_iff_ne_zero.mpr nonzero).map C)

end PhyNspire.Lib.Groebner

import Mathlib

/-!
Pellet's test for one root. Where the linear term of a Taylor expansion outweighs all the
others on a circle, the polynomial has a root inside: otherwise the linear term over the
polynomial would be holomorphic on the disc with a positive real part on the circle,
although it vanishes at the centre. When as many disjoint sets as the degree have a
root each, every root lies in exactly one of them.
-/

namespace PhyNspire.Lib.Pellet
open Polynomial

/-- A polynomial without its linear term. -/
noncomputable def remainder (p : ℂ[X]) : ℂ[X] := p - C (p.coeff 1) * X

/-- What the terms but the linear one amount to on a circle. -/
noncomputable def weight (p : ℂ[X]) (r : ℝ) : ℝ := ∑ k ∈ p.support.erase 1, ‖p.coeff k‖ * r ^ k

theorem eval_remainder (p : ℂ[X]) (z : ℂ) : (remainder p).eval z = ∑ k ∈ p.support.erase 1, p.coeff k * z ^ k := by
  have split : p.eval z = ∑ k ∈ p.support, p.coeff k * z ^ k := eval_eq_sum
  rw [remainder, eval_sub, eval_mul, eval_C, eval_X, split]
  by_cases linear : 1 ∈ p.support
  · rw [← Finset.add_sum_erase _ _ linear, pow_one]
    ring
  · rw [Finset.erase_eq_of_notMem linear, notMem_support_iff.mp linear, zero_mul, sub_zero]

theorem norm_remainder_le (p : ℂ[X]) {z : ℂ} {r : ℝ} (circle : ‖z‖ = r) : ‖(remainder p).eval z‖ ≤ weight p r := by
  rw [eval_remainder]
  refine (norm_sum_le _ _).trans (Finset.sum_le_sum fun k _ => ?_)
  rw [norm_mul, norm_pow, circle]

theorem not_positive_on_circle {g : ℂ → ℂ} {r δ : ℝ} (bound : 0 < r) (positive : 0 < δ)
    (holomorphic : DiffContOnCl ℂ g (Metric.ball 0 r)) (center : g 0 = 0) : ¬∀ z, ‖z‖ = r → δ ≤ (g z).re := by
  intro large
  have composed : DiffContOnCl ℂ (fun z => Complex.exp (-g z)) (Metric.ball 0 r) :=
    Complex.differentiable_exp.comp_diffContOnCl holomorphic.neg
  have small : ∀ z ∈ frontier (Metric.ball (0 : ℂ) r), ‖Complex.exp (-g z)‖ ≤ Real.exp (-δ) := by
    intro z member
    rw [frontier_ball 0 bound.ne', mem_sphere_zero_iff_norm] at member
    rw [Complex.norm_exp, Complex.neg_re]
    exact Real.exp_le_exp.mpr (neg_le_neg (large z member))
  have inside : (0 : ℂ) ∈ closure (Metric.ball (0 : ℂ) r) := subset_closure (Metric.mem_ball_self bound)
  have whole := Complex.norm_le_of_forall_mem_frontier_norm_le Metric.isBounded_ball composed small inside
  rw [center, neg_zero, Complex.exp_zero, norm_one] at whole
  exact absurd (Real.exp_lt_one_iff.mpr (neg_neg_of_pos positive)) (not_lt.mpr whole)

theorem le_re_div {a b : ℂ} {A W : ℝ} (size : ‖a‖ = A) (near : ‖b - a‖ ≤ W) (less : W < A) :
    A * (A - W) / (A + W) ^ 2 ≤ (a / b).re := by
  have positive : 0 < A := ((norm_nonneg _).trans near).trans_lt less
  have lower : A * (A - W) ≤ (a * (starRingEnd ℂ) b).re := by
    have expand : (a * (starRingEnd ℂ) b).re = A ^ 2 + (a * (starRingEnd ℂ) (b - a)).re := by
      rw [map_sub, mul_sub, Complex.sub_re, Complex.mul_conj, Complex.ofReal_re, Complex.normSq_eq_norm_sq, size]
      ring
    have small : ‖a * (starRingEnd ℂ) (b - a)‖ ≤ A * W := by
      rw [norm_mul, RCLike.norm_conj, size]
      exact mul_le_mul_of_nonneg_left near positive.le
    have real := (abs_le.mp ((Complex.abs_re_le_norm _).trans small)).1
    rw [expand]
    linarith
  have upper : ‖b‖ ≤ A + W := by
    calc ‖b‖ = ‖a + (b - a)‖ := by rw [add_sub_cancel]
      _ ≤ ‖a‖ + ‖b - a‖ := norm_add_le _ _
      _ ≤ A + W := by rw [size]; exact add_le_add_right near A
  have nonzero : 0 < ‖b‖ := by
    have triangle := norm_sub_norm_le a b
    rw [size, norm_sub_rev] at triangle
    linarith
  have quotient : (a / b).re = (a * (starRingEnd ℂ) b).re / ‖b‖ ^ 2 := by
    rw [← Complex.normSq_eq_norm_sq, div_eq_mul_inv, Complex.inv_def, ← mul_assoc, Complex.re_mul_ofReal, div_eq_mul_inv]
  rw [quotient]
  have weak : 0 ≤ A * (A - W) := mul_nonneg positive.le (sub_nonneg.mpr less.le)
  exact div_le_div₀ (weak.trans lower) lower (pow_pos nonzero 2) (pow_le_pow_left₀ nonzero.le upper 2)

theorem exists_root {p : ℂ[X]} {r : ℝ} (bound : 0 < r) (test : weight p r < ‖p.coeff 1‖ * r) :
    ∃ z, ‖z‖ < r ∧ p.eval z = 0 := by
  by_contra none
  push Not at none
  let c := p.coeff 1
  let A := ‖c‖ * r
  let W := weight p r
  have light : 0 ≤ W := Finset.sum_nonneg fun k _ => mul_nonneg (norm_nonneg _) (pow_nonneg bound.le k)
  have circle (z : ℂ) (on : ‖z‖ = r) : ‖c * z‖ = A ∧ ‖p.eval z - c * z‖ ≤ W := by
    have rest := norm_remainder_le p on
    rw [remainder, eval_sub, eval_mul, eval_C, eval_X] at rest
    exact ⟨by rw [norm_mul, on], rest⟩
  have nonzero (z : ℂ) (inside : z ∈ Metric.closedBall (0 : ℂ) r) : p.eval z ≠ 0 := by
    rw [mem_closedBall_zero_iff] at inside
    rcases inside.lt_or_eq with less | same
    · exact none z less
    · intro zero
      obtain ⟨size, near⟩ := circle z same
      rw [zero, zero_sub, norm_neg, size] at near
      exact absurd test (not_lt.mpr near)
  have holomorphic : DiffContOnCl ℂ (fun z => c * z / p.eval z) (Metric.ball 0 r) := by
    refine ⟨fun z inside => ?_, ?_⟩
    · exact ((differentiableAt_id.const_mul c).div p.differentiable.differentiableAt
        (nonzero z (Metric.ball_subset_closedBall inside))).differentiableWithinAt
    · rw [closure_ball 0 bound.ne']
      exact (continuousOn_const.mul continuousOn_id).div p.continuous.continuousOn nonzero
  have positive : 0 < A * (A - W) / (A + W) ^ 2 := by
    have heavy : 0 < A := light.trans_lt test
    exact div_pos (mul_pos heavy (sub_pos.mpr test)) (pow_pos (add_pos_of_pos_of_nonneg heavy light) 2)
  apply not_positive_on_circle bound positive holomorphic (by simp)
  intro z on
  obtain ⟨size, near⟩ := circle z on
  exact le_re_div size near test

theorem one_root_each {p : ℂ[X]} (nonzero : p ≠ 0) {S : Fin p.natDegree → Set ℂ}
    (disjoint : ∀ i j, i ≠ j → Disjoint (S i) (S j)) (root : ∀ i, ∃ z ∈ S i, p.eval z = 0) :
    (∀ i, ∃! z, z ∈ S i ∧ p.eval z = 0) ∧ (∀ z, p.eval z = 0 → ∃! i, z ∈ S i) ∧ p.Separable := by
  choose f inside vanishes using root
  have injective : Function.Injective f := by
    intro i j same
    by_contra different
    exact Set.disjoint_left.mp (disjoint i j different) (inside i) (same ▸ inside j)
  have included : Finset.univ.image f ⊆ p.roots.toFinset := by
    intro z member
    obtain ⟨i, -, rfl⟩ := Finset.mem_image.mp member
    exact Multiset.mem_toFinset.mpr ((mem_roots nonzero).mpr (vanishes i))
  have counted : (Finset.univ.image f).card = p.natDegree := by
    rw [Finset.card_image_of_injective _ injective, Finset.card_univ, Fintype.card_fin]
  have few : p.roots.toFinset.card ≤ p.roots.card := Multiset.toFinset_card_le _
  have bound : p.roots.card ≤ p.natDegree := card_roots' p
  have whole : Finset.univ.image f = p.roots.toFinset :=
    Finset.eq_of_subset_of_card_le included (by rw [counted]; exact few.trans bound)
  have listed (z : ℂ) (zero : p.eval z = 0) : ∃ i, f i = z := by
    have member : z ∈ p.roots.toFinset := Multiset.mem_toFinset.mpr ((mem_roots nonzero).mpr zero)
    rw [← whole] at member
    obtain ⟨i, -, same⟩ := Finset.mem_image.mp member
    exact ⟨i, same⟩
  have apart {z : ℂ} {i j : Fin p.natDegree} (first : z ∈ S i) (second : z ∈ S j) : i = j := by
    by_contra different
    exact Set.disjoint_left.mp (disjoint i j different) first second
  refine ⟨fun i => ⟨f i, ⟨inside i, vanishes i⟩, ?_⟩, fun z zero => ?_, ?_⟩
  · rintro z ⟨member, zero⟩
    obtain ⟨j, rfl⟩ := listed z zero
    rw [apart member (inside j)]
  · obtain ⟨i, rfl⟩ := listed z zero
    exact ⟨i, inside i, fun j member => apart member (inside i)⟩
  · have distinct : p.roots.Nodup := by
      rw [← Multiset.toFinset_card_eq_card_iff_nodup]
      rw [← whole, counted] at few ⊢
      exact le_antisymm few bound
    exact (nodup_roots_iff_of_splits nonzero (IsAlgClosed.splits p)).mp distinct

end PhyNspire.Lib.Pellet

import Mathlib.Analysis.SpecialFunctions.Gamma.Digamma

/-!
Integer shifts of the gamma and digamma functions, and their values at integers and half-integers. A count
of factors may be negative: then they run downwards and the product is inverted.
-/

namespace PhyNspire.Lib.GammaShifts
open Finset

section Rising
variable {K : Type} [Field K]

def below (a : K) (n : ℕ) : K := ∏ i ∈ range n, (a - (i + 1))

/-- The Pochhammer symbol of an integer count. -/
def rising (a : K) (count : ℤ) : K :=
  if 0 ≤ count then ∏ i ∈ range count.natAbs, (a + i) else (below a count.natAbs)⁻¹

theorem rising_natCast (a : K) (n : ℕ) : rising a n = ∏ i ∈ range n, (a + i) := by
  rw [rising, if_pos (Int.natCast_nonneg n), Int.natAbs_natCast]

theorem rising_neg {a : K} {count : ℤ} (negative : count < 0) : rising a count = (below a count.natAbs)⁻¹ :=
  if_neg (not_le.mpr negative)

@[simp] theorem below_cast [CharZero K] (a : ℚ) (n : ℕ) : ((below a n : ℚ) : K) = below (a : K) n := by
  unfold below
  push_cast
  rfl

@[simp] theorem rising_cast [CharZero K] (a : ℚ) (count : ℤ) : ((rising a count : ℚ) : K) = rising (a : K) count := by
  unfold rising
  split_ifs
  · push_cast
    rfl
  · rw [Rat.cast_inv, below_cast]

theorem rising_one (n : ℕ) : rising (1 : ℚ) n = n.factorial := by
  rw [rising_natCast]
  induction n with
  | zero => rfl
  | succ n ih =>
    rw [prod_range_succ, ih, Nat.factorial_succ]
    push_cast
    ring

theorem below_eq_rising (a : K) (n : ℕ) : below a n = ∏ i ∈ range n, (a - n + i) := by
  unfold below
  rw [← prod_range_reflect]
  refine prod_congr rfl fun i inside => ?_
  have small : i + 1 ≤ n := mem_range.mp inside
  have place : ((n - 1 - i : ℕ) : K) = (n : K) - (i + 1) := by
    rw [Nat.sub_sub, add_comm 1 i, Nat.cast_sub small]
    push_cast
    ring
  rw [place]
  ring

end Rising

section Shifts

/-- The poles of the gamma function are left out. -/
def Regular (z : ℂ) : Prop := ∀ m : ℕ, z ≠ -m

variable {z : ℂ}

theorem Regular.add (regular : Regular z) (n : ℕ) : Regular (z + n) := by
  intro m pole
  apply regular (m + n)
  rw [eq_sub_of_add_eq pole]
  push_cast
  ring

theorem Regular.ne_zero (regular : Regular z) (i : ℕ) : z + i ≠ 0 := by
  have apart := regular.add i 0
  rwa [Nat.cast_zero, neg_zero] at apart

theorem regular_natCast_succ (n : ℕ) : Regular (n + 1) := by
  intro m pole
  have sum : ((n + 1 + m : ℕ) : ℂ) = 0 := by
    push_cast
    rw [pole, neg_add_cancel]
  have zero := Nat.cast_eq_zero.mp sum
  omega

theorem regular_half : Regular (1 / 2) := by
  intro m pole
  have sum : ((1 + 2 * m : ℕ) : ℂ) = 0 := by
    push_cast
    linear_combination 2 * pole
  have zero := Nat.cast_eq_zero.mp sum
  omega

theorem Gamma_add_natCast (regular : Regular z) (n : ℕ) :
    Complex.Gamma (z + n) = Complex.Gamma z * ∏ i ∈ range n, (z + i) := by
  induction n with
  | zero => rw [Nat.cast_zero, add_zero, range_zero, prod_empty, mul_one]
  | succ n ih =>
    rw [Nat.cast_succ, ← add_assoc, Complex.Gamma_add_one _ (regular.ne_zero n), ih, prod_range_succ]
    ring

theorem digamma_add_natCast (regular : Regular z) (n : ℕ) :
    Complex.digamma (z + n) = Complex.digamma z + ∑ i ∈ range n, (z + i)⁻¹ := by
  induction n with
  | zero => rw [Nat.cast_zero, add_zero, range_zero, sum_empty, add_zero]
  | succ n ih =>
    rw [Nat.cast_succ, ← add_assoc, Complex.digamma_apply_add_one _ (regular.add n), ih, sum_range_succ, add_assoc]

theorem Gamma_ratio {a : ℂ} {count : ℤ} (regular : Regular a) (regular' : Regular (a + count)) :
    Complex.Gamma (a + count) / Complex.Gamma a = rising a count := by
  obtain ⟨n, rfl | rfl⟩ := count.eq_nat_or_neg
  · rw [rising_natCast, Int.cast_natCast, Gamma_add_natCast regular, mul_div_cancel_left₀ _ (Complex.Gamma_ne_zero regular)]
  · rw [Int.cast_neg, Int.cast_natCast] at regular' ⊢
    have shifted := Gamma_add_natCast regular' n
    rw [neg_add_cancel_right] at shifted
    have product : rising a (-n) = (∏ i ∈ range n, (a + -n + i))⁻¹ := by
      obtain rfl | positive := Nat.eq_zero_or_pos n
      · rw [Nat.cast_zero, neg_zero, rising, if_pos le_rfl, Int.natAbs_zero, range_zero, prod_empty, prod_empty, inv_one]
      · rw [rising_neg (by omega), Int.natAbs_neg, Int.natAbs_natCast, below_eq_rising]
        rfl
    rw [product, shifted, div_mul_cancel_left₀ (Complex.Gamma_ne_zero regular')]

theorem rising_ne_zero (regular : Regular z) (n : ℕ) : rising z n ≠ 0 := by
  rw [rising_natCast, prod_ne_zero_iff]
  exact fun i _ => regular.ne_zero i

theorem Gamma_add_rising (regular : Regular z) (n : ℕ) : Complex.Gamma (z + n) = Complex.Gamma z * rising z n := by
  rw [rising_natCast, Gamma_add_natCast regular]

theorem digamma_sub_natCast {w : ℂ} (n : ℕ) (regular : Regular (w - n)) :
    Complex.digamma (w - n) = Complex.digamma w - ∑ i ∈ range n, (w - (i + 1))⁻¹ := by
  have shifted := digamma_add_natCast regular n
  rw [sub_add_cancel] at shifted
  rw [shifted, ← sum_range_reflect, add_sub_assoc, eq_comm, add_eq_left, sub_eq_zero]
  refine sum_congr rfl fun i inside => ?_
  have small : i + 1 ≤ n := mem_range.mp inside
  have place : ((n - 1 - i : ℕ) : ℂ) = (n : ℂ) - (i + 1) := by
    rw [Nat.sub_sub, add_comm 1 i, Nat.cast_sub small]
    push_cast
    ring
  rw [place]
  congr 1
  ring

theorem harmonic_eq_sum (n : ℕ) : harmonic n = ∑ i ∈ range n, (((i + 1 : ℕ) : ℚ))⁻¹ := rfl

theorem digamma_natCast_succ (n : ℕ) : Complex.digamma (n + 1) = harmonic n - Real.eulerMascheroniConstant := by
  have first : Regular 1 := by
    have regular := regular_natCast_succ 0
    rwa [Nat.cast_zero, zero_add] at regular
  rw [add_comm, digamma_add_natCast first, Complex.digamma_one, harmonic_eq_sum, neg_add_eq_sub]
  push_cast
  congr 1
  exact sum_congr rfl fun i _ => by rw [add_comm]

theorem harmonic_double (n : ℕ) :
    2 * harmonic (2 * n) - harmonic n = ∑ i ∈ range n, (1 / 2 + (i : ℚ))⁻¹ := by
  induction n with
  | zero => rw [mul_zero, harmonic_zero, mul_zero, sub_zero, range_zero, sum_empty]
  | succ n ih =>
    have even : harmonic (2 * (n + 1)) = harmonic (2 * n) + (↑(2 * n + 1))⁻¹ + (↑(2 * n + 1 + 1))⁻¹ := by
      rw [show 2 * (n + 1) = 2 * n + 1 + 1 by ring, harmonic_succ, harmonic_succ]
    have odd : (2 * n + 1 : ℚ) ≠ 0 := by positivity
    have next : (n + 1 : ℚ) ≠ 0 := by positivity
    have half : (1 / 2 + n : ℚ) ≠ 0 := by positivity
    rw [even, harmonic_succ, sum_range_succ, ← ih]
    push_cast
    field_simp
    ring

theorem digamma_half (n : ℕ) : Complex.digamma (1 / 2 + n) =
    (2 * harmonic (2 * n) - harmonic n : ℚ) - Real.eulerMascheroniConstant - 2 * Complex.log 2 := by
  rw [digamma_add_natCast regular_half, Complex.digamma_one_half, harmonic_double]
  push_cast
  ring

theorem Gamma_half (n : ℕ) : Complex.Gamma (1 / 2 + n) = rising (1 / 2 : ℂ) n * (Real.pi : ℂ) ^ (1 / 2 : ℂ) := by
  rw [Gamma_add_natCast regular_half, Complex.Gamma_one_half_eq, rising_natCast, mul_comm]

theorem harmonic_strictMono : StrictMono harmonic := by
  refine strictMono_nat_of_lt_succ fun n => ?_
  rw [harmonic_succ]
  have positive : (0 : ℚ) < (↑(n + 1))⁻¹ := by positivity
  exact lt_add_of_pos_right _ positive

end Shifts

end PhyNspire.Lib.GammaShifts

import Mathlib.RingTheory.PowerSeries.Substitution
import PhyNspire.Lib.CoefficientLists

/-!
Power series up to an order. Two series agree up to order `n` when their coefficients below `n` do;
sums, products and compositions of series that agree agree. A list of coefficients is a series.
-/

namespace PhyNspire.Lib.TruncatedSeries
open PowerSeries

variable {R : Type} [CommRing R] {n m v : Nat} {F F' G G' : R⟦X⟧}

/-- The same coefficients below `n`. -/
def Agree (n : Nat) (F G : R⟦X⟧) : Prop := X ^ n ∣ F - G

theorem agree_iff : Agree n F G ↔ ∀ k < n, coeff k F = coeff k G := by
  simp only [Agree, X_pow_dvd_iff, map_sub, sub_eq_zero]

theorem Agree.refl (n : Nat) (F : R⟦X⟧) : Agree n F F := by simp [Agree]

theorem Agree.symm (agree : Agree n F G) : Agree n G F := by
  rw [Agree, ← neg_sub, dvd_neg]
  exact agree

theorem Agree.trans (first : Agree n F G) (second : Agree n G G') : Agree n F G' := by
  have sum := dvd_add first second
  rwa [sub_add_sub_cancel] at sum

theorem Agree.mono (agree : Agree n F G) (less : m ≤ n) : Agree m F G := (pow_dvd_pow X less).trans agree

theorem Agree.add (first : Agree n F F') (second : Agree n G G') : Agree n (F + G) (F' + G') := by
  have sum := dvd_add first second
  rwa [sub_add_sub_comm] at sum

theorem Agree.mul (first : Agree n F F') (second : Agree n G G') : Agree n (F * G) (F' * G') := by
  have split : F * G - F' * G' = (F - F') * G + F' * (G - G') := by ring
  rw [Agree, split]
  exact dvd_add (first.mul_right G) (second.mul_left F')

theorem Agree.pow (agree : Agree n F G) (e : Nat) : Agree n (F ^ e) (G ^ e) := by
  induction e with
  | zero => rw [pow_zero, pow_zero]; exact .refl n 1
  | succ e ih => rw [pow_succ, pow_succ]; exact ih.mul agree

theorem Agree.sum {ι : Type} {places : Finset ι} {f g : ι → R⟦X⟧} (agree : ∀ i ∈ places, Agree n (f i) (g i)) :
    Agree n (∑ i ∈ places, f i) (∑ i ∈ places, g i) := by
  rw [Agree, ← Finset.sum_sub_distrib]
  exact Finset.dvd_sum agree

theorem agree_zero (late : X ^ n ∣ F) : Agree n F 0 := by
  rwa [Agree, sub_zero]

theorem Agree.dvd (agree : Agree n F G) (less : v ≤ n) (divides : X ^ v ∣ G) : X ^ v ∣ F := by
  have sum := dvd_add (agree.mono less) divides
  rwa [sub_add_cancel] at sum

theorem agree_subst (divides : X ^ v ∣ G) (positive : 0 < v) :
    Agree (n * v) (F.subst G) (∑ e ∈ Finset.range n, C (coeff e F) * G ^ e) := by
  have constant : constantCoeff G = 0 := by
    rw [← coeff_zero_eq_constantCoeff_apply]
    exact X_pow_dvd_iff.mp divides 0 positive
  rw [agree_iff]
  intro k below
  rw [coeff_subst' (HasSubst.of_constantCoeff_zero' constant), map_sum]
  have support : (Function.support fun e => coeff e F • coeff k (G ^ e)) ⊆ Finset.range n := by
    intro e inside
    rw [Finset.coe_range]
    by_contra beyond
    apply inside
    have late : X ^ (v * e) ∣ G ^ e := by
      rw [pow_mul]
      exact pow_dvd_pow_of_dvd divides e
    have far : k < v * e := by
      have more : v * n ≤ v * e := Nat.mul_le_mul_left v (Nat.le_of_not_lt beyond)
      rw [Nat.mul_comm] at below
      omega
    dsimp only
    rw [X_pow_dvd_iff.mp late k far, smul_zero]
  rw [finsum_eq_sum_of_support_subset _ support]
  apply Finset.sum_congr rfl
  intro e _
  rw [coeff_C_mul, smul_eq_mul]

open CoefficientLists

noncomputable def listed (words : List R) : R⟦X⟧ := (ofCoefficients words : Polynomial R)

@[simp] theorem listed_nil : listed ([] : List R) = 0 := by simp [listed]

@[simp] theorem listed_cons (a : R) (rest : List R) : listed (a :: rest) = C a + X * listed rest := by simp [listed]

theorem coeff_listed (words : List R) (k : Nat) : coeff k (listed words) = words.getD k 0 := by
  rw [listed, Polynomial.coeff_coe, coeff_ofCoefficients]

theorem listed_append (low high : List R) : listed (low ++ high) = listed low + X ^ low.length * listed high := by
  simp [listed, ofCoefficients_append]

theorem listed_replicate_zero (count : Nat) : listed (List.replicate count (0 : R)) = 0 := by
  simp [listed, ofCoefficients_replicate_zero]

theorem listed_set {words : List R} {i : Nat} (inside : i < words.length) (a : R) :
    listed (words.set i a) = listed words + C (a - words.getD i 0) * X ^ i := by
  simp [listed, ofCoefficients_set inside]

theorem listed_map_mul (a : R) (words : List R) : listed (words.map (a * ·)) = C a * listed words := by
  simp [listed, ofCoefficients_map_mul]

end PhyNspire.Lib.TruncatedSeries

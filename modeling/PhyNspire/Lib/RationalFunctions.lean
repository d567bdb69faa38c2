import Mathlib.Algebra.CharP.Algebra
import Mathlib.Algebra.MvPolynomial.PDeriv
import Mathlib.Algebra.TrivSqZeroExt.Basic
import Mathlib.RingTheory.Derivation.Lie
import Mathlib.RingTheory.MvPolynomial.Basic

/-!
Rational functions and their partial derivatives. A derivation of a domain extends to its
fraction field in one way, by the quotient rule. The quotient rule is what it means for
`a ↦ a + ε · da` to be a ring homomorphism into the dual numbers, where every
nonzero `a` stays invertible, so the extension is the extension of that homomorphism.
-/

namespace PhyNspire.Lib.RationalFunctions
open TrivSqZeroExt

section Quotient

variable {R A K : Type*} [CommRing R] [CommRing A] [Algebra R A] [IsDomain A] [Field K] [Algebra A K]
  [IsFractionRing A K]

/-- `a ↦ a + ε · da`. -/
noncomputable def thickened (d : Derivation R A A) : A →+* TrivSqZeroExt K K where
  toFun a := inl (algebraMap A K a) + inr (algebraMap A K (d a))
  map_one' := by rw [d.map_one_eq_zero, map_one, map_zero, inl_one, inr_zero, add_zero]
  map_mul' a b := by
    refine TrivSqZeroExt.ext ?_ ?_
    · simp only [fst_add, fst_inl, fst_inr, fst_mul, add_zero, map_mul]
    · simp only [snd_add, snd_inl, snd_inr, snd_mul, fst_add, fst_inl, fst_inr, add_zero, zero_add, Derivation.leibniz,
        map_add, smul_eq_mul, map_mul, MulOpposite.smul_eq_mul_unop, MulOpposite.unop_op]
      ring
  map_zero' := by rw [map_zero, map_zero, map_zero, inl_zero, inr_zero, add_zero]
  map_add' a b := by
    rw [map_add, map_add, map_add, inl_add, inr_add]
    exact add_add_add_comm _ _ _ _

theorem thickened_isUnit (d : Derivation R A A) (b : nonZeroDivisors A) : IsUnit (thickened (K := K) d b) := by
  rw [isUnit_iff_isUnit_fst]
  have shape : (thickened (K := K) d b).fst = algebraMap A K b := by
    simp only [thickened, RingHom.coe_mk, MonoidHom.coe_mk, OneHom.coe_mk, fst_add, fst_inl, fst_inr, add_zero]
  rw [shape]
  exact IsLocalization.map_units K b

/-- The quotient rule, as a ring homomorphism. -/
noncomputable def thickenedQuotient (d : Derivation R A A) : K →+* TrivSqZeroExt K K :=
  IsLocalization.lift (thickened_isUnit (K := K) d)

theorem thickenedQuotient_algebraMap (d : Derivation R A A) (a : A) :
    thickenedQuotient (K := K) d (algebraMap A K a) = inl (algebraMap A K a) + inr (algebraMap A K (d a)) :=
  IsLocalization.lift_eq _ a

theorem fst_thickenedQuotient (d : Derivation R A A) (x : K) : (thickenedQuotient (K := K) d x).fst = x := by
  have same : ((fstHom ℤ K K).toRingHom.comp (thickenedQuotient (K := K) d)) = RingHom.id K := by
    refine IsLocalization.ringHom_ext (nonZeroDivisors A) (RingHom.ext (fun a => ?_))
    change (thickenedQuotient (K := K) d (algebraMap A K a)).fst = algebraMap A K a
    rw [thickenedQuotient_algebraMap, fst_add, fst_inl, fst_inr, add_zero]
  exact congrArg (fun f : K →+* K => f x) same

noncomputable def extended (d : Derivation R A A) : Derivation ℤ K K :=
  Derivation.mk'
    { toFun := fun x => (thickenedQuotient (K := K) d x).snd
      map_add' := fun x y => by rw [map_add, snd_add]
      map_smul' := fun n x => by
        rw [map_zsmul, RingHom.id_apply]
        exact map_zsmul (sndHom K K) n _ }
    (fun x y => by
      change (thickenedQuotient (K := K) d (x * y)).snd = _
      rw [map_mul, snd_mul, fst_thickenedQuotient, fst_thickenedQuotient, op_smul_eq_smul]
      rfl)

theorem extended_algebraMap (d : Derivation R A A) (a : A) :
    extended (K := K) d (algebraMap A K a) = algebraMap A K (d a) := by
  change (thickenedQuotient (K := K) d (algebraMap A K a)).snd = _
  rw [thickenedQuotient_algebraMap, snd_add, snd_inl, snd_inr, zero_add]

theorem derivation_eq_zero (D : Derivation ℤ K K) (vanishes : ∀ a : A, D (algebraMap A K a) = 0) (x : K) : D x = 0 := by
  obtain ⟨a, b, nonzero, rfl⟩ := IsFractionRing.div_surjective (A := A) x
  have unit : algebraMap A K b ≠ 0 := IsFractionRing.to_map_ne_zero_of_mem_nonZeroDivisors nonzero
  have product := D.leibniz (algebraMap A K b) (algebraMap A K a / algebraMap A K b)
  rw [mul_div_cancel₀ _ unit, vanishes, vanishes, smul_zero, add_zero, smul_eq_mul] at product
  exact (mul_eq_zero.mp product.symm).resolve_left unit

theorem extended_comm {d e : Derivation R A A} (commute : ∀ a, d (e a) = e (d a)) (x : K) :
    extended (K := K) d (extended e x) = extended e (extended d x) := by
  have bracket := derivation_eq_zero (A := A) ⁅extended (K := K) d, extended e⁆ (fun a => by
    rw [Derivation.commutator_apply, extended_algebraMap, extended_algebraMap, extended_algebraMap,
      extended_algebraMap, commute, sub_self]) x
  rw [Derivation.commutator_apply] at bracket
  exact sub_eq_zero.mp bracket

end Quotient

variable {σ : Type*}

def RationalFunction (σ : Type*) : Type _ := FractionRing (MvPolynomial σ ℚ)

noncomputable instance : Field (RationalFunction σ) := inferInstanceAs (Field (FractionRing (MvPolynomial σ ℚ)))

noncomputable instance : Algebra (MvPolynomial σ ℚ) (RationalFunction σ) :=
  inferInstanceAs (Algebra (MvPolynomial σ ℚ) (FractionRing (MvPolynomial σ ℚ)))

instance : IsFractionRing (MvPolynomial σ ℚ) (RationalFunction σ) :=
  inferInstanceAs (IsFractionRing (MvPolynomial σ ℚ) (FractionRing (MvPolynomial σ ℚ)))

instance : CharZero (RationalFunction σ) :=
  charZero_of_injective_algebraMap (IsFractionRing.injective (MvPolynomial σ ℚ) (RationalFunction σ))

theorem pderiv_comm (i j : σ) (p : MvPolynomial σ ℚ) :
    MvPolynomial.pderiv i (MvPolynomial.pderiv j p) = MvPolynomial.pderiv j (MvPolynomial.pderiv i p) := by
  classical
  let D (k : σ) : Derivation ℚ (MvPolynomial σ ℚ) (MvPolynomial σ ℚ) := MvPolynomial.pderiv k
  have bracket : ⁅D i, D j⁆ = 0 := by
    refine MvPolynomial.derivation_ext (fun k => ?_)
    rw [Derivation.commutator_apply, MvPolynomial.pderiv_X, MvPolynomial.pderiv_X]
    simp only [Pi.single_apply]
    split_ifs <;> simp [D]
  have applied : ⁅D i, D j⁆ p = 0 := by rw [bracket, Derivation.zero_apply]
  rw [Derivation.commutator_apply] at applied
  exact sub_eq_zero.mp applied

noncomputable def partialDerivative (i : σ) : Derivation ℤ (RationalFunction σ) (RationalFunction σ) :=
  extended (MvPolynomial.pderiv i : Derivation ℚ (MvPolynomial σ ℚ) (MvPolynomial σ ℚ))

theorem partialDerivative_algebraMap (i : σ) (p : MvPolynomial σ ℚ) :
    partialDerivative i (algebraMap (MvPolynomial σ ℚ) (RationalFunction σ) p) =
      algebraMap (MvPolynomial σ ℚ) (RationalFunction σ) (MvPolynomial.pderiv i p) := extended_algebraMap _ p

theorem partialDerivative_comm (i j : σ) (x : RationalFunction σ) :
    partialDerivative i (partialDerivative j x) = partialDerivative j (partialDerivative i x) :=
  extended_comm (fun p => pderiv_comm i j p) x

end PhyNspire.Lib.RationalFunctions

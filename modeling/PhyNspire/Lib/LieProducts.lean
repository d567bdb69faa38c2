import PhyNspire.Lib.LieForms

/-!
The product of a Lie algebra on coefficient vectors over a basis. The identities of the
structure constants are quadratic identities between basis elements; the adjoint action is
linear in the element, so they extend to all elements through the adjoint matrices.
-/

namespace PhyNspire.Lib.LieProducts
open LieForms Matrix

variable {κ K : Type*} [Fintype κ] [CommRing K] (f : κ → κ → κ → K)

/-- The product of two elements, `f a b c` being the part of `[a, b]` along `c`. -/
def product (x y : κ → K) : κ → K := fun c => ∑ a, ∑ b, x a * y b * f a b c

def action (x : κ → K) : Matrix κ κ K := ∑ a, x a • adjoint f a

def killingForm (x y : κ → K) : K := ∑ a, ∑ b, x a * y b * killing f a b

variable {f}

theorem action_apply (x : κ → K) (c b : κ) : action f x c b = ∑ a, x a * f a b c := by
  unfold action
  rw [Matrix.sum_apply]
  rfl

theorem product_eq_mulVec (x y : κ → K) : product f x y = action f x *ᵥ y := by
  funext c
  calc product f x y c = ∑ b, ∑ a, x a * y b * f a b c := Finset.sum_comm
    _ = ∑ b, (∑ a, x a * f a b c) * y b := Finset.sum_congr rfl (fun b _ => by
        rw [Finset.sum_mul]
        exact Finset.sum_congr rfl (fun a _ => mul_right_comm _ _ _))
    _ = (action f x *ᵥ y) c := Finset.sum_congr rfl (fun b _ => congrArg (· * y b) (action_apply x c b).symm)

theorem action_add (x y : κ → K) : action f (x + y) = action f x + action f y := by
  unfold action
  simp only [Pi.add_apply, add_smul, Finset.sum_add_distrib]

theorem action_smul (k : K) (x : κ → K) : action f (k • x) = k • action f x := by
  unfold action
  simp only [Pi.smul_apply, smul_assoc, Finset.smul_sum]

theorem product_linear_left (k : K) (x x' y : κ → K) :
    product f (k • x + x') y = k • product f x y + product f x' y := by
  rw [product_eq_mulVec, product_eq_mulVec, product_eq_mulVec, action_add, action_smul, Matrix.add_mulVec, Matrix.smul_mulVec]

theorem product_linear_right (k : K) (x y y' : κ → K) :
    product f x (k • y + y') = k • product f x y + product f x y' := by
  rw [product_eq_mulVec, product_eq_mulVec, product_eq_mulVec, Matrix.mulVec_add, Matrix.mulVec_smul]

theorem killingForm_eq_trace (x y : κ → K) : killingForm f x y = Matrix.trace (action f x * action f y) := by
  unfold killingForm action
  rw [Finset.sum_mul_sum, Matrix.trace_sum]
  refine Finset.sum_congr rfl (fun a _ => ?_)
  rw [Matrix.trace_sum]
  refine Finset.sum_congr rfl (fun b _ => ?_)
  rw [Matrix.smul_mul, Matrix.mul_smul, Matrix.trace_smul, Matrix.trace_smul, killing_eq_trace, smul_eq_mul, smul_eq_mul,
    mul_assoc]

theorem killingForm_comm (x y : κ → K) : killingForm f x y = killingForm f y x := by
  rw [killingForm_eq_trace, killingForm_eq_trace, Matrix.trace_mul_comm]

variable (lie : IsLie f)
include lie

theorem product_comm (x y : κ → K) : product f x y = -product f y x := by
  funext c
  calc product f x y c = ∑ a, ∑ b, -(y b * x a * f b a c) :=
        Finset.sum_congr rfl (fun a _ => Finset.sum_congr rfl (fun b _ => by
          rw [eq_neg_of_add_eq_zero_left (lie.antisymmetric a b c)]
          ring))
    _ = ∑ b, ∑ a, -(y b * x a * f b a c) := Finset.sum_comm
    _ = -product f y x c := by
        unfold product
        simp only [Finset.sum_neg_distrib]

theorem action_product (x y : κ → K) :
    action f (product f x y) = action f x * action f y - action f y * action f x := by
  have collected : action f (product f x y) = ∑ a, ∑ b, (x a * y b) • ∑ c, f a b c • adjoint f c := by
    unfold action product
    simp only [Finset.sum_smul, Finset.smul_sum, smul_smul]
    rw [Finset.sum_comm]
    exact Finset.sum_congr rfl (fun a _ => Finset.sum_comm)
  have forward : action f x * action f y = ∑ a, ∑ b, (x a * y b) • (adjoint f a * adjoint f b) := by
    unfold action
    simp only [Finset.sum_mul_sum, Matrix.smul_mul, Matrix.mul_smul, smul_smul]
    exact Finset.sum_congr rfl (fun a _ => Finset.sum_congr rfl (fun b _ => by rw [mul_comm (x a)]))
  have backward : action f y * action f x = ∑ a, ∑ b, (x a * y b) • (adjoint f b * adjoint f a) := by
    unfold action
    simp only [Finset.sum_mul_sum, Matrix.smul_mul, Matrix.mul_smul, smul_smul]
    exact Finset.sum_comm
  rw [collected, forward, backward]
  simp only [adjoint_bracket lie, smul_sub, Finset.sum_sub_distrib]

theorem product_jacobi (x y z : κ → K) :
    product f x (product f y z) + product f y (product f z x) + product f z (product f x y) = 0 := by
  have nested : product f (product f x y) z = product f x (product f y z) - product f y (product f x z) := by
    simp only [product_eq_mulVec (f := f)]
    rw [← product_eq_mulVec x y, action_product lie, Matrix.sub_mulVec, Matrix.mulVec_mulVec, Matrix.mulVec_mulVec]
  have turned : product f y (product f z x) = -product f y (product f x z) := by
    rw [product_comm lie z x, product_eq_mulVec, Matrix.mulVec_neg, ← product_eq_mulVec]
  rw [product_comm lie z (product f x y), nested, turned]
  abel

theorem killingForm_invariant (x y z : κ → K) : killingForm f (product f x y) z = killingForm f x (product f y z) := by
  rw [killingForm_eq_trace, killingForm_eq_trace, action_product lie, action_product lie, Matrix.sub_mul, Matrix.mul_sub,
    Matrix.trace_sub, Matrix.trace_sub, ← Matrix.mul_assoc, ← Matrix.mul_assoc,
    Matrix.trace_mul_cycle (action f x) (action f z)]

/-- What the product, the adjoint action and the Killing form of a Lie algebra obey. -/
structure Laws (f : κ → κ → κ → K) : Prop where
  linear_left : ∀ (k : K) x x' y, product f (k • x + x') y = k • product f x y + product f x' y
  linear_right : ∀ (k : K) x y y', product f x (k • y + y') = k • product f x y + product f x y'
  antisymmetric : ∀ x y, product f x y = -product f y x
  jacobi : ∀ x y z, product f x (product f y z) + product f y (product f z x) + product f z (product f x y) = 0
  commutator : ∀ x y, action f (product f x y) = action f x * action f y - action f y * action f x
  symmetric : ∀ x y, killingForm f x y = killingForm f y x
  invariant : ∀ x y z, killingForm f (product f x y) z = killingForm f x (product f y z)

theorem laws : Laws f where
  linear_left := product_linear_left
  linear_right := product_linear_right
  antisymmetric := product_comm lie
  jacobi := product_jacobi lie
  commutator := action_product lie
  symmetric := killingForm_comm
  invariant := killingForm_invariant lie

omit [Fintype κ] [CommRing K] lie in
theorem isLie_map {R S : Type*} [Fintype κ] [CommRing R] [CommRing S] (φ : R →+* S) {g : κ → κ → κ → R} (lie : IsLie g) :
    IsLie (fun a b c => φ (g a b c)) where
  antisymmetric a b c := by rw [← map_add, lie.antisymmetric, map_zero]
  jacobi a b c e := by
    have carried := congrArg φ (lie.jacobi a b c e)
    simpa only [map_sum, map_add, map_mul, map_zero] using carried

end PhyNspire.Lib.LieProducts

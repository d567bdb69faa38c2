import Mathlib.LinearAlgebra.Matrix.Trace
import Mathlib.Tactic.Module
import PhyNspire.Lib.Exterior

/-!
Forms with values in a Lie algebra, as families of components in a basis. The bracket of two
of them combines the bracket of the algebra with the exterior product, so its laws are the
graded ones; the covariant derivative and the field strength of a connection follow from
them when the structure constants and the coupling are constants for the derivations.
-/

namespace PhyNspire.Lib.LieForms
open Lib.Exterior

variable {κ ι K : Type*} [Fintype κ] [LinearOrder ι] [CommRing K]

def Graded (p : ℕ) (α : κ → Finset ι → K) : Prop := ∀ a, OfDegree p (α a)

/-- The bracket `[α ∧ β]`, `f a b c` being the part of `[a, b]` along `c`. -/
def bracket (f : κ → κ → κ → K) (α β : κ → Finset ι → K) : κ → Finset ι → K := fun c =>
  ∑ a, ∑ b, f a b c • wedge (α a) (β b)

structure IsLie (f : κ → κ → κ → K) : Prop where
  antisymmetric : ∀ a b c, f a b c + f b a c = 0
  jacobi : ∀ a b c e, ∑ d, (f b c d * f a d e + f c a d * f b d e + f a b d * f c d e) = 0

variable {τ : Type*}

theorem wedge_sum_left (t : Finset τ) (α : τ → Finset ι → K) (β : Finset ι → K) :
    wedge (∑ i ∈ t, α i) β = ∑ i ∈ t, wedge (α i) β :=
  map_sum (AddMonoidHom.mk' (fun α => wedge α β) (fun α α' => wedge_add_left α α' β)) α t

theorem wedge_sum_right (t : Finset τ) (α : Finset ι → K) (β : τ → Finset ι → K) :
    wedge α (∑ i ∈ t, β i) = ∑ i ∈ t, wedge α (β i) :=
  map_sum (AddMonoidHom.mk' (fun β => wedge α β) (fun β β' => wedge_add_right α β β')) β t

theorem wedge_function (α : Finset ι → K) {β : Finset ι → K} (function : OfDegree 0 β) : wedge α β = β ∅ • α := by
  funext M
  unfold wedge
  rw [Finset.sum_eq_single M, Finset.sdiff_self, Pi.smul_apply, smul_eq_mul]
  · simp [crossings, mul_comm]
  · intro I member other
    have rest : (M \ I).card ≠ 0 := fun empty => other (Finset.Subset.antisymm (Finset.mem_powerset.mp member)
      (Finset.sdiff_eq_empty_iff_subset.mp (Finset.card_eq_zero.mp empty)))
    rw [function _ rest, mul_zero, mul_zero]
  · exact fun missing => absurd (Finset.mem_powerset_self M) missing

section Bracket

variable (f : κ → κ → κ → K)

theorem bracket_add_left (α α' β : κ → Finset ι → K) : bracket f (α + α') β = bracket f α β + bracket f α' β := by
  funext c
  simp only [bracket, Pi.add_apply, wedge_add_left, smul_add, Finset.sum_add_distrib]

theorem bracket_add_right (α β β' : κ → Finset ι → K) : bracket f α (β + β') = bracket f α β + bracket f α β' := by
  funext c
  simp only [bracket, Pi.add_apply, wedge_add_right, smul_add, Finset.sum_add_distrib]

theorem bracket_smul_left (k : K) (α β : κ → Finset ι → K) : bracket f (k • α) β = k • bracket f α β := by
  funext c
  simp only [bracket, Pi.smul_apply, wedge_smul_left, Finset.smul_sum]
  exact Finset.sum_congr rfl (fun a _ => Finset.sum_congr rfl (fun b _ => smul_comm _ _ _))

theorem bracket_smul_right (k : K) (α β : κ → Finset ι → K) : bracket f α (k • β) = k • bracket f α β := by
  funext c
  simp only [bracket, Pi.smul_apply, wedge_smul_right, Finset.smul_sum]
  exact Finset.sum_congr rfl (fun a _ => Finset.sum_congr rfl (fun b _ => smul_comm _ _ _))

variable {α β : κ → Finset ι → K}

theorem Graded.bracket {p q : ℕ} (first : Graded p α) (second : Graded q β) :
    Graded (p + q) (bracket f α β) := by
  intro c I size
  simp only [LieForms.bracket, Finset.sum_apply, Pi.smul_apply]
  exact Finset.sum_eq_zero (fun a _ => Finset.sum_eq_zero (fun b _ => by
    rw [(first a).wedge (second b) I size, smul_zero]))

theorem bracket_nested (α β γ : κ → Finset ι → K) (e : κ) :
    bracket f α (bracket f β γ) e =
      ∑ a, ∑ b, ∑ c, (∑ d, f b c d * f a d e) • wedge (α a) (wedge (β b) (γ c)) := by
  unfold bracket
  refine Finset.sum_congr rfl (fun a _ => ?_)
  simp only [wedge_sum_right, wedge_smul_right, Finset.smul_sum, Finset.sum_smul, smul_smul]
  rw [Finset.sum_comm]
  refine Finset.sum_congr rfl (fun b _ => ?_)
  rw [Finset.sum_comm]
  exact Finset.sum_congr rfl (fun c _ => Finset.sum_congr rfl (fun d _ => by rw [mul_comm]))

variable {f}

theorem Graded.add {p : ℕ} (first : Graded p α) (second : Graded p β) : Graded p (α + β) :=
  fun a => (first a).add (second a)

theorem Graded.smul {p : ℕ} (first : Graded p α) (k : K) : Graded p (k • α) :=
  fun a I size => by rw [Pi.smul_apply, Pi.smul_apply, first a I size, smul_zero]

variable (lie : IsLie f)
include lie

theorem bracket_comm {p q : ℕ} (first : Graded p α) (second : Graded q β) :
    bracket f α β = -((-1 : K) ^ (p * q) • bracket f β α) := by
  funext c
  unfold bracket
  rw [Pi.neg_apply, Pi.smul_apply, Finset.smul_sum, ← Finset.sum_neg_distrib, Finset.sum_comm]
  refine Finset.sum_congr rfl (fun b _ => ?_)
  rw [Finset.smul_sum, ← Finset.sum_neg_distrib]
  refine Finset.sum_congr rfl (fun a _ => ?_)
  rw [wedge_comm (first a) (second b), eq_neg_of_add_eq_zero_left (lie.antisymmetric a b c), neg_smul,
    smul_comm (f b a c)]

theorem bracket_jacobi {p q r : ℕ} {γ : κ → Finset ι → K} (first : Graded p α) (second : Graded q β)
    (third : Graded r γ) :
    (-1 : K) ^ (p * r) • bracket f α (bracket f β γ) + (-1 : K) ^ (q * p) • bracket f β (bracket f γ α) +
      (-1 : K) ^ (r * q) • bracket f γ (bracket f α β) = 0 := by
  funext e
  have turn (a b c : κ) : (-1 : K) ^ (q * p) • wedge (β b) (wedge (γ c) (α a)) =
      (-1 : K) ^ (p * r) • wedge (α a) (wedge (β b) (γ c)) := by
    rw [← wedge_assoc, wedge_comm ((second b).wedge (third c)) (first a), smul_smul, ← pow_add]
    have parity : q * p + (q + r) * p = p * r + 2 * (q * p) := by ring
    rw [parity, pow_add, pow_mul (-1 : K) 2, neg_one_sq, one_pow, mul_one]
  have turn' (a b c : κ) : (-1 : K) ^ (r * q) • wedge (γ c) (wedge (α a) (β b)) =
      (-1 : K) ^ (p * r) • wedge (α a) (wedge (β b) (γ c)) := by
    rw [wedge_comm (third c) ((first a).wedge (second b)), smul_smul, ← pow_add, wedge_assoc]
    have parity : r * q + r * (p + q) = p * r + 2 * (r * q) := by ring
    rw [parity, pow_add, pow_mul (-1 : K) 2, neg_one_sq, one_pow, mul_one]
  have rotate : bracket f β (bracket f γ α) e =
      ∑ a, ∑ b, ∑ c, (∑ d, f c a d * f b d e) • wedge (β b) (wedge (γ c) (α a)) := by
    rw [bracket_nested]
    calc _ = ∑ b, ∑ a, ∑ c, (∑ d, f c a d * f b d e) • wedge (β b) (wedge (γ c) (α a)) :=
          Finset.sum_congr rfl (fun b _ => Finset.sum_comm)
      _ = _ := Finset.sum_comm
  have rotate' : bracket f γ (bracket f α β) e =
      ∑ a, ∑ b, ∑ c, (∑ d, f a b d * f c d e) • wedge (γ c) (wedge (α a) (β b)) := by
    rw [bracket_nested, Finset.sum_comm]
    exact Finset.sum_congr rfl (fun a _ => Finset.sum_comm)
  rw [Pi.add_apply, Pi.add_apply, Pi.smul_apply, Pi.smul_apply, Pi.smul_apply, rotate, rotate', bracket_nested]
  simp only [Finset.smul_sum, ← Finset.sum_add_distrib]
  refine Finset.sum_eq_zero (fun a _ => Finset.sum_eq_zero (fun b _ => Finset.sum_eq_zero (fun c _ => ?_)))
  rw [smul_comm, smul_comm ((-1 : K) ^ (q * p)), smul_comm ((-1 : K) ^ (r * q)), turn, turn', ← add_smul, ← add_smul,
    ← Finset.sum_add_distrib, ← Finset.sum_add_distrib, lie.jacobi, zero_smul]

end Bracket

def derive (s : Finset ι) (δ : ι → Derivation ℤ K K) (α : κ → Finset ι → K) : κ → Finset ι → K := fun a =>
  exteriorDerivative s δ (α a)

/-- The covariant derivative along the connection `A` with coupling `g`. -/
def covariant (s : Finset ι) (δ : ι → Derivation ℤ K K) (f : κ → κ → κ → K) (g : K) (A ω : κ → Finset ι → K) :
    κ → Finset ι → K := derive s δ ω + g • bracket f A ω

/-- The field strength of a connection, `h` being half the coupling. -/
def strength (s : Finset ι) (δ : ι → Derivation ℤ K K) (f : κ → κ → κ → K) (h : K) (A : κ → Finset ι → K) :
    κ → Finset ι → K := derive s δ A + h • bracket f A A

omit [Fintype κ] in
theorem Graded.derive {p : ℕ} {α : κ → Finset ι → K} (first : Graded p α) (s : Finset ι) (δ : ι → Derivation ℤ K K) :
    Graded (p + 1) (derive s δ α) := fun a => (first a).exteriorDerivative s δ

theorem exteriorDerivative_smul (s : Finset ι) (δ : ι → Derivation ℤ K K) {k : K} (constant : ∀ i ∈ s, δ i k = 0)
    (α : Finset ι → K) : exteriorDerivative s δ (k • α) = k • exteriorDerivative s δ α := by
  funext M
  simp only [exteriorDerivative, Pi.smul_apply, smul_eq_mul]
  rw [Finset.mul_sum]
  refine Finset.sum_congr rfl (fun i axis => ?_)
  unfold extend
  split_ifs
  · simp only [Derivation.leibniz, constant i axis, smul_eq_mul]
    ring
  · rw [mul_zero]

theorem exteriorDerivative_sum (s : Finset ι) (δ : ι → Derivation ℤ K K) (t : Finset τ)
    (α : τ → Finset ι → K) : exteriorDerivative s δ (∑ i ∈ t, α i) = ∑ i ∈ t, exteriorDerivative s δ (α i) :=
  map_sum (AddMonoidHom.mk' (exteriorDerivative s δ) (exteriorDerivative_add s δ)) α t

section Connection

variable {s : Finset ι} {δ : ι → Derivation ℤ K K} {f : κ → κ → κ → K}

omit [Fintype κ] in
theorem derive_add (α β : κ → Finset ι → K) : derive s δ (α + β) = derive s δ α + derive s δ β :=
  funext (fun a => exteriorDerivative_add s δ (α a) (β a))

omit [Fintype κ] in
theorem derive_smul {k : K} (constant : ∀ i ∈ s, δ i k = 0) (α : κ → Finset ι → K) :
    derive s δ (k • α) = k • derive s δ α :=
  funext (fun a => exteriorDerivative_smul s δ constant (α a))

theorem derive_bracket (constant : ∀ a b c, ∀ i ∈ s, δ i (f a b c) = 0) {p q : ℕ} {α β : κ → Finset ι → K}
    (first : Graded p α) (second : Graded q β) :
    derive s δ (bracket f α β) = bracket f (derive s δ α) β + (-1 : K) ^ p • bracket f α (derive s δ β) := by
  funext c
  simp only [derive, bracket, Pi.add_apply, Pi.smul_apply, exteriorDerivative_sum, Finset.smul_sum,
    ← Finset.sum_add_distrib]
  refine Finset.sum_congr rfl (fun a _ => Finset.sum_congr rfl (fun b _ => ?_))
  rw [exteriorDerivative_smul s δ (constant a b c), exteriorDerivative_wedge s δ (first a) (second b), smul_add,
    smul_comm (f a b c)]

variable {A : κ → Finset ι → K}

theorem strength_line {η : κ → Finset ι → K} (lie : IsLie f) (connection : Graded 1 A) (direction : Graded 1 η)
    {h ε : K} (constant : ∀ i ∈ s, δ i ε = 0) :
    strength s δ f h (A + ε • η) =
      strength s δ f h A + ε • covariant s δ f (2 * h) A η + ε ^ 2 • (h • bracket f η η) := by
  have swapped := bracket_comm lie direction connection
  rw [mul_one, pow_one, neg_one_smul, neg_neg] at swapped
  unfold strength covariant
  rw [derive_add, derive_smul constant, bracket_add_left, bracket_add_right, bracket_add_right, bracket_smul_left,
    bracket_smul_left, bracket_smul_right, bracket_smul_right, swapped]
  module

variable (lie : IsLie f) (square : ∀ i j x, δ i (δ j x) = δ j (δ i x))
  (structural : ∀ a b c, ∀ i ∈ s, δ i (f a b c) = 0)
include lie square structural

theorem covariant_covariant {g h : K} (half : g = 2 * h) (constant : ∀ i ∈ s, δ i g = 0) {r : ℕ}
    {ω : κ → Finset ι → K} (connection : Graded 1 A) (graded : Graded r ω) :
    covariant s δ f g A (covariant s δ f g A ω) = g • bracket f (strength s δ f h A) ω := by
  have closed : derive s δ (derive s δ ω) = 0 := funext (fun a => exteriorDerivative_self s δ square (ω a))
  have leibniz := derive_bracket (δ := δ) structural connection graded
  have jacobi := bracket_jacobi lie connection connection graded
  have swapped := bracket_comm lie graded connection
  have swapped' := bracket_comm lie graded (connection.bracket f connection)
  have twice : bracket f (bracket f A A) ω = (2 : K) • bracket f A (bracket f A ω) := by
    have even : (-1 : K) ^ (r * (1 + 1)) = 1 := by rw [mul_comm, pow_mul, neg_one_sq, one_pow]
    have signs : (-1 : K) ^ r * (-1) ^ r = 1 := neg_one_pow_mul_self _
    rw [swapped, swapped', even, one_mul, one_mul, mul_one, ← neg_smul, bracket_smul_right] at jacobi
    have scaled : (-1 : K) ^ r • ((2 : K) • bracket f A (bracket f A ω) - bracket f (bracket f A A) ω) = 0 := by
      rw [← jacobi]
      module
    have whole := congrArg (fun form => (-1 : K) ^ r • form) scaled
    rw [smul_smul, signs, one_smul, smul_zero] at whole
    exact (sub_eq_zero.mp whole).symm
  unfold covariant strength
  rw [derive_add, closed, derive_smul constant, leibniz, bracket_add_right, bracket_smul_right, bracket_add_left,
    bracket_smul_left, twice, half]
  module

theorem bianchi [CharZero K] [NoZeroDivisors K] {g h : K} (half : g = 2 * h) (constant : ∀ i ∈ s, δ i g = 0)
    (connection : Graded 1 A) : covariant s δ f g A (strength s δ f h A) = 0 := by
  have still : ∀ i ∈ s, δ i h = 0 := by
    intro i axis
    have twice := constant i axis
    rw [half, two_mul, map_add, ← two_mul] at twice
    exact (mul_eq_zero.mp twice).resolve_left two_ne_zero
  have closed : derive s δ (derive s δ A) = 0 := funext (fun a => exteriorDerivative_self s δ square (A a))
  have leibniz := derive_bracket (δ := δ) structural connection connection
  have swapped := bracket_comm lie (connection.derive s δ) connection
  have triple : bracket f A (bracket f A A) = 0 := by
    have jacobi := bracket_jacobi lie connection connection connection
    funext a M
    have three := congrFun (congrFun jacobi a) M
    simp only [Pi.add_apply, Pi.smul_apply, Pi.zero_apply, smul_eq_mul, mul_one, pow_one] at three ⊢
    have scaled : (3 : K) * bracket f A (bracket f A A) a M = 0 := by linear_combination -three
    exact (mul_eq_zero.mp scaled).resolve_left (OfNat.ofNat_ne_zero 3)
  unfold covariant strength
  rw [derive_add, closed, derive_smul still, leibniz, bracket_add_right, bracket_smul_right, triple, swapped, half]
  module

end Connection

def killing (f : κ → κ → κ → K) (a b : κ) : K := ∑ c, ∑ d, f a d c * f b c d

def adjoint (f : κ → κ → κ → K) (a : κ) : Matrix κ κ K := Matrix.of (fun c d => f a d c)

section Killing

variable {f : κ → κ → κ → K}

theorem killing_eq_trace (a b : κ) : killing f a b = Matrix.trace (adjoint f a * adjoint f b) := rfl

theorem killing_comm (a b : κ) : killing f a b = killing f b a := Matrix.trace_mul_comm _ _

variable (lie : IsLie f)
include lie

theorem adjoint_bracket (a b : κ) :
    ∑ d, f a b d • adjoint f d = adjoint f a * adjoint f b - adjoint f b * adjoint f a := by
  ext e c
  have jacobi := lie.jacobi a b c e
  simp only [Finset.sum_add_distrib] at jacobi
  have first : ∑ d, f c a d * f b d e = -∑ d, f a c d * f b d e := by
    rw [← Finset.sum_neg_distrib]
    exact Finset.sum_congr rfl (fun d _ => by rw [eq_neg_of_add_eq_zero_left (lie.antisymmetric c a d), neg_mul])
  have second : ∑ d, f a b d * f c d e = -∑ d, f a b d * f d c e := by
    rw [← Finset.sum_neg_distrib]
    exact Finset.sum_congr rfl (fun d _ => by rw [eq_neg_of_add_eq_zero_left (lie.antisymmetric c d e), mul_neg])
  simp only [adjoint, Matrix.sum_apply, Matrix.smul_apply, Matrix.sub_apply, Matrix.mul_apply, Matrix.of_apply,
    smul_eq_mul]
  have swap (x y : κ) : ∑ d, f x d e * f y c d = ∑ d, f y c d * f x d e :=
    Finset.sum_congr rfl (fun d _ => mul_comm _ _)
  rw [swap a b, swap b a]
  linear_combination first + second - jacobi

theorem killing_invariant (a b c : κ) :
    ∑ e, f c a e * killing f e b + ∑ e, f c b e * killing f a e = 0 := by
  have left : ∑ e, f c a e * killing f e b = Matrix.trace ((∑ e, f c a e • adjoint f e) * adjoint f b) := by
    simp only [killing_eq_trace, Finset.sum_mul, Matrix.trace_sum, Matrix.smul_mul, Matrix.trace_smul, smul_eq_mul]
  have right : ∑ e, f c b e * killing f a e = Matrix.trace (adjoint f a * ∑ e, f c b e • adjoint f e) := by
    simp only [killing_eq_trace, Finset.mul_sum, Matrix.trace_sum, Matrix.mul_smul, Matrix.trace_smul, smul_eq_mul]
  rw [left, right, adjoint_bracket lie, adjoint_bracket lie, Matrix.sub_mul, Matrix.mul_sub, Matrix.trace_sub,
    Matrix.trace_sub, ← Matrix.mul_assoc, ← Matrix.mul_assoc, Matrix.trace_mul_cycle (adjoint f a) (adjoint f b),
    sub_add_sub_cancel, sub_self]

/-- Against a symmetric pairing the action of an element on one side of the Killing form gives nothing. -/
theorem killing_action [CharZero K] [NoZeroDivisors K] {σ : κ → κ → Finset ι → K} (symmetric : ∀ a b, σ a b = σ b a)
    (d : κ) : ∑ a, ∑ b, killing f a b • ∑ c, f c d a • σ c b = 0 := by
  have skew (b c : κ) : ∑ a, killing f a b * f c d a = -∑ a, killing f a c * f b d a := by
    have invariant := killing_invariant lie c b d
    have left : ∑ a, killing f a b * f c d a = -∑ e, f d c e * killing f e b := by
      rw [← Finset.sum_neg_distrib]
      exact Finset.sum_congr rfl (fun a _ => by rw [eq_neg_of_add_eq_zero_left (lie.antisymmetric c d a)]; ring)
    have right : ∑ a, killing f a c * f b d a = -∑ e, f d b e * killing f c e := by
      rw [← Finset.sum_neg_distrib]
      exact Finset.sum_congr rfl (fun a _ => by
        rw [eq_neg_of_add_eq_zero_left (lie.antisymmetric b d a), killing_comm]; ring)
    linear_combination left + right - invariant
  have collected : ∑ a, ∑ b, killing f a b • ∑ c, f c d a • σ c b =
      ∑ b, ∑ c, (∑ a, killing f a b * f c d a) • σ c b := by
    simp only [Finset.smul_sum, smul_smul, Finset.sum_smul]
    rw [Finset.sum_comm]
    exact Finset.sum_congr rfl (fun b _ => Finset.sum_comm)
  have opposite : ∑ b, ∑ c, (∑ a, killing f a b * f c d a) • σ c b =
      -∑ b, ∑ c, (∑ a, killing f a b * f c d a) • σ c b := by
    conv_rhs => rw [Finset.sum_comm]
    rw [← Finset.sum_neg_distrib]
    refine Finset.sum_congr rfl (fun b _ => ?_)
    rw [← Finset.sum_neg_distrib]
    exact Finset.sum_congr rfl (fun c _ => by rw [skew b c, symmetric c b, neg_smul])
  rw [collected]
  funext I
  have twice := congrFun opposite I
  rw [Pi.neg_apply] at twice
  exact (mul_eq_zero.mp (show (2 : K) * _ = 0 by linear_combination twice)).resolve_left two_ne_zero

end Killing

/-- The density that an invariant form `h` on the algebra and a dual give. -/
def density (h : κ → κ → K) (star : (Finset ι → K) →ₗ[K] (Finset ι → K)) (F G : κ → Finset ι → K) : Finset ι → K :=
  ∑ a, ∑ b, h a b • wedge (F a) (star (G b))

section Density

variable (h : κ → κ → K) (star : (Finset ι → K) →ₗ[K] (Finset ι → K))

theorem density_add_left (F F' G : κ → Finset ι → K) :
    density h star (F + F') G = density h star F G + density h star F' G := by
  simp only [density, Pi.add_apply, wedge_add_left, smul_add, Finset.sum_add_distrib]

theorem density_add_right (F G G' : κ → Finset ι → K) :
    density h star F (G + G') = density h star F G + density h star F G' := by
  simp only [density, Pi.add_apply, map_add, wedge_add_right, smul_add, Finset.sum_add_distrib]

theorem density_smul_left (k : K) (F G : κ → Finset ι → K) : density h star (k • F) G = k • density h star F G := by
  simp only [density, Pi.smul_apply, wedge_smul_left, Finset.smul_sum]
  exact Finset.sum_congr rfl (fun a _ => Finset.sum_congr rfl (fun b _ => smul_comm _ _ _))

theorem density_smul_right (k : K) (F G : κ → Finset ι → K) : density h star F (k • G) = k • density h star F G := by
  simp only [density, Pi.smul_apply, map_smul, wedge_smul_right, Finset.smul_sum]
  exact Finset.sum_congr rfl (fun a _ => Finset.sum_congr rfl (fun b _ => smul_comm _ _ _))

theorem density_path (ε : K) (F η ζ : κ → Finset ι → K) :
    density h star (F + ε • η + ε ^ 2 • ζ) (F + ε • η + ε ^ 2 • ζ) =
      density h star F F + ε • (density h star η F + density h star F η) +
        ε ^ 2 • (density h star η η + density h star F ζ + density h star ζ F) +
        ε ^ 3 • (density h star η ζ + density h star ζ η) + ε ^ 4 • density h star ζ ζ := by
  simp only [density_add_left, density_add_right, density_smul_left, density_smul_right]
  module

/-- The infinitesimal action of an algebra-valued function does not change the density of the Killing form. -/
theorem density_action [CharZero K] [NoZeroDivisors K] {f : κ → κ → κ → K} (lie : IsLie f) {F φ : κ → Finset ι → K}
    (function : Graded 0 φ) (symmetric : ∀ a b, wedge (F a) (star (F b)) = wedge (F b) (star (F a))) :
    density (killing f) star (bracket f F φ) F = 0 ∧ density (killing f) star F (bracket f F φ) = 0 := by
  have acts (a : κ) : bracket f F φ a = ∑ d, φ d ∅ • ∑ c, f c d a • F c := by
    unfold bracket
    rw [Finset.sum_comm]
    refine Finset.sum_congr rfl (fun d _ => ?_)
    rw [Finset.smul_sum]
    exact Finset.sum_congr rfl (fun c _ => by rw [wedge_function _ (function d), smul_comm])
  have vanishes (d : κ) := killing_action lie symmetric d
  have left : density (killing f) star (bracket f F φ) F =
      ∑ d, φ d ∅ • ∑ a, ∑ b, killing f a b • ∑ c, f c d a • wedge (F c) (star (F b)) := by
    calc _ = ∑ a, ∑ b, ∑ d, φ d ∅ • killing f a b • ∑ c, f c d a • wedge (F c) (star (F b)) :=
          Finset.sum_congr rfl (fun a _ => Finset.sum_congr rfl (fun b _ => by
            simp only [acts, wedge_sum_left, wedge_smul_left, Finset.smul_sum, smul_comm (killing f a b)]))
      _ = ∑ a, ∑ d, ∑ b, φ d ∅ • killing f a b • ∑ c, f c d a • wedge (F c) (star (F b)) :=
          Finset.sum_congr rfl (fun a _ => Finset.sum_comm)
      _ = _ := by
          rw [Finset.sum_comm]
          simp only [Finset.smul_sum]
  have right : density (killing f) star F (bracket f F φ) = density (killing f) star (bracket f F φ) F := by
    unfold density
    rw [Finset.sum_comm]
    refine Finset.sum_congr rfl (fun b _ => Finset.sum_congr rfl (fun a _ => ?_))
    rw [killing_comm, acts]
    simp only [map_sum, map_smul, wedge_sum_right, wedge_smul_right, wedge_sum_left, wedge_smul_left, symmetric a]
  have zero : density (killing f) star (bracket f F φ) F = 0 := by
    rw [left]
    exact Finset.sum_eq_zero (fun d _ => by rw [vanishes d, smul_zero])
  exact ⟨zero, right.trans zero⟩

end Density

end PhyNspire.Lib.LieForms

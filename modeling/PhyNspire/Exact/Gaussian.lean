import PhyNspire.Exact.Kernel
import Mathlib.Analysis.Complex.Norm

/-!
The Gaussian rationals of gaussian.c over an exact kernel. Every operation computes into a
fresh temporary and publishes both parts at once, so a result is a value.
-/

namespace PhyNspire.Exact
open Platform Lib.Stateful

@[ext] structure Gaussian where
  real : ℚ
  imaginary : ℚ
deriving DecidableEq, Repr

namespace Gaussian

def zero : Gaussian := ⟨0, 0⟩

/-- The complex number. -/
def value (z : Gaussian) : ℂ := ⟨z.real, z.imaginary⟩

@[simp] theorem value_re (z : Gaussian) : z.value.re = z.real := rfl

@[simp] theorem value_im (z : Gaussian) : z.value.im = z.imaginary := rfl

@[simp] theorem value_zero : zero.value = 0 := by
  apply Complex.ext <;> simp [zero]

theorem value_real (p : ℚ) : (⟨p, 0⟩ : Gaussian).value = (p : ℂ) := by
  apply Complex.ext <;> simp

end Gaussian

section
variable {State : Type} (kernel : Kernel State)

def gaussianSetI64 (realNumerator realDenominator imaginaryNumerator imaginaryDenominator : Int) :
    EStateM Status State Gaussian := do
  let real ← kernel.bigratSetI64 realNumerator realDenominator
  let imaginary ← kernel.bigratSetI64 imaginaryNumerator imaginaryDenominator
  pure ⟨real, imaginary⟩

def gaussianCopy (source : Gaussian) : EStateM Status State Gaussian := do
  let real ← kernel.bigratCopy source.real
  let imaginary ← kernel.bigratCopy source.imaginary
  pure ⟨real, imaginary⟩

def gaussianAdd (left right : Gaussian) : EStateM Status State Gaussian := do
  let real ← kernel.bigratAdd left.real right.real
  let imaginary ← kernel.bigratAdd left.imaginary right.imaginary
  pure ⟨real, imaginary⟩

def gaussianSubtract (left right : Gaussian) : EStateM Status State Gaussian := do
  let real ← kernel.bigratSubtract left.real right.real
  let imaginary ← kernel.bigratSubtract left.imaginary right.imaginary
  pure ⟨real, imaginary⟩

def gaussianMultiply (left right : Gaussian) : EStateM Status State Gaussian := do
  let ac ← kernel.bigratMultiply left.real right.real
  let bd ← kernel.bigratMultiply left.imaginary right.imaginary
  let ad ← kernel.bigratMultiply left.real right.imaginary
  let bc ← kernel.bigratMultiply left.imaginary right.real
  let real ← kernel.bigratSubtract ac bd
  let imaginary ← kernel.bigratAdd ad bc
  pure ⟨real, imaginary⟩

def normInto (value : Gaussian) : EStateM Status State ℚ := do
  let realSquare ← kernel.bigratMultiply value.real value.real
  let imaginarySquare ← kernel.bigratMultiply value.imaginary value.imaginary
  kernel.bigratAdd realSquare imaginarySquare

def gaussianReciprocal (value : Gaussian) : EStateM Status State Gaussian := do
  let norm ← normInto kernel value
  if norm = 0 then throw .domain
  else do
    let negativeImaginary ← kernel.bigratNegate value.imaginary
    let real ← kernel.bigratDivide value.real norm
    let imaginary ← kernel.bigratDivide negativeImaginary norm
    pure ⟨real, imaginary⟩

def gaussianDivide (dividend divisor : Gaussian) : EStateM Status State Gaussian := do
  let reciprocal ← gaussianReciprocal kernel divisor
  gaussianMultiply kernel dividend reciprocal

end

section
variable {State : Type} {kernel : Kernel State} (exact : kernel.Exact) {s : State} {good : Gaussian → State → Prop}
include exact

theorem wp_gaussianCopy (z : Gaussian) (rest : ∀ t, good z t) : wp (gaussianCopy kernel z) good (fun _ _ => True) s := by
  unfold gaussianCopy
  rw [wp_bind]
  apply (exact.copy _).use
  intro t
  rw [wp_bind]
  exact (exact.copy _).use rest

theorem wp_gaussianAdd (z w : Gaussian) (rest : ∀ sum t, sum.value = z.value + w.value → good sum t) :
    wp (gaussianAdd kernel z w) good (fun _ _ => True) s := by
  unfold gaussianAdd
  rw [wp_bind]
  apply (exact.add _ _).use
  intro t
  rw [wp_bind]
  apply (exact.add _ _).use
  intro t
  apply rest
  apply Complex.ext <;> simp

theorem wp_gaussianMultiply (z w : Gaussian) (rest : ∀ product t, product.value = z.value * w.value → good product t) :
    wp (gaussianMultiply kernel z w) good (fun _ _ => True) s := by
  unfold gaussianMultiply
  rw [wp_bind]
  apply (exact.multiply _ _).use
  intro t
  rw [wp_bind]
  apply (exact.multiply _ _).use
  intro t
  rw [wp_bind]
  apply (exact.multiply _ _).use
  intro t
  rw [wp_bind]
  apply (exact.multiply _ _).use
  intro t
  rw [wp_bind]
  apply (exact.subtract _ _).use
  intro t
  rw [wp_bind]
  apply (exact.add _ _).use
  intro t
  apply rest
  apply Complex.ext <;> simp

end

end PhyNspire.Exact

import PhyNspire.Platform
import PhyNspire.Lib.Stateful
import Mathlib.Algebra.Order.Field.Rat

/-!
The rational kernel as its larger clients see it. A client that owns its temporaries passes
values in and gets values out; what the limits of a context allow, and when a call stops,
is up to the state. An exact kernel returns the value or stops.
-/

namespace PhyNspire.Exact
open Platform Lib.Stateful

/-- The calls of rational.c and bigint.c on values. -/
structure Kernel (State : Type) where
  bigratSetI64 : Int → Int → EStateM Status State ℚ
  bigratSetBigint : Int → EStateM Status State ℚ
  bigratCopy : ℚ → EStateM Status State ℚ
  bigratNegate : ℚ → EStateM Status State ℚ
  bigratAdd : ℚ → ℚ → EStateM Status State ℚ
  bigratSubtract : ℚ → ℚ → EStateM Status State ℚ
  bigratMultiply : ℚ → ℚ → EStateM Status State ℚ
  bigratDivide : ℚ → ℚ → EStateM Status State ℚ
  bigratCompare : ℚ → ℚ → EStateM Status State Int
  bigintSetI64 : Int → EStateM Status State Int
  bigintAdd : Int → Int → EStateM Status State Int
  bigintSubtract : Int → Int → EStateM Status State Int
  bigintMultiply : Int → Int → EStateM Status State Int
  bigintPowU32 : Int → Nat → EStateM Status State Int
  bigintDivmod : Int → Int → EStateM Status State (Int × Int)

variable {State α : Type}

def Yields (program : EStateM Status State α) (value : α) : Prop :=
  ∀ s, wp program (fun result _ => result = value) (fun _ _ => True) s

/-- `phy_bigrat_compare`. -/
def order (p q : ℚ) : Int := (p - q).num.sign

/-- The laws of exact arithmetic. A division by zero stops. -/
structure Kernel.Exact (kernel : Kernel State) : Prop where
  setI64 (numerator denominator : Int) (nonzero : denominator ≠ 0) :
    Yields (kernel.bigratSetI64 numerator denominator) (numerator / denominator)
  setBigint (integer : Int) : Yields (kernel.bigratSetBigint integer) integer
  copy (p : ℚ) : Yields (kernel.bigratCopy p) p
  negate (p : ℚ) : Yields (kernel.bigratNegate p) (-p)
  add (p q : ℚ) : Yields (kernel.bigratAdd p q) (p + q)
  subtract (p q : ℚ) : Yields (kernel.bigratSubtract p q) (p - q)
  multiply (p q : ℚ) : Yields (kernel.bigratMultiply p q) (p * q)
  divide (p q : ℚ) (s : State) :
    wp (kernel.bigratDivide p q) (fun result _ => q ≠ 0 ∧ result = p / q) (fun _ _ => True) s
  compare (p q : ℚ) : Yields (kernel.bigratCompare p q) (order p q)
  integerSetI64 (a : Int) : Yields (kernel.bigintSetI64 a) a
  integerAdd (a b : Int) : Yields (kernel.bigintAdd a b) (a + b)
  integerSubtract (a b : Int) : Yields (kernel.bigintSubtract a b) (a - b)
  integerMultiply (a b : Int) : Yields (kernel.bigintMultiply a b) (a * b)
  powU32 (a : Int) (exponent : Nat) : Yields (kernel.bigintPowU32 a exponent) (a ^ exponent)
  divmod (a b : Int) (nonzero : b ≠ 0) : Yields (kernel.bigintDivmod a b) (a.tdiv b, a.tmod b)

/-- The kernel without limits, but for the division by zero. -/
def unlimited : Kernel Unit where
  bigratSetI64 numerator denominator := if denominator = 0 then throw .domain else pure (numerator / denominator)
  bigratSetBigint integer := pure integer
  bigratCopy p := pure p
  bigratNegate p := pure (-p)
  bigratAdd p q := pure (p + q)
  bigratSubtract p q := pure (p - q)
  bigratMultiply p q := pure (p * q)
  bigratDivide p q := if q = 0 then throw .domain else pure (p / q)
  bigratCompare p q := pure (order p q)
  bigintSetI64 a := pure a
  bigintAdd a b := pure (a + b)
  bigintSubtract a b := pure (a - b)
  bigintMultiply a b := pure (a * b)
  bigintPowU32 a exponent := pure (a ^ exponent)
  bigintDivmod a b := if b = 0 then throw .domain else pure (a.tdiv b, a.tmod b)

theorem unlimited_exact : unlimited.Exact where
  setI64 _ _ nonzero _ := wp_ite (fun zero => absurd zero nonzero) (fun _ => rfl)
  setBigint _ _ := rfl
  copy _ _ := rfl
  negate _ _ := rfl
  add _ _ _ := rfl
  subtract _ _ _ := rfl
  multiply _ _ _ := rfl
  divide _ _ _ := wp_ite (fun _ => trivial) (fun nonzero => ⟨nonzero, rfl⟩)
  compare _ _ _ := rfl
  integerSetI64 _ _ := rfl
  integerAdd _ _ _ := rfl
  integerSubtract _ _ _ := rfl
  integerMultiply _ _ _ := rfl
  powU32 _ _ _ := rfl
  divmod _ _ nonzero _ := wp_ite (fun zero => absurd zero nonzero) (fun _ => rfl)

theorem order_pos {p q : ℚ} : 0 < order p q ↔ q < p := by
  unfold order
  rw [Int.sign_pos_iff, Rat.num_pos, sub_pos]

theorem order_nonneg {p q : ℚ} : 0 ≤ order p q ↔ q ≤ p := by
  unfold order
  rw [Int.sign_nonneg_iff, Rat.num_nonneg, sub_nonneg]

theorem order_nonpos {p q : ℚ} : order p q ≤ 0 ↔ p ≤ q := by
  rw [← not_lt, order_pos, not_lt]

theorem Yields.use {program : EStateM Status State α} {value : α} (yields : Yields program value) {good : α → State → Prop}
    {s : State} (rest : ∀ t, good value t) : wp program good (fun _ _ => True) s :=
  wp_mono (yields s) (fun _ t same => same ▸ rest t) (fun _ _ _ => trivial)

theorem wp_any {program : EStateM Status State α} (s : State) : wp program (fun _ _ => True) (fun _ _ => True) s :=
  wp_of_run (fun _ _ _ => trivial) (fun _ _ _ => trivial)

end PhyNspire.Exact

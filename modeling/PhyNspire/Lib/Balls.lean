import Mathlib.Algebra.Order.Field.Basic
import Mathlib.Tactic.Linarith
import Mathlib.Tactic.Ring

/-!
Ball arithmetic. A ball is the closed interval around a rational midpoint; its points are
taken in any ordered field, the rationals and the reals among them. Each operation on
balls contains the results of the operation on their points.
-/

namespace PhyNspire.Lib.Balls

structure Ball where
  midpoint : ℚ
  radius : ℚ
  nonneg : 0 ≤ radius

variable {K : Type} [Field K] [LinearOrder K] [IsStrictOrderedRing K]

namespace Ball
variable {ball left right : Ball} {x y : K}

def lower (ball : Ball) : ℚ := ball.midpoint - ball.radius

def upper (ball : Ball) : ℚ := ball.midpoint + ball.radius

theorem lower_le_upper (ball : Ball) : ball.lower ≤ ball.upper := by
  have := ball.nonneg
  unfold lower upper
  linarith

def Contains (ball : Ball) (x : K) : Prop := |x - ball.midpoint| ≤ ball.radius

theorem contains_iff : ball.Contains x ↔ (ball.lower : K) ≤ x ∧ x ≤ ball.upper := by
  unfold Contains lower upper
  rw [abs_le]
  push_cast
  constructor
  · rintro ⟨below, above⟩
    exact ⟨by linarith, by linarith⟩
  · rintro ⟨below, above⟩
    exact ⟨by linarith, by linarith⟩

theorem contains_zero_iff : ball.Contains (0 : K) ↔ |ball.midpoint| ≤ ball.radius := by
  unfold Contains
  rw [zero_sub, abs_neg]
  exact_mod_cast Iff.rfl

theorem apart_from_zero (apart : ¬ball.Contains (0 : ℚ)) : ball.upper < 0 ∨ 0 < ball.lower := by
  rw [contains_iff, not_and_or, not_le, not_le] at apart
  exact apart.symm

def exact (point : ℚ) : Ball := ⟨point, 0, le_refl 0⟩

@[simp] theorem contains_exact {point : ℚ} : (exact point).Contains x ↔ x = point := by
  unfold Contains exact
  rw [Rat.cast_zero, abs_nonpos_iff, sub_eq_zero]

def ofInterval (lower upper : ℚ) (ordered : lower ≤ upper) : Ball :=
  ⟨(lower + upper) / 2, (upper - lower) / 2, by linarith⟩

@[simp] theorem contains_ofInterval {lower upper : ℚ} {ordered : lower ≤ upper} :
    (ofInterval lower upper ordered).Contains x ↔ (lower : K) ≤ x ∧ x ≤ upper := by
  have first : (ofInterval lower upper ordered).lower = lower := by
    unfold Ball.lower ofInterval
    ring
  have second : (ofInterval lower upper ordered).upper = upper := by
    unfold Ball.upper ofInterval
    ring
  rw [contains_iff, first, second]

def add (left right : Ball) : Ball :=
  ⟨left.midpoint + right.midpoint, left.radius + right.radius, add_nonneg left.nonneg right.nonneg⟩

theorem contains_add (first : left.Contains x) (second : right.Contains y) : (left.add right).Contains (x + y) := by
  unfold Contains add at *
  push_cast
  calc |x + y - (left.midpoint + right.midpoint)|
      = |(x - left.midpoint) + (y - right.midpoint)| := by rw [add_sub_add_comm]
    _ ≤ |x - left.midpoint| + |y - right.midpoint| := abs_add_le _ _
    _ ≤ left.radius + right.radius := add_le_add first second

def sub (left right : Ball) : Ball :=
  ⟨left.midpoint - right.midpoint, left.radius + right.radius, add_nonneg left.nonneg right.nonneg⟩

theorem contains_sub (first : left.Contains x) (second : right.Contains y) : (left.sub right).Contains (x - y) := by
  unfold Contains sub at *
  push_cast
  calc |x - y - (left.midpoint - right.midpoint)|
      = |(x - left.midpoint) - (y - right.midpoint)| := by rw [sub_sub_sub_comm]
    _ ≤ |x - left.midpoint| + |y - right.midpoint| := abs_sub _ _
    _ ≤ left.radius + right.radius := add_le_add first second

def mul (left right : Ball) : Ball where
  midpoint := left.midpoint * right.midpoint
  radius := |left.midpoint| * right.radius + |right.midpoint| * left.radius + left.radius * right.radius
  nonneg := by
    have := left.nonneg
    have := right.nonneg
    positivity

theorem contains_mul (first : left.Contains x) (second : right.Contains y) : (left.mul right).Contains (x * y) := by
  unfold Contains mul at *
  push_cast
  have split : x * y - left.midpoint * right.midpoint =
      left.midpoint * (y - right.midpoint) + right.midpoint * (x - left.midpoint) +
        (x - left.midpoint) * (y - right.midpoint) := by ring
  have nonneg : (0 : K) ≤ left.radius := (abs_nonneg _).trans first
  rw [split]
  calc |left.midpoint * (y - right.midpoint) + right.midpoint * (x - left.midpoint) +
        (x - left.midpoint) * (y - right.midpoint)|
      ≤ |(left.midpoint : K)| * |y - right.midpoint| + |(right.midpoint : K)| * |x - left.midpoint| +
        |x - left.midpoint| * |y - right.midpoint| := by
        rw [← abs_mul, ← abs_mul, ← abs_mul]
        exact (abs_add_le _ _).trans (add_le_add_left (abs_add_le _ _) _)
    _ ≤ |(left.midpoint : K)| * right.radius + |(right.midpoint : K)| * left.radius +
        left.radius * right.radius := by
        gcongr

def interval (lower upper : ℚ) : Option Ball :=
  if ordered : lower ≤ upper then some (ofInterval lower upper ordered) else none

theorem interval_eq_none {lower upper : ℚ} : interval lower upper = none ↔ upper < lower := by
  unfold interval
  rw [dite_eq_right_iff]
  constructor
  · intro disordered
    exact lt_of_not_ge fun ordered => absurd (disordered ordered) (Option.some_ne_none _)
  · intro less ordered
    exact absurd ordered (not_le.mpr less)

theorem contains_interval {lower upper : ℚ} (found : interval lower upper = some ball) :
    ball.Contains x ↔ (lower : K) ≤ x ∧ x ≤ upper := by
  unfold interval at found
  rw [Option.dite_none_right_eq_some] at found
  obtain ⟨_, same⟩ := found
  cases same
  exact contains_ofInterval

instance (point : ℚ) : Decidable (ball.Contains point) := inferInstanceAs (Decidable (_ ≤ _))

def reciprocal (ball : Ball) : Option Ball :=
  if ball.Contains (0 : ℚ) then none else interval ball.upper⁻¹ ball.lower⁻¹

theorem reciprocal_ordered (apart : ¬ball.Contains (0 : ℚ)) : ball.upper⁻¹ ≤ ball.lower⁻¹ := by
  rcases apart_from_zero apart with negative | positive
  · exact (inv_le_inv_of_neg negative (ball.lower_le_upper.trans_lt negative)).mpr ball.lower_le_upper
  · exact (inv_le_inv₀ (positive.trans_le ball.lower_le_upper) positive).mpr ball.lower_le_upper

theorem reciprocal_eq_none : ball.reciprocal = none ↔ ball.Contains (0 : ℚ) := by
  unfold reciprocal
  by_cases zero : ball.Contains (0 : ℚ)
  · simp [zero]
  · rw [if_neg zero, interval_eq_none]
    exact iff_of_false (not_lt.mpr (reciprocal_ordered zero)) zero

theorem contains_reciprocal {result : Ball} (found : ball.reciprocal = some result) (member : ball.Contains x) :
    result.Contains x⁻¹ := by
  unfold reciprocal at found
  by_cases zero : ball.Contains (0 : ℚ)
  · rw [if_pos zero] at found
    cases found
  rw [if_neg zero] at found
  obtain ⟨below, above⟩ := contains_iff.mp member
  rw [contains_interval found, Rat.cast_inv, Rat.cast_inv]
  rcases apart_from_zero zero with negative | positive
  · have negative' : (ball.upper : K) < 0 := by exact_mod_cast negative
    have small := above.trans_lt negative'
    exact ⟨(inv_le_inv_of_neg negative' small).mpr above, (inv_le_inv_of_neg small (below.trans_lt small)).mpr below⟩
  · have positive' : (0 : K) < ball.lower := by exact_mod_cast positive
    have large := positive'.trans_le below
    exact ⟨(inv_le_inv₀ (large.trans_le above) large).mpr above, (inv_le_inv₀ large positive').mpr below⟩

def quotient (left right : Ball) : Option Ball := right.reciprocal.map left.mul

theorem quotient_eq_none : left.quotient right = none ↔ right.Contains (0 : ℚ) := by
  rw [quotient, Option.map_eq_none_iff, reciprocal_eq_none]

theorem contains_quotient (found : left.quotient right = some ball) (first : left.Contains x)
    (second : right.Contains y) : ball.Contains (x / y) := by
  obtain ⟨inverse, inverted, rfl⟩ := Option.map_eq_some_iff.mp found
  rw [div_eq_mul_inv]
  exact contains_mul first (contains_reciprocal inverted second)

/-- Square and multiply: `result` times `factor` to the power, in a given number of turns. -/
def raise : Nat → Nat → Ball → Ball → Ball
  | 0, _, result, _ => result
  | turns + 1, power, result, factor =>
      if power ≠ 0 then
        raise turns (power >>> 1) (if power &&& 1 ≠ 0 then result.mul factor else result)
          (if power >>> 1 ≠ 0 then factor.mul factor else factor)
      else result

theorem contains_raise (turns power : Nat) (enough : power < 2 ^ turns) {result factor : Ball}
    (first : result.Contains x) (second : factor.Contains y) :
    (raise turns power result factor).Contains (x * y ^ power) := by
  induction turns generalizing power result factor x y with
  | zero =>
    have none : power = 0 := by simpa using enough
    simpa [raise, none] using first
  | succ turns ih =>
    unfold raise
    by_cases zero : power = 0
    · simpa [zero] using first
    · rw [if_pos zero]
      have half : power >>> 1 = power / 2 := Nat.shiftRight_eq_div_pow power 1
      have split := Nat.div_add_mod power 2
      have last : power &&& 1 = power % 2 := Nat.and_one_is_mod power
      have below : power >>> 1 < 2 ^ turns := by
        rw [pow_succ] at enough
        omega
      by_cases more : power >>> 1 = 0
      · have one : power = 1 := by omega
        have taken := ih 0 (by positivity) (contains_mul first second) second
        subst one
        simpa using taken
      · rw [if_pos more]
        by_cases odd : power % 2 = 1
        · have taken := ih _ below (contains_mul first second) (contains_mul second second)
          rw [last, if_pos (by omega)]
          rwa [mul_assoc, ← pow_two, ← pow_mul, ← pow_succ', half, show 2 * (power / 2) + 1 = power by omega] at taken
        · have taken := ih _ below first (contains_mul second second)
          rw [last, if_neg (by omega)]
          rwa [← pow_two, ← pow_mul, half, show 2 * (power / 2) = power by omega] at taken

def power (turns : Nat) (base : Ball) (exponent : Int) : Option Ball :=
  let raised := raise turns exponent.natAbs (exact 1) base
  if 0 ≤ exponent then some raised
  else if base.Contains (0 : ℚ) then none
  else (exact 1).quotient raised

theorem contains_power {turns : Nat} {base : Ball} {exponent : Int} (enough : exponent.natAbs < 2 ^ turns)
    (found : base.power turns exponent = some ball) (member : base.Contains x) : ball.Contains (x ^ exponent) := by
  have raised : (raise turns exponent.natAbs (exact 1) base).Contains (x ^ exponent.natAbs) := by
    have one : (exact 1).Contains (1 : K) := by simp
    simpa using contains_raise turns exponent.natAbs enough one member
  unfold power at found
  by_cases nonneg : 0 ≤ exponent
  · rw [if_pos nonneg, Option.some.injEq] at found
    rw [← found, ← Int.natAbs_of_nonneg nonneg, zpow_natCast, Int.natAbs_natCast]
    exact raised
  · rw [if_neg nonneg] at found
    by_cases zero : base.Contains (0 : ℚ)
    · rw [if_pos zero] at found
      cases found
    · rw [if_neg zero] at found
      have inverted := contains_quotient found (show (exact 1).Contains (1 : K) by simp) raised
      rwa [one_div, ← zpow_natCast, ← zpow_neg, show -(exponent.natAbs : Int) = exponent by omega] at inverted

/-- Bisection for the square root, which stops early when it hits the root. -/
def bisect (value : ℚ) : Nat → ℚ → ℚ → ℚ × ℚ
  | 0, low, high => (low, high)
  | rounds + 1, low, high =>
      let midpoint := (low + high) / 2
      if midpoint * midpoint = value then (midpoint, midpoint)
      else if midpoint * midpoint < value then bisect value rounds midpoint high
      else bisect value rounds low midpoint

def rootBounds (value : ℚ) (rounds : Nat) : ℚ × ℚ := bisect value rounds 0 (if 1 < value then value else 1)

structure Brackets (value : ℚ) (bounds : ℚ × ℚ) : Prop where
  low_nonneg : 0 ≤ bounds.1
  high_nonneg : 0 ≤ bounds.2
  low_square : bounds.1 * bounds.1 ≤ value
  high_square : value ≤ bounds.2 * bounds.2

theorem bisect_brackets {value : ℚ} (rounds : Nat) {low high : ℚ} (start : Brackets value (low, high)) :
    Brackets value (bisect value rounds low high) := by
  induction rounds generalizing low high with
  | zero => exact start
  | succ rounds ih =>
    obtain ⟨low_nonneg, high_nonneg, low_square, high_square⟩ := start
    have nonneg : 0 ≤ (low + high) / 2 := div_nonneg (add_nonneg low_nonneg high_nonneg) zero_le_two
    unfold bisect
    dsimp only
    split_ifs with hit below
    · exact ⟨nonneg, nonneg, hit.le, hit.ge⟩
    · exact ih ⟨nonneg, high_nonneg, below.le, high_square⟩
    · exact ih ⟨low_nonneg, nonneg, low_square, le_of_not_gt below⟩

theorem rootBounds_brackets {value : ℚ} (nonneg : 0 ≤ value) (rounds : Nat) :
    Brackets value (rootBounds value rounds) := by
  refine bisect_brackets rounds ⟨le_refl 0, ?_, by simpa using nonneg, ?_⟩
  · dsimp only
    split_ifs <;> linarith
  · dsimp only
    split_ifs with large
    · nlinarith
    · linarith

/-- The square roots of a ball that reaches below zero nowhere. -/
def root (rounds : Nat) (ball : Ball) : Option Ball :=
  if ball.lower < 0 then none else interval (rootBounds ball.lower rounds).1 (rootBounds ball.upper rounds).2

theorem root_ordered {rounds : Nat} (nonneg : 0 ≤ ball.lower) :
    (rootBounds ball.lower rounds).1 ≤ (rootBounds ball.upper rounds).2 := by
  have first := rootBounds_brackets nonneg rounds
  have second := rootBounds_brackets (nonneg.trans ball.lower_le_upper) rounds
  refine abs_le_of_sq_le_sq' ?_ second.high_nonneg |>.2
  rw [pow_two, pow_two]
  exact first.low_square.trans (ball.lower_le_upper.trans second.high_square)

theorem root_eq_none {rounds : Nat} : ball.root rounds = none ↔ ball.lower < 0 := by
  unfold root
  by_cases negative : ball.lower < 0
  · simp [negative]
  · rw [if_neg negative, interval_eq_none]
    exact iff_of_false (not_lt.mpr (root_ordered (not_lt.mp negative))) negative

theorem contains_root {rounds : Nat} {result : Ball} (found : ball.root rounds = some result) (nonneg : 0 ≤ x)
    (member : ball.Contains (x * x)) : result.Contains x := by
  unfold root at found
  by_cases negative : ball.lower < 0
  · rw [if_pos negative] at found
    cases found
  rw [if_neg negative] at found
  have first := rootBounds_brackets (not_lt.mp negative) rounds
  have second := rootBounds_brackets ((not_lt.mp negative).trans ball.lower_le_upper) rounds
  obtain ⟨below, above⟩ := contains_iff.mp member
  have low : ((rootBounds ball.lower rounds).1 : K) * (rootBounds ball.lower rounds).1 ≤ x * x :=
    (show _ ≤ (ball.lower : K) by exact_mod_cast first.low_square).trans below
  have high : x * x ≤ ((rootBounds ball.upper rounds).2 : K) * (rootBounds ball.upper rounds).2 :=
    above.trans (show (ball.upper : K) ≤ _ by exact_mod_cast second.high_square)
  rw [contains_interval found]
  exact ⟨abs_le_of_sq_le_sq' (by rwa [pow_two, pow_two]) nonneg |>.2,
    abs_le_of_sq_le_sq' (by rwa [pow_two, pow_two]) (by exact_mod_cast second.high_nonneg) |>.2⟩

end Ball

end PhyNspire.Lib.Balls

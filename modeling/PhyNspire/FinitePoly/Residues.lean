import PhyNspire.Platform
import PhyNspire.Lib.Stateful
import Mathlib.FieldTheory.Finite.Basic

/-!
Contexts of finite_poly.c and arithmetic modulo their prime.

Words are natural numbers: the prime is at most 65521, so no sum leaves 32 bits and no
product leaves the 64 bits in which the source forms it.
-/

namespace PhyNspire.FinitePoly.Residues
open Platform Lib.Stateful

def fpolyHardMaxDegree : Nat := 64

def fpolyMaxPrime : Nat := 65521

/-- The loop over the odd divisors. Each turn raises the divisor, so `value` turns are enough. -/
def trialDivision (value : Nat) : Nat → Nat → Bool
  | 0, _ => true
  | turns + 1, divisor =>
      if divisor ≤ value / divisor then
        if value % divisor = 0 then false else trialDivision value turns (divisor + 2)
      else true

def isPrime (value : Nat) : Bool :=
  if value < 2 then false
  else if value % 2 = 0 then decide (value = 2)
  else trialDivision value value 3

structure FpolyLimits where
  maxDegree : UInt32
  maxSteps : UInt32
deriving DecidableEq

def fpolyLimitsDefaults : FpolyLimits := ⟨48, 200000⟩

/-- `phy_fpoly_context`, less its step count, as `phy_fpoly_context_init` admits it. The answers
of the cancellation callback are numbered. -/
structure FpolyContext where
  limits : FpolyLimits
  prime : Nat
  cancelled : Option (Nat → Bool)
  primality : isPrime prime = true
  primeBound : prime ≤ fpolyMaxPrime
  degreeBound : limits.maxDegree.toNat ≤ fpolyHardMaxDegree
  stepBound : 0 < limits.maxSteps.toNat

def fpolyContextInit (prime : UInt32) (limits : Option FpolyLimits) : Except Status FpolyContext :=
  if primality : isPrime prime.toNat = true then
    if primeBound : prime.toNat ≤ fpolyMaxPrime then
      let selected := limits.getD fpolyLimitsDefaults
      if degreeBound : selected.maxDegree.toNat ≤ fpolyHardMaxDegree then
        if stepBound : 0 < selected.maxSteps.toNat then
          .ok ⟨selected, prime.toNat, none, primality, primeBound, degreeBound, stepBound⟩
        else .error .invalidArgument
      else .error .invalidArgument
    else .error .invalidArgument
  else .error .invalidArgument

/-- The steps of the operation under way, and the number of answers taken from the callback. -/
structure Budget where
  steps : Nat
  polls : Nat
deriving DecidableEq

abbrev FpolyM := EStateM Status Budget

variable (c : FpolyContext)

def poll : FpolyM Unit :=
  match c.cancelled with
  | none => pure ()
  | some cancelled => do
      let b ← get
      set { b with polls := b.polls + 1 }
      if cancelled b.polls then throw .interrupted else pure ()

def beginOperation : FpolyM Unit := do
  modify fun b => { b with steps := 0 }
  poll c

def step (amount : Nat) : FpolyM Unit := do
  poll c
  let b ← get
  if c.limits.maxSteps.toNat - b.steps < amount then throw .timeout
  else set { b with steps := b.steps + amount }

def addMod (left right prime : Nat) : Nat :=
  let sum := left + right
  if prime ≤ sum then sum - prime else sum

def subtractMod (left right prime : Nat) : Nat :=
  if right ≤ left then left - right else prime - (right - left)

def multiplyMod (left right prime : Nat) : Nat := left * right % prime

/-- The loop of `inverse_mod`; an exponent of 32 bits takes at most 32 turns. -/
def inverseLoop (prime : Nat) : Nat → Nat → Nat → Nat → Nat
  | 0, result, _, _ => result
  | turns + 1, result, factor, exponent =>
      if exponent = 0 then result
      else
        let result := if exponent % 2 = 1 then multiplyMod result factor prime else result
        let exponent := exponent / 2
        let factor := if exponent = 0 then factor else multiplyMod factor factor prime
        inverseLoop prime turns result factor exponent

def inverseMod (value prime : Nat) : Nat := inverseLoop prime 32 1 value (prime - 2)

theorem trialDivision_sound {value : Nat} (turns divisor : Nat) (accepted : trialDivision value turns divisor = true)
    (enough : value < divisor + 2 * turns) {m : Nat} (odd : m % 2 = divisor % 2) (above : divisor ≤ m)
    (small : m * m ≤ value) (positive : 0 < divisor) : ¬m ∣ value := by
  induction turns generalizing divisor with
  | zero =>
    have : m ≤ m * m := Nat.le_mul_self m
    omega
  | succ turns ih =>
    rw [trialDivision] at accepted
    have tested : divisor ≤ value / divisor :=
      (Nat.le_div_iff_mul_le positive).mpr ((Nat.mul_le_mul above above).trans small)
    rw [if_pos tested] at accepted
    by_cases divides : value % divisor = 0
    · rw [if_pos divides] at accepted
      cases accepted
    · rw [if_neg divides] at accepted
      rcases Nat.eq_or_lt_of_le above with rfl | larger
      · exact fun dvd => divides (Nat.mod_eq_zero_of_dvd dvd)
      · exact ih (divisor + 2) accepted (by omega) (by omega) (by omega) (by omega)

theorem isPrime_prime {value : Nat} (accepted : isPrime value = true) : value.Prime := by
  unfold isPrime at accepted
  split at accepted
  · cases accepted
  · split at accepted
    · obtain rfl : value = 2 := by simpa using accepted
      exact Nat.prime_two
    · rename_i large odd
      by_contra composite
      have minimal := Nat.minFac_sq_le_self (by omega : 0 < value) composite
      have divides := Nat.minFac_dvd value
      have two := (Nat.minFac_prime (by omega : value ≠ 1)).two_le
      have odd_factor : value.minFac % 2 ≠ 0 := fun even =>
        odd (Nat.mod_eq_zero_of_dvd ((Nat.dvd_of_mod_eq_zero even).trans divides))
      exact trialDivision_sound value 3 accepted (by omega) (by omega) (by omega) (by nlinarith) (by omega) divides

instance primeFact : Fact c.prime.Prime := ⟨isPrime_prime c.primality⟩

theorem prime_pos : 0 < c.prime := (isPrime_prime c.primality).pos

theorem two_le_prime : 2 ≤ c.prime := (isPrime_prime c.primality).two_le

section
variable {c}
variable {left right : Nat}

theorem addMod_lt (less : left < c.prime) (less' : right < c.prime) : addMod left right c.prime < c.prime := by
  unfold addMod
  grind

theorem subtractMod_lt (less : left < c.prime) (less' : right < c.prime) : subtractMod left right c.prime < c.prime := by
  unfold subtractMod
  grind

theorem multiplyMod_lt : multiplyMod left right c.prime < c.prime := Nat.mod_lt _ (prime_pos c)

theorem addMod_cast : (addMod left right c.prime : ZMod c.prime) = left + right := by
  unfold addMod
  dsimp only
  split
  · rename_i above
    rw [Nat.cast_sub above, Nat.cast_add, ZMod.natCast_self, sub_zero]
  · rw [Nat.cast_add]

theorem subtractMod_cast (less : right < c.prime) : (subtractMod left right c.prime : ZMod c.prime) = left - right := by
  unfold subtractMod
  split
  · rename_i ordered
    rw [Nat.cast_sub ordered]
  · rw [Nat.cast_sub (by omega), Nat.cast_sub (by omega), ZMod.natCast_self]
    ring

theorem multiplyMod_cast : (multiplyMod left right c.prime : ZMod c.prime) = left * right := by
  rw [multiplyMod, ZMod.natCast_mod, Nat.cast_mul]

theorem word_cast_eq_zero {word : Nat} (less : word < c.prime) : (word : ZMod c.prime) = 0 ↔ word = 0 := by
  rw [ZMod.natCast_eq_zero_iff]
  exact ⟨fun divides => Nat.eq_zero_of_dvd_of_lt divides less, fun zero => zero ▸ dvd_zero _⟩

theorem word_cast_injective {word word' : Nat} (less : word < c.prime) (less' : word' < c.prime)
    (same : (word : ZMod c.prime) = word') : word = word' := by
  rwa [ZMod.natCast_eq_natCast_iff', Nat.mod_eq_of_lt less, Nat.mod_eq_of_lt less'] at same

theorem inverseLoop_cast (turns result factor exponent : Nat) (enough : exponent < 2 ^ turns) :
    (inverseLoop c.prime turns result factor exponent : ZMod c.prime) = result * (factor : ZMod c.prime) ^ exponent := by
  induction turns generalizing result factor exponent with
  | zero =>
    obtain rfl : exponent = 0 := by omega
    simp [inverseLoop]
  | succ turns ih =>
    rw [inverseLoop]
    split
    · rename_i zero
      simp [zero]
    · have half : exponent / 2 < 2 ^ turns := by omega
      rw [ih _ _ _ half]
      have whole := Nat.div_add_mod exponent 2
      have square : ((if exponent / 2 = 0 then factor else multiplyMod factor factor c.prime : Nat) : ZMod c.prime) ^
          (exponent / 2) = (factor : ZMod c.prime) ^ (2 * (exponent / 2)) := by
        split
        · rename_i zero
          simp [zero]
        · rw [multiplyMod_cast, ← pow_two, pow_mul]
      rw [square]
      split
      · rename_i odd
        rw [multiplyMod_cast, mul_assoc, ← pow_succ']
        congr 2
        omega
      · congr 2
        omega

theorem inverseMod_cast {value : Nat} (nonzero : (value : ZMod c.prime) ≠ 0) :
    (inverseMod value c.prime : ZMod c.prime) = (value : ZMod c.prime)⁻¹ := by
  have two := two_le_prime c
  have bound : c.prime - 2 < 2 ^ 32 := by
    have := c.primeBound
    unfold fpolyMaxPrime at this
    omega
  rw [inverseMod, inverseLoop_cast _ _ _ _ bound, Nat.cast_one, one_mul]
  refine eq_inv_of_mul_eq_one_left ?_
  rw [← pow_succ, show c.prime - 2 + 1 = c.prime - 1 by omega, ZMod.pow_card_sub_one_eq_one nonzero]

end

variable {good : Unit → Budget → Prop} {bad : Status → Budget → Prop}

theorem poll_spec (b : Budget)
    (returns : ∀ b, good () b) (stopped : ∀ b, bad .interrupted b) : wp (poll c) good bad b := by
  unfold poll
  split
  · exact returns b
  · simp only [wp_bind, wp_get, wp_set]
    exact wp_ite (fun _ => stopped _) (fun _ => returns _)

theorem beginOperation_spec (b : Budget)
    (returns : ∀ b, good () b) (stopped : ∀ b, bad .interrupted b) : wp (beginOperation c) good bad b := by
  unfold beginOperation
  simp only [wp_bind, wp_modify]
  exact poll_spec c _ returns stopped

theorem step_spec (amount : Nat) (b : Budget)
    (returns : ∀ b, good () b) (stopped : ∀ b, bad .interrupted b) (exhausted : ∀ b, bad .timeout b) :
    wp (step c amount) good bad b := by
  unfold step
  simp only [wp_bind, wp_get]
  refine poll_spec c b (fun b => ?_) stopped
  exact wp_ite (fun _ => exhausted _) (fun _ => returns _)

end PhyNspire.FinitePoly.Residues

import PhyNspire.FinitePoly.Division

/-!
Greatest common divisors with their cofactors, and powers modulo a polynomial.
-/

namespace PhyNspire.FinitePoly.Euclid
open Residues Dense Arithmetic Division Polynomial

variable {c : FpolyContext} {words left right : List Nat}

/-- Two pairs of polynomials have the same common divisors. -/
def SameDivisors (a b f g : (ZMod c.prime)[X]) : Prop := ∀ d, d ∣ a ∧ d ∣ b ↔ d ∣ f ∧ d ∣ g

theorem SameDivisors.turn {a b f g : (ZMod c.prime)[X]} (same : SameDivisors a b f g) : SameDivisors b (a % b) f g := by
  intro d
  rw [← same d]
  have split := EuclideanDomain.div_add_mod a b
  constructor
  · rintro ⟨first, second⟩
    refine ⟨?_, first⟩
    rw [← split]
    exact dvd_add (first.mul_right _) second
  · rintro ⟨first, second⟩
    exact ⟨second, (EuclideanDomain.dvd_mod_iff second).mpr first⟩

theorem SameDivisors.finish {a b f g : (ZMod c.prime)[X]} (same : SameDivisors a b f g) (zero : b = 0) :
    normalize a = normalize (EuclideanDomain.gcd f g) := by
  have divides := (same a).mp ⟨dvd_rfl, zero ▸ dvd_zero a⟩
  have common := (same (EuclideanDomain.gcd f g)).mpr ⟨EuclideanDomain.gcd_dvd_left f g, EuclideanDomain.gcd_dvd_right f g⟩
  exact normalize_eq_normalize (EuclideanDomain.dvd_gcd divides.1 divides.2) common.1

theorem gcdLoop_eq {f g : (ZMod c.prime)[X]} (turns : Nat) (a b : List Nat) (clean : Clean c a) (clean' : Clean c b)
    (same : SameDivisors (value c a) (value c b) f g) (enough : b.length < turns) :
    Computes (gcdLoop c turns a b) fun out => Clean c out ∧ normalize (value c out) = normalize (EuclideanDomain.gcd f g) ∧
      (out.length ≤ a.length ∨ out.length ≤ b.length) := by
  induction turns generalizing a b with
  | zero => exact absurd enough (Nat.not_lt_zero _)
  | succ turns ih =>
    refine .ite (fun empty => .pure ⟨clean, ?_, .inl (Nat.le_refl _)⟩) (fun _ => ?_)
    · exact same.finish (clean'.length_eq_zero_iff.mp empty)
    · refine .bind (remainderInternal_eq clean clean') ?_
      rintro remainder ⟨_, clean_r, shorter, result⟩
      refine (ih b remainder clean' clean_r (result ▸ same.turn) (by omega)).mono ?_
      rintro out ⟨clean_out, divisor, short⟩
      exact ⟨clean_out, divisor, .inr (by omega)⟩

theorem gcdInternal_eq (clean : Clean c left) (clean' : Clean c right) :
    Computes (gcdInternal c left right) fun out =>
      Clean c out ∧ value c out = normalize (EuclideanDomain.gcd (value c left) (value c right)) ∧
        out.length ≤ max left.length right.length := by
  refine .bind (gcdLoop_eq _ left right clean clean' (fun _ => Iff.rfl) (Nat.lt_succ_self _)) ?_
  rintro a ⟨clean_a, divisor, short⟩
  refine (makeMonic_eq clean_a).mono ?_
  rintro out ⟨length, clean_out, monic⟩
  exact ⟨clean_out, monic.trans divisor, by omega⟩

theorem commonWithDerivative_eq (clean : Clean c words) : Computes (commonWithDerivative c words) fun out =>
    Clean c out ∧ value c out = normalize (EuclideanDomain.gcd (value c words) (derivative (value c words))) := by
  refine .bind (derivativeWords_eq words) ?_
  rintro slope ⟨_, clean', result⟩
  refine (gcdInternal_eq clean clean').mono ?_
  rintro out ⟨clean_out, divisor, _⟩
  exact ⟨clean_out, by rw [divisor, result]⟩

/-- Both remainders are combinations of the two polynomials. -/
structure Bezout (left right : List Nat) (s : Cofactors) : Prop where
  validOld : wordsValid c s.oldRemainder = true
  valid : wordsValid c s.remainder = true
  validOldLeft : wordsValid c s.oldLeft = true
  validLeft : wordsValid c s.leftCofactor = true
  validOldRight : wordsValid c s.oldRight = true
  validRight : wordsValid c s.rightCofactor = true
  divisors : SameDivisors (value c s.oldRemainder) (value c s.remainder) (value c left) (value c right)
  oldIdentity : value c s.oldRemainder = value c s.oldLeft * value c left + value c s.oldRight * value c right
  identity : value c s.remainder = value c s.leftCofactor * value c left + value c s.rightCofactor * value c right

theorem xgcdLoop_eq (turns : Nat) (s : Cofactors) (bezout : Bezout (c := c) left right s)
    (enough : s.remainder.length < turns) :
    Computes (xgcdLoop c turns s) fun t => Bezout (c := c) left right t ∧ value c t.remainder = 0 := by
  induction turns generalizing s with
  | zero => exact absurd enough (Nat.not_lt_zero _)
  | succ turns ih =>
    have clean := (wordsValid_iff.mp bezout.validOld).2
    have clean' := (wordsValid_iff.mp bezout.valid).2
    refine .ite (fun empty => .pure ⟨bezout, clean'.length_eq_zero_iff.mp empty⟩) (fun _ => ?_)
    refine .bind (divremInternal_eq clean clean') ?_
    rintro ⟨quotient, next⟩ ⟨_, clean_q, clean_r, _, shorter, quotient_eq, remainder_eq⟩
    refine .bind (multiplyInternal_eq clean_q (wordsValid_iff.mp bezout.validLeft).2) ?_
    rintro product ⟨valid_product, product_eq⟩
    refine .bind (subtractInternal_eq bezout.validOldLeft valid_product) ?_
    rintro nextLeft ⟨valid_left, left_eq⟩
    refine .bind (multiplyInternal_eq clean_q (wordsValid_iff.mp bezout.validRight).2) ?_
    rintro product' ⟨valid_product', product_eq'⟩
    refine .bind (subtractInternal_eq bezout.validOldRight valid_product') ?_
    rintro nextRight ⟨valid_right, right_eq⟩
    have short : next.length ≤ c.limits.maxDegree.toNat + 1 := by
      have := (wordsValid_iff.mp bezout.valid).1
      have : next.length < s.remainder.length := shorter
      omega
    have enough' : next.length < turns := by
      have : next.length < s.remainder.length := shorter
      omega
    refine ih _ ⟨bezout.valid, wordsValid_iff.mpr ⟨short, clean_r⟩, bezout.validLeft, valid_left, bezout.validRight,
      valid_right, ?_, bezout.identity, ?_⟩ enough'
    · change SameDivisors (value c s.remainder) (value c next) _ _
      rw [show value c next = _ from remainder_eq]
      exact bezout.divisors.turn
    · change value c next = value c nextLeft * value c left + value c nextRight * value c right
      have division := EuclideanDomain.div_add_mod (value c s.oldRemainder) (value c s.remainder)
      rw [show value c quotient = _ from quotient_eq] at product_eq product_eq'
      rw [show value c next = _ from remainder_eq, left_eq, right_eq, product_eq, product_eq']
      have old := bezout.oldIdentity
      have new := bezout.identity
      calc value c s.oldRemainder % value c s.remainder
          = value c s.oldRemainder - value c s.remainder * (value c s.oldRemainder / value c s.remainder) :=
            eq_sub_of_add_eq' division
        _ = _ := by
            generalize value c s.oldRemainder / value c s.remainder = q
            rw [old, new]
            ring

theorem xgcdInternal_eq (valid : wordsValid c left = true) (valid' : wordsValid c right = true) :
    Computes (xgcdInternal c left right) fun out =>
      wordsValid c out.1 = true ∧ wordsValid c out.2.1 = true ∧ wordsValid c out.2.2 = true ∧
        value c out.1 = normalize (EuclideanDomain.gcd (value c left) (value c right)) ∧
        value c out.1 = value c out.2.1 * value c left + value c out.2.2 * value c right := by
  have nothing : wordsValid c [] = true := wordsValid_iff.mpr ⟨Nat.zero_le _, clean_nil⟩
  have unit : wordsValid c [1] = true := wordsValid_iff.mpr ⟨by simp, clean_one⟩
  refine .ite (fun empty => .pure ?_) (fun _ => ?_)
  · obtain rfl := List.length_eq_zero_iff.mp empty.1
    obtain rfl := List.length_eq_zero_iff.mp empty.2
    exact ⟨nothing, nothing, nothing, by simp, by simp⟩
  · have start : Bezout (c := c) left right ⟨left, right, [1], [], [], [1]⟩ :=
      ⟨valid, valid', unit, nothing, nothing, unit, fun _ => Iff.rfl, by simp [value_one], by simp [value_one]⟩
    refine .bind (xgcdLoop_eq _ _ start (Nat.lt_succ_self _)) ?_
    rintro s ⟨bezout, zero⟩
    have clean := (wordsValid_iff.mp bezout.validOld).2
    have divisor := bezout.divisors.finish zero
    refine .ite (fun positive => ?_) (fun empty => .pure ?_)
    · have nonempty : s.oldRemainder ≠ [] := fun empty => positive (by rw [empty]; rfl)
      have nonzero := clean.eq_zero_iff.not.mpr nonempty
      have scaled : ∀ words, wordsValid c words = true →
          Computes (scaleInternal c words (inverseMod (leading s.oldRemainder) c.prime)) fun out =>
            wordsValid c out = true ∧
              value c out = C (value c s.oldRemainder).leadingCoeff⁻¹ * value c words := by
        intro words valid
        refine (scaleInternal_eq (wordsValid_iff.mp valid).2 _).mono ?_
        rintro out ⟨shorter, clean_out, product⟩
        refine ⟨wordsValid_iff.mpr ⟨shorter.trans (wordsValid_iff.mp valid).1, clean_out⟩, ?_⟩
        rw [product, inverseMod_cast (clean.leading_ne_zero nonempty), clean.leadingCoeff]
      refine .bind (scaled _ bezout.validOld) ?_
      rintro gcd ⟨valid_gcd, gcd_eq⟩
      refine .bind (scaled _ bezout.validOldLeft) ?_
      rintro first ⟨valid_first, first_eq⟩
      refine .bind (scaled _ bezout.validOldRight) ?_
      rintro second ⟨valid_second, second_eq⟩
      refine .pure ⟨valid_gcd, valid_first, valid_second, ?_, ?_⟩
      · rw [← divisor, normalize_apply, coe_normUnit_of_ne_zero nonzero, mul_comm]
        exact gcd_eq
      · change value c gcd = value c first * value c left + value c second * value c right
        rw [gcd_eq, first_eq, second_eq]
        generalize (value c s.oldRemainder).leadingCoeff⁻¹ = inverse
        rw [bezout.oldIdentity]
        ring
    · have empty : s.oldRemainder.length = 0 := by simpa using empty
      have zero := clean.length_eq_zero_iff.mp empty
      refine ⟨bezout.validOld, bezout.validOldLeft, bezout.validOldRight, ?_, bezout.oldIdentity⟩
      rw [← divisor, zero, normalize_zero]

section
variable {K : Type} [Field K] {m : K[X]}

theorem mk_mod (f : K[X]) : AdjoinRoot.mk m (f % m) = AdjoinRoot.mk m f := by
  refine AdjoinRoot.mk_eq_mk.mpr ⟨-(f / m), ?_⟩
  rw [EuclideanDomain.mod_eq_sub_mul_div]
  ring

theorem eq_mod_of_mk {f g : K[X]} (nonzero : m ≠ 0) (below : f.degree < m.degree)
    (same : AdjoinRoot.mk m f = AdjoinRoot.mk m g) : f = g % m := by
  rw [← mod_eq_of_dvd_sub (AdjoinRoot.mk_eq_mk.mp same), (mod_eq_self_iff nonzero).mpr below]

end

theorem powmodLoop_eq {modulus : List Nat} (clean : Clean c modulus) (turns : Nat) (result factor : List Nat)
    (exponent : Nat) (clean_r : Clean c result) (clean_f : Clean c factor) (short : result.length < modulus.length)
    (enough : exponent < 2 ^ turns) :
    Computes (powmodLoop c modulus turns result factor exponent) fun out =>
      Clean c out ∧ out.length < modulus.length ∧
        AdjoinRoot.mk (value c modulus) (value c out) =
          AdjoinRoot.mk (value c modulus) (value c result * value c factor ^ exponent) := by
  induction turns generalizing result factor exponent with
  | zero =>
    obtain rfl : exponent = 0 := by omega
    exact .pure ⟨clean_r, short, by rw [pow_zero, mul_one]⟩
  | succ turns ih =>
    refine .ite (fun zero => .pure ⟨clean_r, short, by rw [zero, pow_zero, mul_one]⟩) (fun _ => ?_)
    have half : exponent / 2 < 2 ^ turns := by omega
    have whole := Nat.div_add_mod exponent 2
    have multiplied : Computes (if exponent % 2 = 1 then multiplyRemainderInternal c result factor modulus else pure result)
        fun out => Clean c out ∧ out.length < modulus.length ∧
          AdjoinRoot.mk (value c modulus) (value c out) =
            AdjoinRoot.mk (value c modulus) (value c result * value c factor ^ (exponent % 2)) := by
      refine .ite (fun odd => ?_) (fun even => .pure ⟨clean_r, short, ?_⟩)
      · refine (multiplyRemainderInternal_eq clean_r clean_f clean).mono ?_
        rintro out ⟨_, clean_out, short_out, product⟩
        exact ⟨clean_out, short_out, by rw [product, mk_mod, odd, pow_one]⟩
      · rw [show exponent % 2 = 0 by omega, pow_zero, mul_one]
    refine .bind multiplied ?_
    rintro result' ⟨clean_r', short', first⟩
    have squared : Computes (if exponent / 2 = 0 then pure factor else multiplyRemainderInternal c factor factor modulus)
        fun out => Clean c out ∧ (AdjoinRoot.mk (value c modulus) (value c out)) ^ (exponent / 2) =
          AdjoinRoot.mk (value c modulus) (value c factor ^ (2 * (exponent / 2))) := by
      refine .ite (fun zero => .pure ⟨clean_f, by rw [zero, mul_zero, pow_zero, pow_zero, map_one]⟩) (fun _ => ?_)
      refine (multiplyRemainderInternal_eq clean_f clean_f clean).mono ?_
      rintro out ⟨_, clean_out, _, product⟩
      exact ⟨clean_out, by rw [product, mk_mod, ← pow_two, ← map_pow, ← pow_mul]⟩
    refine .bind squared ?_
    rintro factor' ⟨clean_f', second⟩
    refine (ih result' factor' (exponent / 2) clean_r' clean_f' short' half).mono ?_
    rintro out ⟨clean_out, short_out, power⟩
    refine ⟨clean_out, short_out, ?_⟩
    rw [power, map_mul, map_pow, second, first, ← map_mul, mul_assoc, ← pow_add,
      show exponent % 2 + 2 * (exponent / 2) = exponent by omega]

theorem powmodInternal_eq {base modulus : List Nat} (clean : Clean c base) (clean' : Clean c modulus) {exponent : Nat}
    (enough : exponent < 2 ^ 64) :
    Computes (powmodInternal c base exponent modulus) fun out =>
      value c modulus ≠ 0 ∧ Clean c out ∧ out.length < modulus.length ∧
        value c out = value c base ^ exponent % value c modulus := by
  refine .bind (remainderInternal_eq clean_one clean') ?_
  rintro result ⟨nonzero, clean_r, short, one⟩
  refine .bind (remainderInternal_eq clean clean') ?_
  rintro factor ⟨_, clean_f, _, residue⟩
  refine (powmodLoop_eq clean' 64 result factor exponent clean_r clean_f short enough).mono ?_
  rintro out ⟨clean_out, short_out, power⟩
  have nonempty : modulus ≠ [] := clean'.eq_zero_iff.not.mp nonzero
  refine ⟨nonzero, clean_out, short_out,
    eq_mod_of_mk nonzero ((clean_out.degree_lt_iff clean' nonempty).mpr short_out) ?_⟩
  rw [power, one, residue, map_mul, map_pow, mk_mod, mk_mod, value_one, map_one, one_mul, map_pow]

end PhyNspire.FinitePoly.Euclid

import PhyNspire.Cas.ProductWorth

/-!
Powers keep their value: square parts come out of a root, powers of the imaginary unit repeat after
four, and an integer exponent goes into a power and over the factors of a product.
-/

namespace PhyNspire.Cas.Core
open Lib Lib.Trees Ir.Expressions Num
open Values Reading
open SparsePoly (integerValue)

theorem stripDivisor_eq (divisor turns remaining multiplicity : Nat) (positive : 0 < remaining) :
    0 < (stripDivisor divisor turns remaining multiplicity).1 ∧
      (stripDivisor divisor turns remaining multiplicity).1 *
        divisor ^ (stripDivisor divisor turns remaining multiplicity).2 = remaining * divisor ^ multiplicity := by
  induction turns generalizing remaining multiplicity with
  | zero => exact ⟨positive, rfl⟩
  | succ turns ih =>
    unfold stripDivisor
    split
    · rename_i divides
      have whole : remaining / divisor * divisor = remaining := Nat.div_mul_cancel (Nat.dvd_of_mod_eq_zero divides)
      have smaller : 0 < remaining / divisor := by
        by_contra none
        rw [Nat.eq_zero_of_not_pos none, zero_mul] at whole
        omega
      obtain ⟨positive', same⟩ := ih (remaining / divisor) (multiplicity + 1) smaller
      refine ⟨positive', same.trans ?_⟩
      calc remaining / divisor * divisor ^ (multiplicity + 1)
          = remaining / divisor * divisor * divisor ^ multiplicity := by ring
        _ = remaining * divisor ^ multiplicity := by rw [whole]
    · exact ⟨positive, rfl⟩

structure Decomposes (value left root free : Nat) : Prop where
  remaining : 0 < left
  square : 0 < root
  squareFree : 0 < free
  whole : left * root ^ 2 * free = value

theorem squareLoop_decomposes {value : Nat} (turns divisor remaining square squareFree : Nat) (some : 0 < divisor)
    (parts : Decomposes value remaining square squareFree) :
    Decomposes value (squareLoop turns divisor remaining square squareFree).1
      (squareLoop turns divisor remaining square squareFree).2.1
      (squareLoop turns divisor remaining square squareFree).2.2 := by
  induction turns generalizing divisor remaining square squareFree with
  | zero => exact parts
  | succ turns ih =>
    unfold squareLoop
    split
    · obtain ⟨positive, same⟩ := stripDivisor_eq divisor 20 remaining 0 parts.remaining
      generalize stripDivisor divisor 20 remaining 0 = stripped at positive same ⊢
      rw [pow_zero, mul_one] at same
      apply ih _ _ _ _ (Nat.succ_pos divisor)
      have powers : divisor ^ stripped.2 = (divisor ^ (stripped.2 / 2)) ^ 2 * divisor ^ (stripped.2 % 2) := by
        rw [← pow_mul, ← pow_add]
        congr 1
        omega
      rw [powers] at same
      refine ⟨positive, Nat.mul_pos parts.square (Nat.pow_pos some), ?_, ?_⟩
      · split
        · exact Nat.mul_pos parts.squareFree some
        · exact parts.squareFree
      · rw [← parts.whole, ← same]
        rcases Nat.mod_two_eq_zero_or_one stripped.2 with even | odd
        · rw [even, if_neg (by decide), pow_zero]
          ring
        · rw [odd, if_pos rfl, pow_one]
          ring
    · exact parts

theorem squareDecomposeBounded_some {value : Int} {square squareFree : Nat}
    (found : squareDecomposeBounded value = some (square, squareFree)) :
    0 < square ∧ 0 < squareFree ∧ (value : ℚ) = (square : ℚ) ^ 2 * squareFree := by
  unfold squareDecomposeBounded at found
  split at found
  · cases found
  · rename_i range
    have start : Decomposes value.toNat value.toNat 1 1 := ⟨by omega, Nat.one_pos, Nat.one_pos, by ring⟩
    have parts := squareLoop_decomposes 1000 2 value.toNat 1 1 (by decide) start
    generalize squareLoop 1000 2 value.toNat 1 1 = result at parts found
    obtain ⟨remaining, root, free⟩ := result
    have whole : (value : ℚ) = (value.toNat : ℚ) := by
      have same : (value.toNat : Int) = value := Int.toNat_of_nonneg (by omega)
      exact_mod_cast same.symm
    cases found
    refine ⟨parts.square, ?_, ?_⟩
    · split
      · exact Nat.mul_pos parts.squareFree parts.remaining
      · exact parts.squareFree
    · rw [whole, ← parts.whole]
      split
      · push_cast
        ring
      · have last : remaining = 1 := by
          have positive := parts.remaining
          omega
        rw [last]
        push_cast
        ring

theorem splitRadicand_some {q coefficient radicand : ℚ} (fits : Inline q)
    (found : splitRadicand (CasRat.ofRat q) = some (coefficient, radicand)) :
    0 < coefficient ∧ 0 < radicand ∧ q = coefficient ^ 2 * radicand := by
  unfold splitRadicand at found
  split at found
  · rename_i numeratorSquare numeratorFree denominatorSquare denominatorFree above below
    cases found
    rw [CasRat.num_ofRat fits] at above
    rw [CasRat.den_ofRat fits] at below
    obtain ⟨first, second, numerator⟩ := squareDecomposeBounded_some above
    obtain ⟨first', second', denominator⟩ := squareDecomposeBounded_some below
    have fraction : q = (q.num : ℚ) / ((q.den : Int) : ℚ) := by
      rw [Int.cast_natCast]
      exact (Rat.num_div_den q).symm
    refine ⟨by positivity, by positivity, ?_⟩
    rw [fraction, numerator, denominator]
    field_simp
  · cases found

section Roots

variable {K : Type} [Field K] [DecidableEq K] {truth : Truth} {self : Calls} {reading : Reading K}

theorem meets_standing (base exponent : Expr) :
    Meets truth (standing base exponent) fun r => reading.Keeps (.node .pow [base, exponent]) r :=
  (meets_irNode _ _).mono fun _ same => same ▸ Keeps.refl _

theorem meets_squareRoot (sound : self.Sound truth reading) {coefficient radicand : ℚ} (first : 0 < coefficient)
    (second : 0 < radicand) :
    Meets truth (squareRoot self (exactNode (coefficient ^ 2 * radicand)) (exactNode (1 / 2)) coefficient radicand) fun r =>
      reading.Keeps (.node .pow [exactNode (coefficient ^ 2 * radicand), exactNode (1 / 2)]) r := by
  have comesOut {p : K} (known : reading.eval (.node .pow [exactNode (coefficient ^ 2 * radicand), exactNode (1 / 2)]) = some p) :
      ∃ t, reading.raise (radicand : K) (1 / 2) = some t ∧ p = coefficient * t := by
    rw [eval_pow, eval_exact, Option.bind_some] at known
    exact reading.raise_half first second known
  apply meets_ite
  · intro square
    apply (meets_irNode _ _).mono
    intro r same p known
    obtain ⟨t, root, rfl⟩ := comesOut known
    rw [square, Rat.cast_one] at root
    have fractional : (1 / 2 : ℚ).den ≠ 1 := by decide +kernel
    rw [Branch.raise, raiseBy, if_neg fractional] at root
    rw [reading.root_one root, mul_one, same]
    exact eval_exact coefficient
  · intro _
    apply meets_ite
    · intro _
      apply (meets_irNode _ _).bind
      intro outer same
      obtain rfl : outer = exactNode coefficient := same
      apply (meets_irNode _ _).bind
      intro inner same
      obtain rfl : inner = exactNode radicand := same
      apply (meets_irNode _ _).bind
      intro root same
      apply (sound.mul _).mono
      intro r kept p known
      obtain ⟨t, raised, rfl⟩ := comesOut known
      apply kept
      rw [same]
      refine (eval_cons (.inr rfl)).mpr ⟨coefficient, t, eval_exact _, ?_, by rw [combine_mul, List.prod_pair]⟩
      rw [eval_single (.inr rfl), eval_pow, eval_exact, Option.bind_some, raised]
    · intro _
      exact meets_standing _ _

omit [DecidableEq K] in
theorem unit_zpow {i : K} (square : i * i = -1) (k : Int) : i ^ k = i ^ (k % 4).toNat := by
  have nonzero : i ≠ 0 := by
    rintro rfl
    rw [mul_zero] at square
    exact neg_ne_zero.mpr one_ne_zero square.symm
  have fourth : i ^ (4 : Int) = 1 := by
    calc i ^ (4 : Int) = i * i * (i * i) := by
          rw [show (4 : Int) = ((4 : Nat) : Int) from rfl, zpow_natCast]
          ring
      _ = 1 := by rw [square]; ring
  have small : ((k % 4).toNat : Int) = k % 4 := Int.toNat_of_nonneg (Int.emod_nonneg k (by decide))
  calc i ^ k = i ^ (4 * (k / 4) + k % 4) := by rw [Int.mul_ediv_add_emod]
    _ = (i ^ (4 : Int)) ^ (k / 4) * i ^ (k % 4) := by rw [zpow_add₀ nonzero, zpow_mul]
    _ = i ^ (k % 4).toNat := by rw [fourth, one_zpow, one_mul, ← zpow_natCast, small]

theorem meets_unitPower {q : ℚ} (whole : q.den = 1) :
    Meets truth (unitPower q) fun r => reading.Keeps (.node .pow [constantI, exactNode q]) r := by
  have power {p : K} (known : reading.eval (.node .pow [constantI, exactNode q]) = some p) :
      ∃ i, reading.symbol unitName = some i ∧ i * i = -1 ∧ p = i ^ (q.num % 4).toNat := by
    obtain ⟨i, _, worth, shape, raised⟩ := eval_pow_some known
    cases shape
    rw [constantI, eval_symbol] at worth
    rw [← Rat.coe_int_num_of_den_eq_one whole] at raised
    rw [raise_int raised]
    exact ⟨i, worth, reading.unit_square worth, by rw [unit_zpow (reading.unit_square worth)]⟩
  have unit {i : K} (worth : reading.symbol unitName = some i) : reading.eval constantI = some i := by
    rw [constantI, eval_symbol, worth]
  have below : (q.num % 4).toNat < 4 := by omega
  apply meets_request.seq
  intro _
  generalize (q.num % 4).toNat = rest at power below
  split
  · apply meets_pure
    intro p known
    obtain ⟨i, _, _, rfl⟩ := power known
    rw [one, eval_exact, Rat.cast_one, pow_zero]
  · apply meets_pure
    intro p known
    obtain ⟨i, worth, _, rfl⟩ := power known
    rw [unit worth, pow_one]
  · apply meets_pure
    intro p known
    obtain ⟨i, _, square, rfl⟩ := power known
    rw [minusOne, eval_exact, pow_two, square]
    norm_num
  · rename_i notZero notOne notTwo
    have zero : rest ≠ 0 := notZero
    have one : rest ≠ 1 := notOne
    have two : rest ≠ 2 := notTwo
    obtain rfl : rest = 3 := by omega
    apply (meets_irNary _ _).mono
    intro r same p known
    obtain ⟨i, worth, square, rfl⟩ := power known
    have product : reading.eval (.node .mul [minusOne, constantI]) = some (-1 * i) := by
      simp [evalAll_cons, minusOne, unit worth]
    rw [same, keeps_nary (.inr rfl) _ _ product, ← square]
    ring_nf

end Roots

section Powers

variable {K : Type} [Field K] [DecidableEq K] {truth : Truth} {self : Calls} {reading : Reading K}
  (sound : self.Sound truth reading)

theorem eval_power_int {base : Expr} {k : Int} {p : K} : reading.eval (.node .pow [base, exactNode k]) = some p ↔
    ∃ u, reading.eval base = some u ∧ (u ≠ 0 ∨ 0 < k) ∧ p = u ^ k := by
  rw [eval_pow, Option.bind_eq_some_iff]
  constructor
  · intro parts
    obtain ⟨u, worth, raised⟩ := parts
    exact ⟨u, worth, defined_of_raise raised, raise_int raised⟩
  · intro parts
    obtain ⟨u, worth, defined, rfl⟩ := parts
    exact ⟨u, worth, raise_of_int defined⟩

include sound in
theorem meets_powAll (k : Int) (factors : List Expr) :
    Meets truth (powAll self (exactNode k) factors) fun powers => ∀ p, reading.eval (.node .mul factors) = some p →
      (p ≠ 0 ∨ 0 < k) → reading.eval (.node .mul powers) = some (p ^ k) := by
  induction factors with
  | nil =>
    apply meets_pure
    intro p known _
    rw [eval_nil (.inr rfl)] at known ⊢
    cases known
    simp
  | cons factor rest ih =>
    apply (sound.pow factor (exactNode k)).bind
    intro power worth
    apply ih.bind
    intro powers worth'
    apply meets_pure
    intro p known defined
    obtain ⟨u, v, here, later, rfl⟩ := (eval_cons (.inr rfl)).mp known
    rw [combine_mul, List.prod_pair] at defined ⊢
    have first : u ≠ 0 ∨ 0 < k := defined.imp_left left_ne_zero_of_mul
    have second : v ≠ 0 ∨ 0 < k := defined.imp_left right_ne_zero_of_mul
    rw [mul_zpow]
    refine (eval_cons (.inr rfl)).mpr ⟨u ^ k, v ^ k, ?_, worth' v later second, by rw [combine_mul, List.prod_pair]⟩
    exact worth _ (eval_power_int.mpr ⟨u, here, first, rfl⟩)

include sound in
theorem meets_innerPower (inner power exponent : Expr) {k : Int} (whole : exponent = exactNode k ∨ ∀ q, exponent ≠ exactNode q) :
    Meets truth (self.mulNode [power, exponent] >>= fun product => self.powNode inner product) fun r =>
      reading.Keeps (.node .pow [.node .pow [inner, power], exponent]) r := by
  by_cases numbers : exponent = exactNode k ∧ ∃ a, power = exactNode a
  · obtain ⟨rfl, a, rfl⟩ := numbers
    apply (sound.mulExact a k).bind
    rintro _ rfl
    apply (sound.pow inner _).mono
    intro r kept p known
    obtain ⟨w, worth, defined, rfl⟩ := eval_power_int.mp known
    rw [eval_pow] at worth
    obtain ⟨u, value, raised⟩ := Option.bind_eq_some_iff.mp worth
    apply kept
    rw [eval_pow, value, Option.bind_some]
    exact raise_mul raised (raise_of_int defined)
  · apply (sound.mul _).seq
    intro product
    apply (sound.pow inner product).mono
    intro r _ p known
    obtain ⟨w, q, worth, rational, _⟩ := eval_pow_some known
    obtain ⟨_, a, _, rational', _⟩ := eval_pow_some worth
    rcases whole with exact | none
    · exact absurd ⟨exact, a, rational'⟩ numbers
    · exact absurd rational (none q)

theorem exact_of_integerValue {exponent : Expr} {k : Int} (integer : integerValue exponent = some k) :
    exponent = exactNode k ∨ ∀ q, exponent ≠ exactNode q := by
  obtain ⟨children, rfl, _⟩ := integerValue_some integer
  cases children with
  | nil => exact .inl rfl
  | cons first rest => exact .inr (fun q same => by cases same)

variable [CharZero K]

include sound in
theorem meets_integerPower {base exponent : Expr} {k : Int} (nonzero : base ≠ exactNode 0)
    (integer : integerValue exponent = some k) :
    Meets truth (integerPower self base exponent k) fun r => reading.Keeps (.node .pow [base, exponent]) r := by
  obtain ⟨_, _, fits⟩ := integerValue_some integer
  unfold integerPower
  split
  · rename_i q
    have some : q ≠ 0 := by
      rintro rfl
      exact nonzero rfl
    apply (meets_powExact some fits).bind
    intro power raised
    split
    · rename_i value
      apply (meets_irNode _ _).mono
      intro r same p known
      rcases exact_of_integerValue integer with rfl | none
      · obtain ⟨u, worth, _, rfl⟩ := eval_power_int.mp known
        rw [show Rose.node (Label.exact q) [] = exactNode q from rfl, eval_exact] at worth
        cases worth
        rw [same, raised value rfl, show Rose.node (Label.exact (q ^ k)) [] = exactNode (q ^ k) from rfl, eval_exact,
          Rat.cast_zpow]
      · obtain ⟨_, a, _, rational, _⟩ := eval_pow_some known
        exact absurd rational (none a)
    · exact meets_standing _ _
  · rename_i inner power
    exact meets_innerPower sound inner power exponent (exact_of_integerValue integer)
  · rename_i factors
    apply meets_request.seq
    intro _
    rcases exact_of_integerValue integer with rfl | none
    · apply (meets_powAll sound k factors).bind
      intro powers worth
      apply (meets_mulAt sound powers).mono
      intro r kept p known
      obtain ⟨u, value, defined, rfl⟩ := eval_power_int.mp known
      exact kept _ (worth u value defined)
    · have trusted : Meets truth (powAll self exponent factors) fun _ => True := by
        generalize factors = operands
        induction operands with
        | nil => exact meets_pure trivial
        | cons factor rest ih => exact (sound.pow _ _).seq fun _ => ih.seq fun _ => meets_pure trivial
      apply trusted.seq
      intro powers
      apply (meets_mulAt sound powers).mono
      intro r _ p known
      obtain ⟨_, a, _, rational, _⟩ := eval_pow_some known
      exact absurd rational (none a)
  · exact meets_standing _ _

include sound in
theorem meets_anyPower {base exponent : Expr} (nonzero : base ≠ exactNode 0) :
    Meets truth (generalPower.anyPower self base exponent) fun r => reading.Keeps (.node .pow [base, exponent]) r := by
  unfold generalPower.anyPower
  split
  · rename_i k integer
    exact meets_integerPower sound nonzero integer
  · exact meets_standing _ _

theorem inline_zero : Inline 0 := by
  unfold Inline
  decide +kernel

theorem nonzero_of_exactValue {base : Expr} (value : ∀ number, exactValue base = some number → number.num ≠ 0) :
    base ≠ exactNode 0 := by
  rintro rfl
  have known : exactValue (exactNode 0) = some (CasRat.ofRat 0) := by
    unfold exactValue
    exact if_pos inline_zero
  exact value _ known (by decide +kernel)

theorem zero_of_exactValue {base : Expr} {number : CasRat} (known : exactValue base = some number) (zero : number.num = 0) :
    base = exactNode 0 := by
  obtain ⟨q, shape, fits, rfl⟩ := exactValue_some known
  have num := CasRat.num_ofRat fits
  rw [zero, show (0 : Int64).toInt = 0 from rfl] at num
  rw [exactOf_some shape, Rat.zero_of_num_zero num.symm]

include sound in
theorem meets_generalPower (base exponent : Expr) :
    Meets truth (generalPower self base exponent) fun r => reading.Keeps (.node .pow [base, exponent]) r := by
  unfold generalPower
  split
  · rename_i number power known known'
    apply meets_ite
    · intro zero
      apply meets_ite
      · intro _
        exact meets_refuse _
      · intro _
        apply meets_pure
        rw [zero_of_exactValue known zero]
        intro p worth
        obtain ⟨u, q, value, rfl, raised⟩ := eval_pow_some worth
        rw [eval_exact, Rat.cast_zero] at value
        cases value
        rw [(raise_zero_base raised).2.2, Core.zero, eval_exact, Rat.cast_zero]
    · intro nonzero
      have someBase : base ≠ exactNode 0 := nonzero_of_exactValue fun number' same => by
        rw [known] at same
        cases same
        exact nonzero
      apply meets_ite
      · intro half
        split
        · rename_i coefficient radicand found
          obtain ⟨q, shape, fits, rfl⟩ := exactValue_some known
          obtain ⟨e, shape', fits', rfl⟩ := exactValue_some known'
          obtain ⟨first, second, rfl⟩ := splitRadicand_some fits found
          have exponentHalf : e = 1 / 2 := by
            have num := CasRat.num_ofRat fits'
            have den := CasRat.den_ofRat fits'
            rw [half.2.1, show (1 : Int64).toInt = 1 from rfl] at num
            rw [half.2.2, show (2 : Int64).toInt = 2 from rfl] at den
            rw [← Rat.num_div_den e, ← num, show (e.den : ℚ) = ((e.den : Int) : ℚ) from (Int.cast_natCast _).symm, ← den]
            norm_num
          rw [exactOf_some shape, exactOf_some shape', exponentHalf]
          exact meets_squareRoot sound first second
        · exact meets_standing _ _
      · intro _
        exact meets_anyPower sound someBase
  · rename_i number known _
    apply meets_ite
    · intro _
      exact meets_standing _ _
    · intro nonzero
      apply meets_anyPower sound
      apply nonzero_of_exactValue
      intro number' same
      rw [known] at same
      cases same
      exact nonzero
  · rename_i none
    apply meets_anyPower sound
    apply nonzero_of_exactValue
    intro number' same
    rw [none] at same
    cases same

include sound in
theorem meets_trivialPower (base exponent : Expr) :
    Meets truth (trivialPower self base exponent) fun r => reading.Keeps (.node .pow [base, exponent]) r := by
  unfold trivialPower
  split
  · rename_i integer
    apply meets_ite
    · intro _
      exact meets_refuse _
    · intro _
      apply meets_pure
      intro p known
      rcases exact_of_integerValue integer with rfl | none
      · obtain ⟨u, _, _, rfl⟩ := eval_power_int.mp known
        rw [zpow_zero, one, eval_exact, Rat.cast_one]
      · obtain ⟨_, a, _, rational, _⟩ := eval_pow_some known
        exact absurd rational (none a)
  · rename_i integer
    apply meets_pure
    intro p known
    rcases exact_of_integerValue integer with rfl | none
    · obtain ⟨u, worth, _, rfl⟩ := eval_power_int.mp known
      rw [zpow_one, worth]
    · obtain ⟨_, a, _, rational, _⟩ := eval_pow_some known
      exact absurd rational (none a)
  · apply meets_ite
    · intro unit
      apply meets_pure
      intro p known
      obtain ⟨u, q, worth, rfl, raised⟩ := eval_pow_some known
      obtain ⟨children, rfl, _⟩ := integerValue_some (isInteger_iff.mp unit)
      cases children with
      | nil =>
        rw [show Rose.node (Label.exact ((1 : Int) : ℚ)) [] = exactNode ((1 : Int) : ℚ) from rfl, eval_exact, Int.cast_one,
          Rat.cast_one] at worth
        cases worth
        rw [raise_one_base raised, one, eval_exact, Rat.cast_one]
      | cons first rest =>
        rw [eval_exact_cons] at worth
        cases worth
    · intro _
      exact meets_generalPower sound base exponent

omit [CharZero K] in
theorem eval_error {expr : Expr} (failed : isError expr = true) : reading.eval expr = none := by
  unfold isError at failed
  split at failed
  · unfold eval
    rfl
  · cases failed

include sound in
theorem meets_gaussianPower (base exponent : Expr) :
    Meets truth (gaussianPower self base exponent) fun r => reading.Keeps (.node .pow [base, exponent]) r := by
  unfold gaussianPower
  split
  · rename_i k integer
    apply (meets_gaussianPowNode reading base k).bind
    intro found worth
    split
    · rename_i result
      apply meets_pure
      intro p known
      rcases exact_of_integerValue integer with rfl | none
      · obtain ⟨u, value, _, rfl⟩ := eval_power_int.mp known
        exact worth result u rfl value
      · obtain ⟨_, a, _, rational, _⟩ := eval_pow_some known
        exact absurd rational (none a)
    · exact meets_trivialPower sound base exponent
  · exact meets_trivialPower sound base exponent

include sound in
/-- `phy_cas_pow_node` answers with the power. -/
theorem meets_powNode (base exponent : Expr) :
    Meets truth (powNode self base exponent) fun r => reading.Keeps (.node .pow [base, exponent]) r := by
  apply meets_ite
  · intro failed
    apply meets_pure
    intro p known
    obtain ⟨u, _, worth, _, _⟩ := eval_pow_some known
    rw [eval_error failed] at worth
    cases worth
  · intro _
    apply meets_ite
    · intro failed
      apply meets_pure
      intro p known
      obtain ⟨_, q, _, rfl, _⟩ := eval_pow_some known
      cases failed
    · intro _
      split
      · rename_i q number
        apply meets_ite
        · intro unit
          rw [unit.1, exactOf_some number]
          exact meets_unitPower unit.2
        · intro _
          exact meets_gaussianPower sound base exponent
      · exact meets_gaussianPower sound base exponent

theorem meets_gaussianPow_zero (g : PhyNspire.Exact.Gaussian) : Meets truth (gaussianPow g 0) fun r => r = ⟨1, 0⟩ := meets_pure rfl

theorem meets_powNode_zero (self : Calls) {base : Expr} {v : K} (known : reading.eval base = some v) :
    Meets truth (powNode self base (exactNode 0)) fun r => r = one := by
  have whole : integerValue (exactNode 0) = some 0 := by
    decide +kernel
  have rest : Meets truth (gaussianPower self base (exactNode 0)) fun r => r = one := by
    have folded : Meets truth (gaussianPowNode base 0) fun found => ∀ r ∈ found, r = one := by
      apply meets_ite
      · intro _
        apply meets_request.seq
        intro _
        apply (meets_gaussianFromNode reading base).seq
        intro found
        split
        · apply (meets_gaussianPow_zero _).bind
          rintro _ rfl
          have published : Meets truth (gaussianPublish ⟨1, 0⟩) fun r => r = one := meets_irNode _ _
          apply published.bind
          intro result same
          exact meets_pure fun r same' => (Option.some.inj same').symm.trans same
        · exact meets_pure fun r absent => by cases absent
      · intro _
        exact meets_pure fun r absent => by cases absent
    unfold gaussianPower
    rw [whole]
    apply folded.bind
    intro found same
    split
    · exact meets_pure (same _ rfl)
    · unfold trivialPower
      rw [whole]
      apply meets_ite
      · intro _
        exact meets_refuse _
      · intro _
        exact meets_pure rfl
  apply meets_ite
  · intro failed
    rw [eval_error failed] at known
    cases known
  · intro _
    apply meets_ite
    · intro failed
      cases failed
    · intro _
      apply meets_ite
      · intro unit
        apply meets_request.seq
        intro _
        exact meets_pure rfl
      · intro _
        exact rest

end Powers

end PhyNspire.Cas.Core

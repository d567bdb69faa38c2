import PhyNspire.Cas.DiscreteFunctions
import PhyNspire.Lib.GammaShifts
import Mathlib.NumberTheory.Bernoulli

/-!
What the discrete special functions return. Over a faithful scalar layer a matched call returns the exact value
of the function, but for a digamma value at an integer above two to the thirty-second, whose order is cut to
32 bits.
-/

namespace PhyNspire.Cas.DiscreteValues
open Platform Lib.Stateful Lib.GammaShifts Finset
open Discrete hiding harmonic bernoulli
open PhyNspire.Exact (Yields)

inductive Value : CasFunction → List ℂ → ℂ → Prop
  | factorial (n : ℕ) : Value .factorial [n] n.factorial
  | pochhammer (a : ℂ) (n : ℤ) (defined : 0 ≤ n ∨ below a n.natAbs ≠ 0) : Value .pochhammer [a, n] (rising a n)
  | pochhammerRatio (a b : ℂ) (first : Regular a) (last : Regular (a + b)) :
      Value .pochhammer [a, b] (Complex.Gamma (a + b) / Complex.Gamma a)
  | binomial (u : ℂ) (k : ℕ) : Value .binomial [u, k] ((∏ i ∈ range k, (u - i)) / k.factorial)
  | binomialNegative (u : ℂ) (k : ℕ) : Value .binomial [u, -(k + 1)] 0
  | bernoulli (n : ℕ) : Value .bernoulli [n] (bernoulli n : ℚ)
  | harmonic (n : ℕ) : Value .harmonic [n] (harmonic n : ℚ)
  | digamma (z : ℂ) (regular : Regular z) : Value .digamma [z] (Complex.digamma z)
  | gamma (z : ℂ) (regular : Regular z) : Value .gamma [z] (Complex.Gamma z)

variable {State Ref : Type}

/-- The scalar layer keeps values, and its calls have the values of their functions. -/
structure Faithful (cas : Specials State Ref) (value : Ref → Option ℂ) : Prop
    extends Sound cas.toEngine value (fun z => z ^ (1 / 2 : ℂ)) True where
  kernel : cas.kernel.Exact
  reciprocal : ∀ q s, wp (cas.bigratReciprocal q) (fun r _ => q ≠ 0 ∧ r = q⁻¹) (fun _ _ => True) s
  read : ∀ q, Yields (cas.bigratRead q) q
  publish : ∀ q s, wp (cas.exactPublishBigrat q) (fun ref _ => cas.exact ref = some q) (fun _ _ => True) s
  numberExact : ∀ n d s, d ≠ 0 → wp (cas.number n d) (fun ref _ => cas.exact ref = some (n / d : ℚ)) (fun _ _ => True) s
  integerExact : ∀ n s, wp (cas.integer n) (fun ref _ => cas.exact ref = some (n : ℚ)) (fun _ _ => True) s
  zero : cas.exact cas.zero = some 0
  one : cas.exact cas.one = some 1
  inverse : ∀ base k s, value base = some k → k ≠ 0 →
    wp (cas.pow base cas.minusOne) (fun ref _ => value ref = some k⁻¹) (fun _ _ => True) s
  /-- A node has one kind. -/
  addendsExact : ∀ ref q, cas.exact ref = some q → cas.addends ref = none
  addends : ∀ ref parts k, cas.addends ref = some parts → value ref = some k → ∃ ks, Denote value parts ks ∧ k = ks.sum
  eulerGamma : value cas.eulerGamma = some (Real.eulerMascheroniConstant : ℂ)
  pi : value cas.pi = some (Real.pi : ℂ)
  callLog : ∀ argument z s, value argument = some z → z ≠ 0 →
    wp (cas.call .log [argument]) (fun ref _ => value ref = some (Complex.log z)) (fun _ _ => True) s
  callGamma : ∀ argument z s, value argument = some z → Regular z →
    wp (cas.call .gamma [argument]) (fun ref _ => value ref = some (Complex.Gamma z)) (fun _ _ => True) s
  callDigamma : ∀ argument z s, value argument = some z → Regular z →
    wp (cas.call .digamma [argument]) (fun ref _ => value ref = some (Complex.digamma z)) (fun _ _ => True) s
  callPochhammer : ∀ start count a b s, value start = some a → value count = some b → Regular a → Regular (a + b) →
    wp (cas.call .pochhammer [start, count])
      (fun ref _ => value ref = some (Complex.Gamma (a + b) / Complex.Gamma a)) (fun _ _ => True) s

/-- Whatever is returned is good. -/
def Gives {α : Type} (program : EStateM Status State α) (good : α → Prop) : Prop :=
  ∀ s, wp program (fun result _ => good result) (fun _ _ => True) s

section Programs
variable {α β : Type}

variable {good : α → Prop}

theorem gives_pure {result : α} (held : good result) : Gives (pure result : EStateM Status State α) good :=
  fun _ => held

theorem gives_throw (status : Status) (good : α → Prop) : Gives (throw status : EStateM Status State α) good := fun _ => trivial

variable {program : EStateM Status State α}

theorem Gives.bind {next : α → EStateM Status State β} {good' : β → Prop}
    (first : Gives program good) (rest : ∀ result, good result → Gives (next result) good') :
    Gives (program >>= next) good' := by
  intro s
  rw [wp_bind]
  exact wp_mono (first s) (fun result t held => rest result held t) (fun _ _ _ => trivial)

theorem gives_any (program : EStateM Status State α) : Gives program fun _ => True :=
  fun _ => wp_of_run (fun _ _ _ => trivial) (fun _ _ _ => trivial)

theorem Gives.seq {next : α → EStateM Status State β} {good' : β → Prop}
    (rest : ∀ result, Gives (next result) good') : Gives (program >>= next) good' :=
  (gives_any program).bind fun result _ => rest result

theorem Gives.map {f : α → β} {good : β → Prop}
    (held : Gives program fun result => good (f result)) : Gives (f <$> program) good := by
  intro s
  rw [wp_map]
  exact held s

theorem Gives.mono {good' : α → Prop} (held : Gives program good)
    (weaker : ∀ result, good result → good' result) : Gives program good' :=
  fun s => wp_mono (held s) (fun result _ => weaker result) (fun _ _ _ => trivial)

theorem gives_ite {condition : Prop} [Decidable condition] {first second : EStateM Status State α}
    (taken : condition → Gives first good) (skipped : ¬condition → Gives second good) :
    Gives (if condition then first else second) good :=
  fun s => wp_ite (fun held => taken held s) (fun held => skipped held s)

end Programs

variable {cas : Specials State Ref} {value : Ref → Option ℂ}

theorem integerValue_eq {ref : Ref} {n : Int} : cas.integerValue ref = some n ↔ cas.exact ref = some (n : ℚ) ∧ FitsWord n := by
  unfold Engine.integerValue
  cases known : cas.exact ref with
  | none => exact ⟨fun absurd => (by cases absurd), fun absurd => (by cases absurd.1)⟩
  | some q =>
    dsimp only
    rw [Option.some.injEq]
    split_ifs with whole
    · rw [Option.some.injEq]
      constructor
      · rintro rfl
        exact ⟨(Rat.coe_int_num_of_den_eq_one whole.1).symm, whole.2⟩
      · rintro ⟨rfl, _⟩
        exact Rat.num_intCast n
    · refine ⟨fun absurd => (by cases absurd), ?_⟩
      rintro ⟨rfl, fits⟩
      exact absurd ⟨Rat.den_intCast n, (Rat.num_intCast n).symm ▸ fits⟩ whole

def Returns (value : Ref → Option ℂ) (v : ℂ) (out : Option Ref) : Prop := ∀ r, out = some r → value r = some v

theorem returns_none (v : ℂ) : Returns value v none := fun _ absurd => by cases absurd

theorem Gives.returns {program : EStateM Status State Ref} {v : ℂ} (held : Gives program fun ref => value ref = some v) :
    Gives (some <$> program) (Returns value v) :=
  .map (held.mono fun _ known _ same => Option.some.inj same ▸ known)

theorem binomial_natCast (n k : ℕ) : (∏ i ∈ range k, ((n : ℂ) - i)) / k.factorial = n.choose k := by
  rw [Nat.cast_choose_eq_descPochhammer_div, descPochhammer_eval_eq_prod_range]

theorem exactSignRef_neg {ref : Ref} (negative : exactSignRef cas ref < 0) : ∃ q, cas.exact ref = some q ∧ q < 0 := by
  unfold exactSignRef at negative
  cases known : cas.exact ref with
  | none =>
    rw [known] at negative
    exact absurd negative (lt_irrefl 0)
  | some q =>
    rw [known] at negative
    exact ⟨q, rfl, Rat.num_neg.mp (Int.sign_neg_iff.mp negative)⟩

theorem bernoulli_step {m : ℕ} (positive : 0 < m) :
    (0 - ∑ i ∈ range m, ((m + 1).choose i : ℚ) * bernoulli i) / (m + 1 : ℚ) = bernoulli m := by
  have all := sum_bernoulli (m + 1)
  rw [if_neg (by omega), sum_range_succ, Nat.choose_succ_self_right] at all
  have nonzero : (m + 1 : ℚ) ≠ 0 := by positivity
  rw [div_eq_iff nonzero, zero_sub]
  push_cast at all
  linear_combination -all

def others (cas : Specials State Ref) (parts : List Ref) : List Ref := parts.filter fun child => !isIntegerKind cas child

theorem pochhammer_value {a v : ℂ} {n : Int} (known : Value .pochhammer [a, (n : ℂ)] v) :
    (0 ≤ n ∨ below a n.natAbs ≠ 0) ∧ v = rising a n := by
  generalize place : (n : ℂ) = b at known
  cases known with
  | pochhammer _ m defined =>
    obtain rfl := Int.cast_injective place
    exact ⟨defined, rfl⟩
  | pochhammerRatio _ _ first last =>
    subst place
    refine ⟨?_, Gamma_ratio first last⟩
    by_contra undefined
    push Not at undefined
    obtain ⟨m, rfl⟩ : ∃ m : ℕ, n = -m := ⟨n.natAbs, by omega⟩
    apply rising_ne_zero last m
    rw [Int.cast_neg, Int.cast_natCast, ← sub_eq_add_neg, rising_natCast, ← below_eq_rising]
    simpa using undefined.2

theorem pochhammer_ratio {a b v : ℂ} (known : Value .pochhammer [a, b] v) (first : Regular a) (last : Regular (a + b)) :
    v = Complex.Gamma (a + b) / Complex.Gamma a := by
  cases known with
  | pochhammer _ n defined => exact (Gamma_ratio first last).symm
  | pochhammerRatio _ _ _ _ => rfl

section
variable (faithful : Faithful cas value)
include faithful

variable {ref : Ref} {n : Int}

theorem value_of_integer (known : cas.integerValue ref = some n) : value ref = some (n : ℂ) := by
  have worth := faithful.exact ref _ (integerValue_eq.mp known).1
  rwa [Rat.cast_intCast] at worth

theorem exactLoadRef_spec {q : ℚ} (known : cas.exact ref = some q) : Gives (exactLoadRef cas ref) (· = q) := by
  unfold exactLoadRef
  rw [known]
  apply gives_ite
  · intro machine s
    have nonzero : (q.den : Int) ≠ 0 := Int.natCast_ne_zero.mpr q.den_ne_zero
    refine wp_mono (faithful.kernel.setI64 _ _ nonzero s) (fun result _ same => ?_) (fun _ _ _ => trivial)
    rw [same, Int.cast_natCast, Rat.num_div_den]
  · exact fun _ => faithful.read q

variable {left right : Ref}

theorem exactBinary_spec {operation : ℚ → ℚ → EStateM Status State ℚ} {p q : ℚ} {good : ℚ → Prop}
    (first : cas.exact left = some p) (second : cas.exact right = some q) (does : Gives (operation p q) good) :
    Gives (exactBinary cas operation left right) fun ref => ∃ r, good r ∧ cas.exact ref = some r := by
  unfold exactBinary
  apply Gives.seq
  intro _
  apply (exactLoadRef_spec faithful first).bind
  rintro _ rfl
  apply (exactLoadRef_spec faithful second).bind
  rintro _ rfl
  apply does.bind
  intro result held s
  exact wp_mono (faithful.publish result s) (fun ref _ known => ⟨result, held, known⟩) (fun _ _ _ => trivial)

theorem risingLoop_spec (up : Bool) (left : Nat) (current result : ℚ) :
    Gives (risingLoop cas up left current result) fun r =>
      r = result * ∏ i ∈ range left, (if up then current + i else current - i) := by
  induction left generalizing current result with
  | zero =>
    apply gives_pure
    rw [range_zero, prod_empty, mul_one]
  | succ left ih =>
    unfold risingLoop
    apply Gives.bind (faithful.kernel.multiply result current)
    rintro _ rfl
    apply gives_ite
    · rintro rfl
      apply gives_pure
      cases up <;> simp
    · intro _
      have next : Gives (risingNext cas up current) fun moved => moved = if up then current + 1 else current - 1 := by
        cases up with
        | true => exact faithful.kernel.add current 1
        | false => exact faithful.kernel.subtract current 1
      apply next.bind
      rintro _ rfl
      refine (ih _ _).mono fun r same => ?_
      rw [same, prod_range_succ', mul_comm (∏ _ ∈ _, _), ← mul_assoc]
      congr 1
      · cases up <;> simp
      · refine prod_congr rfl fun i _ => ?_
        cases up
        · simp only [Bool.false_eq_true, if_false]
          push_cast
          ring
        · simp only [if_true]
          push_cast
          ring

theorem exactPublish_spec {q r : ℚ} (same : q = r) : Gives (cas.exactPublishBigrat q) fun ref => cas.exact ref = some r :=
  fun s => same ▸ faithful.publish q s

variable {start : Ref}

theorem exactRising_spec {q : ℚ} (known : cas.exact start = some q) (count : Int) :
    Gives (exactRising cas start count) fun ref => cas.exact ref = some (rising q count) := by
  have first (one : ℚ) : Gives (risingFirst cas count q one) fun current => current = if count < 0 then q - one else q :=
    gives_ite (fun negative => by rw [if_pos negative]; exact faithful.kernel.subtract q one)
      (fun positive => gives_pure (if_neg positive).symm)
  have last (product : ℚ) : Gives (risingLast cas count product) fun r => r = if count < 0 then product⁻¹ else product :=
    gives_ite (fun negative s => wp_mono (faithful.reciprocal product s)
        (fun r _ inverted => by rw [if_pos negative]; exact inverted.2) (fun _ _ _ => trivial))
      (fun positive => gives_pure (if_neg positive).symm)
  unfold exactRising
  apply gives_ite
  · exact fun _ => gives_throw _ _
  · intro _
    apply Gives.seq
    intro _
    apply Gives.seq
    intro _
    apply (exactLoadRef_spec faithful known).bind
    intro current same
    rw [same]
    apply Gives.bind (faithful.kernel.setI64 1 1 one_ne_zero)
    intro start unit
    apply Gives.bind (faithful.kernel.setI64 1 1 one_ne_zero)
    intro one unit'
    apply (first one).bind
    intro lowest place
    apply (risingLoop_spec faithful _ _ lowest start).bind
    intro product multiplied
    apply (last product).bind
    intro result inverted
    apply exactPublish_spec faithful
    rw [Int.cast_one, div_one] at unit unit'
    rw [inverted, multiplied, place, unit, unit', one_mul]
    by_cases negative : count < 0
    · rw [if_pos negative, if_pos negative, rising_neg negative, below]
      congr 1
      refine prod_congr rfl fun i _ => ?_
      rw [if_neg (by simpa using negative)]
      ring
    · rw [if_neg negative, if_neg negative, rising, if_pos (not_lt.mp negative)]
      refine prod_congr rfl fun i _ => ?_
      rw [if_pos (by simpa using negative)]

theorem binomialLoop_spec (left index : Nat) (positive : 0 < index) (current result : ℚ) :
    Gives (binomialLoop cas left index current result) fun r =>
      r = result * ∏ i ∈ range left, ((current - i) / (index + i)) := by
  induction left generalizing index current result with
  | zero =>
    apply gives_pure
    rw [range_zero, prod_empty, mul_one]
  | succ left ih =>
    unfold binomialLoop
    apply Gives.bind (faithful.kernel.multiply result current)
    intro product multiplied
    apply Gives.bind (faithful.kernel.setI64 index 1 one_ne_zero)
    intro divisor placed
    apply Gives.bind (faithful.kernel.divide product divisor)
    intro quotient divided
    have here : quotient = result * (current / index) := by
      rw [divided.2, multiplied, placed, Int.cast_natCast, Int.cast_one, div_one, mul_div_assoc]
    apply gives_ite
    · intro done
      apply gives_pure
      rw [here, done, zero_add, prod_range_one, Nat.cast_zero, sub_zero, add_zero]
    · intro _
      apply Gives.bind (faithful.kernel.subtract current 1)
      intro next lower
      refine (ih (index + 1) index.succ_pos next quotient).mono fun r same => ?_
      rw [same, here, lower, prod_range_succ', mul_comm (∏ _ ∈ _, _), ← mul_assoc, Nat.cast_zero, sub_zero, add_zero]
      congr 1
      refine prod_congr rfl fun i _ => ?_
      push_cast
      congr 1 <;> ring

variable {upper : Ref}

theorem exactBinomial_spec {u : ℚ} (known : cas.exact upper = some u) (lower : Nat) :
    Gives (exactBinomial cas upper lower) fun ref =>
      cas.exact ref = some ((∏ i ∈ range lower, (u - i)) / lower.factorial) := by
  unfold exactBinomial
  apply gives_ite
  · exact fun _ => gives_throw _ _
  · intro _
    apply Gives.seq
    intro _
    apply Gives.seq
    intro _
    apply (exactLoadRef_spec faithful known).bind
    intro current same
    apply Gives.bind (faithful.kernel.setI64 1 1 one_ne_zero)
    intro start unit
    apply Gives.seq
    intro _
    apply (binomialLoop_spec faithful lower 1 Nat.one_pos current start).bind
    intro product multiplied
    apply exactPublish_spec faithful
    rw [multiplied, same, unit, Int.cast_one, div_one, one_mul, prod_div_distrib, ← prod_range_add_one_eq_factorial,
      Nat.cast_prod]
    congr 1
    refine prod_congr rfl fun i _ => ?_
    push_cast
    ring

theorem mul_spec {k l : ℂ} (first : value left = some k) (second : value right = some l) :
    Gives (cas.mul [left, right]) fun ref => value ref = some (k * l) := by
  have both : Denote value [left, right] [k, l] := .cons first (.cons second .nil)
  have product : [k, l].prod = k * l := by rw [List.prod_cons, List.prod_cons, List.prod_nil, mul_one]
  exact fun s => product ▸ faithful.mul _ _ s both

theorem add_spec {k l : ℂ} (first : value left = some k) (second : value right = some l) :
    Gives (cas.add [left, right]) fun ref => value ref = some (k + l) := by
  have both : Denote value [left, right] [k, l] := .cons first (.cons second .nil)
  have sum : [k, l].sum = k + l := by rw [List.sum_cons, List.sum_cons, List.sum_nil, add_zero]
  exact fun s => sum ▸ faithful.add _ _ s both

theorem shiftedFactor_spec {base : Ref} {k : ℂ} (worth : value base = some k) (shift : Int) :
    Gives (shiftedFactor cas base shift) fun ref => value ref = some (k + shift) := by
  unfold shiftedFactor
  apply gives_ite
  · rintro rfl
    apply gives_pure
    rw [worth, Int.cast_zero, add_zero]
  · intro _
    apply Gives.bind (faithful.number shift)
    intro offset known
    exact add_spec faithful worth known

theorem shiftedProduct_spec {base : Ref} {k : ℂ} (worth : value base = some k) (shift : Nat → Int) (left index : Nat)
    {product : Ref} {p : ℂ} (sofar : value product = some p) :
    Gives (shiftedProduct cas base shift left index product) fun ref =>
      value ref = some (p * ∏ i ∈ range left, (k + shift (index + i))) := by
  induction left generalizing index product p with
  | zero =>
    apply gives_pure
    rw [sofar, range_zero, prod_empty, mul_one]
  | succ left ih =>
    unfold shiftedProduct
    apply (shiftedFactor_spec faithful worth _).bind
    intro factor known
    apply (mul_spec faithful sofar known).bind
    intro next multiplied
    refine (ih (index + 1) multiplied).mono fun ref same => ?_
    rw [same, prod_range_succ', mul_comm (∏ _ ∈ _, _), ← mul_assoc, add_zero]
    simp only [add_assoc, add_comm 1]

theorem divideSymbolic_spec {numerator denominator : Ref} {n d : ℂ} (above : value numerator = some n)
    (under : value denominator = some d) (nonzero : d ≠ 0) :
    Gives (divideSymbolic cas numerator denominator) fun ref => value ref = some (n * d⁻¹) := by
  unfold divideSymbolic
  apply gives_ite
  · exact fun _ => gives_throw _ _
  · intro _
    apply Gives.bind (faithful.inverse denominator d · under nonzero)
    intro reciprocal known
    exact mul_spec faithful above known

theorem one_spec : value cas.one = some 1 := by
  have worth := faithful.exact _ _ faithful.one
  rwa [Rat.cast_one] at worth

theorem zero_spec : value cas.zero = some 0 := by
  have worth := faithful.exact _ _ faithful.zero
  rwa [Rat.cast_zero] at worth

theorem symbolicRising_spec {k : ℂ} (worth : value start = some k) {count : Int}
    (defined : 0 ≤ count ∨ below k count.natAbs ≠ 0) :
    Gives (symbolicRising cas start count) fun ref => value ref = some (rising k count) := by
  unfold symbolicRising
  apply gives_ite
  · exact fun _ => gives_throw _ _
  · intro _
    apply Gives.seq
    intro _
    apply (shiftedProduct_spec faithful worth _ _ 0 (one_spec faithful)).bind
    intro product known
    rw [one_mul] at known
    apply gives_ite
    · intro negative
      have nonzero : below k count.natAbs ≠ 0 := defined.resolve_left (not_le.mpr negative)
      have lower : (∏ i ∈ range count.natAbs, (k + ((if 0 ≤ count then ((0 + i : ℕ) : Int) else -(((0 + i : ℕ) : Int) + 1) : Int) : ℂ))) =
          below k count.natAbs := by
        refine prod_congr rfl fun i _ => ?_
        rw [if_neg (not_le.mpr negative), zero_add]
        push_cast
        ring
      rw [lower] at known
      refine (divideSymbolic_spec faithful (one_spec faithful) known nonzero).mono fun ref same => ?_
      rw [same, one_mul, rising_neg negative]
    · intro positive
      apply gives_pure
      rw [known, rising, if_pos (not_lt.mp positive)]
      congr 1
      refine prod_congr rfl fun i _ => ?_
      rw [if_pos (not_lt.mp positive), zero_add, Int.cast_natCast]

theorem symbolicBinomial_spec {u : ℂ} (worth : value upper = some u) (lower : Nat) :
    Gives (symbolicBinomial cas upper lower) fun ref =>
      value ref = some ((∏ i ∈ range lower, (u - i)) / lower.factorial) := by
  unfold symbolicBinomial
  apply gives_ite
  · exact fun _ => gives_throw _ _
  · intro _
    apply Gives.seq
    intro _
    apply (shiftedProduct_spec faithful worth _ _ 0 (one_spec faithful)).bind
    intro numerator above
    apply (exactRising_spec faithful faithful.one lower).bind
    intro denominator known
    have under := faithful.exact _ _ known
    rw [rising_one, Rat.cast_natCast] at under
    have nonzero : (lower.factorial : ℂ) ≠ 0 := Nat.cast_ne_zero.mpr lower.factorial_ne_zero
    refine (divideSymbolic_spec faithful above under nonzero).mono fun ref same => ?_
    rw [same, one_mul, div_eq_mul_inv]
    congr 2
    refine prod_congr rfl fun i _ => ?_
    push_cast
    ring

theorem value_of_exact {q : ℚ} {k : ℂ} (known : cas.exact ref = some q) (same : (q : ℂ) = k) :
    value ref = some k := same ▸ faithful.exact ref q known

theorem integer_eq {k : ℂ} (known : cas.integerValue ref = some n) (worth : value ref = some k) : k = n :=
  Option.some.inj (worth.symm.trans (value_of_integer faithful known))

variable {argument : Ref}

theorem factorial_spec {n : ℕ} (worth : value argument = some (n : ℂ)) :
    Gives (factorial cas argument) (Returns value n.factorial) := by
  unfold factorial
  apply gives_ite
  · intro _
    apply gives_ite
    · exact fun _ => gives_throw _ _
    · intro _
      cases known : cas.integerValue argument with
      | none => exact gives_throw _ _
      | some m =>
        have same : m = n := by exact_mod_cast (integer_eq faithful known worth).symm
        apply gives_ite
        · exact fun _ => gives_throw _ _
        · intro _
          apply Gives.returns
          refine (exactRising_spec faithful faithful.one m).mono fun ref known => value_of_exact faithful known ?_
          rw [same, rising_one, Rat.cast_natCast]
  · exact fun _ => gives_pure (returns_none _)

theorem pochhammer_integer {count : Ref} {a : ℂ} (worth : value start = some a)
    (known : cas.integerValue count = some n) (defined : 0 ≤ n ∨ below a n.natAbs ≠ 0) :
    Gives (if (cas.exact start).isSome then exactRising cas start n else symbolicRising cas start n) fun ref =>
      value ref = some (rising a n) := by
  apply gives_ite
  · intro exact
    obtain ⟨q, number⟩ := Option.isSome_iff_exists.mp exact
    have same : (q : ℂ) = a := Option.some.inj ((faithful.exact _ _ number).symm.trans worth)
    refine (exactRising_spec faithful number n).mono fun ref known => value_of_exact faithful known ?_
    rw [rising_cast, same]
  · exact fun _ => symbolicRising_spec faithful worth defined

theorem reflectedLower_spec {u : ℂ} (worth : value upper = some u) (k : ℕ) :
    (reflectedLower cas upper k = none → (∏ i ∈ range k, (u - i)) / k.factorial = 0) ∧
      ∀ lower, reflectedLower cas upper k = some lower →
        (∏ i ∈ range lower, (u - i)) / lower.factorial = (∏ i ∈ range k, (u - i)) / k.factorial := by
  unfold reflectedLower
  cases known : cas.integerValue upper with
  | none => exact ⟨fun absurd => (by cases absurd), fun lower same => Option.some.inj same ▸ rfl⟩
  | some m =>
    dsimp only
    split_ifs with positive large reflect
    · obtain ⟨n, rfl⟩ := Int.eq_ofNat_of_zero_le positive
      rw [integer_eq faithful known worth, Int.cast_natCast, binomial_natCast]
      refine ⟨fun _ => ?_, fun lower absurd => (by cases absurd)⟩
      rw [Int.toNat_natCast] at large
      rw [Nat.choose_eq_zero_of_lt large, Nat.cast_zero]
    · obtain ⟨n, rfl⟩ := Int.eq_ofNat_of_zero_le positive
      rw [integer_eq faithful known worth, Int.cast_natCast, binomial_natCast]
      refine ⟨fun absurd => (by cases absurd), fun lower same => ?_⟩
      rw [← Option.some.inj same, binomial_natCast]
      rw [Int.toNat_natCast] at large ⊢
      exact congrArg Nat.cast (Nat.choose_symm (not_lt.mp large))
    · exact ⟨fun absurd => (by cases absurd), fun lower same => Option.some.inj same ▸ rfl⟩
    · exact ⟨fun absurd => (by cases absurd), fun lower same => Option.some.inj same ▸ rfl⟩

theorem binomial_natIndex {lower : Ref} {u : ℂ} {k : ℕ} (worth : value upper = some u)
    (index : value lower = some (k : ℂ)) :
    Gives (binomial cas upper lower) (Returns value ((∏ i ∈ range k, (u - i)) / k.factorial)) := by
  unfold binomial
  apply gives_ite
  · intro whole
    cases known : cas.integerValue lower with
    | none =>
      apply gives_ite
      · intro negative
        obtain ⟨q, number, below_⟩ := exactSignRef_neg negative
        have same : q = (k : ℚ) := by exact_mod_cast Option.some.inj ((faithful.exact _ _ number).symm.trans index)
        rw [same] at below_
        exact absurd below_ (not_lt.mpr (Nat.cast_nonneg k))
      · exact fun _ => gives_throw _ _
    | some m =>
      have same : m = k := by exact_mod_cast (integer_eq faithful known index).symm
      obtain ⟨vanishes, reflected⟩ := reflectedLower_spec faithful worth k
      apply gives_ite
      · intro negative
        omega
      · intro _
        rw [same, Int.toNat_natCast]
        cases place : reflectedLower cas upper k with
        | none =>
          apply gives_pure
          intro r here
          rw [← Option.some.inj here, zero_spec faithful, vanishes place]
        | some lower =>
          rw [← reflected lower place]
          apply gives_ite
          · exact fun _ => gives_throw _ _
          · intro _
            apply Gives.returns
            apply gives_ite
            · intro exact
              obtain ⟨q, number⟩ := Option.isSome_iff_exists.mp exact
              have here : (q : ℂ) = u := Option.some.inj ((faithful.exact _ _ number).symm.trans worth)
              refine (exactBinomial_spec faithful number lower).mono fun ref known => value_of_exact faithful known ?_
              push_cast
              rw [here]
            · exact fun _ => symbolicBinomial_spec faithful worth lower
  · exact fun _ => gives_pure (returns_none _)

theorem binomial_negativeIndex {lower : Ref} {k : ℕ} (index : value lower = some (-(k + 1) : ℂ)) :
    Gives (binomial cas upper lower) (Returns value 0) := by
  have zero : Returns value 0 (some cas.zero) := fun r here => Option.some.inj here ▸ zero_spec faithful
  unfold binomial
  apply gives_ite
  · intro _
    cases known : cas.integerValue lower with
    | none => exact gives_ite (fun _ => gives_pure zero) (fun _ => gives_throw _ _)
    | some m =>
      have same : m = -(k + 1) := by exact_mod_cast (integer_eq faithful known index).symm
      exact gives_ite (fun _ => gives_pure zero) (fun positive => absurd (by omega) positive)
  · exact fun _ => gives_pure (returns_none _)

theorem harmonicLoop_spec (left denominator : Nat) (positive : 0 < denominator) (sum : ℚ) :
    Gives (harmonicLoop cas left denominator sum) fun r => r = sum + ∑ i ∈ range left, (1 / (denominator + i : ℚ)) := by
  induction left generalizing denominator sum with
  | zero =>
    apply gives_pure
    rw [range_zero, sum_empty, add_zero]
  | succ left ih =>
    unfold harmonicLoop
    apply Gives.bind (faithful.kernel.setI64 1 denominator (by omega))
    intro term placed
    apply Gives.bind (faithful.kernel.add sum term)
    intro next added
    refine (ih (denominator + 1) denominator.succ_pos next).mono fun r same => ?_
    rw [same, added, placed, sum_range_succ', add_comm (∑ _ ∈ _, _), ← add_assoc, Int.cast_one, Int.cast_natCast,
      Nat.cast_zero, add_zero]
    congr 1
    refine sum_congr rfl fun i _ => ?_
    push_cast
    congr 1
    ring

theorem exactHarmonic_spec (order : Nat) :
    Gives (exactHarmonic cas order) fun ref => cas.exact ref = some (harmonic order) := by
  unfold exactHarmonic
  apply gives_ite
  · exact fun _ => gives_throw _ _
  · intro _
    apply Gives.seq
    intro _
    apply Gives.seq
    intro _
    apply Gives.bind (faithful.kernel.setI64 0 1 one_ne_zero)
    intro start nothing
    apply (harmonicLoop_spec faithful order 1 Nat.one_pos start).bind
    intro sum added
    apply exactPublish_spec faithful
    rw [added, nothing, harmonic_eq_sum, Int.cast_zero, zero_div, zero_add]
    refine sum_congr rfl fun i _ => ?_
    rw [one_div, Nat.cast_add, add_comm]

theorem harmonic_spec {n : ℕ} (worth : value argument = some (n : ℂ)) :
    Gives (Discrete.harmonic cas argument) (Returns value (harmonic n : ℚ)) := by
  unfold Discrete.harmonic
  apply gives_ite
  · intro _
    cases known : cas.integerValue argument with
    | none => exact gives_ite (fun _ => gives_throw _ _) (fun _ => gives_throw _ _)
    | some m =>
      have same : m = n := by exact_mod_cast (integer_eq faithful known worth).symm
      apply gives_ite
      · exact fun _ => gives_throw _ _
      · intro _
        apply gives_ite
        · exact fun _ => gives_throw _ _
        · intro _
          apply Gives.returns
          refine (exactHarmonic_spec faithful m.toNat).mono fun ref known => value_of_exact faithful known ?_
          rw [same, Int.toNat_natCast]
  · exact fun _ => gives_pure (returns_none _)

/-- The values of the first Bernoulli numbers. -/
def Bernoullis (cas : Specials State Ref) (refs : List Ref) : Prop :=
  ∀ k (inside : k < refs.length), cas.exact refs[k] = some (bernoulli k)

theorem bernoulliSum_spec {n : ℕ} (known : cas.exact upper = some (n : ℚ)) (values : List Ref) (k : Nat)
    {sum : Ref} {s : ℚ} (sofar : cas.exact sum = some s)
    (listed : ∀ i (inside : i < values.length), cas.exact values[i] = some (bernoulli (k + i))) :
    Gives (bernoulliSum cas upper values k sum) fun ref =>
      cas.exact ref = some (s + ∑ i ∈ range values.length, (n.choose (k + i) : ℚ) * bernoulli (k + i)) := by
  induction values generalizing k sum s with
  | nil =>
    apply gives_pure
    rw [sofar, List.length_nil, range_zero, sum_empty, add_zero]
  | cons first rest ih =>
    unfold bernoulliSum
    apply (exactBinomial_spec faithful known k).bind
    intro coefficient binomial
    have head := listed 0 (Nat.zero_lt_succ _)
    apply (exactBinary_spec faithful binomial head (faithful.kernel.multiply _ _)).bind
    rintro term ⟨_, rfl, product⟩
    apply (exactBinary_spec faithful sofar product (faithful.kernel.add _ _)).bind
    rintro next ⟨_, rfl, added⟩
    have later : ∀ i (inside : i < rest.length), cas.exact rest[i] = some (bernoulli (k + 1 + i)) := by
      intro i inside
      have held := listed (i + 1) (Nat.succ_lt_succ inside)
      rwa [List.getElem_cons_succ, add_comm i 1, ← add_assoc] at held
    refine (ih (k + 1) added later).mono fun ref same => ?_
    have coefficient' : (∏ i ∈ range k, ((n : ℚ) - i)) / k.factorial = n.choose k := by
      rw [Nat.cast_choose_eq_descPochhammer_div, descPochhammer_eval_eq_prod_range]
    rw [same, List.length_cons, sum_range_succ', coefficient', add_comm (∑ _ ∈ _, _), ← add_assoc, add_zero]
    simp only [add_assoc, add_comm 1]

theorem bernoulliLoop_spec (left : Nat) {values : List Ref} (some_ : values ≠ []) (listed : Bernoullis cas values) :
    Gives (bernoulliLoop cas left values) fun all => Bernoullis cas all ∧ all.length = values.length + left := by
  induction left generalizing values with
  | zero => exact gives_pure ⟨listed, rfl⟩
  | succ left ih =>
    have positive := List.length_pos_of_ne_nil some_
    unfold bernoulliLoop
    apply Gives.bind (faithful.integerExact _)
    intro upper known
    have place : cas.exact upper = some ((values.length + 1 : ℕ) : ℚ) := by
      rw [known]
      push_cast
      rfl
    have early : ∀ i (inside : i < values.length), cas.exact values[i] = some (bernoulli (0 + i)) := by
      intro i inside
      rw [zero_add]
      exact listed i inside
    apply (bernoulliSum_spec faithful place values 0 faithful.zero early).bind
    intro sum added
    apply Gives.bind (faithful.integerExact _)
    intro divisor known'
    apply (exactBinary_spec faithful faithful.zero added (faithful.kernel.subtract _ _)).bind
    rintro negative ⟨_, rfl, negated⟩
    apply (exactBinary_spec faithful negated known' (faithful.kernel.divide _ _)).bind
    rintro next ⟨r, ⟨_, quotient⟩, worth⟩
    have newest : r = bernoulli values.length := by
      rw [quotient, ← bernoulli_step positive]
      push_cast
      simp only [zero_add]
    have longer : Bernoullis cas (values ++ [next]) := by
      intro k inside
      rw [List.length_append, List.length_singleton] at inside
      obtain old | rfl := Nat.lt_succ_iff_lt_or_eq.mp inside
      · rw [List.getElem_append_left old]
        exact listed k old
      · rw [List.getElem_concat_length rfl, worth, newest]
    refine (ih (List.append_ne_nil_of_right_ne_nil _ (List.cons_ne_nil _ _)) longer).mono fun all held => ⟨held.1, ?_⟩
    rw [held.2, List.length_append, List.length_singleton]
    omega

theorem bernoulli_spec {n : ℕ} (worth : value argument = some (n : ℂ)) :
    Gives (Discrete.bernoulli cas argument) (Returns value (bernoulli n : ℚ)) := by
  unfold Discrete.bernoulli
  apply gives_ite
  · intro _
    cases known : cas.integerValue argument with
    | none => exact gives_ite (fun _ => gives_throw _ _) (fun _ => gives_throw _ _)
    | some m =>
      have same : m = n := by exact_mod_cast (integer_eq faithful known worth).symm
      apply gives_ite
      · exact fun _ => gives_throw _ _
      · intro _
        apply gives_ite
        · exact fun _ => gives_throw _ _
        · intro _
          apply gives_ite
          · intro odd
            have vanishes : bernoulli n = 0 := by
              refine bernoulli_eq_zero_of_odd (Nat.odd_iff.mpr ?_) ?_ <;> omega
            apply gives_pure
            intro r here
            rw [← Option.some.inj here, zero_spec faithful, vanishes, Rat.cast_zero]
          · intro _
            have first : Bernoullis cas [cas.one] := by
              intro k inside
              obtain rfl := Nat.lt_one_iff.mp inside
              rw [bernoulli_zero]
              exact faithful.one
            apply (bernoulliLoop_spec faithful m.toNat (List.cons_ne_nil _ _) first).bind
            rintro values ⟨listed, length⟩
            apply gives_pure
            intro r last
            rw [List.length_singleton, same, Int.toNat_natCast, add_comm] at length
            rw [List.getLast?_eq_getElem?, length, Nat.add_sub_cancel] at last
            obtain ⟨inside, here⟩ := List.getElem?_eq_some_iff.mp last
            exact value_of_exact faithful (here ▸ listed n inside) rfl
  · exact fun _ => gives_pure (returns_none _)

end

end PhyNspire.Cas.DiscreteValues

import PhyNspire.Cas.DiscreteValues

/-!
The gamma and digamma functions and the Pochhammer symbols at shifted arguments, and all of the functions
together: a matched call is exact if and only if its argument is not cut.
-/

namespace PhyNspire.Cas.DiscreteValues
open Lib.Stateful Lib.GammaShifts Finset
open Discrete hiding harmonic bernoulli

variable {State Ref : Type} {cas : Specials State Ref} {value : Ref → Option ℂ}

section
variable (faithful : Faithful cas value)
include faithful

theorem splitAddends_spec (parts : List Ref) (shift : Int) :
    Gives (splitAddends cas parts shift) fun split => split.2 = others cas parts ∧
      ∀ ks, Denote value parts ks → ∃ rest, Denote value (others cas parts) rest ∧ ks.sum + shift = rest.sum + split.1 := by
  induction parts generalizing shift with
  | nil =>
    apply gives_pure
    refine ⟨rfl, fun ks denote => ⟨ks, denote, rfl⟩⟩
  | cons child rest ih =>
    unfold splitAddends
    apply gives_ite
    · intro whole
      have skip : others cas (child :: rest) = others cas rest :=
        List.filter_cons_of_neg (by rw [whole]; exact Bool.false_ne_true)
      rw [skip]
      cases known : cas.integerValue child with
      | none => exact gives_throw _ _
      | some number =>
        apply gives_ite
        · intro _
          refine (ih (shift + number)).mono fun split held => ⟨held.1, fun ks denote => ?_⟩
          cases denote with
          | cons worth later =>
            obtain ⟨left, denoted, sum⟩ := held.2 _ later
            refine ⟨left, denoted, ?_⟩
            rw [← sum, List.sum_cons, integer_eq faithful known worth]
            push_cast
            ring
        · exact fun _ => gives_throw _ _
    · intro notWhole
      have keep : others cas (child :: rest) = child :: others cas rest := List.filter_cons_of_pos (by simpa using notWhole)
      rw [keep]
      apply (ih shift).bind
      intro split held
      apply gives_pure
      refine ⟨congrArg (child :: ·) held.1, fun ks denote => ?_⟩
      cases denote with
      | cons worth later =>
        obtain ⟨left, denoted, sum⟩ := held.2 _ later
        refine ⟨_ :: left, .cons worth denoted, ?_⟩
        rw [List.sum_cons, List.sum_cons, add_assoc, sum, add_assoc]

structure Split (cas : Specials State Ref) (value : Ref → Option ℂ) (argument base : Ref) (shift : Int) (k w : ℂ) : Prop where
  moved : shift ≠ 0
  worth : value base = some w
  sum : k = w + shift
  parts : ∃ parts ks, cas.addends argument = some parts ∧ Denote value (others cas parts) ks ∧ w = ks.sum

variable {argument : Ref}

theorem splitIntegerShift_spec {k : ℂ} (worth : value argument = some k) :
    Gives (splitIntegerShift cas argument) fun out => ∀ base shift, out = some (base, shift) →
      ∃ w, Split cas value argument base shift k w := by
  unfold splitIntegerShift
  cases known : cas.addends argument with
  | none => exact gives_pure fun _ _ absurd => by cases absurd
  | some parts =>
    obtain ⟨ks, denote, total⟩ := faithful.addends argument parts k known worth
    apply Gives.seq
    intro _
    apply (splitAddends_spec faithful parts 0).bind
    rintro split ⟨rest, sums⟩
    obtain ⟨left, denoted, sum⟩ := sums ks denote
    apply gives_ite
    · intro moved
      rw [rest]
      apply Gives.bind (faithful.add _ left · denoted)
      intro base here
      apply gives_pure
      intro base' shift same
      obtain ⟨rfl, rfl⟩ := Prod.mk.inj (Option.some.inj same)
      refine ⟨left.sum, moved.1, here, ?_, parts, left, known, denoted, rfl⟩
      rw [total, ← sum, Int.cast_zero, add_zero]
    · exact fun _ => gives_pure fun _ _ absurd => by cases absurd

noncomputable def shiftTerm (up : Bool) (w : ℂ) (index : Nat) : ℂ := if up then (w + index)⁻¹ else -(w - (index + 1))⁻¹

theorem recurrenceLoop_spec {base : Ref} {w : ℂ} (worth : value base = some w) (up : Bool) (left index : Nat) {sum : Ref} {s : ℂ}
    (sofar : value sum = some s)
    (nonzero : ∀ i < left, w + ((if up then ((index + i : ℕ) : Int) else -(((index + i : ℕ) : Int) + 1) : Int) : ℂ) ≠ 0) :
    Gives (recurrenceLoop cas base up left index sum) fun ref =>
      value ref = some (s + ∑ i ∈ range left, shiftTerm up w (index + i)) := by
  induction left generalizing index sum s with
  | zero =>
    apply gives_pure
    rw [sofar, range_zero, sum_empty, add_zero]
  | succ left ih =>
    unfold recurrenceLoop
    apply (shiftedFactor_spec faithful worth _).bind
    intro denominator known
    have here := nonzero 0 left.succ_pos
    rw [add_zero] at here
    apply Gives.bind (faithful.inverse denominator _ · known here)
    intro reciprocal inverted
    have term : Gives (recurrenceTerm cas up reciprocal) fun ref => value ref = some (shiftTerm up w index) := by
      unfold recurrenceTerm shiftTerm
      cases up with
      | true =>
        apply gives_pure
        rw [inverted, if_pos rfl, if_pos rfl, Int.cast_natCast]
      | false =>
        refine Gives.mono (faithful.neg reciprocal _ · inverted) fun ref negated => ?_
        rw [negated, if_neg Bool.false_ne_true, if_neg Bool.false_ne_true]
        push_cast
        rw [sub_eq_add_neg]
    apply term.bind
    intro added shifted
    apply (add_spec faithful sofar shifted).bind
    intro next total
    have later : ∀ i < left, w + ((if up then ((index + 1 + i : ℕ) : Int) else -(((index + 1 + i : ℕ) : Int) + 1) : Int) : ℂ) ≠ 0 := by
      intro i inside
      have held := nonzero (i + 1) (Nat.succ_lt_succ inside)
      rwa [show index + (i + 1) = index + 1 + i by omega] at held
    refine (ih (index + 1) total later).mono fun ref same => ?_
    rw [same, sum_range_succ', add_comm (∑ _ ∈ _, _), ← add_assoc, add_zero]
    simp only [add_assoc, add_comm 1]

theorem recurrenceSum_spec {base : Ref} {w : ℂ} {shift : Int} (worth : value base = some w) (moved : shift ≠ 0)
    (regular : Regular w) (regular' : Regular (w + shift)) :
    Gives (recurrenceSum cas base shift) fun ref => value ref = some (Complex.digamma (w + shift) - Complex.digamma w) := by
  unfold recurrenceSum
  apply gives_ite
  · exact fun _ => gives_throw _ _
  · intro _
    obtain ⟨n, rfl | rfl⟩ := shift.eq_nat_or_neg
    · have up : decide (0 < (n : Int)) = true := decide_eq_true (by omega)
      rw [up, Int.natAbs_natCast]
      refine (recurrenceLoop_spec faithful worth true n 0 (zero_spec faithful) fun i _ => ?_).mono fun ref same => ?_
      · rw [if_pos rfl, zero_add, Int.cast_natCast]
        exact regular.ne_zero i
      · rw [same, Int.cast_natCast, digamma_add_natCast regular, add_sub_cancel_left, zero_add]
        congr 1
        exact sum_congr rfl fun i _ => by rw [shiftTerm, if_pos rfl, zero_add]
    · have down : decide (0 < -(n : Int)) = false := decide_eq_false (by omega)
      rw [down, Int.natAbs_neg, Int.natAbs_natCast]
      have below_ : w + ((-(n : Int) : Int) : ℂ) = w - n := by
        push_cast
        rw [sub_eq_add_neg]
      rw [below_] at regular' ⊢
      refine (recurrenceLoop_spec faithful worth false n 0 (zero_spec faithful) fun i inside => ?_).mono fun ref same => ?_
      · rw [if_neg Bool.false_ne_true, zero_add]
        have place : w + ((-((i : Int) + 1) : Int) : ℂ) = w - n + ((n - (i + 1) : ℕ) : ℂ) := by
          rw [Nat.cast_sub inside]
          push_cast
          ring
        rw [place]
        exact regular'.ne_zero _
      · rw [same, digamma_sub_natCast n regular', zero_add, sub_sub_cancel_left, ← sum_neg_distrib]
        congr 1
        exact sum_congr rfl fun i _ => by rw [shiftTerm, if_neg Bool.false_ne_true, zero_add]

theorem digammaHalfInteger_spec (n : ℕ) :
    Gives (digammaHalfInteger cas (2 * n + 1)) fun ref => value ref = some (Complex.digamma (1 / 2 + n)) := by
  have order : ((2 * (n : Int) + 1).toNat - 1) / 2 = n := by omega
  unfold digammaHalfInteger
  dsimp only
  rw [order]
  apply gives_ite
  · exact fun _ => gives_throw _ _
  · intro _
    apply gives_ite
    · exact fun _ => gives_throw _ _
    · intro _
      apply (exactHarmonic_spec faithful (2 * n)).bind
      intro hTwice known
      apply (exactHarmonic_spec faithful n).bind
      intro hOnce known'
      apply Gives.bind (faithful.integerExact 2)
      intro two number
      apply (exactBinary_spec faithful number known (faithful.kernel.multiply _ _)).bind
      rintro twiceH ⟨_, rfl, doubled⟩
      apply (exactBinary_spec faithful doubled known' (faithful.kernel.subtract _ _)).bind
      rintro rational ⟨_, rfl, difference⟩
      have logTwo : Gives (logarithmOfTwo cas) fun ref => value ref = some (Complex.log 2) := by
        apply Gives.bind (faithful.integer 2)
        intro two' worth
        rw [Int.cast_ofNat] at worth
        exact (faithful.callLog two' 2 · worth two_ne_zero)
      apply logTwo.bind
      intro log known''
      apply Gives.bind (faithful.neg _ _ · faithful.eulerGamma)
      intro negativeGamma gamma
      apply Gives.bind (faithful.integer (-2))
      intro minusTwo factor
      apply (mul_spec faithful factor known'').bind
      intro negativeLog product
      have all : Denote value [rational, negativeGamma, negativeLog] _ :=
        .cons (faithful.exact _ _ difference) (.cons gamma (.cons product .nil))
      refine Gives.mono (faithful.add _ _ · all) fun ref sum => ?_
      rw [sum, digamma_half, List.sum_cons, List.sum_cons, List.sum_cons, List.sum_nil]
      push_cast
      congr 1
      ring

theorem halfInteger_some {numerator : Int} (known : digamma.halfInteger cas argument = some numerator) :
    ∃ n : ℕ, numerator = 2 * n + 1 ∧ value argument = some (1 / 2 + n : ℂ) := by
  unfold digamma.halfInteger Engine.rationalValue at known
  cases number : cas.exact argument with
  | none => rw [number] at known; cases known
  | some q =>
    rw [number] at known
    dsimp only at known
    split_ifs at known with machine
    · dsimp only at known
      split_ifs at known with half
      obtain ⟨two, positive, odd⟩ := half
      obtain rfl := Option.some.inj known
      have shape : q.num = 2 * ((q.num.toNat / 2 : ℕ) : Int) + 1 := by omega
      refine ⟨q.num.toNat / 2, shape, ?_⟩
      rw [faithful.exact _ _ number]
      have quotient : q = 1 / 2 + ((q.num.toNat / 2 : ℕ) : ℚ) := by
        have whole : (q.num : ℚ) = 2 * ((q.num.toNat / 2 : ℕ) : ℚ) + 1 := by
          have cast := congrArg (Int.cast (R := ℚ)) shape
          rw [cast, Int.cast_add, Int.cast_mul, Int.cast_natCast, Int.cast_one, Int.cast_ofNat]
        have den : (q.den : ℚ) = 2 := by exact_mod_cast two
        calc q = q.num / q.den := (Rat.num_div_den q).symm
          _ = 1 / 2 + ((q.num.toNat / 2 : ℕ) : ℚ) := by rw [whole, den]; ring
      congr 1
      calc ((q : ℚ) : ℂ) = ((1 / 2 + ((q.num.toNat / 2 : ℕ) : ℚ) : ℚ) : ℂ) := by rw [← quotient]
        _ = 1 / 2 + ((q.num.toNat / 2 : ℕ) : ℂ) := by push_cast; ring

theorem digamma_integer {n : Int} (known : cas.integerValue argument = some n) :
    Gives (digamma cas argument)
      (Returns value ((harmonic ((n - 1).toNat % 4294967296) : ℚ) - Real.eulerMascheroniConstant)) := by
  have whole : isIntegerKind cas argument = true := by
    unfold isIntegerKind
    rw [(integerValue_eq.mp known).1]
    exact decide_eq_true (Rat.den_intCast n)
  unfold digamma
  rw [if_pos whole, known]
  apply gives_ite
  · exact fun _ => gives_pure (returns_none _)
  · intro _
    apply (exactHarmonic_spec faithful _).bind
    intro harmonicValue number
    apply Gives.bind (faithful.neg _ _ · faithful.eulerGamma)
    intro negativeGamma gamma
    rw [sub_eq_add_neg]
    exact Gives.returns (add_spec faithful (faithful.exact _ _ number) gamma)

theorem digamma_spec {z : ℂ} (worth : value argument = some z) (regular : Regular z)
    (small : ∀ n, cas.integerValue argument = some n → n ≤ 4294967296)
    (apart : ∀ parts ks, cas.addends argument = some parts → Denote value (others cas parts) ks → Regular ks.sum) :
    Gives (digamma cas argument) (Returns value (Complex.digamma z)) := by
  cases known : cas.integerValue argument with
  | some n =>
    have place := integer_eq faithful known worth
    have positive : 0 < n := by
      by_contra low
      obtain ⟨m, rfl⟩ : ∃ m : ℕ, n = -m := ⟨n.natAbs, by omega⟩
      apply regular m
      rw [place, Int.cast_neg, Int.cast_natCast]
    obtain ⟨m, rfl⟩ : ∃ m : ℕ, n = m + 1 := ⟨(n - 1).toNat, by omega⟩
    have fits := small _ known
    have order : ((m : Int) + 1 - 1).toNat % 4294967296 = m := by omega
    have held := digamma_integer faithful known
    rw [order, ← digamma_natCast_succ] at held
    rwa [place, Int.cast_add, Int.cast_natCast, Int.cast_one]
  | none =>
    unfold digamma
    rw [known]
    apply gives_ite
    · exact fun _ => gives_ite (fun _ => gives_throw _ _) (fun _ => gives_pure (returns_none _))
    · intro _
      cases half : digamma.halfInteger cas argument with
      | some numerator =>
        obtain ⟨n, rfl, here⟩ := halfInteger_some faithful half
        obtain rfl := Option.some.inj (worth.symm.trans here)
        exact (digammaHalfInteger_spec faithful n).returns
      | none =>
        apply (splitIntegerShift_spec faithful worth).bind
        intro split shape
        cases split with
        | none => exact gives_pure (returns_none _)
        | some split =>
          obtain ⟨w, moved, here, sum, parts, ks, added, denoted, total⟩ := shape split.1 split.2 rfl
          have base : Regular w := total ▸ apart parts ks added denoted
          apply gives_ite
          · exact fun _ => gives_throw _ _
          · intro _
            apply Gives.bind (faithful.callDigamma _ w · here base)
            intro baseCall standing
            apply (recurrenceSum_spec faithful here moved base (sum ▸ regular)).bind
            intro correction corrected
            refine (add_spec faithful standing corrected).returns.mono fun out held => ?_
            rwa [add_sub_cancel, ← sum] at held

theorem gamma_spec {z : ℂ} (worth : value argument = some z) (regular : Regular z)
    (apart : ∀ parts ks, cas.addends argument = some parts → Denote value (others cas parts) ks → Regular ks.sum) :
    Gives (gammaRecurrence cas argument) (Returns value (Complex.Gamma z)) := by
  unfold gammaRecurrence
  cases whole : gammaRecurrence.positiveInteger cas argument with
  | some n =>
    obtain ⟨known, positive⟩ : cas.integerValue argument = some n ∧ 0 < n := by
      unfold gammaRecurrence.positiveInteger at whole
      split_ifs at whole
      cases known : cas.integerValue argument with
      | none => rw [known] at whole; cases whole
      | some m =>
        rw [known] at whole
        dsimp only at whole
        split_ifs at whole with positive
        obtain rfl := Option.some.inj whole
        exact ⟨rfl, positive⟩
    apply gives_ite
    · exact fun _ => gives_throw _ _
    · intro _
      obtain ⟨m, rfl⟩ : ∃ m : ℕ, n = m + 1 := ⟨(n - 1).toNat, by omega⟩
      apply Gives.returns
      refine (exactRising_spec faithful faithful.one _).mono fun ref known' => value_of_exact faithful known' ?_
      rw [add_sub_cancel_right, rising_one, integer_eq faithful known worth]
      push_cast
      exact (Complex.Gamma_nat_eq_factorial m).symm
  | none =>
    cases half : digamma.halfInteger cas argument with
    | some numerator =>
      obtain ⟨n, rfl, here⟩ := halfInteger_some faithful half
      obtain rfl := Option.some.inj (worth.symm.trans here)
      have count : (2 * (n : Int) + 1 - 1) / 2 = n := by omega
      dsimp only
      rw [count]
      apply Gives.bind (faithful.numberExact 1 2 · two_ne_zero)
      intro halfRef number
      apply (exactRising_spec faithful number n).bind
      intro coefficient known
      have exponent : value halfRef = some (1 / 2 : ℂ) := value_of_exact faithful number (by push_cast; rfl)
      apply Gives.bind (faithful.sqrt _ _ _ · faithful.pi exponent)
      intro sqrtPi root
      rw [Gamma_half]
      refine (mul_spec faithful (value_of_exact faithful known ?_) root).returns
      rw [rising_cast]
      push_cast
      rfl
    | none =>
      apply (splitIntegerShift_spec faithful worth).bind
      intro split shape
      cases split with
      | none => exact gives_pure (returns_none _)
      | some split =>
        obtain ⟨w, moved, here, sum, parts, ks, added, denoted, total⟩ := shape split.1 split.2 rfl
        have base : Regular w := total ▸ apart parts ks added denoted
        apply gives_ite
        · exact fun _ => gives_throw _ _
        · intro _
          apply Gives.bind (faithful.callGamma _ w · here base)
          intro baseGamma standing
          apply gives_ite
          · intro up
            obtain ⟨n, shape⟩ := Int.eq_ofNat_of_zero_le up.le
            rw [shape] at sum ⊢
            apply (symbolicRising_spec faithful here (.inl (Int.natCast_nonneg n))).bind
            intro rising_ product
            rw [sum, Int.cast_natCast, Gamma_add_rising base]
            exact (mul_spec faithful standing product).returns
          · intro down
            obtain ⟨n, shape⟩ := Int.eq_ofNat_of_zero_le (neg_nonneg.mpr (not_lt.mp down))
            rw [shape]
            apply (symbolicRising_spec faithful worth (.inl (Int.natCast_nonneg n))).bind
            intro denominator product
            have back : w = z + n := by
              have cast : (split.2 : ℂ) = -(n : ℂ) := by
                rw [← neg_neg split.2, shape]
                push_cast
                rfl
              rw [sum, cast, neg_add_cancel_right]
            have value_ : Complex.Gamma w * (rising z n)⁻¹ = Complex.Gamma z := by
              rw [back, Gamma_add_rising regular, mul_assoc, mul_inv_cancel₀ (rising_ne_zero regular n), mul_one]
            rw [← value_]
            exact (divideSymbolic_spec faithful standing product (rising_ne_zero regular n)).returns

theorem pochhammer_spec {start count : Ref} {a b v : ℂ} (worth : value start = some a) (index : value count = some b)
    (known : Value .pochhammer [a, b] v)
    (apart : ∀ parts ks, cas.addends count = some parts → Denote value (others cas parts) ks →
      Regular a ∧ Regular (a + b) ∧ Regular (a + ks.sum)) :
    Gives (discreteFunction cas .pochhammer [start, count]) (Returns value v) := by
  have direct : Gives (pochhammer cas start count) (Returns value v) := by
    unfold pochhammer
    apply gives_ite
    · intro _
      cases number : cas.integerValue count with
      | none => exact gives_throw _ _
      | some n =>
        obtain rfl := integer_eq faithful number index
        obtain ⟨defined, rfl⟩ := pochhammer_value known
        exact (pochhammer_integer faithful worth number defined).returns
    · exact fun _ => gives_pure (returns_none _)
  unfold discreteFunction
  apply direct.bind
  intro out held
  cases out with
  | some result => exact gives_pure held
  | none =>
    unfold pochhammerRecurrence
    apply (splitIntegerShift_spec faithful index).bind
    intro split shape
    cases split with
    | none => exact gives_pure (returns_none _)
    | some split =>
      obtain ⟨w, moved, here, sum, parts, ks, added, denoted, total⟩ := shape split.1 split.2 rfl
      obtain ⟨first, last, middle⟩ := apart parts ks added denoted
      rw [← total] at middle
      rw [pochhammer_ratio known first last]
      apply gives_ite
      · exact fun _ => gives_throw _ _
      · intro _
        apply Gives.bind (faithful.callPochhammer _ _ a w · worth here first middle)
        intro baseCall standing
        by_cases up : 0 < split.2
        · obtain ⟨n, shape⟩ := Int.eq_ofNat_of_zero_le up.le
          rw [if_pos up, shape, Int.natAbs_natCast]
          apply (add_spec faithful worth here).bind
          intro recurrenceStart place
          apply (symbolicRising_spec faithful place (.inl (Int.natCast_nonneg n))).bind
          intro finite product
          rw [if_pos (shape ▸ up)]
          have value_ : Complex.Gamma (a + w) / Complex.Gamma a * rising (a + w) n = Complex.Gamma (a + b) / Complex.Gamma a := by
            rw [sum, shape, Int.cast_natCast, ← add_assoc, Gamma_add_rising middle, div_mul_eq_mul_div]
          rw [← value_]
          exact (mul_spec faithful standing product).returns
        · obtain ⟨n, shape⟩ := Int.eq_ofNat_of_zero_le (neg_nonneg.mpr (not_lt.mp up))
          rw [if_neg up, ← Int.natAbs_neg, shape, Int.natAbs_natCast]
          apply (add_spec faithful worth index).bind
          intro recurrenceStart place
          apply (symbolicRising_spec faithful place (.inl (Int.natCast_nonneg n))).bind
          intro finite product
          rw [if_neg up]
          have back : a + w = a + b + n := by
            have cast : (split.2 : ℂ) = -(n : ℂ) := by
              rw [← neg_neg split.2, shape]
              push_cast
              rfl
            rw [sum, cast]
            ring
          have value_ : Complex.Gamma (a + w) / Complex.Gamma a * (rising (a + b) n)⁻¹ =
              Complex.Gamma (a + b) / Complex.Gamma a := by
            rw [back, Gamma_add_rising last, div_mul_eq_mul_div, mul_assoc, mul_inv_cancel₀ (rising_ne_zero last n), mul_one]
          rw [← value_]
          exact (divideSymbolic_spec faithful standing product (rising_ne_zero last n)).returns

end

/-- The arguments for which the call that is left standing after a shift has no pole. -/
def Separated (cas : Specials State Ref) (value : Ref → Option ℂ) : CasFunction → List Ref → Prop
  | .gamma, [argument] | .digamma, [argument] =>
    ∀ parts ks, cas.addends argument = some parts → Denote value (others cas parts) ks → Regular ks.sum
  | .pochhammer, [start, count] =>
    ∀ parts ks a b, cas.addends count = some parts → Denote value (others cas parts) ks → value start = some a →
      value count = some b → Regular a ∧ Regular (a + b) ∧ Regular (a + ks.sum)
  | _, _ => True

def Right (cas : Specials State Ref) (value : Ref → Option ℂ) (function : CasFunction) (arguments : List Ref)
    (result : Ref) : Prop :=
  ∀ ks v, Denote value arguments ks → Value function ks v → Separated cas value function arguments → value result = some v

/-- A digamma value at an integer whose predecessor does not fit in 32 bits. -/
def Truncated (cas : Specials State Ref) (function : CasFunction) (arguments : List Ref) : Prop :=
  ∃ argument n, function = .digamma ∧ arguments = [argument] ∧ cas.integerValue argument = some n ∧ 4294967296 < n

variable {arguments : List Ref}

theorem denote_single {k : ℂ} (denote : Denote value arguments [k]) :
    ∃ argument, arguments = [argument] ∧ value argument = some k := by
  obtain ⟨argument, _, worth, none_, rfl⟩ := List.forall₂_cons_right_iff.mp denote
  exact ⟨argument, by rw [List.forall₂_nil_right_iff.mp none_], worth⟩

theorem denote_pair {k l : ℂ} (denote : Denote value arguments [k, l]) :
    ∃ first second, arguments = [first, second] ∧ value first = some k ∧ value second = some l := by
  obtain ⟨first, _, worth, rest, rfl⟩ := List.forall₂_cons_right_iff.mp denote
  obtain ⟨second, rfl, worth'⟩ := denote_single rest
  exact ⟨first, second, rfl, worth, worth'⟩

/-- A matched call has the value of the function, if its argument is not cut. -/
theorem discreteFunction_spec (faithful : Faithful cas value) {function : CasFunction} {ks : List ℂ} {v : ℂ}
    (whole : ¬Truncated cas function arguments) (denote : Denote value arguments ks) (known : Value function ks v)
    (apart : Separated cas value function arguments) :
    Gives (discreteFunction cas function arguments) (Returns value v) := by
  cases known with
  | factorial n =>
    obtain ⟨argument, rfl, worth⟩ := denote_single denote
    exact factorial_spec faithful worth
  | pochhammer a n defined =>
    obtain ⟨start, count, rfl, worth, index⟩ := denote_pair denote
    exact pochhammer_spec faithful worth index (.pochhammer a n defined)
      fun parts ks added denoted => apart parts ks _ _ added denoted worth index
  | pochhammerRatio a b first last =>
    obtain ⟨start, count, rfl, worth, index⟩ := denote_pair denote
    exact pochhammer_spec faithful worth index (.pochhammerRatio a b first last)
      fun parts ks added denoted => apart parts ks _ _ added denoted worth index
  | binomial u k =>
    obtain ⟨upper, lower, rfl, worth, index⟩ := denote_pair denote
    exact binomial_natIndex faithful worth index
  | binomialNegative u k =>
    obtain ⟨upper, lower, rfl, worth, index⟩ := denote_pair denote
    exact binomial_negativeIndex faithful index
  | bernoulli n =>
    obtain ⟨argument, rfl, worth⟩ := denote_single denote
    exact bernoulli_spec faithful worth
  | harmonic n =>
    obtain ⟨argument, rfl, worth⟩ := denote_single denote
    exact harmonic_spec faithful worth
  | digamma z regular =>
    obtain ⟨argument, rfl, worth⟩ := denote_single denote
    refine digamma_spec faithful worth regular (fun n known => ?_) apart
    by_contra large
    exact whole ⟨argument, n, rfl, rfl, known, not_le.mp large⟩
  | gamma z regular =>
    obtain ⟨argument, rfl, worth⟩ := denote_single denote
    exact gamma_spec faithful worth regular apart

variable {n : Int}

theorem truncated_wrong (faithful : Faithful cas value) {argument : Ref} (known : cas.integerValue argument = some n)
    (large : 4294967296 < n) :
    Gives (discreteFunction cas .digamma [argument]) fun out => ∀ result, out = some result →
      ¬Right cas value .digamma [argument] result := by
  refine (digamma_integer faithful known).mono fun out held result same right => ?_
  obtain ⟨m, rfl⟩ : ∃ m : ℕ, n = m + 1 := ⟨(n - 1).toNat, by omega⟩
  have worth : value argument = some ((m : ℂ) + 1) := by
    rw [value_of_integer faithful known]
    push_cast
    rfl
  have exact := right [(m : ℂ) + 1] _ (.cons worth .nil) (.digamma _ (regular_natCast_succ m)) fun parts ks added _ => by
    rw [faithful.addendsExact argument _ (integerValue_eq.mp known).1] at added
    cases added
  rw [held result same, digamma_natCast_succ] at exact
  have cut : ((m : Int) + 1 - 1).toNat % 4294967296 = m % 4294967296 := by omega
  have orders : harmonic (m % 4294967296) = harmonic m := by
    rw [cut] at exact
    exact_mod_cast sub_left_injective (Option.some.inj exact)
  have equal := harmonic_strictMono.injective orders
  omega

/-- A matched call returns the exact value if and only if it is no digamma value at a cut integer. -/
theorem discreteFunction_exact_iff (faithful : Faithful cas value) (function : CasFunction) (arguments : List Ref) (s : State) :
    wp (discreteFunction cas function arguments)
      (fun out _ => ∀ result, out = some result → (Right cas value function arguments result ↔ ¬Truncated cas function arguments))
      (fun _ _ => True) s := by
  by_cases cut : Truncated cas function arguments
  · obtain ⟨argument, n, rfl, rfl, known, large⟩ := cut
    refine wp_mono (truncated_wrong faithful known large s) (fun out _ wrong result same => ?_) (fun _ _ _ => trivial)
    exact iff_of_false (wrong result same) (not_not.mpr ⟨argument, n, rfl, rfl, known, large⟩)
  · apply wp_of_run
    · intro out t run result same
      refine iff_of_true (fun ks v denote known apart => ?_) cut
      have held := discreteFunction_spec faithful cut denote known apart s
      rw [wp_of_ok run] at held
      exact held result same
    · exact fun _ _ _ => trivial

/-- Every operation succeeds, and a handle is its value. -/
noncomputable def complexSpecials : Specials Unit ℂ where
  toEngine := constants 0
  kernel := PhyNspire.Exact.unlimited
  bigratReciprocal q := if q = 0 then throw .domain else pure q⁻¹
  bigratRead q := pure q
  exactPublishBigrat q := pure (q : ℂ)
  exactOperationContext := pure ()
  charge _ := pure ()
  scratchAlloc _ := pure ()
  addends _ := none
  call function arguments := do
    match function, arguments with
    | .log, [z] => pure (Complex.log z)
    | .gamma, [z] => pure (Complex.Gamma z)
    | .digamma, [z] => pure (Complex.digamma z)
    | .pochhammer, [a, b] => pure (Complex.Gamma (a + b) / Complex.Gamma a)
    | _, _ => throw .unsupported
  zero := 0
  one := 1
  minusOne := -1
  eulerGamma := (Real.eulerMascheroniConstant : ℂ)
  pi := (Real.pi : ℂ)

theorem complexSpecials_faithful : Faithful complexSpecials some where
  toSound := constants_sound 0 True
  kernel := PhyNspire.Exact.unlimited_exact
  reciprocal q _ := wp_ite (fun _ => trivial) (fun nonzero => ⟨nonzero, rfl⟩)
  read _ _ := rfl
  publish q _ := (constants_exact_iff 0 _ q).mpr rfl
  numberExact n d _ _ := (constants_exact_iff 0 _ _).mpr (by push_cast; rfl)
  integerExact n _ := (constants_exact_iff 0 _ _).mpr (by push_cast; rfl)
  zero := (constants_exact_iff 0 _ _).mpr Rat.cast_zero
  one := (constants_exact_iff 0 _ _).mpr Rat.cast_one
  inverse base k _ same _ := by
    obtain rfl := Option.some.inj same
    exact congrArg some (Complex.cpow_neg_one base)
  addendsExact _ _ _ := rfl
  addends _ _ _ absurd := by cases absurd
  eulerGamma := rfl
  pi := rfl
  callLog _ _ _ same _ := congrArg (some ∘ Complex.log) (Option.some.inj same)
  callGamma _ _ _ same _ := congrArg (some ∘ Complex.Gamma) (Option.some.inj same)
  callDigamma _ _ _ same _ := congrArg (some ∘ Complex.digamma) (Option.some.inj same)
  callPochhammer _ _ _ _ _ same same' _ _ := by
    obtain rfl := Option.some.inj same
    obtain rfl := Option.some.inj same'
    rfl

theorem complexSpecials_integer (fits : FitsWord n) : complexSpecials.integerValue (n : ℂ) = some n := by
  refine integerValue_eq.mpr ⟨(constants_exact_iff 0 _ _).mpr ?_, fits⟩
  push_cast
  rfl

theorem complexSpecials_digamma (fits : FitsWord n) (positive : 0 < n) (cut : (n - 1).toNat % 4294967296 = 0) :
    ∃ result, discreteFunction complexSpecials .digamma [(n : ℂ)] () = .ok (some result) () := by
  have known := complexSpecials_integer fits
  have whole : isIntegerKind complexSpecials (n : ℂ) = true := by
    unfold isIntegerKind
    rw [(integerValue_eq.mp known).1]
    exact decide_eq_true (Rat.den_intCast n)
  change ∃ result, digamma complexSpecials (n : ℂ) () = .ok (some result) ()
  unfold digamma
  rw [if_pos whole, known]
  dsimp only
  rw [if_neg (not_le.mpr positive), cut]
  exact ⟨_, rfl⟩

theorem discreteFunction_exact_one : ∃ result,
    discreteFunction complexSpecials .digamma [((1 : Int) : ℂ)] () = .ok (some result) () ∧
      Right complexSpecials some .digamma [((1 : Int) : ℂ)] result := by
  obtain ⟨result, run⟩ := complexSpecials_digamma (n := 1) (by decide) one_pos rfl
  have exact := discreteFunction_exact_iff complexSpecials_faithful .digamma [((1 : Int) : ℂ)] ()
  rw [wp_of_ok run] at exact
  refine ⟨result, run, (exact result rfl).mpr ?_⟩
  rintro ⟨argument, n, _, same, known, large⟩
  rw [← List.singleton_inj.mp same, complexSpecials_integer (by decide)] at known
  obtain rfl := Option.some.inj known
  exact absurd large (by decide)

/-- At the first integer above two to the thirty-second the value is that at one. -/
theorem digamma_truncated : ∃ result,
    discreteFunction complexSpecials .digamma [((4294967297 : Int) : ℂ)] () = .ok (some result) () ∧
      ¬Right complexSpecials some .digamma [((4294967297 : Int) : ℂ)] result := by
  have known := complexSpecials_integer (n := 4294967297) (by decide)
  obtain ⟨result, run⟩ := complexSpecials_digamma (n := 4294967297) (by decide) (by decide) rfl
  have wrong := truncated_wrong complexSpecials_faithful known (by decide) ()
  rw [wp_of_ok run] at wrong
  exact ⟨result, run, wrong result rfl⟩

end PhyNspire.Cas.DiscreteValues

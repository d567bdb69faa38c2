import PhyNspire.Exact.Euclid
import PhyNspire.Exact.Rational
import Mathlib.Tactic.FieldSimp

/-!
The public rational operations against the field of rational numbers.

A live `phy_bigrat` represents a rational when its two handles hold that rational's own
numerator and denominator; canonical form is part of representing.
-/

namespace PhyNspire.Exact.Fractions
open Platform Lib Lib.Stateful Context Accounting Integer Magnitude Arithmetic Euclid Rational

variable {s : ExactContext} {left right out : Bigrat} {p q r : ℚ}

/-- The value is live, in lowest terms with a positive denominator, and equal to the rational. -/
structure Represents (s : ExactContext) (value : Bigrat) (r : ℚ) : Prop where
  numerator : view s (.numerator value) = some r.num
  denominator : view s (.denominator value) = some (r.den : Int)

/-- The effect of an operation with one rational output. -/
structure WritesRat (s : ExactContext) (out : Bigrat) (r : ℚ) (t : ExactContext) : Prop where
  valid : Valid t
  within : Within [.numerator out, .denominator out] s t
  result : Represents t out r

theorem Represents.shallow (valid : Valid s) (represents : Represents s left p) :
    rationalValidShallow s left = true := by
  obtain ⟨canonical, denotes⟩ := (valid.holds represents.numerator).payload
  obtain ⟨canonical', denotes'⟩ := (valid.holds represents.denominator).payload
  have positive : 0 < (s.payload (.denominator left)).sign := by
    rw [canonical'.sign_eq, denotes', Int.sign_pos_iff]
    exact_mod_cast p.den_pos
  simp only [rationalValidShallow, valid.shallow represents.numerator, valid.shallow represents.denominator,
    Bool.true_and, decide_eq_true positive, Bool.not_eq_true', Bool.and_eq_false_iff, decide_eq_false_iff_not,
    Bool.not_eq_false', decide_eq_true_eq, canonical.count_eq_zero, denotes]
  by_cases zero : p.num = 0
  · right
    have one : p = 0 := Rat.num_eq_zero.mp zero
    have single : Limbs.Normal ([] ++ [1#32]) := Limbs.normal_append_singleton.mpr (by decide)
    refine Limbs.normal_unique canonical'.normal single ?_
    rw [← canonical'.natAbs_eq, denotes', one]
    decide
  · exact .inl zero

theorem Represents.compatible2 (valid : Valid s) (first : Represents s left p) (second : Represents s right q) :
    Rational.compatible2 s left right = true := by
  simp only [Rational.compatible2, first.shallow valid, second.shallow valid, Bool.and_self]

theorem Represents.compatible3 (valid : Valid s) (first : Represents s left p) (second : Represents s right q)
    (third : Represents s out r) : Rational.compatible3 s left right out = true := by
  simp only [Rational.compatible3, first.compatible2 valid second, third.shallow valid, Bool.and_self]

/-- A rational that has been initialized is zero; one whose denominator cannot be paid for is gone. -/
theorem bigratInit_spec {value : Bigrat} (valid : Valid s) (absent : s.lookup (.numerator value) = none)
    (absent' : s.lookup (.denominator value) = none) :
    wp (bigratInit value)
      (fun _ t => Valid t ∧ Within [.denominator value, .numerator value] s t ∧
        ∀ handle, view t handle = if handle = .numerator value then some 0
          else if handle = .denominator value then some 1 else view s handle)
      (fun stop t => Exhausted stop ∧ Within [] s t) s := by
  unfold bigratInit
  simp only [wp_bind, wp_modify, wp_abandoning]
  obtain ⟨opened, empty⟩ := bigintInit_spec valid.toSound absent
  have still : (bigintInit (.numerator value) s).lookup (.denominator value) = none :=
    (opened.others _ (by simp)).trans absent'
  obtain ⟨opened', empty'⟩ := bigintInit_spec opened.sound still
  have zero : ∀ handle t, t.lookup handle = some Bigint.empty → Holds t handle 0 := fun handle t found =>
    ⟨_, found, canonical_empty _, by simp [toInt, Bigint.empty]⟩
  have first := Writes.of_holds valid opened (zero _ _ empty)
  have second := Writes.of_holds first.valid opened' (zero _ _ empty')
  have both : Within [.denominator value, .numerator value] s
      (bigintInit (.denominator value) (bigintInit (.numerator value) s)) :=
    (opened.mono (by simp)).trans (opened'.mono (by simp))
  have absent_view : ∀ handle ∈ [Handle.denominator value, .numerator value], view s handle = none := by
    simp [view_eq_none, absent, absent']
  refine wp_mono (bigintAssignU64_spec opened'.sound (zero _ _ empty') (show 1 < 2 ^ 64 by decide)
    (.inr (.inl rfl))) ?_ ?_
  · rintro _ u ⟨assigned, one⟩
    have third := Writes.of_holds second.valid assigned one
    refine ⟨third.valid, both.trans (assigned.mono (by simp)), fun handle => ?_⟩
    have views := first.view handle
    have views' := second.view handle
    have views'' := third.view handle
    grind
  · rintro stop t ⟨exhausted, kept⟩
    exact ⟨exhausted, close_within absent_view (by simpa using both.trans (kept.widen _))⟩

theorem wp_withRational {α : Type} {body : Bigrat → ExactM α} {good : α → ExactContext → Prop}
    {bad : Status → ExactContext → Prop} (valid : Valid s)
    (stopped : ∀ stop t, Exhausted stop → Within [] s t → bad stop t)
    (inner : ∀ temporary u, view s (.numerator temporary) = none → view s (.denominator temporary) = none →
      Valid u → Within [.denominator temporary, .numerator temporary] s u →
      (∀ handle, view u handle = if handle = .numerator temporary then some 0
        else if handle = .denominator temporary then some 1 else view s handle) →
      wp (body temporary)
        (fun result t => good result (closing [.denominator temporary, .numerator temporary] t))
        (fun stop t => bad stop (closing [.denominator temporary, .numerator temporary] t)) u) :
    wp (withRational body) good bad s := by
  unfold withRational
  simp only [wp_bind, wp_get, wp_ensuring]
  have absent : s.lookup (.numerator (freshAddress s)) = none := freshAddress_spec s rfl
  have absent' : s.lookup (.denominator (freshAddress s)) = none := freshAddress_spec s rfl
  refine wp_mono (bigratInit_spec valid absent absent') ?_ (fun stop t ended => stopped stop t ended.1 ended.2)
  rintro _ u ⟨valid_u, opened, views⟩
  exact inner _ u (view_eq_none.mpr absent) (view_eq_none.mpr absent') valid_u opened views

theorem publish_rational {temporaries : List Handle} {temporary : Bigrat} {t : ExactContext}
    (absent : ∀ handle ∈ temporaries, view s handle = none) (live : Represents s out p)
    (valid : Valid t) (within : Within temporaries s t) (member : .numerator temporary ∈ temporaries)
    (member' : .denominator temporary ∈ temporaries) (holds : Represents t temporary r) :
    WritesRat s out r (exactOperationEnd (closing temporaries (swapPayload out temporary t))) := by
  have outside : .numerator out ∉ temporaries := fun inside => by
    have none := absent _ inside
    rw [live.numerator] at none
    cases none
  have outside' : .denominator out ∉ temporaries := fun inside => by
    have none := absent _ inside
    rw [live.denominator] at none
    cases none
  have first := swap_spec valid ((Within.view within outside).trans live.numerator) holds.numerator
  have denominator_out : view (bigintSwapPayload (.numerator out) (.numerator temporary) t) (.denominator out) =
      some (p.den : Int) := by
    rw [Within.view first.within (by simp), Within.view within outside', live.denominator]
  have denominator_temporary : view (bigintSwapPayload (.numerator out) (.numerator temporary) t)
      (.denominator temporary) = some (r.den : Int) := by
    rw [Within.view first.within (by simp), holds.denominator]
  have second := swap_spec first.valid denominator_out denominator_temporary
  have all : Within (temporaries ++ [.numerator out, .denominator out]) s (swapPayload out temporary t) :=
    ((within.mono (by simp)).trans (first.within.mono (by simp [member]))).trans
      (second.within.mono (by simp [member']))
  refine ⟨Valid.ended (close_valid second.valid), Within.ended (close_within absent all), ?_, ?_⟩
  · refine (close_view second.valid.toSound outside).trans ?_
    rw [Within.view second.within (by simp), first.left_result]
  · exact (close_view second.valid.toSound outside').trans second.left_result

theorem lowest_terms {n d : Int} (positive : 0 < d) :
    ((n : ℚ) / d).num = n / (Int.gcd n d : Int) ∧ (((n : ℚ) / d).den : Int) = d / (Int.gcd n d : Int) := by
  have some : 0 < Int.gcd n d := Int.gcd_pos_of_ne_zero_right n positive.ne'
  have divides : (Int.gcd n d : Int) ∣ n := Int.gcd_dvd_left n d
  have divides' : (Int.gcd n d : Int) ∣ d := Int.gcd_dvd_right n d
  have reduced : 0 < d / (Int.gcd n d : Int) := Int.ediv_pos_of_pos_of_dvd positive (by positivity) divides'
  have coprime : Nat.Coprime (n / (Int.gcd n d : Int)).natAbs (d / (Int.gcd n d : Int)).natAbs := by
    have := Int.gcd_div_gcd_div_gcd some
    exact this
  have same : (n : ℚ) / d = (n / (Int.gcd n d : Int) : Int) / (d / (Int.gcd n d : Int) : Int) := by
    have nonzero : ((Int.gcd n d : Int) : ℚ) ≠ 0 := by exact_mod_cast some.ne'
    rw [Int.cast_div divides nonzero, Int.cast_div divides' nonzero, div_div_div_cancel_right₀ nonzero]
  rw [same]
  exact ⟨Rat.num_div_eq_of_coprime reduced coprime, Rat.den_div_eq_of_coprime reduced coprime⟩

theorem positiveDenominator_spec {value : Bigrat} {n d : Int} (valid : Valid s)
    (first : view s (.numerator value) = some n) (second : view s (.denominator value) = some d)
    (nonzero : d ≠ 0) :
    wp (normalizeInPlace.positiveDenominator value d.sign)
      (fun _ t => ∃ n' d' : Int, 0 < d' ∧ (n' : ℚ) / d' = (n : ℚ) / d ∧ Valid t ∧
        Within [.numerator value, .denominator value] s t ∧
        view t (.numerator value) = some n' ∧ view t (.denominator value) = some d')
      (fun stop t => Exhausted stop ∧ Within [.numerator value, .denominator value] s t) s := by
  unfold normalizeInPlace.positiveDenominator
  apply wp_ite
  · intro negative
    have less := Int.sign_neg_iff.mp negative
    refine wp_step (.refl valid.toSound _) (by simp) (bigintNegate_spec valid second second) ?_
    intro t valid_t within_t view_t
    have numerator_t : view t (.numerator value) = some n := by rw [view_t, if_neg (by simp), first]
    refine wp_mono (bigintNegate_spec valid_t numerator_t numerator_t) ?_
      (fun _ _ stopped => ⟨stopped.1, within_t.trans (stopped.2.widen _)⟩)
    intro _ u negated
    refine ⟨-n, -d, by omega, ?_, negated.valid, within_t.trans (negated.within.mono (by simp)), negated.result, ?_⟩
    · push_cast
      exact neg_div_neg_eq _ _
    · rw [negated.view, if_neg (by simp), view_t, if_pos rfl]
  · intro positive
    have more : 0 < d := by
      have := Int.sign_neg_iff.not.mp positive
      omega
    exact ⟨n, d, more, rfl, valid, .refl valid.toSound _, first, second⟩

theorem wp_exact {dividend divisor quotient : Handle} {x y z : Int} (valid : Valid s)
    (first : view s dividend = some x) (second : view s divisor = some y) (third : view s quotient = some z)
    (nonzero : y ≠ 0) (divides : y ∣ x) :
    wp (bigintDivideExact dividend divisor quotient) (fun _ t => Writes s quotient (x / y) t)
      (fun stop t => Exhausted stop ∧ Within [] s t) s := by
  refine wp_mono (bigintDivideExact_spec valid first second third) (fun _ _ done => done.2.2) ?_
  rintro stop t ⟨why, kept⟩
  refine ⟨?_, kept⟩
  rcases why with exhausted | ⟨_, zero | inexact⟩
  · exact exhausted
  · exact absurd zero nonzero
  · exact absurd divides inexact

theorem normalizeInPlace_spec {value : Bigrat} {n d : Int} (valid : Valid s)
    (first : view s (.numerator value) = some n) (second : view s (.denominator value) = some d) :
    wp (normalizeInPlace value)
      (fun _ t => d ≠ 0 ∧ WritesRat s value ((n : ℚ) / d) t)
      (fun stop t => (Exhausted stop ∨ stop = .domain ∧ d = 0) ∧
        Within [.numerator value, .denominator value] s t) s := by
  obtain ⟨canonical, denotes⟩ := (valid.holds second).payload
  unfold normalizeInPlace
  simp only [wp_bind, wp_get, valid.shallow first, valid.shallow second, Bool.not_true, Bool.or_self,
    Bool.false_eq_true, ↓reduceIte, canonical.count_eq_zero, canonical.sign_eq, denotes]
  apply wp_ite
  · intro zero
    exact ⟨.inr ⟨rfl, zero⟩, .refl valid.toSound _⟩
  intro nonzero
  simp only [wp_bind]
  refine wp_mono (positiveDenominator_spec valid first second nonzero) ?_
    (fun _ _ stopped => ⟨.inl stopped.1, stopped.2⟩)
  rintro _ r ⟨n, d, positive, same, valid, before, first, second⟩
  obtain ⟨canonical, denotes⟩ := (valid.holds first).payload
  obtain ⟨numerator_eq, denominator_eq⟩ := @lowest_terms n d positive
  simp only [wp_get, canonical.count_eq_zero, denotes, ← same]
  refine wp_mono (?_ : wp _ (fun _ t => WritesRat r value ((n : ℚ) / d) t)
    (fun stop t => Exhausted stop ∧ Within [.numerator value, .denominator value] r t) r)
    (fun _ _ done => ⟨nonzero, done.valid, before.trans done.within, done.result⟩)
    (fun _ _ stopped => ⟨.inl stopped.1, before.trans stopped.2⟩)
  apply wp_ite
  · rintro rfl
    refine wp_mono (bigintSetI64_spec valid second 1) ?_ (fun _ _ stopped => ⟨stopped.1, stopped.2.widen _⟩)
    intro _ t writes
    refine ⟨writes.valid, writes.within.mono (by simp), ?_, ?_⟩
    · rw [writes.view, if_neg (by simp), first]
      simp
    · rw [writes.result]
      simp
  intro inhabited
  refine wp_scratch valid fun gcd u₁ fresh₁ opened₁ => ?_
  refine wp_scratch opened₁.valid fun top u₂ fresh₂ opened₂ => ?_
  refine wp_scratch opened₂.valid fun bottom u₃ fresh₃ opened₃ => ?_
  have views₁ := opened₁.view
  have views₂ := opened₂.view
  have views₃ := opened₃.view
  have absent : ∀ handle ∈ [bottom, top, gcd], view r handle = none := by grind
  have within : Within [bottom, top, gcd] r u₃ := by
    refine (opened₁.within.mono ?_).trans ((opened₂.within.mono ?_).trans (opened₃.within.mono ?_)) <;> simp
  refine wp_mono (?_ : wp _ (fun _ t => WritesRat r value ((n : ℚ) / d) (closing [bottom, top, gcd] t))
    (fun stop t => Exhausted stop ∧ Within [bottom, top, gcd] r t) u₃)
    (fun _ _ done => done)
    (fun _ _ stopped => ⟨stopped.1, (close_within absent (by simpa using stopped.2)).widen _⟩)
  refine wp_step within (by simp) (bigintGcd_spec opened₃.valid (x := n) (y := d) (z := 0)
    (by grind) (by grind) (by grind)) ?_
  intro u₄ valid₄ within₄ view₄
  have common : 0 < Int.gcd n d := Int.gcd_pos_of_ne_zero_right n positive.ne'
  refine wp_step within₄ (by simp) (wp_exact valid₄ (x := n) (y := (Int.gcd n d : Int)) (z := 0)
    (by grind) (by grind) (by grind) (by exact_mod_cast common.ne') (Int.gcd_dvd_left n d)) ?_
  intro u₅ valid₅ within₅ view₅
  refine wp_step within₅ (by simp) (wp_exact valid₅ (x := d) (y := (Int.gcd n d : Int)) (z := 0)
    (by grind) (by grind) (by grind) (by exact_mod_cast common.ne') (Int.gcd_dvd_right n d)) ?_
  intro u₆ valid₆ within₆ view₆
  rw [← numerator_eq] at view₅
  rw [← denominator_eq] at view₆
  simp only [wp_bind, wp_modify]
  have swapped := swap_spec valid₆ (show view u₆ (.numerator value) = some n by grind)
    (show view u₆ top = some ((n : ℚ) / d).num by grind)
  have view₇ := swapped.view
  have swapped' := swap_spec swapped.valid (show view _ (.denominator value) = some d by grind)
    (show view _ bottom = some (((n : ℚ) / d).den : Int) by grind)
  have view₈ := swapped'.view
  have outside : .numerator value ∉ [bottom, top, gcd] ∧ .denominator value ∉ [bottom, top, gcd] := by grind
  refine ⟨close_valid swapped'.valid, close_within absent ?_, ?_, ?_⟩
  · exact ((within₆.mono (by simp)).trans (swapped.within.mono (by simp))).trans (swapped'.within.mono (by simp))
  · exact (close_view swapped'.valid.toSound outside.1).trans (by grind)
  · exact (close_view swapped'.valid.toSound outside.2).trans (by grind)

end PhyNspire.Exact.Fractions

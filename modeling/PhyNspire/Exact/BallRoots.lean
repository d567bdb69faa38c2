import PhyNspire.Exact.BallArithmetic

/-!
The loops of ball.c: powers by squaring and square roots by bisection. Each turn of a loop
does to the balls and bounds in memory what one turn does to the intervals themselves.
-/

namespace PhyNspire.Exact.BallRoots
open Lib Lib.Stateful Lib.Balls Context Accounting Integer Arithmetic Rational Fractions RationalField
  Runs RealBall Workspace BallFields BallArithmetic

variable {s t u : ExactContext} {ball left right temporary out : RealBall} {x y z : Ball} {temporaries : List Bigrat}
  {p q : ℚ}

theorem multiplyWhen_spec (work : Workspace s temporaries u) (member : fields left ⊆ temporaries)
    (member' : fields temporary ⊆ temporaries) (distinct : temporary ≠ left) (first : ballAt u left = some x)
    (second : ballAt u right = some y) (live : ballAt u temporary = some z) (condition : Bool) :
    wp (RealBall.multiplyWhen condition left right temporary)
      (fun _ t => Workspace s temporaries t ∧ (∃ z, ballAt t temporary = some z) ∧
        ∀ other, other ≠ temporary → ballAt t other =
          if other = left then some (if condition then x.mul y else x) else ballAt u other)
      (fun stop t => Exhausted stop ∧ Within (halves temporaries) s t) u := by
  unfold RealBall.multiplyWhen
  apply wp_ite
  · intro taken
    refine wp_computeBall work (fun _ => id) member' (realBallMultiply_spec work.valid first second live)
      fun v work_v product => ?_
    have multiplied := ballAt_of_produces product
    refine wp_mono (realBallCopy_spec work_v.valid (result_of_produces product)
      (by rw [multiplied, if_neg (Ne.symm distinct), first])) ?_
      (fun _ _ stopped => ⟨stopped.1, work_v.abandon stopped.2⟩)
    intro _ t copied
    have views := ballAt_of_produces copied
    refine ⟨work_v.write member copied, ⟨x.mul y, ?_⟩, fun other different => ?_⟩
    · rw [views, if_neg distinct, result_of_produces product]
    · rw [views, multiplied, if_neg different, if_pos taken]
  · intro skipped
    refine ⟨work, ⟨z, live⟩, fun other _ => ?_⟩
    by_cases same : other = left
    · rw [if_pos same, if_neg skipped, same, first]
    · rw [if_neg same]

variable {result factor : RealBall}

/-- The loop does in memory what `raise` does to balls. -/
theorem powLoop_spec (turns power : Nat) (work : Workspace s temporaries u)
    (members : fields result ⊆ temporaries ∧ fields factor ⊆ temporaries ∧ fields temporary ⊆ temporaries)
    (distinct : temporary ≠ result ∧ temporary ≠ factor ∧ result ≠ factor) (first : ballAt u result = some x)
    (second : ballAt u factor = some y) (live : ∃ z, ballAt u temporary = some z) :
    wp (RealBall.powLoop result factor temporary turns power)
      (fun _ t => Workspace s temporaries t ∧ ballAt t result = some (Ball.raise turns power x y) ∧
        (∃ z, ballAt t factor = some z) ∧ ∃ z, ballAt t temporary = some z)
      (fun stop t => Exhausted stop ∧ Within (halves temporaries) s t) u := by
  obtain ⟨z, live⟩ := live
  induction turns generalizing power u x y z with
  | zero => exact ⟨work, first, ⟨y, second⟩, z, live⟩
  | succ turns ih =>
    unfold RealBall.powLoop Ball.raise
    by_cases zero : power = 0
    · simp only [zero, ne_eq, not_true_eq_false, ↓reduceIte, wp_pure]
      exact ⟨work, first, ⟨y, second⟩, z, live⟩
    · simp only [ne_eq, zero, not_false_eq_true, ↓reduceIte, wp_bind]
      refine wp_good (multiplyWhen_spec work members.1 members.2.2 distinct.1 first second live _) ?_
      rintro _ v ⟨work_v, ⟨z_v, live_v⟩, views_v⟩
      have first_v := views_v result distinct.1.symm
      have second_v := views_v factor distinct.2.1.symm
      rw [if_pos rfl] at first_v
      rw [if_neg distinct.2.2.symm, second] at second_v
      refine wp_good (multiplyWhen_spec work_v members.2.1 members.2.2 distinct.2.1 second_v second_v live_v _) ?_
      rintro _ w ⟨work_w, ⟨z_w, live_w⟩, views_w⟩
      have first_w := views_w result distinct.1.symm
      have second_w := views_w factor distinct.2.1.symm
      rw [if_neg distinct.2.2, first_v] at first_w
      rw [if_pos rfl] at second_w
      simpa only [decide_eq_true_eq, ne_eq] using ih (power >>> 1) work_w first_w second_w z_w live_w

/-- In 32 turns every exponent of 32 bits is used up. -/
def powI32 (base : Ball) (exponent : Int32) : Option Ball := base.power 32 exponent.toInt

theorem powMagnitude_natAbs (exponent : Int32) : (powMagnitude exponent).toNat = exponent.toInt.natAbs := by
  have magnitude := powMagnitude_spec exponent
  rw [Int.abs_eq_natAbs] at magnitude
  exact_mod_cast magnitude

theorem refuseZero_spec (valid : Valid s) (first : ballAt s ball = some x) (exponent : Int32) :
    wp (realBallPowI32.refuseZero ball exponent)
      (fun _ t => (0 ≤ exponent.toInt ∨ ¬x.Contains (0 : ℚ)) ∧ Valid t ∧ Within [] s t)
      (fun stop t => (Exhausted stop ∨ stop = .domain ∧ exponent.toInt < 0 ∧ x.Contains (0 : ℚ)) ∧ Within [] s t)
      s := by
  have less : exponent < 0 ↔ exponent.toInt < 0 := Int32.lt_iff_toInt_lt
  unfold realBallPowI32.refuseZero
  apply wp_ite
  · intro negative
    rw [wp_bind]
    refine wp_mono (realBallContainsZeroChecked_spec valid first) ?_ (fun _ _ stopped => ⟨.inl stopped.1, stopped.2⟩)
    rintro zero t ⟨known, valid_t, kept⟩
    apply wp_ite
    · intro inside
      exact ⟨.inr ⟨rfl, less.mp negative, known.mp inside⟩, kept⟩
    · intro outside
      exact ⟨.inr fun inside => outside (known.mpr inside), valid_t, kept⟩
  · intro positive
    exact ⟨.inl (not_lt.mp (less.not.mp positive)), valid, .refl valid.toSound _⟩

theorem reciprocate_spec (work : Workspace s temporaries u)
    (members : fields result ⊆ temporaries ∧ fields factor ⊆ temporaries ∧ fields temporary ⊆ temporaries)
    (distinct : temporary ≠ result ∧ temporary ≠ factor ∧ result ≠ factor) (first : ballAt u result = some x)
    (second : ballAt u factor = some y) (third : ballAt u temporary = some z) (exponent : Int32) :
    wp (realBallPowI32.reciprocate exponent result factor temporary)
      (fun _ t => ∃ c, (if 0 ≤ exponent.toInt then some x else (Ball.exact 1).quotient x) = some c ∧
        Workspace s temporaries t ∧ ballAt t result = some c)
      (fun stop t => (Exhausted stop ∨ stop = .domain ∧ exponent.toInt < 0 ∧ (Ball.exact 1).quotient x = none) ∧
        Within (halves temporaries) s t) u := by
  have less : exponent < 0 ↔ exponent.toInt < 0 := Int32.lt_iff_toInt_lt
  have one : ((1 : Int64).toInt : ℚ) = 1 := by decide
  unfold realBallPowI32.reciprocate
  apply wp_ite
  · intro negative
    refine wp_computeBall work (fun _ => .inl) members.2.1 (realBallSetInteger_spec work.valid second 1)
      fun v work_v written => ?_
    rw [one] at written
    have views := ballAt_of_produces written
    have first_v : ballAt v result = some x := by rw [views, if_neg distinct.2.2, first]
    have third_v : ballAt v temporary = some z := by rw [views, if_neg distinct.2.1, third]
    rw [wp_bind]
    refine wp_mono (realBallDivide_spec work_v.valid (result_of_produces written) first_v third_v) ?_ ?_
    · rintro _ w ⟨c, divided, produces⟩
      have work_w := work_v.write members.2.2 produces
      have first_w : ballAt w result = some x := by
        rw [ballAt_of_produces produces, if_neg distinct.1.symm, first_v]
      refine wp_mono (realBallCopy_spec work_w.valid (result_of_produces produces) first_w) ?_
        (fun _ _ stopped => ⟨.inl stopped.1, work_w.abandon stopped.2⟩)
      intro _ t copied
      exact ⟨c, by rw [if_neg (not_le.mpr (less.mp negative)), divided], work_w.write members.1 copied,
        result_of_produces copied⟩
    · rintro stop t ⟨exhausted | ⟨domain, undefined⟩, kept⟩
      · exact ⟨.inl exhausted, work_v.abandon kept⟩
      · exact ⟨.inr ⟨domain, less.mp negative, undefined⟩, work_v.abandon kept⟩
  · intro positive
    exact ⟨x, if_pos (not_lt.mp (less.not.mp positive)), work, first⟩

theorem realBallPowI32_spec (valid : Valid s) (first : ballAt s ball = some x) (live : ballAt s out = some z)
    (exponent : Int32) :
    wp (realBallPowI32 ball exponent out) (fun _ t => ∃ c, powI32 x exponent = some c ∧ ProducesBall s [] out c t)
      (fun stop t => (Exhausted stop ∨ stop = .domain ∧ powI32 x exponent = none) ∧ Within [] s t) s := by
  have one : ((1 : Int64).toInt : ℚ) = 1 := by decide
  unfold realBallPowI32
  rw [wp_bind, wp_get]
  simp only [initialized_of_ballAt valid first, initialized_of_ballAt valid live, Bool.not_true, Bool.or_self,
    Bool.false_eq_true, ↓reduceIte]
  rw [wp_bind]
  refine wp_mono (refuseZero_spec valid first exponent) ?_ ?_
  · rintro _ r ⟨defined, valid_r, kept⟩
    have work : Workspace s [] r := ⟨valid_r, kept, by simp, by simp, by simp⟩
    have meaning : powI32 x exponent =
        if 0 ≤ exponent.toInt then some (Ball.raise 32 (powMagnitude exponent).toNat (.exact 1) x)
        else (Ball.exact 1).quotient (Ball.raise 32 (powMagnitude exponent).toNat (.exact 1) x) := by
      rw [powMagnitude_natAbs]
      unfold powI32 Ball.power
      by_cases positive : 0 ≤ exponent.toInt
      · simp only [if_pos positive]
      · simp only [if_neg positive, if_neg (defined.resolve_left positive)]
    refine wp_good (?_ : wp _
      (fun _ t => powI32 x exponent = some ((powI32 x exponent).getD z) ∧
        ProducesBall s [] out ((powI32 x exponent).getD z) t)
      (fun stop t => (Exhausted stop ∨ stop = .domain ∧ powI32 x exponent = none) ∧ Within [] s t) r)
      fun _ _ done => ⟨_, done⟩
    refine wp_rentBall work (fun _ => .inl) (fields_live live) fun result u work views₁ => ?_
    refine wp_rentBall work (fun _ => .inl) (fields_live live) fun factor u work views₂ => ?_
    refine wp_rentBall work (fun _ => .inl) (fields_live live) fun temporary u work views₃ => ?_
    have apart := work.nodup
    simp only [fields, List.cons_append, List.nil_append, List.nodup_cons, List.mem_cons, List.not_mem_nil, or_false,
      not_or, radius_inj, midpoint_inj] at apart
    have distinct : temporary ≠ result ∧ temporary ≠ factor ∧ result ≠ factor :=
      ⟨apart.1.2.2.2.1, apart.1.2.1, Ne.symm apart.2.2.1.2.1⟩
    have zeroed : ballAt u result = some (.exact 0) ∧ ballAt u factor = some (.exact 0) ∧
        ballAt u temporary = some (.exact 0) := by
      refine ⟨ballAt_iff.mpr ⟨?_, ?_⟩, ballAt_iff.mpr ⟨?_, ?_⟩, ballAt_iff.mpr ⟨?_, ?_⟩⟩ <;>
        simp [views₃, views₂, views₁, fields, Ball.exact]
    have members : fields result ⊆ fields temporary ++ (fields factor ++ (fields result ++ [])) ∧
        fields factor ⊆ fields temporary ++ (fields factor ++ (fields result ++ [])) ∧
        fields temporary ⊆ fields temporary ++ (fields factor ++ (fields result ++ [])) := by simp
    refine wp_computeBall work (fun _ => .inl) members.1 (realBallSetInteger_spec work.valid zeroed.1 1)
      fun v₁ work written => ?_
    have views := ballAt_of_produces written
    refine wp_computeBall work (fun _ => .inl) members.2.1 (realBallCopy_spec work.valid (frame_ball work first)
      (by rw [views, if_neg distinct.2.2.symm, zeroed.2.1])) fun v₂ work copied => ?_
    have views' := ballAt_of_produces copied
    rw [wp_bind]
    refine wp_mono (powLoop_spec 32 (powMagnitude exponent).toNat work members distinct (x := .exact 1) (y := x)
      (by rw [views', if_neg distinct.2.2, result_of_produces written, one]) (result_of_produces copied)
      ⟨.exact 0, by rw [views', if_neg distinct.2.1, views, if_neg distinct.1, zeroed.2.2]⟩) ?_
      (fun _ _ stopped => ⟨.inl stopped.1, stopped.2⟩)
    rintro _ v₃ ⟨work, raised, ⟨y₃, factor₃⟩, z₃, temporary₃⟩
    rw [wp_bind]
    refine wp_mono (reciprocate_spec work members distinct raised factor₃ temporary₃ exponent) ?_ ?_
    · rintro _ v₄ ⟨c, found, work, finished⟩
      rw [← meaning] at found
      refine wp_mono (realBallCopy_spec work.valid finished (frame_ball work live)) ?_
        (fun _ _ stopped => ⟨.inl stopped.1, work.abandon stopped.2⟩)
      intro _ t produces
      rw [found, Option.getD_some]
      exact ⟨rfl, work.deliver produces⟩
    · rintro stop t ⟨exhausted | ⟨domain, negative, undefined⟩, within⟩
      · exact ⟨.inl exhausted, within⟩
      · exact ⟨.inr ⟨domain, by rw [meaning, if_neg (not_le.mpr negative), undefined]⟩, within⟩
  · rintro stop t ⟨exhausted | ⟨domain, negative, inside⟩, kept⟩
    · exact ⟨.inl exhausted, kept⟩
    · refine ⟨.inr ⟨domain, ?_⟩, kept⟩
      simp only [powI32, Ball.power, if_neg (not_le.mpr negative), if_pos inside]

structure Bisecting (bounds : Bisection) (temporaries : List Bigrat) : Prop where
  low : bounds.low ∈ temporaries
  high : bounds.high ∈ temporaries
  midpoint : bounds.midpoint ∈ temporaries
  square : bounds.square ∈ temporaries
  distinct : [bounds.low, bounds.high, bounds.two, bounds.midpoint, bounds.square].Nodup

variable {bounds : Bisection} {value : Bigrat} {low high : ℚ}

structure Bounded (u : ExactContext) (bounds : Bisection) (low high : ℚ) : Prop where
  low : holding u bounds.low = some low
  high : holding u bounds.high = some high
  two : holding u bounds.two = some 2

theorem narrow_spec (work : Workspace s temporaries u) (bisecting : Bisecting bounds temporaries)
    (bounded : Bounded u bounds low high) (middle : holding u bounds.midpoint = some q) (order : Int) :
    wp (bounds.narrow order)
      (fun found t => Workspace s temporaries t ∧ (found = true ↔ order = 0) ∧
        Bounded t bounds (if order ≤ 0 then q else low) (if 0 ≤ order then q else high))
      (fun stop t => Exhausted stop ∧ Within (halves temporaries) s t) u := by
  have apart := bisecting.distinct
  simp only [List.nodup_cons, List.mem_cons, List.not_mem_nil, or_false, not_or] at apart
  obtain ⟨low_u, high_u, two_u⟩ := bounded
  unfold Bisection.narrow
  apply wp_ite
  · rintro rfl
    refine wp_compute work (fun _ => id) bisecting.low
      (fun _ target => bigratCopy_spec work.valid (holding_iff.mp middle) target) fun v work_v views => ?_
    refine wp_compute work_v (fun _ => id) bisecting.high
      (fun _ target => bigratCopy_spec work_v.valid (p := q) (holding_iff.mp (by grind)) target) fun t work_t views' => ?_
    exact ⟨work_t, by simp, by grind, by grind, by grind⟩
  intro unequal
  apply wp_ite
  · intro less
    refine wp_compute work (fun _ => id) bisecting.low
      (fun _ target => bigratCopy_spec work.valid (holding_iff.mp middle) target) fun t work_t views => ?_
    exact ⟨work_t, by simp [unequal], by grind, by grind, by grind⟩
  · intro more
    refine wp_compute work (fun _ => id) bisecting.high
      (fun _ target => bigratCopy_spec work.valid (holding_iff.mp middle) target) fun t work_t views => ?_
    exact ⟨work_t, by simp [unequal], by grind, by grind, by grind⟩

theorem turn_spec (work : Workspace s temporaries u) (bisecting : Bisecting bounds temporaries)
    (bounded : Bounded u bounds low high) (held : holding s value = some p) :
    wp (bounds.turn value)
      (fun found t => Workspace s temporaries t ∧ (found = true ↔ (low + high) / 2 * ((low + high) / 2) = p) ∧
        Bounded t bounds (if (low + high) / 2 * ((low + high) / 2) ≤ p then (low + high) / 2 else low)
          (if p ≤ (low + high) / 2 * ((low + high) / 2) then (low + high) / 2 else high))
      (fun stop t => Exhausted stop ∧ Within (halves temporaries) s t) u := by
  have apart := bisecting.distinct
  simp only [List.nodup_cons, List.mem_cons, List.not_mem_nil, or_false, not_or] at apart
  obtain ⟨low_u, high_u, two_u⟩ := bounded
  unfold Bisection.turn
  refine wp_compute work (fun _ => id) bisecting.midpoint
    (fun _ target => bigratAdd_spec work.valid (holding_iff.mp low_u) (holding_iff.mp high_u) target)
    fun v₁ work views₁ => ?_
  refine wp_compute work (fun _ => id) bisecting.midpoint (fun _ target => divide_nonzero work.valid (p := low + high)
    (q := 2) (holding_iff.mp (by grind)) (holding_iff.mp (by grind)) target two_ne_zero) fun v₂ work views₂ => ?_
  have middle₂ : holding v₂ bounds.midpoint = some ((low + high) / 2) := by rw [views₂, if_pos rfl]
  refine wp_compute work (fun _ => id) bisecting.square (fun _ target => bigratMultiply_spec work.valid
    (holding_iff.mp middle₂) (holding_iff.mp middle₂) target) fun v₃ work views₃ => ?_
  have square₃ : holding v₃ bounds.square = some ((low + high) / 2 * ((low + high) / 2)) := by rw [views₃, if_pos rfl]
  refine wp_inspect work (fun _ => id) (bigratCompare_spec work.valid (holding_iff.mp square₃)
    (holding_iff.mp (work.frame held))) fun order v₄ known work views₄ => ?_
  have bounded₄ : Bounded v₄ bounds low high := ⟨by grind, by grind, by grind⟩
  refine wp_good (narrow_spec work bisecting bounded₄ (q := (low + high) / 2) (by grind) order) ?_
  rintro found t ⟨work_t, hit, bounded_t⟩
  have zero : order = 0 ↔ (low + high) / 2 * ((low + high) / 2) = p := by
    rw [known, Int.sign_eq_zero_iff_zero, Rat.num_eq_zero, sub_eq_zero]
  have below : order ≤ 0 ↔ (low + high) / 2 * ((low + high) / 2) ≤ p := by
    rw [known, ← not_lt, Int.sign_pos_iff, Rat.num_pos, sub_pos, not_lt]
  have above : 0 ≤ order ↔ p ≤ (low + high) / 2 * ((low + high) / 2) := by
    rw [known, ← not_lt, Int.sign_neg_iff, Rat.num_neg, sub_neg, not_lt]
  simp only [below, above] at bounded_t
  exact ⟨work_t, hit.trans zero, bounded_t⟩

theorem rounds_spec (rounds : Nat) (work : Workspace s temporaries u) (bisecting : Bisecting bounds temporaries)
    (bounded : Bounded u bounds low high) (held : holding s value = some p) :
    wp (bounds.rounds value rounds)
      (fun _ t => Workspace s temporaries t ∧
        Bounded t bounds (Ball.bisect p rounds low high).1 (Ball.bisect p rounds low high).2)
      (fun stop t => Exhausted stop ∧ Within (halves temporaries) s t) u := by
  induction rounds generalizing u low high with
  | zero => exact ⟨work, bounded⟩
  | succ rounds ih =>
    unfold Bisection.rounds
    refine wp_then (turn_spec work bisecting bounded held) ?_
    rintro found t ⟨work_t, known, bounded_t⟩
    unfold Ball.bisect
    apply wp_ite
    · intro hit
      have square := known.mp hit
      simp only [square, le_refl, ↓reduceIte] at bounded_t ⊢
      exact ⟨work_t, bounded_t⟩
    · intro missed
      have square := known.not.mp missed
      have rest := ih work_t bounded_t
      by_cases less : (low + high) / 2 * ((low + high) / 2) < p
      · simpa only [if_neg square, if_pos less, if_pos less.le, if_neg (not_le.mpr less)] using rest
      · have more := lt_of_le_of_ne (not_lt.mp less) (Ne.symm square)
        simpa only [if_neg square, if_neg less, if_pos more.le, if_neg (not_le.mpr more)] using rest

theorem holding_ite {condition : Prop} [Decidable condition] {first second : Bigrat}
    (held : holding s first = some p) (held' : holding s second = some q) :
    holding s (if condition then first else second) = some (if condition then p else q) := by
  split
  · exact held
  · exact held'

theorem sqrtIntervalBound_spec (valid : Valid s) (held : holding s value = some p) (nonneg : 0 ≤ p) {out : Bigrat}
    (live : Represents s out q) (rounds : UInt32) (upperBound : Bool) :
    wp (sqrtIntervalBound value rounds upperBound out)
      (fun _ t => WritesRat s out
        (if upperBound then (Ball.rootBounds p rounds.toNat).2 else (Ball.rootBounds p rounds.toNat).1) t)
      (fun stop t => Exhausted stop ∧ Within [] s t) s := by
  have constants : ((0 : Int64).toInt : ℚ) = 0 ∧ ((1 : Int64).toInt : ℚ) = 1 ∧ ((2 : Int64).toInt : ℚ) = 2 := by decide
  obtain ⟨zero, one, two⟩ := constants
  have outputs : ∀ value ∈ [out], ∃ p, holding s value = some p := by simpa using ⟨q, holding_iff.mpr live⟩
  unfold sqrtIntervalBound
  rw [wp_bind, wp_get, if_neg ((bigratSign_neg valid held).not.mpr (not_lt.mpr nonneg))]
  refine wp_good (?_ : wp _ (fun _ t => Produces s [] [out] (fun _ =>
      if upperBound then (Ball.rootBounds p rounds.toNat).2 else (Ball.rootBounds p rounds.toNat).1) t)
    (fun stop t => Exhausted stop ∧ Within [] s t) s) ?_
  · refine wp_work (.start valid) (fun _ => id) outputs fun low u work _ => ?_
    refine wp_work work (fun _ => id) outputs fun high u work _ => ?_
    refine wp_work work (fun _ => id) outputs fun unit u work _ => ?_
    refine wp_work work (fun _ => id) outputs fun double u work _ => ?_
    refine wp_work work (fun _ => id) outputs fun midpoint u work _ => ?_
    refine wp_work work (fun _ => id) outputs fun square u work _ => ?_
    have apart := work.nodup
    simp only [List.nodup_cons, List.mem_cons, List.not_mem_nil, or_false, not_or] at apart
    refine wp_compute work (fun _ => id) (by simp) (fun _ target => set_integer work.valid target 0)
      fun v₁ work views₁ => ?_
    refine wp_compute work (fun _ => id) (by simp) (fun _ target => set_integer work.valid target 1)
      fun v₂ work views₂ => ?_
    refine wp_compute work (fun _ => id) (by simp) (fun _ target => set_integer work.valid target 2)
      fun v₃ work views₃ => ?_
    rw [zero] at views₁
    rw [one] at views₂
    rw [two] at views₃
    refine wp_inspect work (fun _ => id) (bigratCompare_spec work.valid (q := 1) (holding_iff.mp (work.frame held))
      (holding_iff.mp (by grind))) fun order v₄ known work views₄ => ?_
    have unit₄ : holding v₄ unit = some 1 := by grind
    refine wp_compute work (fun _ => id) (by simp) (fun _ target => bigratCopy_spec work.valid
      (holding_iff.mp (holding_ite (work.frame held) unit₄)) target) fun v₅ work views₅ => ?_
    have large : 0 < order ↔ 1 < p := by rw [known, Int.sign_pos_iff, Rat.num_pos, sub_pos]
    simp only [large] at views₅
    have bisecting : Bisecting (.mk low high double midpoint square) [square, midpoint, double, unit, high, low] := by
      refine ⟨by simp, by simp, by simp, by simp, ?_⟩
      simp only [List.nodup_cons, List.mem_cons, List.not_mem_nil, or_false, not_or]
      grind
    rw [wp_bind]
    have bounded : Bounded v₅ (.mk low high double midpoint square) 0 (if 1 < p then p else 1) :=
      ⟨by grind, by grind, by grind⟩
    refine wp_good (rounds_spec rounds.toNat work bisecting bounded held) ?_
    rintro _ v₆ ⟨work, low₆, high₆, _⟩
    refine wp_mono (bigratCopy_spec work.valid (holding_iff.mp (holding_ite high₆ low₆))
      (holding_iff.mp (work.frame (holding_iff.mpr live)))) ?_ (fun _ _ stopped => ⟨stopped.1, work.abandon stopped.2⟩)
    intro _ t writes
    exact work.deliver (Produces.of_writes writes)
  · intro _ t produces
    exact ⟨produces.valid, by simpa [halves] using produces.within, holding_iff.mp (produces.results out (by simp))⟩

theorem realBallSqrt_spec (valid : Valid s) (first : ballAt s ball = some x) (live : ballAt s out = some z)
    (rounds : UInt32) :
    wp (realBallSqrt ball rounds out)
      (fun _ t => ∃ c, x.root rounds.toNat = some c ∧ ProducesBall s [] out c t)
      (fun stop t => (Exhausted stop ∨ stop = .domain ∧ x.root rounds.toNat = none) ∧ Within [] s t) s := by
  unfold realBallSqrt
  simp only [wp_bind, wp_get, initialized_of_ballAt valid first, initialized_of_ballAt valid live, Bool.not_true,
    Bool.or_self, Bool.false_eq_true, ↓reduceIte]
  refine wp_good (?_ : wp _
    (fun _ t => x.root rounds.toNat = some ((x.root rounds.toNat).getD z) ∧
      ProducesBall s [] out ((x.root rounds.toNat).getD z) t)
    (fun stop t => (Exhausted stop ∨ stop = .domain ∧ x.root rounds.toNat = none) ∧ Within [] s t) s)
    fun _ _ done => ⟨_, done⟩
  refine wp_rent (.start valid) (fun _ => .inl) (fields_live live) fun lower u work _ => ?_
  refine wp_rent work (fun _ => .inl) (fields_live live) fun upper u work _ => ?_
  refine wp_rent work (fun _ => .inl) (fields_live live) fun rootLower u work _ => ?_
  refine wp_rent work (fun _ => .inl) (fields_live live) fun rootUpper u work _ => ?_
  have apart := work.nodup
  simp only [List.nodup_cons, List.mem_cons, List.not_mem_nil, or_false, not_or] at apart
  refine wp_compute work (fun _ => .inl) (by simp)
    (fun _ target => realBallLower_spec work.valid (frame_ball work first) target) fun v₁ work views₁ => ?_
  refine wp_compute work (fun _ => .inl) (by simp)
    (fun _ target => realBallUpper_spec work.valid (frame_ball work first) target) fun v₂ work views₂ => ?_
  have lower₂ : holding v₂ lower = some x.lower := by grind
  rw [wp_bind, wp_get]
  by_cases negative : x.lower < 0
  · rw [if_pos ((bigratSign_neg work.valid lower₂).mpr negative)]
    exact ⟨.inr ⟨rfl, Ball.root_eq_none.mpr negative⟩, work.within⟩
  · have nonneg := not_lt.mp negative
    rw [if_neg ((bigratSign_neg work.valid lower₂).not.mpr negative)]
    obtain ⟨c, found⟩ := Option.ne_none_iff_exists'.mp
      ((@Ball.root_eq_none x rounds.toNat).not.mpr negative)
    have hull : Ball.interval (Ball.rootBounds x.lower rounds.toNat).1 (Ball.rootBounds x.upper rounds.toNat).2 =
        some c := by
      rwa [Ball.root, if_neg negative] at found
    refine wp_compute work (fun _ => .inl) (by simp)
      (fun _ target => sqrtIntervalBound_spec work.valid lower₂ nonneg target rounds false) fun v₃ work views₃ => ?_
    refine wp_compute work (fun _ => .inl) (by simp) (fun _ target => sqrtIntervalBound_spec work.valid
      (p := x.upper) (by grind) (nonneg.trans x.lower_le_upper) target rounds true) fun v₄ work views₄ => ?_
    simp only [Bool.false_eq_true, ↓reduceIte] at views₃ views₄
    have bounds : holding v₄ rootLower = some (Ball.rootBounds x.lower rounds.toNat).1 ∧
        holding v₄ rootUpper = some (Ball.rootBounds x.upper rounds.toNat).2 := by grind
    refine wp_mono (defined_of_known hull (realBallSetInterval_spec work.valid (frame_ball work live)
      bounds.1 bounds.2)) ?_
      (fun _ _ stopped => ⟨.inl stopped.1, work.abandon stopped.2⟩)
    intro _ t produces
    rw [found, Option.getD_some]
    exact ⟨rfl, work.deliver produces⟩

end PhyNspire.Exact.BallRoots

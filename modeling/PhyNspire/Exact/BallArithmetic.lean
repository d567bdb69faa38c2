import PhyNspire.Exact.BallFields

/-!
The operations of ball.c compute with balls: each one that returns has published the ball
of its result, and each one that stops has left every value as it was.
-/

namespace PhyNspire.Exact.BallArithmetic
open Platform Lib Lib.Stateful Lib.Balls Context Accounting Integer Arithmetic Rational Fractions RationalField
  Runs RealBall Workspace BallFields

variable {s t u : ExactContext} {ball left right out : RealBall} {x y z : Ball} {temporaries : List Bigrat}
  {p q : ℚ} {why : Status → Prop}

theorem realBallSetI64_spec (valid : Valid s) (live : ballAt s ball = some z) (numerator denominator : Int64) :
    wp (realBallSetI64 ball numerator denominator)
      (fun _ t => denominator.toInt ≠ 0 ∧ ProducesBall s [] ball (.exact ((numerator.toInt : ℚ) / denominator.toInt)) t)
      (fun stop t => (Exhausted stop ∨ stop = .domain ∧ denominator.toInt = 0) ∧ Within [] s t) s := by
  unfold realBallSetI64
  simp only [wp_bind, wp_get, initialized_of_ballAt valid live, Bool.not_true, Bool.false_eq_true, ↓reduceIte]
  refine wp_rentBall (.start valid) (fun _ => .inl) (fields_live live) fun temporary u work views => ?_
  obtain ⟨p, target⟩ := work.live temporary.midpoint (by simp [fields])
  rw [wp_bind]
  refine wp_mono (bigratSetI64_spec work.valid (holding_iff.mp target) numerator denominator) ?_
    (fun _ _ stopped => ⟨stopped.1, work.abandon stopped.2⟩)
  rintro _ v ⟨nonzero, writes⟩
  have produces := Produces.of_writes writes
  have views' := produces.holding
  refine wp_good (publish_spec (work.write (by simp [fields]) produces) live (by simp [fields]) (by simp [fields])
    ?_ ?_) fun _ _ done => ⟨nonzero, done⟩
  · simp [views', Ball.exact]
  · simp [views', views, fields, Ball.exact]

theorem realBallSetInteger_spec (valid : Valid s) (live : ballAt s ball = some z) (integer : Int64) :
    wp (realBallSetI64 ball integer 1) (fun _ t => ProducesBall s [] ball (.exact integer.toInt) t)
      (fun stop t => Exhausted stop ∧ Within [] s t) s := by
  have one : (1 : Int64).toInt = 1 := by decide
  refine wp_mono (realBallSetI64_spec valid live integer 1) ?_ ?_
  · rintro _ t ⟨_, produces⟩
    rwa [one, Int.cast_one, div_one] at produces
  · rintro stop t ⟨exhausted | ⟨_, zero⟩, kept⟩
    · exact ⟨exhausted, kept⟩
    · rw [one] at zero
      cases zero

theorem realBallSetExact_spec (valid : Valid s) (live : ballAt s ball = some z) {value : Bigrat}
    (first : holding s value = some p) :
    wp (realBallSetExact ball value) (fun _ t => ProducesBall s [] ball (.exact p) t)
      (fun stop t => Exhausted stop ∧ Within [] s t) s := by
  unfold realBallSetExact
  simp only [wp_bind, wp_get, initialized_of_ballAt valid live, Bool.not_true, Bool.false_eq_true, ↓reduceIte]
  refine wp_workBall (.start valid) (fun _ => id) (fields_live live) fun temporary u work views => ?_
  refine wp_compute work (fun _ => id) (by simp [fields])
    (fun _ target => bigratCopy_spec work.valid (holding_iff.mp (work.frame first)) target) fun v work views' => ?_
  refine publish_spec work live (by simp [fields]) (by simp [fields]) ?_ ?_
  · simp [views', Ball.exact]
  · simp [views', views, fields, Ball.exact]

theorem realBallCopy_spec (valid : Valid s) (first : ballAt s ball = some x) (live : ballAt s out = some z) :
    wp (realBallCopy ball out) (fun _ t => ProducesBall s [] out x t)
      (fun stop t => Exhausted stop ∧ Within [] s t) s := by
  obtain ⟨midpoint, radius⟩ := ballAt_iff.mp first
  unfold realBallCopy
  simp only [wp_bind, wp_get, initialized_of_ballAt valid first, initialized_of_ballAt valid live, Bool.not_true,
    Bool.or_self, Bool.false_eq_true, ↓reduceIte]
  refine wp_workBall (.start valid) (fun _ => id) (fields_live live) fun temporary u work views => ?_
  refine wp_compute work (fun _ => id) (by simp [fields])
    (fun _ target => bigratCopy_spec work.valid (holding_iff.mp (work.frame midpoint)) target) fun v work views₁ => ?_
  refine wp_compute work (fun _ => id) (by simp [fields])
    (fun _ target => bigratCopy_spec work.valid (holding_iff.mp (work.frame radius)) target) fun w work views₂ => ?_
  refine publish_spec work live (by simp [fields]) (by simp [fields]) ?_ ?_
  · simp [views₂, views₁]
  · simp [views₂]

theorem realBallSetInterval_spec (valid : Valid s) (live : ballAt s ball = some z) {lower upper : Bigrat}
    (first : holding s lower = some p) (second : holding s upper = some q) :
    wp (realBallSetInterval ball lower upper)
      (fun _ t => ∃ c, Ball.interval p q = some c ∧ ProducesBall s [] ball c t)
      (fun stop t => (Exhausted stop ∨ stop = .domain ∧ Ball.interval p q = none) ∧ Within [] s t) s := by
  have two : ((2 : Int64).toInt : ℚ) = 2 := by decide
  unfold realBallSetInterval
  simp only [wp_bind, wp_get, initialized_of_ballAt valid live, Bool.not_true, Bool.false_eq_true, ↓reduceIte]
  refine wp_mono (bigratCompare_spec valid (holding_iff.mp first) (holding_iff.mp second)) ?_
    (fun _ _ stopped => ⟨.inl stopped.1, stopped.2⟩)
  rintro order r ⟨rfl, valid_r, kept⟩
  apply wp_ite
  · intro reversed
    rw [Int.sign_pos_iff, Rat.num_pos, sub_pos] at reversed
    exact ⟨.inr ⟨rfl, Ball.interval_eq_none.mpr reversed⟩, kept⟩
  · intro not_reversed
    have ordered : p ≤ q := by rwa [Int.sign_pos_iff, Rat.num_pos, sub_pos, not_lt] at not_reversed
    have work : Workspace s [] r := ⟨valid_r, kept, by simp, by simp, by simp⟩
    refine wp_mono (wp_workBall work (fun _ => id) (fields_live live) fun temporary u work views => ?_)
      (fun _ _ done => ⟨.ofInterval p q ordered, dif_pos ordered, done⟩)
      (fun _ _ stopped => ⟨.inl stopped.1, stopped.2⟩)
    refine wp_work work (fun _ => id) (fields_live live) fun double v work views₁ => ?_
    have apart := work.nodup
    simp only [fields, List.cons_append, List.nil_append, List.nodup_cons, List.mem_cons, List.not_mem_nil, or_false,
      not_or] at apart
    refine wp_compute work (fun _ => id) (by simp) (fun _ target => set_integer work.valid target 2)
      fun w work views₂ => ?_
    refine wp_compute work (fun _ => id) (by simp [fields]) (fun _ target => bigratAdd_spec work.valid
      (holding_iff.mp (work.frame first)) (holding_iff.mp (work.frame second)) target) fun w work views₃ => ?_
    refine wp_compute work (fun _ => id) (by simp [fields]) (fun _ target => divide_nonzero (p := p + q) (q := 2)
      work.valid (holding_iff.mp (by grind)) (holding_iff.mp (by grind)) target (by norm_num)) fun w work views₄ => ?_
    refine wp_compute work (fun _ => id) (by simp [fields]) (fun _ target => bigratSubtract_spec work.valid
      (holding_iff.mp (work.frame second)) (holding_iff.mp (work.frame first)) target) fun w work views₅ => ?_
    refine wp_compute work (fun _ => id) (by simp [fields]) (fun _ target => divide_nonzero (p := q - p) (q := 2)
      work.valid (holding_iff.mp (by grind)) (holding_iff.mp (by grind)) target (by norm_num)) fun w work views₆ => ?_
    refine publish_spec work live (by simp [fields]) (by simp [fields]) ?_ ?_
    · simp only [Ball.ofInterval]
      grind
    · simp only [Ball.ofInterval]
      grind

theorem realBallLower_spec (valid : Valid s) (first : ballAt s ball = some x) {outLower : Bigrat}
    (live : Represents s outLower p) :
    wp (realBallLower ball outLower) (fun _ t => WritesRat s outLower x.lower t)
      (fun stop t => Exhausted stop ∧ Within [] s t) s := by
  obtain ⟨midpoint, radius⟩ := ballAt_iff.mp first
  unfold realBallLower
  simp only [wp_bind, wp_get, initialized_of_ballAt valid first, Bool.not_true, Bool.false_eq_true, ↓reduceIte]
  exact bigratSubtract_spec valid (holding_iff.mp midpoint) (holding_iff.mp radius) live

theorem realBallUpper_spec (valid : Valid s) (first : ballAt s ball = some x) {outUpper : Bigrat}
    (live : Represents s outUpper p) :
    wp (realBallUpper ball outUpper) (fun _ t => WritesRat s outUpper x.upper t)
      (fun stop t => Exhausted stop ∧ Within [] s t) s := by
  obtain ⟨midpoint, radius⟩ := ballAt_iff.mp first
  unfold realBallUpper
  simp only [wp_bind, wp_get, initialized_of_ballAt valid first, Bool.not_true, Bool.false_eq_true, ↓reduceIte]
  exact bigratAdd_spec valid (holding_iff.mp midpoint) (holding_iff.mp radius) live

theorem wp_absolute {α : Type} {value temporary : Bigrat} {next : ExactM α} {good : α → ExactContext → Prop}
    (work : Workspace s temporaries u) (exhausted : ∀ stop, Exhausted stop → why stop)
    (member : temporary ∈ temporaries) (held : holding u value = some p)
    (rest : ∀ t, Workspace s temporaries t →
      (∀ value, holding t value = if value = temporary then some |p| else holding u value) →
      wp next good (fun stop t => why stop ∧ Within (halves temporaries) s t) t) :
    wp (absoluteRational value temporary >>= fun _ => next) good
      (fun stop t => why stop ∧ Within (halves temporaries) s t) u := by
  unfold absoluteRational
  rw [bind_assoc]
  refine wp_compute work exhausted member
    (fun _ target => bigratCopy_spec work.valid (holding_iff.mp held) target) fun v work views => ?_
  have copied : holding v temporary = some p := by rw [views, if_pos rfl]
  rw [bind_assoc, wp_bind, wp_get]
  by_cases negative : p < 0
  · rw [if_pos ((bigratSign_neg work.valid copied).mpr negative)]
    refine wp_compute work exhausted member
      (fun _ target => bigratNegate_spec work.valid (holding_iff.mp copied) target) fun t work views' => ?_
    refine rest t work fun value => ?_
    rw [views', views, abs_of_neg negative]
    grind
  · rw [if_neg ((bigratSign_neg work.valid copied).not.mpr negative), pure_bind]
    refine rest v work fun value => ?_
    rw [views, abs_of_nonneg (not_lt.mp negative)]

theorem realBallContainsZeroChecked_spec (valid : Valid s) (first : ballAt s ball = some x) :
    wp (realBallContainsZeroChecked ball)
      (fun result t => (result = true ↔ x.Contains (0 : ℚ)) ∧ Valid t ∧ Within [] s t)
      (fun stop t => Exhausted stop ∧ Within [] s t) s := by
  obtain ⟨midpoint, radius⟩ := ballAt_iff.mp first
  unfold realBallContainsZeroChecked
  simp only [wp_bind, wp_get, initialized_of_ballAt valid first, Bool.not_true, Bool.false_eq_true, ↓reduceIte]
  refine wp_good (?_ : wp _
    (fun result t => (result = true ↔ x.Contains (0 : ℚ)) ∧ Produces s [] [] (fun _ => 0) t)
    (fun stop t => Exhausted stop ∧ Within [] s t) s)
    fun _ _ done => ⟨done.1, done.2.valid, done.2.within⟩
  refine wp_rent (.start valid) (fun _ => id) (by simp) fun magnitude u work views => ?_
  refine wp_absolute work (fun _ => id) (by simp) (work.frame midpoint) fun v work views' => ?_
  refine wp_inspect work (fun _ => id) (bigratCompare_spec work.valid (p := |x.midpoint|) (q := x.radius)
    (holding_iff.mp (by grind)) (holding_iff.mp (work.frame radius))) fun order t known work _ => ?_
  refine ⟨?_, ⟨work.valid, by simpa using work.within, by simp⟩⟩
  rw [decide_eq_true_eq, known, Ball.contains_zero_iff, ← not_lt, Int.sign_pos_iff,
    Rat.num_pos, sub_pos, not_lt]

theorem realBallAdd_spec (valid : Valid s) (first : ballAt s left = some x) (second : ballAt s right = some y)
    (live : ballAt s out = some z) :
    wp (realBallAdd left right out) (fun _ t => ProducesBall s [] out (x.add y) t)
      (fun stop t => Exhausted stop ∧ Within [] s t) s := by
  obtain ⟨midpoint, radius⟩ := ballAt_iff.mp first
  obtain ⟨midpoint', radius'⟩ := ballAt_iff.mp second
  unfold realBallAdd
  simp only [wp_bind, wp_get, initialized_of_ballAt valid first, initialized_of_ballAt valid second,
    initialized_of_ballAt valid live, Bool.not_true, Bool.or_self, Bool.false_eq_true, ↓reduceIte]
  refine wp_workBall (.start valid) (fun _ => id) (fields_live live) fun temporary u work views => ?_
  refine wp_compute work (fun _ => id) (by simp [fields]) (fun _ target => bigratAdd_spec work.valid
    (holding_iff.mp (work.frame midpoint)) (holding_iff.mp (work.frame midpoint')) target) fun v work views₁ => ?_
  refine wp_compute work (fun _ => id) (by simp [fields]) (fun _ target => bigratAdd_spec work.valid
    (holding_iff.mp (work.frame radius)) (holding_iff.mp (work.frame radius')) target) fun w work views₂ => ?_
  refine publish_spec work live (by simp [fields]) (by simp [fields]) ?_ ?_
  · simp [views₂, views₁, Ball.add]
  · simp [views₂, Ball.add]

theorem realBallSubtract_spec (valid : Valid s) (first : ballAt s left = some x) (second : ballAt s right = some y)
    (live : ballAt s out = some z) :
    wp (realBallSubtract left right out) (fun _ t => ProducesBall s [] out (x.sub y) t)
      (fun stop t => Exhausted stop ∧ Within [] s t) s := by
  obtain ⟨midpoint, radius⟩ := ballAt_iff.mp first
  obtain ⟨midpoint', radius'⟩ := ballAt_iff.mp second
  unfold realBallSubtract
  simp only [wp_bind, wp_get, initialized_of_ballAt valid first, initialized_of_ballAt valid second,
    initialized_of_ballAt valid live, Bool.not_true, Bool.or_self, Bool.false_eq_true, ↓reduceIte]
  refine wp_workBall (.start valid) (fun _ => id) (fields_live live) fun temporary u work views => ?_
  refine wp_compute work (fun _ => id) (by simp [fields]) (fun _ target => bigratSubtract_spec work.valid
    (holding_iff.mp (work.frame midpoint)) (holding_iff.mp (work.frame midpoint')) target) fun v work views₁ => ?_
  refine wp_compute work (fun _ => id) (by simp [fields]) (fun _ target => bigratAdd_spec work.valid
    (holding_iff.mp (work.frame radius)) (holding_iff.mp (work.frame radius')) target) fun w work views₂ => ?_
  refine publish_spec work live (by simp [fields]) (by simp [fields]) ?_ ?_
  · simp [views₂, views₁, Ball.sub]
  · simp [views₂, Ball.sub]

theorem realBallMultiply_spec (valid : Valid s) (first : ballAt s left = some x) (second : ballAt s right = some y)
    (live : ballAt s out = some z) :
    wp (realBallMultiply left right out) (fun _ t => ProducesBall s [] out (x.mul y) t)
      (fun stop t => Exhausted stop ∧ Within [] s t) s := by
  obtain ⟨midpoint, radius⟩ := ballAt_iff.mp first
  obtain ⟨midpoint', radius'⟩ := ballAt_iff.mp second
  unfold realBallMultiply
  simp only [wp_bind, wp_get, initialized_of_ballAt valid first, initialized_of_ballAt valid second,
    initialized_of_ballAt valid live, Bool.not_true, Bool.or_self, Bool.false_eq_true, ↓reduceIte]
  refine wp_workBall (.start valid) (fun _ => id) (fields_live live) fun temporary u work _ => ?_
  refine wp_work work (fun _ => id) (fields_live live) fun leftAbs u work _ => ?_
  refine wp_work work (fun _ => id) (fields_live live) fun rightAbs u work _ => ?_
  refine wp_work work (fun _ => id) (fields_live live) fun cross u work _ => ?_
  refine wp_work work (fun _ => id) (fields_live live) fun cross' u work _ => ?_
  refine wp_work work (fun _ => id) (fields_live live) fun radii u work _ => ?_
  have apart := work.nodup
  simp only [fields, List.cons_append, List.nil_append, List.nodup_cons, List.mem_cons, List.not_mem_nil, or_false,
    not_or] at apart
  refine wp_compute work (fun _ => id) (by simp [fields]) (fun _ target => bigratMultiply_spec work.valid
    (holding_iff.mp (work.frame midpoint)) (holding_iff.mp (work.frame midpoint')) target) fun v₁ work views₁ => ?_
  refine wp_absolute work (fun _ => id) (by simp) (work.frame midpoint) fun v₂ work views₂ => ?_
  refine wp_absolute work (fun _ => id) (by simp) (work.frame midpoint') fun v₃ work views₃ => ?_
  refine wp_compute work (fun _ => id) (by simp) (fun _ target => bigratMultiply_spec work.valid (p := |x.midpoint|)
    (holding_iff.mp (by grind)) (holding_iff.mp (work.frame radius')) target) fun v₄ work views₄ => ?_
  refine wp_compute work (fun _ => id) (by simp) (fun _ target => bigratMultiply_spec work.valid (p := |y.midpoint|)
    (holding_iff.mp (by grind)) (holding_iff.mp (work.frame radius)) target) fun v₅ work views₅ => ?_
  refine wp_compute work (fun _ => id) (by simp) (fun _ target => bigratMultiply_spec work.valid
    (holding_iff.mp (work.frame radius)) (holding_iff.mp (work.frame radius')) target) fun v₆ work views₆ => ?_
  refine wp_compute work (fun _ => id) (by simp [fields]) (fun _ target => bigratAdd_spec work.valid
    (p := |x.midpoint| * y.radius) (q := |y.midpoint| * x.radius) (holding_iff.mp (by grind))
    (holding_iff.mp (by grind)) target) fun v₇ work views₇ => ?_
  refine wp_compute work (fun _ => id) (by simp [fields]) (fun _ target => bigratAdd_spec work.valid
    (p := |x.midpoint| * y.radius + |y.midpoint| * x.radius) (q := x.radius * y.radius) (holding_iff.mp (by grind))
    (holding_iff.mp (by grind)) target) fun v₈ work views₈ => ?_
  refine publish_spec work live (by simp [fields]) (by simp [fields]) ?_ ?_
  · simp only [Ball.mul]
    grind
  · simp only [Ball.mul]
    grind

theorem defined_of_known {program : ExactM Unit} {result : Option Ball} (known : result = some x)
    (spec : wp program (fun _ t => ∃ c, result = some c ∧ ProducesBall s [] out c t)
      (fun stop t => (Exhausted stop ∨ stop = .domain ∧ result = none) ∧ Within [] s t) s) :
    wp program (fun _ t => ProducesBall s [] out x t) (fun stop t => Exhausted stop ∧ Within [] s t) s := by
  refine wp_mono spec ?_ ?_
  · rintro _ t ⟨c, same, produces⟩
    rw [known, Option.some.injEq] at same
    rwa [same]
  · rintro stop t ⟨exhausted | ⟨_, undefined⟩, kept⟩
    · exact ⟨exhausted, kept⟩
    · rw [known] at undefined
      cases undefined

theorem realBallDivide_spec (valid : Valid s) (first : ballAt s left = some x) (second : ballAt s right = some y)
    (live : ballAt s out = some z) :
    wp (realBallDivide left right out) (fun _ t => ∃ c, x.quotient y = some c ∧ ProducesBall s [] out c t)
      (fun stop t => (Exhausted stop ∨ stop = .domain ∧ x.quotient y = none) ∧ Within [] s t) s := by
  unfold realBallDivide
  simp only [wp_bind, wp_get, initialized_of_ballAt valid first, initialized_of_ballAt valid second,
    initialized_of_ballAt valid live, Bool.not_true, Bool.or_self, Bool.false_eq_true, ↓reduceIte]
  refine wp_mono (realBallContainsZeroChecked_spec valid second) ?_ (fun _ _ stopped => ⟨.inl stopped.1, stopped.2⟩)
  rintro zero r ⟨known, valid_r, kept⟩
  apply wp_ite
  · intro inside
    exact ⟨.inr ⟨rfl, Ball.quotient_eq_none.mpr (known.mp inside)⟩, kept⟩
  intro outside
  have apart : ¬y.Contains (0 : ℚ) := fun inside => outside (known.mpr inside)
  obtain ⟨inverse, inverted⟩ := Option.ne_none_iff_exists'.mp (Ball.reciprocal_eq_none.not.mpr apart)
  have defined : x.quotient y = some (x.mul inverse) := by rw [Ball.quotient, inverted, Option.map_some]
  have hull : Ball.interval y.upper⁻¹ y.lower⁻¹ = some inverse := by
    rwa [Ball.reciprocal, if_neg apart] at inverted
  have nonzero : y.lower ≠ 0 ∧ y.upper ≠ 0 := by
    have ordered := y.lower_le_upper
    rcases Ball.apart_from_zero apart with negative | positive
    · exact ⟨(ordered.trans_lt negative).ne, negative.ne⟩
    · exact ⟨positive.ne', (positive.trans_le ordered).ne'⟩
  have work : Workspace s [] r := ⟨valid_r, kept, by simp, by simp, by simp⟩
  refine wp_mono (?_ : wp _ (fun _ t => ProducesBall s [] out (x.mul inverse) t)
    (fun stop t => Exhausted stop ∧ Within [] s t) r) (fun _ _ done => ⟨_, defined, done⟩)
    (fun _ _ stopped => ⟨.inl stopped.1, stopped.2⟩)
  refine wp_work work (fun _ => id) (fields_live live) fun lower u work _ => ?_
  refine wp_work work (fun _ => id) (fields_live live) fun upper u work _ => ?_
  refine wp_work work (fun _ => id) (fields_live live) fun reciprocalLower u work _ => ?_
  refine wp_work work (fun _ => id) (fields_live live) fun reciprocalUpper u work _ => ?_
  have apart := work.nodup
  simp only [List.nodup_cons, List.mem_cons, List.not_mem_nil, or_false, not_or] at apart
  refine wp_compute work (fun _ => id) (by simp)
    (fun _ target => realBallLower_spec work.valid (frame_ball work second) target) fun v₁ work views₁ => ?_
  refine wp_compute work (fun _ => id) (by simp)
    (fun _ target => realBallUpper_spec work.valid (frame_ball work second) target) fun v₂ work views₂ => ?_
  refine wp_compute work (fun _ => id) (by simp) (fun _ target => reciprocal_nonzero work.valid (p := y.upper)
    (holding_iff.mp (by grind)) target nonzero.2) fun v₃ work views₃ => ?_
  refine wp_compute work (fun _ => id) (by simp) (fun _ target => reciprocal_nonzero work.valid (p := y.lower)
    (holding_iff.mp (by grind)) target nonzero.1) fun v₄ work views₄ => ?_
  refine wp_workBall work (fun _ => id) (fields_live live) fun reciprocal v₅ work views₅ => ?_
  have apart' := work.nodup
  simp only [fields, List.cons_append, List.nil_append, List.nodup_cons, List.mem_cons, List.not_mem_nil, or_false,
    not_or] at apart'
  have zeroed : ballAt v₅ reciprocal = some (.exact 0) := ballAt_iff.mpr
    ⟨by simp [views₅, fields, Ball.exact], by simp [views₅, fields, Ball.exact]⟩
  have endpoints : holding v₅ reciprocalLower = some y.upper⁻¹ ∧ holding v₅ reciprocalUpper = some y.lower⁻¹ := by
    simp only [fields, List.mem_cons, List.not_mem_nil, or_false] at views₅
    grind
  refine wp_computeBall work (fun _ => id) (by simp) (defined_of_known hull
    (realBallSetInterval_spec work.valid zeroed endpoints.1 endpoints.2)) fun v₆ work produces => ?_
  refine wp_mono (realBallMultiply_spec work.valid (frame_ball work first) (result_of_produces produces)
    (frame_ball work live)) (fun _ _ done => work.deliver done) ?_
  rintro stop t ⟨stopped, kept⟩
  exact ⟨stopped, work.abandon kept⟩

end PhyNspire.Exact.BallArithmetic

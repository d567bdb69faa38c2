import PhyNspire.Exact.BallRoots
import Mathlib.Analysis.SpecialFunctions.Pow.Real

/-!
Whole runs of a client of ball.c.

The client initializes and destroys balls and makes ball calls on them, between calls of
the exact layer on integers and rationals of its own. The two rationals of a ball are
private: only ball calls write them.
-/

namespace PhyNspire.Exact.BallRuns
open Platform Lib Lib.Stateful Lib.Balls Context Accounting Integer Arithmetic Rational Fractions RationalField
  Runs RealBall Workspace BallFields BallArithmetic BallRoots

variable {s t : ExactContext} {owned : List RealBall}

inductive BallCall where
  | setI64 (ball : RealBall) (numerator denominator : Int64)
  | setExact (ball : RealBall) (value : Bigrat)
  | setInterval (ball : RealBall) (low high : Bigrat)
  | copy (source destination : RealBall)
  | lower (ball : RealBall) (out : Bigrat)
  | upper (ball : RealBall) (out : Bigrat)
  | containsZeroChecked (ball : RealBall)
  | containsZero (ball : RealBall)
  | add (left right out : RealBall)
  | subtract (left right out : RealBall)
  | multiply (left right out : RealBall)
  | divide (dividend divisor out : RealBall)
  | powI32 (base : RealBall) (exponent : Int32) (out : RealBall)
  | sqrt (argument : RealBall) (rounds : UInt32) (out : RealBall)

namespace BallCall

def exec : BallCall → ExactM (Option Bool)
  | setI64 ball numerator denominator => do realBallSetI64 ball numerator denominator; pure none
  | setExact ball value => do realBallSetExact ball value; pure none
  | setInterval ball low high => do realBallSetInterval ball low high; pure none
  | copy source destination => do realBallCopy source destination; pure none
  | lower ball out => do realBallLower ball out; pure none
  | upper ball out => do realBallUpper ball out; pure none
  | containsZeroChecked ball => do
      let result ← realBallContainsZeroChecked ball
      pure (some result)
  | containsZero ball => do
      let result ← realBallContainsZero ball
      pure (some result)
  | add left right out => do realBallAdd left right out; pure none
  | subtract left right out => do realBallSubtract left right out; pure none
  | multiply left right out => do realBallMultiply left right out; pure none
  | divide dividend divisor out => do realBallDivide dividend divisor out; pure none
  | powI32 base exponent out => do realBallPowI32 base exponent out; pure none
  | sqrt argument rounds out => do realBallSqrt argument rounds out; pure none

def operands : BallCall → List RealBall
  | setI64 ball _ _ => [ball]
  | setExact ball _ => [ball]
  | setInterval ball _ _ => [ball]
  | copy source destination => [source, destination]
  | lower ball _ => [ball]
  | upper ball _ => [ball]
  | containsZeroChecked ball => [ball]
  | containsZero ball => [ball]
  | add left right out => [left, right, out]
  | subtract left right out => [left, right, out]
  | multiply left right out => [left, right, out]
  | divide dividend divisor out => [dividend, divisor, out]
  | powI32 base _ out => [base, out]
  | sqrt argument _ out => [argument, out]

def rationals : BallCall → List Bigrat
  | setExact _ value => [value]
  | setInterval _ low high => [low, high]
  | lower _ out => [out]
  | upper _ out => [out]
  | _ => []

def outputs : BallCall → List Bigrat
  | setI64 ball _ _ => fields ball
  | setExact ball _ => fields ball
  | setInterval ball _ _ => fields ball
  | copy _ destination => fields destination
  | lower _ out => [out]
  | upper _ out => [out]
  | containsZeroChecked _ => []
  | containsZero _ => []
  | add _ _ out => fields out
  | subtract _ _ out => fields out
  | multiply _ _ out => fields out
  | divide _ _ out => fields out
  | powI32 _ _ out => fields out
  | sqrt _ _ out => fields out

def Encloses (s : ExactContext) (operand : RealBall) (t : ExactContext) (out : RealBall) (f : ℝ → ℝ) : Prop :=
  ∃ X Z, ballAt s operand = some X ∧ ballAt t out = some Z ∧ ∀ x, X.Contains x → Z.Contains (f x)

/-- The new ball contains the results of the operation on all pairs of points. -/
def Encloses2 (s : ExactContext) (left right : RealBall) (t : ExactContext) (out : RealBall) (f : ℝ → ℝ → ℝ) : Prop :=
  ∃ X Y Z, ballAt s left = some X ∧ ballAt s right = some Y ∧ ballAt t out = some Z ∧
    ∀ x y, X.Contains x → Y.Contains y → Z.Contains (f x y)

/-- What a call that returns has computed. Balls are read before the call, so that an
operand may be the output as well. -/
def Computes (s : ExactContext) (result : Option Bool) (t : ExactContext) : BallCall → Prop
  | setI64 ball numerator denominator => ∃ Z, ballAt t ball = some Z ∧
      ∀ x : ℝ, Z.Contains x ↔ x = ((numerator.toInt : ℚ) / denominator.toInt : ℚ)
  | setExact ball value => ∃ p Z, holding s value = some p ∧ ballAt t ball = some Z ∧ ∀ x : ℝ, Z.Contains x ↔ x = p
  | setInterval ball low high => ∃ p q Z, holding s low = some p ∧ holding s high = some q ∧
      ballAt t ball = some Z ∧ ∀ x : ℝ, Z.Contains x ↔ p ≤ x ∧ x ≤ q
  | copy source destination => ∃ X, ballAt s source = some X ∧ ballAt t destination = some X
  | lower ball out => ∃ X, ballAt s ball = some X ∧ holding t out = some X.lower
  | upper ball out => ∃ X, ballAt s ball = some X ∧ holding t out = some X.upper
  | containsZeroChecked ball => ∃ X zero, ballAt s ball = some X ∧ result = some zero ∧
      (zero = true ↔ X.Contains (0 : ℝ))
  | containsZero ball => ∃ X zero, ballAt s ball = some X ∧ result = some zero ∧ (X.Contains (0 : ℝ) → zero = true)
  | add left right out => Encloses2 s left right t out (· + ·)
  | subtract left right out => Encloses2 s left right t out (· - ·)
  | multiply left right out => Encloses2 s left right t out (· * ·)
  | divide dividend divisor out => Encloses2 s dividend divisor t out (· / ·)
  | powI32 base exponent out => Encloses s base t out (· ^ exponent.toInt)
  | sqrt argument _ out => Encloses s argument t out Real.sqrt

/-- What a call refuses with `PHY_ERR_DOMAIN`. -/
def Refuses (s : ExactContext) : BallCall → Prop
  | setI64 _ _ denominator => denominator.toInt = 0
  | setInterval _ low high => ∃ p q, holding s low = some p ∧ holding s high = some q ∧ q < p
  | divide _ divisor _ => ∃ Y, ballAt s divisor = some Y ∧ Y.Contains (0 : ℝ)
  | powI32 base exponent _ => ∃ X, ballAt s base = some X ∧ BallRoots.powI32 X exponent = none
  | sqrt argument _ _ => ∃ X, ballAt s argument = some X ∧ X.lower < 0
  | _ => False

/-- The balls of a call are live, and its rationals are live and not parts of balls. -/
def Permitted (owned : List RealBall) (s : ExactContext) (call : BallCall) : Prop :=
  (∀ ball ∈ call.operands, ball ∈ owned) ∧
    ∀ value ∈ call.rationals, (∃ p, holding s value = some p) ∧ ∀ ball ∈ owned, value ∉ fields ball

end BallCall

theorem contains_zero_real {X : Ball} : X.Contains (0 : ℝ) ↔ X.Contains (0 : ℚ) := by
  rw [Ball.contains_zero_iff, Ball.contains_zero_iff]

/-- The outcome of a call: the outputs are written, or nothing has changed. -/
def Good (s : ExactContext) (call : BallCall) (result : Option Bool) (t : ExactContext) : Prop :=
  call.Computes s result t ∧ ¬call.Refuses s ∧ ∃ new, Produces s [] call.outputs new t

def Bad (s : ExactContext) (call : BallCall) (stop : Status) (t : ExactContext) : Prop :=
  (Exhausted stop ∨ stop = .domain ∧ call.Refuses s) ∧ Within [] s t

theorem contains_sqrt {X Z : Ball} {rounds : Nat} (found : X.root rounds = some Z) {x : ℝ} (member : X.Contains x) :
    Z.Contains (Real.sqrt x) := by
  have nonneg : ¬X.lower < 0 := fun negative => by
    rw [Ball.root_eq_none.mpr negative] at found
    cases found
  have positive : 0 ≤ x := le_trans (by exact_mod_cast not_lt.mp nonneg) (Ball.contains_iff.mp member).1
  refine Ball.contains_root found (Real.sqrt_nonneg x) ?_
  rwa [Real.mul_self_sqrt positive]

theorem contains_powI32 {X Z : Ball} {exponent : Int32} (found : powI32 X exponent = some Z) {x : ℝ}
    (member : X.Contains x) : Z.Contains (x ^ exponent.toInt) := by
  refine Ball.contains_power ?_ found member
  have lower := exponent.le_toInt
  have upper := exponent.toInt_lt
  omega

theorem unchanged_produces (valid : Valid t) (kept : Within [] s t) : Produces s [] [] (fun _ => 0) t :=
  ⟨valid, kept, fun _ member => absurd member List.not_mem_nil⟩

section

variable {call : BallCall} {program : ExactM Unit}

theorem good_always {after : ExactContext → Prop}
    (spec : wp program (fun _ t => after t) (fun stop t => Exhausted stop ∧ Within [] s t) s)
    (accepted : ¬call.Refuses s)
    (returns : ∀ t, after t → call.Computes s none t ∧ ∃ new, Produces s [] call.outputs new t) :
    wp (do program; pure none) (Good s call) (Bad s call) s := by
  rw [wp_bind]
  refine wp_mono spec (fun _ t held => ?_) fun _ _ stopped => ⟨.inl stopped.1, stopped.2⟩
  exact ⟨(returns t held).1, accepted, (returns t held).2⟩

theorem good_unless {found : Option Ball} {out : RealBall} (refuses : call.Refuses s ↔ found = none)
    (spec : wp program (fun _ t => ∃ c, found = some c ∧ ProducesBall s [] out c t)
      (fun stop t => (Exhausted stop ∨ stop = .domain ∧ found = none) ∧ Within [] s t) s)
    (outputs : call.outputs = fields out)
    (returns : ∀ c t, found = some c → ballAt t out = some c → call.Computes s none t) :
    wp (do program; pure none) (Good s call) (Bad s call) s := by
  rw [wp_bind]
  refine wp_mono spec ?_ fun _ _ stopped => by rw [Bad, refuses]; exact stopped
  rintro _ t ⟨c, is, produces⟩
  refine ⟨returns c t is (result_of_produces produces), ?_, by rw [outputs]; exact ⟨_, produces⟩⟩
  rw [refuses, is]
  exact Option.some_ne_none c

end

theorem BallCall.spec (valid : Valid s) (call : BallCall)
    (live : ∀ ball ∈ call.operands, ∃ X, ballAt s ball = some X)
    (held : ∀ value ∈ call.rationals, ∃ p, holding s value = some p) :
    wp call.exec (Good s call) (Bad s call) s := by
  cases call with
  | setI64 ball numerator denominator =>
    obtain ⟨Z, target⟩ := live ball List.mem_cons_self
    simp only [exec, wp_bind]
    refine wp_good (realBallSetI64_spec valid target numerator denominator) ?_
    rintro _ t ⟨nonzero, produces⟩
    exact ⟨⟨_, result_of_produces produces, fun x => Ball.contains_exact⟩, nonzero, _, produces⟩
  | setExact ball value =>
    obtain ⟨Z, target⟩ := live ball List.mem_cons_self
    obtain ⟨p, first⟩ := held value List.mem_cons_self
    refine good_always (realBallSetExact_spec valid target first) id fun t produces => ?_
    exact ⟨⟨p, _, first, result_of_produces produces, fun x => Ball.contains_exact⟩, _, produces⟩
  | setInterval ball low high =>
    obtain ⟨Z, target⟩ := live ball List.mem_cons_self
    obtain ⟨⟨p, first⟩, q, second⟩ := all_two held
    refine good_unless ?_ (realBallSetInterval_spec valid target first second) rfl ?_
    · simp [Refuses, first, second, Ball.interval_eq_none]
    · exact fun c t found after => ⟨p, q, c, first, second, after, fun x => Ball.contains_interval found⟩
  | copy source destination =>
    obtain ⟨⟨X, first⟩, Z, target⟩ := all_two live
    refine good_always (realBallCopy_spec valid first target) id fun t produces => ?_
    exact ⟨⟨X, first, result_of_produces produces⟩, _, produces⟩
  | lower ball out =>
    obtain ⟨X, first⟩ := live ball List.mem_cons_self
    obtain ⟨p, target⟩ := held out List.mem_cons_self
    refine good_always (realBallLower_spec valid first (holding_iff.mp target)) id fun t writes => ?_
    exact ⟨⟨X, first, holding_iff.mpr writes.result⟩, _, Produces.of_writes writes⟩
  | upper ball out =>
    obtain ⟨X, first⟩ := live ball List.mem_cons_self
    obtain ⟨p, target⟩ := held out List.mem_cons_self
    refine good_always (realBallUpper_spec valid first (holding_iff.mp target)) id fun t writes => ?_
    exact ⟨⟨X, first, holding_iff.mpr writes.result⟩, _, Produces.of_writes writes⟩
  | containsZeroChecked ball =>
    obtain ⟨X, first⟩ := live ball List.mem_cons_self
    simp only [exec, wp_bind]
    refine wp_mono (realBallContainsZeroChecked_spec valid first) ?_ (fun _ _ stopped => ⟨.inl stopped.1, stopped.2⟩)
    rintro zero t ⟨known, valid_t, kept⟩
    exact ⟨⟨X, zero, first, rfl, known.trans contains_zero_real.symm⟩, id, fun _ => 0, unchanged_produces valid_t kept⟩
  | containsZero ball =>
    obtain ⟨X, first⟩ := live ball List.mem_cons_self
    simp only [exec, realBallContainsZero, wp_bind, wp_attempt]
    refine wp_mono (realBallContainsZeroChecked_spec valid first) ?_ ?_
    · rintro zero t ⟨known, valid_t, kept⟩
      exact ⟨⟨X, zero, first, rfl, fun inside => known.mpr (contains_zero_real.mp inside)⟩, id, fun _ => 0,
        unchanged_produces valid_t kept⟩
    · rintro stop t ⟨_, kept⟩
      exact ⟨⟨X, true, first, rfl, fun _ => rfl⟩, id, fun _ => 0, unchanged_produces (valid.unchanged kept) kept⟩
  | add left right out =>
    obtain ⟨⟨X, first⟩, ⟨Y, second⟩, Z, target⟩ := all_three live
    refine good_always (realBallAdd_spec valid first second target) id fun t produces => ?_
    exact ⟨⟨X, Y, _, first, second, result_of_produces produces, fun x y => Ball.contains_add⟩, _, produces⟩
  | subtract left right out =>
    obtain ⟨⟨X, first⟩, ⟨Y, second⟩, Z, target⟩ := all_three live
    refine good_always (realBallSubtract_spec valid first second target) id fun t produces => ?_
    exact ⟨⟨X, Y, _, first, second, result_of_produces produces, fun x y => Ball.contains_sub⟩, _, produces⟩
  | multiply left right out =>
    obtain ⟨⟨X, first⟩, ⟨Y, second⟩, Z, target⟩ := all_three live
    refine good_always (realBallMultiply_spec valid first second target) id fun t produces => ?_
    exact ⟨⟨X, Y, _, first, second, result_of_produces produces, fun x y => Ball.contains_mul⟩, _, produces⟩
  | divide dividend divisor out =>
    obtain ⟨⟨X, first⟩, ⟨Y, second⟩, Z, target⟩ := all_three live
    refine good_unless ?_ (realBallDivide_spec valid first second target) rfl ?_
    · simp [Refuses, second, contains_zero_real, Ball.quotient_eq_none]
    · exact fun c t found after => ⟨X, Y, c, first, second, after, fun x y => Ball.contains_quotient found⟩
  | powI32 base exponent out =>
    obtain ⟨⟨X, first⟩, Z, target⟩ := all_two live
    refine good_unless ?_ (realBallPowI32_spec valid first target exponent) rfl ?_
    · simp [Refuses, first]
    · exact fun c t found after => ⟨X, c, first, after, fun x => contains_powI32 found⟩
  | sqrt argument rounds out =>
    obtain ⟨⟨X, first⟩, Z, target⟩ := all_two live
    refine good_unless ?_ (realBallSqrt_spec valid first target rounds) rfl ?_
    · simp [Refuses, first, Ball.root_eq_none]
    · exact fun c t found after => ⟨X, c, first, after, fun x => contains_sqrt found⟩

/-- The state that a ball call leaves behind, whatever its status. -/
def BallCall.after (call : BallCall) (s : ExactContext) : ExactContext :=
  match call.exec s with
  | .ok _ t => t
  | .error _ t => t

theorem BallCall.wp_after {call : BallCall} {P : ExactContext → Prop}
    (held : wp call.exec (fun _ t => P t) (fun _ t => P t) s) : P (call.after s) := by
  unfold wp at held
  unfold BallCall.after
  cases run : call.exec s with
  | ok result t =>
    rw [run] at held
    exact held
  | error stop t =>
    rw [run] at held
    exact held

/-- A call of the exact layer that leaves the rationals of the balls alone. -/
def Spares (owned : List RealBall) : Call → Prop
  | .bigratDestroy value => ∀ ball ∈ owned, value ∉ fields ball
  | .rational call => ∀ value ∈ call.outputs, ∀ ball ∈ owned, value ∉ fields ball
  | _ => True

/-- The contexts that a client can bring about, with the balls that it has initialized. -/
inductive BallReachable : List RealBall → ExactContext → Prop where
  | create {s : ExactContext} {limits : Option ExactLimits} {heap heap' : Heap}
      (created : exactContextCreate limits heap = (some s, heap')) : BallReachable [] s
  | exact {owned : List RealBall} {s : ExactContext} (before : BallReachable owned s) (call : Call)
      (permitted : call.Permitted s) (spares : Spares owned call) : BallReachable owned (call.after s)
  | init {owned : List RealBall} {s t : ExactContext} (before : BallReachable owned s) (ball : RealBall)
      (fresh : ∀ value ∈ fields ball, s.lookup (.numerator value) = none ∧ s.lookup (.denominator value) = none)
      (initialized : realBallInit ball s = .ok () t) : BallReachable (ball :: owned) t
  | abort {owned : List RealBall} {s t : ExactContext} (before : BallReachable owned s) (ball : RealBall)
      (fresh : ∀ value ∈ fields ball, s.lookup (.numerator value) = none ∧ s.lookup (.denominator value) = none)
      {stop : Status} (failed : realBallInit ball s = .error stop t) : BallReachable owned t
  | destroy {owned : List RealBall} {s : ExactContext} (before : BallReachable owned s) (ball : RealBall) :
      ball ∈ owned → BallReachable (owned.filter (· ≠ ball)) (realBallDestroy ball s)
  | call {owned : List RealBall} {s : ExactContext} (before : BallReachable owned s) (call : BallCall)
      (permitted : call.Permitted owned s) : BallReachable owned (call.after s)

/-- Every ball of the client has a nonnegative radius. -/
structure Furnished (owned : List RealBall) (s : ExactContext) : Prop extends WellFormed s where
  shaped : ∀ ball ∈ owned, ∃ X, ballAt s ball = some X

def touched : Call → List Handle
  | .bigintInit address => [.object address]
  | .bigintDestroy address => [.object address]
  | .bigratInit value => halves [value]
  | .bigratDestroy value => halves [value]
  | .integer call => call.outputs
  | .rational call => halves call.outputs
  | .setCancel _ => []

theorem call_within (wellFormed : WellFormed s) {call : Call} (permitted : call.Permitted s) :
    Within (touched call) s (call.after s) := by
  have valid := wellFormed.toValid
  apply Call.wp_after
  cases call with
  | bigintInit address => exact (bigintInit_spec valid.toSound permitted).1
  | bigintDestroy address => exact bigintDestroy_within valid.toSound _
  | bigratInit value =>
    refine wp_mono (bigratInit_spec valid permitted.1 permitted.2) ?_ (fun _ _ stopped => stopped.2.widen _)
    rintro _ t ⟨_, opened, _⟩
    exact opened.mono (by simp [touched, halves])
  | bigratDestroy value =>
    have closed := Euclid.closing_within [.denominator value, .numerator value] valid.toSound
    exact closed.mono (by simp [touched, halves])
  | integer call =>
    simp only [Call.exec, wp_bind]
    exact wp_mono (call.spec valid) (fun _ _ done => done.2.2) (fun _ _ kept => kept.widen _)
  | rational call =>
    simp only [Call.exec, wp_bind]
    exact wp_mono (call.spec wellFormed) (fun _ _ done => done.2.2) (fun _ _ kept => kept.widen _)
  | setCancel cancelled =>
    have sound := valid.toSound
    exact ⟨⟨⟨sound.distinct, sound.counted, sound.charged, sound.affordable, sound.patient, sound.bounded,
      sound.ceiling⟩, rfl, rfl⟩, fun _ _ => rfl⟩

theorem Furnished.of_within (furnished : Furnished owned s) {outs : List Bigrat} (valid : Valid t)
    (within : Within (halves outs) s t)
    (written : ∀ value ∈ outs, (∃ p, holding t value = some p) ∨
      t.lookup (.numerator value) = none ∧ t.lookup (.denominator value) = none)
    {owned' : List RealBall}
    (shaped : ∀ ball ∈ owned', (∃ X, ballAt t ball = some X) ∨ ball ∈ owned ∧ ∀ value ∈ outs, value ∉ fields ball) :
    Furnished owned' t := by
  refine ⟨furnished.toWellFormed.of_within valid within fun value inside => ?_, fun ball member => ?_⟩
  · have output : value ∈ outs := by simpa [mem_halves] using inside
    refine (written value output).imp_left ?_
    rintro ⟨p, held⟩
    exact ⟨p, holding_iff.mp held⟩
  · rcases shaped ball member with found | ⟨older, apart⟩
    · exact found
    · obtain ⟨X, found⟩ := furnished.shaped ball older
      refine ⟨X, (ballAt_congr (holding_within within fun inside => ?_)
        (holding_within within fun inside => ?_)).trans found⟩
      · exact apart _ inside (by simp [fields])
      · exact apart _ inside (by simp [fields])

/-- A call of the exact layer does not reach into the balls of the client. -/
theorem untouched (furnished : Furnished owned s) {call : Call} (permitted : call.Permitted s)
    (spares : Spares owned call) {ball : RealBall} (member : ball ∈ owned) {value : Bigrat}
    (field : value ∈ fields ball) : .numerator value ∉ touched call ∧ .denominator value ∉ touched call := by
  obtain ⟨X, found⟩ := furnished.shaped ball member
  obtain ⟨p, held⟩ := fields_live found value field
  cases call with
  | bigintInit address => simp [touched]
  | bigintDestroy address => simp [touched]
  | bigratInit other =>
    have different : value ≠ other := by
      rintro rfl
      rw [holding_eq_none (view_eq_none.mpr permitted.1)] at held
      cases held
    simp [touched, halves, different]
  | bigratDestroy other =>
    have different : value ≠ other := by
      rintro rfl
      exact spares ball member field
    simp [touched, halves, different]
  | integer call =>
    constructor
    · intro inside
      obtain ⟨address, same⟩ := permitted _ inside
      cases same
    · intro inside
      obtain ⟨address, same⟩ := permitted _ inside
      cases same
  | rational call =>
    have outside : value ∉ call.outputs := fun inside => spares value inside ball member field
    constructor
    · intro inside
      obtain ⟨other, output, half⟩ := mem_halves.mp inside
      grind
    · intro inside
      obtain ⟨other, output, half⟩ := mem_halves.mp inside
      grind
  | setCancel cancelled => simp [touched]

theorem Furnished.exact_call (furnished : Furnished owned s) {call : Call} (permitted : call.Permitted s)
    (spares : Spares owned call) : Furnished owned (call.after s) := by
  have within := call_within furnished.toWellFormed permitted
  refine ⟨call.wellFormed furnished.toWellFormed permitted, fun ball member => ?_⟩
  obtain ⟨X, found⟩ := furnished.shaped ball member
  have kept : ∀ value ∈ fields ball, holding (call.after s) value = holding s value := by
    intro value field
    obtain ⟨numerator, denominator⟩ := untouched furnished permitted spares member field
    unfold holding
    rw [Within.view within numerator, Within.view within denominator]
  exact ⟨X, (ballAt_congr (kept _ (by simp [fields])) (kept _ (by simp [fields]))).trans found⟩

theorem Furnished.unchanged (furnished : Furnished owned s) (kept : Within [] s t) : Furnished owned t := by
  refine ⟨furnished.toWellFormed.unchanged kept, fun ball member => ?_⟩
  obtain ⟨X, found⟩ := furnished.shaped ball member
  exact ⟨X, (ballAt_unchanged kept ball).trans found⟩

theorem Furnished.init_ball (furnished : Furnished owned s) {ball : RealBall}
    (fresh : ∀ value ∈ fields ball, s.lookup (.numerator value) = none ∧ s.lookup (.denominator value) = none) :
    wp (realBallInit ball) (fun _ t => Furnished (ball :: owned) t) (fun _ t => Furnished owned t) s := by
  refine wp_mono (realBallInit_spec (.start furnished.toValid) fresh) ?_ (fun _ _ stopped => furnished.unchanged stopped.2)
  rintro _ t ⟨work, holding_t⟩
  refine furnished.of_within work.valid work.within (fun value member => .inl (work.live value member)) ?_
  intro other member
  by_cases same : other = ball
  · subst other
    exact .inl ⟨.exact 0, ballAt_iff.mpr ⟨by simp [holding_t, fields, Ball.exact], by simp [holding_t, fields, Ball.exact]⟩⟩
  · refine .inr ⟨(List.mem_cons.mp member).resolve_left same, fun value inside field => same ?_⟩
    rw [List.append_nil] at inside
    exact (mem_fields_iff field).mp inside

theorem Furnished.destroy_ball (furnished : Furnished owned s) (ball : RealBall) :
    Furnished (owned.filter (· ≠ ball)) (realBallDestroy ball s) := by
  have closed : realBallDestroy ball s = Euclid.closing [.denominator ball.radius, .numerator ball.radius,
    .denominator ball.midpoint, .numerator ball.midpoint] s := rfl
  have valid := furnished.toValid
  have within : Within (halves (fields ball)) s (realBallDestroy ball s) := by
    rw [closed]
    exact (Euclid.closing_within _ valid.toSound).mono (by simp [halves, fields])
  refine furnished.of_within (by rw [closed]; exact Euclid.close_valid valid) within (fun value member => .inr ?_) ?_
  · rw [closed]
    simp only [fields, List.mem_cons, List.not_mem_nil, or_false] at member
    rcases member with rfl | rfl
    · exact ⟨Euclid.closing_lookup (by simp) valid.toSound, Euclid.closing_lookup (by simp) valid.toSound⟩
    · exact ⟨Euclid.closing_lookup (by simp) valid.toSound, Euclid.closing_lookup (by simp) valid.toSound⟩
  · intro other member
    simp only [List.mem_filter, decide_eq_true_eq] at member
    exact .inr ⟨member.1, fun value inside field => member.2 ((mem_fields_iff field).mp inside)⟩

theorem BallCall.spec_furnished (furnished : Furnished owned s) (call : BallCall) (permitted : call.Permitted owned s) :
    wp call.exec (Good s call) (Bad s call) s :=
  call.spec furnished.toValid (fun ball member => furnished.shaped ball (permitted.1 ball member))
    (fun value member => (permitted.2 value member).1)

/-- What a call writes is a ball of its own, or a rational that is no part of a ball. -/
theorem BallCall.outputs_shaped {call : BallCall} (permitted : call.Permitted owned s) {result : Option Bool}
    (computes : call.Computes s result t) {ball : RealBall} (member : ball ∈ owned) :
    (∃ X, ballAt t ball = some X) ∨ ∀ value ∈ call.outputs, value ∉ fields ball := by
  have whole : ∀ {out : RealBall}, call.outputs = fields out → (∃ X, ballAt t out = some X) →
      (∃ X, ballAt t ball = some X) ∨ ∀ value ∈ call.outputs, value ∉ fields ball := by
    rintro out outputs found
    by_cases same : ball = out
    · exact .inl (same ▸ found)
    · refine .inr fun value inside field => same ?_
      rw [outputs] at inside
      exact (mem_fields_iff field).mp inside
  have single : ∀ {out : Bigrat}, call.outputs = [out] → out ∈ call.rationals →
      (∃ X, ballAt t ball = some X) ∨ ∀ value ∈ call.outputs, value ∉ fields ball := by
    rintro out outputs rational
    refine .inr fun value inside => ?_
    rw [outputs, List.mem_singleton] at inside
    exact inside ▸ (permitted.2 out rational).2 ball member
  have none : call.outputs = [] →
      (∃ X, ballAt t ball = some X) ∨ ∀ value ∈ call.outputs, value ∉ fields ball := fun outputs =>
    .inr (by simp [outputs])
  cases call with
  | setI64 out numerator denominator =>
    obtain ⟨Z, found, _⟩ := computes
    exact whole rfl ⟨Z, found⟩
  | setExact out value =>
    obtain ⟨_, Z, _, found, _⟩ := computes
    exact whole rfl ⟨Z, found⟩
  | setInterval out low high =>
    obtain ⟨_, _, Z, _, _, found, _⟩ := computes
    exact whole rfl ⟨Z, found⟩
  | copy source destination =>
    obtain ⟨X, _, found⟩ := computes
    exact whole rfl ⟨X, found⟩
  | lower source out => exact single rfl (by simp [rationals])
  | upper source out => exact single rfl (by simp [rationals])
  | containsZeroChecked source => exact none rfl
  | containsZero source => exact none rfl
  | add left right out =>
    obtain ⟨_, _, Z, _, _, found, _⟩ := computes
    exact whole rfl ⟨Z, found⟩
  | subtract left right out =>
    obtain ⟨_, _, Z, _, _, found, _⟩ := computes
    exact whole rfl ⟨Z, found⟩
  | multiply left right out =>
    obtain ⟨_, _, Z, _, _, found, _⟩ := computes
    exact whole rfl ⟨Z, found⟩
  | divide dividend divisor out =>
    obtain ⟨_, _, Z, _, _, found, _⟩ := computes
    exact whole rfl ⟨Z, found⟩
  | powI32 base exponent out =>
    obtain ⟨_, Z, _, found, _⟩ := computes
    exact whole rfl ⟨Z, found⟩
  | sqrt argument rounds out =>
    obtain ⟨_, Z, _, found, _⟩ := computes
    exact whole rfl ⟨Z, found⟩

theorem Furnished.ball_call (furnished : Furnished owned s) (call : BallCall) (permitted : call.Permitted owned s) :
    Furnished owned (call.after s) := by
  apply BallCall.wp_after
  refine wp_mono (call.spec_furnished furnished permitted) ?_ (fun _ _ stopped => furnished.unchanged stopped.2)
  rintro result t ⟨computes, _, new, produces⟩
  have within : Within (halves call.outputs) s t := by simpa using produces.within
  refine furnished.of_within produces.valid within (fun value member => .inl ⟨_, produces.results value member⟩) ?_
  intro ball member
  exact (call.outputs_shaped permitted computes member).imp_right fun apart => ⟨member, apart⟩

theorem BallReachable.furnished (reachable : BallReachable owned s) : Furnished owned s := by
  induction reachable with
  | create created => exact ⟨exactContextCreate_wellFormed created, by simp⟩
  | exact _ call permitted spares ih => exact ih.exact_call permitted spares
  | init _ ball fresh initialized ih => exact (wp_of_ok initialized).mp (ih.init_ball fresh)
  | abort _ ball fresh failed ih => exact (wp_of_error failed).mp (ih.init_ball fresh)
  | destroy _ ball _ ih => exact ih.destroy_ball ball
  | call _ call permitted ih => exact ih.ball_call call permitted

/-- In every context that a client can bring about, a ball call with any accepted aliasing that
returns has published a ball of the exact results and touched its outputs only. One that stops
has changed no value at all: it was refused for a reason in its operands, or it ran out. -/
theorem ball_arithmetic (reachable : BallReachable owned s) (call : BallCall) (permitted : call.Permitted owned s) :
    wp call.exec
      (fun result t => call.Computes s result t ∧ ¬call.Refuses s ∧
        ∀ handle ∉ halves call.outputs, t.lookup handle = s.lookup handle)
      (fun stop t => (stop = .domain ∧ call.Refuses s ∨ Exhausted stop) ∧
        ∀ handle, t.lookup handle = s.lookup handle) s := by
  refine wp_mono (call.spec_furnished reachable.furnished permitted) ?_ ?_
  · rintro result t ⟨computes, accepted, new, produces⟩
    have within : Within (halves call.outputs) s t := by simpa using produces.within
    exact ⟨computes, accepted, within.others⟩
  · rintro stop t ⟨why, kept⟩
    exact ⟨why.symm, fun handle => kept.others handle List.not_mem_nil⟩

def withFirstBall (s : ExactContext) : ExactContext :=
  match realBallInit ⟨1⟩ s with
  | .ok _ t => t
  | .error _ t => t

theorem withFirstBall_reachable (reachable : BallReachable [] s)
    (fresh : ∀ value ∈ fields ⟨1⟩, s.lookup (.numerator value) = none ∧ s.lookup (.denominator value) = none)
    (returns : (valueOf (realBallInit ⟨1⟩) s).isSome = true) : BallReachable [⟨1⟩] (withFirstBall s) := by
  unfold withFirstBall
  unfold valueOf at returns
  cases run : realBallInit ⟨1⟩ s with
  | ok value t => exact .init reachable ⟨1⟩ fresh run
  | error stop t =>
    rw [run] at returns
    cases returns

@[irreducible] def twoBall : ExactContext := (BallCall.setI64 ⟨1⟩ 2 1).after (withFirstBall Runs.created)

theorem twoBall_reachable : BallReachable [⟨1⟩] twoBall := by
  have start : BallReachable [] Runs.created :=
    @BallReachable.create Runs.created none ⟨fun _ => true, 0⟩ ⟨fun _ => true, 1⟩ rfl
  unfold twoBall
  refine .call (withFirstBall_reachable start (fun _ _ => ⟨rfl, rfl⟩) (by decide +kernel)) (.setI64 ⟨1⟩ 2 1) ⟨?_, ?_⟩
  · simp [BallCall.operands]
  · simp [BallCall.rationals]

theorem ball_arithmetic_doubles_two :
    ∃ result t, (BallCall.add ⟨1⟩ ⟨1⟩ ⟨1⟩).exec twoBall = .ok result t ∧
      ∃ Z, ballAt t ⟨1⟩ = some Z ∧ Z.Contains (2 + 2 : ℝ) := by
  have permitted : (BallCall.add ⟨1⟩ ⟨1⟩ ⟨1⟩).Permitted [⟨1⟩] twoBall :=
    ⟨by simp [BallCall.operands], by simp [BallCall.rationals]⟩
  obtain ⟨result, t, run, ⟨X, Y, Z, before, before', after, encloses⟩, _⟩ :=
    wp_value (ball_arithmetic twoBall_reachable (.add ⟨1⟩ ⟨1⟩ ⟨1⟩) permitted) (by decide +kernel)
  have two : ballAt twoBall ⟨1⟩ = some (.exact 2) :=
    ballAt_iff.mpr ⟨show holding twoBall 2 = some 2 by decide +kernel, show holding twoBall 3 = some 0 by decide +kernel⟩
  rw [ballAt_unique before two, ballAt_unique before' two] at encloses
  exact ⟨result, t, run, Z, after, encloses 2 2 (by simp) (by simp)⟩

@[irreducible] def starvedBall : ExactContext :=
  withFirstBall { Runs.created with heap := ⟨fun request => decide (request < 9), 1⟩ }

theorem starvedBall_reachable : BallReachable [⟨1⟩] starvedBall := by
  unfold starvedBall
  refine withFirstBall_reachable (@BallReachable.create _ none ⟨fun request => decide (request < 9), 0⟩
    ⟨fun request => decide (request < 9), 1⟩ rfl) (fun _ _ => ⟨rfl, rfl⟩) (by decide +kernel)

/-- A divisor that contains zero is not always refused as one: the memory may run out first. -/
theorem division_by_zero_runs_out :
    ¬∀ owned s, BallReachable owned s → ∀ dividend ∈ owned, ∀ divisor ∈ owned, ∀ out ∈ owned,
      (stopOf (realBallDivide dividend divisor out) s = some .domain ↔
        ∃ Y, ballAt s divisor = some Y ∧ Y.Contains (0 : ℝ)) := by
  intro exact
  have zero : ballAt starvedBall ⟨1⟩ = some (.exact 0) := ballAt_iff.mpr
    ⟨show holding starvedBall 2 = some 0 by decide +kernel, show holding starvedBall 3 = some 0 by decide +kernel⟩
  have one : (⟨1⟩ : RealBall) ∈ [(⟨1⟩ : RealBall)] := List.mem_singleton_self _
  have domain := (exact _ _ starvedBall_reachable _ one _ one _ one).mpr ⟨.exact 0, zero, by simp⟩
  have memory : stopOf (realBallDivide ⟨1⟩ ⟨1⟩ ⟨1⟩) starvedBall = some .outOfMemory := by decide +kernel
  rw [memory] at domain
  cases domain

end PhyNspire.Exact.BallRuns

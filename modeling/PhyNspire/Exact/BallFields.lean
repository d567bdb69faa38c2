import PhyNspire.Exact.RealBall
import PhyNspire.Exact.Workspace
import PhyNspire.Lib.Balls

/-!
The balls of a context: a live ball denotes a closed interval, and publishing a finished
temporary replaces it. The rules for rented balls stand beside those for rationals.
-/

namespace PhyNspire.Exact.BallFields
open Platform Lib Lib.Stateful Lib.Balls Context Accounting Integer Arithmetic Euclid Rational Fractions RationalField
  Runs RealBall Workspace

variable {s t u : ExactContext} {ball other temporary out : RealBall} {b c : Ball} {temporaries outs : List Bigrat}
  {p q : ℚ} {why : Status → Prop}

def ballAt (s : ExactContext) (ball : RealBall) : Option Ball := do
  let midpoint ← holding s ball.midpoint
  let radius ← holding s ball.radius
  if nonneg : 0 ≤ radius then some ⟨midpoint, radius, nonneg⟩ else none

theorem ballAt_iff : ballAt s ball = some b ↔
    holding s ball.midpoint = some b.midpoint ∧ holding s ball.radius = some b.radius := by
  constructor
  · intro found
    cases first : holding s ball.midpoint with
    | none => simp [ballAt, first] at found
    | some midpoint =>
      cases second : holding s ball.radius with
      | none => simp [ballAt, first, second] at found
      | some radius =>
        simp only [ballAt, first, second, Option.bind_eq_bind, Option.bind_some, Option.dite_none_right_eq_some,
          Option.some.injEq] at found
        obtain ⟨_, rfl⟩ := found
        exact ⟨rfl, rfl⟩
  · rintro ⟨first, second⟩
    simp only [ballAt, first, second, Option.bind_eq_bind, Option.bind_some, dif_pos b.nonneg]

theorem ballAt_unique (first : ballAt s ball = some b) (second : ballAt s ball = some c) : b = c := by
  rw [first, Option.some.injEq] at second
  exact second

def fields (ball : RealBall) : List Bigrat := [ball.radius, ball.midpoint]

theorem eq_of_address (same : ball.address = other.address) : ball = other := by
  cases ball
  cases other
  exact congrArg RealBall.mk same

@[simp] theorem midpoint_inj : ball.midpoint = other.midpoint ↔ ball = other := by
  constructor
  · intro same
    have doubled : 2 * ball.address = 2 * other.address := same
    exact eq_of_address (by omega)
  · rintro rfl
    rfl

@[simp] theorem radius_inj : ball.radius = other.radius ↔ ball = other := by
  constructor
  · intro same
    have doubled : 2 * ball.address + 1 = 2 * other.address + 1 := same
    exact eq_of_address (by omega)
  · rintro rfl
    rfl

@[simp] theorem midpoint_ne_radius : ball.midpoint ≠ other.radius := by
  intro same
  have doubled : 2 * ball.address = 2 * other.address + 1 := same
  omega

@[simp] theorem radius_ne_midpoint : ball.radius ≠ other.midpoint := midpoint_ne_radius.symm

theorem mem_fields_iff {value : Bigrat} (field : value ∈ fields ball) : value ∈ fields other ↔ ball = other := by
  simp only [fields, List.mem_cons, List.not_mem_nil, or_false] at field ⊢
  rcases field with rfl | rfl
  · simp
  · simp

def spread (ball : RealBall) (b : Ball) (value : Bigrat) : ℚ :=
  if value = ball.midpoint then b.midpoint else b.radius

abbrev ProducesBall (s : ExactContext) (temporaries : List Bigrat) (out : RealBall) (b : Ball) (t : ExactContext) :
    Prop := Produces s temporaries (fields out) (spread out b) t

theorem produces_ball (valid : Valid t) (within : Within (halves (temporaries ++ fields out)) s t)
    (result : ballAt t out = some b) : ProducesBall s temporaries out b t := by
  obtain ⟨first, second⟩ := ballAt_iff.mp result
  refine ⟨valid, within, fun value member => ?_⟩
  simp only [fields, List.mem_cons, List.not_mem_nil, or_false] at member
  rcases member with rfl | rfl
  · simpa [spread] using second
  · simpa [spread] using first

theorem result_of_produces (produces : ProducesBall s temporaries out b t) : ballAt t out = some b := by
  have first := produces.results out.midpoint (by simp [fields])
  have second := produces.results out.radius (by simp [fields])
  exact ballAt_iff.mpr ⟨by simpa [spread] using first, by simpa [spread] using second⟩

theorem ballAt_congr (midpoint : holding t ball.midpoint = holding s ball.midpoint)
    (radius : holding t ball.radius = holding s ball.radius) : ballAt t ball = ballAt s ball := by
  unfold ballAt
  rw [midpoint, radius]

theorem ballAt_of_produces (produces : ProducesBall s [] out b t) (ball : RealBall) :
    ballAt t ball = if ball = out then some b else ballAt s ball := by
  split
  · subst ball
    exact result_of_produces produces
  · rename_i different
    refine ballAt_congr ?_ ?_
    · rw [produces.holding, if_neg (by simp [fields, different])]
    · rw [produces.holding, if_neg (by simp [fields, different])]

theorem ballAt_unchanged (kept : Within [] s t) (ball : RealBall) : ballAt t ball = ballAt s ball :=
  ballAt_congr (holding_unchanged kept _) (holding_unchanged kept _)

theorem fields_live (live : ballAt s out = some b) : ∀ value ∈ fields out, ∃ p, holding s value = some p := by
  obtain ⟨first, second⟩ := ballAt_iff.mp live
  intro value member
  simp only [fields, List.mem_cons, List.not_mem_nil, or_false] at member
  rcases member with rfl | rfl
  · exact ⟨_, second⟩
  · exact ⟨_, first⟩

theorem valid_shallow (valid : Valid s) {value : Bigrat} (held : holding s value = some p) :
    rationalValidShallow s value = true := (holding_iff.mp held).shallow valid

theorem initialized_of_ballAt (valid : Valid s) (live : ballAt s ball = some b) : initialized s ball = true := by
  obtain ⟨first, second⟩ := ballAt_iff.mp live
  simp only [initialized, valid_shallow valid first, valid_shallow valid second, Bool.and_self]

theorem bigratSign_spec (valid : Valid s) {value : Bigrat} (held : holding s value = some p) :
    bigratSign s value = p.num.sign := by
  have represents := holding_iff.mp held
  obtain ⟨canonical, denotes⟩ := (valid.holds represents.numerator).payload
  simp only [bigratSign, represents.shallow valid, if_true, canonical.sign_eq, denotes]

theorem bigratSign_neg (valid : Valid s) {value : Bigrat} (held : holding s value = some p) :
    bigratSign s value < 0 ↔ p < 0 := by
  rw [bigratSign_spec valid held, Int.sign_neg_iff, Rat.num_neg]

theorem swapPayload_spec {left right : Bigrat} (valid : Valid s)
    (first : holding s left = some p) (second : holding s right = some q) :
    Valid (swapPayload left right s) ∧ Within (halves [left, right]) s (swapPayload left right s) ∧
      holding (swapPayload left right s) left = some q ∧ holding (swapPayload left right s) right = some p := by
  have first := holding_iff.mp first
  have second := holding_iff.mp second
  have numerators := swap_spec valid first.numerator second.numerator
  have kept : ∀ value, view (bigintSwapPayload (.numerator left) (.numerator right) s) (.denominator value) =
      view s (.denominator value) := fun _ => Within.view numerators.within (by simp)
  have denominators := swap_spec numerators.valid ((kept left).trans first.denominator)
    ((kept right).trans second.denominator)
  have kept' : ∀ value, view (swapPayload left right s) (.numerator value) =
      view (bigintSwapPayload (.numerator left) (.numerator right) s) (.numerator value) := fun _ =>
    Within.view denominators.within (by simp)
  refine ⟨denominators.valid, ?_, holding_iff.mpr ⟨?_, denominators.left_result⟩,
    holding_iff.mpr ⟨?_, denominators.right_result⟩⟩
  · exact (numerators.within.mono (by simp [halves])).trans (denominators.within.mono (by simp [halves]))
  · rw [kept', numerators.left_result]
  · rw [kept', numerators.right_result]

theorem bigratSwap_spec {left right : Bigrat} (valid : Valid s)
    (first : holding s left = some p) (second : holding s right = some q) {bad : Status → ExactContext → Prop} :
    wp (bigratSwap left right)
      (fun _ t => Valid t ∧ Within (halves [left, right]) s t ∧
        ∀ value, holding t value = if value = left then some q else if value = right then some p else holding s value)
      bad s := by
  unfold bigratSwap
  simp only [wp_bind, wp_get, Rational.compatible2, valid_shallow valid first, valid_shallow valid second, Bool.and_self,
    Bool.not_true, Bool.false_eq_true, ↓reduceIte, wp_modify]
  obtain ⟨valid', within, left_result, right_result⟩ := swapPayload_spec valid first second
  refine ⟨valid', within, fun value => ?_⟩
  by_cases here : value = left
  · rw [if_pos here, here, left_result]
  · by_cases there : value = right
    · rw [if_neg here, if_pos there, there, right_result]
    · rw [if_neg here, if_neg there, holding_within within (by simp [here, there])]

theorem publish_spec (work : Workspace s temporaries u) (live : ballAt s out = some c)
    (first : temporary.midpoint ∈ temporaries) (second : temporary.radius ∈ temporaries)
    (midpoint : holding u temporary.midpoint = some b.midpoint)
    (radius : holding u temporary.radius = some b.radius) {bad : Status → ExactContext → Prop} :
    wp (RealBall.publish temporary out) (fun _ t => ProducesBall s temporaries out b t) bad u := by
  obtain ⟨center, width⟩ := ballAt_iff.mp live
  have apart : temporary ≠ out := by
    rintro rfl
    exact work.outside center first
  unfold RealBall.publish
  refine wp_then (bigratSwap_spec work.valid midpoint (work.frame center)) ?_
  rintro _ v ⟨valid_v, within_v, holding_v⟩
  have radius_v : holding v temporary.radius = some b.radius := by
    rw [holding_v, if_neg (by simp), if_neg (by simp), radius]
  have width_v : holding v out.radius = some c.radius := by
    rw [holding_v, if_neg (by simp), if_neg (by simp), work.frame width]
  refine wp_good (bigratSwap_spec valid_v radius_v width_v) ?_
  rintro _ t ⟨valid_t, within_t, holding_t⟩
  have wider : temporaries ⊆ temporaries ++ fields out := by simp
  have within : Within (halves (temporaries ++ fields out)) s t := by
    refine (work.within.mono (halves_subset wider)).trans ((within_v.mono (halves_subset ?_)).trans
      (within_t.mono (halves_subset ?_)))
    · simp [fields, first]
    · simp [fields, second]
  refine produces_ball valid_t within (ballAt_iff.mpr ⟨?_, ?_⟩)
  · rw [holding_t, if_neg (by simp), if_neg (by simp), holding_v, if_neg (by simp [Ne.symm apart]), if_pos rfl]
  · rw [holding_t, if_neg (by simp [Ne.symm apart]), if_pos rfl]

theorem wp_discard {why : Status → Prop} {rest : List Bigrat}
    (absent : ∀ value ∈ fields temporary, view s (.numerator value) = none ∧ view s (.denominator value) = none)
    {stop : Status} (stopped : why stop ∧ Within (halves (fields temporary ++ rest)) s t) :
    why stop ∧ Within (halves rest) s (realBallDestroy temporary t) := by
  refine ⟨stopped.1, ?_⟩
  unfold realBallDestroy
  refine close_rational (absent _ (by simp [fields])) (close_rational (absent _ (by simp [fields])) ?_)
  exact stopped.2

theorem fresh_fields (s : ExactContext) (value : Bigrat) (member : value ∈ fields ⟨freshAddress s⟩) :
    s.lookup (.numerator value) = none ∧ s.lookup (.denominator value) = none := by
  have large : freshAddress s ≤ value := by
    simp only [fields, List.mem_cons, List.not_mem_nil, or_false] at member
    rcases member with rfl | rfl
    · show freshAddress s ≤ 2 * freshAddress s + 1
      omega
    · show freshAddress s ≤ 2 * freshAddress s
      omega
  have absent : ∀ handle : Handle, handle.address = value → s.lookup handle = none := by
    intro handle here
    refine Registry.find_eq_none.mpr fun inside => ?_
    have bound := List.single_le_sum (fun _ _ => Nat.zero_le _) _ (List.mem_map_of_mem (f := Handle.address) inside)
    unfold freshAddress at large
    omega
  exact ⟨absent _ rfl, absent _ rfl⟩

theorem realBallInit_spec (work : Workspace s temporaries u)
    (absent : ∀ value ∈ fields ball, u.lookup (.numerator value) = none ∧ u.lookup (.denominator value) = none) :
    wp (realBallInit ball)
      (fun _ t => Workspace s (fields ball ++ temporaries) t ∧
        ∀ value, holding t value = if value ∈ fields ball then some 0 else holding u value)
      (fun stop t => Exhausted stop ∧ Within (halves temporaries) s t) u := by
  have zero : ((0 : Int64).toInt : ℚ) = 0 := by decide
  unfold realBallInit
  rw [wp_bind]
  obtain ⟨no_numerator, no_denominator⟩ := absent ball.midpoint (by simp [fields])
  refine wp_mono (bigratInit_spec work.valid no_numerator no_denominator) ?_
    (fun _ _ stopped => ⟨stopped.1, work.abandon stopped.2⟩)
  rintro _ v ⟨valid_v, opened, view_v⟩
  obtain ⟨work_v, holding_v⟩ := work.open_rational (view_eq_none.mpr no_numerator) (view_eq_none.mpr no_denominator)
    valid_v opened view_v
  obtain ⟨no_numerator, no_denominator⟩ := absent ball.radius (by simp [fields])
  have still : ∀ handle, (handle = .numerator ball.radius ∨ handle = .denominator ball.radius) →
      v.lookup handle = u.lookup handle := by
    rintro handle (rfl | rfl)
    · exact opened.others _ (by simp)
    · exact opened.others _ (by simp)
  rw [← still _ (.inl rfl)] at no_numerator
  rw [← still _ (.inr rfl)] at no_denominator
  rw [wp_bind, wp_abandoning]
  refine wp_mono (bigratInit_spec work_v.valid no_numerator no_denominator) ?_ ?_
  · rintro _ w ⟨valid_w, opened, view_w⟩
    obtain ⟨work_w, holding_w⟩ := work_v.open_rational (view_eq_none.mpr no_numerator)
      (view_eq_none.mpr no_denominator) valid_w opened view_w
    have missing : ∀ value ∈ fields ball, view s (.numerator value) = none ∧ view s (.denominator value) = none :=
      fun value member => work_w.absent value (by
        simp only [fields, List.mem_cons, List.not_mem_nil, or_false] at member
        rcases member with rfl | rfl <;> simp)
    rw [wp_abandoning]
    refine wp_mono (?_ : wp _ (fun _ t => Workspace s (fields ball ++ temporaries) t ∧
      ∀ value, holding t value = if value ∈ fields ball then some 0 else holding u value)
      (fun stop t => Exhausted stop ∧ Within (halves (fields ball ++ temporaries)) s t) w)
      (fun _ _ done => done) (fun _ _ stopped => wp_discard missing stopped)
    refine wp_compute work_w (fun _ => id) (by simp [fields])
      (fun _ target => set_integer work_w.valid target 0) fun x work_x holding_x => ?_
    rw [zero] at holding_x
    obtain ⟨z, target⟩ := work_x.live ball.radius (by simp [fields])
    refine wp_mono (set_integer work_x.valid (holding_iff.mp target) 0) ?_
      (fun _ _ stopped => ⟨stopped.1, work_x.abandon stopped.2⟩)
    intro _ t writes
    rw [zero] at writes
    have produces := Produces.of_writes writes
    refine ⟨work_x.write (by simp [fields]) produces, fun value => ?_⟩
    have views := produces.holding value
    simp only [fields, List.mem_cons, List.not_mem_nil, or_false] at views ⊢
    grind
  · rintro stop t ⟨stopped, kept⟩
    exact ⟨stopped, close_rational (work_v.absent _ (by simp)) (work_v.abandon kept)⟩

theorem wp_rentBall {α : Type} {body : RealBall → ExactM α} {fact : α → Prop} {new : α → Bigrat → ℚ}
    (work : Workspace s temporaries u) (exhausted : ∀ stop, Exhausted stop → why stop)
    (live : ∀ value ∈ outs, ∃ p, holding s value = some p)
    (inner : ∀ temporary v, Workspace s (fields temporary ++ temporaries) v →
      (∀ value, holding v value = if value ∈ fields temporary then some 0 else holding u value) →
      wp (body temporary)
        (fun result t => fact result ∧ Produces s (fields temporary ++ temporaries) outs (new result) t)
        (fun stop t => why stop ∧ Within (halves (fields temporary ++ temporaries)) s t) v) :
    wp (withBall body) (fun result t => fact result ∧ Produces s temporaries outs (new result) t)
      (fun stop t => why stop ∧ Within (halves temporaries) s t) u := by
  unfold withBall
  simp only [wp_bind, wp_get, wp_ensuring]
  refine wp_mono (realBallInit_spec work (fresh_fields u)) ?_ (fun _ _ stopped => ⟨exhausted _ stopped.1, stopped.2⟩)
  rintro _ v ⟨work_v, holding_v⟩
  have missing : ∀ value ∈ fields ⟨freshAddress u⟩, view s (.numerator value) = none ∧
      view s (.denominator value) = none := fun value member => work_v.absent value (by simp [member])
  refine wp_mono (inner _ v work_v holding_v) ?_ (fun _ _ stopped => wp_discard missing stopped)
  rintro result t ⟨held, produces⟩
  unfold realBallDestroy
  exact ⟨held, Produces.close (missing _ (by simp [fields])) live
    (Produces.close (missing _ (by simp [fields])) live produces)⟩

theorem wp_workBall {body : RealBall → ExactM Unit} {new : Bigrat → ℚ}
    (work : Workspace s temporaries u) (exhausted : ∀ stop, Exhausted stop → why stop)
    (live : ∀ value ∈ outs, ∃ p, holding s value = some p)
    (inner : ∀ temporary v, Workspace s (fields temporary ++ temporaries) v →
      (∀ value, holding v value = if value ∈ fields temporary then some 0 else holding u value) →
      wp (body temporary) (fun _ t => Produces s (fields temporary ++ temporaries) outs new t)
        (fun stop t => why stop ∧ Within (halves (fields temporary ++ temporaries)) s t) v) :
    wp (withBall body) (fun _ t => Produces s temporaries outs new t)
      (fun stop t => why stop ∧ Within (halves temporaries) s t) u :=
  wp_good (wp_rentBall work exhausted live fun temporary v work' views =>
      wp_good (inner temporary v work' views) (fun _ _ done => ⟨trivial, done⟩))
    (fun _ _ done => done.2)

theorem wp_computeBall {α : Type} {program : ExactM Unit} {next : ExactM α} {good : α → ExactContext → Prop}
    (work : Workspace s temporaries u) (exhausted : ∀ stop, Exhausted stop → why stop)
    (member : fields out ⊆ temporaries)
    (spec : wp program (fun _ t => ProducesBall u [] out b t) (fun stop t => Exhausted stop ∧ Within [] u t) u)
    (rest : ∀ t, Workspace s temporaries t → ProducesBall u [] out b t →
      wp next good (fun stop t => why stop ∧ Within (halves temporaries) s t) t) :
    wp (program >>= fun _ => next) good (fun stop t => why stop ∧ Within (halves temporaries) s t) u := by
  rw [wp_bind]
  refine wp_mono spec (fun _ t produces => rest t (work.write member produces) produces) ?_
  rintro stop t ⟨stopped, kept⟩
  exact ⟨exhausted stop stopped, work.abandon kept⟩

theorem frame_ball (work : Workspace s temporaries u) (live : ballAt s ball = some b) : ballAt u ball = some b := by
  obtain ⟨first, second⟩ := ballAt_iff.mp live
  exact ballAt_iff.mpr ⟨work.frame first, work.frame second⟩

end PhyNspire.Exact.BallFields

import Mathlib.Logic.Basic

/-!
Weakest preconditions for programs that keep their state when they stop early.
A run of `EStateM` ends either with a value or with a reason for stopping, and in
both cases with the state it had reached. Both endings are specified here, since a
transactional program promises as much about the second as about the first.
-/

namespace PhyNspire.Lib.Stateful

variable {ε σ α β : Type}

/-- `good` is judged on a normal return, `bad` on an early stop. -/
def wp (program : EStateM ε σ α) (good : α → σ → Prop) (bad : ε → σ → Prop) (s : σ) : Prop :=
  match program s with
  | .ok value t => good value t
  | .error stop t => bad stop t

variable {program : EStateM ε σ α} {good : α → σ → Prop} {bad : ε → σ → Prop}

theorem wp_of_ok {s t : σ} {value : α} (run : program s = .ok value t) : wp program good bad s ↔ good value t := by
  simp only [wp, run]

theorem wp_of_error {s t : σ} {stop : ε} (run : program s = .error stop t) : wp program good bad s ↔ bad stop t := by
  simp only [wp, run]

theorem wp_returns {s : σ} (held : wp program good bad s) (returns : (program s matches .ok _ _) = true) :
    ∃ value t, program s = .ok value t ∧ good value t := by
  unfold wp at held
  cases run : program s with
  | ok value t =>
    rw [run] at held
    exact ⟨value, t, rfl, held⟩
  | error stop t =>
    rw [run] at returns
    cases returns

theorem wp_of_run {s : σ} (returned : ∀ value t, program s = .ok value t → good value t)
    (stopped : ∀ stop t, program s = .error stop t → bad stop t) : wp program good bad s := by
  unfold wp
  cases run : program s with
  | ok value t => exact returned value t run
  | error stop t => exact stopped stop t run

def valueOf (program : EStateM ε σ α) (s : σ) : Option α :=
  match program s with
  | .ok value _ => some value
  | .error _ _ => none

def stopOf (program : EStateM ε σ α) (s : σ) : Option ε :=
  match program s with
  | .ok _ _ => none
  | .error stop _ => some stop

theorem wp_stop {s : σ} {stop : ε}
    (held : wp program good bad s) (stopped : stopOf program s = some stop) : ∃ t, bad stop t := by
  unfold wp at held
  unfold stopOf at stopped
  cases run : program s with
  | ok value t =>
    rw [run] at stopped
    cases stopped
  | error other t =>
    rw [run] at held stopped
    cases stopped
    exact ⟨t, held⟩

theorem wp_value {s : σ} (held : wp program good bad s) (returns : (valueOf program s).isSome = true) :
    ∃ value t, program s = .ok value t ∧ good value t := by
  unfold wp at held
  unfold valueOf at returns
  cases run : program s with
  | ok value t =>
    rw [run] at held
    exact ⟨value, t, rfl, held⟩
  | error stop t =>
    rw [run] at returns
    cases returns

variable {good' : α → σ → Prop}

theorem wp_mono {bad' : ε → σ → Prop}
    {s : σ} (holds : wp program good bad s) (weaker : ∀ value t, good value t → good' value t)
    (weaker' : ∀ stop t, bad stop t → bad' stop t) : wp program good' bad' s := by
  unfold wp at holds ⊢
  cases run : program s with
  | ok value t => rw [run] at holds; exact weaker value t holds
  | error stop t => rw [run] at holds; exact weaker' stop t holds

theorem wp_good {s : σ}
    (holds : wp program good bad s) (weaker : ∀ value t, good value t → good' value t) : wp program good' bad s :=
  wp_mono holds weaker (fun _ _ stopped => stopped)

theorem wp_forall {ι : Sort*} {good : ι → α → σ → Prop} {bad : ι → ε → σ → Prop} {s : σ}
    (all : ∀ i, wp program (good i) (bad i) s) :
    wp program (fun value t => ∀ i, good i value t) (fun stop t => ∀ i, bad i stop t) s := by
  unfold wp at all ⊢
  cases run : program s with
  | ok value t => intro i; simpa only [run] using all i
  | error stop t => intro i; simpa only [run] using all i

theorem wp_and {bad' : ε → σ → Prop} {s : σ} (first : wp program good bad s) (second : wp program good' bad' s) :
    wp program (fun value t => good value t ∧ good' value t) (fun stop t => bad stop t ∧ bad' stop t) s := by
  unfold wp at first second ⊢
  cases run : program s with
  | ok value t =>
    rw [run] at first second
    exact ⟨first, second⟩
  | error stop t =>
    rw [run] at first second
    exact ⟨first, second⟩

@[simp] theorem wp_pure (value : α) (good : α → σ → Prop) (bad : ε → σ → Prop) (s : σ) :
    wp (pure value : EStateM ε σ α) good bad s ↔ good value s := Iff.rfl

@[simp] theorem wp_throw (stop : ε) (good : α → σ → Prop) (bad : ε → σ → Prop) (s : σ) :
    wp (throw stop : EStateM ε σ α) good bad s ↔ bad stop s := Iff.rfl

@[simp] theorem wp_get (good : σ → σ → Prop) (bad : ε → σ → Prop) (s : σ) :
    wp (get : EStateM ε σ σ) good bad s ↔ good s s := Iff.rfl

@[simp] theorem wp_set (t : σ) (good : PUnit → σ → Prop) (bad : ε → σ → Prop) (s : σ) :
    wp (set t : EStateM ε σ PUnit) good bad s ↔ good ⟨⟩ t := Iff.rfl

@[simp] theorem wp_modify (change : σ → σ) (good : PUnit → σ → Prop) (bad : ε → σ → Prop) (s : σ) :
    wp (modify change : EStateM ε σ PUnit) good bad s ↔ good ⟨⟩ (change s) := Iff.rfl

@[simp] theorem wp_bind (program : EStateM ε σ α) (next : α → EStateM ε σ β)
    (good : β → σ → Prop) (bad : ε → σ → Prop) (s : σ) :
    wp (program >>= next) good bad s ↔
      wp program (fun value t => wp (next value) good bad t) bad s := by
  change (match EStateM.bind program next s with
    | .ok value t => good value t
    | .error stop t => bad stop t) ↔ _
  unfold wp EStateM.bind
  cases program s <;> rfl

@[simp] theorem wp_map (f : α → β) (program : EStateM ε σ α) (good : β → σ → Prop) (bad : ε → σ → Prop) (s : σ) :
    wp (f <$> program) good bad s ↔ wp program (fun value t => good (f value) t) bad s := by
  change (match EStateM.map f program s with
    | .ok value t => good value t
    | .error stop t => bad stop t) ↔ _
  unfold wp EStateM.map
  cases program s <;> rfl

theorem wp_then {next : α → EStateM ε σ β} {first : α → σ → Prop} {good : β → σ → Prop}
    {s : σ} (holds : wp program first bad s)
    (later : ∀ value t, first value t → wp (next value) good bad t) : wp (program >>= next) good bad s :=
  (wp_bind program next good bad s).mpr (wp_good holds later)

theorem wp_ite {condition : Prop} [Decidable condition] {first second : EStateM ε σ α}
    {s : σ}
    (taken : condition → wp first good bad s) (skipped : ¬condition → wp second good bad s) :
    wp (if condition then first else second) good bad s := by
  by_cases held : condition
  · simpa only [if_pos held] using taken held
  · simpa only [if_neg held] using skipped held

def ensuring (cleanup : σ → σ) (body : EStateM ε σ α) : EStateM ε σ α := fun s =>
  match body s with
  | .ok value t => .ok value (cleanup t)
  | .error stop t => .error stop (cleanup t)

@[simp] theorem wp_ensuring (cleanup : σ → σ) (body : EStateM ε σ α) (good : α → σ → Prop)
    (bad : ε → σ → Prop) (s : σ) :
    wp (ensuring cleanup body) good bad s ↔
      wp body (fun value t => good value (cleanup t)) (fun stop t => bad stop (cleanup t)) s := by
  unfold wp ensuring
  cases body s <;> rfl

def abandoning (cleanup : σ → σ) (body : EStateM ε σ α) : EStateM ε σ α := fun s =>
  match body s with
  | .ok value t => .ok value t
  | .error stop t => .error stop (cleanup t)

@[simp] theorem wp_abandoning (cleanup : σ → σ) (body : EStateM ε σ α) (good : α → σ → Prop)
    (bad : ε → σ → Prop) (s : σ) :
    wp (abandoning cleanup body) good bad s ↔ wp body good (fun stop t => bad stop (cleanup t)) s := by
  unfold wp abandoning
  cases body s <;> rfl

/-- A body whose early stop is recovered from. -/
def attempt (body : EStateM ε σ α) : EStateM ε σ (Option α) := fun s =>
  match body s with
  | .ok value t => .ok (some value) t
  | .error _ t => .ok none t

@[simp] theorem wp_attempt (body : EStateM ε σ α) (good : Option α → σ → Prop) (bad : ε → σ → Prop) (s : σ) :
    wp (attempt body) good bad s ↔ wp body (fun value t => good (some value) t) (fun _ t => good none t) s := by
  unfold wp attempt
  cases body s <;> rfl

/-- The loop `for (index = first; index < first + remaining; ++index)`. -/
def countUp (body : Nat → β → EStateM ε σ β) : Nat → Nat → β → EStateM ε σ β
  | 0, _, acc => pure acc
  | remaining + 1, index, acc => do
      let acc ← body index acc
      countUp body remaining (index + 1) acc

/-- The loop `for (index = count; index-- != 0;)`. -/
def countDown (body : Nat → β → EStateM ε σ β) : Nat → β → EStateM ε σ β
  | 0, acc => pure acc
  | index + 1, acc => do
      let acc ← body index acc
      countDown body index acc

theorem wp_countUp {body : Nat → β → EStateM ε σ β} (inv : Nat → β → σ → Prop)
    (remaining index : Nat) (acc : β) (s : σ) (start : inv index acc s)
    (step : ∀ i acc s, index ≤ i → i < index + remaining → inv i acc s →
      wp (body i acc) (inv (i + 1)) bad s) :
    wp (countUp body remaining index acc) (inv (index + remaining)) bad s := by
  induction remaining generalizing index acc s with
  | zero => simpa only [countUp, wp_pure, Nat.add_zero] using start
  | succ remaining ih =>
    simp only [countUp, wp_bind]
    refine wp_mono (step index acc s (Nat.le_refl _) (by omega) start) ?_ (fun _ _ stopped => stopped)
    intro acc t held
    have rest := ih (index + 1) acc t held
      (fun i acc s lower upper => step i acc s (by omega) (by omega))
    simpa only [show index + 1 + remaining = index + (remaining + 1) by omega] using rest

theorem wp_every {n : Nat} {body : Nat → Unit → EStateM ε σ Unit} {held : Fin n → Prop}
    (step : ∀ (i : Fin n) s, wp (body i ()) (fun _ _ => held i) bad s) (s : σ) :
    wp (countUp body n 0 ()) (fun _ _ => ∀ i, held i) bad s := by
  have loop : wp (countUp body n 0 ()) (fun _ _ => ∀ i : Fin n, i.val < 0 + n → held i) bad s := by
    refine wp_countUp (fun done _ _ => ∀ i : Fin n, i.val < done → held i) n 0 () s
      (fun i before => absurd before i.val.not_lt_zero) (fun i _ s _ bound before => ?_)
    refine wp_mono (step ⟨i, by omega⟩ s) (fun _ _ new j below => ?_) (fun _ _ stopped => stopped)
    rcases Nat.lt_succ_iff_lt_or_eq.mp below with earlier | rfl
    · exact before j earlier
    · exact new
  exact wp_mono loop (fun _ _ all i => all i (by omega)) (fun _ _ stopped => stopped)

theorem wp_grid {body : Nat → Nat → β → EStateM ε σ β} (inv : Nat → Nat → β → σ → Prop)
    (rows columns : Nat) (acc : β) (s : σ) (start : inv 0 0 acc s)
    (step : ∀ row column acc s, row < rows → column < columns → inv row column acc s →
      wp (body row column acc) (inv row (column + 1)) bad s)
    (turn : ∀ row acc s, inv row columns acc s → inv (row + 1) 0 acc s) :
    wp (countUp (fun row acc => countUp (body row) columns 0 acc) rows 0 acc) (inv rows 0) bad s := by
  have outer := wp_countUp (fun row => inv row 0) rows 0 acc s start (fun row acc s _ bound held =>
    wp_mono (wp_countUp (inv row) columns 0 acc s held (fun column acc s _ inside known =>
      step row column acc s (by omega) (by omega) known))
      (fun acc t done => turn row acc t (by rwa [Nat.zero_add] at done)) (fun _ _ stopped => stopped))
  rwa [Nat.zero_add] at outer

theorem wp_countDown {body : Nat → β → EStateM ε σ β} (inv : Nat → β → σ → Prop)
    (count : Nat) (acc : β) (s : σ) (start : inv count acc s)
    (step : ∀ i acc s, i < count → inv (i + 1) acc s → wp (body i acc) (inv i) bad s) :
    wp (countDown body count acc) (inv 0) bad s := by
  induction count generalizing acc s with
  | zero => simpa only [countDown, wp_pure] using start
  | succ count ih =>
    simp only [countDown, wp_bind]
    refine wp_mono (step count acc s (by omega) start) ?_ (fun _ _ stopped => stopped)
    intro acc t held
    exact ih acc t held (fun i acc s bound => step i acc s (by omega))

def Avoids (reason : ε) (program : EStateM ε σ α) : Prop := ∀ s, wp program (fun _ _ => True) (fun stop _ => stop ≠ reason) s

namespace Avoids
variable {reason : ε}

theorem pure (value : α) : Avoids reason (Pure.pure value : EStateM ε σ α) := fun _ => trivial

theorem bind {program : EStateM ε σ α} {next : α → EStateM ε σ β} (first : Avoids reason program)
    (later : ∀ value, Avoids reason (next value)) : Avoids reason (program >>= next) := by
  intro s
  rw [wp_bind]
  exact wp_mono (first s) (fun value t _ => later value t) (fun _ _ stopped => stopped)

theorem ite {condition : Prop} [Decidable condition] {first second : EStateM ε σ α} (taken : condition → Avoids reason first)
    (skipped : ¬condition → Avoids reason second) : Avoids reason (if condition then first else second) :=
  fun s => wp_ite (fun held => taken held s) (fun held => skipped held s)

theorem countUp {body : Nat → β → EStateM ε σ β} (turn : ∀ i acc, Avoids reason (body i acc)) (remaining index : Nat) (acc : β) :
    Avoids reason (Stateful.countUp body remaining index acc) := by
  induction remaining generalizing index acc with
  | zero => exact .pure acc
  | succ remaining ih => exact .bind (turn index acc) fun acc => ih (index + 1) acc

end Avoids

end PhyNspire.Lib.Stateful

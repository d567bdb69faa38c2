import PhyNspire.Exact.Runs

/-!
Programs over the rational operations. The live rationals of a context are a partial map
from addresses to the field of rationals, and a program that rents temporaries is judged
by what it did to the rationals outside them.
-/

namespace PhyNspire.Exact.Workspace
open Platform Lib Lib.Stateful Context Accounting Integer Arithmetic Euclid Rational Fractions RationalField Runs

variable {s t u : ExactContext} {value out : Bigrat} {temporaries outs : List Bigrat} {p q r : ℚ}
  {why : Status → Prop}

/-- The rational that a live value represents. -/
def holding (s : ExactContext) (value : Bigrat) : Option ℚ := do
  let n ← view s (.numerator value)
  let d ← view s (.denominator value)
  let r : ℚ := n / d
  if r.num = n ∧ (r.den : Int) = d then some r else none

theorem holding_iff : holding s value = some r ↔ Represents s value r := by
  constructor
  · intro held
    cases first : view s (.numerator value) with
    | none => simp [holding, first] at held
    | some n =>
      cases second : view s (.denominator value) with
      | none => simp [holding, first, second] at held
      | some d =>
        simp only [holding, first, second, Option.bind_eq_bind, Option.bind_some, Option.ite_none_right_eq_some,
          Option.some.injEq] at held
        obtain ⟨⟨top, bottom⟩, rfl⟩ := held
        exact ⟨by rw [first, top], by rw [second, bottom]⟩
  · intro represents
    have same : (r.num : ℚ) / ((r.den : Int) : ℚ) = r := by exact_mod_cast Rat.num_div_den r
    simp only [holding, represents.numerator, represents.denominator, Option.bind_eq_bind, Option.bind_some, same,
      and_self, if_true]

theorem holding_eq_none (absent : view s (.numerator value) = none) : holding s value = none := by
  simp only [holding, absent, Option.bind_eq_bind, Option.bind_none]

theorem mem_halves {handle : Handle} : handle ∈ halves outs ↔
    ∃ value ∈ outs, handle = .numerator value ∨ handle = .denominator value := by
  simp only [halves, List.mem_flatMap, List.mem_cons, List.not_mem_nil, or_false]

theorem halves_subset {others : List Bigrat} (included : outs ⊆ others) : halves outs ⊆ halves others := by
  intro handle member
  obtain ⟨value, inside, half⟩ := mem_halves.mp member
  exact mem_halves.mpr ⟨value, included inside, half⟩

theorem holding_within (within : Within (halves outs) s t) (outside : value ∉ outs) :
    holding t value = holding s value := by
  have numerator : Handle.numerator value ∉ halves outs := fun member => by
    obtain ⟨other, inside, half⟩ := mem_halves.mp member
    grind
  have denominator : Handle.denominator value ∉ halves outs := fun member => by
    obtain ⟨other, inside, half⟩ := mem_halves.mp member
    grind
  unfold holding
  rw [Within.view within numerator, Within.view within denominator]

theorem holding_unchanged (kept : Within [] s t) (value : Bigrat) : holding t value = holding s value :=
  holding_within (show Within (halves []) s t from kept) List.not_mem_nil

/-- The outputs hold the new values, and beside them only temporaries may have changed. -/
structure Produces (s : ExactContext) (temporaries outs : List Bigrat) (new : Bigrat → ℚ) (t : ExactContext) : Prop where
  valid : Valid t
  within : Within (halves (temporaries ++ outs)) s t
  results : ∀ value ∈ outs, holding t value = some (new value)

theorem Produces.of_writes (writes : WritesRat s out r t) : Produces s [] [out] (fun _ => r) t :=
  ⟨writes.valid, by simpa [halves] using writes.within, by simpa [holding_iff] using writes.result⟩

theorem Produces.holding {new : Bigrat → ℚ} (produces : Produces s [] outs new t) (value : Bigrat) :
    holding t value = if value ∈ outs then some (new value) else holding s value := by
  split
  · exact produces.results value (by assumption)
  · exact holding_within produces.within (by simpa using by assumption)

/-- Inside a program that began at `s`: the temporaries are its own, and all else is as it was. -/
structure Workspace (s : ExactContext) (temporaries : List Bigrat) (u : ExactContext) : Prop where
  valid : Valid u
  within : Within (halves temporaries) s u
  absent : ∀ value ∈ temporaries, view s (.numerator value) = none ∧ view s (.denominator value) = none
  live : ∀ value ∈ temporaries, ∃ p, holding u value = some p
  nodup : temporaries.Nodup

namespace Workspace

theorem start (valid : Valid s) : Workspace s [] s :=
  ⟨valid, .refl valid.toSound _, fun _ member => absurd member List.not_mem_nil,
    fun _ member => absurd member List.not_mem_nil, List.nodup_nil⟩

theorem outside (work : Workspace s temporaries u) (held : holding s value = some p) : value ∉ temporaries := by
  intro member
  rw [holding_eq_none (work.absent value member).1] at held
  cases held

theorem frame (work : Workspace s temporaries u) (held : holding s value = some p) : holding u value = some p := by
  rw [holding_within work.within (work.outside held), held]

theorem write (work : Workspace s temporaries u) {new : Bigrat → ℚ} (included : outs ⊆ temporaries)
    (produces : Produces u [] outs new t) : Workspace s temporaries t := by
  refine ⟨produces.valid, work.within.trans (produces.within.mono (halves_subset (by simpa using included))),
    work.absent, fun value member => ?_, work.nodup⟩
  rw [produces.holding]
  split
  · exact ⟨_, rfl⟩
  · exact work.live value member

theorem deliver (work : Workspace s temporaries u) {new : Bigrat → ℚ} (produces : Produces u [] outs new t) :
    Produces s temporaries outs new t :=
  ⟨produces.valid, (work.within.mono (halves_subset (by simp))).trans (produces.within.mono (halves_subset (by simp))),
    produces.results⟩

theorem abandon (work : Workspace s temporaries u) (kept : Within [] u t) : Within (halves temporaries) s t :=
  work.within.trans (kept.widen _)

end Workspace

theorem destroy_eq_closing (t : ExactContext) (temporary : Bigrat) :
    bigratDestroy temporary t = closing [.denominator temporary, .numerator temporary] t := rfl

theorem halves_cons (temporary : Bigrat) (rest : List Bigrat) :
    halves (temporary :: rest) = .numerator temporary :: .denominator temporary :: halves rest := rfl

theorem close_rational {rest : List Bigrat} {temporary : Bigrat}
    (absent : view s (.numerator temporary) = none ∧ view s (.denominator temporary) = none)
    (within : Within (halves (temporary :: rest)) s t) : Within (halves rest) s (bigratDestroy temporary t) := by
  rw [destroy_eq_closing]
  refine close_within (by simp [absent]) (within.mono ?_)
  rw [halves_cons]
  intro handle member
  simp only [List.mem_cons, List.mem_append, List.not_mem_nil, or_false] at member ⊢
  tauto

theorem Produces.close {new : Bigrat → ℚ} {temporary : Bigrat}
    (absent : view s (.numerator temporary) = none ∧ view s (.denominator temporary) = none)
    (live : ∀ value ∈ outs, ∃ p, Workspace.holding s value = some p)
    (produces : Produces s (temporary :: temporaries) outs new t) :
    Produces s temporaries outs new (bigratDestroy temporary t) := by
  have distinct : temporary ∉ outs := fun member => by
    obtain ⟨p, held⟩ := live temporary member
    rw [holding_eq_none absent.1] at held
    cases held
  have valid : Valid (bigratDestroy temporary t) := by
    rw [destroy_eq_closing]
    exact close_valid produces.valid
  refine ⟨valid, close_rational absent produces.within, fun value member => ?_⟩
  have closed : Within (halves [temporary]) t (bigratDestroy temporary t) := by
    rw [destroy_eq_closing]
    exact (closing_within _ produces.valid.toSound).mono (by simp [halves])
  rw [holding_within closed (by grind), produces.results value member]

theorem Workspace.open_rational {temporary : Bigrat} {v : ExactContext} (work : Workspace s temporaries u)
    (absent : view u (.numerator temporary) = none) (absent' : view u (.denominator temporary) = none)
    (valid_v : Valid v) (opened : Within [.denominator temporary, .numerator temporary] u v)
    (view_v : ∀ handle, view v handle = if handle = .numerator temporary then some 0
      else if handle = .denominator temporary then some 1 else view u handle) :
    Workspace s (temporary :: temporaries) v ∧
      ∀ value, Workspace.holding v value = if value = temporary then some 0 else Workspace.holding u value := by
  have opened' : Within (halves [temporary]) u v := opened.mono (by simp [halves])
  have fresh : temporary ∉ temporaries := fun inside => by
    obtain ⟨p, held⟩ := work.live temporary inside
    rw [holding_eq_none absent] at held
    cases held
  have missing : view s (.numerator temporary) = none ∧ view s (.denominator temporary) = none := by
    have numerator : Handle.numerator temporary ∉ halves temporaries := fun member => by
      obtain ⟨other, inside, half⟩ := mem_halves.mp member
      grind
    have denominator : Handle.denominator temporary ∉ halves temporaries := fun member => by
      obtain ⟨other, inside, half⟩ := mem_halves.mp member
      grind
    rw [← Within.view work.within numerator, ← Within.view work.within denominator]
    exact ⟨absent, absent'⟩
  have zero : holding v temporary = some 0 := by
    rw [holding_iff]
    exact ⟨by simp [view_v], by simp [view_v]⟩
  have views : ∀ value, holding v value = if value = temporary then some 0 else holding u value := by
    intro value
    split
    · subst value
      exact zero
    · exact holding_within opened' (by simpa using by assumption)
  refine ⟨⟨valid_v, ?_, ?_, ?_, List.nodup_cons.mpr ⟨fresh, work.nodup⟩⟩, views⟩
  · exact (work.within.mono (halves_subset (by simp))).trans (opened'.mono (halves_subset (by simp)))
  · simpa [missing] using work.absent
  · intro value member
    rw [views]
    split
    · exact ⟨0, rfl⟩
    · exact work.live value ((List.mem_cons.mp member).resolve_left (by assumption))

theorem wp_rent {α : Type} {body : Bigrat → ExactM α} {fact : α → Prop} {new : α → Bigrat → ℚ}
    (work : Workspace s temporaries u) (exhausted : ∀ stop, Exhausted stop → why stop)
    (live : ∀ value ∈ outs, ∃ p, holding s value = some p)
    (inner : ∀ temporary v, Workspace s (temporary :: temporaries) v →
      (∀ value, holding v value = if value = temporary then some 0 else holding u value) →
      wp (body temporary)
        (fun result t => fact result ∧ Produces s (temporary :: temporaries) outs (new result) t)
        (fun stop t => why stop ∧ Within (halves (temporary :: temporaries)) s t) v) :
    wp (withRational body) (fun result t => fact result ∧ Produces s temporaries outs (new result) t)
      (fun stop t => why stop ∧ Within (halves temporaries) s t) u := by
  refine wp_withRational work.valid (fun stop t stopped kept => ⟨exhausted stop stopped, work.abandon kept⟩) ?_
  intro temporary v absent absent' valid_v opened view_v
  obtain ⟨work', views⟩ := work.open_rational absent absent' valid_v opened view_v
  have missing := work'.absent temporary (by simp)
  refine wp_mono (inner temporary v work' views) ?_ ?_
  · rintro result t ⟨held, produces⟩
    exact ⟨held, produces.close missing live⟩
  · rintro stop t ⟨stopped, within⟩
    exact ⟨stopped, close_rational missing within⟩

theorem wp_work {body : Bigrat → ExactM Unit} {new : Bigrat → ℚ}
    (work : Workspace s temporaries u) (exhausted : ∀ stop, Exhausted stop → why stop)
    (live : ∀ value ∈ outs, ∃ p, holding s value = some p)
    (inner : ∀ temporary v, Workspace s (temporary :: temporaries) v →
      (∀ value, holding v value = if value = temporary then some 0 else holding u value) →
      wp (body temporary) (fun _ t => Produces s (temporary :: temporaries) outs new t)
        (fun stop t => why stop ∧ Within (halves (temporary :: temporaries)) s t) v) :
    wp (withRational body) (fun _ t => Produces s temporaries outs new t)
      (fun stop t => why stop ∧ Within (halves temporaries) s t) u :=
  wp_good (wp_rent work exhausted live fun temporary v work' views =>
      wp_good (inner temporary v work' views) (fun _ _ done => ⟨trivial, done⟩))
    (fun _ _ done => done.2)

theorem wp_compute {α : Type} {program : ExactM Unit} {next : ExactM α} {good : α → ExactContext → Prop}
    (work : Workspace s temporaries u) (exhausted : ∀ stop, Exhausted stop → why stop) (member : out ∈ temporaries)
    (spec : ∀ z, Represents u out z →
      wp program (fun _ t => WritesRat u out r t) (fun stop t => Exhausted stop ∧ Within [] u t) u)
    (rest : ∀ t, Workspace s temporaries t →
      (∀ value, holding t value = if value = out then some r else holding u value) →
      wp next good (fun stop t => why stop ∧ Within (halves temporaries) s t) t) :
    wp (program >>= fun _ => next) good (fun stop t => why stop ∧ Within (halves temporaries) s t) u := by
  obtain ⟨z, live⟩ := work.live out member
  rw [wp_bind]
  refine wp_mono (spec z (holding_iff.mp live)) (fun _ t writes => ?_) ?_
  · have produces := Produces.of_writes writes
    exact rest t (work.write (by simpa using member) produces) (by simpa using produces.holding)
  · rintro stop t ⟨stopped, kept⟩
    exact ⟨exhausted stop stopped, work.abandon kept⟩

theorem wp_inspect {α β : Type} {program : ExactM β} {next : β → ExactM α} {good : α → ExactContext → Prop}
    {known : β → Prop} (work : Workspace s temporaries u) (exhausted : ∀ stop, Exhausted stop → why stop)
    (spec : wp program (fun result t => known result ∧ Valid t ∧ Within [] u t)
      (fun stop t => Exhausted stop ∧ Within [] u t) u)
    (rest : ∀ result t, known result → Workspace s temporaries t → (∀ value, holding t value = holding u value) →
      wp (next result) good (fun stop t => why stop ∧ Within (halves temporaries) s t) t) :
    wp (program >>= next) good (fun stop t => why stop ∧ Within (halves temporaries) s t) u := by
  rw [wp_bind]
  refine wp_mono spec ?_ ?_
  · rintro result t ⟨held, valid, kept⟩
    have unchanged := holding_unchanged kept
    refine rest result t held ⟨valid, work.abandon kept, work.absent, fun value member => ?_, work.nodup⟩ unchanged
    rw [unchanged]
    exact work.live value member
  · rintro stop t ⟨stopped, kept⟩
    exact ⟨exhausted stop stopped, work.abandon kept⟩

theorem set_integer (valid : Valid s) (live : Represents s value p) (integer : Int64) :
    wp (bigratSetI64 value integer 1) (fun _ t => WritesRat s value (integer.toInt : ℚ) t)
      (fun stop t => Exhausted stop ∧ Within [] s t) s := by
  have one : (1 : Int64).toInt = 1 := by decide
  refine wp_mono (bigratSetI64_spec valid live integer 1) ?_ ?_
  · rintro _ t ⟨_, writes⟩
    rwa [one, Int.cast_one, div_one] at writes
  · rintro stop t ⟨exhausted | ⟨_, zero⟩, kept⟩
    · exact ⟨exhausted, kept⟩
    · rw [one] at zero
      cases zero

theorem divide_nonzero {left right : Bigrat} (valid : Valid s) (first : Represents s left p)
    (second : Represents s right q) (live : Represents s out r) (nonzero : q ≠ 0) :
    wp (bigratDivide left right out) (fun _ t => WritesRat s out (p / q) t)
      (fun stop t => Exhausted stop ∧ Within [] s t) s := by
  refine wp_mono (bigratDivide_spec valid first second live) (fun _ t done => done.2) ?_
  rintro stop t ⟨exhausted | ⟨_, zero⟩, kept⟩
  · exact ⟨exhausted, kept⟩
  · exact absurd zero nonzero

theorem reciprocal_nonzero {source : Bigrat} (valid : Valid s) (first : Represents s source p)
    (live : Represents s out r) (nonzero : p ≠ 0) :
    wp (bigratReciprocal source out) (fun _ t => WritesRat s out p⁻¹ t)
      (fun stop t => Exhausted stop ∧ Within [] s t) s := by
  refine wp_mono (bigratReciprocal_spec valid first live) (fun _ t done => done.2) ?_
  rintro stop t ⟨exhausted | ⟨_, zero⟩, kept⟩
  · exact ⟨exhausted, kept⟩
  · exact absurd zero nonzero

end PhyNspire.Exact.Workspace

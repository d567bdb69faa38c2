import PhyNspire.Exact.Arithmetic

/-!
The public operations with several temporaries: powers, truncating division, exact
division, the greatest common divisor, and the remainder in one machine word.
-/

namespace PhyNspire.Exact.Euclid
open Platform Lib Lib.Stateful Context Accounting Integer Magnitude Carry Division Arithmetic
open Limbs (value digit)

variable {s : ExactContext} {left right out base quotient remainder dividend divisor : Handle} {x y z : Int}

variable {α : Type} {good : α → ExactContext → Prop}

theorem wp_scratch {body : Handle → ExactM α} {bad : Status → ExactContext → Prop} (valid : Valid s)
    (inner : ∀ temporary u, view s temporary = none → Writes s temporary 0 u →
      wp (body temporary) (fun result t => good result (bigintDestroy temporary t))
        (fun stop t => bad stop (bigintDestroy temporary t)) u) :
    wp (withTemporary body) good bad s := by
  refine wp_withTemporary valid.toSound fun temporary u absent opened empty => ?_
  refine inner temporary u (view_eq_none.mpr absent) (.of_holds valid opened ?_)
  exact ⟨_, empty, canonical_empty _, by simp [toInt, Bigint.empty]⟩

def closing (temporaries : List Handle) (t : ExactContext) : ExactContext :=
  temporaries.foldl (fun t temporary => bigintDestroy temporary t) t

variable {t : ExactContext}

theorem closing_within (temporaries : List Handle) (sound : Sound t) :
    Within temporaries t (closing temporaries t) := by
  induction temporaries generalizing t with
  | nil => exact .refl sound _
  | cons temporary rest ih =>
    have first := bigintDestroy_within sound temporary
    exact (first.mono (by simp)).trans ((ih first.sound).mono (by simp))

variable {temporaries : List Handle}

theorem closing_lookup {temporary : Handle} (member : temporary ∈ temporaries)
    (sound : Sound t) : (closing temporaries t).lookup temporary = none := by
  induction temporaries generalizing t with
  | nil => simp at member
  | cons first rest ih =>
    have destroyed := bigintDestroy_within sound first
    by_cases later : temporary ∈ rest
    · exact ih later destroyed.sound
    · have same : temporary = first := by simpa [later] using member
      subst same
      exact ((closing_within rest destroyed.sound).others temporary later).trans (bigintDestroy_lookup temporary)

theorem close_within {temporaries outputs : List Handle} {t : ExactContext}
    (absent : ∀ temporary ∈ temporaries, view s temporary = none) (within : Within (temporaries ++ outputs) s t) :
    Within outputs s (closing temporaries t) := by
  have closed := closing_within temporaries within.sound
  refine ⟨within.toSteady.trans closed.toSteady, fun handle outside => ?_⟩
  by_cases member : handle ∈ temporaries
  · rw [closing_lookup member within.sound, view_eq_none.mp (absent handle member)]
  · rw [closed.others handle member, within.others handle (by simp [member, outside])]

variable {handle : Handle}

theorem close_view (sound : Sound t)
    (outside : handle ∉ temporaries) : view (closing temporaries t) handle = view t handle :=
  Within.view (closing_within temporaries sound) outside

theorem close_valid {temporaries : List Handle} {t : ExactContext} (valid : Valid t) :
    Valid (closing temporaries t) := by
  refine valid.of_within (closing_within temporaries valid.toSound) ?_
  intro handle member b found
  rw [closing_lookup member valid.toSound] at found
  cases found

theorem Within.ended {opened : List Handle} (within : Within opened s t) :
    Within opened s (exactOperationEnd t) :=
  within.trans ((exactOperationEnd_within within.sound).widen _)

theorem Valid.ended (valid : Valid s) : Valid (exactOperationEnd s) :=
  valid.unchanged (exactOperationEnd_within valid.toSound)

theorem close_abort (absent : ∀ temporary ∈ temporaries, view s temporary = none) (within : Within temporaries s t) :
    Within [] s (exactOperationEnd (closing temporaries t)) :=
  Within.ended (close_within absent (by simpa using within))

variable {n : Int} {u : ExactContext}

theorem wp_step {program : ExactM Unit} {next : ExactM α} {why : Status → Prop}
    (within : Within temporaries s u) (member : handle ∈ temporaries)
    (spec : wp program (fun _ t => Writes u handle n t) (fun stop t => why stop ∧ Within [] u t) u)
    (rest : ∀ t, Valid t → Within temporaries s t →
      (∀ other, view t other = if other = handle then some n else view u other) →
      wp next good (fun stop t => why stop ∧ Within temporaries s t) t) :
    wp (program >>= fun _ => next) good (fun stop t => why stop ∧ Within temporaries s t) u := by
  rw [wp_bind]
  refine wp_mono spec ?_ (fun _ _ stopped => ⟨stopped.1, within.trans (stopped.2.widen _)⟩)
  intro _ t writes
  exact rest t writes.valid (within.trans (writes.within.mono (by simpa using member))) writes.view

theorem wp_fill {program : ExactM Unit} {next : ExactM α} {why : Status → Prop}
    (valid : Valid u) (within : Within temporaries s u) (member : handle ∈ temporaries)
    (spec : wp program (fun _ t => Within [handle] u t ∧ Holds t handle n)
      (fun stop t => why stop ∧ Within [] u t) u)
    (rest : ∀ t, Valid t → Within temporaries s t →
      (∀ other, view t other = if other = handle then some n else view u other) →
      wp next good (fun stop t => why stop ∧ Within temporaries s t) t) :
    wp (program >>= fun _ => next) good (fun stop t => why stop ∧ Within temporaries s t) u :=
  wp_step within member (wp_good spec (fun _ _ done => .of_holds valid done.1 done.2))
    rest

/-- The payloads of two live handles change places. -/
structure Swaps (s : ExactContext) (left right : Handle) (x y : Int) (t : ExactContext) : Prop where
  valid : Valid t
  within : Within [left, right] s t
  left_result : view t left = some y
  right_result : view t right = some x

theorem swap_spec (valid : Valid s) (first : view s left = some x) (second : view s right = some y) :
    Swaps s left right x y (bigintSwapPayload left right s) := by
  obtain ⟨a, found, canonical, denotes⟩ := valid.holds first
  obtain ⟨b, found', canonical', denotes'⟩ := valid.holds second
  obtain ⟨within, now, now'⟩ := swap_within valid.toSound found found'
  refine ⟨valid.of_within within ?_, within, Holds.view ⟨b, now, canonical', denotes'⟩,
    Holds.view ⟨a, now', canonical, denotes⟩⟩
  intro handle member c found''
  simp only [List.mem_cons, List.not_mem_nil, or_false] at member
  rcases member with rfl | rfl
  · rw [now] at found''
    cases found''
    exact canonical'
  · rw [now'] at found''
    cases found''
    exact canonical

theorem Swaps.view (swaps : Swaps s left right x y t) (handle : Handle) :
    Arithmetic.view t handle =
      if handle = left then some y else if handle = right then some x else Arithmetic.view s handle := by
  by_cases first : handle = left
  · rw [if_pos first, first, swaps.left_result]
  · rw [if_neg first]
    by_cases second : handle = right
    · rw [if_pos second, second, swaps.right_result]
    · rw [if_neg second, Within.view swaps.within (by simp [first, second])]

theorem publish {result : Handle}
    (absent : ∀ temporary ∈ temporaries, view s temporary = none) (live : view s out = some z)
    (valid : Valid t) (within : Within temporaries s t) (member : result ∈ temporaries)
    (holds : view t result = some n) :
    Writes s out n (exactOperationEnd (closing temporaries (bigintSwapPayload out result t))) := by
  have outside : out ∉ temporaries := fun inside => by
    rw [absent out inside] at live
    cases live
  have swapped := swap_spec valid ((Within.view within outside).trans live) holds
  have all : Within (temporaries ++ [out]) s (bigintSwapPayload out result t) :=
    (within.mono (by simp)).trans (swapped.within.mono (by simp [member]))
  exact ⟨Valid.ended (close_valid swapped.valid), Within.ended (close_within absent all),
    (close_view swapped.valid.toSound outside).trans swapped.left_result⟩

theorem multiplyWhen_spec (condition : Bool) (valid : Valid s) (first : view s left = some x)
    (second : view s right = some y) (target : view s out = some z) :
    wp (multiplyWhen condition left right out)
      (fun _ t => Writes s out (if condition then x * y else z) t)
      (fun stop t => Exhausted stop ∧ Within [out] s t) s := by
  cases condition with
  | true =>
    exact wp_mono (bigintMultiply_spec valid first second target) (fun _ _ done => done)
      (fun _ _ stopped => ⟨stopped.1, stopped.2.widen _⟩)
  | false => exact ⟨valid, .refl valid.toSound _, target⟩

/-- What the square-and-multiply loop still has to do is a power of its factor. -/
theorem powLoop_spec {result factor : Handle} (distinct : factor ≠ result) (turns remaining : Nat)
    (enough : remaining < 2 ^ turns) {a b : Int} (valid : Valid s) (first : view s result = some a)
    (second : view s factor = some b) :
    wp (powLoop result factor turns remaining)
      (fun _ t => Valid t ∧ Within [result, factor] s t ∧ view t result = some (a * b ^ remaining))
      (fun stop t => Exhausted stop ∧ Within [result, factor] s t) s := by
  have left_open : [result] ⊆ [result, factor] := by simp
  have right_open : [factor] ⊆ [result, factor] := by simp
  induction turns generalizing remaining a b s with
  | zero =>
    have none : remaining = 0 := by omega
    refine ⟨valid, .refl valid.toSound _, ?_⟩
    rw [none, pow_zero, mul_one, first]
  | succ turns ih =>
    rw [powLoop]
    apply wp_ite
    · intro _
      simp only [wp_bind, Nat.and_one_is_mod, Nat.shiftRight_eq_div_pow, pow_one]
      refine wp_mono (multiplyWhen_spec _ valid first second first) ?_
        (fun _ _ stopped => ⟨stopped.1, stopped.2.mono left_open⟩)
      intro _ t multiplied
      have second' : view t factor = some b := by rw [multiplied.view, if_neg distinct, second]
      refine wp_mono (multiplyWhen_spec _ multiplied.valid second' second' second') ?_
        (fun _ _ stopped => ⟨stopped.1, (multiplied.within.mono left_open).trans (stopped.2.mono right_open)⟩)
      intro _ u squared
      have first' : view u result = some (if decide (remaining % 2 ≠ 0) then a * b else a) := by
        rw [squared.view, if_neg distinct.symm, multiplied.result]
      have within : Within [result, factor] s u :=
        (multiplied.within.mono left_open).trans (squared.within.mono right_open)
      refine wp_mono (ih (remaining / 2) (by omega) squared.valid first' squared.result) ?_
        (fun _ _ stopped => ⟨stopped.1, within.trans stopped.2⟩)
      rintro _ v ⟨valid', rest, power⟩
      refine ⟨valid', within.trans rest, ?_⟩
      rw [power]
      refine congrArg some ?_
      have halves := Nat.div_add_mod remaining 2
      by_cases last : remaining / 2 = 0
      · have one : remaining = 1 := by omega
        simp [one]
      · by_cases odd : remaining % 2 = 0
        · rw [odd, Nat.add_zero] at halves
          conv_rhs => rw [← halves, pow_mul, pow_two]
          simp [odd, last]
        · have one : remaining % 2 = 1 := by omega
          rw [one] at halves
          conv_rhs => rw [← halves, pow_add, pow_mul, pow_two, pow_one]
          simp only [one, last, ne_eq, one_ne_zero, not_false_eq_true, decide_true, ↓reduceIte]
          ring
    · intro none
      rw [not_not] at none
      refine ⟨valid, .refl valid.toSound _, ?_⟩
      rw [none, pow_zero, mul_one, first]

theorem bigintPowU32_spec (valid : Valid s) (first : view s base = some x) (target : view s out = some z)
    (exponent : UInt32) :
    wp (bigintPowU32 base exponent out) (fun _ t => Writes s out (x ^ exponent.toNat) t)
      (fun stop t => Exhausted stop ∧ Within [] s t) s := by
  unfold bigintPowU32
  simp only [wp_bind, wp_get, valid.compatible2 first target, Bool.not_true, Bool.false_eq_true, ↓reduceIte]
  refine wp_operation valid.toSound fun r begun => ?_
  refine wp_scratch (valid.unchanged begun) fun result u fresh_result opened => ?_
  refine wp_scratch opened.valid fun factor v fresh_factor opened' => ?_
  have views : ∀ handle, view r handle = view s handle := fun _ => Within.view begun List.not_mem_nil
  have views' := opened.view
  have views'' := opened'.view
  have absent : ∀ temporary ∈ [factor, result], view s temporary = none := by grind
  have apart : factor ≠ result ∧ base ≠ result ∧ base ≠ factor ∧ out ≠ result ∧ out ≠ factor := by grind
  obtain ⟨distinct, base_result, base_factor, out_result, out_factor⟩ := apart
  have within : Within [factor, result] s v := by
    refine (begun.widen _).trans ((opened.within.mono ?_).trans (opened'.within.mono ?_)) <;> simp
  refine wp_mono (?_ : wp _ (fun _ t => Writes s out (x ^ exponent.toNat)
      (exactOperationEnd (closing [factor, result] t)))
    (fun stop t => Exhausted stop ∧ Within [factor, result] s t) v) (fun _ _ done => done)
    (fun _ _ stopped => ⟨stopped.1, close_abort absent stopped.2⟩)
  refine wp_fill opened'.valid within (by simp) (bigintAssignU64_spec opened'.valid.toSound
    (opened'.valid.holds (n := 0) (by grind)) (show 1 < 2 ^ 64 by decide) (.inr (.inl rfl))) ?_
  intro w valid_w within_w view_w
  refine wp_fill valid_w within_w (by simp) (copyPayload_spec valid_w.toSound
    (valid_w.holds (n := x) (by grind)) (valid_w.holds (n := 0) (by grind)) base_factor false) ?_
  intro t valid_t within_t view_t
  simp only [wp_bind, wp_modify]
  refine wp_mono (powLoop_spec distinct 32 _ exponent.toNat_lt valid_t (a := 1) (b := x) (by grind) (by grind))
    ?_ (fun _ _ stopped => ⟨stopped.1, within_t.trans (stopped.2.mono (by simp))⟩)
  rintro _ last ⟨valid_last, rest, power⟩
  rw [one_mul] at power
  exact publish absent target valid_last (within_t.trans (rest.mono (by simp))) (by simp) power

theorem tdiv_of_magnitudes (x y : Int) (nonzero : y ≠ 0) :
    x.tdiv y = (if x.sign = y.sign then 1 else -1) * ((x.natAbs / y.natAbs : Nat) : Int) ∧
      x.tmod y = x.sign * ((x.natAbs % y.natAbs : Nat) : Int) := by
  have magnitudes : ∀ n m : Nat, (n : Int).tdiv m = (n / m : Nat) ∧ (n : Int).tmod m = (n % m : Nat) :=
    fun n m => ⟨Int.ofNat_tdiv n m |>.symm, Int.ofNat_tmod n m |>.symm⟩
  obtain ⟨quotient, remainder⟩ := magnitudes x.natAbs y.natAbs
  rcases lt_trichotomy x 0 with negative | rfl | positive
  · have left : x = -(x.natAbs : Int) := by omega
    rcases lt_or_gt_of_ne nonzero with negative' | positive'
    · have right : y = -(y.natAbs : Int) := by omega
      rw [Int.sign_eq_neg_one_of_neg negative, Int.sign_eq_neg_one_of_neg negative', if_pos rfl, one_mul,
        ← quotient, ← remainder]
      constructor
      · conv_lhs => rw [left, right, Int.neg_tdiv, Int.tdiv_neg, neg_neg]
      · conv_lhs => rw [left, right, Int.neg_tmod, Int.tmod_neg]
        rw [neg_one_mul]
    · have right : y = (y.natAbs : Int) := by omega
      rw [Int.sign_eq_neg_one_of_neg negative, Int.sign_eq_one_of_pos positive', if_neg (by decide),
        ← quotient, ← remainder]
      constructor
      · conv_lhs => rw [left, right, Int.neg_tdiv]
        rw [neg_one_mul]
      · conv_lhs => rw [left, right, Int.neg_tmod]
        rw [neg_one_mul]
  · simp
  · have left : x = (x.natAbs : Int) := by omega
    rcases lt_or_gt_of_ne nonzero with negative' | positive'
    · have right : y = -(y.natAbs : Int) := by omega
      rw [Int.sign_eq_one_of_pos positive, Int.sign_eq_neg_one_of_neg negative', if_neg (by decide), one_mul,
        ← quotient, ← remainder]
      constructor
      · conv_lhs => rw [left, right, Int.tdiv_neg]
        rw [neg_one_mul]
      · conv_lhs => rw [left, right, Int.tmod_neg]
    · have right : y = (y.natAbs : Int) := by omega
      rw [Int.sign_eq_one_of_pos positive, Int.sign_eq_one_of_pos positive', if_pos rfl, one_mul, one_mul,
        ← quotient, ← remainder]
      constructor
      · conv_lhs => rw [left, right]
      · conv_lhs => rw [left, right]

theorem bigintDivmod_spec (valid : Valid s) (first : view s dividend = some x) (second : view s divisor = some y)
    (third : view s quotient = some z) {z' : Int} (fourth : view s remainder = some z')
    (distinct : quotient ≠ remainder) :
    wp (bigintDivmod dividend divisor quotient remainder)
      (fun _ t => y ≠ 0 ∧ Valid t ∧ Within [quotient, remainder] s t ∧
        view t quotient = some (x.tdiv y) ∧ view t remainder = some (x.tmod y))
      (fun stop t => (Exhausted stop ∨ stop = .domain ∧ y = 0) ∧ Within [] s t) s := by
  obtain ⟨canonical, denotes⟩ := (valid.holds second).payload
  unfold bigintDivmod
  simp only [wp_bind, wp_get, valid.compatible3 first second third, valid.shallow fourth, distinct, decide_false,
    Bool.not_true, Bool.or_self, Bool.false_eq_true, ↓reduceIte, canonical.count_eq_zero, denotes]
  apply wp_ite
  · intro zero
    exact ⟨.inr ⟨rfl, zero⟩, .refl valid.toSound _⟩
  intro nonzero
  refine wp_operation valid.toSound fun r begun => ?_
  refine wp_scratch (valid.unchanged begun) fun q u fresh_q opened => ?_
  refine wp_scratch opened.valid fun m v fresh_m opened' => ?_
  have views : ∀ handle, view r handle = view s handle := fun _ => Within.view begun List.not_mem_nil
  have views' := opened.view
  have views'' := opened'.view
  have absent : ∀ temporary ∈ [m, q], view s temporary = none := by grind
  have within : Within [m, q] s v := by
    refine (begun.widen _).trans ((opened.within.mono ?_).trans (opened'.within.mono ?_)) <;> simp
  have valid_v := opened'.valid
  refine wp_mono (?_ : wp _ (fun _ t => y ≠ 0 ∧ Valid (exactOperationEnd (closing [m, q] t)) ∧
      Within [quotient, remainder] s (exactOperationEnd (closing [m, q] t)) ∧
      view (exactOperationEnd (closing [m, q] t)) quotient = some (x.tdiv y) ∧
      view (exactOperationEnd (closing [m, q] t)) remainder = some (x.tmod y))
    (fun stop t => Exhausted stop ∧ Within [m, q] s t) v) (fun _ _ done => done)
    (fun _ _ stopped => ⟨.inl stopped.1, close_abort absent stopped.2⟩)
  rw [wp_bind]
  refine wp_mono (divmodAbs_spec valid_v.toSound (valid_v.holds (n := x) (by grind))
    (valid_v.holds (n := y) (by grind)) (valid_v.holds (n := 0) (by grind)) (valid_v.holds (n := 0) (by grind))
    nonzero (by grind) (by grind) (by grind)) ?_
    (fun _ _ stopped => ⟨stopped.1, within.trans (stopped.2.mono (by simp))⟩)
  rintro _ w ⟨divided, quotient_w, remainder_w⟩
  have views_w : ∀ other, other ∉ [q, m] → view w other = view v other := fun _ => Within.view divided
  have within_w : Within [m, q] s w := within.trans (divided.mono (by simp))
  have valid_w : Valid w := by
    refine valid_v.of_within divided fun handle member b found => ?_
    simp only [List.mem_cons, List.not_mem_nil, or_false] at member
    rcases member with rfl | rfl
    · obtain ⟨c, found', canonical', _⟩ := quotient_w
      rw [found'] at found
      cases found
      exact canonical'
    · obtain ⟨c, found', canonical', _⟩ := remainder_w
      rw [found'] at found
      cases found
      exact canonical'
  have quotient_view := Holds.view quotient_w
  have remainder_view := Holds.view remainder_w
  rw [wp_bind, wp_get]
  obtain ⟨canonical_x, denotes_x⟩ := (valid_w.holds (n := x) (show view w dividend = some x by grind)).payload
  obtain ⟨canonical_y, denotes_y⟩ := (valid_w.holds (n := y) (show view w divisor = some y by grind)).payload
  simp only [canonical_x.sign_eq, denotes_x, canonical_y.sign_eq, denotes_y]
  obtain ⟨quotient_eq, remainder_eq⟩ := tdiv_of_magnitudes x y nonzero
  refine wp_fill valid_w within_w (by simp) (resign_spec valid_w.toSound quotient_w (fun _ _ _ => rfl)
    fun _ => by split <;> simp) ?_
  intro t valid_t within_t view_t
  refine wp_fill valid_t within_t (by simp) (resign_spec valid_t.toSound
    (valid_t.holds (n := (x.natAbs % y.natAbs : Nat)) (by grind)) (fun _ _ _ => rfl) fun some => ?_) ?_
  · refine sign_cases ?_
    rintro rfl
    simp at some
  intro l valid_l within_l view_l
  rw [Int.natAbs_natCast, ← quotient_eq] at view_t
  rw [Int.natAbs_natCast, ← remainder_eq] at view_l
  simp only [wp_bind, wp_modify]
  have swapped := swap_spec valid_l (show view l quotient = some z by grind) (show view l q = some (x.tdiv y) by grind)
  have swapped_view := swapped.view
  have swapped' := swap_spec swapped.valid (show view _ remainder = some z' by grind)
    (show view _ m = some (x.tmod y) by grind)
  have swapped_view' := swapped'.view
  have outside : quotient ∉ [m, q] ∧ remainder ∉ [m, q] := by grind
  have all : Within ([m, q] ++ [quotient, remainder]) s
      (bigintSwapPayload remainder m (bigintSwapPayload quotient q l)) :=
    ((within_l.mono (by simp)).trans (swapped.within.mono (by simp))).trans (swapped'.within.mono (by simp))
  exact ⟨nonzero, Valid.ended (close_valid swapped'.valid), Within.ended (close_within absent all),
    (close_view swapped'.valid.toSound outside.1).trans (by grind),
    (close_view swapped'.valid.toSound outside.2).trans (by grind)⟩

theorem bigintDivideExact_spec (valid : Valid s) (first : view s dividend = some x)
    (second : view s divisor = some y) (third : view s out = some z) :
    wp (bigintDivideExact dividend divisor out)
      (fun _ t => y ≠ 0 ∧ y ∣ x ∧ Writes s out (x / y) t)
      (fun stop t => (Exhausted stop ∨ stop = .domain ∧ (y = 0 ∨ ¬y ∣ x)) ∧ Within [] s t) s := by
  unfold bigintDivideExact
  simp only [wp_bind, wp_get, valid.compatible3 first second third, Bool.not_true, Bool.false_eq_true, ↓reduceIte]
  refine wp_operation valid.toSound fun r begun => ?_
  refine wp_scratch (valid.unchanged begun) fun q u fresh_q opened => ?_
  refine wp_scratch opened.valid fun m v fresh_m opened' => ?_
  have views : ∀ handle, view r handle = view s handle := fun _ => Within.view begun List.not_mem_nil
  have views' := opened.view
  have views'' := opened'.view
  have absent : ∀ temporary ∈ [m, q], view s temporary = none := by grind
  have within : Within [m, q] s v := by
    refine (begun.widen _).trans ((opened.within.mono ?_).trans (opened'.within.mono ?_)) <;> simp
  refine wp_mono (?_ : wp _
    (fun _ t => y ≠ 0 ∧ y ∣ x ∧ Writes s out (x / y) (exactOperationEnd (closing [m, q] t)))
    (fun stop t => (Exhausted stop ∨ stop = .domain ∧ (y = 0 ∨ ¬y ∣ x)) ∧ Within [m, q] s t) v)
    (fun _ _ done => done) (fun _ _ stopped => ⟨stopped.1, close_abort absent stopped.2⟩)
  rw [wp_bind]
  refine wp_mono (bigintDivmod_spec opened'.valid (x := x) (y := y) (z := 0) (by grind) (by grind) (by grind)
    (show view v m = some 0 by grind) (by grind)) ?_ ?_
  · rintro _ w ⟨nonzero, valid_w, divided, quotient_w, remainder_w⟩
    have within_w := within.trans (divided.mono (by simp))
    obtain ⟨canonical, denotes⟩ := (valid_w.holds remainder_w).payload
    simp only [wp_bind, wp_get, canonical.count_eq_zero, denotes, Ne, Int.dvd_iff_tmod_eq_zero.symm]
    apply wp_ite
    · intro inexact
      exact ⟨.inr ⟨rfl, .inr inexact⟩, within_w⟩
    · intro exact_
      rw [not_not] at exact_
      refine ⟨nonzero, exact_, ?_⟩
      rw [← Int.tdiv_eq_ediv_of_dvd exact_]
      exact publish absent third valid_w within_w (by simp) quotient_w
  · rintro stop w ⟨why, kept⟩
    refine ⟨why.imp_right fun domain => ⟨domain.1, .inl domain.2⟩, within.trans (kept.widen _)⟩

theorem euclid_turn {a b quotient remainder : Handle} (apart : [a, b, quotient, remainder].Nodup) {m k l : Int}
    (first : view s a = some n) (second : view s b = some m) (valid : Valid t)
    (divided : Within [quotient, remainder] s t) (third : view t quotient = some k)
    (fourth : view t remainder = some l)
    (after : u = bigintSwapPayload b remainder (bigintSwapPayload a b t)) :
    Valid u ∧ Within [a, b, quotient, remainder] s u ∧ view u a = some m ∧ view u b = some l ∧
      view u quotient = some k ∧ view u remainder = some n := by
  have distinct : a ≠ b ∧ a ≠ quotient ∧ a ≠ remainder ∧ b ≠ quotient ∧ b ≠ remainder ∧ quotient ≠ remainder := by
    simp only [List.nodup_cons, List.mem_cons, List.not_mem_nil, or_false, not_or] at apart
    tauto
  have view_t : ∀ other, other ∉ [quotient, remainder] → view t other = view s other := fun _ =>
    Within.view divided
  have swapped := swap_spec valid (show view t a = some n by grind) (show view t b = some m by grind)
  have view_swapped := swapped.view
  have swapped' := swap_spec swapped.valid (show view _ b = some n by grind) (show view _ remainder = some l by grind)
  have view_swapped' := swapped'.view
  rw [← after] at swapped' view_swapped'
  refine ⟨swapped'.valid, ?_, by grind, swapped'.left_result, by grind, swapped'.right_result⟩
  exact ((divided.mono (by simp)).trans (swapped.within.mono (by simp))).trans (swapped'.within.mono (by simp))

/-- Euclid's loop on magnitudes; the remainder bounds the turns still needed. -/
theorem gcdLoop_spec {a b quotient remainder : Handle} (apart : [a, b, quotient, remainder].Nodup)
    (turns : Nat) {n m : Nat} {p q : Int} (enough : m ≤ turns) (valid : Valid s) (first : view s a = some (n : Int))
    (second : view s b = some (m : Int)) (third : view s quotient = some p) (fourth : view s remainder = some q) :
    wp (gcdLoop a b quotient remainder turns)
      (fun _ t => Valid t ∧ Within [a, b, quotient, remainder] s t ∧ view t a = some (Nat.gcd n m : Int))
      (fun stop t => Exhausted stop ∧ Within [a, b, quotient, remainder] s t) s := by
  have distinct : quotient ≠ remainder := by
    simp only [List.nodup_cons, List.mem_cons, List.not_mem_nil, or_false, not_or] at apart
    tauto
  have finished : ∀ {s : ExactContext} {n m : Nat}, Valid s → view s a = some (n : Int) → m = 0 →
      Valid s ∧ Within [a, b, quotient, remainder] s s ∧ view s a = some (Nat.gcd n m : Int) := by
    rintro s n _ valid first rfl
    exact ⟨valid, .refl valid.toSound _, by rw [Nat.gcd_zero_right, first]⟩
  induction turns generalizing n m p q s with
  | zero => exact finished valid first (by omega)
  | succ turns ih =>
    obtain ⟨canonical, denotes⟩ := (valid.holds second).payload
    simp only [gcdLoop, wp_bind, wp_get, ne_eq, canonical.count_eq_zero, denotes, Int.natCast_eq_zero]
    apply wp_ite
    · intro nonzero
      simp only [wp_bind, wp_modify]
      refine wp_mono (bigintDivmod_spec valid first second third fourth distinct) ?_ ?_
      · rintro _ t ⟨_, valid_t, divided, quotient_t, remainder_t⟩
        obtain ⟨valid_u, within, a_u, b_u, quotient_u, remainder_u⟩ :=
          euclid_turn apart first second valid_t divided quotient_t remainder_t rfl
        rw [← Int.ofNat_tmod] at b_u
        have smaller := Nat.mod_lt n (Nat.pos_of_ne_zero nonzero)
        refine wp_mono (ih (by omega) valid_u a_u b_u quotient_u remainder_u) ?_
          (fun _ _ stopped => ⟨stopped.1, within.trans stopped.2⟩)
        rintro _ last ⟨valid_last, rest, result⟩
        refine ⟨valid_last, within.trans rest, ?_⟩
        rw [result, Nat.gcd_comm m, ← Nat.gcd_rec, Nat.gcd_comm]
      · rintro stop t ⟨why, kept⟩
        refine ⟨?_, kept.widen _⟩
        rcases why with exhausted | ⟨_, zero⟩
        · exact exhausted
        · exact absurd (by exact_mod_cast zero) nonzero
    · intro zero
      rw [not_not] at zero
      exact finished valid first zero

theorem bigintGcd_spec (valid : Valid s) (first : view s left = some x) (second : view s right = some y)
    (third : view s out = some z) :
    wp (bigintGcd left right out) (fun _ t => Writes s out (Int.gcd x y : Int) t)
      (fun stop t => Exhausted stop ∧ Within [] s t) s := by
  unfold bigintGcd
  simp only [wp_bind, wp_get, valid.compatible3 first second third, Bool.not_true, Bool.false_eq_true, ↓reduceIte]
  refine wp_operation valid.toSound fun r begun => ?_
  refine wp_scratch (valid.unchanged begun) fun a u₁ fresh_a opened₁ => ?_
  refine wp_scratch opened₁.valid fun b u₂ fresh_b opened₂ => ?_
  refine wp_scratch opened₂.valid fun q u₃ fresh_q opened₃ => ?_
  refine wp_scratch opened₃.valid fun m v fresh_m opened₄ => ?_
  have views : ∀ handle, view r handle = view s handle := fun _ => Within.view begun List.not_mem_nil
  have views₁ := opened₁.view
  have views₂ := opened₂.view
  have views₃ := opened₃.view
  have views₄ := opened₄.view
  have absent : ∀ temporary ∈ [m, q, b, a], view s temporary = none := by grind
  have apart : [a, b, q, m].Nodup := by grind
  have within : Within [m, q, b, a] s v := by
    refine (begun.widen _).trans ((opened₁.within.mono ?_).trans ((opened₂.within.mono ?_).trans
      ((opened₃.within.mono ?_).trans (opened₄.within.mono ?_)))) <;> simp
  refine wp_mono (?_ : wp _
    (fun _ t => Writes s out (Int.gcd x y : Int) (exactOperationEnd (closing [m, q, b, a] t)))
    (fun stop t => Exhausted stop ∧ Within [m, q, b, a] s t) v)
    (fun _ _ done => done) (fun _ _ stopped => ⟨stopped.1, close_abort absent stopped.2⟩)
  have valid_v := opened₄.valid
  refine wp_fill valid_v within (by simp) (copyPayload_spec valid_v.toSound (valid_v.holds (n := x) (by grind))
    (valid_v.holds (n := 0) (by grind)) (by grind) true) ?_
  intro w valid_w within_w view_w
  refine wp_fill valid_w within_w (by simp) (copyPayload_spec valid_w.toSound (valid_w.holds (n := y) (by grind))
    (valid_w.holds (n := 0) (by grind)) (by grind) true) ?_
  intro t valid_t within_t view_t
  simp only [↓reduceIte] at view_w view_t
  have magnitude : view t b = some (y.natAbs : Int) := by grind
  obtain ⟨canonical, denotes⟩ := (valid_t.holds magnitude).payload
  simp only [wp_bind, wp_get, wp_modify, canonical.value_eq denotes]
  refine wp_mono (gcdLoop_spec apart y.natAbs (n := x.natAbs) (p := 0) (q := 0) (Nat.le_refl _) valid_t (by grind)
    magnitude (by grind) (by grind)) ?_
    (fun _ _ stopped => ⟨stopped.1, within_t.trans (stopped.2.mono (by simp))⟩)
  rintro _ last ⟨valid_last, rest, result⟩
  exact publish absent third valid_last (within_t.trans (rest.mono (by simp))) (by simp) result

theorem euclidean_word (x : Int) {modulus : Nat} (positive : 0 < modulus) (word : modulus < 2 ^ 32) :
    ((UInt32.ofNat (if x.sign < 0 ∧ x.natAbs % modulus ≠ 0 then modulus - x.natAbs % modulus
      else x.natAbs % modulus)).toNat : Int) = x % modulus := by
  have less := Nat.mod_lt x.natAbs positive
  have small : ∀ n : Nat, n < 2 ^ 32 → ((UInt32.ofNat n).toNat : Int) = n := fun n inside => by
    rw [UInt32.toNat_ofNat', Nat.mod_eq_of_lt inside]
  by_cases negative : x.sign < 0
  · have minus : x = -(x.natAbs : Int) := by
      have := Int.sign_neg_iff.mp negative
      omega
    by_cases zero : x.natAbs % modulus = 0
    · rw [if_neg fun both => both.2 zero, small _ (by omega), zero, minus]
      have divides : (modulus : Int) ∣ x.natAbs := by exact_mod_cast Nat.dvd_of_mod_eq_zero zero
      exact (Int.emod_eq_zero_of_dvd (Int.dvd_neg.mpr divides)).symm
    · rw [if_pos ⟨negative, zero⟩, small _ (by omega)]
      have split := Nat.div_add_mod x.natAbs modulus
      conv_rhs => rw [minus, ← split]
      generalize x.natAbs / modulus = q at split
      generalize x.natAbs % modulus = r at less zero split
      have shifted : -((modulus * q + r : Nat) : Int) = (modulus - r : Nat) + modulus * (-(q : Int) - 1) := by
        rw [Int.ofNat_sub less.le]
        push_cast
        ring
      rw [shifted, Int.add_mul_emod_self_left, Int.emod_eq_of_lt (by omega) (by omega)]
  · have plus : x = (x.natAbs : Int) := by
      have := Int.sign_neg_iff.not.mp negative
      omega
    rw [if_neg fun both => negative both.1, small _ (by omega)]
    conv_rhs => rw [plus]
    rw [Int.natCast_mod]

theorem modLimbs_spec (b : Bigint) (sound : Sound s) {modulus : Nat} (positive : 0 < modulus)
    (word : modulus < 2 ^ 32) :
    wp (countDown (fun index remainder => do
        exactStep 1
        pure ((u64 (remainder <<< 32) ||| digit b.limbs index) % modulus)) b.count 0)
      (fun remainder t => Within [] s t ∧ remainder = value b.limbs % modulus)
      (fun stop t => Exhausted stop ∧ Within [] s t) s := by
  refine wp_good (wp_countDown (fun i remainder t => Within [] s t ∧ remainder = value (b.limbs.drop i) % modulus)
    b.count 0 s ⟨.refl sound _, by simp [Bigint.count]⟩ ?_) ?_
  · rintro i remainder t below ⟨within, rest⟩
    simp only [wp_bind, wp_pure]
    refine wp_mono (exactStep_spec within.sound 1) ?_ (fun _ _ stopped => ⟨stopped.1, within.trans stopped.2⟩)
    intro _ u stepped
    have less : remainder < modulus := rest ▸ Nat.mod_lt _ positive
    have joined : u64 (remainder <<< 32) ||| digit b.limbs i = 2 ^ 32 * remainder + digit b.limbs i := by
      rw [Nat.shiftLeft_eq, u64_of_lt (by omega), Nat.mul_comm remainder]
      exact (Nat.two_pow_add_eq_or_of_lt (Limbs.digit_lt b.limbs i) remainder).symm
    refine ⟨within.trans stepped, ?_⟩
    rw [joined, rest, Limbs.value_drop below, Nat.add_comm, Nat.add_mod, Nat.mul_mod, Nat.mod_mod,
      ← Nat.mul_mod, ← Nat.add_mod]
  · rintro remainder t ⟨within, rest⟩
    exact ⟨within, rest⟩

theorem bigintModU32_spec (valid : Valid s) (first : view s dividend = some x) (modulus : UInt32) :
    wp (bigintModU32 dividend modulus)
      (fun remainder t => modulus ≠ 0 ∧ (remainder.toNat : Int) = x % modulus.toNat ∧ Valid t ∧ Within [] s t)
      (fun stop t => (Exhausted stop ∨ stop = .domain ∧ modulus = 0) ∧ Within [] s t) s := by
  obtain ⟨canonical, denotes⟩ := (valid.holds first).payload
  unfold bigintModU32
  simp only [wp_bind, wp_get, valid.shallow first, Bool.not_true, Bool.false_eq_true, ↓reduceIte]
  apply wp_ite
  · intro zero
    exact ⟨.inr ⟨rfl, zero⟩, .refl valid.toSound _⟩
  intro nonzero
  have positive : 0 < modulus.toNat := Nat.pos_of_ne_zero fun zero => nonzero (UInt32.toNat_inj.mp zero)
  have word := modulus.toNat_lt
  refine wp_operation valid.toSound fun r begun => ?_
  rw [wp_bind]
  refine wp_mono (modLimbs_spec (s.payload dividend) begun.sound positive word) ?_ ?_
  · rintro remainder t ⟨kept, rest⟩
    have within := begun.trans kept
    have ended := within.trans (exactOperationEnd_within within.sound)
    refine ⟨nonzero, ?_, valid.unchanged ended, ended⟩
    rw [← canonical.natAbs_eq, denotes] at rest
    rw [canonical.sign_eq, denotes, rest]
    exact euclidean_word x positive word
  · rintro stop t ⟨exhausted, kept⟩
    have within := begun.trans kept
    exact ⟨.inl exhausted, within.trans (exactOperationEnd_within within.sound)⟩

end PhyNspire.Exact.Euclid

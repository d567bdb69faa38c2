import PhyNspire.Exact.Fractions

/-!
The public rational operations compute in the field of rational numbers: each one that
returns has written the canonical form of its result, and each one that stops has left
every value as it was.
-/

namespace PhyNspire.Exact.RationalField
open Platform Lib Lib.Stateful Context Accounting Integer Magnitude Arithmetic Euclid Rational Fractions

variable {s : ExactContext} {value left right out source destination : Bigrat} {p q r : ℚ}

/-- Inside an operation that began at `s`: the temporaries are its own, and all else is as it was. -/
structure Scratch (s : ExactContext) (temporaries : List Handle) (u : ExactContext) : Prop where
  valid : Valid u
  within : Within temporaries s u
  absent : ∀ handle ∈ temporaries, view s handle = none
  live : ∀ handle ∈ temporaries, ∃ n, view u handle = some n
  nodup : temporaries.Nodup

section
variable {temporaries : List Handle} {why : Status → Prop} {u : ExactContext} {handle : Handle} {n : Int}

theorem Scratch.frame (scratch : Scratch s temporaries u) (seen : view s handle = some n) :
    view u handle = some n := by
  rw [Within.view scratch.within, seen]
  intro inside
  rw [scratch.absent handle inside] at seen
  cases seen

theorem Scratch.represents (scratch : Scratch s temporaries u) (represents : Represents s value p) :
    Represents u value p :=
  ⟨scratch.frame represents.numerator, scratch.frame represents.denominator⟩

variable {t : ExactContext}

theorem Scratch.write (scratch : Scratch s temporaries u) (member : handle ∈ temporaries)
    (writes : Writes u handle n t) : Scratch s temporaries t := by
  refine ⟨writes.valid, scratch.within.trans (writes.within.mono (by simpa using member)), scratch.absent,
    fun other inside => ?_, scratch.nodup⟩
  rw [writes.view]
  split
  · exact ⟨n, rfl⟩
  · exact scratch.live other inside

theorem Scratch.writeRational (scratch : Scratch s temporaries u) (member : .numerator value ∈ temporaries)
    (member' : .denominator value ∈ temporaries) (writes : WritesRat u value p t) :
    Scratch s temporaries t := by
  have included : [.numerator value, .denominator value] ⊆ temporaries := by simp [member, member']
  refine ⟨writes.valid, scratch.within.trans (writes.within.mono included), scratch.absent,
    fun other inside => ?_, scratch.nodup⟩
  by_cases first : other = .numerator value
  · exact ⟨_, first ▸ writes.result.numerator⟩
  · by_cases second : other = .denominator value
    · exact ⟨_, second ▸ writes.result.denominator⟩
    · rw [Within.view writes.within (by simp [first, second])]
      exact scratch.live other inside

theorem Scratch.finish (scratch : Scratch s temporaries u) (live : Represents s out q)
    (writes : WritesRat u out p t) : WritesRat s out p (exactOperationEnd (closing temporaries t)) := by
  have outside : ∀ handle, view s handle ≠ none → handle ∉ temporaries := fun handle seen inside =>
    seen (scratch.absent handle inside)
  have numerator := outside (.numerator out) (by simp [live.numerator])
  have denominator := outside (.denominator out) (by simp [live.denominator])
  have all : Within (temporaries ++ [.numerator out, .denominator out]) s t :=
    (scratch.within.mono (by simp)).trans (writes.within.mono (by simp))
  exact ⟨Valid.ended (close_valid writes.valid), Within.ended (close_within scratch.absent all),
    (close_view writes.valid.toSound numerator).trans writes.result.numerator,
    (close_view writes.valid.toSound denominator).trans writes.result.denominator⟩

variable {α : Type} {good : α → ExactContext → Prop}

theorem wp_localBeside {body : Handle → ExactM α} (scratch : Scratch s temporaries u) (outs : List Handle)
    (inner : ∀ temporary v, Scratch s (temporary :: temporaries) v →
      wp (body temporary) (fun result t => good result (bigintDestroy temporary t))
        (fun stop t => why stop ∧ Within (temporary :: (temporaries ++ outs)) s t) v) :
    wp (withTemporary body) good (fun stop t => why stop ∧ Within (temporaries ++ outs) s t) u := by
  refine wp_scratch scratch.valid fun temporary v fresh opened => ?_
  have new : temporary ∉ temporaries := fun inside => by
    obtain ⟨n, seen⟩ := scratch.live temporary inside
    rw [fresh] at seen
    cases seen
  have absent : view s temporary = none := by rw [← Within.view scratch.within new, fresh]
  have scratch' : Scratch s (temporary :: temporaries) v := by
    refine ⟨opened.valid, (scratch.within.mono (by simp)).trans (opened.within.mono (by simp)), ?_, ?_,
      List.nodup_cons.mpr ⟨new, scratch.nodup⟩⟩
    · simpa [absent] using scratch.absent
    · intro handle inside
      rw [opened.view]
      split
      · exact ⟨0, rfl⟩
      · exact scratch.live handle ((List.mem_cons.mp inside).resolve_left (by assumption))
  refine wp_mono (inner temporary v scratch') (fun _ _ done => done) (fun _ _ stopped => ⟨stopped.1, ?_⟩)
  exact @close_within s [temporary] (temporaries ++ outs) _ (by simpa using absent) stopped.2

theorem wp_local {body : Handle → ExactM α} (scratch : Scratch s temporaries u)
    (inner : ∀ temporary v, Scratch s (temporary :: temporaries) v →
      wp (body temporary) (fun result t => good result (bigintDestroy temporary t))
        (fun stop t => why stop ∧ Within (temporary :: temporaries) s t) v) :
    wp (withTemporary body) good (fun stop t => why stop ∧ Within temporaries s t) u := by
  have beside : wp (withTemporary body) good (fun stop t => why stop ∧ Within (temporaries ++ []) s t) u :=
    wp_localBeside scratch [] fun temporary v scratch => by
      simpa only [List.append_nil] using inner temporary v scratch
  simpa only [List.append_nil] using beside

theorem wp_rational {body : Bigrat → ExactM α} (valid : Valid s) (exhausted : ∀ stop, Exhausted stop → why stop)
    (inner : ∀ temporary u, Scratch s [.denominator temporary, .numerator temporary] u →
      Represents u temporary 0 →
      wp (body temporary)
        (fun result t =>
          good result (exactOperationEnd (closing [.denominator temporary, .numerator temporary] t)))
        (fun stop t => why stop ∧ Within [.denominator temporary, .numerator temporary] s t) u) :
    wp (operation (withRational body)) good (fun stop t => why stop ∧ Within [] s t) s := by
  refine wp_operation valid.toSound fun r begun => ?_
  have views : ∀ handle, view r handle = view s handle := fun _ => Within.view begun List.not_mem_nil
  refine wp_withRational (valid.unchanged begun)
    (fun stop t stopped kept => ⟨exhausted stop stopped, Within.ended (begun.trans kept)⟩) ?_
  intro temporary u absent absent' valid_u opened view_u
  have fresh : ∀ handle ∈ [Handle.denominator temporary, .numerator temporary], view s handle = none := by grind
  have zero : Represents u temporary 0 := ⟨by simp [view_u], by simp [view_u]⟩
  refine wp_mono (inner temporary u ⟨valid_u, (begun.widen _).trans opened, fresh, by simp [view_u], by simp⟩ zero)
    (fun _ _ done => done) (fun _ _ stopped => ⟨stopped.1, close_abort fresh stopped.2⟩)

theorem wp_next {program : ExactM Unit} {next : ExactM α}
    (scratch : Scratch s temporaries u) (exhausted : ∀ stop, Exhausted stop → why stop)
    (member : handle ∈ temporaries)
    (spec : ∀ z, view u handle = some z →
      wp program (fun _ t => Writes u handle n t) (fun stop t => Exhausted stop ∧ Within [] u t) u)
    (rest : ∀ t, Scratch s temporaries t →
      (∀ other, view t other = if other = handle then some n else view u other) →
      wp next good (fun stop t => why stop ∧ Within temporaries s t) t) :
    wp (program >>= fun _ => next) good (fun stop t => why stop ∧ Within temporaries s t) u := by
  obtain ⟨z, live⟩ := scratch.live handle member
  rw [wp_bind]
  refine wp_mono (spec z live) (fun _ t writes => rest t (scratch.write member writes) writes.view) ?_
  intro stop t stopped
  exact ⟨exhausted stop stopped.1, scratch.within.trans (stopped.2.widen _)⟩

theorem wp_swap {temporary : Bigrat} (scratch : Scratch s temporaries u) (live : Represents s out p)
    (member : .numerator temporary ∈ temporaries) (member' : .denominator temporary ∈ temporaries)
    (holds : Represents u temporary r) :
    wp (modify (swapPayload out temporary))
      (fun _ t => WritesRat s out r (exactOperationEnd (closing temporaries t)))
      (fun stop t => why stop ∧ Within temporaries s t) u :=
  publish_rational scratch.absent live scratch.valid scratch.within member member' holds

theorem wp_reduce {temporary : Bigrat} {d : Int} (scratch : Scratch s temporaries u) (live : Represents s out p)
    (exhausted : ∀ stop, Exhausted stop → why stop) (zero : d = 0 → why .domain)
    (member : .numerator temporary ∈ temporaries) (member' : .denominator temporary ∈ temporaries)
    (first : view u (.numerator temporary) = some n) (second : view u (.denominator temporary) = some d) :
    wp (normalizeInPlace temporary >>= fun _ => modify (swapPayload out temporary))
      (fun _ t => d ≠ 0 ∧ WritesRat s out ((n : ℚ) / d) (exactOperationEnd (closing temporaries t)))
      (fun stop t => why stop ∧ Within temporaries s t) u := by
  have included : [.numerator temporary, .denominator temporary] ⊆ temporaries := by simp [member, member']
  rw [wp_bind]
  refine wp_mono (normalizeInPlace_spec scratch.valid first second) ?_ ?_
  · rintro _ t ⟨nonzero, reduced⟩
    have within := scratch.within.trans (reduced.within.mono included)
    exact ⟨nonzero, publish_rational scratch.absent live reduced.valid within member member' reduced.result⟩
  · rintro stop t ⟨stopped, kept⟩
    refine ⟨?_, scratch.within.trans (kept.mono included)⟩
    rcases stopped with stopped | ⟨rfl, none⟩
    · exact exhausted stop stopped
    · exact zero none

end

theorem bigratSetI64_spec (valid : Valid s) (live : Represents s value p) (numerator denominator : Int64) :
    wp (bigratSetI64 value numerator denominator)
      (fun _ t => denominator.toInt ≠ 0 ∧ WritesRat s value ((numerator.toInt : ℚ) / denominator.toInt) t)
      (fun stop t => (Exhausted stop ∨ stop = .domain ∧ denominator.toInt = 0) ∧ Within [] s t) s := by
  unfold bigratSetI64
  simp only [wp_bind, wp_get, live.shallow valid, Bool.not_true, Bool.false_eq_true, ↓reduceIte]
  refine wp_rational valid (fun _ => .inl) fun temporary u scratch _ => ?_
  refine wp_next scratch (fun _ => .inl) (by simp)
    (fun _ target => bigintSetI64_spec scratch.valid target numerator) fun v scratch view_v => ?_
  refine wp_next scratch (fun _ => .inl) (by simp)
    (fun _ target => bigintSetI64_spec scratch.valid target denominator) fun w scratch view_w => ?_
  exact wp_reduce scratch live (fun _ => .inl) (fun zero => .inr ⟨rfl, zero⟩) (by simp) (by simp)
    (by grind) (by grind)

def decimalFraction (numerator denominator : List UInt8) : Option ℚ := do
  let n ← decimalValue (cString numerator)
  let d ← decimalValue (cString denominator)
  if d = 0 then none else some ((n : ℚ) / d)

theorem bigratRead_spec (valid : Valid s) (live : Represents s value p) (numerator denominator : List UInt8) :
    wp (bigratRead value numerator denominator)
      (fun _ t => ∃ r, decimalFraction numerator denominator = some r ∧ WritesRat s value r t)
      (fun stop t => (Exhausted stop ∨ (stop = .parse ∨ stop = .domain) ∧
        decimalFraction numerator denominator = none) ∧ Within [] s t) s := by
  unfold bigratRead decimalFraction
  simp only [wp_bind, wp_get, live.shallow valid, Bool.not_true, Bool.false_eq_true, ↓reduceIte]
  refine wp_rational valid (fun _ => .inl) fun temporary u scratch zero => ?_
  rw [wp_bind]
  refine wp_mono (bigintRead_spec scratch.valid zero.numerator numerator) ?_ ?_
  · rintro _ v ⟨n, spelled, read⟩
    have view_v := read.view
    have scratch_v := scratch.write (by simp) read
    rw [wp_bind]
    refine wp_mono (bigintRead_spec read.valid (z := 1) (by rw [view_v, if_neg (by simp), zero.denominator]; rfl)
      denominator) ?_ ?_
    · rintro _ w ⟨d, spelled', read'⟩
      have view_w := read'.view
      have weaker : ∀ stop, Exhausted stop → Exhausted stop ∨ stop = .domain ∧ d = 0 := fun _ => .inl
      refine wp_mono (wp_reduce (n := n) (d := d) (scratch_v.write (by simp) read') live weaker
        (fun zero => .inr ⟨rfl, zero⟩) (by simp) (by simp) (by grind) (by grind)) ?_ ?_
      · rintro _ t ⟨nonzero, written⟩
        exact ⟨_, by simp [spelled, spelled', nonzero], written⟩
      · rintro stop t ⟨exhausted | ⟨domain, zero⟩, kept⟩
        · exact ⟨.inl exhausted, kept⟩
        · exact ⟨.inr ⟨.inr domain, by simp [spelled, spelled', zero]⟩, kept⟩
    · rintro stop t ⟨exhausted | ⟨parse, malformed⟩, kept⟩
      · exact ⟨.inl exhausted, scratch_v.within.trans (kept.widen _)⟩
      · exact ⟨.inr ⟨.inl parse, by simp [spelled, malformed]⟩, scratch_v.within.trans (kept.widen _)⟩
  · rintro stop t ⟨exhausted | ⟨parse, malformed⟩, kept⟩
    · exact ⟨.inl exhausted, scratch.within.trans (kept.widen _)⟩
    · exact ⟨.inr ⟨.inl parse, by simp [malformed]⟩, scratch.within.trans (kept.widen _)⟩

theorem bigratCopy_spec (valid : Valid s) (first : Represents s source p) (live : Represents s destination q) :
    wp (bigratCopy source destination) (fun _ t => WritesRat s destination p t)
      (fun stop t => Exhausted stop ∧ Within [] s t) s := by
  unfold bigratCopy
  simp only [wp_bind, wp_get, first.compatible2 valid live, Bool.not_true, Bool.false_eq_true, ↓reduceIte]
  by_cases same : source = destination
  · subst same
    simp only [↓reduceIte]
    refine wp_operation valid.toSound fun u begun => ?_
    have ended := Within.ended begun
    have unchanged : ∀ handle, view (exactOperationEnd u) handle = view s handle := fun _ =>
      Within.view ended List.not_mem_nil
    exact ⟨valid.unchanged ended, ended.widen _, by rw [unchanged, first.numerator],
      by rw [unchanged, first.denominator]⟩
  simp only [if_neg same]
  refine wp_rational valid (fun _ => id) fun temporary u scratch _ => ?_
  refine wp_next scratch (fun _ => id) (by simp)
    (fun _ target => bigintCopy_spec scratch.valid (scratch.frame first.numerator) target) fun v scratch view_v => ?_
  refine wp_next scratch (fun _ => id) (by simp)
    (fun _ target => bigintCopy_spec scratch.valid (scratch.frame first.denominator) target) fun w scratch view_w => ?_
  exact wp_swap scratch live (by simp) (by simp) ⟨by grind, by grind⟩

theorem bigratNegate_spec (valid : Valid s) (first : Represents s source p) (live : Represents s out q) :
    wp (bigratNegate source out) (fun _ t => WritesRat s out (-p) t)
      (fun stop t => Exhausted stop ∧ Within [] s t) s := by
  unfold bigratNegate
  simp only [wp_bind, wp_get, first.compatible2 valid live, Bool.not_true, Bool.false_eq_true, ↓reduceIte]
  refine wp_rational valid (fun _ => id) fun temporary u scratch _ => ?_
  refine wp_next scratch (fun _ => id) (by simp)
    (fun _ target => bigintNegate_spec scratch.valid (scratch.frame first.numerator) target) fun v scratch view_v => ?_
  refine wp_next scratch (fun _ => id) (by simp)
    (fun _ target => bigintCopy_spec scratch.valid (scratch.frame first.denominator) target) fun w scratch view_w => ?_
  refine wp_swap scratch live (by simp) (by simp) ⟨?_, ?_⟩
  · rw [Rat.num_neg_eq_neg_num]
    grind
  · rw [Rat.den_neg_eq_den]
    grind

theorem sum_over_gcd (p q : ℚ) :
    ((p.num * (q.den / (Int.gcd p.den q.den : Int)) + q.num * (p.den / (Int.gcd p.den q.den : Int)) : Int) : ℚ) /
      (p.den * (q.den / (Int.gcd p.den q.den : Int)) : Int) = p + q := by
  have positive : 0 < Int.gcd p.den q.den := Int.gcd_pos_of_ne_zero_left _ (by simp)
  obtain ⟨a, left⟩ : (Int.gcd p.den q.den : Int) ∣ p.den := Int.gcd_dvd_left _ _
  obtain ⟨b, right⟩ : (Int.gcd p.den q.den : Int) ∣ q.den := Int.gcd_dvd_right _ _
  generalize (Int.gcd p.den q.den : Int) = g at left right
  have g_nonzero : g ≠ 0 := by rintro rfl; simp at left
  have a_nonzero : a ≠ 0 := by rintro rfl; simp at left
  have b_nonzero : b ≠ 0 := by rintro rfl; simp at right
  have p_eq : p = p.num / ((g : ℚ) * a) := by
    conv_lhs => rw [← Rat.num_div_den p]
    rw [← Int.cast_natCast, left, Int.cast_mul]
  have q_eq : q = q.num / ((g : ℚ) * b) := by
    conv_lhs => rw [← Rat.num_div_den q]
    rw [← Int.cast_natCast, right, Int.cast_mul]
  conv_rhs => rw [p_eq, q_eq]
  rw [left, right, Int.mul_ediv_cancel_left _ g_nonzero, Int.mul_ediv_cancel_left _ g_nonzero]
  have g_cast : (g : ℚ) ≠ 0 := by exact_mod_cast g_nonzero
  have a_cast : (a : ℚ) ≠ 0 := by exact_mod_cast a_nonzero
  have b_cast : (b : ℚ) ≠ 0 := by exact_mod_cast b_nonzero
  push_cast
  field_simp

theorem bigratAdd_spec (valid : Valid s) (first : Represents s left p) (second : Represents s right q)
    (live : Represents s out r) :
    wp (bigratAdd left right out) (fun _ t => WritesRat s out (p + q) t)
      (fun stop t => Exhausted stop ∧ Within [] s t) s := by
  have common : ((Int.gcd p.den q.den : Nat) : Int) ≠ 0 := by
    have positive : 0 < Int.gcd p.den q.den := Int.gcd_pos_of_ne_zero_left _ (by simp)
    omega
  unfold bigratAdd
  simp only [wp_bind, wp_get, first.compatible3 valid second live, Bool.not_true, Bool.false_eq_true, ↓reduceIte]
  refine wp_rational valid (fun _ => id) fun temporary u scratch _ => ?_
  refine wp_local scratch fun gcd u scratch => ?_
  refine wp_local scratch fun leftScale u scratch => ?_
  refine wp_local scratch fun rightScale u scratch => ?_
  refine wp_local scratch fun leftTerm u scratch => ?_
  refine wp_local scratch fun rightTerm u scratch => ?_
  have apart := scratch.nodup
  simp only [List.nodup_cons, List.mem_cons, List.not_mem_nil, or_false, not_or] at apart
  refine wp_next scratch (fun _ => id) (by simp) (fun _ target =>
    bigintGcd_spec scratch.valid (scratch.frame first.denominator) (scratch.frame second.denominator) target)
    fun v₁ scratch view₁ => ?_
  refine wp_next scratch (fun _ => id) (by simp) (fun _ target =>
    wp_exact scratch.valid (y := (Int.gcd p.den q.den : Int)) (scratch.frame second.denominator) (by grind) target
      common (Int.gcd_dvd_right _ _)) fun v₂ scratch view₂ => ?_
  refine wp_next scratch (fun _ => id) (by simp) (fun _ target =>
    wp_exact scratch.valid (y := (Int.gcd p.den q.den : Int)) (scratch.frame first.denominator) (by grind) target
      common (Int.gcd_dvd_left _ _)) fun v₃ scratch view₃ => ?_
  have scale : view v₃ leftScale = some (q.den / (Int.gcd p.den q.den : Int)) := by grind
  refine wp_next scratch (fun _ => id) (by simp) (fun _ target =>
    bigintMultiply_spec scratch.valid (scratch.frame first.numerator) scale target) fun v₄ scratch view₄ => ?_
  refine wp_next scratch (fun _ => id) (by simp) (fun _ target =>
    bigintMultiply_spec scratch.valid (y := p.den / (Int.gcd p.den q.den : Int)) (scratch.frame second.numerator)
      (by grind) target) fun v₅ scratch view₅ => ?_
  have scale : view v₅ leftScale = some (q.den / (Int.gcd p.den q.den : Int)) := by grind
  refine wp_next scratch (fun _ => id) (by simp) (fun _ target =>
    bigintAdd_spec scratch.valid (x := p.num * (q.den / (Int.gcd p.den q.den : Int)))
      (y := q.num * (p.den / (Int.gcd p.den q.den : Int))) (by grind) (by grind) target)
    fun v₆ scratch view₆ => ?_
  refine wp_next scratch (fun _ => id) (by simp) (fun _ target =>
    bigintMultiply_spec scratch.valid (y := q.den / (Int.gcd p.den q.den : Int)) (scratch.frame first.denominator)
      (by grind) target) fun v₇ scratch view₇ => ?_
  have nonzero : (p.den : Int) * (q.den / (Int.gcd p.den q.den : Int)) ≠ 0 := by
    have positive := Int.ediv_pos_of_pos_of_dvd (by positivity : 0 < (q.den : Int)) (by positivity)
      (Int.gcd_dvd_right (p.den : Int) q.den)
    positivity
  refine wp_good (wp_reduce scratch live (fun _ => id) (fun zero => absurd zero nonzero) (by simp) (by simp)
    (by rw [view₇, if_neg (by simp), view₆, if_pos rfl]) (by rw [view₇, if_pos rfl])) ?_
  rintro _ t ⟨_, written⟩
  rwa [sum_over_gcd] at written

theorem bigratSubtract_spec (valid : Valid s) (first : Represents s left p) (second : Represents s right q)
    (live : Represents s out r) :
    wp (bigratSubtract left right out) (fun _ t => WritesRat s out (p - q) t)
      (fun stop t => Exhausted stop ∧ Within [] s t) s := by
  unfold bigratSubtract
  simp only [wp_bind, wp_get, first.compatible3 valid second live, Bool.not_true, Bool.false_eq_true, ↓reduceIte]
  refine wp_rational valid (fun _ => id) fun negated u scratch zero => ?_
  rw [wp_bind]
  refine wp_mono (bigratNegate_spec scratch.valid (scratch.represents second) zero) ?_
    (fun _ _ stopped => ⟨stopped.1, scratch.within.trans (stopped.2.widen _)⟩)
  intro _ v written
  have scratch_v := scratch.writeRational (by simp) (by simp) written
  refine wp_mono (bigratAdd_spec written.valid (scratch_v.represents first) written.result
    (scratch_v.represents live)) ?_ (fun _ _ stopped => ⟨stopped.1, scratch_v.within.trans (stopped.2.widen _)⟩)
  intro _ t added
  rw [sub_eq_add_neg]
  exact scratch_v.finish live added

theorem product_cross (p q : ℚ) (nonzero : Int.gcd p.num q.den ≠ 0) (nonzero' : Int.gcd q.num p.den ≠ 0) :
    ((p.num / (Int.gcd p.num q.den : Int) * (q.num / (Int.gcd q.num p.den : Int)) : Int) : ℚ) /
      (p.den / (Int.gcd q.num p.den : Int) * (q.den / (Int.gcd p.num q.den : Int)) : Int) = p * q := by
  have g_cast : ((Int.gcd p.num q.den : Int) : ℚ) ≠ 0 := by exact_mod_cast nonzero
  have h_cast : ((Int.gcd q.num p.den : Int) : ℚ) ≠ 0 := by exact_mod_cast nonzero'
  conv_rhs => rw [← Rat.num_div_den p, ← Rat.num_div_den q]
  rw [Int.cast_mul, Int.cast_mul, Int.cast_div (Int.gcd_dvd_left _ _) g_cast,
    Int.cast_div (Int.gcd_dvd_left _ _) h_cast, Int.cast_div (Int.gcd_dvd_right _ _) h_cast,
    Int.cast_div (Int.gcd_dvd_right _ _) g_cast]
  have p_den : (p.den : ℚ) ≠ 0 := by exact_mod_cast p.den_nz
  have q_den : (q.den : ℚ) ≠ 0 := by exact_mod_cast q.den_nz
  push_cast at g_cast h_cast ⊢
  field_simp

theorem bigratMultiply_spec (valid : Valid s) (first : Represents s left p) (second : Represents s right q)
    (live : Represents s out r) :
    wp (bigratMultiply left right out) (fun _ t => WritesRat s out (p * q) t)
      (fun stop t => Exhausted stop ∧ Within [] s t) s := by
  have common : Int.gcd p.num q.den ≠ 0 := (Int.gcd_pos_of_ne_zero_right _ (by simp)).ne'
  have common' : Int.gcd q.num p.den ≠ 0 := (Int.gcd_pos_of_ne_zero_right _ (by simp)).ne'
  unfold bigratMultiply
  simp only [wp_bind, wp_get, first.compatible3 valid second live, Bool.not_true, Bool.false_eq_true, ↓reduceIte]
  refine wp_rational valid (fun _ => id) fun temporary u scratch _ => ?_
  refine wp_local scratch fun gcdLeft u scratch => ?_
  refine wp_local scratch fun gcdRight u scratch => ?_
  refine wp_local scratch fun leftNumerator u scratch => ?_
  refine wp_local scratch fun rightNumerator u scratch => ?_
  refine wp_local scratch fun leftDenominator u scratch => ?_
  refine wp_local scratch fun rightDenominator u scratch => ?_
  have apart := scratch.nodup
  simp only [List.nodup_cons, List.mem_cons, List.not_mem_nil, or_false, not_or] at apart
  refine wp_next scratch (fun _ => id) (by simp) (fun _ target =>
    bigintGcd_spec scratch.valid (scratch.frame first.numerator) (scratch.frame second.denominator) target)
    fun v₁ scratch view₁ => ?_
  refine wp_next scratch (fun _ => id) (by simp) (fun _ target =>
    bigintGcd_spec scratch.valid (scratch.frame second.numerator) (scratch.frame first.denominator) target)
    fun v₂ scratch view₂ => ?_
  have gcd_left : view v₂ gcdLeft = some (Int.gcd p.num q.den : Int) := by grind
  refine wp_next scratch (fun _ => id) (by simp) (fun _ target =>
    wp_exact scratch.valid (scratch.frame first.numerator) gcd_left target (by exact_mod_cast common)
      (Int.gcd_dvd_left _ _)) fun v₃ scratch view₃ => ?_
  have gcd_left : view v₃ gcdLeft = some (Int.gcd p.num q.den : Int) := by grind
  refine wp_next scratch (fun _ => id) (by simp) (fun _ target =>
    wp_exact scratch.valid (scratch.frame second.denominator) gcd_left target (by exact_mod_cast common)
      (Int.gcd_dvd_right _ _)) fun v₄ scratch view₄ => ?_
  have gcd_right : view v₄ gcdRight = some (Int.gcd q.num p.den : Int) := by grind
  refine wp_next scratch (fun _ => id) (by simp) (fun _ target =>
    wp_exact scratch.valid (scratch.frame second.numerator) gcd_right target (by exact_mod_cast common')
      (Int.gcd_dvd_left _ _)) fun v₅ scratch view₅ => ?_
  have gcd_right : view v₅ gcdRight = some (Int.gcd q.num p.den : Int) := by grind
  refine wp_next scratch (fun _ => id) (by simp) (fun _ target =>
    wp_exact scratch.valid (scratch.frame first.denominator) gcd_right target (by exact_mod_cast common')
      (Int.gcd_dvd_right _ _)) fun v₆ scratch view₆ => ?_
  have left_numerator : view v₆ leftNumerator = some (p.num / (Int.gcd p.num q.den : Int)) := by grind
  have right_numerator : view v₆ rightNumerator = some (q.num / (Int.gcd q.num p.den : Int)) := by grind
  refine wp_next scratch (fun _ => id) (by simp) (fun _ target =>
    bigintMultiply_spec scratch.valid left_numerator right_numerator target) fun v₇ scratch view₇ => ?_
  have left_denominator : view v₇ leftDenominator = some (p.den / (Int.gcd q.num p.den : Int)) := by grind
  have right_denominator : view v₇ rightDenominator = some (q.den / (Int.gcd p.num q.den : Int)) := by grind
  refine wp_next scratch (fun _ => id) (by simp) (fun _ target =>
    bigintMultiply_spec scratch.valid left_denominator right_denominator target) fun v₈ scratch view₈ => ?_
  have nonzero : (p.den : Int) / (Int.gcd q.num p.den : Int) * (q.den / (Int.gcd p.num q.den : Int)) ≠ 0 := by
    have positive := Int.ediv_pos_of_pos_of_dvd (by positivity : 0 < (q.den : Int)) (by positivity)
      (Int.gcd_dvd_right p.num q.den)
    have positive' := Int.ediv_pos_of_pos_of_dvd (by positivity : 0 < (p.den : Int)) (by positivity)
      (Int.gcd_dvd_right q.num p.den)
    positivity
  refine wp_good (wp_reduce scratch live (fun _ => id) (fun zero => absurd zero nonzero) (by simp) (by simp)
    (by rw [view₈, if_neg (by simp), view₇, if_pos rfl]) (by rw [view₈, if_pos rfl])) ?_
  rintro _ t ⟨_, written⟩
  rwa [product_cross p q common common'] at written

theorem bigratReciprocal_spec (valid : Valid s) (first : Represents s source p) (live : Represents s out q) :
    wp (bigratReciprocal source out) (fun _ t => p ≠ 0 ∧ WritesRat s out p⁻¹ t)
      (fun stop t => (Exhausted stop ∨ stop = .domain ∧ p = 0) ∧ Within [] s t) s := by
  obtain ⟨canonical, denotes⟩ := (valid.holds first.numerator).payload
  unfold bigratReciprocal
  simp only [wp_bind, wp_get, first.compatible2 valid live, Bool.not_true, Bool.false_eq_true, ↓reduceIte,
    canonical.count_eq_zero, denotes, Rat.num_eq_zero]
  apply wp_ite
  · intro zero
    exact ⟨.inr ⟨rfl, zero⟩, .refl valid.toSound _⟩
  intro nonzero
  refine wp_rational valid (fun _ => .inl) fun temporary u scratch _ => ?_
  refine wp_next scratch (fun _ => .inl) (by simp)
    (fun _ target => bigintCopy_spec scratch.valid (scratch.frame first.denominator) target)
    fun v scratch view_v => ?_
  refine wp_next scratch (fun _ => .inl) (by simp)
    (fun _ target => bigintCopy_spec scratch.valid (scratch.frame first.numerator) target)
    fun w scratch view_w => ?_
  refine wp_good (wp_reduce scratch live (fun _ => .inl) (fun zero => absurd (Rat.num_eq_zero.mp zero) nonzero)
    (by simp) (by simp) (by rw [view_w, if_neg (by simp), view_v, if_pos rfl]) (by rw [view_w, if_pos rfl])) ?_
  rintro _ t ⟨_, written⟩
  refine ⟨nonzero, ?_⟩
  have inverse : p⁻¹ = (((p.den : Int) : ℚ) / p.num) := by
    conv_lhs => rw [← Rat.num_div_den p, inv_div]
    rfl
  rwa [inverse]

theorem bigratDivide_spec (valid : Valid s) (first : Represents s left p) (second : Represents s right q)
    (live : Represents s out r) :
    wp (bigratDivide left right out) (fun _ t => q ≠ 0 ∧ WritesRat s out (p / q) t)
      (fun stop t => (Exhausted stop ∨ stop = .domain ∧ q = 0) ∧ Within [] s t) s := by
  unfold bigratDivide
  simp only [wp_bind, wp_get, first.compatible3 valid second live, Bool.not_true, Bool.false_eq_true, ↓reduceIte]
  refine wp_rational valid (fun _ => .inl) fun reciprocal u scratch zero => ?_
  rw [wp_bind]
  refine wp_mono (bigratReciprocal_spec scratch.valid (scratch.represents second) zero) ?_
    (fun _ _ stopped => ⟨stopped.1, scratch.within.trans (stopped.2.widen _)⟩)
  rintro _ v ⟨nonzero, written⟩
  have scratch_v := scratch.writeRational (by simp) (by simp) written
  refine wp_mono (bigratMultiply_spec written.valid (scratch_v.represents first) written.result
    (scratch_v.represents live)) ?_
    (fun _ _ stopped => ⟨.inl stopped.1, scratch_v.within.trans (stopped.2.widen _)⟩)
  intro _ t multiplied
  refine ⟨nonzero, ?_⟩
  rw [div_eq_mul_inv]
  exact scratch_v.finish live multiplied

theorem powMagnitude_spec (exponent : Int32) : ((powMagnitude exponent).toNat : Int) = |exponent.toInt| := by
  have raw : exponent.toInt = exponent.toUInt32.toBitVec.toInt := rfl
  have word := exponent.toUInt32.toNat_lt
  have signed := BitVec.toInt_eq_toNat_cond exponent.toUInt32.toBitVec
  rw [← raw, UInt32.toNat_toBitVec] at signed
  unfold powMagnitude
  by_cases negative : exponent < 0
  · have less : exponent.toInt < 0 := Int32.lt_iff_toInt_lt.mp negative
    rw [if_pos negative, abs_of_neg less, UInt32.ofInt, UInt32.toNat_ofNat']
    split at signed <;> omega
  · have least : ¬exponent.toInt < 0 := fun less => negative (Int32.lt_iff_toInt_lt.mpr less)
    rw [if_neg negative, abs_of_nonneg (by omega)]
    split at signed <;> omega

theorem wp_powers {temporaries : List Handle} {why : Status → Prop} {temporary : Bigrat} {u : ExactContext}
    {first second : Handle} {x y : Int} {magnitude : UInt32} {next : ExactM Unit} {good : Unit → ExactContext → Prop}
    (scratch : Scratch s temporaries u) (exhausted : ∀ stop, Exhausted stop → why stop)
    (member : .numerator temporary ∈ temporaries) (member' : .denominator temporary ∈ temporaries)
    (seen : view s first = some x) (seen' : view s second = some y)
    (rest : ∀ t, Scratch s temporaries t → view t (.numerator temporary) = some (x ^ magnitude.toNat) →
      view t (.denominator temporary) = some (y ^ magnitude.toNat) →
      wp next good (fun stop t => why stop ∧ Within temporaries s t) t) :
    wp ((do bigintPowU32 first magnitude (.numerator temporary)
            bigintPowU32 second magnitude (.denominator temporary)) >>= fun _ => next)
      good (fun stop t => why stop ∧ Within temporaries s t) u := by
  rw [bind_assoc]
  refine wp_next scratch exhausted member
    (fun _ target => bigintPowU32_spec scratch.valid (scratch.frame seen) target magnitude) fun v scratch view_v => ?_
  refine wp_next scratch exhausted member'
    (fun _ target => bigintPowU32_spec scratch.valid (scratch.frame seen') target magnitude) fun w scratch view_w => ?_
  exact rest w scratch (by rw [view_w, if_neg (by simp), view_v, if_pos rfl]) (by rw [view_w, if_pos rfl])

theorem bigratPowI32_spec (valid : Valid s) (first : Represents s source p) (live : Represents s out q)
    (exponent : Int32) :
    wp (bigratPowI32 source exponent out)
      (fun _ t => (p ≠ 0 ∨ 0 ≤ exponent.toInt) ∧ WritesRat s out (p ^ exponent.toInt) t)
      (fun stop t => (Exhausted stop ∨ stop = .domain ∧ p = 0 ∧ exponent.toInt < 0) ∧ Within [] s t) s := by
  obtain ⟨canonical, denotes⟩ := (valid.holds first.numerator).payload
  have less : exponent < 0 ↔ exponent.toInt < 0 := Int32.lt_iff_toInt_lt
  have least : 0 ≤ exponent ↔ 0 ≤ exponent.toInt := Int32.le_iff_toInt_le
  have magnitude := powMagnitude_spec exponent
  unfold bigratPowI32
  simp only [wp_bind, wp_get, first.compatible2 valid live, Bool.not_true, Bool.false_eq_true, ↓reduceIte,
    canonical.count_eq_zero, denotes, Rat.num_eq_zero]
  apply wp_ite
  · rintro ⟨negative, zero⟩
    exact ⟨.inr ⟨rfl, zero, less.mp negative⟩, .refl valid.toSound _⟩
  intro defined
  have defined' : p ≠ 0 ∨ 0 ≤ exponent.toInt := by
    by_cases zero : p = 0
    · exact .inr (by simpa [zero, less] using defined)
    · exact .inl zero
  refine wp_rational valid (fun _ => .inl) fun temporary u scratch _ => ?_
  unfold bigratPowI32.raise
  by_cases positive : 0 ≤ exponent.toInt
  · rw [abs_of_nonneg positive] at magnitude
    simp only [if_pos (least.mpr positive)]
    refine wp_powers scratch (fun _ => .inl) (by simp) (by simp) first.numerator first.denominator
      fun v scratch raised raised' => ?_
    refine wp_good (wp_reduce scratch live (fun _ => .inl) (fun zero => absurd zero (by positivity)) (by simp)
      (by simp) raised raised') ?_
    rintro _ t ⟨_, written⟩
    refine ⟨defined', ?_⟩
    rw [← magnitude, zpow_natCast]
    have power : p ^ (powMagnitude exponent).toNat =
        ((p.num ^ (powMagnitude exponent).toNat : Int) : ℚ) / ((p.den : Int) ^ (powMagnitude exponent).toNat : Int) := by
      conv_lhs => rw [← Rat.num_div_den p, div_pow]
      push_cast
      rfl
    rwa [power]
  · have nonzero : p ≠ 0 := defined'.resolve_right positive
    have num_nonzero : p.num ≠ 0 := Rat.num_ne_zero.mpr nonzero
    rw [abs_of_neg (by omega)] at magnitude
    simp only [if_neg (least.not.mpr positive)]
    refine wp_powers scratch (fun _ => .inl) (by simp) (by simp) first.denominator first.numerator
      fun v scratch raised raised' => ?_
    refine wp_good (wp_reduce scratch live (fun _ => .inl) (fun zero => absurd zero (pow_ne_zero _ num_nonzero))
      (by simp) (by simp) raised raised') ?_
    rintro _ t ⟨_, written⟩
    refine ⟨defined', ?_⟩
    rw [show exponent.toInt = -((powMagnitude exponent).toNat : Int) by omega, zpow_neg, zpow_natCast]
    have power : (p ^ (powMagnitude exponent).toNat)⁻¹ =
        (((p.den : Int) ^ (powMagnitude exponent).toNat : Int) : ℚ) / (p.num ^ (powMagnitude exponent).toNat : Int) := by
      conv_lhs => rw [← Rat.num_div_den p, div_pow, inv_div]
      push_cast
      rfl
    rwa [power]

theorem cross_sign (p q : ℚ) : (p.num * q.den - q.num * p.den).sign = (p - q).num.sign := by
  have cross : (p - q) * ((p.den : ℚ) * q.den) = ((p.num * q.den - q.num * p.den : Int) : ℚ) := by
    have p_mul : p * p.den = p.num := by exact_mod_cast Rat.mul_den_eq_num p
    have q_mul : q * q.den = q.num := by exact_mod_cast Rat.mul_den_eq_num q
    push_cast
    rw [← p_mul, ← q_mul]
    ring
  have positive : (0 : ℚ) < (p.den : ℚ) * q.den := by positivity
  rcases lt_trichotomy (p - q) 0 with negative | zero | more
  · have less : p.num * q.den - q.num * p.den < 0 := by
      exact_mod_cast cross ▸ mul_neg_of_neg_of_pos negative positive
    rw [Int.sign_eq_neg_one_of_neg less, Int.sign_eq_neg_one_of_neg (Rat.num_neg.mpr negative)]
  · rw [zero, zero_mul] at cross
    have same : p.num * q.den - q.num * p.den = 0 := by exact_mod_cast cross.symm
    rw [same, zero]
    rfl
  · have greater : 0 < p.num * q.den - q.num * p.den := by
      exact_mod_cast cross ▸ mul_pos more positive
    rw [Int.sign_eq_one_of_pos greater, Int.sign_eq_one_of_pos (Rat.num_pos.mpr more)]

theorem bigratCompare_spec (valid : Valid s) (first : Represents s left p) (second : Represents s right q) :
    wp (bigratCompare left right) (fun order t => order = (p - q).num.sign ∧ Valid t ∧ Within [] s t)
      (fun stop t => Exhausted stop ∧ Within [] s t) s := by
  unfold bigratCompare
  simp only [wp_bind, wp_get, first.compatible2 valid second, Bool.not_true, Bool.false_eq_true, ↓reduceIte]
  refine wp_operation valid.toSound fun r begun => ?_
  have scratch : Scratch s [] r :=
    ⟨valid.unchanged begun, begun, fun _ member => absurd member List.not_mem_nil,
      fun _ member => absurd member List.not_mem_nil, List.nodup_nil⟩
  refine wp_mono (?_ : wp _ (fun order t => order = (p - q).num.sign ∧ Valid t ∧ Within [] s t)
    (fun stop t => Exhausted stop ∧ Within [] s t) r)
    (fun _ _ done => ⟨done.1, Valid.ended done.2.1, Within.ended done.2.2⟩)
    (fun _ _ stopped => ⟨stopped.1, Within.ended stopped.2⟩)
  refine wp_local scratch fun leftCross u scratch => ?_
  refine wp_local scratch fun rightCross u scratch => ?_
  have apart := scratch.nodup
  simp only [List.nodup_cons, List.mem_cons, List.not_mem_nil, or_false] at apart
  refine wp_next scratch (fun _ => id) (by simp) (fun _ target =>
    bigintMultiply_spec scratch.valid (scratch.frame first.numerator) (scratch.frame second.denominator) target)
    fun v scratch view_v => ?_
  refine wp_next scratch (fun _ => id) (by simp) (fun _ target =>
    bigintMultiply_spec scratch.valid (scratch.frame second.numerator) (scratch.frame first.denominator) target)
    fun w scratch view_w => ?_
  have cross : Holds w leftCross (p.num * q.den) := scratch.valid.holds (by grind)
  have cross' : Holds w rightCross (q.num * p.den) := scratch.valid.holds (by grind)
  rw [wp_bind, wp_get, wp_pure, bigintCompare_spec scratch.valid.toSound cross cross', cross_sign]
  exact ⟨rfl, @close_valid [rightCross, leftCross] w scratch.valid,
    @close_within s [rightCross, leftCross] [] w scratch.absent scratch.within⟩

end PhyNspire.Exact.RationalField

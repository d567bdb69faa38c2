import PhyNspire.Exact.Accounting
import PhyNspire.Exact.Integer

/-!
The limb loops of integer.c, each against the natural number it computes.

A value in canonical form is determined by the integer it denotes, so a loop is specified
by that integer alone. A loop that stops early has kept the books and touched nothing but
the handle it was working on.
-/

namespace PhyNspire.Exact.Magnitude
open Platform Lib Lib.Stateful Context Accounting Integer
open Limbs (value digit Normal)

/-- The integer that a payload denotes. -/
def toInt (b : Bigint) : Int := b.sign * (value b.limbs : Int)

/-- No zero limb on top, and sign zero exactly for zero. -/
structure Canonical (b : Bigint) : Prop where
  normal : Normal b.limbs
  signed : if b.limbs = [] then b.sign = 0 else b.sign = 1 ∨ b.sign = -1

def Holds (s : ExactContext) (handle : Handle) (n : Int) : Prop :=
  ∃ b, s.lookup handle = some b ∧ Canonical b ∧ toInt b = n

theorem canonical_empty (capacity : Nat) : Canonical ⟨[], capacity, 0⟩ := ⟨Limbs.normal_nil, by simp⟩

theorem Canonical.sign_eq {b : Bigint} (canonical : Canonical b) : b.sign = (toInt b).sign := by
  have signed := canonical.signed
  by_cases zero : b.limbs = []
  · rw [if_pos zero] at signed
    simp [toInt, signed]
  · rw [if_neg zero] at signed
    have positive : 0 < value b.limbs :=
      Nat.pos_of_ne_zero fun equal => zero ((Limbs.value_eq_zero canonical.normal).mp equal)
    have ahead : (value b.limbs : Int).sign = 1 := Int.sign_eq_one_of_pos (by exact_mod_cast positive)
    rcases signed with plus | minus
    · rw [toInt, plus, one_mul, ahead]
    · rw [toInt, minus, Int.sign_mul, ahead]
      rfl

theorem Canonical.natAbs_eq {b : Bigint} (canonical : Canonical b) : (toInt b).natAbs = value b.limbs := by
  have signed := canonical.signed
  by_cases zero : b.limbs = []
  · simp [toInt, zero]
  · rw [if_neg zero] at signed
    rcases signed with plus | minus
    · simp [toInt, plus]
    · simp [toInt, minus]

theorem Canonical.eq_zero_iff {b : Bigint} (canonical : Canonical b) : b.limbs = [] ↔ toInt b = 0 := by
  rw [← Limbs.value_eq_zero canonical.normal, ← canonical.natAbs_eq, Int.natAbs_eq_zero]

theorem Canonical.count_eq_zero {b : Bigint} (canonical : Canonical b) : b.count = 0 ↔ toInt b = 0 := by
  rw [← canonical.eq_zero_iff, Bigint.count, List.length_eq_zero_iff]

theorem Canonical.value_eq {b : Bigint} (canonical : Canonical b) {n : Nat} (denotes : toInt b = n) :
    value b.limbs = n := by
  rw [← canonical.natAbs_eq, denotes, Int.natAbs_natCast]

variable {limbs : List (BitVec 32)} {sign : Int}

theorem canonical_of_normal (normal : Normal limbs) (capacity : Nat)
    (signed : if limbs = [] then sign = 0 else sign = 1 ∨ sign = -1) : Canonical ⟨limbs, capacity, sign⟩ :=
  ⟨normal, signed⟩

theorem toInt_of_nonneg (capacity : Nat)
    (signed : limbs ≠ [] → sign = 1) : toInt ⟨limbs, capacity, sign⟩ = value limbs := by
  by_cases zero : limbs = []
  · simp [toInt, zero]
  · simp [toInt, signed zero]

theorem valid_eq_true {b : Bigint} {maxLimbs : Nat} :
    b.valid maxLimbs = true ↔ b.count ≤ b.capacity ∧ b.capacity ≤ maxLimbs ∧ Canonical b := by
  rcases List.eq_nil_or_concat b.limbs with empty | ⟨rest, top, split⟩
  · simp only [Bigint.valid, empty, List.getLast?_nil, Bool.and_eq_true, decide_eq_true_eq]
    constructor
    · rintro ⟨⟨⟨⟨inside, admitted⟩, _⟩, _⟩, zero⟩
      exact ⟨inside, admitted, by rw [empty]; exact Limbs.normal_nil, by rw [if_pos empty]; exact zero⟩
    · rintro ⟨inside, admitted, canonical⟩
      have zero := canonical.signed
      rw [if_pos empty] at zero
      simp only [inside, admitted, zero]
      decide
  · rw [List.concat_eq_append] at split
    have some : b.limbs ≠ [] := by simp [split]
    simp only [Bigint.valid, split, List.getLast?_append, List.getLast?_singleton, Option.some_or,
      Bool.and_eq_true, decide_eq_true_eq]
    constructor
    · rintro ⟨⟨⟨⟨inside, admitted⟩, low⟩, high⟩, nonzero, top⟩
      refine ⟨inside, admitted, ?_, ?_⟩
      · rw [split]
        exact Limbs.normal_append_singleton.mpr top
      · rw [if_neg some]
        omega
    · rintro ⟨inside, admitted, canonical⟩
      have signed := canonical.signed
      have normal := canonical.normal
      rw [if_neg some] at signed
      rw [split] at normal
      exact ⟨⟨⟨⟨inside, admitted⟩, by omega⟩, by omega⟩, by omega, Limbs.normal_append_singleton.mp normal⟩

theorem valid_of_lookup {s : ExactContext} (sound : Sound s) {handle : Handle} {b : Bigint}
    (found : s.lookup handle = some b) (canonical : Canonical b) : b.valid s.maxLimbs = true :=
  valid_eq_true.mpr ⟨(sound.of_lookup found).1, (sound.of_lookup found).2, canonical⟩

variable {n : Int}

theorem Holds.shallowValid {s : ExactContext} (sound : Sound s) {handle : Handle}
    (holds : Holds s handle n) : s.bigintShallowValid handle = true := by
  obtain ⟨b, found, canonical, _⟩ := holds
  simpa only [ExactContext.bigintShallowValid, found] using valid_of_lookup sound found canonical

theorem Holds.payload {s : ExactContext} {handle : Handle} (holds : Holds s handle n) :
    Canonical (s.payload handle) ∧ toInt (s.payload handle) = n := by
  obtain ⟨b, found, canonical, denotes⟩ := holds
  rw [payload_of_lookup found]
  exact ⟨canonical, denotes⟩

variable {m : Int}

theorem Holds.unique {s : ExactContext} {handle : Handle} (first : Holds s handle n)
    (second : Holds s handle m) : n = m :=
  first.payload.2.symm.trans second.payload.2

theorem Holds.frame {opened : List Handle} {s t : ExactContext} (within : Within opened s t) {handle : Handle}
    (outside : handle ∉ opened) (holds : Holds s handle n) : Holds t handle n := by
  obtain ⟨b, found, rest⟩ := holds
  exact ⟨b, (within.others handle outside).trans found, rest⟩

theorem Holds.ne {s : ExactContext} {handle other : Handle} (holds : Holds s handle n)
    (absent : s.lookup other = none) : handle ≠ other := by
  rintro rfl
  obtain ⟨b, found, _⟩ := holds
  rw [absent] at found
  cases found

theorem value_take_count (b : Bigint) : value (b.limbs.take b.count) = value b.limbs :=
  Limbs.value_take_of_le (Nat.le_refl _)

variable {bad : Status → ExactContext → Prop}

theorem adjust_spec {s : ExactContext} (sound : Sound s) {handle : Handle} {old : Bigint}
    (found : s.lookup handle = some old) {change : Bigint → Bigint}
    (room : (change old).capacity = old.capacity) (inside : (change old).count ≤ old.capacity)
    :
    wp (adjust handle change)
      (fun _ t => Within [handle] s t ∧ t.lookup handle = some (change old)) bad s := by
  simp only [adjust, wp_modify, payload_of_lookup found]
  exact ⟨store_within sound found room (by rw [room]; exact inside), store_lookup found _⟩

theorem clear_spec {s : ExactContext} (sound : Sound s) {handle : Handle} {old : Bigint}
    (found : s.lookup handle = some old) :
    wp (adjust handle cleared) (fun _ t => Within [handle] s t ∧ Holds t handle 0) bad s := by
  refine wp_good (adjust_spec sound found rfl (Nat.zero_le _)) ?_
  rintro _ t ⟨within, now⟩
  exact ⟨within, _, now, canonical_empty _, by simp [toInt, cleared]⟩

theorem reserve_spec {s : ExactContext} (sound : Sound s) {handle : Handle} {b : Bigint}
    (found : s.lookup handle = some b) (canonical : Canonical b) (needed : Nat) :
    wp (bigintReserve handle needed)
      (fun _ t => Within [handle] s t ∧ ∃ capacity, needed ≤ capacity ∧ b.capacity ≤ capacity ∧
        t.lookup handle = some { b with capacity := capacity })
      (fun stop t => Exhausted stop ∧ Within [] s t) s :=
  bigintReserve_spec sound found (valid_of_lookup sound found canonical) needed

theorem word_limbs {magnitude : Nat} (word : magnitude < 2 ^ 64)
    (written : limbs = if (if 0xffffffff < magnitude then 2 else 1) = 2 then
      [BitVec.ofNat 32 magnitude, BitVec.ofNat 32 (magnitude >>> 32)] else [BitVec.ofNat 32 magnitude]) :
    limbs ≠ [] ∧ limbs.length = (if 0xffffffff < magnitude then 2 else 1) ∧ value limbs = magnitude := by
  by_cases wide : 0xffffffff < magnitude
  · have split : magnitude % 2 ^ 32 + 2 ^ 32 * (magnitude / 2 ^ 32 % 2 ^ 32) = magnitude := by omega
    simpa [written, wide, Nat.shiftRight_eq_div_pow] using split
  · have small : magnitude % 2 ^ 32 = magnitude := Nat.mod_eq_of_lt (by omega)
    simpa [written, wide] using small

theorem bigintAssignU64_spec {s : ExactContext} (sound : Sound s) {handle : Handle}
    (holds : Holds s handle n) {magnitude : Nat} (word : magnitude < 2 ^ 64)
    (signed : sign = 0 ∨ sign = 1 ∨ sign = -1) :
    wp (bigintAssignU64 handle magnitude sign)
      (fun _ t => Within [handle] s t ∧ Holds t handle ((if sign = 0 then 1 else sign) * magnitude))
      (fun stop t => Exhausted stop ∧ Within [] s t) s := by
  obtain ⟨b, found, canonical, _⟩ := id holds
  unfold bigintAssignU64
  simp only [wp_bind, wp_get, holds.shallowValid sound, Bool.not_true, Bool.false_or]
  rw [if_neg (by simp; omega)]
  apply wp_ite
  · rintro rfl
    simpa using clear_spec sound found
  intro nonzero
  simp only [wp_bind]
  refine wp_good (reserve_spec sound found canonical _) ?_
  rintro _ t ⟨reserved, capacity, enough, _, grown⟩
  obtain ⟨some, length, denotes⟩ := word_limbs word rfl
  refine wp_good (adjust_spec reserved.sound grown rfl ?_) ?_
  · simpa only [Bigint.count, length] using enough
  rintro _ u ⟨assigned, now⟩
  refine ⟨reserved.trans assigned, _, now, canonical_of_normal ?_ _ ?_, ?_⟩
  · apply Limbs.normal_of_pow_le
    rw [denotes, length]
    split <;> omega
  · rw [if_neg some]
    split <;> omega
  · simp only [toInt, denotes]

theorem resign_spec {s : ExactContext} (sound : Sound s) {handle : Handle} (holds : Holds s handle n)
    {sign : Bigint → Int} {k : Int} (agree : ∀ b, Canonical b → toInt b = n → sign b = k)
    (signed : n ≠ 0 → k = 1 ∨ k = -1) :
    wp (adjust handle fun b => if b.count ≠ 0 then withSign (sign b) b else b)
      (fun _ t => Within [handle] s t ∧ Holds t handle (k * n.natAbs)) bad s := by
  obtain ⟨b, found, canonical, denotes⟩ := holds
  by_cases zero : n = 0
  · have empty : b.count = 0 := canonical.count_eq_zero.mpr (denotes.trans zero)
    refine wp_good (adjust_spec sound found (by simp [empty]) (by simp [empty])) ?_
    rintro _ t ⟨within, now⟩
    refine ⟨within, b, by simpa [empty] using now, canonical, ?_⟩
    simp [denotes, zero]
  · have some : b.count ≠ 0 := fun empty => zero (denotes.symm.trans (canonical.count_eq_zero.mp empty))
    refine wp_good (adjust_spec sound found (by simp [some, withSign]) ?_) ?_
    · rw [if_pos some]
      exact (sound.of_lookup found).1
    rintro _ t ⟨within, now⟩
    rw [if_pos some] at now
    refine ⟨within, _, now, canonical_of_normal canonical.normal _ ?_, ?_⟩
    · rw [if_neg fun empty => some (by rw [Bigint.count, empty]; rfl)]
      rw [agree b canonical denotes]
      exact signed zero
    · have magnitude := canonical.natAbs_eq
      rw [denotes] at magnitude
      simp only [toInt, withSign, agree b canonical denotes, magnitude]

theorem negate_spec {s : ExactContext} (sound : Sound s) {handle : Handle} (holds : Holds s handle n) :
    wp (adjust handle fun b => if b.count ≠ 0 then withSign (-b.sign) b else b)
      (fun _ t => Within [handle] s t ∧ Holds t handle (-n)) bad s := by
  refine wp_good (resign_spec sound holds (k := -n.sign) ?_ ?_) ?_
  · intro b canonical denotes
    rw [canonical.sign_eq, denotes]
  · intro nonzero
    rcases lt_or_gt_of_ne nonzero with negative | positive
    · exact .inl (by rw [Int.sign_eq_neg_one_of_neg negative]; rfl)
    · exact .inr (by rw [Int.sign_eq_one_of_pos positive])
  · rintro _ t ⟨within, now⟩
    rw [neg_mul, Int.sign_mul_natAbs] at now
    exact ⟨within, now⟩

theorem copyPayload_spec {s : ExactContext} (sound : Sound s) {source destination : Handle}
    (reading : Holds s source n) (writing : Holds s destination m) (distinct : source ≠ destination)
    (magnitudeOnly : Bool) :
    wp (copyPayload source destination magnitudeOnly)
      (fun _ t => Within [destination] s t ∧
        Holds t destination (if magnitudeOnly then (n.natAbs : Int) else n))
      (fun stop t => Exhausted stop ∧ Within [] s t) s := by
  obtain ⟨b, found, canonical, denotes⟩ := reading
  obtain ⟨c, target, canonical', _⟩ := writing
  unfold copyPayload
  simp only [wp_bind, wp_get, payload_of_lookup found]
  refine wp_good (reserve_spec sound target canonical' _) ?_
  rintro _ t ⟨reserved, capacity, enough, _, grown⟩
  have source_kept : t.lookup source = some b :=
    (reserved.others source (by simpa using distinct)).trans found
  simp only [payload_of_lookup source_kept]
  refine wp_good (adjust_spec reserved.sound grown rfl enough) ?_
  rintro _ u ⟨assigned, now⟩
  refine ⟨reserved.trans assigned, _, now, canonical_of_normal canonical.normal _ ?_, ?_⟩
  · have signed := canonical.signed
    by_cases empty : b.limbs = []
    · simp [empty]
    · rw [if_neg empty] at signed ⊢
      rw [if_neg empty]
      split
      · exact .inl rfl
      · exact signed
  · by_cases empty : b.limbs = []
    · have zero : n = 0 := denotes.symm.trans (canonical.eq_zero_iff.mp empty)
      simp [toInt, empty, zero]
    · cases magnitudeOnly with
      | true =>
        have magnitude := canonical.natAbs_eq
        rw [denotes] at magnitude
        simp only [toInt, if_neg empty, ↓reduceIte, one_mul, magnitude]
      | false => simpa [toInt, empty] using denotes

theorem compareLimbs_spec (left right : List (BitVec 32)) (count : Nat) :
    compareLimbs left right count = ((value (left.take count) : Int) - value (right.take count)).sign := by
  induction count with
  | zero => simp [compareLimbs]
  | succ count ih =>
    rw [compareLimbs]
    by_cases same : digit left count = digit right count
    · rw [if_neg (not_not.mpr same), ih, Limbs.value_take_succ, Limbs.value_take_succ, same]
      congr 1
      push_cast
      ring
    · rw [if_pos same]
      by_cases larger : digit right count < digit left count
      · have order := Limbs.value_take_lt_of_digit larger
        rw [if_pos larger, Int.sign_eq_one_of_pos (by omega)]
      · have order := Limbs.value_take_lt_of_digit (show digit left count < digit right count by omega)
        rw [if_neg larger, Int.sign_eq_neg_one_of_neg (by omega)]

theorem compareAbs_spec {left right : Bigint} (first : Canonical left) (second : Canonical right) :
    compareAbs left right = ((value left.limbs : Int) - value right.limbs).sign := by
  unfold compareAbs
  by_cases same : left.count = right.count
  · have whole : left.limbs.take left.count = left.limbs := List.take_length
    have whole' : right.limbs.take left.count = right.limbs := by rw [same]; exact List.take_length
    rw [if_neg (not_not.mpr same), compareLimbs_spec, whole, whole']
  · rw [if_pos same]
    by_cases longer : right.count < left.count
    · have order := Limbs.value_lt_of_length_lt first.normal longer
      rw [if_pos longer, Int.sign_eq_one_of_pos (by omega)]
    · have shorter : left.limbs.length < right.limbs.length := by
        simp only [Bigint.count] at same longer
        omega
      have order := Limbs.value_lt_of_length_lt second.normal shorter
      rw [if_neg longer, Int.sign_eq_neg_one_of_neg (by omega)]

theorem bigintCompareAbs_spec {s : ExactContext} (sound : Sound s) {left right : Handle}
    (first : Holds s left n) (second : Holds s right m) :
    bigintCompareAbs s left right = ((n.natAbs : Int) - m.natAbs).sign := by
  obtain ⟨canonical, denotes⟩ := first.payload
  obtain ⟨canonical', denotes'⟩ := second.payload
  have compatible : compatible2 s left right = true := by
    simp only [compatible2, first.shallowValid sound, second.shallowValid sound, Bool.and_self]
  rw [bigintCompareAbs, compatible, ← denotes, ← denotes', canonical.natAbs_eq, canonical'.natAbs_eq]
  exact compareAbs_spec canonical canonical'

theorem signed_order (n m : Int) :
    (if n.sign ≠ m.sign then if m.sign < n.sign then 1 else -1
      else if n.sign = 0 then 0
      else if 0 < n.sign then ((n.natAbs : Int) - m.natAbs).sign
      else -((n.natAbs : Int) - m.natAbs).sign) = (n - m).sign := by
  have less : ∀ k : Int, k < 0 → k.sign = -1 := fun _ => Int.sign_eq_neg_one_of_neg
  have more : ∀ k : Int, 0 < k → k.sign = 1 := fun _ => Int.sign_eq_one_of_pos
  rcases lt_trichotomy n 0 with negative | rfl | positive
  · rcases lt_trichotomy m 0 with negative' | rfl | positive'
    · simp only [less n negative, less m negative', ← Int.sign_neg]
      exact congrArg Int.sign (by omega)
    · simp [less n negative]
    · simp [less n negative, more m positive', less (n - m) (by omega)]
  · rcases lt_trichotomy m 0 with negative' | rfl | positive'
    · simp [less m negative', more (-m) (by omega)]
    · simp
    · simp [more m positive', less (-m) (by omega)]
  · rcases lt_trichotomy m 0 with negative' | rfl | positive'
    · simp [more n positive, less m negative', more (n - m) (by omega)]
    · simp [more n positive]
    · simp only [more n positive, more m positive']
      exact congrArg Int.sign (by omega)

theorem bigintCompare_spec {s : ExactContext} (sound : Sound s) {left right : Handle}
    (first : Holds s left n) (second : Holds s right m) : bigintCompare s left right = (n - m).sign := by
  obtain ⟨canonical, denotes⟩ := first.payload
  obtain ⟨canonical', denotes'⟩ := second.payload
  have compatible : compatible2 s left right = true := by
    simp only [compatible2, first.shallowValid sound, second.shallowValid sound, Bool.and_self]
  have order := compareAbs_spec canonical canonical'
  rw [← canonical.natAbs_eq, ← canonical'.natAbs_eq, denotes, denotes'] at order
  simp only [bigintCompare, compatible, Bool.not_true, Bool.false_eq_true, ↓reduceIte, canonical.sign_eq,
    canonical'.sign_eq, denotes, denotes', order]
  exact signed_order n m

section
variable {s : ExactContext} {handle : Handle} {b : Bigint}

/-- A pass in place keeps any relation between the low limbs it has written and its carry
that every column keeps. -/
theorem limbPass_spec (sound : Sound s) (found : s.lookup handle = some b)
    {column : Nat → Nat → Nat → Nat × Nat} {carry : Nat} (P : Nat → Nat → Nat → Prop) (start : P 0 0 carry)
    (advance : ∀ i low carry, i < b.count → P i low carry →
      P (i + 1) (low + (2 ^ 32) ^ i * ((column i (digit b.limbs i) carry).1 % 2 ^ 32))
        (column i (digit b.limbs i) carry).2) :
    wp (limbPass handle column b.count carry)
      (fun last t => Within [handle] s t ∧ ∃ limbs, limbs.length = b.count ∧
        t.lookup handle = some { b with limbs := limbs } ∧ P b.count (value limbs) last)
      (fun stop t => Exhausted stop ∧ Within [handle] s t) s := by
  refine wp_good (wp_countUp (fun i carry t => Within [handle] s t ∧ ∃ limbs,
    limbs.length = b.count ∧ t.lookup handle = some { b with limbs := limbs } ∧
    (∀ j, i ≤ j → digit limbs j = digit b.limbs j) ∧ P i (value (limbs.take i)) carry) b.count 0 carry s
    ⟨.refl sound _, b.limbs, rfl, found, fun _ _ => rfl, start⟩ ?_) ?_
  · rintro i carry t - inside ⟨within, limbs, length, now, untouched, holds⟩
    simp only [wp_bind, wp_get, wp_pure]
    refine wp_mono (exactStep_spec within.sound 1) ?_
      (fun _ _ stopped => ⟨stopped.1, within.trans (stopped.2.widen _)⟩)
    intro _ u stepped
    have here : u.lookup handle = some { b with limbs := limbs } := by rw [stepped.lookup_eq, now]
    rw [payload_of_lookup here, untouched i (Nat.le_refl i)]
    set next := column i (digit b.limbs i) carry
    refine wp_good (adjust_spec stepped.sound here rfl ?_) ?_
    · simpa [setLimb, Bigint.count, length] using (sound.of_lookup found).1
    rintro _ v ⟨written, then_⟩
    have room : i < limbs.length := by omega
    refine ⟨(within.trans (stepped.widen _)).trans written, limbs.set i (BitVec.ofNat 32 next.1), by simpa using length,
      then_, fun j above => ?_, ?_⟩
    · rw [Limbs.digit_set_of_ne (by omega), untouched j (by omega)]
    · rw [Limbs.value_take_succ, Limbs.digit_set_self room, List.take_set_of_le (Nat.le_refl i),
        BitVec.toNat_ofNat]
      exact advance i _ carry (by omega) holds
  · rintro last t ⟨within, limbs, length, now, _, holds⟩
    rw [Nat.zero_add, Limbs.value_take_of_le (Nat.le_of_eq length)] at holds
    exact ⟨within, limbs, length, now, holds⟩

theorem limbColumns_spec (sound : Sound s) {column : Nat → Nat → Nat × Nat} {count : Nat}
    (P : Nat → Nat → Nat → Prop) (start : P 0 0 0)
    (advance : ∀ i low carry, i < count → P i low carry →
      P (i + 1) (low + (2 ^ 32) ^ i * ((column i carry).1 % 2 ^ 32)) (column i carry).2) :
    wp (limbColumns column count)
      (fun made t => Within [] s t ∧ made.1.length = count ∧ P count (value made.1) made.2)
      (fun stop t => Exhausted stop ∧ Within [] s t) s := by
  refine wp_good (wp_countUp (fun i (made : List (BitVec 32) × Nat) t => Within [] s t ∧ made.1.length = i ∧ P i (value made.1) made.2)
    count 0 ([], 0) s ⟨.refl sound _, rfl, start⟩ ?_) ?_
  · rintro i made t - inside ⟨within, length, holds⟩
    simp only [wp_bind, wp_pure]
    refine wp_mono (exactStep_spec within.sound 1) ?_ (fun _ _ stopped => ⟨stopped.1, within.trans stopped.2⟩)
    intro _ u stepped
    refine ⟨within.trans stepped, by simp [length], ?_⟩
    rw [Limbs.value_append, length]
    simpa using advance i _ _ (by omega) holds
  · rintro made t ⟨within, length, holds⟩
    rw [Nat.zero_add] at length holds
    exact ⟨within, length, holds⟩

end

end PhyNspire.Exact.Magnitude

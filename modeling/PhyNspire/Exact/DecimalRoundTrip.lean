import PhyNspire.Exact.Decimals
import PhyNspire.Exact.Runs

/-!
Decimal text written and read back. The reader reserves a limb ahead of every multiplication and
every addition, so it needs one more limb than the number that it carries further; a number
that fills the last limb may be written and yet refused when it is read.
-/

namespace PhyNspire.Exact.Decimals
open Platform Lib Lib.Stateful Lib.Decimal Lib.Registry Context Accounting Integer Magnitude Carry Arithmetic Runs

variable {s t : ExactContext} {handle : Handle}

theorem weight_eq_of_find {left right : Entries Handle Bigint} (distinct : (keys left).Nodup) (distinct' : (keys right).Nodup)
    (same : ∀ key, find key left = find key right) (cost : Bigint → Nat) : weight cost left = weight cost right := by
  have members : ∀ entry, entry ∈ left ↔ entry ∈ right := by
    intro entry
    constructor
    · intro inside
      exact mem_of_find ((same entry.1).symm.trans (find_of_mem distinct inside))
    · intro inside
      exact mem_of_find ((same entry.1).trans (find_of_mem distinct' inside))
  have alike := (List.perm_ext_iff_of_nodup distinct.of_map distinct'.of_map).mpr members
  exact (alike.map _).sum_eq

theorem bytes_le_of_temporary (sound : Sound s) (absent : s.lookup handle = none) (within : Within [handle] s t) :
    t.bytes ≤ s.bytes + limbSize * s.maxLimbs := by
  have closed := within.close absent
  have same : weight limbBytes (bigintDestroy handle t).values = weight limbBytes s.values :=
    weight_eq_of_find closed.sound.distinct sound.distinct (fun key => closed.others key List.not_mem_nil) limbBytes
  have overhead := closed.overhead
  cases found : t.lookup handle with
  | none =>
    have kept : bigintDestroy handle t = t := by unfold bigintDestroy; rw [found]
    rw [kept] at same overhead
    omega
  | some value =>
    have bound := (within.sound.of_lookup found).2
    have released : t.bytes ≤ (bigintDestroy handle t).bytes + value.capacity * limbSize := by
      unfold bigintDestroy
      rw [found]
      dsimp only
      split
      · exact Nat.le_add_right _ _
      · simp only [ExactContext.discharge]
        omega
    rw [within.maxLimbs] at bound
    have limbs : value.capacity * limbSize ≤ limbSize * s.maxLimbs := by
      rw [Nat.mul_comm]
      exact Nat.mul_le_mul_left _ bound
    omega

/-- The budget of bytes may not cover a block of the largest size. -/
def Tight (s : ExactContext) : Prop := s.limits.maxBytes.toNat - s.bytes < limbSize * s.maxLimbs

variable {b : Bigint}

/-- A reservation returns only below the ceiling, and is refused there only for lack of bytes. -/
theorem reserve_ceiling (sound : Sound s) (found : s.lookup handle = some b) (canonical : Canonical b) (needed : Nat) :
    wp (bigintReserve handle needed) (fun _ _ => needed ≤ s.maxLimbs)
      (fun stop _ => stop = .memoryLimit → needed ≤ s.maxLimbs → Tight s) s := by
  have shallow : s.bigintShallowValid handle = true := by
    simpa only [ExactContext.bigintShallowValid, found] using valid_of_lookup sound found canonical
  obtain ⟨inside, admitted⟩ := sound.of_lookup found
  unfold bigintReserve
  simp only [wp_bind, wp_get, shallow, payload_of_lookup found, Bool.not_true, Bool.false_eq_true, ↓reduceIte]
  apply wp_ite
  · exact fun roomy => roomy.trans admitted
  intro small
  apply wp_ite
  · exact fun refused _ allowed => absurd allowed (not_le.mpr refused)
  intro allowed
  have below : needed ≤ s.maxLimbs := not_lt.mp allowed
  obtain ⟨grown, run, -, -, bounded⟩ := growCapacity_spec needed below needed
    (if b.capacity ≠ 0 then b.capacity else 1) (by split <;> omega) (by split <;> omega) (by omega)
  rw [run]
  simp only [checkedBytes_of_le (bounded.trans sound.ceiling), charge, wp_bind, wp_get]
  apply wp_ite
  · intro poor
    simp only [wp_pure, Bool.false_eq_true, ↓reduceIte, wp_throw]
    intro _ _
    have most : grown * limbSize ≤ limbSize * s.maxLimbs := by
      rw [Nat.mul_comm]
      exact Nat.mul_le_mul_left _ bounded
    exact poor.trans_le most
  intro _
  simp only [wp_bind, wp_set, wp_pure, ↓reduceIte, allocate, wp_get, Heap.alloc]
  apply wp_ite
  · intro _
    simp only [wp_set]
    apply wp_ite
    · exact fun _ => below
    · exact fun _ => below
  · intro _ refused
    cases refused

theorem avoids_exactStep (amount : Nat) : Avoids .memoryLimit (exactStep amount) := by
  intro s
  unfold exactStep
  simp only [wp_bind, wp_get]
  apply wp_ite
  · intro _
    exact fun same => by cases same
  · intro _
    cases s.cancelled with
    | none => trivial
    | some cancelled =>
      simp only [wp_bind, wp_set]
      apply wp_ite
      · intro _
        exact fun same => by cases same
      · exact fun _ => trivial

theorem avoids_limbPass (column : Nat → Nat → Nat → Nat × Nat) (count carry : Nat) :
    Avoids .memoryLimit (limbPass handle column count carry) := by
  apply Avoids.countUp
  intro index carry
  exact .bind (avoids_exactStep 1) fun _ _ => trivial

theorem avoids_pushCarry (carry : Nat) : Avoids .memoryLimit (pushCarry handle carry) :=
  .ite (fun _ _ => trivial) (fun _ => .pure _)

theorem avoids_addSmallLoop (remaining index carry : Nat) : Avoids .memoryLimit (addSmallLoop handle remaining index carry) := by
  induction remaining generalizing index carry with
  | zero => exact .pure _
  | succ remaining ih =>
    unfold addSmallLoop
    refine .ite (fun _ => .bind (avoids_exactStep 1) fun _ s => ?_) (fun _ => .pure _)
    rw [wp_bind, wp_get]
    simp only [wp_bind]
    exact ih _ _ _

theorem ceiling_after {α : Type} (sound : Sound s) (found : s.lookup handle = some b) (canonical : Canonical b)
    (needed : Nat) {rest : ExactM α} (quiet : Avoids .memoryLimit rest) :
    wp (do bigintReserve handle needed; rest) (fun _ _ => needed ≤ s.maxLimbs)
      (fun stop _ => stop = .memoryLimit → needed ≤ s.maxLimbs → Tight s) s := by
  apply wp_then (reserve_ceiling sound found canonical needed)
  intro _ t allowed
  apply wp_mono (quiet t) (fun _ _ _ => allowed)
  exact fun stop _ other refused => absurd refused other

/-- One more limb than a number has is within the ceiling. -/
def RoomAfter (maxLimbs n : Nat) : Prop := n < (2 ^ 32) ^ (maxLimbs - 1)

variable {n : Nat}

theorem count_succ_le_iff (canonical : Canonical b) (some : b.limbs ≠ []) (denotes : toInt b = n)
    (maxLimbs : Nat) : b.count + 1 ≤ maxLimbs ↔ RoomAfter maxLimbs n := by
  have value := canonical.value_eq denotes
  have positive : 0 < b.limbs.length := List.length_pos_iff.mpr some
  have low := Limbs.pow_le_value canonical.normal some
  have high := Limbs.value_lt b.limbs
  rw [value] at low high
  unfold RoomAfter Bigint.count
  constructor
  · intro room
    exact high.trans_le (Nat.pow_le_pow_right (by decide) (by omega))
  · intro room
    by_contra full
    have power : (2 ^ 32) ^ (maxLimbs - 1) ≤ (2 ^ 32) ^ (b.limbs.length - 1) := Nat.pow_le_pow_right (by decide) (by omega)
    omega

/-- What the reader needs to multiply a number by ten, and to add a digit to it. -/
def MultiplyFits (maxLimbs n : Nat) : Prop := n = 0 ∨ RoomAfter maxLimbs n

def AddFits (maxLimbs n digit : Nat) : Prop := digit = 0 ∨ if n = 0 then 1 ≤ maxLimbs else RoomAfter maxLimbs n

theorem multiplySmallInPlace_ceiling (sound : Sound s) (holds : Holds s handle n) :
    wp (multiplySmallInPlace handle 10) (fun _ _ => MultiplyFits s.maxLimbs n)
      (fun stop _ => stop = .memoryLimit → MultiplyFits s.maxLimbs n → Tight s) s := by
  obtain ⟨b, found, canonical, denotes⟩ := holds
  unfold multiplySmallInPlace
  simp only [wp_bind, wp_get, payload_of_lookup found]
  apply wp_ite
  · rintro (empty | impossible)
    · exact .inl (by exact_mod_cast denotes.symm.trans (canonical.count_eq_zero.mp empty))
    · cases impossible
  intro general
  rw [if_neg (by decide)]
  have some : b.limbs ≠ [] := fun empty => general (.inl (by rw [Bigint.count, empty]; rfl))
  have positive : n ≠ 0 := by
    rintro rfl
    exact some (canonical.eq_zero_iff.mpr denotes)
  have fits : MultiplyFits s.maxLimbs n ↔ b.count + 1 ≤ s.maxLimbs := by
    rw [MultiplyFits, count_succ_le_iff canonical some denotes]
    exact or_iff_right positive
  rw [fits]
  exact ceiling_after sound found canonical _ (.bind (avoids_limbPass _ _ _) fun carry => avoids_pushCarry carry)

theorem avoids_assign (low high : BitVec 32) (needed : Nat) (sign : Int) : Avoids .memoryLimit (adjust handle fun value =>
    { value with limbs := if needed = 2 then [low, high] else [low], sign := if sign = 0 then 1 else sign }) := fun _ => trivial

theorem addSmallInPlace_ceiling (sound : Sound s) (holds : Holds s handle n) {digit : Nat} (word : digit < 2 ^ 32) :
    wp (addSmallInPlace handle digit) (fun _ _ => AddFits s.maxLimbs n digit)
      (fun stop _ => stop = .memoryLimit → AddFits s.maxLimbs n digit → Tight s) s := by
  obtain ⟨b, found, canonical, denotes⟩ := id holds
  unfold addSmallInPlace
  simp only [wp_bind, wp_get, payload_of_lookup found]
  apply wp_ite
  · exact fun zero => .inl zero
  intro nonzero
  apply wp_ite
  · intro empty
    have zero : n = 0 := by exact_mod_cast denotes.symm.trans (canonical.count_eq_zero.mp empty)
    have fits : AddFits s.maxLimbs n digit ↔ 1 ≤ s.maxLimbs := by
      rw [AddFits, if_pos zero]
      exact or_iff_right nonzero
    have one : (if 0xffffffff < digit then 2 else 1) = 1 := if_neg (by omega)
    rw [fits]
    unfold bigintAssignU64
    simp only [wp_bind, wp_get, holds.shallowValid sound, Bool.not_true, Bool.false_or]
    rw [if_neg (by decide), if_neg nonzero, one]
    exact ceiling_after sound found canonical 1 (avoids_assign _ _ 1 1)
  intro some
  have nonempty : b.limbs ≠ [] := fun empty => some (by rw [Bigint.count, empty]; rfl)
  have positive : n ≠ 0 := by
    rintro rfl
    exact nonempty (canonical.eq_zero_iff.mpr denotes)
  have fits : AddFits s.maxLimbs n digit ↔ b.count + 1 ≤ s.maxLimbs := by
    rw [AddFits, if_neg positive, count_succ_le_iff canonical nonempty denotes]
    exact or_iff_right nonzero
  rw [fits]
  exact ceiling_after sound found canonical _ (.bind (avoids_addSmallLoop _ _ _) fun carry => avoids_pushCarry carry)

/-- What the reader needs for a string of digits that continues a number. -/
def DigitsFit (maxLimbs : Nat) : Nat → List UInt8 → Prop
  | _, [] => True
  | n, digit :: rest => MultiplyFits maxLimbs n ∧ AddFits maxLimbs (n * 10) (digit.toNat - 48) ∧
      DigitsFit maxLimbs (n * 10 + (digit.toNat - 48)) rest

/-- The budget of bytes may not cover two blocks of the largest size, the old and the new one of a temporary. -/
def Cramped (s : ExactContext) : Prop := s.limits.maxBytes.toNat - s.bytes < 2 * (limbSize * s.maxLimbs)

instance (s : ExactContext) : Decidable (Cramped s) := inferInstanceAs (Decidable (_ < _))

theorem Tight.cramped (sound : Sound s) (absent : s.lookup handle = none) (within : Within [handle] s t) (tight : Tight t) :
    Cramped s := by
  have bytes := bytes_le_of_temporary sound absent within
  unfold Tight at tight
  unfold Cramped
  rw [within.limits, within.maxLimbs] at tight
  omega

theorem readDigits_ceiling (sound : Sound s) (absent : s.lookup handle = none) (digits : List UInt8) (within : Within [handle] s t)
    (holds : Holds t handle n) : wp (readDigits handle digits) (fun _ _ => DigitsFit s.maxLimbs n digits)
      (fun stop _ => stop = .memoryLimit → DigitsFit s.maxLimbs n digits → Cramped s) t := by
  induction digits generalizing n t with
  | nil => exact trivial
  | cons digit rest ih =>
    have small : digit.toNat - 48 < 2 ^ 32 := by
      have := digit.toNat_lt
      omega
    have limbs := within.maxLimbs
    simp only [readDigits, wp_bind]
    apply wp_mono (wp_and (multiplySmallInPlace_spec within.sound holds (show 0 < 10 by decide) (by decide))
      (multiplySmallInPlace_ceiling within.sound holds))
    · rintro _ u ⟨⟨scaled, now⟩, first⟩
      rw [limbs] at first
      have now : Holds u handle (n * 10 : Nat) := by exact_mod_cast now
      have reached := within.trans scaled
      apply wp_mono (wp_and (addSmallInPlace_spec scaled.sound now small) (addSmallInPlace_ceiling scaled.sound now small))
      · rintro _ v ⟨⟨added, then_⟩, second⟩
        rw [reached.maxLimbs] at second
        apply wp_mono (ih (reached.trans added) then_)
        · exact fun _ _ later => ⟨first, second, later⟩
        · exact fun stop _ stopped refused fits => stopped refused fits.2.2
      · rintro stop v ⟨-, stopped⟩ refused ⟨-, fits, -⟩
        rw [reached.maxLimbs] at stopped
        exact (stopped refused fits).cramped sound absent reached
    · rintro stop u ⟨-, stopped⟩ refused ⟨fits, -, -⟩
      rw [limbs] at stopped
      exact (stopped refused fits).cramped sound absent within

theorem bytes_eq_of_within (sound : Sound s) (within : Within [] s t) : t.bytes = s.bytes := by
  have same : weight limbBytes t.values = weight limbBytes s.values :=
    weight_eq_of_find within.sound.distinct sound.distinct (fun key => within.others key List.not_mem_nil) limbBytes
  have overhead := within.overhead
  omega

theorem Cramped.of_within (sound : Sound s) (within : Within [] s t) (cramped : Cramped t) : Cramped s := by
  unfold Cramped at cramped ⊢
  rwa [within.limits, within.maxLimbs, bytes_eq_of_within sound within] at cramped

/-- A well-formed string is read only if every step has the room it asks for. -/
theorem bigintRead_ceiling {out : Handle} {z : Int} (valid : Valid s) (target : view s out = some z) (decimal : List UInt8) :
    wp (bigintRead out decimal) (fun _ _ => DigitsFit s.maxLimbs 0 (splitSign (cString decimal)).2)
      (fun stop _ => stop = .memoryLimit → DigitsFit s.maxLimbs 0 (splitSign (cString decimal)).2 → Cramped s) s := by
  unfold bigintRead
  simp only [wp_bind, wp_get, valid.shallow target, Bool.not_true, Bool.false_eq_true, ↓reduceIte]
  generalize splitSign (cString decimal) = parts
  obtain ⟨sign, digits⟩ := parts
  apply wp_operation valid.toSound
  intro r begun
  dsimp only
  apply wp_ite
  · exact fun _ refused => by cases refused
  intro _
  apply wp_ite
  · exact fun _ refused => by cases refused
  intro _
  apply wp_withTemporary begun.sound
  intro temporary u absent opened empty
  have fresh : Holds u temporary (0 : Nat) := ⟨_, empty, canonical_empty _, by simp [toInt, Bigint.empty]⟩
  rw [wp_bind]
  apply wp_mono (readDigits_ceiling begun.sound absent digits opened fresh)
  · intro _ t fits
    rw [begun.maxLimbs] at fits
    exact fits
  · intro stop t stopped refused fits
    rw [begun.maxLimbs] at stopped
    exact (stopped refused fits).of_within valid.toSound begun

/-- The largest number for which the reader of `n` asks for room: the last digit is added if it is not zero. -/
def lastStop (n : Nat) : Nat := if n % 10 = 0 then n / 10 else n - n % 10

/-- The notation of `n` is read below the ceiling. -/
def ReadFits (maxLimbs n : Nat) : Prop := RoomAfter maxLimbs (lastStop n)

instance (maxLimbs n : Nat) : Decidable (ReadFits maxLimbs n) := inferInstanceAs (Decidable (_ < _))

theorem digitsFit_append (maxLimbs n : Nat) (first second : List UInt8) :
    DigitsFit maxLimbs n (first ++ second) ↔ DigitsFit maxLimbs n first ∧ DigitsFit maxLimbs (decimalFrom n first) second := by
  induction first generalizing n with
  | nil => exact (iff_of_eq (true_and _)).symm
  | cons digit rest ih =>
    rw [List.cons_append, DigitsFit, DigitsFit, ih, and_assoc, and_assoc]
    rfl

theorem naturalText_of_lt (small : n < 10) : naturalText n = [digitByte n] := by
  unfold naturalText
  split
  · rename_i zero
    rw [zero]
    rfl
  · rename_i positive
    rw [Nat.digits_of_lt 10 n positive small]
    rfl

theorem naturalText_last (large : 10 ≤ n) : naturalText n = naturalText (n / 10) ++ [digitByte (n % 10)] := by
  unfold naturalText
  rw [if_neg (by omega), if_neg (by omega), Nat.digits_def' (by decide) (by omega)]
  simp only [List.map_cons, List.reverse_cons]

theorem RoomAfter.mono {maxLimbs m : Nat} (room : RoomAfter maxLimbs m) (below : n ≤ m) : RoomAfter maxLimbs n :=
  lt_of_le_of_lt below room

theorem roomAfter_zero (maxLimbs : Nat) : RoomAfter maxLimbs 0 := Nat.pow_pos (by decide)

theorem lastStop_le (n : Nat) : lastStop n ≤ n := by
  unfold lastStop
  split <;> omega

theorem multiplyFits_iff (maxLimbs n : Nat) : MultiplyFits maxLimbs n ↔ RoomAfter maxLimbs n := by
  unfold MultiplyFits
  constructor
  · rintro (rfl | room)
    · exact roomAfter_zero maxLimbs
    · exact room
  · exact .inr

theorem digitsFit_naturalText {maxLimbs : Nat} (room : n ≠ 0 → 1 ≤ maxLimbs) :
    DigitsFit maxLimbs 0 (naturalText n) ↔ ReadFits maxLimbs n := by
  induction n using Nat.strongRecOn with
  | ind n ih =>
    by_cases small : n < 10
    · rw [naturalText_of_lt small]
      have stop : lastStop n = 0 := by
        unfold lastStop
        split <;> omega
      have holds : ReadFits maxLimbs n := by
        rw [ReadFits, stop]
        exact roomAfter_zero maxLimbs
      refine iff_of_true ⟨.inl rfl, ?_, trivial⟩ holds
      rw [toNat_digitByte small, Nat.add_sub_cancel_left]
      by_cases zero : n = 0
      · exact .inl zero
      · exact .inr (room zero)
    · have large : 10 ≤ n := not_lt.mp small
      have digit : n % 10 < 10 := Nat.mod_lt n (by decide)
      have before : decimalFrom 0 (naturalText (n / 10)) = n / 10 := continued_naturalText (n / 10)
      have scaled : n / 10 * 10 = n - n % 10 := by omega
      rw [naturalText_last large, digitsFit_append, ih (n / 10) (by omega) (fun _ => room (by omega)), before]
      simp only [DigitsFit, toNat_digitByte digit, Nat.add_sub_cancel_left, and_true, multiplyFits_iff]
      have added : AddFits maxLimbs (n / 10 * 10) (n % 10) ↔ n % 10 = 0 ∨ RoomAfter maxLimbs (n - n % 10) := by
        rw [AddFits, if_neg (by omega), scaled]
      rw [added]
      unfold ReadFits
      constructor
      · rintro ⟨-, first, second⟩
        unfold lastStop
        split
        · exact first
        · rename_i nonzero
          exact second.resolve_left nonzero
      · intro fits
        have first : RoomAfter maxLimbs (n / 10) := by
          apply fits.mono
          unfold lastStop
          split <;> omega
        refine ⟨first.mono (lastStop_le _), first, ?_⟩
        by_cases zero : n % 10 = 0
        · exact .inl zero
        · unfold lastStop at fits
          rw [if_neg zero] at fits
          exact .inr fits

/-- The strings `[+-]?[0-9]+` and the integers that they denote. -/
inductive Spells : List UInt8 → Int → Prop
  | plain (digits : List UInt8) (some : digits ≠ []) (decimal : ∀ byte ∈ digits, 48 ≤ byte ∧ byte ≤ 57) :
      Spells digits (decimalFrom 0 digits)
  | plus (digits : List UInt8) (some : digits ≠ []) (decimal : ∀ byte ∈ digits, 48 ≤ byte ∧ byte ≤ 57) :
      Spells (43 :: digits) (decimalFrom 0 digits)
  | minus (digits : List UInt8) (some : digits ≠ []) (decimal : ∀ byte ∈ digits, 48 ≤ byte ∧ byte ≤ 57) :
      Spells (45 :: digits) (-(decimalFrom 0 digits : Int))

variable {digits : List UInt8}

theorem all_isDigit : digits.all isDigit = true ↔ ∀ byte ∈ digits, 48 ≤ byte ∧ byte ≤ 57 := by
  rw [List.all_eq_true]
  apply forall₂_congr
  intro byte _
  simp [isDigit]

theorem splitSign_digits (decimal : ∀ byte ∈ digits, 48 ≤ byte ∧ byte ≤ 57) :
    splitSign digits = (1, digits) := by
  cases digits with
  | nil => rfl
  | cons first rest =>
    have low := (decimal first List.mem_cons_self).1
    rw [splitSign, if_neg]
    rintro (rfl | rfl)
    · exact absurd low (by decide)
    · exact absurd low (by decide)

variable {text : List UInt8}

theorem decimalValue_of_split {sign : Int} (split : splitSign text = (sign, digits))
    (some : digits ≠ []) (decimal : ∀ byte ∈ digits, 48 ≤ byte ∧ byte ≤ 57) :
    decimalValue text = Option.some (sign * decimalFrom 0 digits) := by
  have shape : ¬(digits = [] ∨ digits.all isDigit = false) := by
    rintro (empty | malformed)
    · exact some empty
    · exact absurd (all_isDigit.mpr decimal) (by simp [malformed])
  unfold decimalValue
  rw [split]
  exact if_neg shape

theorem decimalValue_eq_some {n : Int} : decimalValue text = some n ↔ Spells text n := by
  constructor
  · intro read
    unfold decimalValue at read
    dsimp only at read
    split at read
    · exact nomatch read
    · rename_i shape
      obtain ⟨some, wellFormed⟩ := not_or.mp shape
      have decimal := all_isDigit.mp (Bool.not_eq_false _ ▸ wellFormed)
      cases read
      cases text with
      | nil => exact absurd rfl some
      | cons first rest =>
        by_cases signed : first = 43 ∨ first = 45
        · have parts : splitSign (first :: rest) = (if first = 45 then -1 else 1, rest) := if_pos signed
          rw [parts] at some decimal ⊢
          rcases signed with rfl | rfl
          · simpa using Spells.plus rest some decimal
          · simpa using Spells.minus rest some decimal
        · have parts : splitSign (first :: rest) = (1, first :: rest) := if_neg signed
          rw [parts] at some decimal ⊢
          simpa using Spells.plain (first :: rest) some decimal
  · intro spells
    cases spells with
    | plain _ some decimal =>
      rw [decimalValue_of_split (splitSign_digits decimal) some decimal, one_mul]
    | plus digits some decimal =>
      have split : splitSign (43 :: digits) = (1, digits) := rfl
      rw [decimalValue_of_split split some decimal, one_mul]
    | minus digits some decimal =>
      have split : splitSign (45 :: digits) = (-1, digits) := rfl
      rw [decimalValue_of_split split some decimal, neg_one_mul]

theorem naturalText_decimal (n : Nat) : ∀ byte ∈ naturalText n, 48 ≤ byte ∧ byte ≤ 57 := by
  intro byte inside
  obtain ⟨digit, small, rfl⟩ := mem_naturalText inside
  simp only [UInt8.le_iff_toNat_le, toNat_digitByte small]
  exact ⟨Nat.le_add_right 48 digit, show 48 + digit ≤ 57 by omega⟩

theorem splitSign_integerText (v : Int) : (splitSign (integerText v)).2 = naturalText v.natAbs := by
  unfold integerText
  split
  · rfl
  · rw [splitSign_digits (naturalText_decimal _)]

theorem spells_integerText (v : Int) : Spells (integerText v) v := by
  unfold integerText
  have value : decimalFrom 0 (naturalText v.natAbs) = v.natAbs := continued_naturalText v.natAbs
  split
  · rename_i negative
    have spells := Spells.minus _ (naturalText_ne_nil v.natAbs) (naturalText_decimal _)
    have magnitude : -(v.natAbs : Int) = v := by omega
    rwa [value, magnitude] at spells
  · rename_i positive
    have spells := Spells.plain _ (naturalText_ne_nil v.natAbs) (naturalText_decimal _)
    have magnitude : (v.natAbs : Int) = v := by omega
    rwa [value, magnitude] at spells

theorem cString_integerText (v : Int) : cString (integerText v ++ [0]) = integerText v := by
  have nonzero : ∀ byte ∈ integerText v, byte ≠ 0 := by
    intro byte inside
    have digit : ∀ byte ∈ naturalText v.natAbs, byte ≠ 0 := by
      rintro byte member rfl
      exact absurd (naturalText_decimal _ _ member).1 (by decide)
    unfold integerText at inside
    split at inside
    · rcases List.mem_cons.mp inside with rfl | member
      · decide
      · exact digit byte member
    · exact digit byte inside
  unfold cString
  rw [List.takeWhile_append_of_pos (by simpa using nonzero)]
  simp

variable {value out : Handle} {v z : Int}

theorem one_le_maxLimbs (valid : Valid s) (seen : view s value = some v) (nonzero : v ≠ 0) : 1 ≤ s.maxLimbs := by
  obtain ⟨b, found, canonical, denotes⟩ := valid.holds seen
  obtain ⟨inside, admitted⟩ := valid.toSound.of_lookup found
  have some : b.count ≠ 0 := fun empty => nonzero (denotes.symm.trans (canonical.count_eq_zero.mp empty))
  omega

theorem bigintRead_malformed (valid : Valid s) (target : view s out = some z)
    (malformed : decimalValue (cString text) = none) : wp (bigintRead out text) (fun _ _ => False) (fun stop _ => stop = .parse) s := by
  have shape : (splitSign (cString text)).2 = [] ∨ (splitSign (cString text)).2.all isDigit = false := by
    by_contra wellFormed
    unfold decimalValue at malformed
    exact nomatch (if_neg wellFormed).symm.trans malformed
  unfold bigintRead
  simp only [wp_bind, wp_get, valid.shallow target, Bool.not_true, Bool.false_eq_true, ↓reduceIte]
  generalize splitSign (cString text) = parts at shape
  obtain ⟨sign, digits⟩ := parts
  apply wp_operation valid.toSound
  intro r begun
  dsimp only at shape ⊢
  apply wp_ite
  · exact fun _ => rfl
  intro some
  rw [if_pos (by simpa using shape.resolve_left some)]
  exact rfl

theorem bigintRead_accepts (valid : Valid s) (target : view s out = some z) (text : List UInt8) :
    wp (bigintRead out text) (fun _ t => ∃ n, Spells (cString text) n ∧ Writes s out n t)
      (fun stop t => (stop = .parse ↔ ¬∃ n, Spells (cString text) n) ∧ Within [] s t) s := by
  have spelled : decimalValue (cString text) = none ↔ ¬∃ n, Spells (cString text) n := by
    rw [Option.eq_none_iff_forall_ne_some, not_exists]
    exact forall_congr' fun n => not_congr decimalValue_eq_some
  rw [← spelled]
  by_cases malformed : decimalValue (cString text) = none
  · apply wp_mono (wp_and (bigintRead_spec valid target text) (bigintRead_malformed valid target malformed))
    · exact fun _ _ both => both.2.elim
    · exact fun stop t both => ⟨iff_of_true both.2 malformed, both.1.2⟩
  · apply wp_mono (bigintRead_spec valid target text)
    · rintro _ t ⟨n, read, writes⟩
      exact ⟨n, decimalValue_eq_some.mp read, writes⟩
    · rintro stop t ⟨exhausted | ⟨-, refused⟩, within⟩
      · refine ⟨iff_of_false ?_ malformed, within⟩
        rintro rfl
        rcases exhausted with stop | stop | stop | stop <;> cases stop
      · exact absurd refused malformed

theorem bigintRead_written (valid : Valid s) (target : view s out = some z) (v : Int) (room : v ≠ 0 → 1 ≤ s.maxLimbs) :
    wp (bigintRead out (integerText v ++ [0])) (fun _ t => ReadFits s.maxLimbs v.natAbs ∧ Writes s out v t)
      (fun stop t => (stop = .timeout ∨ stop = .interrupted ∨ stop = .outOfMemory ∨
        stop = .memoryLimit ∧ (ReadFits s.maxLimbs v.natAbs → Cramped s)) ∧ Within [] s t) s := by
  have accepted := bigintRead_spec valid target (integerText v ++ [0])
  have ceiling := bigintRead_ceiling valid target (integerText v ++ [0])
  rw [cString_integerText, decimalValue_eq_some.mpr (spells_integerText v)] at accepted
  rw [cString_integerText, splitSign_integerText,
    digitsFit_naturalText (fun nonzero => room (Int.natAbs_ne_zero.mp nonzero))] at ceiling
  apply wp_mono (wp_and accepted ceiling)
  · rintro _ t ⟨⟨n, same, writes⟩, fits⟩
    cases same
    exact ⟨fits, writes⟩
  · rintro stop t ⟨⟨exhausted | ⟨-, refused⟩, within⟩, tight⟩
    · refine ⟨?_, within⟩
      rcases exhausted with stop | stop | stop | stop
      · exact .inl stop
      · exact .inr (.inl stop)
      · exact .inr (.inr (.inr ⟨stop, tight stop⟩))
      · exact .inr (.inr (.inl stop))
    · exact nomatch refused

def rewrite (value out : Handle) (capacity : Nat) : ExactM Unit := do
  let written ← bigintWrite value (some capacity)
  bigintRead out written.2

def stopOf {α : Type} : EStateM.Result Status ExactContext α → Option Status
  | .ok _ _ => none
  | .error stop _ => some stop

@[irreducible] def eleven : ExactContext :=
  (Call.integer (.setI64 (.object 1) 11)).after ((Call.bigintInit 1).after { created with limits := ⟨1, 4000000, 256 * 1024⟩ })

theorem eleven_reachable : Reachable eleven := by
  unfold eleven
  have narrow : Reachable { created with limits := ⟨1, 4000000, 256 * 1024⟩ } :=
    @Reachable.create _ (some ⟨1, 4000000, 256 * 1024⟩) ⟨fun _ => true, 0⟩ ⟨fun _ => true, 1⟩ rfl
  apply Reachable.call (.call narrow (.bigintInit 1) rfl) (.integer (.setI64 (.object 1) 11))
  intro handle member
  exact ⟨1, by simpa [IntegerCall.outputs] using member⟩

end PhyNspire.Exact.Decimals

import PhyNspire.Exact.Magnitude

/-!
Carry chains: multiplication and addition of one limb, sums and differences of magnitudes,
and signed addition built from them.
-/

namespace PhyNspire.Exact.Carry
open Platform Lib Lib.Stateful Context Accounting Integer Magnitude
open Limbs (value digit Normal)

variable {s : ExactContext} {handle : Handle}

theorem pushCarry_spec {limbs : List (BitVec 32)} {capacity total carry : Nat} {sign : Int} (sound : Sound s)
    (found : s.lookup handle = some ⟨limbs, capacity, sign⟩)
    (room : carry ≠ 0 → limbs.length + 1 ≤ capacity) (word : carry < 2 ^ 32) (sum : value limbs + (2 ^ 32) ^ limbs.length * carry = total)
    (large : limbs.length ≠ 0 → (2 ^ 32) ^ (limbs.length - 1) ≤ total)
    {bad : Status → ExactContext → Prop} :
    wp (pushCarry handle carry)
      (fun _ t => Within [handle] s t ∧ ∃ limbs, t.lookup handle = some ⟨limbs, capacity, sign⟩ ∧
        Normal limbs ∧ value limbs = total) bad s := by
  unfold pushCarry
  apply wp_ite
  · intro carried
    refine wp_good (adjust_spec sound found rfl (by simpa [pushLimb, Bigint.count] using room carried)) ?_
    rintro _ t ⟨within, now⟩
    refine ⟨within, limbs ++ [BitVec.ofNat 32 carry], now, ?_, ?_⟩
    · refine Limbs.normal_append_singleton.mpr fun zero => carried ?_
      have same := congrArg BitVec.toNat zero
      rwa [BitVec.toNat_ofNat, Nat.mod_eq_of_lt word] at same
    · rw [Limbs.value_append, Limbs.value_cons, Limbs.value_nil, BitVec.toNat_ofNat, Nat.mod_eq_of_lt word,
        Nat.mul_zero, Nat.add_zero, sum]
  · intro none
    rw [not_not] at none
    rw [none, Nat.mul_zero, Nat.add_zero] at sum
    refine ⟨.refl sound _, limbs, found, ?_, sum⟩
    by_cases empty : limbs = []
    · rw [empty]
      exact Limbs.normal_nil
    · apply Limbs.normal_of_pow_le
      rw [sum]
      exact large (by simpa using empty)

theorem multiplySmallInPlace_spec (sound : Sound s) {n : Int} (holds : Holds s handle n) {factor : Nat}
    (positive : 0 < factor) (word : factor < 2 ^ 32) :
    wp (multiplySmallInPlace handle factor)
      (fun _ t => Within [handle] s t ∧ Holds t handle (n * factor))
      (fun stop t => Exhausted stop ∧ Within [handle] s t) s := by
  obtain ⟨b, found, canonical, denotes⟩ := id holds
  unfold multiplySmallInPlace
  simp only [wp_bind, wp_get, payload_of_lookup found]
  apply wp_ite
  · rintro (empty | rfl)
    · have zero : n = 0 := denotes.symm.trans (canonical.count_eq_zero.mp empty)
      exact ⟨.refl sound _, by simpa [zero] using holds⟩
    · exact ⟨.refl sound _, by simpa using holds⟩
  intro general
  rw [if_neg (by omega)]
  have some : b.limbs ≠ [] := fun empty => general (.inl (by rw [Bigint.count, empty]; rfl))
  simp only [wp_bind]
  refine wp_mono (reserve_spec sound found canonical _) ?_
    (fun _ _ stopped => ⟨stopped.1, stopped.2.widen _⟩)
  rintro _ t ⟨reserved, capacity, enough, _, grown⟩
  refine wp_mono (limbPass_spec reserved.sound grown
    (fun i low carry => low + (2 ^ 32) ^ i * carry = value (b.limbs.take i) * factor ∧ carry < factor)
    ⟨by simp, positive⟩ ?_) ?_ (fun _ _ stopped => ⟨stopped.1, reserved.trans stopped.2⟩)
  · rintro i low carry - ⟨sum, below⟩
    have limb := Limbs.digit_lt b.limbs i
    have product : digit b.limbs i * factor + carry < 2 ^ 32 * factor := by
      have : (digit b.limbs i + 1) * factor ≤ 2 ^ 32 * factor := Nat.mul_le_mul_right _ limb
      rw [Nat.add_mul] at this
      omega
    have exact_ : u64 (u64 (digit b.limbs i * factor) + carry) = digit b.limbs i * factor + carry := by
      rw [u64_of_lt (show digit b.limbs i * factor < 2 ^ 64 by omega), u64_of_lt (by omega)]
    simp only [exact_, Nat.shiftRight_eq_div_pow]
    refine ⟨?_, Nat.div_lt_of_lt_mul product⟩
    calc
      _ = low + (2 ^ 32) ^ i * (digit b.limbs i * factor + carry) := Limbs.carry_column _ _ _
      _ = low + (2 ^ 32) ^ i * carry + (2 ^ 32) ^ i * digit b.limbs i * factor := by ring
      _ = value (b.limbs.take i) * factor + (2 ^ 32) ^ i * digit b.limbs i * factor := by rw [sum]
      _ = _ := by
        rw [Limbs.value_take_succ]
        ring
  rintro carry u ⟨passed, limbs, length, now, total, below⟩
  simp only [Bigint.count] at length now total enough
  rw [List.take_length, ← length] at total
  refine wp_good (pushCarry_spec passed.sound now (fun _ => by omega) (below.trans word) total ?_) ?_
  · intro _
    rw [length]
    exact (Limbs.pow_le_value canonical.normal some).trans (Nat.le_mul_of_pos_right _ positive)
  rintro _ v ⟨pushed, limbs', then_, normal, product⟩
  refine ⟨(reserved.trans passed).trans pushed, _, then_, canonical_of_normal normal _ ?_, ?_⟩
  · have nonzero : value b.limbs ≠ 0 := (Limbs.value_eq_zero canonical.normal).not.mpr some
    have nonempty : limbs' ≠ [] := by
      rintro rfl
      exact (Nat.mul_pos (Nat.pos_of_ne_zero nonzero) positive).ne product
    have signed := canonical.signed
    rw [if_neg some] at signed
    rwa [if_neg nonempty]
  · rw [← denotes]
    simp only [toInt, product]
    push_cast
    ring

/-- The whole value is what the loop keeps: a carry still to be added is part of it. -/
theorem addSmallLoop_spec {count capacity : Nat} {sign : Int} (remaining index carry : Nat)
    {limbs : List (BitVec 32)} (sound : Sound s) (found : s.lookup handle = some ⟨limbs, capacity, sign⟩)
    (length : limbs.length = count) (last : index + remaining = count) (word : carry < 2 ^ 32) :
    wp (addSmallLoop handle remaining index carry)
      (fun carry' t => Within [handle] s t ∧ carry' < 2 ^ 32 ∧ ∃ limbs', limbs'.length = count ∧
        t.lookup handle = some ⟨limbs', capacity, sign⟩ ∧
        value limbs' + (2 ^ 32) ^ count * carry' = value limbs + (2 ^ 32) ^ index * carry)
      (fun stop t => Exhausted stop ∧ Within [handle] s t) s := by
  induction remaining generalizing index carry limbs s with
  | zero =>
    rw [Nat.add_zero] at last
    exact ⟨.refl sound _, word, limbs, length, found, by rw [last]⟩
  | succ remaining ih =>
    rw [addSmallLoop]
    apply wp_ite
    · intro _
      simp only [wp_bind, wp_get]
      refine wp_mono (exactStep_spec sound 1) ?_ (fun _ _ stopped => ⟨stopped.1, stopped.2.widen _⟩)
      intro _ t stepped
      have here : t.lookup handle = some ⟨limbs, capacity, sign⟩ := by rw [stepped.lookup_eq, found]
      have limb := Limbs.digit_lt limbs index
      rw [payload_of_lookup here, u64_of_lt (show digit limbs index + carry < 2 ^ 64 by omega)]
      refine wp_good (adjust_spec stepped.sound here rfl ?_) ?_
      · simpa [setLimb, Bigint.count] using (sound.of_lookup found).1
      rintro _ u ⟨written, now⟩
      have sum := Limbs.value_set (show index < limbs.length by omega)
        (BitVec.ofNat 32 (digit limbs index + carry))
      rw [BitVec.toNat_ofNat] at sum
      have column := Limbs.carry_column (w := 32) (value limbs) index (digit limbs index + carry)
      rw [Nat.shiftRight_eq_div_pow]
      refine wp_mono (@ih u (index + 1) _ (limbs.set index (BitVec.ofNat 32 (digit limbs index + carry)))
        written.sound now (by simpa using length) (by omega) (by omega)) ?_
        (fun _ _ stopped => ⟨stopped.1, ((stepped.widen _).trans written).trans stopped.2⟩)
      rintro carry' v ⟨rest, word', limbs', length', then_, total⟩
      refine ⟨((stepped.widen _).trans written).trans rest, word', limbs', length', then_, ?_⟩
      rw [Nat.mul_add] at column
      omega
    · intro none
      rw [not_not] at none
      exact ⟨.refl sound _, word, limbs, length, found, by rw [none, Nat.mul_zero, Nat.mul_zero]⟩

theorem addSmallInPlace_spec (sound : Sound s) {n : Nat} (holds : Holds s handle n) {addend : Nat}
    (word : addend < 2 ^ 32) :
    wp (addSmallInPlace handle addend)
      (fun _ t => Within [handle] s t ∧ Holds t handle (n + addend : Nat))
      (fun stop t => Exhausted stop ∧ Within [handle] s t) s := by
  obtain ⟨b, found, canonical, denotes⟩ := id holds
  unfold addSmallInPlace
  simp only [wp_bind, wp_get, payload_of_lookup found]
  apply wp_ite
  · rintro rfl
    exact ⟨.refl sound _, holds⟩
  intro nonzero
  apply wp_ite
  · intro empty
    have zero : n = 0 := by exact_mod_cast denotes.symm.trans (canonical.count_eq_zero.mp empty)
    refine wp_mono (bigintAssignU64_spec sound holds (show addend < 2 ^ 64 by omega) (.inr (.inl rfl))) ?_
      (fun _ _ stopped => ⟨stopped.1, stopped.2.widen _⟩)
    rintro _ t ⟨within, now⟩
    exact ⟨within, by simpa [zero] using now⟩
  intro some
  have nonempty : b.limbs ≠ [] := fun empty => some (by rw [Bigint.count, empty]; rfl)
  simp only [wp_bind]
  refine wp_mono (reserve_spec sound found canonical _) ?_ (fun _ _ stopped => ⟨stopped.1, stopped.2.widen _⟩)
  rintro _ t ⟨reserved, capacity, enough, _, grown⟩
  refine wp_mono (addSmallLoop_spec b.count 0 addend reserved.sound grown rfl (Nat.zero_add _) word) ?_
    (fun _ _ stopped => ⟨stopped.1, reserved.trans stopped.2⟩)
  rintro carry u ⟨passed, below, limbs, length, now, total⟩
  simp only [Bigint.count, pow_zero, one_mul] at length now total enough
  rw [← length] at total
  refine wp_good (pushCarry_spec passed.sound now (fun _ => by omega) below total ?_) ?_
  · intro _
    rw [length]
    exact (Limbs.pow_le_value canonical.normal nonempty).trans (Nat.le_add_right _ _)
  rintro _ v ⟨pushed, limbs', then_, normal, sum⟩
  have positive : b.sign = 1 := by
    rw [canonical.sign_eq, denotes]
    refine Int.sign_eq_one_of_pos (lt_of_le_of_ne (Int.natCast_nonneg n) ?_)
    exact fun zero => some (canonical.count_eq_zero.mpr (denotes.trans zero.symm))
  have longer : limbs' ≠ [] := by
    rintro rfl
    simp at sum
    omega
  refine ⟨(reserved.trans passed).trans pushed, _, then_, canonical_of_normal normal _ ?_, ?_⟩
  · rw [if_neg longer]
    exact .inl positive
  · rw [toInt_of_nonneg _ fun _ => positive, sum, canonical.value_eq denotes]

def decimalFrom (n : Nat) (digits : List UInt8) : Nat :=
  digits.foldl (fun n digit => n * 10 + (digit.toNat - 48)) n

theorem readDigits_spec (digits : List UInt8) (sound : Sound s) {n : Nat} (holds : Holds s handle n) :
    wp (readDigits handle digits)
      (fun _ t => Within [handle] s t ∧ Holds t handle (decimalFrom n digits))
      (fun stop t => Exhausted stop ∧ Within [handle] s t) s := by
  induction digits generalizing n s with
  | nil => exact ⟨.refl sound _, holds⟩
  | cons digit rest ih =>
    have small : digit.toNat - 48 < 2 ^ 32 := by
      have := digit.toNat_lt
      omega
    simp only [readDigits, wp_bind]
    refine wp_good (multiplySmallInPlace_spec sound holds (show 0 < 10 by decide) (by decide)) ?_
    rintro _ t ⟨scaled, now⟩
    refine wp_mono (addSmallInPlace_spec scaled.sound (n := n * 10) (by exact_mod_cast now) small) ?_
      (fun _ _ stopped => ⟨stopped.1, scaled.trans stopped.2⟩)
    rintro _ u ⟨added, then_⟩
    refine wp_mono (ih added.sound then_) ?_
      (fun _ _ stopped => ⟨stopped.1, (scaled.trans added).trans stopped.2⟩)
    rintro _ v ⟨read, result⟩
    exact ⟨(scaled.trans added).trans read, result⟩

variable {left right output : Handle} {x y z : Int}

theorem length_le {a b : Bigint} (canonical : Canonical b)
    (order : value b.limbs ≤ value a.limbs) : b.limbs.length ≤ a.limbs.length := by
  by_contra longer
  have := Limbs.value_lt_of_length_lt canonical.normal (Nat.lt_of_not_le longer)
  omega

theorem addMagnitudes_spec (sound : Sound s) (first : Holds s left x) (second : Holds s right y)
    (target : Holds s output z) (nonzero : x ≠ 0) :
    wp (addMagnitudes left right output)
      (fun _ t => Within [output] s t ∧ ∃ limbs capacity sign,
        t.lookup output = some ⟨limbs, capacity, sign⟩ ∧ Normal limbs ∧ value limbs = x.natAbs + y.natAbs)
      (fun stop t => Exhausted stop ∧ Within [output] s t) s := by
  obtain ⟨a, found, canonical, denotes⟩ := first
  obtain ⟨b, found', canonical', denotes'⟩ := second
  obtain ⟨c, found'', canonical'', _⟩ := target
  have magnitude := canonical.natAbs_eq
  have magnitude' := canonical'.natAbs_eq
  rw [denotes] at magnitude
  rw [denotes'] at magnitude'
  unfold addMagnitudes
  simp only [wp_bind, wp_get, payload_of_lookup found, payload_of_lookup found']
  set count := if b.count < a.count then a.count else b.count with counted
  have above : a.limbs.length ≤ count ∧ b.limbs.length ≤ count := by
    by_cases longer : b.count < a.count
    · rw [counted, if_pos longer]
      exact ⟨Nat.le_refl _, longer.le⟩
    · rw [counted, if_neg longer]
      exact ⟨Nat.le_of_not_lt longer, Nat.le_refl _⟩
  refine wp_mono (reserve_spec sound found'' canonical'' _) ?_ (fun _ _ stopped => ⟨stopped.1, stopped.2.widen _⟩)
  rintro _ t ⟨reserved, capacity, enough, _, grown⟩
  refine wp_mono (limbColumns_spec reserved.sound
    (fun i low carry => low + (2 ^ 32) ^ i * carry = value (a.limbs.take i) + value (b.limbs.take i) ∧ carry ≤ 1)
    ⟨by simp, Nat.zero_le _⟩ ?_) ?_ (fun _ _ stopped => ⟨stopped.1, reserved.trans (stopped.2.widen _)⟩)
  · rintro i low carry - ⟨sum, below⟩
    have limb := Limbs.digit_lt a.limbs i
    have limb' := Limbs.digit_lt b.limbs i
    have exact_ : u64 (u64 (digit a.limbs i + digit b.limbs i) + carry) =
        digit a.limbs i + digit b.limbs i + carry := by
      rw [u64_of_lt (show digit a.limbs i + digit b.limbs i < 2 ^ 64 by omega), u64_of_lt (by omega)]
    simp only [exact_, Nat.shiftRight_eq_div_pow]
    refine ⟨?_, by omega⟩
    calc
      _ = low + (2 ^ 32) ^ i * (digit a.limbs i + digit b.limbs i + carry) := Limbs.carry_column _ _ _
      _ = low + (2 ^ 32) ^ i * carry + ((2 ^ 32) ^ i * digit a.limbs i + (2 ^ 32) ^ i * digit b.limbs i) := by
        ring
      _ = _ := by
        rw [sum, Limbs.value_take_succ, Limbs.value_take_succ]
        ring
  rintro ⟨limbs, carry⟩ u ⟨passed, length, total, below⟩
  dsimp only at length total below
  rw [Limbs.value_take_of_le above.1, Limbs.value_take_of_le above.2, ← magnitude, ← magnitude', ← length] at total
  have here := (passed.others output List.not_mem_nil).trans grown
  refine wp_good (adjust_spec passed.sound here rfl ?_) ?_
  · show limbs.length ≤ capacity
    omega
  rintro _ v ⟨written, now⟩
  change v.lookup output = some ⟨limbs, capacity, c.sign⟩ at now
  refine wp_good (pushCarry_spec written.sound now (fun _ => by omega) (by omega) total ?_) ?_
  · -- The longer operand alone fills every column.
    intro some
    rw [length] at some ⊢
    by_cases longer : b.count < a.count
    · rw [counted, if_pos longer, magnitude]
      refine (Limbs.pow_le_value canonical.normal ?_).trans (Nat.le_add_right _ _)
      exact fun empty => nonzero (denotes.symm.trans (canonical.eq_zero_iff.mp empty))
    · rw [counted, if_neg longer] at some ⊢
      rw [magnitude']
      refine (Limbs.pow_le_value canonical'.normal ?_).trans (Nat.le_add_left _ _)
      exact fun empty => some (by rw [Bigint.count, empty]; rfl)
  rintro _ w ⟨pushed, limbs', then_, normal, result⟩
  exact ⟨((reserved.trans (passed.widen _)).trans written).trans pushed, limbs', _, _, then_, normal, result⟩

theorem borrowColumn_spec {limb subtrahend borrow : Nat} (word : limb < 2 ^ 32) (word' : subtrahend < 2 ^ 32)
    (bit : borrow ≤ 1) :
    (borrowColumn limb subtrahend borrow).1 % 2 ^ 32 + subtrahend + borrow =
        limb + 2 ^ 32 * (borrowColumn limb subtrahend borrow).2 ∧
      (borrowColumn limb subtrahend borrow).2 ≤ 1 := by
  unfold borrowColumn u64
  dsimp only
  split <;> omega

theorem borrow_advance {a b : List (BitVec 32)} {i low borrow : Nat}
    (holds : low + value (b.take i) = value (a.take i) + (2 ^ 32) ^ i * borrow ∧ borrow ≤ 1) :
    low + (2 ^ 32) ^ i * ((borrowColumn (digit a i) (digit b i) borrow).1 % 2 ^ 32) + value (b.take (i + 1)) =
        value (a.take (i + 1)) + (2 ^ 32) ^ (i + 1) * (borrowColumn (digit a i) (digit b i) borrow).2 ∧
      (borrowColumn (digit a i) (digit b i) borrow).2 ≤ 1 := by
  obtain ⟨difference, bit⟩ := holds
  obtain ⟨column, bit'⟩ := borrowColumn_spec (Limbs.digit_lt a i) (Limbs.digit_lt b i) bit
  refine ⟨?_, bit'⟩
  generalize borrowColumn (digit a i) (digit b i) borrow = next at column
  rw [Limbs.value_take_succ, Limbs.value_take_succ]
  calc
    _ = low + value (b.take i) + (2 ^ 32) ^ i * (next.1 % 2 ^ 32 + digit b i) := by ring
    _ = value (a.take i) + (2 ^ 32) ^ i * (next.1 % 2 ^ 32 + digit b i + borrow) := by
      rw [difference]
      ring
    _ = value (a.take i) + (2 ^ 32) ^ i * (digit a i + 2 ^ 32 * next.2) := by rw [column]
    _ = _ := by
      rw [pow_succ (2 ^ 32) i]
      ring

theorem borrow_end {a b limbs : List (BitVec 32)} {borrow : Nat} (order : value b ≤ value a)
    (shorter : b.length ≤ a.length) (length : limbs.length = a.length)
    (holds : value limbs + value (b.take a.length) = value (a.take a.length) + (2 ^ 32) ^ a.length * borrow ∧
      borrow ≤ 1) : borrow = 0 ∧ value limbs = value a - value b := by
  obtain ⟨difference, bit⟩ := holds
  rw [Limbs.value_take_of_le shorter, Limbs.value_take_of_le (Nat.le_refl _)] at difference
  have small := Limbs.value_lt limbs
  rw [length] at small
  have none : borrow = 0 := by
    by_contra some
    have one : borrow = 1 := by omega
    rw [one] at difference
    omega
  rw [none] at difference
  omega

theorem normalize_spec {b : Bigint} (sound : Sound s) (found : s.lookup handle = some b)
    (signed : value b.limbs ≠ 0 → b.sign = 1 ∨ b.sign = -1) :
    Within [handle] s (bigintNormalize handle s) ∧ Holds (bigintNormalize handle s) handle (toInt b) := by
  unfold bigintNormalize
  rw [payload_of_lookup found]
  refine ⟨store_within sound found rfl ((Limbs.trim_length_le _).trans (sound.of_lookup found).1),
    _, store_lookup found _, canonical_of_normal (Limbs.trim_normal _) _ ?_, ?_⟩
  · by_cases empty : Limbs.trim b.limbs = []
    · rw [if_pos empty, if_pos empty]
    · rw [if_neg empty, if_neg empty]
      refine signed fun zero => empty ?_
      rwa [← Limbs.value_trim, Limbs.value_eq_zero (Limbs.trim_normal _)] at zero
  · by_cases empty : Limbs.trim b.limbs = []
    · have zero : value b.limbs = 0 := by rw [← Limbs.value_trim, empty, Limbs.value_nil]
      simp [toInt, Bigint.normalize, empty, zero]
    · simp [toInt, Bigint.normalize, empty, Limbs.value_trim]

theorem subtractMagnitudes_spec (sound : Sound s) (first : Holds s left x) (second : Holds s right y)
    (target : Holds s output z) (order : y.natAbs ≤ x.natAbs) :
    wp (subtractMagnitudes left right output)
      (fun _ t => Within [output] s t ∧ Holds t output (x.natAbs - y.natAbs : Nat))
      (fun stop t => Exhausted stop ∧ Within [output] s t) s := by
  obtain ⟨a, found, canonical, denotes⟩ := first
  obtain ⟨b, found', canonical', denotes'⟩ := second
  obtain ⟨c, found'', canonical'', _⟩ := target
  rw [← denotes, ← denotes', canonical.natAbs_eq, canonical'.natAbs_eq] at order ⊢
  unfold subtractMagnitudes
  simp only [wp_bind, wp_get, payload_of_lookup found, payload_of_lookup found']
  refine wp_mono (reserve_spec sound found'' canonical'' _) ?_ (fun _ _ stopped => ⟨stopped.1, stopped.2.widen _⟩)
  rintro _ t ⟨reserved, capacity, enough, _, grown⟩
  refine wp_mono (limbColumns_spec reserved.sound
    (fun i low borrow => low + value (b.limbs.take i) = value (a.limbs.take i) + (2 ^ 32) ^ i * borrow ∧ borrow ≤ 1)
    ⟨by simp, Nat.zero_le _⟩ (fun i low borrow _ holds => borrow_advance holds)) ?_
    (fun _ _ stopped => ⟨stopped.1, reserved.trans (stopped.2.widen _)⟩)
  rintro ⟨limbs, borrow⟩ u ⟨passed, length, holds⟩
  obtain ⟨none, difference⟩ := borrow_end order (length_le canonical' order) length holds
  dsimp only at none difference length ⊢
  rw [if_neg (by omega)]
  have here := (passed.others output List.not_mem_nil).trans grown
  simp only [wp_bind, wp_modify]
  refine wp_good (adjust_spec passed.sound here rfl (by simpa only [Bigint.count, length] using enough)) ?_
  rintro _ v ⟨written, now⟩
  obtain ⟨normalized, result⟩ := normalize_spec written.sound now (fun _ => .inl rfl)
  refine ⟨((reserved.trans (passed.widen _)).trans written).trans normalized, ?_⟩
  simpa only [toInt, one_mul, difference] using result

theorem sign_cases {n : Int} (nonzero : n ≠ 0) : n.sign = 1 ∨ n.sign = -1 := by
  rcases lt_or_gt_of_ne nonzero with negative | positive
  · exact .inr (Int.sign_eq_neg_one_of_neg negative)
  · exact .inl (Int.sign_eq_one_of_pos positive)

theorem opposite_sum {a b : Int} (first : a = 1 ∨ a = -1) (second : b = 1 ∨ b = -1) (different : a ≠ b)
    (p q : Nat) : a * p + b * q = a * ((p : Int) - q) ∧ a * p + b * q = b * ((q : Int) - p) := by
  rcases first with rfl | rfl <;> rcases second with rfl | rfl <;> omega

/-- Signed addition with the right operand's sign given separately, as subtraction needs it. -/
theorem addSigned_spec (sound : Sound s) (first : Holds s left x) (second : Holds s right y)
    (target : Holds s output z) (apart : left ≠ output) (apart' : right ≠ output) {rightSign : Int}
    (signed : y ≠ 0 → rightSign = 1 ∨ rightSign = -1) :
    wp (addSigned left right rightSign output)
      (fun _ t => Within [output] s t ∧ Holds t output (x + rightSign * y.natAbs))
      (fun stop t => Exhausted stop ∧ Within [output] s t) s := by
  obtain ⟨canonical, denotes⟩ := first.payload
  obtain ⟨canonical', denotes'⟩ := second.payload
  obtain ⟨c, found, _⟩ := id target
  unfold addSigned
  simp only [wp_bind, wp_get, canonical.count_eq_zero, canonical'.count_eq_zero, canonical.sign_eq, denotes,
    denotes', bigintCompareAbs_spec sound first second]
  apply wp_ite
  · rintro rfl
    simp only [wp_bind]
    refine wp_mono (copyPayload_spec sound second target apart' false) ?_
      (fun _ _ stopped => ⟨stopped.1, stopped.2.widen _⟩)
    rintro _ t ⟨copied, now⟩
    refine wp_good (resign_spec copied.sound now (fun _ _ _ => rfl) signed) ?_
    rintro _ u ⟨signed', then_⟩
    exact ⟨copied.trans signed', by simpa using then_⟩
  intro nonzero
  apply wp_ite
  · rintro rfl
    refine wp_mono (copyPayload_spec sound first target apart false) ?_
      (fun _ _ stopped => ⟨stopped.1, stopped.2.widen _⟩)
    rintro _ t ⟨copied, now⟩
    exact ⟨copied, by simpa using now⟩
  intro nonzero'
  have magnitude : x.sign * (x.natAbs : Int) = x := Int.sign_mul_natAbs x
  have left_sign := sign_cases nonzero
  have right_sign := signed nonzero'
  apply wp_ite
  · intro same
    simp only [wp_bind]
    refine wp_good (addMagnitudes_spec sound first second target nonzero) ?_
    rintro _ t ⟨added, limbs, capacity, sign, now, normal, sum⟩
    refine wp_good (adjust_spec added.sound now rfl (added.sound.of_lookup now).1) ?_
    rintro _ u ⟨assigned, then_⟩
    have some : limbs ≠ [] := by
      rintro rfl
      simp only [Limbs.value_nil] at sum
      omega
    refine ⟨added.trans assigned, _, then_, canonical_of_normal normal _ ?_, ?_⟩
    · rw [if_neg some]
      exact left_sign
    · simp only [withSign, toInt, sum]
      rw [← same]
      push_cast
      rw [mul_add, ← Int.natCast_natAbs, magnitude]
  intro different
  obtain ⟨as_left, as_right⟩ := opposite_sum left_sign right_sign different x.natAbs y.natAbs
  rw [magnitude] at as_left as_right
  apply wp_ite
  · intro equal
    have balanced : (x.natAbs : Int) - y.natAbs = 0 := Int.sign_eq_zero_iff_zero.mp equal
    refine wp_good (clear_spec sound found) ?_
    rintro _ t ⟨cleared, now⟩
    refine ⟨cleared, ?_⟩
    rwa [as_left, balanced, mul_zero]
  intro unbalanced
  simp only [wp_bind]
  by_cases larger : 0 < ((x.natAbs : Int) - y.natAbs).sign
  · have order : 0 < (x.natAbs : Int) - y.natAbs := Int.sign_pos_iff.mp larger
    simp only [if_pos larger]
    refine wp_good (subtractMagnitudes_spec sound first second target (by omega)) ?_
    rintro _ t ⟨subtracted, now⟩
    refine wp_good (resign_spec subtracted.sound now (fun _ _ _ => rfl) fun _ => left_sign) ?_
    rintro _ u ⟨assigned, then_⟩
    rw [Int.natAbs_natCast, Int.ofNat_sub (by omega), ← as_left] at then_
    exact ⟨subtracted.trans assigned, then_⟩
  · have order : (x.natAbs : Int) - y.natAbs < 0 := by
      have := Int.sign_pos_iff.not.mp larger
      have := Int.sign_eq_zero_iff_zero.not.mp unbalanced
      omega
    simp only [if_neg larger]
    refine wp_good (subtractMagnitudes_spec sound second first target (by omega)) ?_
    rintro _ t ⟨subtracted, now⟩
    refine wp_good (resign_spec subtracted.sound now (fun _ _ _ => rfl) fun _ => right_sign) ?_
    rintro _ u ⟨assigned, then_⟩
    rw [Int.natAbs_natCast, Int.ofNat_sub (by omega), ← as_right] at then_
    exact ⟨subtracted.trans assigned, then_⟩

end PhyNspire.Exact.Carry

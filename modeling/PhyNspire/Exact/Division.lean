import PhyNspire.Exact.Carry

/-!
Division of magnitudes: the fast path for a divisor of one limb and the binary long
division. Before the long division looks at a bit, its quotient and remainder are those of
the dividend with that bit and all lower ones cut off.
-/

namespace PhyNspire.Exact.Division
open Platform Lib Lib.Stateful Context Accounting Integer Magnitude Carry
open Limbs (value digit Normal)

variable {s : ExactContext} {handle : Handle}

theorem limbBitLength_spec (turns limb : Nat) (word : limb < 2 ^ turns) :
    limb < 2 ^ limbBitLength turns limb := by
  induction turns generalizing limb with
  | zero => simpa [limbBitLength] using word
  | succ turns ih =>
    rw [limbBitLength]
    by_cases zero : limb = 0
    · simp [zero]
    · have half := ih (limb >>> 1) (by rw [Nat.shiftRight_eq_div_pow]; omega)
      rw [Nat.shiftRight_eq_div_pow] at half
      rw [if_pos zero, pow_succ, Nat.shiftRight_eq_div_pow]
      omega

theorem bitLength_spec (b : Bigint) : value b.limbs < 2 ^ bitLength b := by
  unfold bitLength
  by_cases empty : b.count = 0
  · have none : b.limbs = [] := List.length_eq_zero_iff.mp empty
    simp [none, empty]
  · have top := limbBitLength_spec 32 _ (Limbs.digit_lt b.limbs (b.count - 1))
    have low : value (b.limbs.take (b.count - 1)) < (2 ^ 32) ^ (b.count - 1) :=
      lt_of_lt_of_le (Limbs.value_lt _)
        (Nat.pow_le_pow_right (by positivity) (by rw [List.length_take]; exact Nat.min_le_left _ _))
    have split := Limbs.value_take_succ b.limbs (b.count - 1)
    rw [show b.count - 1 + 1 = b.count by omega, value_take_count] at split
    rw [if_neg empty, split, Nat.mul_comm (b.count - 1), pow_add, pow_mul]
    calc
      _ < (2 ^ 32) ^ (b.count - 1) * (digit b.limbs (b.count - 1) + 1) := by
        rw [Nat.mul_add, Nat.mul_one]
        omega
      _ ≤ _ := Nat.mul_le_mul_left _ top

theorem bitAt_spec (b : Bigint) (bit : Nat) :
    (if bitAt b bit then 1 else 0) = value b.limbs / 2 ^ bit % 2 := by
  have position : 2 ^ bit = (2 ^ 32) ^ (bit / 32) * 2 ^ (bit % 32) := by
    rw [← pow_mul, ← pow_add, Nat.div_add_mod]
  have cut : value b.limbs / 2 ^ bit % 2 = digit b.limbs (bit / 32) / 2 ^ (bit % 32) % 2 := by
    have tests := Nat.testBit_mod_two_pow (value b.limbs / (2 ^ 32) ^ (bit / 32)) 32 (bit % 32)
    rw [Limbs.value_div_pow_mod, decide_eq_true (Nat.mod_lt bit (by decide : 32 > 0)), Bool.true_and,
      Nat.testBit_eq_decide_div_mod_eq, Nat.testBit_eq_decide_div_mod_eq, Nat.div_div_eq_div_mul,
      ← position] at tests
    have same := decide_eq_decide.mp tests
    omega
  have read : digit b.limbs (bit / 32) >>> (bit % 32) &&& 1 = digit b.limbs (bit / 32) / 2 ^ (bit % 32) % 2 := by
    rw [Nat.and_one_is_mod, Nat.shiftRight_eq_div_pow]
  rw [cut]
  unfold bitAt
  rw [read]
  by_cases inside : bit / 32 < b.count
  · simp only [inside, decide_true, Bool.true_and, decide_eq_true_eq]
    split <;> omega
  · rw [Limbs.digit_of_le (Nat.le_of_not_lt inside)]
    simp [inside]

theorem shift_or {limb carry : Nat} (word : limb < 2 ^ 32) (bit : carry ≤ 1) :
    u64 (limb <<< 1) ||| carry = limb * 2 + carry := by
  rw [Nat.shiftLeft_eq, u64_of_lt (by omega)]
  have := Nat.two_pow_add_eq_or_of_lt (show carry < 2 ^ 1 by omega) limb
  rw [Nat.mul_comm limb, pow_one, ← this]

/-- With the top bit clear the doubled number still fits, so nothing is carried out. -/
theorem carry_of_top_clear {limbs : List (BitVec 32)} {n total carry carryIn : Nat}
    (clear : digit limbs (limbs.length - 1) &&& 0x80000000 = 0) (denotes : value limbs = n) (some : limbs ≠ [])
    (sum : total + (2 ^ 32) ^ limbs.length * carry = 2 * n + carryIn) (bit : carryIn ≤ 1) : carry = 0 := by
  have top : digit limbs (limbs.length - 1) < 2 ^ 31 := by
    have limb := Limbs.digit_lt limbs (limbs.length - 1)
    have cleared : (digit limbs (limbs.length - 1) &&& 2 ^ 31).testBit 31 = false := by
      rw [show digit limbs (limbs.length - 1) &&& 2 ^ 31 = 0 from clear]
      exact Nat.zero_testBit 31
    rw [Nat.testBit_and, Nat.testBit_two_pow_self, Bool.and_true, Nat.testBit_eq_decide_div_mod_eq,
      decide_eq_false_iff_not] at cleared
    omega
  have positive : limbs.length ≠ 0 := by simpa using some
  have low : value (limbs.take (limbs.length - 1)) < (2 ^ 32) ^ (limbs.length - 1) :=
    lt_of_lt_of_le (Limbs.value_lt _)
      (Nat.pow_le_pow_right (by positivity) (by rw [List.length_take]; exact Nat.min_le_left _ _))
  have split := Limbs.value_take_succ limbs (limbs.length - 1)
  rw [show limbs.length - 1 + 1 = limbs.length by omega, List.take_length, denotes] at split
  have bound : (2 ^ 32) ^ (limbs.length - 1) * (digit limbs (limbs.length - 1) + 1) ≤
      (2 ^ 32) ^ (limbs.length - 1) * 2 ^ 31 := Nat.mul_le_mul_left _ top
  have power : (2 ^ 32) ^ limbs.length = (2 ^ 32) ^ (limbs.length - 1) * 2 ^ 31 * 2 := by
    rw [Nat.mul_assoc, ← pow_succ, ← pow_succ, show limbs.length - 1 + 1 = limbs.length by omega]
  by_contra carried
  have large : (2 ^ 32) ^ limbs.length ≤ (2 ^ 32) ^ limbs.length * carry :=
    Nat.le_mul_of_pos_right _ (Nat.pos_of_ne_zero carried)
  rw [Nat.mul_add, Nat.mul_one] at bound
  omega

theorem makePositive_spec {limbs : List (BitVec 32)} {capacity : Nat} {sign : Int} (sound : Sound s)
    (found : s.lookup handle = some ⟨limbs, capacity, sign⟩) (normal : Normal limbs)
    (zero : limbs = [] → sign = 0) {bad : Status → ExactContext → Prop} :
    wp (adjust handle fun b => if b.count ≠ 0 then withSign 1 b else b)
      (fun _ t => Within [handle] s t ∧ Holds t handle (value limbs)) bad s := by
  have room := (sound.of_lookup found).1
  by_cases empty : limbs = []
  · have none : ¬(⟨limbs, capacity, sign⟩ : Bigint).count ≠ 0 := by simp [Bigint.count, empty]
    refine wp_good (adjust_spec sound found (by rw [if_neg none]) (by rwa [if_neg none])) ?_
    rintro _ t ⟨within, now⟩
    rw [if_neg none] at now
    refine ⟨within, _, now, ?_, toInt_of_nonneg _ fun some => absurd empty some⟩
    exact canonical_of_normal normal _ (by rw [if_pos empty]; exact zero empty)
  · have some : (⟨limbs, capacity, sign⟩ : Bigint).count ≠ 0 := by simpa [Bigint.count] using empty
    refine wp_good (adjust_spec sound found (by rw [if_pos some]; rfl) (by rw [if_pos some]; exact room)) ?_
    rintro _ t ⟨within, now⟩
    rw [if_pos some] at now
    refine ⟨within, _, now, ?_, toInt_of_nonneg _ fun _ => rfl⟩
    exact canonical_of_normal normal _ (by rw [if_neg empty]; exact .inl rfl)

theorem shiftLeftOne_spec (sound : Sound s) {n : Nat} (holds : Holds s handle n) (lowBit : Bool) :
    wp (shiftLeftOne handle lowBit)
      (fun _ t => Within [handle] s t ∧ Holds t handle (2 * n + if lowBit then 1 else 0 : Nat))
      (fun stop t => Exhausted stop ∧ Within [handle] s t) s := by
  obtain ⟨b, found, canonical, denotes⟩ := holds
  have magnitude := canonical.value_eq denotes
  unfold shiftLeftOne
  simp only [wp_bind, wp_get, payload_of_lookup found]
  set carryIn := if lowBit then 1 else 0 with carryIn_eq
  have bit : carryIn ≤ 1 := by
    rw [carryIn_eq]
    split <;> omega
  refine wp_mono (reserve_spec sound found canonical _) ?_ (fun _ _ stopped => ⟨stopped.1, stopped.2.widen _⟩)
  rintro _ t ⟨reserved, capacity, enough, _, grown⟩
  refine wp_mono (limbPass_spec reserved.sound grown
    (fun i low carry => low + (2 ^ 32) ^ i * carry = 2 * value (b.limbs.take i) + carryIn ∧ carry ≤ 1)
    ⟨by simp, bit⟩ ?_) ?_ (fun _ _ stopped => ⟨stopped.1, reserved.trans stopped.2⟩)
  · rintro i low carry - ⟨sum, below⟩
    have limb := Limbs.digit_lt b.limbs i
    simp only [shift_or limb below, Nat.shiftRight_eq_div_pow]
    refine ⟨?_, by omega⟩
    calc
      _ = low + (2 ^ 32) ^ i * (digit b.limbs i * 2 + carry) := Limbs.carry_column _ _ _
      _ = low + (2 ^ 32) ^ i * carry + 2 * ((2 ^ 32) ^ i * digit b.limbs i) := by ring
      _ = _ := by
        rw [sum, Limbs.value_take_succ]
        ring
  rintro carry u ⟨passed, limbs, length, now, total, below⟩
  change u.lookup handle = some ⟨limbs, capacity, b.sign⟩ at now
  rw [show ({ limbs := b.limbs, capacity := capacity, sign := b.sign } : Bigint).count = b.count from rfl,
    value_take_count, magnitude] at total
  change limbs.length = b.limbs.length at length
  rw [Bigint.count, ← length] at total
  have room : carry ≠ 0 → limbs.length + 1 ≤ capacity := by
    intro carried
    by_cases grows : b.count = 0 ∨ digit b.limbs (b.count - 1) &&& 0x80000000 ≠ 0
    · rw [if_pos grows, Bigint.count, ← length] at enough
      exact enough
    · have clear : digit b.limbs (b.limbs.length - 1) &&& 0x80000000 = 0 := by
        by_contra set_
        exact grows (.inr set_)
      exact absurd (carry_of_top_clear clear magnitude (fun empty => grows (.inl (by rw [Bigint.count, empty]; rfl)))
        (length ▸ total) bit) carried
  refine wp_good (pushCarry_spec passed.sound now room (by omega) total ?_) ?_
  · intro some
    rw [length] at some ⊢
    have lower := Limbs.pow_le_value canonical.normal (fun empty => some (by simp [empty]))
    omega
  rintro _ v ⟨pushed, limbs', then_, normal, result⟩
  have within := (reserved.trans passed).trans pushed
  have zero : limbs' = [] → b.sign = 0 := by
    rintro rfl
    rw [Limbs.value_nil] at result
    have unsigned := canonical.signed
    rwa [if_pos (canonical.eq_zero_iff.mpr (by rw [denotes]; omega))] at unsigned
  refine wp_good (makePositive_spec pushed.sound then_ normal zero) ?_
  rintro _ w ⟨assigned, finally_⟩
  exact ⟨within.trans assigned, by rwa [result] at finally_⟩

theorem subtractAbsInPlace_spec (sound : Sound s) {subtrahend : Handle} {n : Nat} {m : Int}
    (holds : Holds s handle n) (other : Holds s subtrahend m) (order : m.natAbs ≤ n) :
    wp (subtractAbsInPlace handle subtrahend)
      (fun _ t => Within [handle] s t ∧ Holds t handle (n - m.natAbs : Nat))
      (fun stop t => Exhausted stop ∧ Within [handle] s t) s := by
  obtain ⟨a, found, canonical, denotes⟩ := holds
  obtain ⟨b, found', canonical', denotes'⟩ := other
  have magnitude := canonical.value_eq denotes
  rw [← denotes', canonical'.natAbs_eq] at order ⊢
  unfold subtractAbsInPlace
  simp only [wp_bind, wp_get, payload_of_lookup found, payload_of_lookup found']
  refine wp_good (limbPass_spec sound found
    (fun i low borrow => low + value (b.limbs.take i) = value (a.limbs.take i) + (2 ^ 32) ^ i * borrow ∧ borrow ≤ 1)
    ⟨by simp, Nat.zero_le _⟩ (fun i low borrow _ holds => borrow_advance holds)) ?_
  rintro borrow t ⟨passed, limbs, length, now, holds⟩
  rw [← magnitude] at order ⊢
  obtain ⟨none, difference⟩ := borrow_end order (length_le canonical' order) length holds
  rw [if_neg (by omega)]
  simp only [wp_bind, wp_modify]
  have signed : value limbs ≠ 0 → a.sign = 1 ∨ a.sign = -1 := by
    intro some
    have nonzero : a.limbs ≠ [] := by
      intro empty
      rw [difference, empty, Limbs.value_nil] at some
      omega
    simpa only [if_neg nonzero] using canonical.signed
  obtain ⟨normalized, c, then_, canonical'', denotes''⟩ := normalize_spec passed.sound now signed
  have unsigned : c.limbs = [] → c.sign = 0 := fun empty => by
    simpa only [if_pos empty] using canonical''.signed
  refine wp_good (makePositive_spec normalized.sound then_ canonical''.normal unsigned) ?_
  rintro _ u ⟨assigned, finally_⟩
  refine ⟨(passed.trans normalized).trans assigned, ?_⟩
  have same : value c.limbs = value a.limbs - value b.limbs := by
    rw [← canonical''.natAbs_eq, denotes'', ← difference]
    by_cases zero : value limbs = 0
    · simp [toInt, zero]
    · rcases signed zero with plus | minus
      · simp [toInt, plus]
      · simp [toInt, minus]
  rwa [same] at finally_

theorem value_set_bit {limbs : List (BitVec 32)} {bit : Nat} (inside : bit / 32 < limbs.length)
    (clear : value limbs % 2 ^ (bit + 1) = 0) :
    value (limbs.set (bit / 32) (BitVec.ofNat 32 (digit limbs (bit / 32) ||| 1 <<< (bit % 32)))) =
      value limbs + 2 ^ bit := by
  have position : 2 ^ bit = (2 ^ 32) ^ (bit / 32) * 2 ^ (bit % 32) := by
    rw [← pow_mul, ← pow_add, Nat.div_add_mod]
  have small : bit % 32 < 32 := Nat.mod_lt _ (by decide)
  obtain ⟨k, multiple⟩ := Nat.dvd_of_mod_eq_zero clear
  have low : digit limbs (bit / 32) % 2 ^ (bit % 32 + 1) = 0 := by
    rw [← Limbs.value_div_pow_mod, multiple, pow_succ, position, Nat.mul_assoc, Nat.mul_assoc,
      Nat.mul_div_cancel_left _ (by positivity), ← Nat.mul_assoc, ← pow_succ,
      Nat.mod_mod_of_dvd _ (Nat.pow_dvd_pow 2 small)]
    exact Nat.mul_mod_right _ _
  obtain ⟨j, parts⟩ := Nat.dvd_of_mod_eq_zero low
  have joined : digit limbs (bit / 32) ||| 1 <<< (bit % 32) = digit limbs (bit / 32) + 2 ^ (bit % 32) := by
    rw [Nat.one_shiftLeft, parts]
    exact (Nat.two_pow_add_eq_or_of_lt (Nat.pow_lt_pow_right (by decide) (Nat.lt_succ_self _)) j).symm
  have word : digit limbs (bit / 32) + 2 ^ (bit % 32) < 2 ^ 32 := by
    rw [← joined, Nat.one_shiftLeft]
    exact Nat.or_lt_two_pow (Limbs.digit_lt _ _) (Nat.pow_lt_pow_right (by decide) small)
  have stored := Limbs.value_set inside (BitVec.ofNat 32 (digit limbs (bit / 32) + 2 ^ (bit % 32)))
  rw [BitVec.toNat_ofNat, Nat.mod_eq_of_lt word, Nat.mul_add] at stored
  rw [joined, position]
  omega

theorem setBit_spec (sound : Sound s) {n bit : Nat} (holds : Holds s handle n) (clear : n % 2 ^ (bit + 1) = 0) :
    wp (setBit handle bit)
      (fun _ t => Within [handle] s t ∧ Holds t handle (n + 2 ^ bit : Nat))
      (fun stop t => Exhausted stop ∧ Within [handle] s t) s := by
  obtain ⟨b, found, canonical, denotes⟩ := holds
  have magnitude := canonical.value_eq denotes
  unfold setBit
  simp only [wp_bind]
  refine wp_mono (reserve_spec sound found canonical _) ?_ (fun _ _ stopped => ⟨stopped.1, stopped.2.widen _⟩)
  rintro _ t ⟨reserved, capacity, enough, roomier, grown⟩
  set limbs := b.limbs ++ List.replicate (bit / 32 + 1 - b.count) 0#32 with extended_eq
  have length : limbs.length = b.count + (bit / 32 + 1 - b.count) := by
    rw [extended_eq, List.length_append, List.length_replicate]
    rfl
  have denotes' : value limbs = n := by
    rw [extended_eq, Limbs.value_append, Limbs.value_replicate_zero, Nat.mul_zero, Nat.add_zero, magnitude]
  have fits : limbs.length ≤ capacity := by
    have := (sound.of_lookup found).1
    omega
  refine wp_good (adjust_spec reserved.sound grown rfl ?_) ?_
  · exact fits
  rintro _ u ⟨extended, now⟩
  change u.lookup handle = some ⟨limbs, capacity, b.sign⟩ at now
  refine wp_good (adjust_spec extended.sound now rfl ?_) ?_
  · simpa [withSign, setLimb, Bigint.count] using fits
  rintro _ v ⟨assigned, then_⟩
  have sum := value_set_bit (show bit / 32 < limbs.length by omega) (by rw [denotes']; exact clear)
  rw [denotes'] at sum
  change v.lookup handle = some ⟨limbs.set (bit / 32) _, capacity, 1⟩ at then_
  refine ⟨(reserved.trans extended).trans assigned, _, then_, canonical_of_normal ?_ _ ?_, ?_⟩
  · -- The top limb is the one with the new bit, or was the top limb before.
    apply Limbs.normal_of_pow_le
    rw [sum, List.length_set]
    by_cases longer : bit / 32 + 1 < b.count
    · have nonempty : b.limbs ≠ [] := by
        intro empty
        rw [Bigint.count, empty] at longer
        simp at longer
      have lower := Limbs.pow_le_value canonical.normal nonempty
      rw [magnitude] at lower
      rw [length, show b.count + (bit / 32 + 1 - b.count) - 1 = b.limbs.length - 1 by
        simp only [Bigint.count] at longer ⊢; omega]
      omega
    · rw [length, show b.count + (bit / 32 + 1 - b.count) - 1 = bit / 32 by omega, ← pow_mul]
      exact le_add_left (Nat.pow_le_pow_right (by decide) (Nat.mul_div_le bit 32))
  · rw [if_neg]
    · exact .inl rfl
    · intro empty
      have := congrArg List.length empty
      simp only [List.length_set, List.length_nil] at this
      omega
  · rw [toInt_of_nonneg _ fun _ => rfl]
    exact_mod_cast sum

section
variable {dividend divisor quotient remainder : Handle} {x y : Int}

theorem divideByLimb_spec (sound : Sound s) (first : Holds s dividend x) (second : Holds s quotient 0)
    (third : Holds s remainder 0) (distinct : remainder ≠ quotient) {small : Nat} (positive : 0 < small)
    (word : small < 2 ^ 32) :
    wp (divideByLimb dividend quotient remainder small)
      (fun _ t => Within [quotient, remainder] s t ∧ Holds t quotient (x.natAbs / small : Nat) ∧
        Holds t remainder (x.natAbs % small : Nat))
      (fun stop t => Exhausted stop ∧ Within [quotient, remainder] s t) s := by
  obtain ⟨a, found, canonical, denotes⟩ := first
  obtain ⟨b, found', canonical', _⟩ := second
  rw [← denotes, canonical.natAbs_eq]
  unfold divideByLimb
  simp only [wp_bind, wp_get, payload_of_lookup found, wp_modify]
  have left_open : [quotient] ⊆ [quotient, remainder] := by simp
  have right_open : [remainder] ⊆ [quotient, remainder] := by simp
  refine wp_mono (reserve_spec sound found' canonical' _) ?_ (fun _ _ stopped => ⟨stopped.1, stopped.2.widen _⟩)
  rintro _ t ⟨reserved, capacity, enough, _, grown⟩
  -- From the top down, the limbs made so far and the carry divide the limbs read so far.
  refine wp_good (wp_countDown (fun i (made : List (BitVec 32) × Nat) u => Within [] t u ∧
    made.1.length + i = a.count ∧ made.2 < small ∧ value made.1 * small + made.2 = value (a.limbs.drop i))
    a.count ([], 0) t ⟨.refl reserved.sound _, by simp, positive, by simp [Bigint.count]⟩ ?_) ?_
  · rintro i ⟨made, carry⟩ u below ⟨within, length, rest, holds⟩
    dsimp only at length rest holds ⊢
    simp only [wp_bind, wp_pure]
    refine wp_mono (exactStep_spec within.sound 1) ?_
      (fun _ _ stopped => ⟨stopped.1, (reserved.mono left_open).trans ((within.trans stopped.2).widen _)⟩)
    intro _ v stepped
    have limb := Limbs.digit_lt a.limbs i
    have joined : u64 (carry <<< 32) ||| digit a.limbs i = 2 ^ 32 * carry + digit a.limbs i := by
      rw [Nat.shiftLeft_eq, u64_of_lt (by omega), Nat.mul_comm carry]
      exact (Nat.two_pow_add_eq_or_of_lt limb carry).symm
    have quotient_word : (2 ^ 32 * carry + digit a.limbs i) / small < 2 ^ 32 := by
      refine Nat.div_lt_of_lt_mul ?_
      have : 2 ^ 32 * (carry + 1) ≤ 2 ^ 32 * small := Nat.mul_le_mul_left _ rest
      rw [Nat.mul_comm small]
      omega
    rw [joined]
    refine ⟨within.trans stepped, by simp only [List.length_cons]; omega, Nat.mod_lt _ positive, ?_⟩
    have division := Nat.div_add_mod (2 ^ 32 * carry + digit a.limbs i) small
    rw [Limbs.value_cons, BitVec.toNat_ofNat, Nat.mod_eq_of_lt quotient_word, Limbs.value_drop below, ← holds]
    calc
      _ = small * ((2 ^ 32 * carry + digit a.limbs i) / small) + (2 ^ 32 * carry + digit a.limbs i) % small +
          2 ^ 32 * (value made * small) := by ring
      _ = _ := by
        rw [division]
        ring
  rintro ⟨limbs, carry⟩ u ⟨divided, length, rest, holds⟩
  dsimp only at length rest holds ⊢
  rw [List.drop_zero] at holds
  have here := (divided.others quotient List.not_mem_nil).trans grown
  refine wp_good (adjust_spec divided.sound here rfl ?_) ?_
  · show limbs.length ≤ capacity
    omega
  rintro _ v ⟨written, now⟩
  obtain ⟨normalized, result⟩ := normalize_spec written.sound now (fun _ => .inl rfl)
  have kept : Within [quotient] s (bigintNormalize quotient v) :=
    ((reserved.trans (divided.widen _)).trans written).trans normalized
  have third' := third.frame kept (by simpa using distinct)
  refine wp_mono (bigintAssignU64_spec kept.sound third' (by omega) ?_) ?_
    (fun _ _ stopped => ⟨stopped.1, (kept.mono left_open).trans (stopped.2.widen _)⟩)
  · split
    · exact .inr (.inl rfl)
    · exact .inl rfl
  rintro _ w ⟨assigned, then_⟩
  have quotient_eq : value a.limbs / small = value limbs := by
    rw [← holds, Nat.mul_comm, Nat.mul_add_div positive, Nat.div_eq_of_lt rest, Nat.add_zero]
  have remainder_eq : value a.limbs % small = carry := by
    rw [← holds, Nat.mul_comm, Nat.mul_add_mod, Nat.mod_eq_of_lt rest]
  rw [quotient_eq, remainder_eq]
  refine ⟨(kept.mono left_open).trans (assigned.mono right_open), ?_, ?_⟩
  · refine Holds.frame assigned (by simpa using distinct.symm) ?_
    simpa only [toInt, one_mul] using result
  · by_cases zero : carry = 0
    · simpa [zero] using then_
    · simpa [zero] using then_

theorem divide_bit {n d low : Nat} (positive : 0 < d) (bit : low ≤ 1) :
    (if d ≤ 2 * (n % d) + low then
      (2 * n + low) % d = 2 * (n % d) + low - d ∧ (2 * n + low) / d = 2 * (n / d) + 1
    else (2 * n + low) % d = 2 * (n % d) + low ∧ (2 * n + low) / d = 2 * (n / d)) := by
  have rest := Nat.mod_lt n positive
  have split := Nat.div_add_mod n d
  have whole : 2 * n + low = d * (2 * (n / d)) + (2 * (n % d) + low) := by
    calc
      _ = 2 * (d * (n / d) + n % d) + low := by rw [split]
      _ = _ := by ring
  split
  next above =>
    have whole' : 2 * n + low = d * (2 * (n / d) + 1) + (2 * (n % d) + low - d) := by
      rw [Nat.mul_add, Nat.mul_one]
      omega
    constructor
    · rw [whole', Nat.mul_add_mod, Nat.mod_eq_of_lt (by omega)]
    · rw [whole', Nat.mul_add_div positive, Nat.div_eq_of_lt (show 2 * (n % d) + low - d < d by omega),
        Nat.add_zero]
  next below =>
    constructor
    · rw [whole, Nat.mul_add_mod, Nat.mod_eq_of_lt (by omega)]
    · rw [whole, Nat.mul_add_div positive, Nat.div_eq_of_lt (show 2 * (n % d) + low < d by omega), Nat.add_zero]

/-- The state of the long division before it looks at the bits below `bit`. -/
structure Dividing (quotient remainder : Handle) (n d bit : Nat) (t : ExactContext) : Prop where
  quotient : Holds t quotient (n / 2 ^ bit / d * 2 ^ bit : Nat)
  remainder : Holds t remainder (n / 2 ^ bit % d : Nat)

theorem divideBit_spec {bit : Nat} (sound : Sound s) (first : Holds s dividend x) (second : Holds s divisor y)
    (nonzero : y ≠ 0) (state : Dividing quotient remainder x.natAbs y.natAbs (bit + 1) s)
    (distinct : remainder ≠ quotient) (apart : divisor ≠ remainder) :
    wp (divideBit dividend divisor quotient remainder bit)
      (fun _ t => Within [quotient, remainder] s t ∧ Dividing quotient remainder x.natAbs y.natAbs bit t)
      (fun stop t => Exhausted stop ∧ Within [quotient, remainder] s t) s := by
  have left_open : [quotient] ⊆ [quotient, remainder] := by simp
  have right_open : [remainder] ⊆ [quotient, remainder] := by simp
  unfold divideBit
  simp only [wp_bind, wp_get]
  refine wp_mono (exactStep_spec sound 1) ?_ (fun _ _ stopped => ⟨stopped.1, stopped.2.widen _⟩)
  intro _ t stepped
  have first' := first.frame stepped List.not_mem_nil
  obtain ⟨canonical, denotes⟩ := first'.payload
  have low := bitAt_spec (t.payload dividend) bit
  rw [← canonical.natAbs_eq, denotes] at low
  refine wp_mono (shiftLeftOne_spec stepped.sound (state.remainder.frame stepped List.not_mem_nil) _) ?_
    (fun _ _ stopped => ⟨stopped.1, (stepped.widen _).trans (stopped.2.mono right_open)⟩)
  rintro _ u ⟨shifted, now⟩
  rw [low] at now
  have within : Within [quotient, remainder] s u := (stepped.widen _).trans (shifted.mono right_open)
  have second' := (second.frame stepped List.not_mem_nil).frame shifted (by simpa using apart)
  have quotient' := (state.quotient.frame stepped List.not_mem_nil).frame shifted (by simpa using distinct.symm)
  rw [bigintCompareAbs_spec shifted.sound now second', Int.natAbs_natCast]
  -- The bits read so far, and the next one.
  have halves : x.natAbs / 2 ^ (bit + 1) = x.natAbs / 2 ^ bit / 2 := by
    rw [pow_succ, Nat.div_div_eq_div_mul]
  have whole : x.natAbs / 2 ^ bit = 2 * (x.natAbs / 2 ^ (bit + 1)) + x.natAbs / 2 ^ bit % 2 := by
    rw [halves]
    omega
  have step := @divide_bit (x.natAbs / 2 ^ (bit + 1)) y.natAbs (x.natAbs / 2 ^ bit % 2)
    (Int.natAbs_pos.mpr nonzero) (by omega)
  rw [← whole] at step
  set r := 2 * (x.natAbs / 2 ^ (bit + 1) % y.natAbs) + x.natAbs / 2 ^ bit % 2
  set q := x.natAbs / 2 ^ (bit + 1) / y.natAbs
  apply wp_ite
  · intro above
    have order : y.natAbs ≤ r := by
      have := Int.sign_nonneg_iff.mp above
      omega
    rw [if_pos order] at step
    simp only [wp_bind]
    refine wp_mono (subtractAbsInPlace_spec shifted.sound now second' order) ?_
      (fun _ _ stopped => ⟨stopped.1, within.trans (stopped.2.mono right_open)⟩)
    rintro _ v ⟨subtracted, then_⟩
    have clear : q * 2 ^ (bit + 1) % 2 ^ (bit + 1) = 0 := Nat.mul_mod_left _ _
    refine wp_mono (setBit_spec subtracted.sound (quotient'.frame subtracted (by simpa using distinct.symm)) clear) ?_
      (fun _ _ stopped =>
        ⟨stopped.1, (within.trans (subtracted.mono right_open)).trans (stopped.2.mono left_open)⟩)
    rintro _ w ⟨set_, finally_⟩
    refine ⟨(within.trans (subtracted.mono right_open)).trans (set_.mono left_open), ?_, ?_⟩
    · rw [step.2, Nat.add_mul, Nat.one_mul, Nat.mul_comm 2, Nat.mul_assoc, ← pow_succ']
      exact finally_
    · rw [step.1]
      exact then_.frame set_ (by simpa using distinct)
  · intro below
    have order : ¬y.natAbs ≤ r := by
      intro above
      exact below (Int.sign_nonneg_iff.mpr (by omega))
    rw [if_neg order] at step
    refine ⟨within, ?_, ?_⟩
    · rw [step.2, Nat.mul_comm 2, Nat.mul_assoc, ← pow_succ']
      exact quotient'
    · rw [step.1]
      exact now

theorem bigintNormalize_within (sound : Sound s) (handle : Handle) :
    Within [handle] s (bigintNormalize handle s) := by
  unfold bigintNormalize
  cases found : s.lookup handle with
  | none =>
    have unchanged : s.store handle (s.payload handle).normalize = s := by
      unfold ExactContext.store
      rw [Registry.update_of_find_none found]
    rw [unchanged]
    exact .refl sound _
  | some b =>
    rw [payload_of_lookup found]
    exact store_within sound found rfl ((Limbs.trim_length_le _).trans (sound.of_lookup found).1)

theorem normalize_holds (sound : Sound s) {n : Int} (holds : Holds s handle n) :
    Holds (bigintNormalize handle s) handle n := by
  obtain ⟨b, found, canonical, rfl⟩ := holds
  refine (normalize_spec sound found fun some => ?_).2
  have nonempty : b.limbs ≠ [] := fun empty => some (by rw [empty, Limbs.value_nil])
  simpa only [if_neg nonempty] using canonical.signed

theorem longDivision_spec (sound : Sound s) (first : Holds s dividend x) (second : Holds s divisor y)
    (third : Holds s quotient 0) (fourth : Holds s remainder 0) (nonzero : y ≠ 0)
    (distinct : remainder ≠ quotient) (apart : dividend ∉ [quotient, remainder])
    (apart' : divisor ∉ [quotient, remainder]) {bits : Nat} (all : x.natAbs < 2 ^ bits) :
    wp (countDown (fun bit _ => divideBit dividend divisor quotient remainder bit) bits ())
      (fun _ t => Within [quotient, remainder] s t ∧ Dividing quotient remainder x.natAbs y.natAbs 0 t)
      (fun stop t => Exhausted stop ∧ Within [quotient, remainder] s t) s := by
  have none : x.natAbs / 2 ^ bits = 0 := Nat.div_eq_of_lt all
  have outside : divisor ≠ remainder := by
    simp only [List.mem_cons, List.not_mem_nil, or_false, not_or] at apart'
    exact apart'.2
  refine wp_countDown (fun bit _ t => Within [quotient, remainder] s t ∧
    Dividing quotient remainder x.natAbs y.natAbs bit t) bits () s
    ⟨.refl sound _, by rw [none]; simpa using third, by rw [none]; simpa using fourth⟩ ?_
  rintro bit - t - ⟨within, state⟩
  refine wp_mono (divideBit_spec within.sound (first.frame within apart) (second.frame within apart') nonzero
    state distinct outside) ?_ (fun _ _ stopped => ⟨stopped.1, within.trans stopped.2⟩)
  rintro _ u ⟨divided, state'⟩
  exact ⟨within.trans divided, state'⟩

theorem divmodAbs_spec (sound : Sound s) (first : Holds s dividend x) (second : Holds s divisor y)
    (third : Holds s quotient 0) (fourth : Holds s remainder 0) (nonzero : y ≠ 0)
    (distinct : remainder ≠ quotient) (apart : dividend ∉ [quotient, remainder])
    (apart' : divisor ∉ [quotient, remainder]) :
    wp (divmodAbs dividend divisor quotient remainder)
      (fun _ t => Within [quotient, remainder] s t ∧ Holds t quotient (x.natAbs / y.natAbs : Nat) ∧
        Holds t remainder (x.natAbs % y.natAbs : Nat))
      (fun stop t => Exhausted stop ∧ Within [quotient, remainder] s t) s := by
  have left_open : [quotient] ⊆ [quotient, remainder] := by simp
  have right_open : [remainder] ⊆ [quotient, remainder] := by simp
  have positive : 0 < y.natAbs := Int.natAbs_pos.mpr nonzero
  obtain ⟨b, found, _⟩ := third
  unfold divmodAbs
  simp only [wp_bind, wp_get]
  refine wp_good (clear_spec sound found) ?_
  rintro _ t ⟨cleared_quotient, third⟩
  obtain ⟨c, found', _⟩ := fourth.frame cleared_quotient (by simpa using distinct)
  refine wp_good (clear_spec cleared_quotient.sound found') ?_
  rintro _ u ⟨cleared_remainder, fourth⟩
  replace third := third.frame cleared_remainder (by simpa using distinct.symm)
  have within : Within [quotient, remainder] s u :=
    (cleared_quotient.mono left_open).trans (cleared_remainder.mono right_open)
  replace first := first.frame within apart
  replace second := second.frame within apart'
  have outside : dividend ≠ remainder ∧ divisor ≠ remainder := by
    simp only [List.mem_cons, List.not_mem_nil, or_false, not_or] at apart apart'
    exact ⟨apart.2, apart'.2⟩
  rw [bigintCompareAbs_spec within.sound first second]
  apply wp_ite
  · intro less
    have order : x.natAbs < y.natAbs := by
      have := Int.sign_neg_iff.mp less
      omega
    rw [Nat.div_eq_of_lt order, Nat.mod_eq_of_lt order]
    refine wp_mono (copyPayload_spec within.sound first fourth outside.1 true) ?_
      (fun _ _ stopped => ⟨stopped.1, within.trans (stopped.2.widen _)⟩)
    rintro _ v ⟨copied, now⟩
    exact ⟨within.trans (copied.mono right_open), third.frame copied (by simpa using distinct.symm), now⟩
  intro _
  obtain ⟨canonical, denotes⟩ := second.payload
  obtain ⟨canonical', denotes'⟩ := first.payload
  apply wp_ite
  · intro single
    have whole := value_take_count (u.payload divisor)
    rw [single, Limbs.value_take_succ, List.take_zero, Limbs.value_nil, pow_zero, Nat.one_mul, Nat.zero_add,
      ← canonical.natAbs_eq, denotes] at whole
    rw [whole]
    refine wp_mono (divideByLimb_spec within.sound first third fourth distinct positive ?_) ?_
      (fun _ _ stopped => ⟨stopped.1, within.trans stopped.2⟩)
    · rw [← whole]
      exact Limbs.digit_lt _ _
    rintro _ v ⟨divided, results⟩
    exact ⟨within.trans divided, results⟩
  intro _
  -- Normalizing canonical results changes nothing; after an early stop it is harmless.
  have normalizing : ∀ v, Sound v →
      Within [quotient, remainder] v (bigintNormalize remainder (bigintNormalize quotient v)) := by
    intro v sound'
    have first_ := bigintNormalize_within sound' quotient
    exact (first_.mono left_open).trans ((bigintNormalize_within first_.sound remainder).mono right_open)
  simp only [wp_ensuring, wp_bind]
  obtain ⟨d, found'', canonical'', _⟩ := id third
  refine wp_mono (reserve_spec within.sound found'' canonical'' _) ?_ ?_
  · rintro _ v ⟨reserved, capacity, _, _, grown⟩
    replace third : Holds v quotient 0 := ⟨_, grown, canonical_of_normal canonical''.normal _ canonical''.signed, by
      have := third.payload.2
      rwa [payload_of_lookup found''] at this⟩
    replace fourth := fourth.frame reserved (by simpa using distinct)
    have kept := within.trans (reserved.mono left_open)
    have all : x.natAbs < 2 ^ bitLength (u.payload dividend) := by
      rw [← denotes', canonical'.natAbs_eq]
      exact bitLength_spec _
    have outer : ∀ handle, handle ∉ [quotient, remainder] → handle ∉ [quotient] := fun handle outside member =>
      outside (left_open member)
    refine wp_mono (longDivision_spec reserved.sound (first.frame reserved (outer _ apart))
      (second.frame reserved (outer _ apart')) third fourth nonzero distinct apart apart' all) ?_ ?_
    · rintro _ w ⟨divided, state⟩
      have first_ := bigintNormalize_within divided.sound quotient
      have second_ := bigintNormalize_within first_.sound remainder
      have result := state.quotient
      have result' := state.remainder
      rw [pow_zero, Nat.div_one] at result result'
      rw [Nat.mul_one] at result
      exact ⟨(kept.trans divided).trans (normalizing w divided.sound),
        (normalize_holds divided.sound result).frame second_ (by simpa using distinct.symm),
        normalize_holds first_.sound (result'.frame first_ (by simpa using distinct))⟩
    · rintro stop w ⟨exhausted, stopped⟩
      exact ⟨exhausted, (kept.trans stopped).trans (normalizing w stopped.sound)⟩
  · rintro stop v ⟨exhausted, reserved⟩
    exact ⟨exhausted, (within.trans (reserved.widen _)).trans (normalizing v reserved.sound)⟩

end

end PhyNspire.Exact.Division

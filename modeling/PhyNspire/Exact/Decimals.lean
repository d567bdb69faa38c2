import PhyNspire.Exact.Fractions
import PhyNspire.Lib.Decimal

/-!
Decimal output and narrowing of the exact layer: the part of integer.c and rational.c
through which exact values leave it. A number is cut into chunks of nine digits from the
low end, and the chunks are printed from the high end.
-/

namespace PhyNspire.Exact.Decimals
open Platform Lib Lib.Stateful Lib.Decimal Context Accounting Integer Magnitude Carry Arithmetic
open Limbs (value digit Normal)

def divideSmallInPlace (handle : Handle) (divisor : Nat) : ExactM Nat := do
  let context ← get
  let remainder ← countDown (fun index remainder => do
    exactStep 1
    let context ← get
    let current := u64 (remainder <<< 32) ||| digit (context.payload handle).limbs index
    adjust handle (setLimb index (current / divisor))
    pure (current % divisor)) (context.payload handle).count 0
  modify (bigintNormalize handle)
  pure remainder

def chunkBase : Nat := 1000000000

def cutChunks (temporary : Handle) (chunkCapacity : Nat) : Nat → List Nat → ExactM (List Nat)
  | 0, chunks => pure chunks
  | turns + 1, chunks => do
      let context ← get
      if (context.payload temporary).count = 0 then pure chunks
      else if chunkCapacity ≤ chunks.length then throw .corruptDocument
      else do
        let chunk ← divideSmallInPlace temporary chunkBase
        cutChunks temporary chunkCapacity turns (chunks ++ [chunk])

def wordDigits : Nat → Nat → List UInt8
  | 0, _ => []
  | turns + 1, word => digitByte (word % 10) :: if word / 10 ≠ 0 then wordDigits turns (word / 10) else []

def decimalDigitsU32 (word : Nat) : Nat := (wordDigits 10 word).length

def emitU32 (word width : Nat) : List UInt8 :=
  let digits := wordDigits 10 word
  (digits ++ List.replicate (width - digits.length) 48).reverse

/-- All chunks from the high end; only the first is printed without leading zeros. -/
def emitChunks (chunks : List Nat) : List UInt8 :=
  match chunks.reverse with
  | [] => []
  | top :: rest => emitU32 top (decimalDigitsU32 top) ++ rest.flatMap (emitU32 · 9)

/-- The end of `phy_bigint_write`: the required size and, given a buffer, its text. -/
def finishWrite (negative : Bool) (chunks : List Nat) (buffer : Option Nat) : ExactM (Nat × List UInt8) := do
  if chunks = [] then throw .corruptDocument
  else
    let leading := decimalDigitsU32 (chunks.getLast?.getD 0)
    let signBytes := if negative then 1 else 0
    if (sizeMax - signBytes - leading - 1) / 9 < chunks.length - 1 then throw .memoryLimit
    else
      let required := signBytes + leading + (chunks.length - 1) * 9 + 1
      match buffer with
      | none => pure (required, [])
      | some capacity =>
          if capacity < required then throw .memoryLimit
          else pure (required, (if negative then [45] else []) ++ emitChunks chunks ++ [0])

/-- `phy_bigint_write` into no buffer or one of a given capacity; the text ends with its terminator. -/
def bigintWrite (value : Handle) (buffer : Option Nat) : ExactM (Nat × List UInt8) := do
  let context ← get
  if !context.bigintShallowValid value then throw .invalidArgument
  else operation do
    let context ← get
    let source := context.payload value
    if source.count = 0 then
      match buffer with
      | none => pure (2, [])
      | some capacity => if capacity < 2 then throw .memoryLimit else pure (2, [48, 0])
    else withTemporary fun temporary => do
      copyPayload value temporary true
      let chunkCapacity := (source.count * 10 + 8) / 9 + 2
      if (sizeMax - 2) / 10 < source.count then throw .memoryLimit
      else if sizeMax / 4 < chunkCapacity then throw .memoryLimit
      else do
        exactTempAlloc (chunkCapacity * 4)
        ensuring (·.discharge (chunkCapacity * 4)) do
          let chunks ← cutChunks temporary chunkCapacity (chunkCapacity + 1) []
          finishWrite (decide (source.sign < 0)) chunks buffer

def bigintTryI64 (context : ExactContext) (value : Handle) : Option Int64 :=
  let payload := context.payload value
  if !context.bigintShallowValid value || decide (2 < payload.count) then none
  else if payload.count = 0 then some 0
  else
    let magnitude := digit payload.limbs 0 ||| (if payload.count = 2 then digit payload.limbs 1 <<< 32 else 0)
    if 0 < payload.sign then if 2 ^ 63 - 1 < magnitude then none else some (Int64.ofInt magnitude)
    else if 2 ^ 63 < magnitude then none else some (Int64.ofInt (-(magnitude : Int)))

def bigratTryI64 (context : ExactContext) (value : Rational.Bigrat) : Option (Int64 × Int64) := do
  if Rational.rationalValidShallow context value then
    let numerator ← bigintTryI64 context (.numerator value)
    let denominator ← bigintTryI64 context (.denominator value)
    pure (numerator, denominator)
  else none

section
variable {turns word width n : Nat}

theorem wordDigits_eq (positive : word ≠ 0) (enough : word < 10 ^ turns) :
    wordDigits turns word = (Nat.digits 10 word).map digitByte := by
  induction turns generalizing word with
  | zero =>
    rw [pow_zero] at enough
    omega
  | succ turns ih =>
    rw [wordDigits, Nat.digits_def' (by decide) (Nat.pos_of_ne_zero positive), List.map_cons]
    split
    · rename_i more
      rw [ih more (by rw [pow_succ] at enough; omega)]
    · rename_i last
      rw [not_not.mp last, Nat.digits_zero]
      rfl

theorem emitU32_leading (positive : word ≠ 0) (enough : word < 10 ^ 10) :
    emitU32 word (decimalDigitsU32 word) = naturalText word := by
  unfold emitU32 decimalDigitsU32 naturalText
  simp only [if_neg positive, wordDigits_eq positive enough, Nat.sub_self, List.replicate_zero, List.append_nil]

theorem emitU32_padded (below : word < 10 ^ 9) : emitU32 word 9 = ((paddedDigits 9 word).map digitByte).reverse := by
  unfold emitU32 paddedDigits
  dsimp only
  by_cases zero : word = 0
  · subst zero
    rfl
  · rw [wordDigits_eq zero (by omega), List.length_map, List.map_append, List.map_replicate]
    rfl

theorem emitChunks_cons (low : Nat) {high : List Nat} (some : high ≠ []) :
    emitChunks (low :: high) = emitChunks high ++ emitU32 low 9 := by
  unfold emitChunks
  rw [List.reverse_cons]
  cases reversed : high.reverse with
  | nil => exact absurd (List.reverse_eq_nil_iff.mp reversed) some
  | cons top rest => simp

theorem emitChunks_digits (positive : n ≠ 0) : emitChunks (Nat.digits chunkBase n) = naturalText n := by
  induction n using Nat.strongRecOn with
  | ind n ih =>
    have base : chunkBase = 10 ^ 9 := rfl
    rw [Nat.digits_def' (by decide) (Nat.pos_of_ne_zero positive)]
    have low : n % chunkBase < 10 ^ 9 := Nat.mod_lt _ (by decide)
    by_cases last : n / chunkBase = 0
    · have small : n % chunkBase = n := Nat.mod_eq_of_lt (by
        rcases Nat.div_eq_zero_iff.mp last with zero | small
        · cases zero
        · exact small)
      rw [last, Nat.digits_zero, small]
      exact (List.append_nil _).trans (emitU32_leading positive (by omega))
    · have some : Nat.digits chunkBase (n / chunkBase) ≠ [] := Nat.digits_ne_nil_iff_ne_zero.mpr last
      rw [emitChunks_cons _ some, ih _ (Nat.div_lt_self (Nat.pos_of_ne_zero positive) (by decide)) last,
        emitU32_padded low]
      have split : n % chunkBase + 10 ^ 9 * (n / chunkBase) = n := by
        rw [← base, Nat.add_comm, Nat.div_add_mod]
      have digits := digits_chunk low (Nat.pos_of_ne_zero last)
      rw [split] at digits
      unfold naturalText
      rw [if_neg positive, if_neg last, digits, List.map_append, List.reverse_append]

theorem length_emitU32_padded (below : word < 10 ^ 9) : (emitU32 word 9).length = 9 := by
  have short : (Nat.digits 10 word).length ≤ 9 := (Nat.digits_length_le_iff (by decide) word).mpr below
  rw [emitU32_padded below, List.length_reverse, List.length_map, paddedDigits, List.length_append,
    List.length_replicate]
  omega

theorem length_emitChunks {chunks : List Nat} (some : chunks ≠ []) (small : ∀ chunk ∈ chunks, chunk < 10 ^ 9) :
    (emitChunks chunks).length = decimalDigitsU32 (chunks.getLast?.getD 0) + (chunks.length - 1) * 9 := by
  induction chunks with
  | nil => exact absurd rfl some
  | cons low high ih =>
    cases high with
    | nil => simp [emitChunks, emitU32, decimalDigitsU32]
    | cons next rest =>
      rw [emitChunks_cons low (List.cons_ne_nil _ _), List.length_append,
        ih (List.cons_ne_nil _ _) (fun chunk inside => small chunk (List.mem_cons_of_mem _ inside)),
        length_emitU32_padded (small low List.mem_cons_self), List.getLast?_cons_cons]
      simp only [List.length_cons]
      omega

end

variable {s : ExactContext} {value temporary : Handle} {z : Int}

theorem divideSmallInPlace_spec (sound : Sound s) {n : Nat} (holds : Holds s temporary n) {divisor : Nat}
    (positive : 0 < divisor) (word : divisor < 2 ^ 32) :
    wp (divideSmallInPlace temporary divisor)
      (fun remainder t => Within [temporary] s t ∧ Holds t temporary (n / divisor : Nat) ∧ remainder = n % divisor)
      (fun stop t => Exhausted stop ∧ Within [temporary] s t) s := by
  obtain ⟨b, found, canonical, denotes⟩ := holds
  have magnitude := canonical.value_eq denotes
  unfold divideSmallInPlace
  simp only [wp_bind, wp_get, payload_of_lookup found, wp_modify]
  -- From the top down, the limbs rewritten so far and the carry divide the limbs they replace.
  refine wp_good (wp_countDown (fun i carry u => Within [temporary] s u ∧ carry < divisor ∧ ∃ limbs,
    limbs.length = b.count ∧ u.lookup temporary = some { b with limbs := limbs } ∧
    limbs.take i = b.limbs.take i ∧
    Limbs.value (limbs.drop i) * divisor + carry = Limbs.value (b.limbs.drop i))
    b.count 0 s ⟨.refl sound _, positive, b.limbs, rfl, found, rfl, by simp [Bigint.count]⟩ ?_) ?_
  · rintro i carry u below ⟨within, rest, limbs, length, now, untouched, holds⟩
    simp only [wp_bind, wp_get, wp_pure]
    refine wp_mono (exactStep_spec within.sound 1) ?_
      (fun _ _ stopped => ⟨stopped.1, within.trans (stopped.2.widen _)⟩)
    intro _ v stepped
    have here : v.lookup temporary = some { b with limbs := limbs } := by rw [stepped.lookup_eq, now]
    rw [payload_of_lookup here]
    have room : i < limbs.length := by omega
    have same : digit limbs i = digit b.limbs i := by
      have taken := congrArg (fun words => digit words i) untouched
      simpa [digit, List.getElem?_take] using taken
    have limb := Limbs.digit_lt b.limbs i
    have joined : u64 (carry <<< 32) ||| digit limbs i = 2 ^ 32 * carry + digit b.limbs i := by
      rw [same, Nat.shiftLeft_eq, u64_of_lt (by omega), Nat.mul_comm carry]
      exact (Nat.two_pow_add_eq_or_of_lt limb carry).symm
    have quotient_word : (2 ^ 32 * carry + digit b.limbs i) / divisor < 2 ^ 32 := by
      refine Nat.div_lt_of_lt_mul ?_
      have : 2 ^ 32 * (carry + 1) ≤ 2 ^ 32 * divisor := Nat.mul_le_mul_left _ rest
      rw [Nat.mul_comm divisor]
      omega
    rw [joined]
    refine wp_good (adjust_spec stepped.sound here rfl ?_) ?_
    · simpa [setLimb, Bigint.count, length] using (sound.of_lookup found).1
    rintro _ w ⟨written, then_⟩
    refine ⟨(within.trans (stepped.widen _)).trans written, Nat.mod_lt _ positive, _, ?_, then_, ?_, ?_⟩
    · rw [List.length_set]
      exact length
    · have shorter := congrArg (List.take i) untouched
      rw [List.take_take, List.take_take, Nat.min_eq_left (Nat.le_succ i)] at shorter
      rw [List.take_set_of_le (Nat.le_refl i), shorter]
    · have division := Nat.div_add_mod (2 ^ 32 * carry + digit b.limbs i) divisor
      rw [Limbs.value_drop (by rw [List.length_set]; exact room), Limbs.digit_set_self room, BitVec.toNat_ofNat,
        Nat.mod_eq_of_lt quotient_word, List.drop_set_of_lt (Nat.lt_succ_self i), Limbs.value_drop below, ← holds]
      calc
        _ = divisor * ((2 ^ 32 * carry + digit b.limbs i) / divisor) + (2 ^ 32 * carry + digit b.limbs i) % divisor +
            2 ^ 32 * (Limbs.value (limbs.drop (i + 1)) * divisor) := by ring
        _ = _ := by
          rw [division]
          ring
  rintro remainder u ⟨within, rest, limbs, length, now, _, holds⟩
  rw [List.drop_zero, List.drop_zero, magnitude] at holds
  have quotient : Limbs.value limbs = n / divisor := by
    rw [← holds, Nat.mul_comm, Nat.mul_add_div positive, Nat.div_eq_of_lt rest, Nat.add_zero]
  have left : remainder = n % divisor := by
    rw [← holds, Nat.mul_comm, Nat.mul_add_mod, Nat.mod_eq_of_lt rest]
  have signed : Limbs.value limbs ≠ 0 → b.sign = 1 := by
    intro nonzero
    have large : n ≠ 0 := by
      rintro rfl
      rw [quotient, Nat.zero_div] at nonzero
      exact nonzero rfl
    rw [canonical.sign_eq, denotes]
    exact Int.sign_eq_one_of_pos (by exact_mod_cast Nat.pos_of_ne_zero large)
  obtain ⟨normalized, result⟩ := normalize_spec within.sound now (fun nonzero => .inl (signed nonzero))
  refine ⟨within.trans normalized, ?_, left⟩
  have denoted : toInt { b with limbs := limbs } = (n / divisor : Nat) := by
    rw [← quotient]
    by_cases zero : Limbs.value limbs = 0
    · simp [toInt, zero]
    · simp [toInt, signed zero]
  rwa [denoted] at result

theorem cutChunks_spec (sound : Sound s) {n : Nat} (holds : Holds s temporary n) (chunkCapacity : Nat) {turns : Nat}
    {chunks : List Nat} (room : (Nat.digits chunkBase n).length + chunks.length ≤ chunkCapacity)
    (enough : (Nat.digits chunkBase n).length < turns) :
    wp (cutChunks temporary chunkCapacity turns chunks)
      (fun cut t => Within [temporary] s t ∧ cut = chunks ++ Nat.digits chunkBase n)
      (fun stop t => Exhausted stop ∧ Within [temporary] s t) s := by
  induction turns generalizing s n chunks with
  | zero => omega
  | succ turns ih =>
    obtain ⟨canonical, denotes⟩ := holds.payload
    have empty : (s.payload temporary).count = 0 ↔ n = 0 := by
      rw [canonical.count_eq_zero, denotes, Nat.cast_eq_zero]
    unfold cutChunks
    simp only [wp_bind, wp_get]
    apply wp_ite
    · intro done
      exact ⟨.refl sound _, by rw [empty.mp done, Nat.digits_zero, List.append_nil]⟩
    intro more
    have positive : n ≠ 0 := fun zero => more (empty.mpr zero)
    have digits := Nat.digits_def' (b := chunkBase) (by decide) (Nat.pos_of_ne_zero positive)
    rw [digits, List.length_cons] at room enough
    rw [if_neg (by omega)]
    simp only [wp_bind]
    refine wp_good (divideSmallInPlace_spec sound holds (show 0 < chunkBase by decide) (by decide)) ?_
    rintro chunk t ⟨divided, now, rfl⟩
    refine wp_mono (ih divided.sound now (by rw [List.length_append, List.length_singleton]; omega) (by omega)) ?_
      (fun _ _ stopped => ⟨stopped.1, divided.trans stopped.2⟩)
    rintro cut u ⟨rest, rfl⟩
    refine ⟨divided.trans rest, ?_⟩
    rw [digits, List.append_assoc, List.singleton_append]

theorem length_chunks_le (limbs : List (BitVec 32)) :
    (Nat.digits chunkBase (Limbs.value limbs)).length ≤ (limbs.length * 10 + 8) / 9 + 2 := by
  rw [Nat.digits_length_le_iff (by decide)]
  have bound : (2 ^ 32) ^ limbs.length ≤ chunkBase ^ ((limbs.length * 10 + 8) / 9) := by
    calc
      (2 ^ 32) ^ limbs.length ≤ (10 ^ 10) ^ limbs.length := Nat.pow_le_pow_left (by decide) _
      _ = 10 ^ (10 * limbs.length) := (pow_mul 10 10 _).symm
      _ ≤ 10 ^ (9 * ((limbs.length * 10 + 8) / 9)) := Nat.pow_le_pow_right (by decide) (by omega)
      _ = chunkBase ^ ((limbs.length * 10 + 8) / 9) := pow_mul 10 9 _
  calc
    Limbs.value limbs < (2 ^ 32) ^ limbs.length := Limbs.value_lt limbs
    _ ≤ chunkBase ^ ((limbs.length * 10 + 8) / 9) := bound
    _ ≤ _ := Nat.pow_le_pow_right (by decide) (by omega)

/-- What `bigintWrite` hands back for an integer. -/
def Written (z : Int) (buffer : Option Nat) (result : Nat × List UInt8) : Prop :=
  result.1 = (integerText z).length + 1 ∧ (buffer ≠ none → result.2 = integerText z ++ [0])

theorem finishWrite_spec (nonzero : z ≠ 0) (buffer : Option Nat) (s : ExactContext) :
    wp (finishWrite (decide (z < 0)) (Nat.digits chunkBase z.natAbs) buffer)
      (fun result t => Written z buffer result ∧ t = s) (fun stop t => Exhausted stop ∧ t = s) s := by
  have positive : z.natAbs ≠ 0 := Int.natAbs_ne_zero.mpr nonzero
  have some : Nat.digits chunkBase z.natAbs ≠ [] := Nat.digits_ne_nil_iff_ne_zero.mpr positive
  have small : ∀ chunk ∈ Nat.digits chunkBase z.natAbs, chunk < 10 ^ 9 :=
    fun chunk inside => Nat.digits_lt_base (by decide) inside
  have length := length_emitChunks some small
  have printed := emitChunks_digits positive
  rw [printed] at length
  unfold finishWrite
  rw [if_neg some]
  have text : integerText z = (if decide (z < 0) = true then [45] else []) ++ naturalText z.natAbs := by
    unfold integerText
    by_cases negative : z < 0 <;> simp [negative]
  have size : (if decide (z < 0) = true then 1 else 0) +
      decimalDigitsU32 ((Nat.digits chunkBase z.natAbs).getLast?.getD 0) +
      ((Nat.digits chunkBase z.natAbs).length - 1) * 9 + 1 = (integerText z).length + 1 := by
    rw [text, List.length_append, length]
    by_cases negative : z < 0 <;> simp [negative] <;> omega
  dsimp only
  apply wp_ite
  · intro _
    exact ⟨.inr (.inr (.inl rfl)), rfl⟩
  intro _
  cases buffer with
  | none => exact ⟨⟨size, fun given => absurd rfl given⟩, rfl⟩
  | some capacity =>
    dsimp only
    apply wp_ite
    · intro _
      exact ⟨.inr (.inr (.inl rfl)), rfl⟩
    intro _
    exact ⟨⟨size, fun _ => by rw [text, printed]⟩, rfl⟩

theorem wp_charged {α : Type} {body : ExactM α} {good : α → ExactContext → Prop} {bad : Status → ExactContext → Prop}
    {bytes : Nat} (opened : List Handle) (sound : Sound s) (positive : bytes ≠ 0)
    (stops : ∀ stop t, Exhausted stop → Within [] s t → bad stop t)
    (inner : ∀ u, Sound u → u.lookup = s.lookup →
      wp body (fun result t => Within opened u t ∧ (Within opened s (t.discharge bytes) → good result (t.discharge bytes)))
        (fun stop t => Within opened u t ∧ (Within opened s (t.discharge bytes) → bad stop (t.discharge bytes))) u) :
    wp (do exactTempAlloc bytes; ensuring (·.discharge bytes) body) good bad s := by
  unfold exactTempAlloc charge allocate
  simp only [wp_bind]
  rw [if_neg positive]
  simp only [wp_bind, wp_get]
  apply wp_ite
  · intro _
    simp only [wp_pure, Bool.false_eq_true, ↓reduceIte, wp_throw]
    exact stops _ _ (.inr (.inr (.inl rfl))) (.refl sound _)
  intro affordable
  have within : s.bytes + bytes ≤ s.limits.maxBytes.toNat := by
    have := sound.affordable
    omega
  simp only [wp_bind, wp_set, wp_pure, ↓reduceIte, wp_get, Heap.alloc]
  apply wp_ite
  · intro _
    simp only [wp_set, wp_ensuring]
    refine wp_mono (inner _ ?_ rfl) ?_ ?_
    · exact ⟨sound.distinct, sound.counted, Nat.le_trans sound.charged (Nat.le_add_right _ _), within, sound.patient,
        sound.bounded, sound.ceiling⟩
    all_goals
      rintro _ t ⟨kept, result⟩
      refine result ⟨⟨⟨kept.sound.distinct, kept.sound.counted, ?_, ?_, kept.sound.patient, kept.sound.bounded,
        kept.sound.ceiling⟩, kept.limits, ?_⟩, kept.others⟩
      all_goals
        have overhead := kept.overhead
        have charged := sound.charged
        have bound := kept.sound.affordable
        simp only [ExactContext.discharge] at overhead ⊢
        omega
  · intro _
    simp only [wp_bind, wp_set, wp_throw]
    refine stops _ _ (.inr (.inr (.inr rfl))) ⟨⟨⟨sound.distinct, sound.counted, ?_, ?_, sound.patient, sound.bounded,
      sound.ceiling⟩, rfl, ?_⟩, fun _ _ => rfl⟩
    all_goals
      have charged := sound.charged
      have bound := sound.affordable
      simp only [ExactContext.discharge]
      omega

/-- Writing hands back the decimal notation of the integer and changes nothing. -/
theorem bigintWrite_spec (valid : Valid s) (seen : view s value = some z) (buffer : Option Nat) :
    wp (bigintWrite value buffer) (fun result t => Written z buffer result ∧ Within [] s t)
      (fun stop t => Exhausted stop ∧ Within [] s t) s := by
  unfold bigintWrite
  simp only [wp_bind, wp_get, valid.shallow seen, Bool.not_true, Bool.false_eq_true, ↓reduceIte]
  refine wp_operation valid.toSound fun r begun => ?_
  have ended : ∀ {t}, Within [] r t → Within [] s (exactOperationEnd t) := fun kept =>
    (begun.trans kept).trans (exactOperationEnd_within kept.sound)
  have holds := (valid.holds seen).frame begun List.not_mem_nil
  obtain ⟨canonical, denotes⟩ := holds.payload
  rw [wp_bind, wp_get]
  apply wp_ite
  · intro empty
    have zero : z = 0 := denotes.symm.trans (canonical.count_eq_zero.mp empty)
    subst zero
    cases buffer with
    | none => exact ⟨⟨rfl, fun given => absurd rfl given⟩, ended (.refl begun.sound _)⟩
    | some capacity =>
      dsimp only
      apply wp_ite
      · intro _
        exact ⟨.inr (.inr (.inl rfl)), ended (.refl begun.sound _)⟩
      intro _
      exact ⟨⟨rfl, fun _ => rfl⟩, ended (.refl begun.sound _)⟩
  intro some
  have nonzero : z ≠ 0 := fun zero => some (canonical.count_eq_zero.mpr (denotes.trans zero))
  refine wp_withTemporary begun.sound fun temporary u absent opened empty => ?_
  have closed : ∀ {t}, Within [temporary] r t → Within [] s (exactOperationEnd (bigintDestroy temporary t)) :=
    fun kept => ended (Within.close absent kept)
  have distinct := holds.ne absent
  have source := holds.frame opened (by simpa using distinct)
  have fresh : Holds u temporary 0 := ⟨_, empty, canonical_empty _, by simp [toInt, Bigint.empty]⟩
  rw [wp_bind]
  refine wp_mono (copyPayload_spec opened.sound source fresh distinct true) ?_ (fun stop t stopped => ⟨stopped.1, closed (opened.trans (stopped.2.widen _))⟩)
  rintro _ v ⟨copied, now⟩
  have kept := opened.trans copied
  have digits := length_chunks_le (r.payload value).limbs
  rw [← canonical.natAbs_eq, denotes] at digits
  apply wp_ite
  · intro _
    exact ⟨.inr (.inr (.inl rfl)), closed kept⟩
  intro _
  apply wp_ite
  · intro _
    exact ⟨.inr (.inr (.inl rfl)), closed kept⟩
  intro _
  have negative : (r.payload value).sign < 0 ↔ z < 0 := by
    rw [canonical.sign_eq, denotes, Int.sign_neg_iff]
  refine wp_charged [temporary] kept.sound (by omega)
    (fun stop t exhausted within => ⟨exhausted, closed (kept.trans (within.widen _))⟩) fun w sound same => ?_
  have here : Holds w temporary z.natAbs := by
    obtain ⟨b, found, rest⟩ := now
    exact ⟨b, (congrFun same temporary).trans found, by simpa using rest⟩
  rw [wp_bind]
  refine wp_mono (cutChunks_spec sound here _ (by simpa [Bigint.count] using digits)
    (by simpa [Bigint.count] using Nat.lt_succ_of_le digits)) ?_
    (fun stop t stopped => ⟨stopped.2, fun within => ⟨stopped.1, closed (kept.trans within)⟩⟩)
  rintro chunks x ⟨cut, rfl⟩
  rw [List.nil_append, decide_eq_decide.mpr negative]
  refine wp_mono (finishWrite_spec nonzero buffer x) ?_ ?_
  · rintro result y ⟨written, rfl⟩
    exact ⟨cut, fun within => ⟨written, closed (kept.trans within)⟩⟩
  · rintro stop y ⟨exhausted, rfl⟩
    exact ⟨cut, fun within => ⟨exhausted, closed (kept.trans within)⟩⟩

def FitsI64 (z : Int) : Prop := -2 ^ 63 ≤ z ∧ z < 2 ^ 63

instance (z : Int) : Decidable (FitsI64 z) := inferInstanceAs (Decidable (_ ∧ _))

theorem toInt_ofInt_of_fits (fits : FitsI64 z) : (Int64.ofInt z).toInt = z := by
  rw [Int64.toInt_ofInt, Int.bmod_eq_of_le]
  · exact fits.1
  · exact fits.2

theorem two_limbs {limbs : List (BitVec 32)} (some : limbs ≠ []) (short : limbs.length ≤ 2) :
    digit limbs 0 ||| (if limbs.length = 2 then digit limbs 1 <<< 32 else 0) = Limbs.value limbs := by
  match limbs, some, short with
  | [low], _, _ => simp [digit]
  | [low, high], _, _ =>
    have word := low.isLt
    have joined := Nat.two_pow_add_eq_or_of_lt word high.toNat
    simp only [digit, Limbs.value, List.getD_cons_zero, List.getD_cons_succ, List.length_cons, List.length_nil,
      Nat.reduceAdd, ↓reduceIte, Nat.shiftLeft_eq]
    rw [Nat.or_comm, Nat.mul_comm high.toNat, ← joined]
    omega

theorem bigintTryI64_spec (valid : Valid s) (seen : view s value = some z) :
    bigintTryI64 s value = if FitsI64 z then some (Int64.ofInt z) else none := by
  obtain ⟨canonical, denotes⟩ := (valid.holds seen).payload
  have magnitude := canonical.natAbs_eq
  have sign := canonical.sign_eq
  rw [denotes] at magnitude sign
  unfold bigintTryI64
  simp only [valid.shallow seen, Bool.not_true, Bool.false_or, decide_eq_true_eq]
  by_cases long : 2 < (s.payload value).count
  · have wide := Limbs.pow_le_value canonical.normal (by
      intro empty
      rw [Bigint.count, empty] at long
      cases long)
    have power : (2 ^ 32) ^ 2 ≤ (2 ^ 32) ^ ((s.payload value).limbs.length - 1) :=
      Nat.pow_le_pow_right (by decide) (by rw [Bigint.count] at long; omega)
    rw [if_pos long, if_neg]
    intro fits
    have low := fits.1
    have high := fits.2
    omega
  rw [if_neg long]
  by_cases empty : (s.payload value).count = 0
  · have zero : z = 0 := denotes.symm.trans (canonical.count_eq_zero.mp empty)
    rw [if_pos empty, zero, if_pos (by decide)]
    rfl
  rw [if_neg empty]
  have nonzero : z ≠ 0 := fun zero => empty (canonical.count_eq_zero.mpr (denotes.trans zero))
  have some : (s.payload value).limbs ≠ [] := fun none => empty (by rw [Bigint.count, none]; rfl)
  have read := two_limbs some (by rw [Bigint.count] at long; omega)
  rw [Bigint.count, read, ← magnitude, sign]
  rcases lt_or_gt_of_ne nonzero with negative | positive
  · rw [Int.sign_eq_neg_one_of_neg negative, if_neg (by decide)]
    by_cases fits : FitsI64 z
    · have low := fits.1
      rw [if_pos fits, if_neg (by omega)]
      congr 2
      omega
    · rw [if_neg fits, if_pos]
      by_contra inside
      exact fits ⟨by omega, by omega⟩
  · rw [Int.sign_eq_one_of_pos positive, if_pos (by decide)]
    by_cases fits : FitsI64 z
    · have high := fits.2
      rw [if_pos fits, if_neg (by omega)]
      congr 2
      omega
    · rw [if_neg fits, if_pos]
      by_contra inside
      exact fits ⟨by omega, by omega⟩

theorem bigratTryI64_spec {address : Rational.Bigrat} {q : ℚ} (valid : Valid s)
    (represents : Fractions.Represents s address q) :
    bigratTryI64 s address =
      if FitsI64 q.num ∧ FitsI64 q.den then some (Int64.ofInt q.num, Int64.ofInt q.den) else none := by
  unfold bigratTryI64
  rw [represents.shallow valid, bigintTryI64_spec valid represents.numerator,
    bigintTryI64_spec valid represents.denominator]
  by_cases numerator : FitsI64 q.num
  · by_cases denominator : FitsI64 q.den
    · simp [numerator, denominator]
    · simp [numerator, denominator]
  · simp [numerator]

end PhyNspire.Exact.Decimals

import PhyNspire.Exact.Division

/-!
The schoolbook product. Rows are accumulated in place; the limb above a row is still zero
when the row's last carry is assigned to it, which is why assigning is as good as adding.
-/

namespace PhyNspire.Exact.Product
open Platform Lib Lib.Stateful Context Accounting Integer Magnitude Carry
open Limbs (value digit Normal)

variable {s : ExactContext}

/-- The rows of a product so far: the number accumulated, with nothing at or above `top`. -/
structure Rows (temporary : Handle) (count capacity : Nat) (sign : Int) (total top : Nat) (s : ExactContext) :
    Prop where
  stored : ∃ limbs, s.lookup temporary = some ⟨limbs, capacity, sign⟩ ∧ limbs.length = count ∧
    value limbs = total ∧ ∀ index, top ≤ index → digit limbs index = 0

theorem multiplyRow_spec {temporary : Handle} {a b : Bigint} {count capacity total i : Nat} {sign : Int}
    (sound : Sound s) (rows : Rows temporary count capacity sign total (i + b.count) s)
    (inside : i + b.count ≤ count) (room : i + b.count < capacity → i + b.count < count) :
    wp (multiplyRow a b temporary i)
      (fun _ t => Within [temporary] s t ∧ Rows temporary count capacity sign
        (total + (2 ^ 32) ^ i * (digit a.limbs i * value b.limbs)) (i + 1 + b.count) t)
      (fun stop t => Exhausted stop ∧ Within [temporary] s t) s := by
  obtain ⟨limbs, found, length, denotes, clear⟩ := rows.stored
  unfold multiplyRow
  simp only [wp_bind]
  refine wp_good (wp_countUp (fun j carry t => Within [temporary] s t ∧ carry < 2 ^ 32 ∧ ∃ limbs',
    t.lookup temporary = some ⟨limbs', capacity, sign⟩ ∧ limbs'.length = count ∧
    (∀ index, i + b.count ≤ index → digit limbs' index = 0) ∧
    value limbs' + (2 ^ 32) ^ (i + j) * carry =
      total + (2 ^ 32) ^ i * (digit a.limbs i * value (b.limbs.take j))) b.count 0 0 s
    ⟨.refl sound _, by decide, limbs, found, length, clear, by simp [denotes]⟩ ?_) ?_
  · rintro j carry t - below ⟨within, word, limbs', now, length', clear', sum⟩
    simp only [wp_bind, wp_get, wp_pure]
    refine wp_mono (exactStep_spec within.sound 1) ?_
      (fun _ _ stopped => ⟨stopped.1, within.trans (stopped.2.widen _)⟩)
    intro _ u stepped
    have here : u.lookup temporary = some ⟨limbs', capacity, sign⟩ := by rw [stepped.lookup_eq, now]
    rw [payload_of_lookup here]
    dsimp only
    have factor := Limbs.digit_lt a.limbs i
    have factor' := Limbs.digit_lt b.limbs j
    have limb := Limbs.digit_lt limbs' (i + j)
    have square : digit a.limbs i * digit b.limbs j ≤ (2 ^ 32 - 1) * (2 ^ 32 - 1) :=
      Nat.mul_le_mul (by omega) (by omega)
    have exact_ : u64 (u64 (u64 (digit a.limbs i * digit b.limbs j) + digit limbs' (i + j)) + carry) =
        digit a.limbs i * digit b.limbs j + digit limbs' (i + j) + carry := by
      rw [u64_of_lt (show digit a.limbs i * digit b.limbs j < 2 ^ 64 by omega),
        u64_of_lt (show digit a.limbs i * digit b.limbs j + digit limbs' (i + j) < 2 ^ 64 by omega),
        u64_of_lt (by omega)]
    rw [exact_, Nat.shiftRight_eq_div_pow]
    refine wp_good (adjust_spec stepped.sound here rfl ?_) ?_
    · simpa [setLimb, Bigint.count] using (within.sound.of_lookup now).1
    rintro _ v ⟨written, then_⟩
    refine ⟨(within.trans (stepped.widen _)).trans written, by omega, limbs'.set (i + j) _, then_,
      by simpa using length', ?_, ?_⟩
    · intro index above
      rw [Limbs.digit_set_of_ne (by omega)]
      exact clear' index above
    · have stored := Limbs.value_set (show i + j < limbs'.length by omega)
        (BitVec.ofNat 32 (digit a.limbs i * digit b.limbs j + digit limbs' (i + j) + carry))
      have column := Limbs.carry_column (w := 32) (value limbs') (i + j)
        (digit a.limbs i * digit b.limbs j + digit limbs' (i + j) + carry)
      rw [BitVec.toNat_ofNat] at stored
      have expanded : (2 ^ 32) ^ (i + j) * (digit a.limbs i * digit b.limbs j + digit limbs' (i + j) + carry) =
          (2 ^ 32) ^ i * (digit a.limbs i * ((2 ^ 32) ^ j * digit b.limbs j)) +
            (2 ^ 32) ^ (i + j) * digit limbs' (i + j) + (2 ^ 32) ^ (i + j) * carry := by ring
      rw [Limbs.value_take_succ, Nat.mul_add, Nat.mul_add]
      rw [expanded] at column
      rw [← Nat.add_assoc i j 1]
      omega
  · rintro carry t ⟨within, word, limbs', now, length', clear', sum⟩
    rw [Nat.zero_add, value_take_count] at sum
    simp only [wp_get, payload_of_lookup now]
    have raised : ∀ index, i + 1 + b.count ≤ index → i + b.count ≤ index := fun _ above => by omega
    apply wp_ite
    · intro open_
      refine wp_good (adjust_spec within.sound now rfl ?_) ?_
      · simpa [setLimb, Bigint.count] using (within.sound.of_lookup now).1
      rintro _ u ⟨written, then_⟩
      have stored := Limbs.value_set (show i + b.count < limbs'.length by rw [length']; exact room open_)
        (BitVec.ofNat 32 carry)
      rw [clear' _ (Nat.le_refl _), Nat.mul_zero, Nat.add_zero, BitVec.toNat_ofNat, Nat.mod_eq_of_lt word] at stored
      refine ⟨within.trans written, ⟨limbs'.set (i + b.count) _, then_, by simpa using length', stored.trans sum, ?_⟩⟩
      intro index above
      rw [Limbs.digit_set_of_ne (by omega)]
      exact clear' index (raised index above)
    · intro _
      apply wp_ite
      · intro _
        exact ⟨.inr (.inr (.inl rfl)), within⟩
      · intro none
        rw [not_not] at none
        rw [none, Nat.mul_zero, Nat.add_zero] at sum
        exact ⟨within, ⟨limbs', now, length', sum, fun index above => clear' index (raised index above)⟩⟩

theorem digit_replicate_zero (count index : Nat) : digit (List.replicate count 0#32) index = 0 := by
  unfold digit
  rw [List.getD_eq_getElem?_getD, List.getElem?_replicate]
  split <;> rfl

theorem multiplyLimbs_spec {left right temporary : Handle} {x y : Int} (sound : Sound s)
    (first : Holds s left x) (second : Holds s right y) (target : Holds s temporary 0)
    (nonzero : x ≠ 0) (nonzero' : y ≠ 0) :
    wp (multiplyLimbs left right temporary)
      (fun _ t => Within [temporary] s t ∧ Holds t temporary (x * y))
      (fun stop t => Exhausted stop ∧ Within [temporary] s t) s := by
  obtain ⟨a, found, canonical, denotes⟩ := first
  obtain ⟨b, found', canonical', denotes'⟩ := second
  obtain ⟨c, found'', canonical'', _⟩ := target
  have some : a.count ≠ 0 := fun empty => nonzero (denotes.symm.trans (canonical.count_eq_zero.mp empty))
  have some' : b.count ≠ 0 := fun empty => nonzero' (denotes'.symm.trans (canonical'.count_eq_zero.mp empty))
  unfold multiplyLimbs
  simp only [wp_bind, wp_get, payload_of_lookup found, payload_of_lookup found']
  apply wp_ite
  · intro _
    exact ⟨.inr (.inr (.inl rfl)), .refl sound _⟩
  intro _
  apply wp_ite
  · intro _
    exact ⟨.inr (.inr (.inl rfl)), .refl sound _⟩
  intro allowed
  set count := if a.count + b.count ≤ s.maxLimbs then a.count + b.count else a.count + b.count - 1 with counted
  have counts : count = a.count + b.count ∨ count = a.count + b.count - 1 ∧ s.maxLimbs ≤ count := by
    rw [counted]
    split <;> omega
  simp only [wp_bind, wp_modify]
  refine wp_mono (reserve_spec sound found'' canonical'' _) ?_ (fun _ _ stopped => ⟨stopped.1, stopped.2.widen _⟩)
  rintro _ t ⟨reserved, capacity, enough, _, grown⟩
  have admitted : capacity ≤ s.maxLimbs := reserved.maxLimbs ▸ (reserved.sound.of_lookup grown).2
  refine wp_good (adjust_spec reserved.sound grown rfl (by simpa [Bigint.count] using enough)) ?_
  rintro _ u ⟨zeroed, now⟩
  set sign : Int := if a.sign = b.sign then 1 else -1 with signed
  refine wp_good (wp_countUp (fun i _ v => Within [temporary] s v ∧
    Rows temporary count capacity sign (value (a.limbs.take i) * value b.limbs) (i + b.count) v)
    a.count 0 () u ⟨reserved.trans zeroed, ⟨_, now, List.length_replicate,
      by rw [Limbs.value_replicate_zero]; simp, fun _ _ => digit_replicate_zero _ _⟩⟩ ?_) ?_
  · rintro i - v - below ⟨within, rows⟩
    refine wp_mono (multiplyRow_spec within.sound rows (by omega) (by omega)) ?_
      (fun _ _ stopped => ⟨stopped.1, within.trans stopped.2⟩)
    rintro _ w ⟨row, rows'⟩
    refine ⟨within.trans row, ?_⟩
    rwa [Limbs.value_take_succ, Nat.add_mul, Nat.mul_assoc]
  · rintro _ v ⟨within, rows⟩
    obtain ⟨limbs, stored, _, product, _⟩ := rows.stored
    have signs : sign = 1 ∨ sign = -1 := by
      rw [signed]
      split
      · exact .inl rfl
      · exact .inr rfl
    obtain ⟨normalized, result⟩ := normalize_spec within.sound stored (fun _ => signs)
    refine ⟨within.trans normalized, ?_⟩
    have equal : toInt ⟨limbs, capacity, sign⟩ = x * y := by
      rw [Nat.zero_add, value_take_count] at product
      simp only [toInt, product]
      rw [← denotes, ← denotes', toInt, toInt, signed]
      have left_sign := sign_cases nonzero
      have right_sign := sign_cases nonzero'
      rw [← denotes, ← canonical.sign_eq] at left_sign
      rw [← denotes', ← canonical'.sign_eq] at right_sign
      push_cast
      rcases left_sign with plus | minus <;> rcases right_sign with plus' | minus' <;>
        simp [*]
    rwa [equal] at result

end PhyNspire.Exact.Product

/-!
The public integer operations against integer arithmetic.

Between public calls every registered value is in canonical form, so a context is seen as
a partial map from handles to integers. An operation that returns has changed that map at
its outputs only; one that stops has changed nothing a caller can see.
-/

namespace PhyNspire.Exact.Arithmetic
open Platform Lib Lib.Stateful Lib.Registry Context Accounting Integer Magnitude Carry Product Division

variable {s : ExactContext}

/-- The state between public calls: the books are kept and every value is canonical. -/
structure Valid (s : ExactContext) : Prop extends Sound s where
  canonical : ∀ handle b, s.lookup handle = some b → Canonical b

/-- The integers that the live handles denote. -/
def view (s : ExactContext) (handle : Handle) : Option Int := (s.lookup handle).map toInt

variable {n : Int}

theorem Valid.holds (valid : Valid s) {handle : Handle} (seen : view s handle = some n) :
    Holds s handle n := by
  obtain ⟨b, found, denotes⟩ := Option.map_eq_some_iff.mp seen
  exact ⟨b, found, valid.canonical handle b found, denotes⟩

theorem Holds.view {handle : Handle} (holds : Holds s handle n) :
    Arithmetic.view s handle = some n := by
  obtain ⟨b, found, _, denotes⟩ := holds
  rw [Arithmetic.view, found, Option.map_some, denotes]

theorem view_eq_none {handle : Handle} : view s handle = none ↔ s.lookup handle = none := Option.map_eq_none_iff

variable {t : ExactContext}

theorem Within.view {opened : List Handle} (within : Within opened s t) {handle : Handle}
    (outside : handle ∉ opened) : Arithmetic.view t handle = Arithmetic.view s handle := by
  rw [Arithmetic.view, Arithmetic.view, within.others handle outside]

theorem Valid.of_within (valid : Valid s) {opened : List Handle} (within : Within opened s t)
    (filled : ∀ handle ∈ opened, ∀ b, t.lookup handle = some b → Canonical b) : Valid t := by
  refine ⟨within.sound, fun handle b found => ?_⟩
  by_cases here : handle ∈ opened
  · exact filled handle here b found
  · exact valid.canonical handle b ((within.others handle here).symm.trans found)

theorem Valid.unchanged (valid : Valid s) (within : Within [] s t) : Valid t :=
  valid.of_within within (fun _ member => absurd member List.not_mem_nil)

/-- The effect of an operation with one output. -/
structure Writes (s : ExactContext) (out : Handle) (n : Int) (t : ExactContext) : Prop where
  valid : Valid t
  within : Within [out] s t
  result : view t out = some n

theorem Writes.view {out : Handle} (writes : Writes s out n t) (handle : Handle) :
    Arithmetic.view t handle = if handle = out then some n else Arithmetic.view s handle := by
  by_cases same : handle = out
  · rw [if_pos same, same, writes.result]
  · rw [if_neg same, Within.view writes.within (by simpa using same)]

theorem Writes.of_holds (valid : Valid s) {out : Handle} (within : Within [out] s t)
    (holds : Holds t out n) : Writes s out n t := by
  refine ⟨valid.of_within within ?_, within, Holds.view holds⟩
  intro handle member b found
  obtain ⟨c, found', canonical, _⟩ := holds
  rw [List.mem_singleton.mp member, found'] at found
  cases found
  exact canonical

theorem swap_within {left right : Handle} {a b : Bigint} (sound : Sound s) (first : s.lookup left = some a)
    (second : s.lookup right = some b) :
    Within [left, right] s (bigintSwapPayload left right s) ∧
      (bigintSwapPayload left right s).lookup left = some b ∧
      (bigintSwapPayload left right s).lookup right = some a := by
  unfold bigintSwapPayload
  rw [payload_of_lookup first, payload_of_lookup second]
  by_cases same : left = right
  · subst same
    rw [first] at second
    cases second
    have still : s.store left a = s := by
      unfold ExactContext.store
      rw [update_find sound.distinct first]
    rw [still, still]
    exact ⟨.refl sound _, first, first⟩
  · have second' : find right (update left b s.values) = some b :=
      (find_update_of_ne (Ne.symm same) b s.values).trans second
    have weights := weight_update limbBytes sound.distinct first b
    have distinct' : (keys (update left b s.values)).Nodup := by simpa only [keys_update] using sound.distinct
    have weights' := weight_update limbBytes distinct' second' a
    have total : weight limbBytes (update right a (update left b s.values)) = weight limbBytes s.values := by
      omega
    refine ⟨⟨⟨⟨?_, ?_, ?_, sound.affordable, sound.patient, ?_, sound.ceiling⟩, rfl, ?_⟩, ?_⟩, ?_, ?_⟩
    · simpa only [ExactContext.store, keys_update] using sound.distinct
    · simpa only [ExactContext.store, length_update] using sound.counted
    · simpa only [ExactContext.store, total] using sound.charged
    · have bounded : ∀ entry ∈ s.values, entry.2.count ≤ entry.2.capacity ∧ entry.2.capacity ≤ s.maxLimbs :=
        sound.bounded
      have bound_a := sound.of_lookup first
      have bound_b := sound.of_lookup second
      intro entry member
      simp only [ExactContext.store, Registry.update, List.mem_map, exists_exists_and_eq_and] at member
      obtain ⟨original, member, rfl⟩ := member
      by_cases here : original.1 = left
      · rw [if_pos here]
        rw [if_neg same]
        exact bound_b
      · rw [if_neg here]
        by_cases there : original.1 = right
        · rw [if_pos there]
          exact bound_a
        · rw [if_neg there]
          exact bounded original member
    · simp only [ExactContext.store, total]
    · intro handle outside
      simp only [List.mem_cons, List.not_mem_nil, or_false, not_or] at outside
      exact (find_update_of_ne outside.2 _ _).trans (find_update_of_ne outside.1 _ _)
    · exact (find_update_of_ne same _ _).trans (find_update_self first)
    · exact find_update_self second'

theorem abort_close {temporary : Handle} (absent : s.lookup temporary = none)
    (within : Within [temporary] s t) : Within [] s (exactOperationEnd (bigintDestroy temporary t)) :=
  (within.close absent).trans (exactOperationEnd_within (within.close absent).sound)

def Committed (out temporary : Handle) (n : Int) (u t : ExactContext) : Prop :=
  ∃ v, Within [temporary] u v ∧ Holds v temporary n ∧ t = bigintSwapPayload out temporary v

theorem commit_close {out temporary : Handle} {z : Int} {u : ExactContext} (valid : Valid s)
    (absent : s.lookup temporary = none) (opened : Within [temporary] s u) (live : view s out = some z)
    (committed : Committed out temporary n u t) :
    Writes s out n (exactOperationEnd (bigintDestroy temporary t)) := by
  obtain ⟨v, within, holds, rfl⟩ := committed
  obtain ⟨b, found, canonical, denotes⟩ := holds
  obtain ⟨c, live', _, _⟩ := valid.holds live
  have distinct : out ≠ temporary := by
    rintro rfl
    rw [absent] at live'
    cases live'
  have kept := opened.trans within
  have found' : v.lookup out = some c := (kept.others out (by simpa using distinct)).trans live'
  obtain ⟨swapped, now, _⟩ := swap_within within.sound found' found
  have all : Within [temporary, out] s (bigintSwapPayload out temporary v) :=
    (kept.mono (by simp)).trans (swapped.mono (by simp))
  have closed := all.close absent
  have ended := exactOperationEnd_within closed.sound
  have result : (exactOperationEnd (bigintDestroy temporary (bigintSwapPayload out temporary v))).lookup out =
      some b :=
    ((bigintDestroy_within all.sound temporary).others out (by simpa using distinct)).trans now
  exact .of_holds valid (closed.trans (ended.widen _)) ⟨b, result, canonical, denotes⟩

theorem wp_publish {body : Handle → ExactM Unit} {out : Handle} {z : Int} {r : ExactContext} (valid : Valid s)
    (live : view s out = some z) (begun : Within [] s r)
    (inner : ∀ temporary u, s.lookup temporary = none → Within [temporary] s u → Holds u temporary 0 →
      wp (body temporary) (fun _ t => Committed out temporary n u t)
        (fun stop t => Exhausted stop ∧ Within [temporary] u t) u) :
    wp (withTemporary body) (fun _ t => Writes s out n (exactOperationEnd t))
      (fun stop t => Exhausted stop ∧ Within [] s (exactOperationEnd t)) r := by
  refine wp_withTemporary begun.sound fun temporary u absent opened empty => ?_
  have absent' : s.lookup temporary = none := by rw [← begun.lookup_eq, absent]
  have opened' := (begun.widen _).trans opened
  refine wp_mono (inner temporary u absent' opened' ⟨_, empty, canonical_empty _, by simp [toInt, Bigint.empty]⟩) ?_ ?_
  · rintro _ t committed
    exact commit_close valid absent' opened' live committed
  · rintro stop t ⟨exhausted, within⟩
    exact ⟨exhausted, abort_close absent' (opened'.trans within)⟩

theorem wp_commit {body : Handle → ExactM Unit} {out : Handle} {z : Int} (valid : Valid s) (live : view s out = some z)
    (inner : ∀ temporary u, s.lookup temporary = none → Within [temporary] s u → Holds u temporary 0 →
      wp (body temporary) (fun _ t => Committed out temporary n u t)
        (fun stop t => Exhausted stop ∧ Within [temporary] u t) u) :
    wp (operation (withTemporary body)) (fun _ t => Writes s out n t)
      (fun stop t => Exhausted stop ∧ Within [] s t) s := by
  exact wp_operation valid.toSound fun r begun => wp_publish valid live begun inner

section
variable {left right out source destination handle : Handle} {x y z : Int}

theorem Valid.shallow (valid : Valid s) {handle : Handle} {n : Int} (seen : view s handle = some n) :
    s.bigintShallowValid handle = true := (valid.holds seen).shallowValid valid.toSound

theorem Valid.compatible2 (valid : Valid s) (first : view s left = some x) (second : view s right = some y) :
    Integer.compatible2 s left right = true := by
  simp only [Integer.compatible2, valid.shallow first, valid.shallow second, Bool.and_self]

theorem Valid.compatible3 (valid : Valid s) (first : view s left = some x) (second : view s right = some y)
    (third : view s out = some z) : Integer.compatible3 s left right out = true := by
  simp only [Integer.compatible3, valid.compatible2 first second, valid.shallow third, Bool.and_self]

theorem Valid.inside (valid : Valid s) {temporary : Handle} {u : ExactContext} (absent : s.lookup temporary = none)
    (opened : Within [temporary] s u) (seen : view s handle = some x) :
    Holds u handle x ∧ handle ≠ temporary := by
  have holds := valid.holds seen
  have distinct := holds.ne absent
  exact ⟨holds.frame opened (by simpa using distinct), distinct⟩

theorem magnitudeI64_spec (integer : Int64) :
    magnitudeI64 integer = integer.toInt.natAbs ∧ magnitudeI64 integer < 2 ^ 64 := by
  have raw : integer.toInt = integer.toUInt64.toBitVec.toInt := rfl
  have word := integer.toUInt64.toNat_lt
  have signed := BitVec.toInt_eq_toNat_cond integer.toUInt64.toBitVec
  rw [← raw, UInt64.toNat_toBitVec] at signed
  unfold magnitudeI64
  by_cases negative : integer < 0
  · have less : integer.toInt < 0 := Int64.lt_iff_toInt_lt.mp negative
    rw [if_pos negative, UInt64.toNat_add, UInt64.toNat_not]
    simp only [UInt64.toNat_one, UInt64.size]
    split at signed <;> omega
  · have least : ¬integer.toInt < 0 := fun less => negative (Int64.lt_iff_toInt_lt.mpr less)
    rw [if_neg negative]
    split at signed <;> omega

theorem bigintSetI64_spec (valid : Valid s) (target : view s out = some z) (integer : Int64) :
    wp (bigintSetI64 out integer) (fun _ t => Writes s out integer.toInt t)
      (fun stop t => Exhausted stop ∧ Within [] s t) s := by
  obtain ⟨magnitude, word⟩ := magnitudeI64_spec integer
  unfold bigintSetI64
  simp only [wp_bind, wp_get, valid.shallow target, Bool.not_true, Bool.false_eq_true, ↓reduceIte]
  refine wp_commit valid target fun temporary u absent opened empty => ?_
  simp only [wp_bind, wp_modify]
  refine wp_mono (bigintAssignU64_spec opened.sound empty word ?_) ?_
    (fun _ _ stopped => ⟨stopped.1, stopped.2.widen _⟩)
  · split
    · exact .inr (.inr rfl)
    · split
      · exact .inr (.inl rfl)
      · exact .inl rfl
  rintro _ t ⟨assigned, now⟩
  refine ⟨t, assigned, ?_, rfl⟩
  have less : integer < 0 ↔ integer.toInt < 0 := Int64.lt_iff_toInt_lt
  have more : 0 < integer ↔ 0 < integer.toInt := Int64.lt_iff_toInt_lt
  rw [magnitude] at now
  rcases lt_trichotomy integer.toInt 0 with negative | zero | positive
  · rw [if_pos (less.mpr negative), if_neg (by decide)] at now
    rwa [show integer.toInt = -1 * integer.toInt.natAbs by omega]
  · rw [zero] at now ⊢
    simpa using now
  · rw [if_neg (less.not.mpr (by omega)), if_pos (more.mpr positive), if_neg (by decide)] at now
    rwa [show integer.toInt = 1 * integer.toInt.natAbs by omega]

theorem bigintCopy_spec (valid : Valid s) (first : view s source = some x) (target : view s destination = some z) :
    wp (bigintCopy source destination) (fun _ t => Writes s destination x t)
      (fun stop t => Exhausted stop ∧ Within [] s t) s := by
  unfold bigintCopy
  simp only [wp_bind, wp_get, valid.compatible2 first target, Bool.not_true, Bool.false_eq_true, ↓reduceIte]
  by_cases same : source = destination
  · subst same
    simp only [↓reduceIte]
    refine wp_operation valid.toSound fun u begun => ?_
    have ended := begun.trans (exactOperationEnd_within begun.sound)
    exact ⟨valid.unchanged ended, ended.widen _, by rw [Within.view ended List.not_mem_nil, first]⟩
  · simp only [if_neg same]
    refine wp_commit valid target fun temporary u absent opened empty => ?_
    obtain ⟨first', distinct⟩ := valid.inside absent opened first
    simp only [wp_bind, wp_modify]
    refine wp_mono (copyPayload_spec opened.sound first' empty distinct false) ?_
      (fun _ _ stopped => ⟨stopped.1, stopped.2.widen _⟩)
    rintro _ t ⟨copied, now⟩
    exact ⟨t, copied, now, rfl⟩

theorem bigintNegate_spec (valid : Valid s) (first : view s source = some x) (target : view s out = some z) :
    wp (bigintNegate source out) (fun _ t => Writes s out (-x) t)
      (fun stop t => Exhausted stop ∧ Within [] s t) s := by
  unfold bigintNegate
  simp only [wp_bind, wp_get, valid.compatible2 first target, Bool.not_true, Bool.false_eq_true, ↓reduceIte]
  refine wp_commit valid target fun temporary u absent opened empty => ?_
  obtain ⟨first', distinct⟩ := valid.inside absent opened first
  simp only [wp_bind, wp_modify]
  refine wp_mono (copyPayload_spec opened.sound first' empty distinct false) ?_
    (fun _ _ stopped => ⟨stopped.1, stopped.2.widen _⟩)
  rintro _ t ⟨copied, now⟩
  refine wp_good (negate_spec copied.sound now) ?_
  rintro _ v ⟨signed, then_⟩
  exact ⟨v, copied.trans signed, then_, rfl⟩

theorem bigintAdd_spec (valid : Valid s) (first : view s left = some x) (second : view s right = some y)
    (target : view s out = some z) :
    wp (bigintAdd left right out) (fun _ t => Writes s out (x + y) t)
      (fun stop t => Exhausted stop ∧ Within [] s t) s := by
  unfold bigintAdd
  simp only [wp_bind, wp_get, valid.compatible3 first second target, Bool.not_true, Bool.false_eq_true, ↓reduceIte]
  refine wp_commit valid target fun temporary u absent opened empty => ?_
  obtain ⟨first', distinct⟩ := valid.inside absent opened first
  obtain ⟨second', distinct'⟩ := valid.inside absent opened second
  obtain ⟨canonical, denotes⟩ := second'.payload
  simp only [wp_bind, wp_get, wp_modify, canonical.sign_eq, denotes]
  refine wp_good (addSigned_spec opened.sound first' second' empty distinct distinct' sign_cases) ?_
  rintro _ t ⟨added, now⟩
  refine ⟨t, added, ?_, rfl⟩
  rwa [Int.sign_mul_natAbs] at now

theorem bigintSubtract_spec (valid : Valid s) (first : view s left = some x) (second : view s right = some y)
    (target : view s out = some z) :
    wp (bigintSubtract left right out) (fun _ t => Writes s out (x - y) t)
      (fun stop t => Exhausted stop ∧ Within [] s t) s := by
  unfold bigintSubtract
  simp only [wp_bind, wp_get, valid.compatible3 first second target, Bool.not_true, Bool.false_eq_true, ↓reduceIte]
  refine wp_commit valid target fun temporary u absent opened empty => ?_
  obtain ⟨first', distinct⟩ := valid.inside absent opened first
  obtain ⟨second', distinct'⟩ := valid.inside absent opened second
  obtain ⟨canonical, denotes⟩ := second'.payload
  simp only [wp_bind, wp_get, wp_modify, canonical.sign_eq, denotes]
  have signed : y ≠ 0 → -y.sign = 1 ∨ -y.sign = -1 := fun nonzero => by
    have := sign_cases nonzero
    omega
  refine wp_good (addSigned_spec opened.sound first' second' empty distinct distinct' signed) ?_
  rintro _ t ⟨subtracted, now⟩
  refine ⟨t, subtracted, ?_, rfl⟩
  rwa [neg_mul, Int.sign_mul_natAbs, ← sub_eq_add_neg] at now

theorem bigintMultiply_spec (valid : Valid s) (first : view s left = some x) (second : view s right = some y)
    (target : view s out = some z) :
    wp (bigintMultiply left right out) (fun _ t => Writes s out (x * y) t)
      (fun stop t => Exhausted stop ∧ Within [] s t) s := by
  unfold bigintMultiply
  simp only [wp_bind, wp_get, valid.compatible3 first second target, Bool.not_true, Bool.false_eq_true, ↓reduceIte]
  refine wp_commit valid target fun temporary u absent opened empty => ?_
  obtain ⟨first', _⟩ := valid.inside absent opened first
  obtain ⟨second', _⟩ := valid.inside absent opened second
  simp only [wp_bind, wp_get, first'.payload.1.count_eq_zero, first'.payload.2,
    second'.payload.1.count_eq_zero, second'.payload.2, ne_eq]
  apply wp_ite
  · rintro ⟨nonzero, nonzero'⟩
    simp only [wp_bind, wp_modify]
    refine wp_good (multiplyLimbs_spec opened.sound first' second' empty nonzero nonzero') ?_
    rintro _ t ⟨multiplied, now⟩
    exact ⟨t, multiplied, now, rfl⟩
  · intro zero
    refine ⟨u, .refl opened.sound _, ?_, rfl⟩
    have product : x * y = 0 := by
      by_cases left_zero : x = 0
      · simp [left_zero]
      · by_cases right_zero : y = 0
        · simp [right_zero]
        · exact absurd ⟨left_zero, right_zero⟩ zero
    rwa [product]

/-- The integer that a decimal string spells, when it is well formed. -/
def decimalValue (text : List UInt8) : Option Int :=
  let (sign, digits) := splitSign text
  if digits = [] ∨ digits.all isDigit = false then none else some (sign * decimalFrom 0 digits)

theorem splitSign_sign (text : List UInt8) : (splitSign text).1 = 1 ∨ (splitSign text).1 = -1 := by
  cases text with
  | nil => exact .inl rfl
  | cons first rest =>
    simp only [splitSign]
    split
    · split
      · exact .inr rfl
      · exact .inl rfl
    · exact .inl rfl

theorem bigintRead_spec (valid : Valid s) (target : view s out = some z) (decimal : List UInt8) :
    wp (bigintRead out decimal)
      (fun _ t => ∃ n, decimalValue (cString decimal) = some n ∧ Writes s out n t)
      (fun stop t => (Exhausted stop ∨ stop = .parse ∧ decimalValue (cString decimal) = none) ∧ Within [] s t) s := by
  unfold bigintRead decimalValue
  have signs := splitSign_sign (cString decimal)
  simp only [wp_bind, wp_get, valid.shallow target, Bool.not_true, Bool.false_eq_true, ↓reduceIte]
  generalize splitSign (cString decimal) = parts at signs ⊢
  obtain ⟨sign, digits⟩ := parts
  refine wp_operation valid.toSound fun r begun => ?_
  have ended := begun.trans (exactOperationEnd_within begun.sound)
  dsimp only
  apply wp_ite
  · intro empty
    exact ⟨.inr ⟨rfl, by rw [if_pos (.inl empty)]⟩, ended⟩
  intro some
  apply wp_ite
  · intro malformed
    exact ⟨.inr ⟨rfl, by rw [if_pos (.inr (by simpa using malformed))]⟩, ended⟩
  intro wellFormed
  have shape : ¬(digits = [] ∨ digits.all isDigit = false) := by
    rintro (empty | malformed)
    · exact some empty
    · exact wellFormed (by rw [malformed]; rfl)
  simp only [if_neg shape]
  refine wp_mono (wp_publish valid target begun (n := sign * decimalFrom 0 digits)
    fun temporary u absent opened empty => ?_) ?_ (fun _ _ stopped => ⟨.inl stopped.1, stopped.2⟩)
  · simp only [wp_bind, wp_modify]
    refine wp_good (readDigits_spec digits opened.sound (n := 0) empty) ?_
    rintro _ t ⟨read, now⟩
    refine wp_good (resign_spec read.sound now (fun _ _ _ => rfl) fun _ => signs) ?_
    rintro _ v ⟨signed, then_⟩
    exact ⟨v, read.trans signed, then_, rfl⟩
  · rintro _ t writes
    exact ⟨_, rfl, writes⟩

end

end PhyNspire.Exact.Arithmetic

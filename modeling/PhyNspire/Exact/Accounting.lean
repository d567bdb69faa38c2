import PhyNspire.Exact.Context
import Mathlib.Algebra.Order.BigOperators.Group.List

/-!
What every step of the exact layer leaves in order, whether it succeeds or stops: the
ledger of charged bytes, the registry of handles and the step budget. Each primitive of
context.c is specified here by what it does to the table of handles.
-/

namespace PhyNspire.Exact.Accounting
open Platform Lib Lib.Stateful Lib.Registry Context

def limbBytes (value : Bigint) : Nat := value.capacity * limbSize

/-- The books of a context, whatever the numeric state of its values. -/
structure Sound (s : ExactContext) : Prop where
  distinct : (keys s.values).Nodup
  counted : s.valueCount = s.values.length
  charged : weight limbBytes s.values ≤ s.bytes
  affordable : s.bytes ≤ s.limits.maxBytes.toNat
  patient : s.steps ≤ s.limits.maxSteps.toNat
  bounded : ∀ entry ∈ s.values, entry.2.count ≤ entry.2.capacity ∧ entry.2.capacity ≤ s.maxLimbs
  ceiling : s.maxLimbs ≤ exactMaxLimbsCeiling.toNat

/-- The books are kept from `s` to `t`: what is charged beside the limbs has not moved. -/
structure Steady (s t : ExactContext) : Prop where
  sound : Sound t
  limits : t.limits = s.limits
  overhead : t.bytes + weight limbBytes s.values = s.bytes + weight limbBytes t.values

variable {s : ExactContext}

theorem Steady.refl (sound : Sound s) : Steady s s := ⟨sound, rfl, rfl⟩

variable {t : ExactContext}

theorem Steady.trans {u : ExactContext} (first : Steady s t) (second : Steady t u) : Steady s u where
  sound := second.sound
  limits := second.limits.trans first.limits
  overhead := by
    have := first.overhead
    have := second.overhead
    omega

theorem Steady.maxLimbs (steady : Steady s t) : t.maxLimbs = s.maxLimbs := by
  unfold ExactContext.maxLimbs
  rw [steady.limits]

/-- The books are kept and only the handles of the list may have changed. -/
structure Within (opened : List Handle) (s t : ExactContext) : Prop extends Steady s t where
  others : ∀ handle, handle ∉ opened → t.lookup handle = s.lookup handle

theorem Within.refl (sound : Sound s) (opened : List Handle) : Within opened s s :=
  ⟨.refl sound, fun _ _ => rfl⟩

variable {opened : List Handle}

theorem Within.trans {u : ExactContext} (first : Within opened s t) (second : Within opened t u) : Within opened s u :=
  ⟨first.toSteady.trans second.toSteady,
    fun handle outside => (second.others handle outside).trans (first.others handle outside)⟩

theorem Within.mono {wider : List Handle} (within : Within opened s t) (included : opened ⊆ wider) : Within wider s t :=
  ⟨within.toSteady, fun handle outside => within.others handle fun member => outside (included member)⟩

theorem Within.lookup_eq (within : Within [] s t) : t.lookup = s.lookup :=
  funext fun handle => within.others handle (List.not_mem_nil)

theorem Within.widen (within : Within [] s t) (opened : List Handle) : Within opened s t :=
  within.mono (List.nil_subset _)

/-- The ways a bounded computation runs out: time, patience, budget or memory. -/
def Exhausted (stop : Status) : Prop :=
  stop = .timeout ∨ stop = .interrupted ∨ stop = .memoryLimit ∨ stop = .outOfMemory

variable {handle : Handle} {value : Bigint}

theorem payload_of_lookup (found : s.lookup handle = some value) : s.payload handle = value := by
  simp only [ExactContext.payload, found, Option.getD_some]

theorem Sound.of_lookup (sound : Sound s) (found : s.lookup handle = some value) :
    value.count ≤ value.capacity ∧ value.capacity ≤ s.maxLimbs :=
  sound.bounded _ (mem_of_find found)

theorem Within.of_ne (steady : Steady s t)
    (others : ∀ other, other ≠ handle → t.lookup other = s.lookup other) : Within [handle] s t :=
  ⟨steady, fun other outside => others other fun same => outside (same ▸ List.mem_singleton_self handle)⟩

theorem store_lookup {s : ExactContext} {handle : Handle} {old : Bigint} (found : s.lookup handle = some old)
    (value : Bigint) : (s.store handle value).lookup handle = some value := find_update_self found

theorem store_within (sound : Sound s) {old : Bigint}
    (found : s.lookup handle = some old) (room : value.capacity = old.capacity)
    (inside : value.count ≤ value.capacity) : Within [handle] s (s.store handle value) := by
  have weights := weight_update limbBytes sound.distinct found value
  have same : weight limbBytes (s.store handle value).values = weight limbBytes s.values := by
    have equal : limbBytes value = limbBytes old := by simp only [limbBytes, room]
    simp only [ExactContext.store]
    omega
  refine .of_ne ⟨⟨?_, ?_, ?_, sound.affordable, sound.patient, ?_, sound.ceiling⟩, rfl, ?_⟩
    (fun _ different => find_update_of_ne different _ _)
  · simpa only [ExactContext.store, keys_update] using sound.distinct
  · simpa only [ExactContext.store, length_update] using sound.counted
  · rw [same]
    exact sound.charged
  · intro entry member
    simp only [ExactContext.store, Registry.update, List.mem_map] at member
    obtain ⟨original, member, rfl⟩ := member
    by_cases here : original.1 = handle
    · simp only [if_pos here]
      exact ⟨inside, room ▸ (sound.of_lookup found).2⟩
    · rw [if_neg here]
      exact sound.bounded original member
  · rw [same]
    rfl

theorem exactStep_spec (sound : Sound s) (amount : Nat) :
    wp (exactStep amount) (fun _ t => Within [] s t) (fun stop t => Exhausted stop ∧ Within [] s t) s := by
  unfold exactStep
  simp only [wp_bind, wp_get]
  apply wp_ite
  · intro _
    exact ⟨.inl rfl, .refl sound _⟩
  · intro within
    have patient : s.steps + amount ≤ s.limits.maxSteps.toNat := by
      have := sound.patient
      omega
    have taken : ∀ polls cancelled, Within [] s
        { s with steps := s.steps + amount, polls := polls, cancelled := cancelled } := fun _ _ =>
      ⟨⟨⟨sound.distinct, sound.counted, sound.charged, sound.affordable, patient, sound.bounded,
        sound.ceiling⟩, rfl, rfl⟩, fun _ _ => rfl⟩
    cases s.cancelled with
    | none => exact taken _ _
    | some cancelled =>
      simp only [wp_bind, wp_set]
      apply wp_ite
      · intro _
        exact ⟨.inr (.inl rfl), taken _ _⟩
      · intro _
        exact taken _ _

theorem checkedBytes_of_le {capacity : Nat} (small : capacity ≤ exactMaxLimbsCeiling.toNat) :
    checkedBytes capacity limbSize = some (capacity * limbSize) := by
  unfold checkedBytes
  rw [if_neg]
  rintro ⟨positive, overflow⟩
  have ceiling : exactMaxLimbsCeiling.toNat = 1048576 := rfl
  have smaller : sizeMax / exactMaxLimbsCeiling.toNat ≤ sizeMax / capacity :=
    Nat.div_le_div_left small (Nat.pos_of_ne_zero positive)
  have quotient : sizeMax / exactMaxLimbsCeiling.toNat = 4095 := rfl
  have element : limbSize = 4 := rfl
  omega

theorem growCapacity_spec {maxLimbs : Nat} (needed : Nat) (admitted : needed ≤ maxLimbs) (turns capacity : Nat)
    (positive : 0 < capacity) (inside : capacity ≤ maxLimbs) (enough : needed ≤ capacity + turns) :
    ∃ grown, growCapacity maxLimbs needed turns capacity = some grown ∧
      needed ≤ grown ∧ capacity ≤ grown ∧ grown ≤ maxLimbs := by
  induction turns generalizing capacity with
  | zero => exact ⟨capacity, by simp only [growCapacity, if_neg (by omega : ¬capacity < needed)],
      by omega, Nat.le_refl _, inside⟩
  | succ turns ih =>
    by_cases short : capacity < needed
    · let doubled := if capacity ≤ maxLimbs / 2 then capacity * 2 else maxLimbs
      have larger : capacity < doubled ∧ doubled ≤ maxLimbs := by
        by_cases half : capacity ≤ maxLimbs / 2
        · simp only [doubled, if_pos half]
          omega
        · simp only [doubled, if_neg half]
          omega
      obtain ⟨grown, run, reached, above, bounded⟩ := ih doubled (by omega) larger.2 (by omega)
      refine ⟨grown, ?_, reached, by omega, bounded⟩
      simp only [growCapacity, if_pos short]
      rw [if_neg (show ¬doubled = capacity by omega)]
      exact run
    · exact ⟨capacity, by simp only [growCapacity, if_neg short], by omega, Nat.le_refl _, inside⟩

theorem bigintReserve_spec (sound : Sound s)
    (found : s.lookup handle = some value) (valid : value.valid s.maxLimbs = true) (needed : Nat) :
    wp (bigintReserve handle needed)
      (fun _ t => Within [handle] s t ∧ ∃ capacity, needed ≤ capacity ∧ value.capacity ≤ capacity ∧
        t.lookup handle = some { value with capacity := capacity })
      (fun stop t => Exhausted stop ∧ Within [] s t) s := by
  have shallow : s.bigintShallowValid handle = true := by
    simpa only [ExactContext.bigintShallowValid, found] using valid
  obtain ⟨inside, admitted⟩ := sound.of_lookup found
  unfold bigintReserve
  simp only [wp_bind, wp_get, shallow, payload_of_lookup found, Bool.not_true, Bool.false_eq_true, ↓reduceIte]
  apply wp_ite
  · intro roomy
    exact ⟨.refl sound _, value.capacity, roomy, Nat.le_refl _, found⟩
  intro small
  apply wp_ite
  · intro _
    exact ⟨.inr (.inr (.inl rfl)), .refl sound _⟩
  intro allowed
  obtain ⟨grown, run, reached, above, bounded⟩ := growCapacity_spec needed (show needed ≤ s.maxLimbs by omega)
    needed (if value.capacity ≠ 0 then value.capacity else 1)
    (by split <;> omega) (by split <;> omega) (by omega)
  have roomier : value.capacity ≤ grown := by
    by_cases zero : value.capacity = 0
    · omega
    · rwa [if_pos zero] at above
  rw [run]
  simp only [checkedBytes_of_le (bounded.trans sound.ceiling), charge, wp_bind, wp_get]
  apply wp_ite
  · intro _
    simp only [wp_pure, Bool.false_eq_true, ↓reduceIte, wp_throw]
    exact ⟨.inr (.inr (.inl rfl)), .refl sound _⟩
  intro affordable
  have within : s.bytes + grown * limbSize ≤ s.limits.maxBytes.toNat := by
    have := sound.affordable
    omega
  simp only [wp_bind, wp_set, wp_pure, ↓reduceIte, allocate, wp_get, Heap.alloc]
  apply wp_ite
  · intro _
    have weights := weight_update limbBytes sound.distinct found { value with capacity := grown }
    have charged := sound.charged
    have held := le_weight limbBytes sound.distinct found
    simp only [limbBytes] at weights held
    -- The old block is given back only after the new one has been paid for.
    have finish : ∀ bytes heap, bytes = s.bytes + grown * limbSize - value.capacity * limbSize →
        Within [handle] s
          ({ s with bytes := bytes, heap := heap }.store handle { value with capacity := grown }) ∧
          ∃ capacity, needed ≤ capacity ∧ value.capacity ≤ capacity ∧
            ({ s with bytes := bytes, heap := heap }.store handle { value with capacity := grown }).lookup handle =
              some { value with capacity := capacity } := by
      intro bytes heap paid
      refine ⟨.of_ne ⟨⟨?_, ?_, ?_, ?_, sound.patient, ?_, sound.ceiling⟩, rfl, ?_⟩
        (fun _ different => find_update_of_ne different _ _), grown, reached, roomier,
        @store_lookup { s with bytes := bytes, heap := heap } _ _ found _⟩
      · simpa only [ExactContext.store, keys_update] using sound.distinct
      · simpa only [ExactContext.store, length_update] using sound.counted
      · simp only [ExactContext.store]
        omega
      · simp only [ExactContext.store]
        omega
      · intro entry member
        simp only [ExactContext.store, Registry.update, List.mem_map] at member
        obtain ⟨original, member, rfl⟩ := member
        by_cases here : original.1 = handle
        · simp only [if_pos here]
          exact ⟨inside.trans roomier, bounded⟩
        · rw [if_neg here]
          exact sound.bounded original member
      · simp only [ExactContext.store]
        omega
    simp only [wp_set]
    apply wp_ite
    · intro _
      simp only [ExactContext.discharge]
      exact finish _ _ (by dsimp only; omega)
    · intro zero
      simp only [wp_modify]
      exact finish _ _ (by simp only [not_not] at zero; simp [zero])
  · intro _
    simp only [wp_bind, wp_set, wp_throw, ExactContext.discharge]
    refine ⟨.inr (.inr (.inr rfl)), ⟨⟨sound.distinct, sound.counted, ?_, ?_, sound.patient, sound.bounded,
      sound.ceiling⟩, rfl, ?_⟩, fun _ _ => rfl⟩
    · have := sound.charged
      simp only
      omega
    · have := sound.affordable
      simp only
      omega
    · simp only
      omega

theorem bigintDestroy_lookup (handle : Handle) : (bigintDestroy handle s).lookup handle = none := by
  unfold bigintDestroy
  cases found : s.lookup handle with
  | none => exact found
  | some value => exact find_remove_self _ _

theorem bigintDestroy_within (sound : Sound s) (handle : Handle) :
    Within [handle] s (bigintDestroy handle s) := by
  cases found : s.lookup handle with
  | none =>
    simp only [bigintDestroy, found]
    exact .refl sound _
  | some value =>
    obtain ⟨weights, lengths⟩ := weight_remove limbBytes sound.distinct found
    have charged := sound.charged
    have affordable := sound.affordable
    have counted := sound.counted
    have given : bigintDestroy handle s = { s with
        bytes := s.bytes - limbBytes value
        values := remove handle s.values
        valueCount := s.valueCount - 1 } := by
      simp only [bigintDestroy, found, limbBytes] at weights ⊢
      by_cases zero : value.capacity = 0
      · simp [zero]
      · simp only [if_neg zero, ExactContext.discharge]
        rw [Nat.min_eq_left (by omega)]
    rw [given]
    refine .of_ne ⟨⟨?_, ?_, ?_, ?_, sound.patient, ?_, sound.ceiling⟩, rfl, ?_⟩
      (fun _ different => find_remove_of_ne different _)
    · simp only [keys_remove]
      exact sound.distinct.filter _
    · simp only
      omega
    · simp only
      omega
    · simp only
      omega
    · intro entry member
      exact sound.bounded entry (List.mem_of_mem_filter member)
    · simp only
      omega

theorem freshAddress_spec (s : ExactContext) {handle : Handle} (here : handle.address = freshAddress s) :
    s.lookup handle = none := by
  refine find_eq_none.mpr fun member => ?_
  have bound := List.single_le_sum (fun _ _ => Nat.zero_le _) _ (List.mem_map_of_mem (f := Handle.address) member)
  unfold freshAddress at here
  omega

theorem bigintInit_spec (sound : Sound s) (absent : s.lookup handle = none) :
    Within [handle] s (bigintInit handle s) ∧ (bigintInit handle s).lookup handle = some .empty := by
  refine ⟨.of_ne ⟨⟨?_, ?_, ?_, sound.affordable, sound.patient, ?_, sound.ceiling⟩, rfl, ?_⟩ ?_, ?_⟩
  · exact List.nodup_cons.mpr ⟨find_eq_none.mp absent, sound.distinct⟩
  · simp only [bigintInit, List.length_cons, sound.counted]
  · have := sound.charged
    simp only [bigintInit, weight, List.map_cons, List.sum_cons, limbBytes, Bigint.empty] at this ⊢
    omega
  · intro entry member
    rcases List.mem_cons.mp member with rfl | older
    · exact ⟨Nat.le_refl _, Nat.zero_le _⟩
    · exact sound.bounded entry older
  · simp [bigintInit, weight, limbBytes, Bigint.empty]
  · intro other different
    simp only [ExactContext.lookup, bigintInit, find_cons, if_neg different.symm]
  · simp only [ExactContext.lookup, bigintInit, find_cons, ↓reduceIte]

theorem wp_withTemporary {α : Type} {body : Handle → ExactM α} {good : α → ExactContext → Prop}
    {bad : Status → ExactContext → Prop} (sound : Sound s)
    (inner : ∀ temporary u, s.lookup temporary = none → Within [temporary] s u →
      u.lookup temporary = some .empty →
      wp (body temporary) (fun result t => good result (bigintDestroy temporary t))
        (fun stop t => bad stop (bigintDestroy temporary t)) u) :
    wp (withTemporary body) good bad s := by
  unfold withTemporary
  simp only [wp_bind, wp_get, wp_set, wp_ensuring]
  have absent := @freshAddress_spec s (.object (freshAddress s)) rfl
  obtain ⟨opened, empty⟩ := bigintInit_spec sound absent
  exact inner _ _ absent opened empty

theorem Within.close {temporary : Handle}
    (absent : s.lookup temporary = none) (within : Within (temporary :: opened) s t) :
    Within opened s (bigintDestroy temporary t) := by
  have closing := bigintDestroy_within within.sound temporary
  refine ⟨within.toSteady.trans closing.toSteady, fun handle outside => ?_⟩
  by_cases same : handle = temporary
  · rw [same, bigintDestroy_lookup, absent]
  · rw [closing.others handle (by simpa using same), within.others handle (by simp [same, outside])]

theorem wp_operation {α : Type} {body : ExactM α} {good : α → ExactContext → Prop}
    {bad : Status → ExactContext → Prop} (sound : Sound s)
    (inner : ∀ u, Within [] s u →
      wp body (fun result t => good result (exactOperationEnd t))
        (fun stop t => bad stop (exactOperationEnd t)) u) :
    wp (operation body) good bad s := by
  unfold operation
  simp only [wp_bind, wp_modify, wp_ensuring]
  refine inner _ ⟨⟨⟨sound.distinct, sound.counted, sound.charged, sound.affordable, ?_, sound.bounded,
    sound.ceiling⟩, rfl, rfl⟩, fun _ _ => rfl⟩
  have := sound.patient
  simp only [exactOperationBegin]
  split <;> omega

theorem exactOperationEnd_within (sound : Sound s) : Within [] s (exactOperationEnd s) :=
  ⟨⟨⟨sound.distinct, sound.counted, sound.charged, sound.affordable, sound.patient, sound.bounded,
    sound.ceiling⟩, rfl, rfl⟩, fun _ _ => rfl⟩

end PhyNspire.Exact.Accounting

import PhyNspire.Tensor.Symmetric

/-!
Orbits of index tuples. The declared group acts on the left; a component vanishes exactly when an element
with the sign minus one leaves it in place, and in every other orbit an element is known by where it sends a
component, up to its sign.
-/

namespace PhyNspire.Tensor.Symmetric

variable {Ref : Type} {rank dimension : Nat}

theorem tensorFlatOf_concat (indices : List Nat) (last : Nat) :
    tensorFlatOf dimension (indices ++ [last]) = tensorFlatOf dimension indices * dimension + last := by
  unfold tensorFlatOf
  rw [List.foldl_append, List.foldl_cons, List.foldl_nil]

theorem tensorFlatOf_lt (indices : List Nat) (inside : ∀ index ∈ indices, index < dimension) :
    tensorFlatOf dimension indices < dimension ^ indices.length := by
  induction indices using List.reverseRecOn with
  | nil => exact Nat.one_pos
  | append_singleton front last ih =>
    have early := ih fun index member => inside index (List.mem_append_left _ member)
    have final := inside last (List.mem_append_right _ List.mem_cons_self)
    rw [tensorFlatOf_concat, List.length_append, List.length_singleton, pow_succ]
    calc tensorFlatOf dimension front * dimension + last
        < tensorFlatOf dimension front * dimension + dimension := Nat.add_lt_add_left final _
      _ = (tensorFlatOf dimension front + 1) * dimension := (Nat.succ_mul _ _).symm
      _ ≤ dimension ^ front.length * dimension := Nat.mul_le_mul_right _ early

theorem tensorFlatOf_digit (indices : List Nat) (inside : ∀ index ∈ indices, index < dimension) (slot : Nat)
    (here : slot < indices.length) :
    tensorFlatOf dimension indices / dimension ^ (indices.length - 1 - slot) % dimension = indices[slot] := by
  induction indices using List.reverseRecOn generalizing slot with
  | nil => exact absurd here (Nat.not_lt_zero _)
  | append_singleton front last ih =>
    have final := inside last (List.mem_append_right _ List.mem_cons_self)
    have positive : 0 < dimension := Nat.zero_lt_of_lt final
    rw [tensorFlatOf_concat]
    rw [List.length_append, List.length_singleton] at here ⊢
    obtain early | rfl := Nat.lt_succ_iff_lt_or_eq.mp here
    · have exponent : front.length + 1 - 1 - slot = front.length - 1 - slot + 1 := by omega
      have quotient : (tensorFlatOf dimension front * dimension + last) / dimension = tensorFlatOf dimension front := by
        rw [mul_comm, Nat.mul_add_div positive, Nat.div_eq_of_lt final, add_zero]
      rw [exponent, pow_succ', ← Nat.div_div_eq_div_mul, quotient, List.getElem_append_left early]
      exact ih (fun index member => inside index (List.mem_append_left _ member)) slot early
    · have exponent : front.length + 1 - 1 - front.length = 0 := by omega
      rw [exponent, pow_zero, Nat.div_one, Nat.mul_add_mod', Nat.mod_eq_of_lt final,
        List.getElem_concat_length rfl]

theorem indices_inside (indices : Index rank dimension) :
    ∀ index ∈ List.ofFn fun slot => (indices slot).val, index < dimension := by
  intro index member
  obtain ⟨slot, rfl⟩ := List.mem_ofFn.mp member
  exact (indices slot).isLt

theorem flatOf_lt (indices : Index rank dimension) : flatOf indices < dimension ^ rank := by
  have bound := tensorFlatOf_lt _ (indices_inside indices)
  rwa [List.length_ofFn] at bound

theorem flatOf_digit (indices : Index rank dimension) (slot : Fin rank) :
    flatOf indices / dimension ^ (rank - 1 - slot.val) % dimension = (indices slot).val := by
  have here : slot.val < (List.ofFn fun slot => (indices slot).val).length := List.length_ofFn ▸ slot.isLt
  have digit := tensorFlatOf_digit _ (indices_inside indices) slot.val here
  rw [List.getElem_ofFn] at digit
  simp only [List.length_ofFn, Fin.eta] at digit
  exact digit

theorem flatOf_injective : Function.Injective (flatOf : Index rank dimension → Nat) := by
  intro first second same
  funext slot
  apply Fin.ext
  rw [← flatOf_digit, ← flatOf_digit, same]

theorem indicesOf_flatOf [NeZero dimension] (indices : Index rank dimension) : indicesOf (flatOf indices) = indices :=
  funext fun slot => Fin.ext (flatOf_digit indices slot)

theorem mem_flats [NeZero dimension] (indices : Index rank dimension) : indices ∈ flats rank dimension :=
  List.mem_map.mpr ⟨flatOf indices, List.mem_range.mpr (flatOf_lt indices), indicesOf_flatOf indices⟩

theorem checkIndices_val (indices : Index rank dimension) :
    checkIndices dimension (fun slot => (indices slot).val) = some indices :=
  dif_pos fun slot => (indices slot).isLt

@[simp] theorem permute_one (indices : Index rank dimension) : permute 1 indices = indices := rfl

theorem permute_mul (x y : SlotPerm rank) (indices : Index rank dimension) :
    permute (x * y) indices = permute x (permute y indices) := rfl

theorem permute_congr {x y : SlotPerm rank} (same : x.1 = y.1) (indices : Index rank dimension) :
    permute x indices = permute y indices := by
  unfold permute
  rw [same]

@[simp] theorem permute_inv_permute (x : SlotPerm rank) (indices : Index rank dimension) :
    permute x⁻¹ (permute x indices) = indices := by
  rw [← permute_mul, inv_mul_cancel, permute_one]

/-- An element with the sign minus one leaves the component in place. -/
def Forced (declared : Set (SlotPerm rank)) (indices : Index rank dimension) : Prop :=
  ∃ x ∈ Subgroup.closure declared, permute x indices = indices ∧ x.2 = -1

variable {declared : Set (SlotPerm rank)} {x y : SlotPerm rank} {indices target : Index rank dimension}

theorem Forced.permute (forced : Forced declared indices) (inside : x ∈ Subgroup.closure declared) :
    Forced declared (permute x indices) := by
  obtain ⟨y, member, fixed, minus⟩ := forced
  refine ⟨x * y * x⁻¹, mul_mem (mul_mem inside member) (inv_mem inside), ?_, ?_⟩
  · rw [permute_mul, permute_inv_permute, permute_mul, fixed]
  · rw [Prod.snd_mul, Prod.snd_mul, minus, Prod.snd_inv, mul_right_comm, mul_inv_cancel, one_mul]

theorem forced_permute_iff (inside : x ∈ Subgroup.closure declared) :
    Forced declared (permute x indices) ↔ Forced declared indices := by
  refine ⟨fun forced => ?_, fun forced => forced.permute inside⟩
  have back := forced.permute (inv_mem inside)
  rwa [permute_inv_permute] at back

theorem sign_eq_of_permute_eq (free : ¬Forced declared indices) (first : x ∈ Subgroup.closure declared)
    (second : y ∈ Subgroup.closure declared) (same : permute x indices = permute y indices) : x.2 = y.2 := by
  by_contra differ
  apply free
  refine ⟨y⁻¹ * x, mul_mem (inv_mem second) first, ?_, ?_⟩
  · rw [permute_mul, same, permute_inv_permute]
  · rw [Prod.snd_mul, Prod.snd_inv]
    obtain plus | minus := Int.units_eq_one_or x.2 <;> obtain plus' | minus' := Int.units_eq_one_or y.2 <;> simp_all

/-- The tuples that a loop over the group writes. -/
def InOrbit (group : SlotGroup rank) (indices target : Index rank dimension) : Prop :=
  ∃ entry ∈ group.entries, permute entry indices = target

variable {group : SlotGroup rank}

theorem inOrbit_iff (generates : Generates declared group) :
    InOrbit group indices target ↔ ∃ x ∈ Subgroup.closure declared, permute x indices = target := by
  constructor
  · rintro ⟨entry, member, sends⟩
    exact ⟨entry, generates.sound.inside entry member, sends⟩
  · rintro ⟨x, inside, sends⟩
    obtain ⟨entry, member, same, _⟩ := generates.covers x inside
    exact ⟨entry, member, (permute_congr same indices).trans sends⟩

theorem inOrbit_self (generates : Generates declared group) : InOrbit group indices indices :=
  (inOrbit_iff generates).mpr ⟨1, one_mem _, permute_one indices⟩

theorem inOrbit_permute (generates : Generates declared group) (inside : x ∈ Subgroup.closure declared) :
    InOrbit group indices (permute x target) ↔ InOrbit group indices target := by
  rw [inOrbit_iff generates, inOrbit_iff generates]
  constructor
  · rintro ⟨y, member, sends⟩
    refine ⟨x⁻¹ * y, mul_mem (inv_mem inside) member, ?_⟩
    rw [permute_mul, sends, permute_inv_permute]
  · rintro ⟨y, member, rfl⟩
    exact ⟨x * y, mul_mem inside member, rfl⟩

theorem forced_of_inOrbit (generates : Generates declared group) (orbit : InOrbit group indices target)
    (forced : Forced declared target) : Forced declared indices := by
  obtain ⟨x, inside, rfl⟩ := (inOrbit_iff generates).mp orbit
  exact (forced_permute_iff inside).mp forced

theorem canonicalStep_foldl (indices : Index rank dimension) (entries : List (SlotPerm rank)) (found : Canonical rank dimension) :
    (entries.foldl (canonicalStep indices) found).forcedZero = true ↔
      found.forcedZero = true ∨ ∃ entry ∈ entries, permute entry indices = indices ∧ entry.2 = -1 := by
  induction entries generalizing found with
  | nil => simp
  | cons entry rest ih =>
    have step : (canonicalStep indices found entry).forcedZero =
        (found.forcedZero || decide (permute entry indices = indices ∧ entry.2 = -1)) := by
      unfold canonicalStep
      simp only [flatOf_injective.eq_iff]
      split_ifs <;> rfl
    rw [List.foldl_cons, ih, step, Bool.or_eq_true, decide_eq_true_iff, or_assoc, List.exists_mem_cons_iff]

theorem canonicalStep_unit (indices : Index rank dimension) (entries : List (SlotPerm rank)) (found : Canonical rank dimension)
    (unit : found.bestSign ≠ 0) : (entries.foldl (canonicalStep indices) found).bestSign ≠ 0 := by
  induction entries generalizing found with
  | nil => exact unit
  | cons entry rest ih =>
    refine ih _ ?_
    unfold canonicalStep
    dsimp only
    split_ifs
    · exact Units.ne_zero entry.2
    · exact unit

theorem canonicalFlat_zero_iff {tensor : SymmetricTensor Ref rank dimension} (generates : Generates declared tensor.group) :
    (canonicalFlat tensor indices).2 = 0 ↔ Forced declared indices := by
  have reported : (canonicalFlat tensor indices).2 = 0 ↔ tensor.group.identicallyZero = true ∨
      ∃ entry ∈ tensor.group.entries, permute entry indices = indices ∧ entry.2 = -1 := by
    have unit := canonicalStep_unit indices tensor.group.entries ⟨indices, 1, tensor.group.identicallyZero⟩ one_ne_zero
    rw [← canonicalStep_foldl indices tensor.group.entries ⟨indices, 1, tensor.group.identicallyZero⟩]
    unfold canonicalFlat
    dsimp only
    split_ifs with zero
    · exact ⟨fun _ => zero, fun _ => rfl⟩
    · exact ⟨fun sign => absurd sign unit, fun forced => absurd forced zero⟩
  rw [reported]
  constructor
  · rintro (zero | ⟨entry, member, fixed, minus⟩)
    · exact ⟨(1, -1), generates.sound.zero zero, rfl, rfl⟩
    · exact ⟨entry, generates.sound.inside entry member, fixed, minus⟩
  · rintro ⟨x, inside, fixed, minus⟩
    obtain ⟨entry, member, same, sign⟩ := generates.covers x inside
    by_cases equal : entry.2 = x.2
    · exact .inr ⟨entry, member, (permute_congr same indices).trans fixed, equal.trans minus⟩
    · exact .inl (sign equal)

theorem emptySign_eq {tensor : SymmetricTensor Ref rank dimension} (generates : Generates declared tensor.group) :
    (Forced declared indices → emptySign tensor indices = 0) ∧ (¬Forced declared indices → emptySign tensor indices = 1) :=
  ⟨fun forced => if_pos ((canonicalFlat_zero_iff generates).mpr forced),
    fun free => if_neg fun zero => free ((canonicalFlat_zero_iff generates).mp zero)⟩

section
variable {α β γ : Type} [DecidableEq α] (place : γ → α) (what : γ → β)

theorem writeAt_self (table : α → β) (written : α) : writeAt table written (table written) = table := by
  funext other
  unfold writeAt
  split_ifs with same
  · rw [same]
  · rfl

theorem foldl_writeAt_of_not_mem {written : α} (entries : List γ) (table : α → β)
    (absent : ∀ entry ∈ entries, place entry ≠ written) :
    entries.foldl (fun table entry => writeAt table (place entry) (what entry)) table written = table written := by
  induction entries generalizing table with
  | nil => rfl
  | cons entry rest ih =>
    rw [List.foldl_cons, ih _ fun other member => absent other (List.mem_cons_of_mem _ member),
      writeAt, if_neg (absent entry List.mem_cons_self).symm]

theorem foldl_writeAt_of_mem {written : α} {value : β} (entries : List γ) (table : α → β)
    (present : ∃ entry ∈ entries, place entry = written) (agree : ∀ entry ∈ entries, place entry = written → what entry = value) :
    entries.foldl (fun table entry => writeAt table (place entry) (what entry)) table written = value := by
  induction entries generalizing table with
  | nil => obtain ⟨entry, absent, _⟩ := present; cases absent
  | cons entry rest ih =>
    rw [List.foldl_cons]
    have later : ∀ other ∈ rest, place other = written → what other = value := fun other member =>
      agree other (List.mem_cons_of_mem _ member)
    by_cases again : ∃ other ∈ rest, place other = written
    · exact ih _ again later
    · obtain ⟨first, member, sends⟩ := present
      obtain rfl | member := List.mem_cons.mp member
      · rw [foldl_writeAt_of_not_mem place what rest _ fun other member same => again ⟨other, member, same⟩, sends,
          writeAt, if_pos rfl, agree first List.mem_cons_self sends]
      · exact absurd ⟨first, member, sends⟩ again

end

end PhyNspire.Tensor.Symmetric

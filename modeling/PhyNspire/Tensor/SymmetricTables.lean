import PhyNspire.Tensor.SymmetricOrbits

/-!
The tables of a dense tensor along its runs. What is declared generates the group; the forced components hold
zero, the others carry one handle through each orbit with the sign of the element that reaches them.
-/

namespace PhyNspire.Tensor.Symmetric

variable {Ref : Type} {rank dimension : Nat}

/-- The tables after any run. -/
structure Consistent (declared : Set (SlotPerm rank)) (tensor : SymmetricTensor Ref rank dimension) : Prop where
  small : rank ≤ tensorMaxRank
  generates : Generates declared tensor.group
  forced : ∀ indices, Forced declared indices → tensor.values indices = tensor.zero ∧ tensor.signs indices = 0
  fresh : ∀ indices, tensor.assigned indices = false → tensor.values indices = tensor.zero
  freshSign : ∀ indices, tensor.assigned indices = false → ¬Forced declared indices → tensor.signs indices = 1
  spread : ∀ x ∈ Subgroup.closure declared, ∀ indices, tensor.assigned (permute x indices) = tensor.assigned indices
  carried : ∀ x ∈ Subgroup.closure declared, ∀ indices, tensor.assigned indices = true → ¬Forced declared indices →
    tensor.values (permute x indices) = tensor.values indices ∧
      tensor.signs (permute x indices) = x.2 * tensor.signs indices
  unit : ∀ indices, ¬Forced declared indices → tensor.signs indices = 1 ∨ tensor.signs indices = -1
  flag : tensor.hasAssignment = true ↔ ∃ indices, tensor.assigned indices = true

variable {declared : Set (SlotPerm rank)} {tensor : SymmetricTensor Ref rank dimension}
  {indices target : Index rank dimension} {x : SlotPerm rank}

theorem foldl_writeEntry (value : Ref) (sign : Int) (entries : List (SlotPerm rank)) (tensor : SymmetricTensor Ref rank dimension) :
    entries.foldl (writeEntry indices value sign) tensor =
      { tensor with
        values := entries.foldl (fun table entry => writeAt table (permute entry indices) value) tensor.values
        signs := entries.foldl (fun table entry => writeAt table (permute entry indices) (entry.2 * sign)) tensor.signs
        assigned := entries.foldl (fun table entry => writeAt table (permute entry indices) true) tensor.assigned } := by
  induction entries generalizing tensor with
  | nil => rfl
  | cons entry rest ih => exact ih (writeEntry indices value sign tensor entry)

theorem foldl_markEntry (entries : List (SlotPerm rank)) (tensor : SymmetricTensor Ref rank dimension) :
    entries.foldl (markEntry indices) tensor =
      { tensor with
        assigned := entries.foldl (fun table entry => writeAt table (permute entry indices) true) tensor.assigned } := by
  induction entries generalizing tensor with
  | nil => rfl
  | cons entry rest ih => exact ih (markEntry indices tensor entry)

theorem foldl_clearEntry (entries : List (SlotPerm rank)) (tensor : SymmetricTensor Ref rank dimension) :
    entries.foldl (clearEntry indices) tensor =
      { tensor with
        values := entries.foldl (fun table entry => writeAt table (permute entry indices) tensor.zero) tensor.values
        signs := entries.foldl (fun table entry =>
          writeAt table (permute entry indices) (emptySign tensor (permute entry indices))) tensor.signs
        assigned := entries.foldl (fun table entry => writeAt table (permute entry indices) false) tensor.assigned } := by
  induction entries generalizing tensor with
  | nil => rfl
  | cons entry rest ih => exact ih (clearEntry indices tensor entry)

section
variable {β : Type} (what : SlotPerm rank → β) (table : Index rank dimension → β) (group : SlotGroup rank)

theorem written_outside (outside : ¬InOrbit group indices target) :
    group.entries.foldl (fun table entry => writeAt table (permute entry indices) (what entry)) table target =
      table target :=
  foldl_writeAt_of_not_mem (fun entry => permute entry indices) what group.entries table
    fun entry member same => outside ⟨entry, member, same⟩

theorem written_inside {value : β} (orbit : InOrbit group indices target)
    (agree : ∀ entry ∈ group.entries, permute entry indices = target → what entry = value) :
    group.entries.foldl (fun table entry => writeAt table (permute entry indices) (what entry)) table target = value :=
  foldl_writeAt_of_mem (fun entry => permute entry indices) what group.entries table orbit agree

end

theorem Consistent.reset (small : rank ≤ tensorMaxRank) (generates : Generates declared tensor.group) :
    Consistent declared (resetTables tensor) where
  small := small
  generates := generates
  forced := fun _ forced => ⟨rfl, (emptySign_eq generates).1 forced⟩
  fresh := fun _ _ => rfl
  freshSign := fun _ _ free => (emptySign_eq generates).2 free
  spread := fun _ _ _ => rfl
  carried := fun _ _ _ assigned => Bool.noConfusion assigned
  unit := fun _ free => .inl ((emptySign_eq generates).2 free)
  flag := ⟨Bool.noConfusion, fun ⟨_, assigned⟩ => Bool.noConfusion assigned⟩

theorem Consistent.eq_reset (consistent : Consistent declared tensor) (unassigned : tensor.hasAssignment = false) :
    resetTables tensor = tensor := by
  have none_ : ∀ indices, tensor.assigned indices = false := fun indices =>
    Bool.eq_false_iff.mpr fun assigned =>
      Bool.false_ne_true (unassigned.symm.trans (consistent.flag.mpr ⟨indices, assigned⟩))
  have values : tensor.values = fun _ => tensor.zero := funext fun indices => consistent.fresh indices (none_ indices)
  have signs : tensor.signs = emptySign tensor := by
    funext indices
    by_cases forced : Forced declared indices
    · rw [(consistent.forced indices forced).2, (emptySign_eq consistent.generates).1 forced]
    · rw [consistent.freshSign indices (none_ indices) forced, (emptySign_eq consistent.generates).2 forced]
  have assigned : tensor.assigned = fun _ => false := funext none_
  unfold resetTables
  rw [← values, ← signs, ← assigned, ← unassigned]

theorem Consistent.changed (consistent : Consistent declared tensor) {after : SymmetricTensor Ref rank dimension}
    {mark : Bool} (group : after.group = tensor.group) (zero : after.zero = tensor.zero)
    (outside : ∀ target, ¬InOrbit tensor.group indices target → after.values target = tensor.values target ∧
      after.signs target = tensor.signs target ∧ after.assigned target = tensor.assigned target)
    (marks : ∀ target, InOrbit tensor.group indices target → after.assigned target = mark)
    (forced : ∀ target, InOrbit tensor.group indices target → Forced declared target →
      after.values target = tensor.zero ∧ after.signs target = 0)
    (fresh : mark = false → ∀ target, InOrbit tensor.group indices target →
      after.values target = tensor.zero ∧ (¬Forced declared target → after.signs target = 1))
    (carried : mark = true → ∀ x ∈ Subgroup.closure declared, ∀ target, InOrbit tensor.group indices target →
      ¬Forced declared target → after.values (permute x target) = after.values target ∧
        after.signs (permute x target) = x.2 * after.signs target)
    (unit : ∀ target, InOrbit tensor.group indices target → ¬Forced declared target →
      after.signs target = 1 ∨ after.signs target = -1)
    (flag : after.hasAssignment = true ↔ ∃ indices, after.assigned indices = true) : Consistent declared after := by
  have generates := consistent.generates
  have moved {x : SlotPerm rank} (member : x ∈ Subgroup.closure declared) {target : Index rank dimension} :
      InOrbit tensor.group indices (permute x target) ↔ InOrbit tensor.group indices target :=
    inOrbit_permute generates member
  refine ⟨consistent.small, group ▸ generates, fun target forced' => ?_, fun target fresh' => ?_,
    fun target fresh' free => ?_, fun x member target => ?_, fun x member target assigned free => ?_,
    fun target free => ?_, flag⟩ <;> by_cases orbit : InOrbit tensor.group indices target
  · exact zero ▸ forced target orbit forced'
  · obtain ⟨values, signs, _⟩ := outside target orbit
    exact ⟨(values.trans (consistent.forced target forced').1).trans zero.symm, signs.trans (consistent.forced target forced').2⟩
  · exact zero ▸ (fresh ((marks target orbit).symm.trans fresh') target orbit).1
  · obtain ⟨values, _, assigned⟩ := outside target orbit
    exact (values.trans (consistent.fresh target (assigned.symm.trans fresh'))).trans zero.symm
  · exact (fresh ((marks target orbit).symm.trans fresh') target orbit).2 free
  · obtain ⟨_, signs, assigned⟩ := outside target orbit
    exact signs.trans (consistent.freshSign target (assigned.symm.trans fresh') free)
  · rw [marks target orbit, marks _ ((moved member).mpr orbit)]
  · rw [(outside target orbit).2.2, (outside _ fun other => orbit ((moved member).mp other)).2.2]
    exact consistent.spread x member target
  · exact carried ((marks target orbit).symm.trans assigned) x member target orbit free
  · obtain ⟨values, signs, mark⟩ := outside target orbit
    obtain ⟨values', signs', _⟩ := outside _ fun other => orbit ((moved member).mp other)
    rw [values, signs, values', signs']
    exact consistent.carried x member target (mark.symm.trans assigned) free
  · exact unit target orbit free
  · rw [(outside target orbit).2.1]
    exact consistent.unit target free

theorem Consistent.mark (consistent : Consistent declared tensor) (forced : Forced declared indices) :
    Consistent declared { tensor.group.entries.foldl (markEntry indices) tensor with hasAssignment := true } := by
  have generates := consistent.generates
  have all {target} (orbit : InOrbit tensor.group indices target) : Forced declared target := by
    obtain ⟨x, inside, rfl⟩ := (inOrbit_iff generates).mp orbit
    exact forced.permute inside
  have inside {target} (orbit : InOrbit tensor.group indices target) :=
    written_inside (fun _ => true) tensor.assigned tensor.group orbit fun _ _ _ => rfl
  rw [foldl_markEntry]
  refine consistent.changed rfl rfl (fun target apart => ⟨rfl, rfl, written_outside _ _ _ apart⟩) (fun _ => inside)
    (fun target _ => consistent.forced target) Bool.noConfusion
    (fun _ _ _ _ orbit free => absurd (all orbit) free) (fun _ orbit free => absurd (all orbit) free) ?_
  exact ⟨fun _ => ⟨indices, inside (inOrbit_self generates)⟩, fun _ => rfl⟩

theorem Consistent.write (consistent : Consistent declared tensor) (free : ¬Forced declared indices) (value : Ref) :
    Consistent declared { tensor.group.entries.foldl (writeEntry indices value 1) tensor with hasAssignment := true } := by
  have generates := consistent.generates
  have values {target} (orbit : InOrbit tensor.group indices target) :=
    written_inside (fun _ => value) tensor.values tensor.group orbit fun _ _ _ => rfl
  have marks {target} (orbit : InOrbit tensor.group indices target) :=
    written_inside (fun _ => true) tensor.assigned tensor.group orbit fun _ _ _ => rfl
  have signs {x : SlotPerm rank} (member : x ∈ Subgroup.closure declared) :=
    written_inside (fun entry => (entry.2 : Int) * 1) tensor.signs tensor.group
      ((inOrbit_iff generates).mpr ⟨x, member, rfl⟩) fun entry member' same => by
        rw [sign_eq_of_permute_eq free (generates.sound.inside entry member') member same]
  rw [foldl_writeEntry]
  refine consistent.changed rfl rfl
    (fun target apart => ⟨written_outside _ _ _ apart, written_outside _ _ _ apart, written_outside _ _ _ apart⟩)
    (fun _ => marks) (fun _ orbit forced => absurd (forced_of_inOrbit generates orbit forced) free) Bool.noConfusion
    (fun _ x member target orbit _ => ?_) (fun target orbit _ => ?_) ?_
  · dsimp only
    rw [values orbit, values ((inOrbit_permute generates member).mpr orbit)]
    obtain ⟨y, member', rfl⟩ := (inOrbit_iff generates).mp orbit
    refine ⟨rfl, ?_⟩
    rw [← permute_mul, signs member', signs (mul_mem member member'), Prod.snd_mul, Units.val_mul, mul_assoc]
  · obtain ⟨y, member', rfl⟩ := (inOrbit_iff generates).mp orbit
    dsimp only
    rw [signs member', mul_one]
    obtain plus | minus := Int.units_eq_one_or y.2
    · exact .inl (plus ▸ rfl)
    · exact .inr (minus ▸ rfl)
  · exact ⟨fun _ => ⟨indices, marks (inOrbit_self generates)⟩, fun _ => rfl⟩

section
variable [DecidableEq Ref]

theorem Consistent.assign (consistent : Consistent declared tensor) (indices : Index rank dimension) (value : Ref) :
    Consistent declared (assignOrbit tensor indices value).2 := by
  have vanishes : (canonicalFlat tensor indices).2 = 0 ↔ Forced declared indices :=
    canonicalFlat_zero_iff consistent.generates
  unfold assignOrbit
  split_ifs with zero different conflict
  · exact consistent
  · exact consistent.mark (vanishes.mp zero)
  · exact consistent
  · exact consistent.write (fun forced => zero (vanishes.mpr forced)) value

end

theorem Consistent.clearOrbit [NeZero dimension] (consistent : Consistent declared tensor) (indices : Index rank dimension) :
    Consistent declared { tensor.group.entries.foldl (clearEntry indices) tensor with
      hasAssignment := (flats rank dimension).any (tensor.group.entries.foldl (clearEntry indices) tensor).assigned } := by
  have empty {target : Index rank dimension} : (Forced declared target → emptySign tensor target = 0) ∧
      (¬Forced declared target → emptySign tensor target = 1) := emptySign_eq consistent.generates
  have values {target} (orbit : InOrbit tensor.group indices target) :=
    written_inside (fun _ => tensor.zero) tensor.values tensor.group orbit fun _ _ _ => rfl
  have signs {target} (orbit : InOrbit tensor.group indices target) :=
    written_inside (fun entry => emptySign tensor (permute entry indices)) tensor.signs tensor.group orbit
      fun entry _ sends => congrArg (emptySign tensor) sends
  rw [foldl_clearEntry]
  refine consistent.changed rfl rfl
    (fun target apart => ⟨written_outside _ _ _ apart, written_outside _ _ _ apart, written_outside _ _ _ apart⟩)
    (fun target orbit => written_inside (fun _ => false) tensor.assigned tensor.group orbit fun _ _ _ => rfl)
    (fun target orbit forced => ⟨values orbit, (signs orbit).trans (empty.1 forced)⟩)
    (fun _ target orbit => ⟨values orbit, fun free => (signs orbit).trans (empty.2 free)⟩) Bool.noConfusion
    (fun target orbit free => .inl ((signs orbit).trans (empty.2 free))) ?_
  rw [List.any_eq_true]
  exact ⟨fun ⟨target, _, assigned⟩ => ⟨target, assigned⟩, fun ⟨target, assigned⟩ => ⟨target, mem_flats target, assigned⟩⟩

theorem Consistent.fillOrbit_eq (consistent : Consistent declared tensor) (indices : Index rank dimension) :
    fillOrbit tensor indices = tensor := by
  unfold fillOrbit
  dsimp only
  split_ifs with skip
  · rfl
  · push Not at skip
    obtain ⟨_, nonzero, assigned⟩ := skip
    have marked : tensor.assigned indices = true := Bool.eq_true_of_not_eq_false assigned
    have free : ¬Forced declared indices := fun forced => nonzero ((canonicalFlat_zero_iff consistent.generates).mpr forced)
    have still : ∀ entry ∈ tensor.group.entries,
        writeEntry indices (tensor.values indices) (tensor.signs indices) tensor entry = tensor := by
      intro entry member
      have inside := consistent.generates.sound.inside entry member
      obtain ⟨value, sign⟩ := consistent.carried entry inside indices marked free
      have mark := (consistent.spread entry inside indices).trans marked
      unfold writeEntry
      rw [← value, ← sign, ← mark, writeAt_self, writeAt_self, writeAt_self]
    exact List.foldlRecOn (motive := fun filled => filled = tensor) tensor.group.entries _ rfl
      fun filled same entry member => by rw [same]; exact still entry member

theorem Consistent.fill [NeZero dimension] (consistent : Consistent declared tensor) : (fillSymmetries tensor).2 = tensor :=
  List.foldlRecOn (motive := fun filled => filled = tensor) (flats rank dimension) _ rfl
    fun filled same indices _ => by rw [same]; exact consistent.fillOrbit_eq indices

end PhyNspire.Tensor.Symmetric

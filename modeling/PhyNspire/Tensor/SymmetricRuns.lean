import PhyNspire.Tensor.SymmetricTables

/-!
Runs of a dense tensor: declarations, assignments, clearings and fills in any order. A refused call changes
nothing, and the components transform as declared after every call.
-/

namespace PhyNspire.Tensor.Symmetric
open Platform

variable {Ref : Type} {rank dimension : Nat}

variable {declared : Set (SlotPerm rank)} {tensor : SymmetricTensor Ref rank dimension}
  {indices target : Index rank dimension} {x : SlotPerm rank}

def declaredBy (rank : Nat) (image : List Nat) (sign : Int) : Set (SlotPerm rank) :=
  {x | permOf rank image = some x.1 ∧ x.2 = unitOf sign}

def declaredByAll (rank : Nat) (list : List (List Nat × Int)) : Set (SlotPerm rank) :=
  {x | ∃ declaration ∈ list, x ∈ declaredBy rank declaration.1 declaration.2}

structure Declared (declared added : Set (SlotPerm rank)) (tensor : SymmetricTensor Ref rank dimension)
    (after : Status × SymmetricTensor Ref rank dimension) : Prop where
  accepted : after.1 = .ok → Consistent (declared ∪ added) after.2
  valence : after.2.valence = tensor.valence
  zero : after.2.zero = tensor.zero

theorem declarePermutation_spec (consistent : Consistent declared tensor) (image : List Nat) (sign : Int) :
    Declared declared (declaredBy rank image sign) tensor (declarePermutation tensor image sign) := by
  have refused {status : Status} (bad : status ≠ .ok) : Declared declared (declaredBy rank image sign) tensor (status, tensor) :=
    ⟨fun accepted => absurd accepted bad, rfl, rfl⟩
  unfold declarePermutation
  split_ifs with assigned length unit
  · exact refused Status.noConfusion
  · exact refused Status.noConfusion
  · exact refused Status.noConfusion
  · cases shape : permOf rank image with
    | none => exact refused Status.noConfusion
    | some perm =>
      dsimp only
      split_ifs with mixed
      · exact refused Status.noConfusion
      · obtain ⟨group, closed, generates⟩ := addGenerator_spec consistent.small consistent.generates (perm, unitOf sign)
        rw [closed]
        refine ⟨fun _ => ?_, rfl, rfl⟩
        have added : declaredBy rank image sign = {(perm, unitOf sign)} := by
          ext ⟨other, unit⟩
          unfold declaredBy
          rw [shape, Set.mem_ofPred_eq, Set.mem_singleton_iff, Prod.mk.injEq, Option.some.injEq]
          exact and_congr_left' eq_comm
        rw [added, Set.union_singleton]
        exact .reset consistent.small generates

theorem declarePermutation_refused (image : List Nat) (sign : Int) :
    (declarePermutation tensor image sign).1 = .ok ∨ (declarePermutation tensor image sign).2 = tensor := by
  unfold declarePermutation
  split_ifs with assigned length unit
  · exact .inr rfl
  · exact .inr rfl
  · exact .inr rfl
  · cases permOf rank image with
    | none => exact .inr rfl
    | some perm =>
      dsimp only
      split_ifs with mixed
      · exact .inr rfl
      · cases addGenerator tensor.group (perm, unitOf sign) with
        | error status => exact .inr rfl
        | ok group => exact .inl rfl

theorem declareAll_spec (consistent : Consistent declared tensor) (list : List (List Nat × Int)) :
    Declared declared (declaredByAll rank list) tensor (declareAll tensor list) := by
  induction list generalizing declared tensor with
  | nil =>
    refine ⟨fun _ => ?_, rfl, rfl⟩
    have nothing : declaredByAll rank [] = ∅ := by
      ext x
      unfold declaredByAll
      simp
    rw [nothing, Set.union_empty]
    exact consistent
  | cons declaration rest ih =>
    have first := declarePermutation_spec consistent declaration.1 declaration.2
    unfold declareAll
    dsimp only
    split_ifs with accepted
    · have later := ih (first.accepted accepted)
      refine ⟨fun done => ?_, later.valence.trans first.valence, later.zero.trans first.zero⟩
      have both : declaredByAll rank (declaration :: rest) =
          declaredBy rank declaration.1 declaration.2 ∪ declaredByAll rank rest := by
        ext x
        unfold declaredByAll
        simp
      rw [both, ← Set.union_assoc]
      exact later.accepted done
    · exact ⟨fun done => absurd done accepted, first.valence, first.zero⟩

theorem declareRiemannSymmetry_spec (consistent : Consistent declared tensor) :
    Declared declared (declaredByAll rank riemannDeclarations) tensor (declareRiemannSymmetry tensor) := by
  have all := declareAll_spec consistent riemannDeclarations
  unfold declareRiemannSymmetry
  dsimp only
  split_ifs with shape assigned refused
  · exact ⟨Status.noConfusion, rfl, rfl⟩
  · exact ⟨Status.noConfusion, rfl, rfl⟩
  · exact ⟨fun accepted => absurd accepted refused, all.valence, all.zero⟩
  · exact all

theorem declareRiemannSymmetry_refused (consistent : Consistent declared tensor) :
    (declareRiemannSymmetry tensor).1 = .ok ∨ (declareRiemannSymmetry tensor).2 = tensor := by
  have all := declareAll_spec consistent riemannDeclarations
  unfold declareRiemannSymmetry
  dsimp only
  split_ifs with shape assigned refused
  · exact .inr rfl
  · exact .inr rfl
  · have back : resetTables { (declareAll tensor riemannDeclarations).2 with group := tensor.group } = resetTables tensor := by
      unfold resetTables
      rw [SymmetricTensor.mk.injEq]
      exact ⟨all.valence, all.zero, rfl, rfl, funext fun _ => all.zero, rfl, rfl⟩
    exact .inr (back.trans (consistent.eq_reset (Bool.eq_false_iff.mpr assigned)))
  · exact .inl (not_not.mp refused)

section
variable [DecidableEq Ref]

def declarations : Operation Ref rank → Set (SlotPerm rank)
  | .declarePermutation image sign => declaredBy rank image sign
  | .declareSlotSymmetry slotA slotB symmetry =>
    declaredBy rank (exchangeImage rank slotA slotB) (if symmetry = .symmetric then 1 else -1)
  | .declareRiemannSymmetry => declaredByAll rank riemannDeclarations
  | .set _ _ | .setFlat _ _ | .clearComponent _ | .clear | .fillSymmetries => ∅

theorem assignOrbit_refused (indices : Index rank dimension) (value : Ref) :
    (assignOrbit tensor indices value).1 = .ok ∨ (assignOrbit tensor indices value).2 = tensor := by
  unfold assignOrbit
  split_ifs
  · exact .inr rfl
  · exact .inl rfl
  · exact .inr rfl
  · exact .inl rfl

variable [NeZero dimension]

inductive Reached (valence : Fin rank → Variance) (zero : Ref) :
    Set (SlotPerm rank) → SymmetricTensor Ref rank dimension → Prop
  | create {tensor : SymmetricTensor Ref rank dimension} (created : tensorCreate valence zero = .ok tensor) :
    Reached valence zero ∅ tensor
  | accept {declared : Set (SlotPerm rank)} {tensor : SymmetricTensor Ref rank dimension}
    (before : Reached valence zero declared tensor) (operation : Operation Ref rank)
    (accepted : (perform tensor operation).1 = .ok) :
    Reached valence zero (declared ∪ declarations operation) (perform tensor operation).2
  | refuse {declared : Set (SlotPerm rank)} {tensor : SymmetricTensor Ref rank dimension}
    (before : Reached valence zero declared tensor) (operation : Operation Ref rank)
    (refused : (perform tensor operation).1 ≠ .ok) : Reached valence zero declared (perform tensor operation).2

theorem Consistent.refused (consistent : Consistent declared tensor) (operation : Operation Ref rank) :
    (perform tensor operation).1 = .ok ∨ (perform tensor operation).2 = tensor := by
  cases operation with
  | declarePermutation image sign => exact declarePermutation_refused image sign
  | declareSlotSymmetry slotA slotB symmetry =>
    unfold perform declareSlotSymmetry
    dsimp only
    split_ifs with bad
    · exact .inr rfl
    · cases symmetry with
      | none => exact .inr rfl
      | symmetric => exact declarePermutation_refused _ _
      | antisymmetric => exact declarePermutation_refused _ _
  | declareRiemannSymmetry => exact declareRiemannSymmetry_refused consistent
  | set indices value =>
    unfold perform tensorSet
    dsimp only
    split
    · exact assignOrbit_refused _ _
    · exact .inr rfl
  | setFlat flat value =>
    unfold perform tensorSetFlat
    dsimp only
    cases value with
    | none => exact .inr rfl
    | some value =>
      dsimp only
      split_ifs
      · exact .inr rfl
      · exact assignOrbit_refused _ _
  | clearComponent indices =>
    unfold perform clearComponent
    dsimp only
    cases checkIndices dimension indices with
    | none => exact .inr rfl
    | some indices => exact .inl rfl
  | clear => exact .inl rfl
  | fillSymmetries => exact .inl rfl

theorem Consistent.performed (consistent : Consistent declared tensor) (operation : Operation Ref rank)
    (accepted : (perform tensor operation).1 = .ok) :
    Consistent (declared ∪ declarations operation) (perform tensor operation).2 := by
  cases operation with
  | declarePermutation image sign => exact (declarePermutation_spec consistent image sign).accepted accepted
  | declareSlotSymmetry slotA slotB symmetry =>
    unfold perform declareSlotSymmetry at accepted ⊢
    dsimp only at accepted ⊢
    split_ifs at accepted ⊢ with bad
    cases symmetry with
    | none => exact Status.noConfusion accepted
    | symmetric => exact (declarePermutation_spec consistent _ 1).accepted accepted
    | antisymmetric => exact (declarePermutation_spec consistent _ (-1)).accepted accepted
  | declareRiemannSymmetry => exact (declareRiemannSymmetry_spec consistent).accepted accepted
  | set indices value =>
    rw [declarations, Set.union_empty]
    unfold perform tensorSet
    dsimp only
    split
    · exact consistent.assign _ _
    · exact consistent
  | setFlat flat value =>
    rw [declarations, Set.union_empty]
    unfold perform tensorSetFlat
    dsimp only
    cases value with
    | none => exact consistent
    | some value =>
      dsimp only
      split_ifs
      · exact consistent
      · exact consistent.assign _ _
  | clearComponent indices =>
    rw [declarations, Set.union_empty]
    unfold perform clearComponent
    dsimp only
    cases checkIndices dimension indices with
    | none => exact consistent
    | some indices => exact consistent.clearOrbit indices
  | clear =>
    rw [declarations, Set.union_empty]
    exact .reset consistent.small consistent.generates
  | fillSymmetries =>
    rw [declarations, Set.union_empty]
    unfold perform
    rw [consistent.fill]
    exact consistent

theorem assignOrbit_zero (indices : Index rank dimension) (value : Ref) :
    (assignOrbit tensor indices value).2.zero = tensor.zero := by
  unfold assignOrbit
  rw [foldl_markEntry, foldl_writeEntry]
  split_ifs <;> rfl

theorem Consistent.zero_eq (consistent : Consistent declared tensor) (operation : Operation Ref rank)
    (accepted : (perform tensor operation).1 = .ok) : (perform tensor operation).2.zero = tensor.zero := by
  cases operation with
  | declarePermutation image sign => exact (declarePermutation_spec consistent image sign).zero
  | declareSlotSymmetry slotA slotB symmetry =>
    unfold perform declareSlotSymmetry at accepted ⊢
    dsimp only at accepted ⊢
    split_ifs at accepted ⊢ with bad
    cases symmetry with
    | none => rfl
    | symmetric => exact (declarePermutation_spec consistent _ 1).zero
    | antisymmetric => exact (declarePermutation_spec consistent _ (-1)).zero
  | declareRiemannSymmetry => exact (declareRiemannSymmetry_spec consistent).zero
  | set indices value =>
    unfold perform tensorSet
    dsimp only
    split
    · exact assignOrbit_zero _ _
    · rfl
  | setFlat flat value =>
    unfold perform tensorSetFlat
    dsimp only
    cases value with
    | none => rfl
    | some value =>
      dsimp only
      split_ifs
      · rfl
      · exact assignOrbit_zero _ _
  | clearComponent indices =>
    unfold perform clearComponent
    dsimp only
    cases checkIndices dimension indices with
    | none => rfl
    | some indices => dsimp only; rw [foldl_clearEntry]
  | clear => rfl
  | fillSymmetries => exact congrArg SymmetricTensor.zero consistent.fill

variable {valence : Fin rank → Variance} {zero : Ref}

theorem Reached.consistent (reached : Reached valence zero declared tensor) :
    Consistent declared tensor ∧ tensor.zero = zero := by
  induction reached with
  | create created =>
    unfold tensorCreate at created
    split_ifs at created with large
    obtain rfl := Except.ok.inj created
    exact ⟨.reset (Nat.le_of_not_lt large) (generates_identity rank), rfl⟩
  | accept before operation accepted ih => exact ⟨ih.1.performed operation accepted, (ih.1.zero_eq operation accepted).trans ih.2⟩
  | refuse before operation refused ih =>
    rw [(ih.1.refused operation).resolve_left refused]
    exact ih

def component {K : Type} [AddCommGroup K] (worth : Ref → K) (tensor : SymmetricTensor Ref rank dimension)
    (indices : Index rank dimension) : K :=
  tensor.signs indices • worth (tensor.values indices)

/-- Whether `phy_tensor_set` takes a value for a component. -/
def Accepts (tensor : SymmetricTensor Ref rank dimension) (indices : Index rank dimension) (value : Ref) : Prop :=
  (perform tensor (.set (fun slot => (indices slot).val) (some value))).1 = .ok

/-- What `phy_tensor_set` takes: handles are compared, not values. -/
structure SettingRule (tensor : SymmetricTensor Ref rank dimension) (indices : Index rank dimension) (value : Ref) : Prop where
  forced : tensor.signs indices = 0 → (Accepts tensor indices value ↔ value = tensor.zero)
  fresh : tensor.signs indices ≠ 0 → tensor.assigned indices = false → Accepts tensor indices value
  stored : tensor.assigned indices = true → tensor.signs indices = 1 → (Accepts tensor indices value ↔ value = tensor.values indices)
  mirrored : tensor.signs indices = -1 → tensor.values indices ≠ tensor.zero → ¬Accepts tensor indices value

theorem Consistent.zero_of_unassigned (consistent : Consistent declared tensor)
    (vanishes : tensor.assigned indices = true → Forced declared indices) : tensor.values indices = tensor.zero := by
  cases assigned : tensor.assigned indices with
  | false => exact consistent.fresh indices assigned
  | true => exact (consistent.forced indices (vanishes assigned)).1

theorem Consistent.sign_zero_iff (consistent : Consistent declared tensor) :
    tensor.signs indices = 0 ↔ Forced declared indices := by
  refine ⟨fun sign => ?_, fun forced => (consistent.forced indices forced).2⟩
  by_contra free
  obtain plus | minus := consistent.unit indices free <;> omega

theorem Consistent.transport (consistent : Consistent declared tensor) (inside : x ∈ Subgroup.closure declared)
    (indices : Index rank dimension) :
    (tensor.values indices = tensor.zero ∧ tensor.values (permute x indices) = tensor.zero) ∨
      (tensor.values (permute x indices) = tensor.values indices ∧
        tensor.signs (permute x indices) = x.2 * tensor.signs indices) := by
  by_cases live : tensor.assigned indices = true ∧ ¬Forced declared indices
  · exact .inr (consistent.carried x inside indices live.1 live.2)
  · have vanishes : tensor.assigned indices = true → Forced declared indices := by
      intro assigned
      by_contra free
      exact live ⟨assigned, free⟩
    refine .inl ⟨consistent.zero_of_unassigned vanishes, consistent.zero_of_unassigned fun assigned => ?_⟩
    rw [consistent.spread x inside indices] at assigned
    exact (vanishes assigned).permute inside

theorem Consistent.check (consistent : Consistent declared tensor) : checkSymmetries tensor = .ok := by
  refine if_pos (List.all_eq_true.mpr fun indices _ => ?_)
  have marked (zero : tensor.signs indices = 0) : tensor.values indices = tensor.zero :=
    (consistent.forced indices (consistent.sign_zero_iff.mp zero)).1
  have everywhere (zero : tensor.group.identicallyZero = true) : tensor.values indices = tensor.zero :=
    (consistent.forced indices ⟨(1, -1), consistent.generates.sound.zero zero, rfl, rfl⟩).1
  unfold componentAgrees
  rw [Bool.and_eq_true, Bool.and_eq_true, List.all_eq_true]
  refine ⟨⟨?_, ?_⟩, fun entry member => ?_⟩
  · simpa using imp_iff_not_or.mp marked
  · simpa using imp_iff_not_or.mp everywhere
  · simpa using consistent.transport (consistent.generates.sound.inside entry member) indices

theorem Consistent.component_permute {K : Type} [AddCommGroup K] (worth : Ref → K) (null : worth tensor.zero = 0)
    (consistent : Consistent declared tensor) (inside : x ∈ Subgroup.closure declared) (indices : Index rank dimension) :
    component worth tensor (permute x indices) = (x.2 : ℤ) • component worth tensor indices := by
  unfold component
  obtain ⟨first, second⟩ | ⟨value, sign⟩ := consistent.transport inside indices
  · rw [first, second, null, smul_zero, smul_zero, smul_zero]
  · rw [value, sign, mul_smul]

theorem accepts_iff (value : Ref) : Accepts tensor indices value ↔ (assignOrbit tensor indices value).1 = .ok := by
  unfold Accepts
  change (tensorSet tensor (fun slot => (indices slot).val) (some value)).1 = .ok ↔ _
  unfold tensorSet
  rw [checkIndices_val]

theorem Consistent.accepts_forced (consistent : Consistent declared tensor) (forced : Forced declared indices) (value : Ref) :
    Accepts tensor indices value ↔ value = tensor.zero := by
  rw [accepts_iff]
  unfold assignOrbit
  rw [if_pos ((canonicalFlat_zero_iff consistent.generates).mpr forced)]
  split_ifs with different
  · exact ⟨False.elim, fun same => absurd same different⟩
  · exact ⟨fun _ => not_not.mp different, fun _ => rfl⟩

theorem Consistent.accepts_free (consistent : Consistent declared tensor) (free : ¬Forced declared indices) (value : Ref) :
    Accepts tensor indices value ↔
      (tensor.assigned indices = true → tensor.values indices = value ∧ tensor.signs indices = 1) := by
  have generates := consistent.generates
  rw [accepts_iff]
  unfold assignOrbit
  rw [if_neg fun zero => free ((canonicalFlat_zero_iff generates).mp zero)]
  split_ifs with conflict
  · refine ⟨False.elim, fun agrees => ?_⟩
    obtain ⟨entry, member, clash⟩ := List.any_eq_true.mp conflict
    have inside := generates.sound.inside entry member
    rw [Bool.and_eq_true, consistent.spread entry inside, Bool.or_eq_true, decide_eq_true_iff, decide_eq_true_iff] at clash
    obtain ⟨value', sign⟩ := consistent.carried entry inside indices clash.1 free
    obtain ⟨same, plus⟩ := agrees clash.1
    rw [value', sign, same, plus, mul_one] at clash
    obtain different | different := clash.2 <;> exact absurd rfl different
  · refine ⟨fun _ assigned => ?_, fun _ => rfl⟩
    by_contra differ
    apply conflict
    refine List.any_eq_true.mpr ⟨1, generates.sound.identity, ?_⟩
    rw [permute_one, Bool.and_eq_true, Bool.or_eq_true, decide_eq_true_iff, decide_eq_true_iff]
    exact ⟨assigned, not_and_or.mp differ⟩

theorem Consistent.settingRule (consistent : Consistent declared tensor) (indices : Index rank dimension) (value : Ref) :
    SettingRule tensor indices value where
  forced vanishes := consistent.accepts_forced (consistent.sign_zero_iff.mp vanishes) value
  fresh nonzero unassigned := by
    have free : ¬Forced declared indices := fun forced => nonzero (consistent.sign_zero_iff.mpr forced)
    rw [consistent.accepts_free free]
    exact fun assigned => Bool.noConfusion (unassigned.symm.trans assigned)
  stored assigned plus := by
    have free : ¬Forced declared indices := fun forced => by
      rw [consistent.sign_zero_iff.mpr forced] at plus
      exact zero_ne_one plus
    rw [consistent.accepts_free free]
    exact ⟨fun agrees => (agrees assigned).1.symm, fun same _ => ⟨same.symm, plus⟩⟩
  mirrored minus nonzero := by
    have free : ¬Forced declared indices := fun forced => nonzero (consistent.forced indices forced).1
    have assigned : tensor.assigned indices = true := by
      by_contra unassigned
      exact nonzero (consistent.fresh indices (Bool.eq_false_iff.mpr unassigned))
    rw [consistent.accepts_free free]
    intro agrees
    have plus := (agrees assigned).2
    omega

/-- A dense tensor keeps its declared symmetries, whatever is asked of it. -/
theorem symmetries_kept {K : Type} [AddCommGroup K] (worth : Ref → K) (null : worth zero = 0)
    (reached : Reached valence zero declared tensor) :
    checkSymmetries tensor = .ok ∧
      (∀ x ∈ Subgroup.closure declared, ∀ indices,
        component worth tensor (permute x indices) = (x.2 : ℤ) • component worth tensor indices) ∧
      (∀ indices, tensor.signs indices = 0 ↔ ∃ x ∈ Subgroup.closure declared, permute x indices = indices ∧ x.2 = -1) ∧
      (∀ indices, tensor.signs indices = 0 → tensor.values indices = zero) ∧
      (∀ operation, (perform tensor operation).1 ≠ .ok → (perform tensor operation).2 = tensor) ∧
      ∀ indices value, SettingRule tensor indices value := by
  obtain ⟨consistent, same⟩ := reached.consistent
  refine ⟨consistent.check, fun x inside => ?_, fun indices => consistent.sign_zero_iff, fun indices vanishes => ?_,
    fun operation refused => (consistent.refused operation).resolve_left refused, consistent.settingRule⟩
  · exact consistent.component_permute worth (same ▸ null) inside
  · rw [← same]
    exact (consistent.forced indices (consistent.sign_zero_iff.mp vanishes)).1

end

def antisymmetricBlank : SymmetricTensor ℤ 2 2 :=
  resetTables ⟨fun _ => .lower, 0, .identity 2, false, fun _ => 0, fun _ => 0, fun _ => false⟩

theorem plane_nonempty : NeZero 2 := inferInstance

def antisymmetricDeclared : SymmetricTensor ℤ 2 2 :=
  haveI := plane_nonempty
  (perform antisymmetricBlank (.declareSlotSymmetry 0 1 .antisymmetric)).2

def antisymmetricFive : SymmetricTensor ℤ 2 2 :=
  haveI := plane_nonempty
  (perform antisymmetricDeclared (.set (fun slot => slot.val) (some 5))).2

theorem antisymmetricFive_reached : ∃ declared, Reached (fun _ => .lower) 0 declared antisymmetricFive := by
  have blank : Reached (fun _ => .lower) 0 ∅ antisymmetricBlank := .create rfl
  have declared := blank.accept (.declareSlotSymmetry 0 1 .antisymmetric) (by decide +kernel)
  exact ⟨_, declared.accept (.set (fun slot => slot.val) (some 5)) (by decide +kernel)⟩

theorem symmetries_kept_five : ∃ declared, Reached (fun _ => .lower) 0 declared antisymmetricFive ∧
    checkSymmetries antisymmetricFive = .ok := by
  obtain ⟨declared, reached⟩ := antisymmetricFive_reached
  exact ⟨declared, reached, (symmetries_kept (K := ℤ) id rfl reached).1⟩

theorem mirrored_value_refused :
    ¬∀ (declared : Set (SlotPerm 2)) (tensor : SymmetricTensor ℤ 2 2), Reached (fun _ => .lower) 0 declared tensor →
      ∀ (indices : Index 2 2) (value : ℤ), component id tensor indices = value → Accepts tensor indices value := by
  intro always
  obtain ⟨declared, reached⟩ := antisymmetricFive_reached
  have taken := always declared antisymmetricFive reached (fun slot => 1 - slot) (-5) (by decide +kernel)
  have refused : (perform antisymmetricFive (.set (fun slot => (1 - slot : Fin 2).val) (some (-5)))).1 ≠ .ok := by
    decide +kernel
  exact refused taken

end PhyNspire.Tensor.Symmetric

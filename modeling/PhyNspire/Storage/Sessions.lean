import PhyNspire.Storage.Saves

/-!
Sequences of saves. A device is its disk and, for the reader only, the bytes each document was
last saved with. Any operation of any save may fail, and the machine may stop inside any save.
-/

namespace PhyNspire.Storage

open PhyNspire.Platform PhyNspire.Lib.Interrupts

/-- One call of the save: its arguments, and the world's answers until it ends or the machine stops. -/
structure Save where
  name : FileName
  buffer : Option Bytes
  answers : List Fault

structure Device where
  disk : Disk
  saved : Ledger

/-- The documents found on the disk count as saved. -/
def Device.boot (disk : Disk) : Device :=
  ⟨disk, fun name => if storageNameValid name then disk.files name else none⟩

/-- What a save returns, unless the machine stops, and the machine it leaves. -/
def Device.ending (device : Device) (save : Save) : Option Status × Machine :=
  (writeNotebookAtomic save.name save.buffer).ending perform save.answers ⟨device.disk, []⟩

def Device.moments (device : Device) (save : Save) : List Machine :=
  (writeNotebookAtomic save.name save.buffer).moments perform save.answers ⟨device.disk, []⟩

/-- A save is made when it returns `PHY_OK`, or when the machine stops with its bytes in place. -/
def Device.Made (device : Device) (save : Save) : Prop :=
  (device.ending save).1 = some .ok ∨
    ((device.ending save).1 = none ∧ (device.ending save).2.disk.files save.name = save.buffer)

instance (device : Device) (save : Save) : Decidable (device.Made save) :=
  inferInstanceAs (Decidable (_ ∨ _))

def Device.after (device : Device) (save : Save) : Device where
  disk := (device.ending save).2.disk
  saved := if device.Made save then Function.update device.saved save.name save.buffer else device.saved

def Device.run (device : Device) (saves : List Save) : Device := saves.foldl Device.after device

/-- What a save owes its caller and every other document.
* After `PHY_OK` the document is exactly the given bytes.
* After an error the document is what it was.
* At every moment the last saved bytes of every document are present. -/
structure Device.Keeps (device : Device) (save : Save) : Prop where
  success : (device.ending save).1 = some .ok →
    save.buffer.isSome = true ∧ (device.ending save).2.disk.files save.name = save.buffer
  failure : ∀ status, (device.ending save).1 = some status → status ≠ .ok →
    ∀ bytes, device.disk.files save.name = some bytes →
      (device.ending save).2.disk.files save.name = some bytes
  always : ∀ m ∈ device.moments save, ∀ other bytes, device.saved other = some bytes →
    m.disk.Present other bytes ∨
      (other = save.name ∧ save.buffer.isSome = true ∧ m.disk.files save.name = save.buffer)

/-- Every step of the save is spared what it cannot survive. -/
def Device.Spares (device : Device) (save : Save) : Prop :=
  (writeNotebookAtomic save.name save.buffer).Meets perform (Spared device.saved save.name) save.answers
    ⟨device.disk, []⟩

structure Device.Sound (device : Device) : Prop where
  documents : Documents device.saved
  present : ∀ other bytes, device.saved other = some bytes → device.disk.Present other bytes

theorem Device.boot_saved {disk : Disk} {name : FileName} {bytes : Bytes}
    (held : (boot disk).saved name = some bytes) :
    storageNameValid name = true ∧ disk.files name = some bytes := by
  change (if storageNameValid name then disk.files name else none) = some bytes at held
  split_ifs at held with valid
  exact ⟨valid, held⟩

theorem Device.boot_sound (disk : Disk) : (boot disk).Sound where
  documents := fun _ _ held => storageNameValid_apart (boot_saved held).1
  present := fun _ _ held => Or.inl (boot_saved held).2

variable {device : Device} {save : Save}

theorem Device.after_made (made : device.Made save) :
    (device.after save).saved = Function.update device.saved save.name save.buffer := if_pos made

theorem Device.after_lost (lost : ¬device.Made save) : (device.after save).saved = device.saved := if_neg lost

theorem Device.ending_refused (device : Device) (save : Save)
    (bad : storageNameValid save.name = false ∨ save.buffer = none) :
    device.ending save = (some .invalidArgument, ⟨device.disk, []⟩) := by
  unfold ending
  cases given : save.buffer with
  | none => rfl
  | some bytes =>
    rw [given] at bad
    have invalid : storageNameValid save.name = false := bad.resolve_right nofun
    rw [writeNotebookAtomic, if_pos (Or.inl invalid)]
    rfl

theorem Device.made_given (made : device.Made save) :
    storageNameValid save.name = true ∧ ∃ bytes, save.buffer = some bytes := by
  by_contra bad
  have refused : storageNameValid save.name = false ∨ save.buffer = none := by
    rw [not_and_or] at bad
    obtain invalid | absent := bad
    · exact Or.inl (Bool.not_eq_true _ ▸ invalid)
    · exact Or.inr (Option.eq_none_iff_forall_not_mem.mpr (fun bytes there => absent ⟨bytes, there⟩))
  unfold Made at made
  rw [ending_refused device save refused] at made
  obtain same | ⟨same, _⟩ := made
  · cases same
  · cases same

/-- One save, spared what it cannot survive, keeps its promises and the documents. -/
theorem Device.save_keeps (sound : device.Sound) (spares : device.Spares save) :
    device.Keeps save ∧ (device.after save).Sound := by
  have safe := writeNotebookAtomic_safe device.saved save.name save.buffer sound.documents sound.present
  have moments := Program.moments_always safe spares
  obtain ⟨last, ended⟩ := Program.ending_good safe spares
  refine ⟨⟨?_, ?_, ?_⟩, ?_, ?_⟩
  · intro isOk
    obtain ⟨_, bytes, given⟩ := made_given (Or.inl isOk)
    refine ⟨by rw [given]; rfl, ?_⟩
    have there := (ended .ok isOk).success rfl
    rw [given] at there ⊢
    unfold ending
    rw [given]
    exact there
  · intro status returned failed
    exact ((ended status returned).failure failed).1
  · intro m member other bytes held
    obtain present | ⟨same, new⟩ := moments m member other bytes held
    · exact Or.inl present
    · cases given : save.buffer with
      | none =>
        unfold Device.moments at member
        rw [given] at member
        rw [List.mem_singleton.mp member]
        exact Or.inl (sound.present other bytes held)
      | some content =>
        rw [given] at new
        exact Or.inr ⟨same, rfl, new⟩
  · intro other bytes held
    by_cases made : device.Made save
    · rw [after_made made] at held
      by_cases same : other = save.name
      · subst same
        exact storageNameValid_apart (made_given made).1
      · rw [Function.update_of_ne same] at held
        exact sound.documents other bytes held
    · rw [after_lost made] at held
      exact sound.documents other bytes held
  · intro other bytes held
    change (device.ending save).2.disk.Present other bytes
    by_cases made : device.Made save
    · rw [after_made made] at held
      by_cases same : other = save.name
      · subst same
        rw [Function.update_self] at held
        obtain isOk | ⟨_, there⟩ := made
        · have there := (ended .ok isOk).success rfl
          change (device.ending save).2.disk.files save.name = some (save.buffer.getD []) at there
          rw [held] at there
          exact Or.inl there
        · exact Or.inl (there.trans held)
      · rw [Function.update_of_ne same] at held
        obtain present | ⟨isName, _⟩ := last other bytes held
        · exact present
        · exact absurd isName same
    · rw [after_lost made] at held
      obtain present | ⟨same, new⟩ := last other bytes held
      · exact present
      · cases returned : (device.ending save).1 with
        | none =>
          refine absurd (Or.inr ⟨returned, ?_⟩) made
          cases given : save.buffer with
          | none =>
            rw [ending_refused device save (Or.inr given)] at returned
            cases returned
          | some content =>
            change (device.ending save).2.disk.files save.name = some (save.buffer.getD []) at new
            rw [given] at new
            exact new
        | some status =>
          refine ((ended status returned).failure ?_).2 other bytes held
          rintro rfl
          exact made (Or.inl returned)

theorem Device.run_keeps {saves : List Save} (sound : device.Sound)
    (spares : ∀ before save later, saves = before ++ save :: later → (device.run before).Spares save) :
    (device.run saves).Sound ∧
      ∀ before save later, saves = before ++ save :: later → (device.run before).Keeps save := by
  induction saves generalizing device with
  | nil => exact ⟨sound, fun before save later same => absurd same (by simp)⟩
  | cons first rest ih =>
    have step := save_keeps sound (spares [] first rest rfl)
    have tail := ih step.2 (fun before save later same => spares (first :: before) save later (by rw [same]; rfl))
    refine ⟨tail.1, ?_⟩
    intro before save later same
    cases before with
    | nil =>
      rw [List.nil_append, List.cons.injEq] at same
      exact same.1 ▸ step.1
    | cons other before =>
      rw [List.cons_append, List.cons.injEq] at same
      rw [← same.1]
      exact tail.2 before save later same.2

/-- In a run whose saves are all spared what they cannot survive, every save keeps its promises,
and the last saved bytes of every document are present at the end. -/
theorem saves_keep_documents (disk : Disk) (saves : List Save)
    (spares : ∀ before save later, saves = before ++ save :: later →
      ((Device.boot disk).run before).Spares save) :
    (∀ before save later, saves = before ++ save :: later → ((Device.boot disk).run before).Keeps save) ∧
    ∀ other bytes, ((Device.boot disk).run saves).saved other = some bytes →
      ((Device.boot disk).run saves).disk.Present other bytes := by
  have kept := Device.run_keeps (Device.boot_sound disk) spares
  exact ⟨kept.2, kept.1.present⟩

theorem Device.spares_of_blank (blank : ∀ name, device.saved name = none)
    (works : ∀ answer ∈ save.answers, answer = .works) : device.Spares save := by
  refine Program.meets_of_all ?_
  intro fault member m op
  refine ⟨fun _ _ _ => works fault member, ?_, fun _ => Or.inr (works fault member)⟩
  intro _ _ other bytes held
  rw [blank other] at held
  cases held

def noDocuments : Disk := ⟨true, true, fun _ => none⟩

/-- The machine stops once the document has been created. -/
def stoppedSave : Save := ⟨leaf "a.tns", some [1], List.replicate 8 .works⟩

def repeatedSave : Save := ⟨leaf "a.tns", some [1], List.replicate 30 .works⟩

theorem stopped_save_is_repeated :
    ((Device.boot noDocuments).run [stoppedSave, repeatedSave]).disk.files (leaf "a.tns") = some [1] := by
  have blank (name : FileName) : (Device.boot noDocuments).saved name = none :=
    (ite_self none : (if storageNameValid name then none else none) = (none : Option Bytes))
  have lost : ¬(Device.boot noDocuments).Made stoppedSave := by decide
  have works (n : Nat) (answer : Fault) (member : answer ∈ List.replicate n Fault.works) : answer = .works :=
    List.eq_of_mem_replicate member
  have kept := saves_keep_documents noDocuments [stoppedSave, repeatedSave] (by
    intro before save later same
    cases before with
    | nil =>
      rw [List.nil_append, List.cons.injEq] at same
      rw [← same.1]
      exact Device.spares_of_blank blank (works 8)
    | cons first before =>
      rw [List.cons_append, List.cons.injEq] at same
      cases before with
      | nil =>
        rw [List.nil_append, List.cons.injEq] at same
        rw [← same.1, ← same.2.1]
        refine Device.spares_of_blank (fun name => ?_) (works 30)
        change ((Device.boot noDocuments).after stoppedSave).saved name = none
        rw [Device.after_lost lost, blank]
      | cons second before => simp at same)
  exact ((kept.1 [stoppedSave] repeatedSave [] rfl).success (by decide)).2

def twoDocuments : Disk :=
  ⟨true, true, fun name =>
    if name = leaf "a.tns" then some [1] else if name = leaf "b.tns" then some [2] else none⟩

/-- The new document cannot be put in place, and the old one can be brought back neither by a
rename nor by a copy. -/
def failingSave : Save :=
  ⟨leaf "a.tns", some [3], List.replicate 18 .works ++
    [.fails 0, .fails 0, .works, .fails 0, .works, .fails 0, .works, .works, .works]⟩

def nextSave : Save := ⟨leaf "b.tns", some [4], List.replicate 30 .works⟩

/-- The failed save reports an error with the document gone from its name, and the next save of
another document deletes the only copy that was left. -/
theorem failed_restore_loses_a_document :
    ((Device.boot twoDocuments).ending failingSave).1 = some .backend ∧
    ¬(Device.boot twoDocuments).Keeps failingSave ∧
    ¬((Device.boot twoDocuments).run [failingSave]).Keeps nextSave ∧
    ¬∀ disk saves before save later, saves = before ++ save :: later →
      ((Device.boot disk).run before).Keeps save := by
  have returned : ((Device.boot twoDocuments).ending failingSave).1 = some .backend := by decide
  have gone : ¬(Device.boot twoDocuments).Keeps failingSave := by
    intro keeps
    have there := keeps.failure .backend returned (by decide) [1] (by decide)
    revert there
    decide
  have lost : ¬((Device.boot twoDocuments).run [failingSave]).Keeps nextSave := by
    intro keeps
    have last := keeps.always _ (Program.ending_mem_moments _ _ _) (leaf "a.tns") [1] (by decide)
    revert last
    decide
  exact ⟨returned, gone, lost, fun all => gone (all twoDocuments [failingSave] [] failingSave [] rfl)⟩

end PhyNspire.Storage

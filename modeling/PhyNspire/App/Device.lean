import PhyNspire.App.Unsaved
import PhyNspire.Notebook.Reloading
import PhyNspire.Storage.Sessions

/-!
The current notebook on the device's disk: the file that a save has left behind, read back by the
storage backend and opened. Every operation may fail, of the save as well as of the reading.
-/

namespace PhyNspire.App

open Platform Storage Lib.Interrupts Program
open Notebook hiding perform documentMaxBytes

/-- The file operations of a save, and those that only move in an open stream. At the end of a stream
`ftell` tells how much lies before it. -/
inductive Access where
  | file (op : Operation)
  | seek
  | tell (stream : Bytes)

def access : Access → Fault → Machine → Answer × Machine
  | .file op, fault, m => perform op fault m
  | .seek, fault, m => (plain (decide (fault = .works)), m)
  | .tell stream, fault, m => (⟨decide (fault = .works), stream⟩, m)

/-- The status, `*out_size` and the contents of the buffer. -/
abbrev Contents := Status × Nat × Bytes

def closeWith (contents : Contents) : Program Access Answer Contents := do
  let _ ← call (.file .closeReading)
  pure contents

/-- The last part of `phy_storage_read_notebook`; a stream that cannot be read stays open. -/
def readContents (stream : Bytes) : Program Access Answer Contents := do
  let rewound ← call .seek
  if rewound.ok then do
    let got ← call (.file (.read stream stream.length))
    if got.bytes.length = stream.length then do
      let closed ← call (.file .closeReading)
      pure (if closed.ok then .ok else .backend, stream.length, got.bytes)
    else pure (.backend, stream.length, got.bytes)
  else pure (.backend, stream.length, [])

/-- `phy_storage_read_notebook`; `none` is a `NULL` buffer. -/
def storageReadNotebook (name : FileName) (capacity : Option Nat) : Program Access Answer Contents :=
  if storageNameValid name = false then pure (.invalidArgument, 0, [])
  else
    match makePath name with
    | none => pure (.termLimit, 0, [])
    | some path => do
      let file ← call (.file (.openReading path))
      if file.ok then do
        let sought ← call .seek
        if sought.ok then do
          let told ← call (.tell file.bytes)
          if told.ok then
            if documentMaxBytes < told.bytes.length then closeWith (.termLimit, 0, [])
            else if capacity.all (· < told.bytes.length) then
              closeWith (.invalidArgument, told.bytes.length, [])
            else readContents file.bytes
          else closeWith (.backend, 0, [])
        else closeWith (.backend, 0, [])
      else pure (.backend, 0, [])

variable {Context Ref Value : Type} (machinery : Machinery Context Ref Value)

/-- What `phy_workspace_save` hands to the storage backend. -/
def writing (workspace : Workspace Context Ref) (name : FileName) (answers : List Fault) : Save where
  name := name
  buffer := (documentRequiredSize machinery.engine workspace.notebook >>=
    serialize machinery.engine workspace.notebook).toOption
  answers := answers

/-- The answers of an opening, from the size and the contents that the backend returned. -/
def Outside.reading (outside : Outside) (size : Nat) (contents : Contents) : Outside :=
  { outside with readSize := .ok size, read := (contents.1, contents.2.2) }

/-- `phy_workspace_open` over the storage backend. -/
def deviceOpen (workspace : Workspace Context Ref) (name : FileName) (outside : Outside) :
    Program Access Answer (Status × Workspace Context Ref) :=
  if storageNameValid name = false then pure (.invalidArgument, workspace)
  else do
    let measured ← storageReadNotebook name none
    if measured.1 ≠ .invalidArgument ∨ measured.2.1 = 0 then pure (measured.1, workspace)
    else if outside.openHeap.alloc.1 = false then pure (.outOfMemory, workspace)
    else do
      let document ← storageReadNotebook name (some measured.2.1)
      pure (workspaceOpen machinery workspace name (outside.reading measured.2.1 document))

variable {name : FileName} {content : Bytes} {disk : Disk} {allowed : Machine → Access → Fault → Prop}

/-- Some answer of the world may be a failure. -/
def Faulty (allowed : Machine → Access → Fault → Prop) : Prop := ∃ m op fault, allowed m op fault ∧ fault ≠ .works

/-- What a call that is not disturbed returns for a file. -/
def contentsOf (content : Bytes) (capacity : Option Nat) : Contents :=
  (if capacity.isSome then .ok else .invalidArgument, content.length, if capacity.isSome then content else [])

def Delivers (allowed : Machine → Access → Fault → Prop) (content : Bytes) (capacity : Option Nat)
    (contents : Contents) : Prop := contents = contentsOf content capacity ∨ contents.1 = .backend ∧ Faulty allowed

variable {capacity : Option Nat}

def Access.Reads : Access → Prop
  | .file op => op.Reads
  | _ => True

theorem access_reads {op : Access} (reads : op.Reads) (fault : Fault) (m : Machine) :
    (access op fault m).2.disk = m.disk ∧ (fault ≠ .works → (access op fault m).1.ok = false) := by
  cases op with
  | file op =>
    refine ⟨(perform_unchanged reads fault m).disk, fun failed => ?_⟩
    cases op <;> cases fault <;> first | rfl | exact absurd rfl failed | exact reads.elim
  | seek | tell stream => exact ⟨rfl, decide_eq_false⟩

theorem safe_access {op : Access} {α : Type} {next : Answer → Program Access Answer α} {good : α → Machine → Prop}
    {m : Machine} {value : Answer} (reads : op.Reads) (now : m.disk = disk) (works : (access op .works m).1 = value)
    (succeeds : ∀ t, t.disk = disk → Program.Safe access allowed (·.disk = disk) (next value) good t)
    (fails : ∀ fault t, (access op fault m).1.ok = false → t.disk = disk → Faulty allowed →
      Program.Safe access allowed (·.disk = disk) (next (access op fault m).1) good t) :
    Program.Safe access allowed (·.disk = disk) (call op >>= next) good m := by
  refine safe_bind (safe_call now fun fault admitted => ?_)
  obtain ⟨still, refused⟩ := access_reads reads fault m
  by_cases same : fault = .works
  · subst same
    exact ⟨still.trans now, works ▸ succeeds _ (still.trans now)⟩
  · exact ⟨still.trans now, fails fault _ (refused same) (still.trans now) ⟨m, op, fault, admitted, same⟩⟩

theorem closeWith_safe {contents : Contents} {good : Contents → Machine → Prop} {m : Machine} (now : m.disk = disk)
    (returned : ∀ t, good contents t) : Program.Safe access allowed (·.disk = disk) (closeWith contents) good m :=
  safe_access trivial now rfl (fun t now => ⟨now, returned t⟩) fun _ t _ now _ => ⟨now, returned t⟩

theorem readContents_safe {room : Nat} {m : Machine} (now : m.disk = disk) (filled : 0 < content.length) :
    Program.Safe access allowed (·.disk = disk) (readContents content)
      (fun result _ => Delivers allowed content (some room) result) m := by
  refine safe_access trivial now rfl (fun t now => ?_) fun fault t failed now faulty => ?_
  swap
  · rw [failed]
    exact ⟨now, .inr ⟨rfl, faulty⟩⟩
  have whole : (access (.file (.read content content.length)) .works t).1 = ⟨true, content⟩ :=
    congrArg (Answer.mk true) List.take_length
  refine safe_access trivial now whole (fun u now => ?_) fun fault u failed now faulty => ?_
  swap
  · obtain ⟨works, _⟩ | ⟨_, less⟩ := read_answer content filled fault t
    · exact absurd (works.symm.trans failed) nofun
    · rw [if_neg (show (access (.file (.read content content.length)) fault t).1.bytes.length ≠ _ from less.ne)]
      exact ⟨now, .inr ⟨rfl, faulty⟩⟩
  rw [if_pos rfl]
  refine safe_access trivial now rfl (fun v now => ⟨now, .inl rfl⟩) fun fault v failed now faulty => ?_
  rw [failed]
  exact ⟨now, .inr ⟨rfl, faulty⟩⟩

/-- A document is read as it stands on the disk, unless something fails; the disk stays as it is. -/
theorem storageReadNotebook_safe {m : Machine} (valid : storageNameValid name = true)
    (there : disk.files name = some content) (filled : 0 < content.length) (small : content.length ≤ documentMaxBytes)
    (roomy : ∀ room ∈ capacity, content.length ≤ room) (now : m.disk = disk) :
    Program.Safe access allowed (·.disk = disk) (storageReadNotebook name capacity)
      (fun result _ => Delivers allowed content capacity result) m := by
  have opened : (access (.file (.openReading name)) .works m).1 = ⟨true, content⟩ := by
    change (⟨(m.disk.files name).isSome, (m.disk.files name).getD []⟩ : Answer) = _
    rw [now, there]
    rfl
  unfold storageReadNotebook
  rw [if_neg (Bool.not_eq_false _ ▸ valid), makePath_valid valid]
  refine safe_access trivial now opened (fun t now => ?_) fun fault t failed now faulty => ?_
  swap
  · rw [failed]
    exact ⟨now, .inr ⟨rfl, faulty⟩⟩
  refine safe_access trivial now rfl (fun u now => ?_) fun fault u failed now faulty => ?_
  swap
  · rw [failed]
    exact closeWith_safe now fun _ => .inr ⟨rfl, faulty⟩
  have told : (access (.tell content) .works u).1 = ⟨true, content⟩ := rfl
  refine safe_access trivial now told (fun v now => ?_) fun fault v failed now faulty => ?_
  swap
  · rw [failed]
    exact closeWith_safe now fun _ => .inr ⟨rfl, faulty⟩
  rw [if_pos rfl, if_neg (not_lt.mpr small)]
  cases capacity with
  | none => exact closeWith_safe now fun _ => .inl rfl
  | some room =>
    rw [if_neg (fun short => (of_decide_eq_true short).not_ge (roomy room rfl))]
    exact readContents_safe now filled

variable {notebook created : Notebook Context Ref} {workspace : Workspace Context Ref} {outside : Outside}

theorem workspaceOpen_ok {after : Workspace Context Ref}
    (returned : workspaceOpen machinery workspace name outside = (.ok, after)) :
    outside.read.1 = .ok ∧ after.filename = some name ∧
      (deserialize machinery.size.bits machinery.engine machinery.validate outside.read.2
        outside.openHeap.alloc.2).outNotebook = some after.notebook ∧
      ∃ created rest, notebookCreate machinery.engine outside.openHeap.alloc.2 = (some created, rest) := by
  have answers := deserialize_answers machinery.size.wide machinery.engine machinery.validate outside.read.2
    outside.openHeap.alloc.2
  unfold workspaceOpen at returned
  split at returned
  · cases returned
  split at returned
  · rename_i failure _
    exact absurd (congrArg Prod.fst returned) failure.2
  split at returned
  · cases returned
  split at returned
  · cases returned
  split at returned
  · exact absurd (congrArg Prod.fst returned) ‹_›
  have read := not_not.mp ‹¬outside.read.1 ≠ .ok›
  dsimp only at returned
  split at returned
  · rename_i opened _
    unfold copyFilename at returned
    split_ifs at returned
    cases returned
    refine ⟨read, rfl, opened, ?_⟩
    unfold deserialize at opened
    split at opened
    · cases opened
    split at opened
    · cases opened
    · exact ⟨_, _, ‹_›⟩
  · rename_i status stopped
    exact absurd (stopped.trans (congrArg (fun other => some (Stop.refused other.1)) returned)) answers.reported
  · cases returned

structure OpensTo (allowed : Machine → Access → Fault → Prop) (outside : Outside) (notebook : Notebook Context Ref)
    (name : FileName) (workspace : Workspace Context Ref) (result : Status × Workspace Context Ref) : Prop where
  opened : result.1 = .ok → result.2.filename = some name ∧
    (∃ created rest, notebookCreate machinery.engine outside.openHeap.alloc.2 = (some created, rest) ∧
      reopen machinery.engine machinery.validate created notebook = .ok result.2.notebook) ∧
    result.2.notebook.nextExecution = notebook.nextExecution ∧
    List.Forall₂ Cell.Reopened notebook.cells result.2.notebook.cells
  refused : result.1 ≠ .ok → result.2 = workspace
  undisturbed : ¬Faulty allowed → outside.openHeap.alloc.1 = true → ∀ created rest,
    notebookCreate machinery.engine outside.openHeap.alloc.2 = (some created, rest) →
      result.1 = .ok ∧ reopen machinery.engine machinery.validate created notebook = .ok result.2.notebook ∨
      reopen machinery.engine machinery.validate created notebook = .error result.1

theorem OpensTo.failed {status : Status} (bad : status ≠ .ok)
    (reason : Faulty allowed ∨ outside.openHeap.alloc.1 ≠ true) :
    OpensTo machinery allowed outside notebook name workspace (status, workspace) where
  opened := fun isOk => absurd isOk bad
  refused := fun _ => rfl
  undisturbed := fun quiet room => absurd reason (not_or.mpr ⟨quiet, not_not.mpr room⟩)

theorem opensTo_reading (savable : Savable machinery.engine notebook) (valid : storageNameValid name = true)
    (room : outside.openHeap.alloc.1 ≠ false) {size : Nat} (filled : size ≠ 0) {contents : Contents}
    (delivered : Delivers allowed (savedBytes machinery.engine notebook) (some size) contents) :
    OpensTo machinery allowed outside notebook name workspace
      (workspaceOpen machinery workspace name (outside.reading size contents)) := by
  have saved {created : Notebook Context Ref} {rest : Heap}
      (made : notebookCreate machinery.engine outside.openHeap.alloc.2 = (some created, rest)) :=
    deserialize_savedBytes machinery.size.wide savable made machinery.validate
  refine ⟨fun isOk => ?_, fun bad => ?_, fun quiet _ created rest made => ?_⟩
  · obtain ⟨read, named, opened, created, rest, made⟩ := workspaceOpen_ok machinery (Prod.ext isOk rfl)
    obtain rfl | ⟨failed, _⟩ := delivered
    · cases result : reopen machinery.engine machinery.validate created notebook with
      | error status => exact absurd (((saved made).2 status result).1.symm.trans opened) nofun
      | ok other =>
        have same := Option.some.inj (((saved made).1 other result).1.symm.trans opened)
        rw [same] at result
        exact ⟨named, ⟨created, rest, made, result⟩, reopen_reopened (notebookCreate_blank made).1 result⟩
    · exact absurd (read.symm.trans failed) nofun
  · exact ((workspaceOpen_cases machinery workspace name _).resolve_right fun other => bad other.1).2
  · obtain rfl := delivered.resolve_right fun failed => quiet failed.2
    have whole : outside.reading size (contentsOf (savedBytes machinery.engine notebook) (some size)) =
      { outside with readSize := .ok size, read := (.ok, savedBytes machinery.engine notebook) } := rfl
    unfold workspaceOpen copyFilename
    rw [whole, if_neg (Bool.not_eq_false _ ▸ valid)]
    dsimp only
    rw [if_neg filled, if_neg room, if_neg (not_not.mpr rfl)]
    cases result : reopen machinery.engine machinery.validate created notebook with
    | error status =>
      rw [((saved made).2 status result).1, ((saved made).2 status result).2]
      exact .inr rfl
    | ok other =>
      rw [((saved made).1 other result).1, ((saved made).1 other result).2, if_neg (Bool.not_eq_false _ ▸ valid)]
      exact .inl ⟨rfl, rfl⟩

theorem deviceOpen_safe (savable : Savable machinery.engine notebook) (valid : storageNameValid name = true)
    (there : disk.files name = some (savedBytes machinery.engine notebook)) {m : Machine} (now : m.disk = disk) :
    Program.Safe access allowed (·.disk = disk) (deviceOpen machinery workspace name outside)
      (fun result _ => OpensTo machinery allowed outside notebook name workspace result) m := by
  have small : (savedBytes machinery.engine notebook).length ≤ documentMaxBytes := savedBytes_length ▸ savable.fits
  have filled : 0 < (savedBytes machinery.engine notebook).length := by
    rw [savedBytes_length]
    exact Nat.add_pos_left (by decide) _
  unfold deviceOpen
  rw [if_neg (Bool.not_eq_false _ ▸ valid)]
  refine safe_seq (storageReadNotebook_safe valid there filled small nofun now) (fun _ => id) ?_
  rintro measured t now (rfl | ⟨failed, faulty⟩)
  swap
  · have bad : measured.1 ≠ .invalidArgument ∧ measured.1 ≠ .ok := by rw [failed]; decide
    rw [if_pos (.inl bad.1)]
    exact ⟨now, .failed machinery bad.2 (.inl faulty)⟩
  rw [if_neg (fun empty => empty.elim (fun other => other rfl) filled.ne')]
  split_ifs with full
  · exact ⟨now, .failed machinery (by decide) (.inr (full ▸ nofun))⟩
  · refine safe_seq (storageReadNotebook_safe valid there filled small (by rintro _ ⟨⟩; rfl) now) (fun _ => id) ?_
    exact fun _ _ now delivered => ⟨now, opensTo_reading machinery savable valid full filled.ne' delivered⟩

theorem workspaceSave_writes {name : Option FileName} {saved : Workspace Context Ref}
    (returned : workspaceSave machinery workspace name outside = (.ok, saved)) : outside.write = .ok := by
  unfold workspaceSave at returned
  split at returned
  · cases returned
  split at returned
  · cases returned
  split at returned
  · exact absurd (congrArg Prod.fst returned) (requiredFrom_error ‹_›)
  split at returned
  · cases returned
  split at returned
  · exact absurd (congrArg Prod.fst returned) (serialize_error ‹_›)
  split at returned
  · exact absurd (congrArg Prod.fst returned) ‹_›
  · exact not_not.mp ‹_›

/-- A notebook that was saved opens again. Whatever fails then, the disk stays as it is, and a workspace that gets
no notebook keeps its own; when nothing fails, the saved cells are read again. -/
theorem saved_notebook_opens {saved current : Workspace Context Ref} {given : Option FileName} {reading : Outside}
    (savable : Savable machinery.engine workspace.notebook)
    (returned : workspaceSave machinery workspace given outside = (.ok, saved)) {device : Device}
    (consistent : device.Sound) {answers : List Fault}
    (spares : device.Spares (writing machinery workspace name answers))
    (wrote : (device.ending (writing machinery workspace name answers)).1 = some outside.write) (faults : List Fault) :
    ((deviceOpen machinery current name reading).ending access faults
      ⟨(device.after (writing machinery workspace name answers)).disk, []⟩).2.disk =
        (device.after (writing machinery workspace name answers)).disk ∧
    ∀ result, ((deviceOpen machinery current name reading).ending access faults
      ⟨(device.after (writing machinery workspace name answers)).disk, []⟩).1 = some result →
      OpensTo machinery (fun _ _ fault => fault ∈ faults) reading workspace.notebook name current result := by
  rw [workspaceSave_writes machinery returned] at wrote
  have written := ((Device.save_keeps consistent spares).1.success wrote).2
  have valid := (Device.made_given (.inl wrote)).1
  have buffer : (writing machinery workspace name answers).buffer =
      some (savedBytes machinery.engine workspace.notebook) := by
    unfold writing documentRequiredSize
    rw [requiredFrom_eq savable.sound.texts savable.fits]
    exact congrArg Except.toOption (savable.serialize le_rfl)
  rw [buffer] at written
  exact Program.ending_good (deviceOpen_safe machinery savable valid written (m := ⟨_, []⟩) rfl)
    (Program.meets_of_all fun fault member _ _ => member)

def grantingOutside : Outside :=
  { emptyOutside with write := .ok, openHeap := ⟨fun _ => true, 0⟩, saveHeap := ⟨fun _ => true, 0⟩ }

def shortSave : Save := writing listMachinery ⟨shortNotebook, none⟩ (leaf "a.tns") (List.replicate 20 .works)

theorem saved_notebook_opens_short :
    ∃ result, ((deviceOpen listMachinery ⟨shortNotebook, none⟩ (leaf "a.tns") grantingOutside).ending access
        (List.replicate 10 .works) ⟨((Device.boot noDocuments).after shortSave).disk, []⟩).1 = some result ∧
      List.Forall₂ Cell.Reopened shortNotebook.cells result.2.notebook.cells := by
  have saved : (workspaceSave listMachinery ⟨shortNotebook, none⟩ (some (leaf "a.tns")) grantingOutside).1 = .ok := by
    decide +kernel
  have blank (name : FileName) : (Device.boot noDocuments).saved name = none :=
    (ite_self none : (if storageNameValid name then none else none) = (none : Option Bytes))
  have spares : (Device.boot noDocuments).Spares shortSave :=
    Device.spares_of_blank blank fun _ member => List.eq_of_mem_replicate member
  have wrote : ((Device.boot noDocuments).ending shortSave).1 = some grantingOutside.write := by decide +kernel
  have opened : ((deviceOpen listMachinery ⟨shortNotebook, none⟩ (leaf "a.tns") grantingOutside).ending access
      (List.replicate 10 .works) ⟨((Device.boot noDocuments).after shortSave).disk, []⟩).1.map Prod.fst = some .ok := by
    decide +kernel
  obtain ⟨result, returned, isOk⟩ := Option.map_eq_some_iff.mp opened
  have opens := (@saved_notebook_opens _ _ _ listMachinery _ ⟨shortNotebook, none⟩ _ _ _ _ _ shortNotebook_savable
    (Prod.ext saved rfl) _ (Device.boot_sound noDocuments) _ spares wrote _).2 result returned
  exact ⟨result, returned, (opens.opened isOk).2.2.2⟩

end PhyNspire.App

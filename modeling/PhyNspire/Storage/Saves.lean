import PhyNspire.Storage.Transfers

/-!
One save, from any disk. `Spared` says which answers of the world a save survives; under it no
moment of a save is without the last saved bytes of any document.
-/

namespace PhyNspire.Storage

open PhyNspire.Platform PhyNspire.Lib.Interrupts Program

/-- The bytes each document was last saved with. -/
abbrev Ledger := FileName → Option Bytes

/-- The bytes are somewhere a reader can find them. -/
def Disk.Present (disk : Disk) (name : FileName) (bytes : Bytes) : Prop :=
  disk.files name = some bytes ∨ disk.files temporaryName = some bytes ∨ disk.files backupName = some bytes

instance (disk : Disk) (name : FileName) (bytes : Bytes) : Decidable (disk.Present name bytes) :=
  inferInstanceAs (Decidable (_ ∨ _ ∨ _))

/-- What a step of a save must be spared.
* The open that looks for a previous document does not fail when there is one.
* A replacement does not begin, which deletes the working files, while the last saved bytes of
  some document are in a working file only.
* When the backup could not be renamed back, copying it back does not fail as well. -/
structure Spared (saved : Ledger) (name : FileName) (m : Machine) (op : Operation) (fault : Fault) : Prop where
  probe : op = .openReading name → (∀ event ∈ m.log, event.1 ≠ .openReading name) →
    (m.disk.files name).isSome = true → fault = .works
  leftovers : op = .remove temporaryName ∨ op = .remove backupName →
    (∀ event ∈ m.log, ∀ path, event.1 ≠ .openWriting path) →
    ∀ other bytes, saved other = some bytes → m.disk.files other = some bytes
  wayBack : (∃ failed, failed ≠ .works ∧ (.rename backupName name, failed) ∈ m.log) →
    (∃ path, op = .remove path) ∨ fault = .works

/-- The later machine differs from the earlier one in the document and the working files at most. -/
structure Around (name : FileName) (earlier later : Machine) : Prop where
  files : ∀ other, other ≠ name → other ≠ temporaryName → other ≠ backupName →
    later.disk.files other = earlier.disk.files other
  notebooks : earlier.disk.notebooks = true → later.disk.notebooks = true
  log : ∀ event ∈ earlier.log, event ∈ later.log

theorem Around.refl (name : FileName) (m : Machine) : Around name m m :=
  ⟨fun _ _ _ _ => rfl, id, fun _ => id⟩

variable {a b : Machine}

theorem Around.trans {name : FileName} {c : Machine} (first : Around name a b) (second : Around name b c) :
    Around name a c where
  files := fun other apart apart' apart'' =>
    (second.files other apart apart' apart'').trans (first.files other apart apart' apart'')
  notebooks := fun there => second.notebooks (first.notebooks there)
  log := fun event member => second.log event (first.log event member)

theorem Beside.around {name path : FileName} (beside : Beside path a b)
    (known : path = name ∨ path = temporaryName ∨ path = backupName) : Around name a b where
  files := by
    intro other apart apart' apart''
    refine beside.files other ?_
    rintro rfl
    obtain same | same | same := known
    · exact apart same
    · exact apart' same
    · exact apart'' same
  notebooks := beside.notebooks
  log := beside.log

theorem Unchanged.around {name : FileName} (same : Unchanged a b) : Around name a b :=
  Beside.around same.beside (Or.inl rfl)

variable {source destination : FileName}

theorem rename_cases {content : Bytes} (fault : Fault) (m : Machine)
    (there : m.disk.files source = some content) (apart : source ≠ destination) :
    ((perform (.rename source destination) fault m).1.ok = true ∧
      (perform (.rename source destination) fault m).2.disk.files source = none ∧
      (perform (.rename source destination) fault m).2.disk.files destination = some content) ∨
    ((perform (.rename source destination) fault m).1.ok = false ∧ fault ≠ .works ∧
      (perform (.rename source destination) fault m).2.disk = m.disk) := by
  cases fault with
  | fails kept => exact Or.inr ⟨rfl, nofun, rfl⟩
  | short kept => exact Or.inr ⟨rfl, nofun, rfl⟩
  | works =>
    refine Or.inl ?_
    simp only [perform, Operation.working, there, Option.isSome_some, if_true, plain, Disk.put_same, true_and, and_true]
    rw [Disk.put_other apart, Disk.put_same]

theorem rename_others (fault : Fault) (m : Machine) : (∀ other, other ≠ source → other ≠ destination →
      (perform (.rename source destination) fault m).2.disk.files other = m.disk.files other) ∧
    (perform (.rename source destination) fault m).2.disk.notebooks = m.disk.notebooks := by
  cases fault with
  | fails kept => exact ⟨fun _ _ _ => rfl, rfl⟩
  | short kept => exact ⟨fun _ _ _ => rfl, rfl⟩
  | works =>
    simp only [perform, Operation.working]
    split_ifs
    · refine ⟨?_, rfl⟩
      intro other apart apart'
      rw [Disk.put_other apart', Disk.put_other apart]
    · exact ⟨fun _ _ _ => rfl, rfl⟩

theorem rename_around {name : FileName} (fault : Fault) (m : Machine)
    (known : source = name ∨ source = temporaryName ∨ source = backupName)
    (known' : destination = name ∨ destination = temporaryName ∨ destination = backupName) :
    Around name m (perform (.rename source destination) fault m).2 where
  files := by
    intro other apart apart' apart''
    refine (rename_others fault m).1 other ?_ ?_
    · rintro rfl
      obtain same | same | same := known
      · exact apart same
      · exact apart' same
      · exact apart'' same
    · rintro rfl
      obtain same | same | same := known'
      · exact apart same
      · exact apart' same
      · exact apart'' same
  notebooks := fun there => by rw [(rename_others fault m).2]; exact there
  log := perform_log _ _ _

theorem temporaryName_ne_backupName : temporaryName ≠ backupName := by decide

section

variable {saved : Ledger} {name : FileName} {buffer old : Bytes}

/-- Every moment of a save: each document's last saved bytes are present, where the bytes being
saved count as soon as they stand in full under their name. -/
def Kept (saved : Ledger) (name : FileName) (buffer : Bytes) (m : Machine) : Prop :=
  ∀ other bytes, saved other = some bytes →
    m.disk.Present other bytes ∨ (other = name ∧ m.disk.files name = some buffer)

/-- The documents are the last saved ones, but for the one being replaced, which was `old`. -/
structure Guarded (name : FileName) (buffer old : Bytes) (start m : Machine) : Prop where
  around : Around name start m
  own : m.disk.files name = some old ∨ m.disk.files backupName = some old ∨ m.disk.files name = some buffer

structure Backed (name : FileName) (old : Bytes) (start m : Machine) : Prop where
  around : Around name start m
  backup : m.disk.files backupName = some old

variable {start m : Machine}

theorem Backed.guarded (backed : Backed name old start m) : Guarded name buffer old start m :=
  ⟨backed.around, Or.inr (Or.inl backed.backup)⟩

/-- The working files are no documents. -/
def Documents (saved : Ledger) : Prop :=
  ∀ other bytes, saved other = some bytes → other ≠ temporaryName ∧ other ≠ backupName

theorem Guarded.kept (guarded : Guarded name buffer old start m) (documents : Documents saved)
    (settled : ∀ other bytes, saved other = some bytes → start.disk.files other = some bytes)
    (previous : start.disk.files name = some old) : Kept saved name buffer m := by
  intro other bytes held
  have there := settled other bytes held
  by_cases same : other = name
  · subst same
    rw [previous, Option.some.injEq] at there
    subst there
    obtain own | inBackup | new := guarded.own
    · exact Or.inl (Or.inl own)
    · exact Or.inl (Or.inr (Or.inr inBackup))
    · exact Or.inr ⟨rfl, new⟩
  · obtain ⟨apart, apart'⟩ := documents other bytes held
    exact Or.inl (Or.inl (by rw [guarded.around.files other same apart apart']; exact there))

variable {allowed : Machine → Operation → Fault → Prop}

theorem setAside_safe
    (valid : storageNameValid name = true) (around : Around name start m) (own : m.disk.files name = some old) :
    Safe perform allowed (Guarded name buffer old start) (setAside name)
      (fun ready t => t.disk.files temporaryName = m.disk.files temporaryName ∧
        (ready = true → Backed name old start t) ∧
        (ready = false → Around name start t ∧ t.disk.files name = some old)) m := by
  obtain ⟨apart, apart'⟩ := storageNameValid_apart valid
  refine safe_bind (safe_call ⟨around, Or.inl own⟩ ?_)
  intro fault _
  have step := around.trans (rename_around fault m (Or.inl rfl) (Or.inr (Or.inr rfl)))
  have staged : (perform (.rename name backupName) fault m).2.disk.files temporaryName = m.disk.files temporaryName :=
    (rename_others fault m).1 temporaryName apart.symm temporaryName_ne_backupName
  obtain ⟨moved, gone, there⟩ | ⟨failed, _, still⟩ := rename_cases fault m own apart'
  · refine ⟨⟨step, Or.inr (Or.inl there)⟩, ?_⟩
    rw [if_pos moved]
    exact safe_pure ⟨step, Or.inr (Or.inl there)⟩ ⟨staged, fun _ => ⟨step, there⟩, nofun⟩
  · have own' : (perform (.rename name backupName) fault m).2.disk.files name = some old := by rw [still, own]
    refine ⟨⟨step, Or.inl own'⟩, ?_⟩
    rw [if_neg (by rw [failed]; exact Bool.false_ne_true)]
    refine safe_mono (copyFileVerified_safe apart' _ (Beside.refl backupName _)) ?_ ?_
    · intro t beside
      exact ⟨step.trans (beside.around (Or.inr (Or.inr rfl))), Or.inl (by rw [beside.files name apart', own'])⟩
    · intro copied t beside held
      have aroundT := step.trans (beside.around (Or.inr (Or.inr rfl)))
      refine ⟨?_, ?_, fun _ => ⟨aroundT, by rw [beside.files name apart', own']⟩⟩
      · rw [beside.files _ temporaryName_ne_backupName, staged]
      · intro isCopied
        exact ⟨aroundT, by rw [(held.1 isCopied).1, own']⟩

theorem rewrite_safe (valid : storageNameValid name = true) (backed : Backed name old start m) :
    Safe perform allowed (Backed name old start)
      (do
        let status ← writeVerified name buffer
        pure (decide (status = .ok)))
      (fun installed t => installed = true → t.disk.files name = some buffer) m := by
  obtain ⟨apart, apart'⟩ := storageNameValid_apart valid
  have backedBeside (t : Machine) (beside : Beside name m t) : Backed name old start t :=
    ⟨backed.around.trans (beside.around (Or.inl rfl)), by rw [beside.files _ apart'.symm, backed.backup]⟩
  refine safe_seq (writeVerified_safe name buffer m (Beside.refl name m)) backedBeside ?_
  intro status t beside complete
  refine safe_pure (backedBeside t beside) ?_
  intro isOk
  exact complete (of_decide_eq_true isOk)

theorem install_safe (valid : storageNameValid name = true) (backed : Backed name old start m)
    (staged : m.disk.files temporaryName = some buffer) :
    Safe perform allowed (Backed name old start) (install name buffer)
      (fun installed t => installed = true → t.disk.files name = some buffer) m := by
  obtain ⟨apart, apart'⟩ := storageNameValid_apart valid
  refine safe_bind (safe_bind (safe_call backed ?_))
  intro fault _
  have step := backed.around.trans (rename_around fault m (Or.inr (Or.inl rfl)) (Or.inl rfl))
  have still : (perform (.rename temporaryName name) fault m).2.disk.files backupName = some old := by
    rw [(rename_others fault m).1 backupName temporaryName_ne_backupName.symm apart'.symm, backed.backup]
  have backed' : Backed name old start (perform (.rename temporaryName name) fault m).2 := ⟨step, still⟩
  refine ⟨backed', ?_⟩
  obtain ⟨moved, _, there⟩ | ⟨failed, _, _⟩ := rename_cases fault m staged apart.symm
  · rw [if_pos moved]
    refine safe_mono (fileMatchesBuffer_safe name buffer _ (Unchanged.refl _)) ?_ ?_
    · intro t unchanged
      exact ⟨step.trans unchanged.around, by rw [unchanged.disk, still]⟩
    · intro matched t unchanged _
      have backedT : Backed name old start t := ⟨step.trans unchanged.around, by rw [unchanged.disk, still]⟩
      cases matched with
      | true => exact safe_pure backedT (fun _ => by rw [unchanged.disk, there])
      | false => exact rewrite_safe valid backedT
  · rw [if_neg (by rw [failed]; exact Bool.false_ne_true)]
    exact safe_pure backed' (rewrite_safe valid backed')

theorem restore_safe (valid : storageNameValid name = true) (backed : Backed name old start m)
    (folder : start.disk.notebooks = true) :
    Safe perform (Spared saved name) (Guarded name buffer old start) (restore name)
      (fun _ t => t.disk.files name = some old) m := by
  obtain ⟨apart, apart'⟩ := storageNameValid_apart valid
  refine safe_bind (safe_call backed.guarded ?_)
  intro fault _
  have beside := perform_beside (show Operation.Only name (.remove name) from rfl) fault m
  have backed' : Backed name old start (perform (.remove name) fault m).2 :=
    ⟨backed.around.trans (beside.around (Or.inl rfl)), by rw [beside.files backupName apart'.symm, backed.backup]⟩
  generalize (perform (.remove name) fault m).2 = u at backed'
  refine ⟨backed'.guarded, safe_bind (safe_call backed'.guarded ?_)⟩
  intro fault' _
  have step := backed'.around.trans (rename_around fault' u (Or.inr (Or.inr rfl)) (Or.inl rfl))
  obtain ⟨moved, _, there⟩ | ⟨failed, refused, still⟩ := rename_cases fault' u backed'.backup apart'.symm
  · refine ⟨⟨step, Or.inl there⟩, ?_⟩
    rw [if_pos moved]
    exact safe_pure ⟨step, Or.inl there⟩ there
  · have backup : (perform (.rename backupName name) fault' u).2.disk.files backupName = some old := by
      rw [still, backed'.backup]
    refine ⟨⟨step, Or.inr (Or.inl backup)⟩, ?_⟩
    rw [if_neg (by rw [failed]; exact Bool.false_ne_true)]
    have logged : (.rename backupName name, fault') ∈ (perform (.rename backupName name) fault' u).2.log :=
      List.mem_append_right _ (List.mem_singleton.mpr rfl)
    have reliable : Reliable (Spared saved name) (perform (.rename backupName name) fault' u).2 :=
      fun later op answer grown spared => spared.wayBack ⟨fault', refused, grown _ logged⟩
    refine safe_seq (copyFileVerified_safe apart'.symm _ (Beside.refl name _)) ?_ ?_
    · intro t beside
      exact ⟨step.trans (beside.around (Or.inl rfl)), Or.inr (Or.inl (by rw [beside.files _ apart'.symm, backup]))⟩
    · intro copied t beside held
      have isCopied := held.2 reliable (step.notebooks folder) (by rw [backup]; rfl)
      have there : t.disk.files name = some old := by rw [(held.1 isCopied).1, backup]
      have around := step.trans (beside.around (Or.inl rfl))
      rw [if_pos isCopied]
      refine safe_bind (safe_call ⟨around, Or.inl there⟩ ?_)
      intro answer _
      have last := perform_beside (show Operation.Only backupName (.remove backupName) from rfl) answer t
      have there' : (perform (.remove backupName) answer t).2.disk.files name = some old := by
        rw [last.files name apart', there]
      have around' := around.trans (last.around (Or.inr (Or.inr rfl)))
      exact ⟨⟨around', Or.inl there'⟩, safe_pure ⟨around', Or.inl there'⟩ there'⟩

theorem removal_safe {path : FileName} {content : Bytes} {good : Answer → Machine → Prop} (around : Around name start m)
    (working : path = temporaryName ∨ path = backupName) (valid : storageNameValid name = true)
    (own : m.disk.files name = some content) (settled : content = old ∨ content = buffer)
    (then_ : ∀ answer t, Around name start t → t.disk.files name = some content → good answer t) :
    Safe perform allowed (Guarded name buffer old start) (call (.remove path)) good m := by
  have guarded (t : Machine) (around : Around name start t) (own : t.disk.files name = some content) :
      Guarded name buffer old start t := by
    refine ⟨around, ?_⟩
    obtain rfl | rfl := settled
    · exact Or.inl own
    · exact Or.inr (Or.inr own)
  have apart : name ≠ path := by
    obtain rfl | rfl := working
    · exact (storageNameValid_apart valid).1
    · exact (storageNameValid_apart valid).2
  refine safe_call (guarded m around own) ?_
  intro fault _
  have beside := perform_beside (show Operation.Only path (.remove path) from rfl) fault m
  have around' := around.trans (beside.around (Or.inr working))
  have own' : (perform (.remove path) fault m).2.disk.files name = some content := by
    rw [beside.files name apart, own]
  exact ⟨guarded _ around' own', then_ _ _ around' own'⟩

theorem exchange_safe (valid : storageNameValid name = true) (backed : Backed name old start m)
    (staged : m.disk.files temporaryName = some buffer) (folder : start.disk.notebooks = true) :
    Safe perform (Spared saved name) (Guarded name buffer old start) (exchange name buffer)
      (fun status t => Around name start t ∧ (status = .ok → t.disk.files name = some buffer) ∧
        (status ≠ .ok → t.disk.files name = some old)) m := by
  refine safe_seq (install_safe valid backed staged) (fun _ => Backed.guarded) ?_
  intro installed t backedT complete
  cases installed with
  | true =>
    rw [if_pos rfl]
    refine safe_bind (removal_safe backedT.around (Or.inl rfl) valid (complete rfl) (Or.inr rfl) ?_)
    intro _ u around own
    refine safe_bind (removal_safe around (Or.inr rfl) valid own (Or.inr rfl) ?_)
    intro _ v around own
    exact safe_pure ⟨around, Or.inr (Or.inr own)⟩ ⟨around, fun _ => own, fun other => absurd rfl other⟩
  | false =>
    rw [if_neg Bool.false_ne_true]
    refine safe_seq (restore_safe valid backedT folder) (fun _ => id) ?_
    intro _ u guarded own
    refine safe_bind (removal_safe guarded.around (Or.inl rfl) valid own (Or.inl rfl) ?_)
    intro _ v around own
    exact safe_pure ⟨around, Or.inl own⟩ ⟨around, nofun, fun _ => own⟩

theorem saveOver_guarded (valid : storageNameValid name = true)
    (previous : start.disk.files name = some old) (folder : start.disk.notebooks = true) :
    Safe perform (Spared saved name) (Guarded name buffer old start) (saveOver name buffer)
      (fun status t => Around name start t ∧ (status = .ok → t.disk.files name = some buffer) ∧
        (status ≠ .ok → t.disk.files name = some old)) start := by
  obtain ⟨apart, apart'⟩ := storageNameValid_apart valid
  refine safe_bind (removal_safe (Around.refl name start) (Or.inl rfl) valid previous (Or.inl rfl) ?_)
  intro _ t around own
  refine safe_bind (removal_safe around (Or.inr rfl) valid own (Or.inl rfl) ?_)
  intro _ u around own
  refine safe_seq (writeVerified_safe temporaryName buffer u (Beside.refl _ u)) ?_ ?_
  · intro v beside
    exact ⟨around.trans (beside.around (Or.inr (Or.inl rfl))), Or.inl (by rw [beside.files name apart, own])⟩
  · intro status v beside staged
    have around' := around.trans (beside.around (Or.inr (Or.inl rfl)))
    have own' : v.disk.files name = some old := by rw [beside.files name apart, own]
    split_ifs with isOk
    · refine safe_seq (setAside_safe valid around' own') (fun _ => id) ?_
      intro ready w _ result
      obtain ⟨kept, yes, no⟩ := result
      cases ready with
      | true =>
        rw [if_pos rfl]
        exact exchange_safe valid (yes rfl) (by rw [kept, staged isOk]) folder
      | false =>
        rw [if_neg Bool.false_ne_true]
        refine safe_bind (removal_safe (no rfl).1 (Or.inl rfl) valid (no rfl).2 (Or.inl rfl) ?_)
        intro _ x around own
        exact safe_pure ⟨around, Or.inl own⟩ ⟨around, nofun, fun _ => own⟩
    · exact safe_pure ⟨around', Or.inl own'⟩ ⟨around', fun same => absurd same isOk, fun _ => own'⟩

/-- The directory is in order, and nothing but that was looked at. -/
structure Prepared (start m : Machine) : Prop where
  files : m.disk.files = start.disk.files
  log : ∀ event ∈ m.log, (∃ folder, event.1 = .opendir folder) ∨ event.1 = .closedir ∨ ∃ folder, event.1 = .mkdir folder

theorem Prepared.unread (prepared : Prepared start m) :
    ∀ event ∈ m.log, (∀ path, event.1 ≠ .openReading path) ∧ ∀ path, event.1 ≠ .openWriting path := by
  intro event member
  obtain ⟨_, same⟩ | same | ⟨_, same⟩ := prepared.log event member
  · rw [same]
    exact ⟨nofun, nofun⟩
  · rw [same]
    exact ⟨nofun, nofun⟩
  · rw [same]
    exact ⟨nofun, nofun⟩

def Operation.Looks : Operation → Prop
  | opendir _ => True
  | closedir => True
  | mkdir _ => True
  | _ => False

theorem looking_safe {op : Operation} {good : Answer → Machine → Prop} (looks : op.Looks) (so_far : Prepared start m)
    (then_ : ∀ fault, Prepared start (perform op fault m).2 →
      good (perform op fault m).1 (perform op fault m).2) :
    Safe perform allowed (Prepared start) (call op) good m := by
  refine safe_call so_far ?_
  intro fault _
  have prepared : Prepared start (perform op fault m).2 := by
    refine ⟨?_, ?_⟩
    · rw [← so_far.files]
      cases op <;> cases fault <;> first | exact looks.elim | exact Disk.create_files _ _ | rfl
    · intro event member
      obtain before | last := List.mem_append.mp member
      · exact so_far.log event before
      · rw [List.mem_singleton.mp last]
        cases op with
        | opendir folder => exact Or.inl ⟨folder, rfl⟩
        | closedir => exact Or.inr (Or.inl rfl)
        | mkdir folder => exact Or.inr (Or.inr ⟨folder, rfl⟩)
        | _ => exact looks.elim
  exact ⟨prepared, then_ fault prepared⟩

theorem directoryExists_safe (folder : Folder) (so_far : Prepared start m) :
    Safe perform allowed (Prepared start) (directoryExists folder)
      (fun present t => present = true → t.disk.holds folder = true) m := by
  refine safe_bind (looking_safe trivial so_far ?_)
  intro fault prepared
  split_ifs with opened
  · have there : m.disk.holds folder = true := by
      cases fault with
      | works => exact opened
      | fails kept => cases opened
      | short kept => cases opened
    refine safe_bind (looking_safe trivial prepared ?_)
    intro fault' prepared
    refine safe_pure prepared (fun _ => ?_)
    cases fault <;> cases fault' <;> exact there
  · exact safe_pure prepared nofun

theorem makeUnlessPresent_safe (folder : Folder) (so_far : Prepared start m) :
    Safe perform allowed (Prepared start) (makeUnlessPresent folder) (fun _ _ => True) m := by
  refine safe_seq (directoryExists_safe folder so_far) (fun _ => id) ?_
  intro present t prepared _
  split_ifs
  · exact safe_pure prepared trivial
  · refine safe_bind (looking_safe trivial prepared ?_)
    intro _ prepared
    exact safe_pure prepared trivial

theorem ensureNotebookDirectory_safe (so_far : Prepared start m) :
    Safe perform allowed (Prepared start) ensureNotebookDirectory
      (fun status t => status = .ok → t.disk.notebooks = true) m := by
  refine safe_seq (makeUnlessPresent_safe .parent so_far) (fun _ => id) ?_
  intro _ t prepared _
  refine safe_seq (makeUnlessPresent_safe .notebooks prepared) (fun _ => id) ?_
  intro _ u prepared _
  refine safe_seq (directoryExists_safe .notebooks prepared) (fun _ => id) ?_
  intro present v prepared held
  refine safe_pure prepared ?_
  split_ifs with isPresent
  · exact fun _ => held isPresent
  · exact nofun

structure Ended (saved : Ledger) (name : FileName) (buffer : Bytes) (start : Machine) (status : Status)
    (m : Machine) : Prop where
  success : status = .ok → m.disk.files name = some buffer
  failure : status ≠ .ok → (∀ bytes, start.disk.files name = some bytes → m.disk.files name = some bytes) ∧
    ∀ other bytes, saved other = some bytes → m.disk.Present other bytes

theorem saveFirst_safe (valid : storageNameValid name = true) (absent : start.disk.files name = none)
    (present : ∀ other bytes, saved other = some bytes → start.disk.Present other bytes) :
    Safe perform allowed (Kept saved name buffer) (saveFirst name buffer) (Ended saved name buffer start) start := by
  obtain ⟨apart, apart'⟩ := storageNameValid_apart valid
  have stays (t : Machine) (beside : Beside name start t) (other : FileName) (bytes : Bytes)
      (held : saved other = some bytes) : t.disk.Present other bytes := by
    obtain own | inTemporary | inBackup := present other bytes held
    · refine Or.inl ?_
      rw [beside.files other ?_, own]
      rintro rfl
      rw [absent] at own
      cases own
    · exact Or.inr (Or.inl (by rw [beside.files _ apart.symm, inTemporary]))
    · exact Or.inr (Or.inr (by rw [beside.files _ apart'.symm, inBackup]))
  have kept (t : Machine) (beside : Beside name start t) : Kept saved name buffer t :=
    fun other bytes held => Or.inl (stays t beside other bytes held)
  have nothing (t : Machine) : ∀ bytes, start.disk.files name = some bytes → t.disk.files name = some bytes := by
    intro bytes there
    rw [absent] at there
    cases there
  refine safe_seq (writeVerified_safe name buffer start (Beside.refl name start)) kept ?_
  intro status t beside complete
  split_ifs with isOk
  · exact safe_pure (kept t beside) ⟨fun _ => complete isOk, fun other => absurd rfl other⟩
  · refine safe_bind (safe_call (kept t beside) ?_)
    intro fault _
    have beside' := beside.trans (perform_beside (show Operation.Only name (.remove name) from rfl) fault t)
    exact ⟨kept _ beside', safe_pure (kept _ beside')
      ⟨fun same => absurd same isOk, fun _ => ⟨nothing _, stays _ beside'⟩⟩⟩

theorem saveOver_safe (valid : storageNameValid name = true)
    (previous : start.disk.files name = some old) (folder : start.disk.notebooks = true)
    (documents : Documents saved) (now : Kept saved name buffer start)
    (fresh : ∀ event ∈ start.log, ∀ path, event.1 ≠ .openWriting path) :
    Safe perform (Spared saved name) (Kept saved name buffer) (saveOver name buffer)
      (Ended saved name buffer start) start := by
  refine safe_of_first now ?_
  intro fault spared
  have settled := spared.leftovers (Or.inl rfl) fresh
  refine safe_mono (saveOver_guarded valid previous folder)
    (fun t guarded => guarded.kept documents settled previous) ?_
  intro status t _ ends
  obtain ⟨around, success, failure⟩ := ends
  refine ⟨success, ?_⟩
  intro failed
  have own := failure failed
  refine ⟨fun bytes there => by rw [own, ← previous, there], ?_⟩
  intro other bytes held
  have there := settled other bytes held
  refine Or.inl ?_
  by_cases same : other = name
  · rw [same, own, ← previous, ← same, there]
  · obtain ⟨apart, apart'⟩ := documents other bytes held
    rw [around.files other same apart apart', there]

theorem saveTo_safe (valid : storageNameValid name = true) (prepared : Prepared start m)
    (folder : m.disk.notebooks = true) (documents : Documents saved)
    (present : ∀ other bytes, saved other = some bytes → start.disk.Present other bytes) :
    Safe perform (Spared saved name) (Kept saved name buffer) (saveTo name buffer)
      (Ended saved name buffer start) m := by
  have kept (t : Machine) (same : t.disk.files = start.disk.files) : Kept saved name buffer t := by
    intro other bytes held
    refine Or.inl ?_
    unfold Disk.Present
    rw [same]
    exact present other bytes held
  have ended (t : Machine) (same : t.disk.files = start.disk.files) (status : Status) (u : Machine)
      (ends : Ended saved name buffer t status u) : Ended saved name buffer start status u := by
    refine ⟨ends.success, ?_⟩
    rw [← same]
    exact ends.failure
  refine safe_bind (safe_bind (safe_call (kept m prepared.files) ?_))
  intro fault spared
  have unchanged := perform_unchanged (show Operation.Reads (.openReading name) from trivial) fault m
  have still : (perform (.openReading name) fault m).2.disk.files = start.disk.files := by
    rw [unchanged.disk, prepared.files]
  refine ⟨kept _ still, ?_⟩
  split_ifs with opened
  · have there := openReading_content opened
    refine safe_bind (safe_call (kept _ still) ?_)
    intro fault' _
    have unchanged' := unchanged.trans (perform_unchanged (show Operation.Reads .closeReading from trivial) fault'
      (perform (.openReading name) fault m).2)
    have still' : (perform .closeReading fault' (perform (.openReading name) fault m).2).2.disk.files =
        start.disk.files := by rw [unchanged'.disk, prepared.files]
    refine ⟨kept _ still', safe_pure (kept _ still') ?_⟩
    rw [if_pos rfl]
    have previous : (perform .closeReading fault' (perform (.openReading name) fault m).2).2.disk.files name =
        some (perform (.openReading name) fault m).1.bytes := by rw [unchanged'.disk, there]
    refine safe_mono (saveOver_safe valid previous (by rw [unchanged'.disk, folder]) documents (kept _ still') ?_)
      (fun _ => id) (fun status u _ => ended _ still' status u)
    intro event member path
    rcases List.mem_append.mp member with earlier | last
    · rcases List.mem_append.mp earlier with before | first
      · exact (prepared.unread event before).2 path
      · rw [List.mem_singleton.mp first]; exact nofun
    · rw [List.mem_singleton.mp last]; exact nofun
  · -- the document is really absent: the open that looked for it was not allowed to fail otherwise
    have absent : m.disk.files name = none := by
      cases there : m.disk.files name with
      | none => rfl
      | some bytes =>
        have works := spared.probe rfl ?_ (by rw [there]; rfl)
        · rw [works] at opened
          simp only [perform, Operation.working, there, Option.isSome_some, not_true] at opened
        · exact fun event member => (prepared.unread event member).1 name
    refine safe_pure (kept _ still) ?_
    rw [if_neg Bool.false_ne_true]
    refine safe_mono (saveFirst_safe valid ?_ ?_) (fun _ => id) (fun status u _ => ended _ still status u)
    · rw [unchanged.disk, absent]
    · intro other bytes held
      unfold Disk.Present
      rw [still]
      exact present other bytes held

theorem makePath_valid (valid : storageNameValid name = true) : makePath name = some name := by
  have short := storageNameValid_length valid
  have directory : notebookDirectory.length = 31 := by decide
  unfold makePath
  rw [if_neg]
  rw [directory]
  simp only [storagePathCapacity, nameCapacity] at short ⊢
  omega

theorem writeNotebookAtomic_safe (saved : Ledger) (name : FileName) (buffer : Option Bytes) {disk : Disk}
    (documents : Documents saved) (present : ∀ other bytes, saved other = some bytes → disk.Present other bytes) :
    Safe perform (Spared saved name) (Kept saved name (buffer.getD [])) (writeNotebookAtomic name buffer)
      (Ended saved name (buffer.getD []) ⟨disk, []⟩) ⟨disk, []⟩ := by
  have idle (t : Machine) (prepared : Prepared ⟨disk, []⟩ t) : Kept saved name (buffer.getD []) t := by
    intro other bytes held
    refine Or.inl ?_
    unfold Disk.Present
    rw [prepared.files]
    exact present other bytes held
  have refused (status : Status) (bad : status ≠ .ok) (t : Machine) (prepared : Prepared ⟨disk, []⟩ t) :
      Ended saved name (buffer.getD []) ⟨disk, []⟩ status t := by
    refine ⟨fun same => absurd same bad, fun _ => ⟨fun bytes there => by rw [prepared.files, there], ?_⟩⟩
    intro other bytes held
    unfold Disk.Present
    rw [prepared.files]
    exact present other bytes held
  have begun : Prepared ⟨disk, []⟩ ⟨disk, []⟩ := ⟨rfl, nofun⟩
  cases buffer with
  | none => exact safe_pure (idle _ begun) (refused .invalidArgument (by decide) _ begun)
  | some bytes =>
    rw [writeNotebookAtomic]
    split_ifs with shape large
    · exact safe_pure (idle _ begun) (refused .invalidArgument (by decide) _ begun)
    · exact safe_pure (idle _ begun) (refused .termLimit (by decide) _ begun)
    · rw [not_or, Bool.not_eq_false] at shape
      refine safe_seq (ensureNotebookDirectory_safe begun) idle ?_
      intro status t prepared folder
      split_ifs with isOk
      · rw [makePath_valid shape.1]
        exact saveTo_safe shape.1 prepared (folder isOk) documents present
      · exact safe_pure (idle t prepared) (refused status isOk t prepared)

end

end PhyNspire.Storage

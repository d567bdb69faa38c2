import PhyNspire.App.Loop
import PhyNspire.Notebook.Dirtiness

/-!
Unsaved work. Beside the application stands a history of it: the document of the last creation, opening
or save, whether Discard was activated since the document last changed, and the request that waits for
an answer.
-/

namespace PhyNspire.App

open PhyNspire.Platform PhyNspire.Eval PhyNspire.Storage
open PhyNspire.Notebook hiding perform

variable {Context Ref Value : Type}

structure History where
  saved : List UInt8
  discarded : Bool
  asked : Option Pending
deriving DecidableEq, Repr

def Deed.stores : Deed → Bool
  | .madeNew => true
  | .opened => true
  | .saved => true
  | _ => false

def Deed.replaces : Deed → Bool
  | .madeNew => true
  | .opened => true
  | _ => false

def Deed.answer (deed : Deed) (asked : Option Pending) : Option Pending :=
  match deed with
  | .asked pending => some pending
  | .left => none
  | .carriedOut _ => none
  | _ => asked

variable (machinery : Machinery Context Ref Value)

def document (app : App Context Ref) : List UInt8 := documentOf machinery.engine app.workspace.notebook

/-- The history after an event that has led from one state to another. -/
def History.next (history : History) (before after : App Context Ref) : History where
  saved := if after.deeds.any Deed.stores then document machinery after else history.saved
  discarded :=
    (history.discarded || decide (Deed.discarded ∈ after.deeds)) &&
      decide (document machinery after = document machinery before)
  asked := after.deeds.foldr Deed.answer history.asked

/-- The document differs from what it was when the notebook was last created, opened or saved. -/
def Differs (app : App Context Ref) (history : History) : Prop := document machinery app ≠ history.saved

variable (screen : Screen Context Ref)

/-- The states of the loop, with their histories, when every event is of some kind. -/
inductive Runs (Allowed : App Context Ref → History → Event → Prop) : App Context Ref → History → Prop where
  | launched (heap rest : Heap) (notebook : Notebook Context Ref)
      (made : notebookCreate machinery.engine heap = (some notebook, rest)) :
      Runs Allowed (launch notebook) ⟨document machinery (launch notebook), false, none⟩
  | handled (app : App Context Ref) (history : History) (event : Event) (outside : Outside)
      (runs : Runs Allowed app history) (running : app.running = true) (allowed : Allowed app history event) :
      Runs Allowed (step machinery screen outside app event)
        (history.next machinery app (step machinery screen outside app event))

/-- Unsaved work is not lost: a notebook with changes is dirty; it is replaced only after Discard or a
save, and the loop ends with it only after Discard; a request that is carried out is the one that was
last asked about and not left since; and a transaction that fails changes nothing. -/
structure Careful (app : App Context Ref) (history : History) : Prop where
  flagged : Differs machinery app history → app.workspace.notebook.dirty = true
  replaced : app.running = true → Differs machinery app history → ∀ event outside deed earlier,
    deed :: earlier <:+ (step machinery screen outside app event).deeds → deed.replaces = true →
      history.discarded = true ∨ .discarded ∈ earlier ∨ .saved ∈ earlier
  ended : app.running = false → Differs machinery app history → history.discarded = true
  answered : app.running = true → ∀ event outside pending,
    .carriedOut pending ∈ (step machinery screen outside app event).deeds → history.asked = some pending
  failing : ∀ outside,
    ((workspaceNew machinery app.workspace outside).1 ≠ .ok →
      (workspaceNew machinery app.workspace outside).2 = app.workspace) ∧
    (∀ name, (workspaceSave machinery app.workspace name outside).1 ≠ .ok →
      (workspaceSave machinery app.workspace name outside).2 = app.workspace) ∧
    ∀ name, (workspaceOpen machinery app.workspace name outside).1 ≠ .ok →
      (workspaceOpen machinery app.workspace name outside).2 = app.workspace

/-- `PHY_EVENT_QUIT` does not come in a dialog while the notebook has changes that were not discarded. -/
def Orderly (app : App Context Ref) (history : History) (event : Event) : Prop :=
  event = .quit → app.ui.view ≠ .notebook → Differs machinery app history → history.discarded = true

theorem workspaceNew_cases (workspace : Workspace Context Ref) (outside : Outside) :
    ((workspaceNew machinery workspace outside).1 ≠ .ok ∧ (workspaceNew machinery workspace outside).2 = workspace) ∨
    ((workspaceNew machinery workspace outside).1 = .ok ∧
      (workspaceNew machinery workspace outside).2.notebook.dirty = false) := by
  unfold workspaceNew
  split
  · exact Or.inl ⟨fun same => Status.noConfusion same, rfl⟩
  · exact Or.inr ⟨rfl, rfl⟩

theorem copyFilename_ok {workspace named : Workspace Context Ref} {name : FileName}
    (copied : copyFilename workspace name = .ok named) : named.notebook = workspace.notebook := by
  unfold copyFilename at copied
  split_ifs at copied
  cases copied
  rfl

theorem copyFilename_error {workspace : Workspace Context Ref} {name : FileName} {status : Status}
    (refused : copyFilename workspace name = .error status) : status ≠ .ok := by
  unfold copyFilename at refused
  split_ifs at refused
  cases refused
  exact fun same => by cases same

theorem workspaceSave_cases (workspace : Workspace Context Ref) (name : Option FileName) (outside : Outside) :
    ((workspaceSave machinery workspace name outside).1 ≠ .ok ∧
      (workspaceSave machinery workspace name outside).2 = workspace) ∨
    ((workspaceSave machinery workspace name outside).1 = .ok ∧
      (workspaceSave machinery workspace name outside).2.notebook = markClean workspace.notebook) := by
  unfold workspaceSave
  split
  · exact Or.inl ⟨fun same => Status.noConfusion same, rfl⟩
  by_cases valid : storageNameValid ‹FileName› = false
  · rw [if_pos valid]
    exact Or.inl ⟨fun same => Status.noConfusion same, rfl⟩
  rw [if_neg valid]
  split
  · rename_i refused
    exact Or.inl ⟨requiredFrom_error refused, rfl⟩
  by_cases full : outside.saveHeap.alloc.1 = false
  · rw [if_pos full]
    exact Or.inl ⟨fun same => Status.noConfusion same, rfl⟩
  rw [if_neg full]
  split
  · rename_i refused
    exact Or.inl ⟨serialize_error refused, rfl⟩
  by_cases failed : outside.write ≠ .ok
  · rw [if_pos failed]
    exact Or.inl ⟨failed, rfl⟩
  rw [if_neg failed]
  split
  · rename_i refused
    exact Or.inl ⟨copyFilename_error refused, rfl⟩
  · rename_i copied
    exact Or.inr ⟨rfl, congrArg markClean (copyFilename_ok copied)⟩

theorem workspaceOpen_cases (workspace : Workspace Context Ref) (name : FileName) (outside : Outside) :
    ((workspaceOpen machinery workspace name outside).1 ≠ .ok ∧
      (workspaceOpen machinery workspace name outside).2 = workspace) ∨
    ((workspaceOpen machinery workspace name outside).1 = .ok ∧
      (workspaceOpen machinery workspace name outside).2.notebook.dirty = false) := by
  have answers := deserialize_answers machinery.size.wide machinery.engine machinery.validate outside.read.2
    outside.openHeap.alloc.2
  unfold workspaceOpen
  by_cases valid : storageNameValid name = false
  · rw [if_pos valid]
    exact Or.inl ⟨fun same => Status.noConfusion same, rfl⟩
  rw [if_neg valid]
  split
  · rename_i failure _
    exact Or.inl ⟨failure.2, rfl⟩
  rename_i size _
  by_cases empty : size = 0
  · rw [if_pos empty]
    exact Or.inl ⟨fun same => Status.noConfusion same, rfl⟩
  rw [if_neg empty]
  by_cases full : outside.openHeap.alloc.1 = false
  · rw [if_pos full]
    exact Or.inl ⟨fun same => Status.noConfusion same, rfl⟩
  rw [if_neg full]
  by_cases failed : outside.read.1 ≠ .ok
  · rw [if_pos failed]
    exact Or.inl ⟨failed, rfl⟩
  rw [if_neg failed]
  dsimp only
  split
  · rename_i replacement opened _
    split
    · rename_i refused
      exact Or.inl ⟨copyFilename_error refused, rfl⟩
    · exact Or.inr ⟨rfl, (answers.sound replacement opened).2⟩
  · rename_i status stopped
    exact Or.inl ⟨fun isOk => answers.reported (stopped.trans (congrArg (fun other => some (Stop.refused other)) isOk)), rfl⟩
  · exact Or.inl ⟨fun same => Status.noConfusion same, rfl⟩

/-- What holds of a state of the loop, besides what is promised of it. -/
structure Safe (app : App Context Ref) (history : History) : Prop where
  flagged : app.workspace.notebook.dirty = false → document machinery app = history.saved
  menu : app.ui.view = .fileMenu → app.ui.pending = .nothing
  opening : app.ui.view = .openList → document machinery app = history.saved ∨ history.discarded = true
  waiting : app.ui.view = .saveAs ∨ app.ui.view = .dirtyConfirm → app.ui.pending ≠ .nothing →
    history.asked = some app.ui.pending

/-- What an event keeps. -/
structure Good (history : History) (before after : App Context Ref) : Prop where
  safe : Safe machinery after (history.next machinery before after)
  replaced : Differs machinery before history → ∀ deed earlier, deed :: earlier <:+ after.deeds →
    deed.replaces = true → history.discarded = true ∨ .discarded ∈ earlier ∨ .saved ∈ earlier
  answered : ∀ pending, .carriedOut pending ∈ after.deeds → history.asked = some pending
  ended : after.running = false →
    document machinery after = (history.next machinery before after).saved ∨
      (history.next machinery before after).discarded = true

section

variable {machinery} {history : History} {before after : App Context Ref}

def Settled (machinery : Machinery Context Ref Value) (history : History) (before after : App Context Ref) : Prop :=
  document machinery after = document machinery before ∧
    (document machinery before = history.saved ∨ history.discarded = true ∨ .saved ∈ after.deeds ∨
      .discarded ∈ after.deeds)

theorem Settled.next (settled : Settled machinery history before after) :
    document machinery after = (history.next machinery before after).saved ∨
      (history.next machinery before after).discarded = true := by
  obtain ⟨same, earlier | earlier | now | now⟩ := settled
  · refine Or.inl ?_
    change _ = if after.deeds.any Deed.stores then document machinery after else history.saved
    split_ifs
    · rfl
    · exact same.trans earlier
  · exact Or.inr (by simp only [History.next, earlier, Bool.true_or, same, decide_true, Bool.and_self])
  · refine Or.inl ?_
    change _ = if after.deeds.any Deed.stores then document machinery after else history.saved
    rw [if_pos (List.any_eq_true.mpr ⟨_, now, rfl⟩)]
  · exact Or.inr (by simp only [History.next, now, decide_true, Bool.or_true, same, Bool.and_self])

theorem Good.intro (safe : Safe machinery before history)
    (flags : after.workspace.notebook.dirty = false → after.deeds.any Deed.stores = true ∨
      document machinery after = document machinery before ∧ before.workspace.notebook.dirty = false)
    (menu : after.ui.view = .fileMenu → after.ui.pending = .nothing)
    (opening : after.ui.view = .openList → Settled machinery history before after)
    (waiting : after.ui.view = .saveAs ∨ after.ui.view = .dirtyConfirm → after.ui.pending ≠ .nothing →
      after.deeds.foldr Deed.answer history.asked = some after.ui.pending)
    (replaced : Differs machinery before history → ∀ deed earlier, deed :: earlier <:+ after.deeds →
      deed.replaces = true → history.discarded = true ∨ .discarded ∈ earlier ∨ .saved ∈ earlier)
    (answered : ∀ pending, .carriedOut pending ∈ after.deeds → history.asked = some pending)
    (ended : after.running = false → Settled machinery history before after) :
    Good machinery history before after where
  safe := by
    refine ⟨fun clean => ?_, menu, fun view => (opening view).next, waiting⟩
    change _ = if after.deeds.any Deed.stores then document machinery after else history.saved
    split_ifs with stored
    · rfl
    · obtain now | ⟨same, clean'⟩ := flags clean
      · exact absurd now stored
      · exact same.trans (safe.flagged clean')
  replaced := replaced
  answered := answered
  ended := fun stops => (ended stops).next

theorem Good.quiet (safe : Safe machinery before history) (deeds : after.deeds = [])
    (marks : Marks machinery.engine before.workspace.notebook after.workspace.notebook)
    (menu : after.ui.view = .fileMenu → after.ui.pending = .nothing)
    (opening : after.ui.view = .openList → Settled machinery history before after)
    (waiting : after.ui.view = .saveAs ∨ after.ui.view = .dirtyConfirm → after.ui.pending ≠ .nothing →
      history.asked = some after.ui.pending)
    (ended : after.running = false → Settled machinery history before after) :
    Good machinery history before after := by
  refine .intro safe (fun clean => Or.inr ?_) menu opening (by rwa [deeds]) ?_ ?_ ended
  · obtain dirty | ⟨same, dirty⟩ := marks
    · exact absurd (clean.symm.trans dirty) Bool.false_ne_true
    · exact ⟨same, dirty.symm.trans clean⟩
  · intro _ deed earlier suffix
    rw [deeds] at suffix
    exact absurd (List.suffix_nil.mp suffix) (List.cons_ne_nil _ _)
  · intro pending done
    rw [deeds] at done
    cases done

theorem Good.edited (safe : Safe machinery before history) (deeds : after.deeds = [])
    (marks : Marks machinery.engine before.workspace.notebook after.workspace.notebook)
    (view : after.ui.view = .notebook ∨ after.ui.view = .palette ∨ after.ui.view = .fileMenu ∧ after.ui.pending = .nothing)
    (running : after.running = true) : Good machinery history before after := by
  refine .quiet safe deeds marks (fun menu => ?_) (fun opening => ?_) (fun waiting => ?_) fun stops => ?_
  · obtain shown | shown | ⟨_, pending⟩ := view
    · cases shown.symm.trans menu
    · cases shown.symm.trans menu
    · exact pending
  · obtain shown | shown | ⟨shown, _⟩ := view <;> cases shown.symm.trans opening
  · obtain shown | shown | ⟨shown, _⟩ := view <;> obtain waits | waits := waiting <;> cases shown.symm.trans waits
  · cases running.symm.trans stops

theorem Good.stayed (safe : Safe machinery before history) (deeds : after.deeds = [])
    (workspace : after.workspace = before.workspace) (view : after.ui.view = before.ui.view)
    (pending : after.ui.pending = before.ui.pending) (running : after.running = true) :
    Good machinery history before after := by
  have same : document machinery after = document machinery before := by
    unfold document
    rw [workspace]
  refine .quiet safe deeds (workspace ▸ .refl _) (fun menu => ?_) (fun opening => ?_) (fun waiting asks => ?_)
    fun stops => ?_
  · exact pending.trans (safe.menu (view.symm.trans menu))
  · exact ⟨same, (safe.opening (view.symm.trans opening)).imp id Or.inl⟩
  · rw [pending] at asks ⊢
    rw [view] at waiting
    exact safe.waiting waiting asks
  · cases running.symm.trans stops

theorem Good.settled (safe : Safe machinery before history)
    (same : document machinery after = document machinery before)
    (settles : .saved ∈ after.deeds ∨ .discarded ∈ after.deeds)
    (clean : after.workspace.notebook.dirty = false → .saved ∈ after.deeds ∨ before.workspace.notebook.dirty = false)
    (plain : ∀ deed ∈ after.deeds, deed.replaces = false)
    (answered : ∀ pending, .carriedOut pending ∈ after.deeds → history.asked = some pending)
    (pending : after.ui.pending = .nothing) : Good machinery history before after := by
  have settled : Settled machinery history before after := ⟨same, Or.inr (Or.inr settles)⟩
  refine .intro safe (fun unchanged => ?_) (fun _ => pending) (fun _ => settled)
    (fun _ asks => absurd pending asks) (fun _ deed earlier suffix replaces => ?_) answered fun _ => settled
  · obtain saved | clean' := clean unchanged
    · exact Or.inl (List.any_eq_true.mpr ⟨_, saved, rfl⟩)
    · exact Or.inr ⟨same, clean'⟩
  · have harmless := plain deed (suffix.subset List.mem_cons_self)
    exact absurd (replaces.symm.trans harmless) Bool.noConfusion

theorem Good.replacing (safe : Safe machinery before history) {last : Deed} {deeds : List Deed}
    (list : after.deeds = last :: deeds) (stores : last.stores = true)
    (reason : Differs machinery before history → history.discarded = true ∨ .discarded ∈ deeds ∨ .saved ∈ deeds)
    (plain : ∀ deed ∈ deeds, deed.replaces = false)
    (answered : ∀ pending, .carriedOut pending ∈ last :: deeds → history.asked = some pending)
    (view : after.ui.view = .notebook) (running : after.running = true) : Good machinery history before after := by
  refine .intro safe (fun _ => Or.inl ?_) (fun menu => ?_) (fun opening => ?_) (fun waiting => ?_)
    (fun differs deed earlier suffix replaces => ?_) (list ▸ answered) fun stops => ?_
  · rw [list]
    exact List.any_eq_true.mpr ⟨_, List.mem_cons_self, stores⟩
  · cases view.symm.trans menu
  · cases view.symm.trans opening
  · obtain waits | waits := waiting <;> cases view.symm.trans waits
  · rw [list] at suffix
    obtain same | inside := List.suffix_cons_iff.mp suffix
    · rw [(List.cons.inj same).2]
      exact reason differs
    · have harmless := plain deed (inside.subset List.mem_cons_self)
      exact absurd (replaces.symm.trans harmless) Bool.noConfusion
  · cases running.symm.trans stops

theorem beginOpen_cases (app : App Context Ref) (outside : Outside) :
    ∃ ui : Ui, beginOpen app outside = { app with ui := ui } ∧ ui.pending = app.ui.pending ∧
      (ui.view = app.ui.view ∨ ui.view = .openList) := by
  unfold beginOpen
  split_ifs
  · exact ⟨_, rfl, rfl, Or.inl rfl⟩
  · exact ⟨_, rfl, rfl, Or.inr rfl⟩

theorem beginSaveAs_cases (app : App Context Ref) (outside : Outside) :
    ∃ ui : Ui, beginSaveAs app outside = { app with ui := ui } ∧ ui.pending = app.ui.pending ∧
      (ui.view = app.ui.view ∨ ui.view = .saveAs) := by
  unfold beginSaveAs
  split_ifs
  · exact ⟨_, rfl, rfl, Or.inl rfl⟩
  · exact ⟨_, rfl, rfl, Or.inr rfl⟩

theorem finish_ok {app : App Context Ref} {deed : Deed} {result : Status × Workspace Context Ref}
    (isOk : result.1 = .ok) :
    app.finish deed result =
      { app with workspace := result.2, ui := app.ui.setStatus result.1, deeds := deed :: app.deeds } := by
  unfold App.finish
  rw [if_pos isOk]
  rfl

theorem finish_failed {app : App Context Ref} {deed : Deed} {result : Status × Workspace Context Ref}
    (failed : result.1 ≠ .ok) (same : result.2 = app.workspace) :
    app.finish deed result = { app with ui := app.ui.setStatus result.1 } := by
  unfold App.finish
  rw [if_neg failed, same]
  rfl

/-- `complete_pending` after a save or Discard. -/
theorem completePending_good (safe : Safe machinery before history) {middle : App Context Ref} {deed : Deed}
    (outside : Outside) (running : middle.running = true) (deeds : middle.deeds = [deed])
    (settles : deed = .saved ∨ deed = .discarded) (same : document machinery middle = document machinery before)
    (clean : middle.workspace.notebook.dirty = false → deed = .saved ∨ before.workspace.notebook.dirty = false)
    (asked : middle.ui.pending ≠ .nothing → history.asked = some middle.ui.pending) :
    Good machinery history before (completePending machinery outside middle) := by
  have settled : .saved ∈ [deed] ∨ .discarded ∈ [deed] := by
    obtain rfl | rfl := settles
    · exact Or.inl List.mem_cons_self
    · exact Or.inr List.mem_cons_self
  have clean' (unchanged : middle.workspace.notebook.dirty = false) :
      .saved ∈ [deed] ∨ before.workspace.notebook.dirty = false :=
    (clean unchanged).imp (fun saved => List.mem_singleton.mpr saved.symm) id
  have plain : ∀ other ∈ [deed], other.replaces = false := by
    obtain rfl | rfl := settles <;> exact List.forall_mem_singleton.mpr rfl
  have uncarried : ∀ pending, Deed.carriedOut pending ∉ [deed] := by
    obtain rfl | rfl := settles <;> exact fun _ done => by cases List.mem_singleton.mp done
  have carried {pending : Pending} (pends : middle.ui.pending = pending) (some : pending ≠ .nothing) :
      ∀ other, Deed.carriedOut other ∈ [.carriedOut pending, deed] → history.asked = Option.some other := by
    intro other done
    obtain here | earlier := List.mem_cons.mp done
    · rw [Deed.carriedOut.inj here, ← pends]
      exact asked (pends ▸ some)
    · exact absurd earlier (uncarried other)
  -- a request that is carried out without another notebook taking the place of this one
  have carrying {pending : Pending} (pends : middle.ui.pending = pending) (some : pending ≠ .nothing)
      {after : App Context Ref} (workspace : after.workspace = middle.workspace)
      (list : after.deeds = [.carriedOut pending, deed]) (ui : after.ui.pending = .nothing) :
      Good machinery history before after := by
    refine .settled safe (by rw [document, workspace]; exact same) ?_ (fun unchanged => ?_) ?_ (list ▸ carried pends some) ui
    · rw [list]
      exact settled.imp (List.mem_cons_of_mem _) (List.mem_cons_of_mem _)
    · rw [list]
      exact (clean' (workspace ▸ unchanged)).imp (List.mem_cons_of_mem _) id
    · rw [list]
      exact List.forall_mem_cons.mpr ⟨rfl, plain⟩
  unfold completePending
  cases pends : middle.ui.pending with
  | nothing =>
    exact .settled safe same (deeds ▸ settled) (deeds ▸ clean') (deeds ▸ plain)
      (deeds ▸ fun pending done => absurd done (uncarried pending)) rfl
  | makeNew =>
    dsimp only
    have list := congrArg (Deed.carriedOut .makeNew :: ·) deeds
    obtain ⟨failed, unchanged⟩ | ⟨isOk, blank⟩ := workspaceNew_cases machinery middle.workspace outside
    · rw [finish_failed failed]
      · exact carrying pends Pending.noConfusion rfl list rfl
      · exact unchanged
    · rw [finish_ok isOk]
      refine .replacing safe (congrArg (Deed.madeNew :: ·) list) rfl (fun _ => Or.inr ?_)
        (List.forall_mem_cons.mpr ⟨rfl, plain⟩) (fun other done => ?_) rfl running
      · exact settled.symm.imp (List.mem_cons_of_mem _) (List.mem_cons_of_mem _)
      · exact carried pends Pending.noConfusion other ((List.mem_cons.mp done).resolve_left Deed.noConfusion)
  | openOther =>
    dsimp only
    obtain ⟨ui, opens, pending, _⟩ := beginOpen_cases
      ((middle.withUi ({ · with pending := .nothing })).did (.carriedOut .openOther)) outside
    rw [opens]
    exact carrying pends Pending.noConfusion rfl (congrArg (Deed.carriedOut .openOther :: ·) deeds) pending
  | quit => exact carrying pends Pending.noConfusion rfl (congrArg (Deed.carriedOut .quit :: ·) deeds) rfl

/-- An event of the application in a view without a request: the notebook, or the file menu. -/
def Calm (app : App Context Ref) : Prop :=
  app.ui.view = .notebook ∨ app.ui.view = .fileMenu ∧ app.ui.pending = .nothing

/-- A state inside of an event before anything has been done. -/
structure Fresh (before app : App Context Ref) : Prop where
  workspace : app.workspace = before.workspace
  deeds : app.deeds = []
  running : app.running = true

theorem Fresh.withUi {app : App Context Ref} (fresh : Fresh before app) (change : Ui → Ui) :
    Fresh before (app.withUi change) := ⟨fresh.workspace, fresh.deeds, fresh.running⟩

theorem Fresh.select {app : App Context Ref} (fresh : Fresh before app) (row : Nat) :
    Fresh before (app.withUi ({ · with selected := row })) := fresh.withUi _

theorem Fresh.marks {app : App Context Ref} (fresh : Fresh before app) :
    Marks machinery.engine before.workspace.notebook app.workspace.notebook := fresh.workspace ▸ .refl _

theorem Fresh.document {app : App Context Ref} (fresh : Fresh before app) :
    document machinery app = document machinery before := by
  unfold App.document
  rw [fresh.workspace]

theorem Fresh.stays {app : App Context Ref} (fresh : Fresh before app) (safe : Safe machinery before history)
    (view : app.ui.view = before.ui.view) (pending : app.ui.pending = before.ui.pending) :
    Good machinery history before app :=
  .stayed safe fresh.deeds fresh.workspace view pending fresh.running

theorem Good.leaving (safe : Safe machinery before history) {app : App Context Ref} (fresh : Fresh before app)
    (view : app.ui.view = .notebook) : Good machinery history before (app.did .left) := by
  have list : (app.did .left).deeds = [.left] := congrArg (Deed.left :: ·) fresh.deeds
  refine .intro safe (fun clean => Or.inr ⟨fresh.document, fresh.workspace ▸ clean⟩) (fun menu => ?_)
    (fun opening => ?_) (fun waiting => ?_) (fun _ deed earlier suffix replaces => ?_) (fun pending done => ?_)
    fun stops => ?_
  · cases view.symm.trans menu
  · cases view.symm.trans opening
  · obtain waits | waits := waiting <;> cases view.symm.trans waits
  · rw [list] at suffix
    obtain rfl := List.mem_singleton.mp (suffix.subset List.mem_cons_self)
    cases replaces
  · rw [list] at done
    cases List.mem_singleton.mp done
  · cases fresh.running.symm.trans stops

theorem requestPending_good (safe : Safe machinery before history) {app : App Context Ref} (fresh : Fresh before app)
    (calm : Calm app) (outside : Outside) (pending : Pending) :
    Good machinery history before (requestPending machinery outside app pending) := by
  have saved (clean : ¬app.workspace.notebook.dirty = true) : document machinery before = history.saved :=
    safe.flagged (fresh.workspace ▸ Bool.eq_false_iff.mpr clean)
  unfold requestPending
  by_cases dirty : app.workspace.notebook.dirty = true
  · rw [if_pos dirty]
    have list : (app.did (.asked pending)).deeds = [.asked pending] := congrArg (Deed.asked pending :: ·) fresh.deeds
    refine .intro safe (fun clean => ?_) (fun menu => by cases menu) (fun opening => by cases opening)
      (fun _ _ => ?_) (fun _ deed earlier suffix replaces => ?_) (fun other done => ?_) fun stops => ?_
    · exact absurd (clean.symm.trans dirty) Bool.false_ne_true
    · exact congrArg (List.foldr Deed.answer history.asked) list
    · obtain rfl := List.mem_singleton.mp (list ▸ suffix.subset List.mem_cons_self)
      cases replaces
    · cases List.mem_singleton.mp (list ▸ done)
    · cases fresh.running.symm.trans stops
  rw [if_neg dirty]
  have settled {after : App Context Ref} (workspace : after.workspace = app.workspace) :
      Settled machinery history before after := by
    refine ⟨?_, Or.inl (saved dirty)⟩
    rw [document, workspace]
    exact fresh.document
  cases pending with
  | makeNew =>
    dsimp only
    obtain ⟨failed, unchanged⟩ | ⟨isOk, _⟩ := workspaceNew_cases machinery app.workspace outside
    · rw [finish_failed failed]
      · exact .edited safe fresh.deeds fresh.marks (Or.inl rfl) fresh.running
      · exact unchanged
    · rw [finish_ok isOk]
      refine .replacing safe (congrArg (Deed.madeNew :: ·) fresh.deeds) rfl (fun differs => ?_) (fun _ none => by cases none)
        (fun _ done => by cases List.mem_singleton.mp done) rfl fresh.running
      exact absurd (saved dirty) differs
  | openOther =>
    dsimp only
    obtain ⟨ui, opens, same, view⟩ := beginOpen_cases app outside
    rw [opens]
    have away (shown : ui.view = app.ui.view) (waiting : ui.view = .saveAs ∨ ui.view = .dirtyConfirm) : False := by
      rw [shown] at waiting
      obtain calm | ⟨calm, _⟩ := calm <;> obtain waits | waits := waiting <;> cases calm.symm.trans waits
    refine .quiet safe fresh.deeds fresh.marks (fun menu => ?_) (fun _ => settled rfl) (fun waiting _ => ?_)
      fun _ => settled rfl
    · obtain shown | shown := view
      · obtain calm | ⟨_, none⟩ := calm
        · cases calm.symm.trans (shown.symm.trans menu)
        · exact same.trans none
      · cases shown.symm.trans menu
    · obtain shown | shown := view
      · exact (away shown waiting).elim
      · obtain waits | waits := waiting <;> cases shown.symm.trans waits
  | quit =>
    refine .quiet safe fresh.deeds fresh.marks (fun menu => ?_) (fun _ => settled rfl) (fun waiting => ?_)
      fun _ => settled rfl
    · obtain calm | ⟨_, none⟩ := calm
      · cases calm.symm.trans menu
      · exact none
    · obtain calm | ⟨calm, _⟩ := calm <;> obtain waits | waits := waiting <;> cases calm.symm.trans waits
  | nothing =>
    exact .edited safe fresh.deeds fresh.marks (calm.imp id Or.inr) fresh.running

theorem saving_good (safe : Safe machinery before history) {app : App Context Ref} (fresh : Fresh before app)
    (name : Option FileName) (outside : Outside)
    (failing : ∀ after : App Context Ref, Fresh before after → after.ui.view = app.ui.view →
      after.ui.pending = app.ui.pending → Good machinery history before after)
    (saved : App Context Ref → App Context Ref)
    (finishing : ∀ after : App Context Ref, after.running = true → after.deeds = [.saved] →
      document machinery after = document machinery before → after.ui.pending = app.ui.pending →
        Good machinery history before (saved after)) :
    Good machinery history before
      (if (workspaceSave machinery app.workspace name outside).1 = .ok then
        saved (app.finish .saved (workspaceSave machinery app.workspace name outside))
      else app.finish .saved (workspaceSave machinery app.workspace name outside)) := by
  obtain ⟨failed, unchanged⟩ | ⟨isOk, cleaned⟩ := workspaceSave_cases machinery app.workspace name outside
  · rw [if_neg failed, finish_failed failed unchanged]
    exact failing _ (fresh.withUi (Ui.setStatus · _)) rfl rfl
  · rw [if_pos isOk, finish_ok isOk]
    refine finishing _ fresh.running (congrArg (Deed.saved :: ·) fresh.deeds) ?_ rfl
    rw [document, cleaned, ← fresh.document]
    rfl

theorem activateFileMenu_good (safe : Safe machinery before history) {app : App Context Ref}
    (fresh : Fresh before app) (view : app.ui.view = .fileMenu) (pending : app.ui.pending = .nothing)
    (resets : ∀ context tree, machinery.engine.write (machinery.engine.reset context) tree =
      machinery.engine.write context tree)
    (outside : Outside) : Good machinery history before (activateFileMenu machinery outside app) := by
  have calm : Calm app := Or.inr ⟨view, pending⟩
  unfold activateFileMenu
  by_cases new : app.ui.selected = 0
  · rw [if_pos new]
    exact requestPending_good safe fresh calm outside _
  rw [if_neg new]
  by_cases save : app.ui.selected = 1
  · rw [if_pos save]
    by_cases named : app.workspace.filename.isSome = true
    · rw [if_pos named]
      refine saving_good safe fresh none outside (fun after fresh' view' pending' => ?_)
        (App.withUi · ({ · with view := .notebook })) fun after running deeds same none => ?_
      · exact .edited safe fresh'.deeds fresh'.marks (Or.inr (Or.inr ⟨view'.trans view, pending'.trans pending⟩))
          fresh'.running
      · refine .settled safe same (deeds ▸ Or.inl List.mem_cons_self) (fun _ => Or.inl (deeds ▸ List.mem_cons_self))
          (fun deed done => ?_) (fun other done => ?_) (none.trans pending)
        · obtain rfl := List.mem_singleton.mp (deeds ▸ done)
          rfl
        · cases List.mem_singleton.mp (deeds ▸ done)
    rw [if_neg named]
    obtain ⟨ui, begins, same, shown⟩ := beginSaveAs_cases app outside
    rw [begins]
    have none : ui.pending = .nothing := same.trans pending
    refine .quiet safe fresh.deeds fresh.marks (fun _ => none) (fun opening => ?_) (fun _ asks => absurd none asks)
      fun stops => ?_
    · obtain shown | shown := shown
      · cases view.symm.trans (shown.symm.trans opening)
      · cases shown.symm.trans opening
    · cases fresh.running.symm.trans stops
  rw [if_neg save]
  by_cases other : app.ui.selected = 2
  · rw [if_pos other]
    exact requestPending_good safe fresh calm outside _
  rw [if_neg other]
  cases run : evaluateAll machinery.engine app.workspace.notebook with
  | none => exact .edited safe fresh.deeds fresh.marks (Or.inr (Or.inr ⟨view, pending⟩)) fresh.running
  | some finished =>
    exact .edited safe fresh.deeds (fresh.workspace ▸ evaluateAll_marks resets run) (Or.inl rfl) fresh.running

structure Asking (history : History) (app : App Context Ref) : Prop where
  view : app.ui.view = .saveAs ∨ app.ui.view = .dirtyConfirm
  asked : app.ui.pending ≠ .nothing → history.asked = some app.ui.pending

theorem Asking.waits {app after : App Context Ref} (asking : Asking history app) (safe : Safe machinery before history)
    (fresh : Fresh before after) (view : after.ui.view = app.ui.view ∨ after.ui.view = .saveAs)
    (pending : after.ui.pending = app.ui.pending) : Good machinery history before after := by
  have waiting : after.ui.view = .saveAs ∨ after.ui.view = .dirtyConfirm := by
    obtain same | shown := view
    · exact same ▸ asking.view
    · exact Or.inl shown
  refine .quiet safe fresh.deeds fresh.marks (fun menu => ?_) (fun opening => ?_)
    (fun _ => pending ▸ asking.asked) fun stops => ?_
  · obtain waits | waits := waiting <;> cases waits.symm.trans menu
  · obtain waits | waits := waiting <;> cases waits.symm.trans opening
  · cases fresh.running.symm.trans stops

theorem Asking.saving_good {app : App Context Ref} (asking : Asking history app)
    (safe : Safe machinery before history) (fresh : Fresh before app) (name : Option FileName) (outside : Outside) :
    Good machinery history before
      (if (workspaceSave machinery app.workspace name outside).1 = .ok then
        completePending machinery outside (app.finish .saved (workspaceSave machinery app.workspace name outside))
      else app.finish .saved (workspaceSave machinery app.workspace name outside)) :=
  App.saving_good safe fresh name outside
    (fun _ fresh' view' pending' => asking.waits safe fresh' (Or.inl view') pending') _
    fun _ running deeds same pending => completePending_good safe outside running deeds (Or.inl rfl) same
      (fun _ => Or.inl rfl) (pending ▸ asking.asked)

theorem activateDirty_good (safe : Safe machinery before history) {app : App Context Ref}
    (fresh : Fresh before app) (asking : Asking history app) (outside : Outside) :
    Good machinery history before (activateDirty machinery outside app) := by
  unfold activateDirty
  by_cases save : app.ui.selected = 0
  · rw [if_pos save]
    by_cases named : app.workspace.filename.isSome = true
    · rw [if_pos named]
      exact asking.saving_good safe fresh none outside
    rw [if_neg named]
    obtain ⟨ui, begins, same, shown⟩ := beginSaveAs_cases app outside
    rw [begins]
    exact asking.waits safe (fresh.withUi fun _ => ui) shown same
  rw [if_neg save]
  by_cases discard : app.ui.selected = 1
  · rw [if_pos discard]
    exact completePending_good safe outside fresh.running (congrArg (Deed.discarded :: ·) fresh.deeds) (Or.inr rfl)
      fresh.document (fun clean => Or.inr (fresh.workspace ▸ clean)) asking.asked
  rw [if_neg discard]
  exact .leaving safe (fresh.withUi _) rfl

theorem activateSaveAs_good (safe : Safe machinery before history) {app : App Context Ref}
    (fresh : Fresh before app) (asking : Asking history app) (outside : Outside) :
    Good machinery history before (activateSaveAs machinery outside app) :=
  asking.saving_good safe fresh _ outside

theorem activateOpen_good (safe : Safe machinery before history) {app : App Context Ref}
    (fresh : Fresh before app) (view : app.ui.view = before.ui.view) (pending : app.ui.pending = before.ui.pending)
    (opening : app.ui.view = .openList) (outside : Outside) :
    Good machinery history before (activateOpen machinery outside app) := by
  unfold activateOpen
  cases app.ui.catalog[app.ui.selected]? with
  | none => exact fresh.stays safe view pending
  | some name =>
    dsimp only
    obtain ⟨failed, unchanged⟩ | ⟨isOk, _⟩ := workspaceOpen_cases machinery app.workspace name outside
    · rw [if_neg failed, finish_failed failed unchanged]
      exact (fresh.withUi (Ui.setStatus · _)).stays safe view pending
    · rw [if_pos isOk, finish_ok isOk]
      refine .replacing safe (congrArg (Deed.opened :: ·) fresh.deeds) rfl (fun differs => Or.inl ?_)
        (fun _ none => by cases none) (fun _ done => by cases List.mem_singleton.mp done) rfl fresh.running
      exact (safe.opening (view ▸ opening)).resolve_left differs

/-- A change of a dialog that shows the same view and keeps the request. -/
def Idle (app after : App Context Ref) : Prop :=
  ∃ ui : Ui, after = { app with ui := ui } ∧ ui.view = app.ui.view ∧ ui.pending = app.ui.pending

theorem Idle.refl (app : App Context Ref) : Idle app app := ⟨_, rfl, rfl, rfl⟩

theorem Idle.good {app after : App Context Ref} (idle : Idle app after) (safe : Safe machinery before history)
    (fresh : Fresh before app) (view : app.ui.view = before.ui.view) (pending : app.ui.pending = before.ui.pending) :
    Good machinery history before after := by
  obtain ⟨ui, rfl, view', pending'⟩ := idle
  exact (fresh.withUi fun _ => ui).stays safe (view'.trans view) (pending'.trans pending)

theorem movePaletteCategory_idle (screen : Screen Context Ref) (app : App Context Ref) (direction : Int) :
    Idle app (movePaletteCategory screen app direction) := by
  unfold movePaletteCategory
  dsimp only
  split_ifs
  · exact .refl app
  · exact ⟨_, rfl, rfl, rfl⟩

theorem moveModalSelection_idle (screen : Screen Context Ref) (app : App Context Ref) (direction : Int) :
    Idle app (moveModalSelection screen app direction) := by
  unfold moveModalSelection
  dsimp only
  split_ifs
  · exact .refl app
  · exact ⟨_, rfl, rfl, rfl⟩

theorem handleSaveNameText_idle (app : App Context Ref) (character : UInt8) :
    Idle app (handleSaveNameText app character) := by
  unfold handleSaveNameText
  split_ifs
  · exact .refl app
  · exact .refl app
  · exact ⟨_, rfl, rfl, rfl⟩

theorem handleSaveNameBackspace_idle (app : App Context Ref) : Idle app (handleSaveNameBackspace app) := by
  unfold handleSaveNameBackspace
  split_ifs
  · exact .refl app
  · exact ⟨_, rfl, rfl, rfl⟩

theorem activatePalette_good (safe : Safe machinery before history) {app : App Context Ref}
    (fresh : Fresh before app) (view : app.ui.view = .palette) (screen : Screen Context Ref) :
    Good machinery history before (activatePalette screen app) := by
  unfold activatePalette
  split
  · exact .edited safe fresh.deeds fresh.marks (Or.inr (Or.inl view)) fresh.running
  · dsimp only
    split_ifs
    · exact .edited safe fresh.deeds fresh.marks (Or.inr (Or.inl view)) fresh.running
    · exact .edited safe fresh.deeds (fresh.workspace ▸ editInsertText_marks _ _) (Or.inl rfl) fresh.running

theorem beginPalette_good (safe : Safe machinery before history) {app : App Context Ref}
    (fresh : Fresh before app) (view : app.ui.view = .notebook) : Good machinery history before (beginPalette app) := by
  have switches : Marks machinery.engine before.workspace.notebook (editSwitchField app.workspace.notebook).2 :=
    fresh.workspace ▸ editSwitchField_marks
  unfold beginPalette
  dsimp only
  by_cases stuck : editTargetKind app.workspace.notebook = .markdownHeading ∧
      (editSwitchField app.workspace.notebook).1 = false
  · rw [if_pos stuck]
    exact .edited safe fresh.deeds fresh.marks (Or.inl view) fresh.running
  rw [if_neg stuck]
  by_cases heading : editTargetKind app.workspace.notebook = .markdownHeading
  · rw [if_pos heading, if_pos heading, if_neg (fun none => absurd rfl none.2)]
    exact .edited safe fresh.deeds switches (Or.inr (Or.inl rfl)) fresh.running
  rw [if_neg heading, if_neg heading]
  by_cases none : editTargetKind app.workspace.notebook ≠ .math ∧
      editTargetKind app.workspace.notebook ≠ .markdownBody
  · rw [if_pos none]
    exact .edited safe fresh.deeds fresh.marks (Or.inl view) fresh.running
  · rw [if_neg none]
    exact .edited safe fresh.deeds fresh.marks (Or.inr (Or.inl rfl)) fresh.running

end

section

variable {machinery} {screen} {history : History} {before app : App Context Ref}

theorem arrowKey_marks (notebook : Notebook Context Ref) (key : Key) :
    Marks machinery.engine notebook (arrowKey screen notebook key) := by
  unfold arrowKey
  dsimp only
  generalize (if key = .up ∨ key = .left then -1 else 1 : Int) = direction
  by_cases along : notebook.editing = true ∧ (key = .left ∨ key = .right)
  · rw [if_pos along]
    exact editMove_marks direction
  rw [if_neg along]
  by_cases switches : notebook.editing = true ∧ key = .tab
  · rw [if_pos switches]
    exact editSwitchField_marks
  rw [if_neg switches]
  have moved : Marks machinery.engine notebook
      (if notebook.editing = true ∧ (key = .up ∨ key = .down) then editMoveLine notebook direction
        else (false, notebook)).2 := by
    by_cases lines : notebook.editing = true ∧ (key = .up ∨ key = .down)
    · rw [if_pos lines]
      exact editMoveLine_marks direction
    · rw [if_neg lines]
      exact .refl _
  by_cases done : (if notebook.editing = true ∧ (key = .up ∨ key = .down) then editMoveLine notebook direction
      else (false, notebook)).1 = true
  · rw [if_pos done]
    exact moved
  rw [if_neg done]
  by_cases pans : (key = .left ∨ key = .right) ∧ screen.pans
      (if notebook.editing = true ∧ (key = .up ∨ key = .down) then editMoveLine notebook direction
        else (false, notebook)).2 direction = true
  · rw [if_pos pans]
    exact moved
  · rw [if_neg pans]
    exact moved.trans (selectNext_marks direction)

theorem pointNotebook_marks (notebook : Notebook Context Ref) (x y : Int) :
    Marks machinery.engine notebook (pointNotebook machinery screen notebook x y) := by
  unfold pointNotebook
  split
  · exact insertAt_marks _
  · dsimp only
    have ran : Marks machinery.engine notebook (runAt machinery.engine notebook (screen.badgeAt notebook x y)).2 :=
      runAt_marks _
    by_cases runs : (runAt machinery.engine notebook (screen.badgeAt notebook x y)).1.isSome = true
    · rw [if_pos runs]
      exact ran
    rw [if_neg runs]
    have edit : Marks machinery.engine notebook (beginEditAt notebook (screen.cellAt notebook x y)
        (screen.spotAt notebook x y).1 (screen.spotAt notebook x y).2).2 := beginEditAt_marks _ _ _
    split_ifs
    · exact edit
    · exact edit.trans (selectAt_marks _)

theorem Fresh.menu (fresh : Fresh before app) (safe : Safe machinery before history) (ui : app.ui = before.ui)
    (view : app.ui.view = .fileMenu) : app.ui.pending = .nothing := by
  rw [ui] at view ⊢
  exact safe.menu view

theorem Safe.asking (safe : Safe machinery before history) (ui : app.ui = before.ui)
    (view : app.ui.view = .saveAs ∨ app.ui.view = .dirtyConfirm) : Asking history app := by
  refine ⟨view, ?_⟩
  rw [ui] at view ⊢
  exact safe.waiting view

variable (resets : ∀ context tree, machinery.engine.write (machinery.engine.reset context) tree =
  machinery.engine.write context tree)

include resets

theorem handleModalPointer_good (safe : Safe machinery before history) (fresh : Fresh before app)
    (ui : app.ui = before.ui) (outside : Outside) (x y : Int) :
    Good machinery history before (handleModalPointer machinery screen outside app x y) := by
  have same : app.ui.view = before.ui.view := congrArg Ui.view ui
  have pending : app.ui.pending = before.ui.pending := congrArg Ui.pending ui
  have stays := fresh.stays safe same pending
  unfold handleModalPointer
  cases view : app.ui.view with
  | fileMenu =>
    dsimp only
    split
    · exact stays
    · rename_i row _
      exact activateFileMenu_good safe (fresh.select row) view (fresh.menu safe ui view) resets outside
  | openList =>
    dsimp only
    split
    · exact stays
    · rename_i row _
      exact activateOpen_good safe (fresh.select (openFirstVisible app.ui.selected + row)) same pending view outside
  | dirtyConfirm =>
    dsimp only
    split
    · exact stays
    · rename_i row _
      exact activateDirty_good safe (fresh.select row)
        ⟨Or.inr view, (safe.asking ui (Or.inr view)).asked⟩ outside
  | palette =>
    dsimp only
    split_ifs
    · exact (movePaletteCategory_idle screen app _).good safe fresh same pending
    · exact (movePaletteCategory_idle screen app _).good safe fresh same pending
    · split
      · exact stays
      · rename_i row _
        exact activatePalette_good safe (fresh.select (paletteFirstVisible screen app.ui.paletteKind
          app.ui.paletteCategory app.ui.selected 7 + row)) view screen
  | notebook => exact stays
  | saveAs => exact stays

theorem modalKey_good (safe : Safe machinery before history) (fresh : Fresh before app) (ui : app.ui = before.ui)
    (outside : Outside) (key : Key) : Good machinery history before (modalKey machinery screen outside app key) := by
  have same : app.ui.view = before.ui.view := congrArg Ui.view ui
  have pending : app.ui.pending = before.ui.pending := congrArg Ui.pending ui
  have stays := fresh.stays safe same pending
  have idle {after : App Context Ref} (idle : Idle app after) : Good machinery history before after :=
    idle.good safe fresh same pending
  cases key with
  | esc =>
    unfold modalKey
    dsimp only
    split_ifs
    · exact .leaving safe (fresh.withUi _) rfl
    · exact .edited safe fresh.deeds fresh.marks (Or.inl rfl) fresh.running
  | enter =>
    unfold modalKey
    dsimp only
    cases view : app.ui.view with
    | fileMenu => exact activateFileMenu_good safe fresh view (fresh.menu safe ui view) resets outside
    | saveAs => exact activateSaveAs_good safe fresh (safe.asking ui (Or.inl view)) outside
    | openList => exact activateOpen_good safe fresh same pending view outside
    | dirtyConfirm => exact activateDirty_good safe fresh (safe.asking ui (Or.inr view)) outside
    | palette => exact activatePalette_good safe fresh view screen
    | notebook => exact stays
  | up => exact idle (moveModalSelection_idle screen app _)
  | down => exact idle (moveModalSelection_idle screen app _)
  | tab => exact idle (moveModalSelection_idle screen app _)
  | left =>
    unfold modalKey
    dsimp only
    split_ifs
    · exact idle (movePaletteCategory_idle screen app _)
    · exact idle ⟨_, rfl, rfl, rfl⟩
    · exact stays
  | right =>
    unfold modalKey
    dsimp only
    split_ifs
    · exact idle (movePaletteCategory_idle screen app _)
    · exact idle ⟨_, rfl, rfl, rfl⟩
    · exact stays
  | backspace =>
    unfold modalKey
    dsimp only
    split_ifs
    · exact idle (handleSaveNameBackspace_idle app)
    · exact stays
  | menu => exact stays
  | unset => exact stays
  | other => exact stays

omit resets

theorem Fresh.shows (fresh : Fresh before app) (safe : Safe machinery before history)
    (view : app.ui.view = .notebook) {notebook : Notebook Context Ref}
    (marks : Marks machinery.engine app.workspace.notebook notebook) :
    Good machinery history before (app.withNotebook notebook) :=
  .edited safe fresh.deeds (fresh.workspace ▸ marks) (Or.inl view) fresh.running

theorem notebookKey_good (safe : Safe machinery before history) (fresh : Fresh before app)
    (view : app.ui.view = .notebook) (outside : Outside) (key : Key) :
    Good machinery history before (notebookKey machinery screen outside app key) := by
  have stays : Good machinery history before app := fresh.shows safe view (.refl app.workspace.notebook)
  cases key with
  | esc =>
    unfold notebookKey
    dsimp only
    split_ifs
    · exact fresh.shows safe view (.untouched rfl rfl rfl rfl)
    · exact requestPending_good safe fresh (Or.inl view) outside _
  | menu =>
    unfold notebookKey
    dsimp only
    split_ifs
    · exact beginPalette_good safe fresh view
    · exact .edited safe fresh.deeds fresh.marks (Or.inr (Or.inr ⟨rfl, rfl⟩)) fresh.running
  | backspace =>
    unfold notebookKey
    dsimp only
    split_ifs
    · exact fresh.shows safe view editBackspace_marks
    · exact stays
  | up => exact fresh.shows safe view (arrowKey_marks _ _)
  | left => exact fresh.shows safe view (arrowKey_marks _ _)
  | down => exact fresh.shows safe view (arrowKey_marks _ _)
  | right => exact fresh.shows safe view (arrowKey_marks _ _)
  | tab => exact fresh.shows safe view (arrowKey_marks _ _)
  | enter =>
    refine fresh.shows safe view ?_
    have activated : Marks machinery.engine app.workspace.notebook
        (activateSelected machinery.engine app.workspace.notebook).2 := activateSelected_marks
    split_ifs
    · exact activated.trans beginEditSelected_marks
    · exact activated
  | unset => exact stays
  | other => exact stays

include resets

theorem pointerDown_good (safe : Safe machinery before history) (fresh : Fresh before app) (ui : app.ui = before.ui)
    (outside : Outside) (x y : Int) :
    Good machinery history before (pointerDown machinery screen outside app x y) := by
  have same : app.ui.view = before.ui.view := congrArg Ui.view ui
  have pending : app.ui.pending = before.ui.pending := congrArg Ui.pending ui
  have stays := fresh.stays safe same pending
  unfold pointerDown
  by_cases beyond : ¬(0 ≤ x ∧ x < 320 ∧ 0 ≤ y ∧ y < 240)
  · rw [if_pos beyond]
    exact stays
  rw [if_neg beyond]
  by_cases dialog : app.ui.view ≠ .notebook
  · rw [if_pos dialog]
    exact handleModalPointer_good resets safe fresh ui outside x y
  rw [if_neg dialog]
  split_ifs
  · exact .edited safe fresh.deeds fresh.marks (Or.inr (Or.inr ⟨rfl, rfl⟩)) fresh.running
  · exact stays
  · exact fresh.shows safe (not_not.mp dialog) (pointNotebook_marks _ x y)

theorem handle_good (safe : Safe machinery before history) (fresh : Fresh before app) (ui : app.ui = before.ui)
    (event : Event) (orderly : Orderly machinery before history event) (outside : Outside) :
    Good machinery history before (handle machinery screen outside app event) := by
  have same : app.ui.view = before.ui.view := congrArg Ui.view ui
  have pending : app.ui.pending = before.ui.pending := congrArg Ui.pending ui
  have stays := fresh.stays safe same pending
  unfold handle
  cases event with
  | quit =>
    dsimp only
    by_cases asks : app.ui.view = .notebook ∧ app.workspace.notebook.dirty = true
    · rw [if_pos asks]
      exact requestPending_good safe fresh (Or.inl asks.1) outside _
    rw [if_neg asks]
    have settled : Settled machinery history before { app with running := false } := by
      refine ⟨fresh.document, ?_⟩
      by_cases view : app.ui.view = .notebook
      · refine Or.inl (safe.flagged ?_)
        rw [← fresh.workspace]
        exact Bool.eq_false_iff.mpr fun dirty => asks ⟨view, dirty⟩
      · by_cases differs : Differs machinery before history
        · exact Or.inr (Or.inl (orderly rfl (ui ▸ view) differs))
        · exact Or.inl (not_not.mp differs)
    exact .quiet safe fresh.deeds fresh.marks (fresh.menu safe ui) (fun _ => settled)
      (fun waiting => (safe.asking ui waiting).asked) fun _ => settled
  | keyDown key =>
    dsimp only
    split_ifs with view
    · exact modalKey_good resets safe fresh ui outside key
    · exact notebookKey_good safe fresh (not_not.mp view) outside key
  | pointerDown x y => exact pointerDown_good resets safe fresh ui outside x y
  | textInput character =>
    dsimp only
    by_cases naming : app.ui.view = .saveAs
    · rw [if_pos naming]
      exact (handleSaveNameText_idle app character).good safe fresh same pending
    rw [if_neg naming]
    by_cases view : app.ui.view = .notebook
    · rw [if_pos view]
      refine fresh.shows safe view (Marks.trans ?_ (editInsert_marks character))
      split_ifs
      · exact .refl _
      · exact beginEditSelected_marks
    · rw [if_neg view]
      exact stays
  | nothing => exact stays
  | keyUp key => exact stays
  | pointerMove x y => exact stays
  | pointerUp x y => exact stays

theorem step_good (safe : Safe machinery before history) (running : before.running = true) (event : Event)
    (orderly : Orderly machinery before history event) (outside : Outside) :
    Good machinery history before (step machinery screen outside before event) := by
  have fresh : Fresh before { before with deeds := [] } := ⟨rfl, rfl, running⟩
  exact handle_good resets safe fresh rfl event orderly outside

theorem Runs.safe (runs : Runs machinery screen (Orderly machinery) app history) : Safe machinery app history := by
  induction runs with
  | launched heap rest notebook made =>
    exact ⟨fun _ => rfl, fun view => View.noConfusion view, fun view => View.noConfusion view,
      fun view => (view.elim View.noConfusion View.noConfusion : False).elim⟩
  | handled app history event outside _ running orderly safe =>
    exact (step_good resets safe running event orderly outside).safe

omit resets

theorem disorderly_deeds {event : Event} (disorderly : ¬Orderly machinery app history event) (outside : Outside) :
    (step machinery screen outside app event).deeds = [] := by
  obtain ⟨rfl, view, _⟩ : event = .quit ∧ app.ui.view ≠ .notebook ∧
      ¬(Differs machinery app history → history.discarded = true) := by
    unfold Orderly at disorderly
    push Not at disorderly
    exact ⟨disorderly.1, disorderly.2.1, fun discards => disorderly.2.2.2 (discards disorderly.2.2.1)⟩
  unfold step handle
  dsimp only
  rw [if_neg fun shown => view shown.1]

end

abbrev ResetsEnvironment (engine : Engine Context Ref Value) : Prop :=
  ∀ context tree, engine.write (engine.reset context) tree = engine.write context tree

/-- As long as the host does not quit in a dialog with changes that were not discarded, no unsaved work
is lost. -/
theorem orderly_runs_are_careful (machinery : Machinery Context Ref Value) (screen : Screen Context Ref)
    (resets : ResetsEnvironment machinery.engine) (app : App Context Ref) (history : History)
    (runs : Runs machinery screen (Orderly machinery) app history) : Careful machinery screen app history := by
  have safe := runs.safe resets
  refine ⟨fun differs => ?_, fun running differs event outside => ?_, fun stops differs => ?_,
    fun running event outside => ?_, fun outside => ⟨fun failed => ?_, fun name failed => ?_, fun name failed => ?_⟩⟩
  · exact Bool.of_not_eq_false fun clean => differs (safe.flagged clean)
  · by_cases orderly : Orderly machinery app history event
    · exact (step_good resets safe running event orderly outside).replaced differs
    · rw [disorderly_deeds orderly]
      exact fun _ _ suffix => absurd (List.suffix_nil.mp suffix) (List.cons_ne_nil _ _)
  · cases runs with
    | launched heap rest notebook made => cases stops
    | handled before earlier event outside runs running orderly =>
      exact ((step_good resets (runs.safe resets) running event orderly outside).ended stops).resolve_left differs
  · by_cases orderly : Orderly machinery app history event
    · exact (step_good resets safe running event orderly outside).answered
    · rw [disorderly_deeds orderly]
      exact fun _ done => by cases done
  · exact ((workspaceNew_cases machinery app.workspace outside).resolve_right fun done => failed done.1).2
  · exact ((workspaceSave_cases machinery app.workspace name outside).resolve_right fun done => failed done.1).2
  · exact ((workspaceOpen_cases machinery app.workspace name outside).resolve_right fun done => failed done.1).2

def listMachinery : Machinery Unit Nat Unit := ⟨listEngine, fun _ => .ok, .device⟩

def blankScreen : Screen Unit Nat where
  cellAt _ _ _ := none
  badgeAt _ _ _ := none
  spotAt _ _ _ := (false, 0)
  pans _ _ := false
  palette _ := []

/-- No storage, and no memory. -/
def emptyOutside : Outside where
  listing := (.ok, [])
  suggestion := (.ok, chars "notebook-1.phynb")
  readSize := .error ⟨.unsupported, fun same => Status.noConfusion same⟩
  read := (.unsupported, [])
  write := .unsupported
  newHeap := ⟨fun _ => false, 0⟩
  openHeap := ⟨fun _ => false, 0⟩
  saveHeap := ⟨fun _ => false, 0⟩

/-- The states, from the launch on, that some events lead to. -/
def session (app : App Unit Nat) (history : History) : List Event → App Unit Nat × History
  | [] => (app, history)
  | event :: events =>
    let after := step listMachinery blankScreen emptyOutside app event
    session after (history.next listMachinery app after) events

def emptyApp : App Unit Nat := launch ⟨(), 0, 0, [], 0, 1, false, 0, false, 0, false, ⟨fun _ => true, 2⟩⟩

/-- A note is added, and the host quits while the file menu is shown. -/
def lostSession : App Unit Nat × History :=
  session emptyApp ⟨document listMachinery emptyApp, false, none⟩
    [.pointerDown 10 225, .keyDown .esc, .keyDown .menu, .quit]

theorem emptyApp_runs (Allowed : App Unit Nat → History → Event → Prop) :
    Runs listMachinery blankScreen Allowed emptyApp ⟨document listMachinery emptyApp, false, none⟩ :=
  .launched ⟨fun _ => true, 0⟩ ⟨fun _ => true, 2⟩ _ rfl

theorem quitting_in_a_dialog_loses_work :
    (¬∀ app history, Runs listMachinery blankScreen (fun _ _ _ => True) app history →
      Careful listMachinery blankScreen app history) ∧
    lostSession.1.running = false ∧ lostSession.1.workspace.notebook.cells.length = 1 ∧
    lostSession.1.workspace.notebook.dirty = true ∧ lostSession.2.discarded = false := by
  refine ⟨fun always => ?_, by decide +kernel, by decide +kernel, by decide +kernel, by decide +kernel⟩
  have runs : Runs listMachinery blankScreen (fun _ _ _ => True) lostSession.1 lostSession.2 :=
    .handled _ _ .quit emptyOutside (.handled _ _ (.keyDown .menu) emptyOutside (.handled _ _ (.keyDown .esc) emptyOutside
      (.handled _ _ (.pointerDown 10 225) emptyOutside (emptyApp_runs _) rfl trivial) rfl trivial) rfl trivial) rfl trivial
  have differs : Differs listMachinery lostSession.1 lostSession.2 := by
    change ¬document listMachinery lostSession.1 = lostSession.2.saved
    decide +kernel
  have discarded := (always _ _ runs).ended (by decide +kernel) differs
  exact absurd discarded (by decide +kernel)

/-- A note is added, and the host quits while the notebook is shown. -/
def askedSession : App Unit Nat × History :=
  session emptyApp ⟨document listMachinery emptyApp, false, none⟩ [.pointerDown 10 225, .quit]

theorem quitting_in_the_notebook_is_careful : Careful listMachinery blankScreen askedSession.1 askedSession.2 :=
  orderly_runs_are_careful listMachinery blankScreen (fun _ _ => rfl) askedSession.1 askedSession.2
    (.handled _ _ .quit emptyOutside (.handled _ _ (.pointerDown 10 225) emptyOutside (emptyApp_runs _) rfl
      (fun quits => Event.noConfusion quits)) rfl (fun _ dialog => absurd rfl dialog))

end PhyNspire.App

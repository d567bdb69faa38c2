import PhyNspire.App.Workspace

/-!
The dialogs of the application: the file menu, the Save As and Open dialogs, the confirmation for an
unsaved notebook and the palettes. `deeds` is no part of the program: it is the list of what the
handlers have done during one event, the latest first.
-/

namespace PhyNspire.App

open PhyNspire.Platform PhyNspire.Eval PhyNspire.Storage
open PhyNspire.Notebook hiding perform

variable {Context Ref Value : Type}

/-- `app_view`. -/
inductive View where
  | notebook
  | fileMenu
  | saveAs
  | openList
  | dirtyConfirm
  | palette
deriving DecidableEq, Repr

/-- `app_pending`. -/
inductive Pending where
  | nothing
  | makeNew
  | openOther
  | quit
deriving DecidableEq, Repr

inductive PaletteKind where
  | cas
  | latex
deriving DecidableEq, Repr

/-- `app_ui`. -/
structure Ui where
  view : View
  pending : Pending
  selected : Nat
  catalog : List FileName
  editName : FileName
  editCursor : Nat
  paletteKind : PaletteKind
  paletteCategory : Nat
  status : Status
  statusVisible : Bool
deriving DecidableEq, Repr

/-- What a handler has done. -/
inductive Deed where
  | madeNew
  | opened
  | saved
  | asked (pending : Pending)
  | discarded
  | left
  | carriedOut (pending : Pending)
deriving DecidableEq, Repr

structure App (Context Ref : Type) where
  ui : Ui
  workspace : Workspace Context Ref
  running : Bool
  deeds : List Deed

/-- What lies on the screen: the cell and the RUN badge under a point, whether a point in a cell is on
its body and the column it is on, whether a formula can be panned, and the entries of the palettes by
kind and category, each a text with the place of the cursor. -/
structure Screen (Context Ref : Type) where
  cellAt : Notebook Context Ref → Int → Int → Option Nat
  badgeAt : Notebook Context Ref → Int → Int → Option Nat
  spotAt : Notebook Context Ref → Int → Int → Bool × Nat
  pans : Notebook Context Ref → Int → Bool
  palette : PaletteKind → List (List (Text × Nat))

def Ui.clearStatus (ui : Ui) : Ui := { ui with status := .ok, statusVisible := false }

def Ui.setStatus (ui : Ui) (status : Status) : Ui := { ui with status := status, statusVisible := decide (status ≠ .ok) }

namespace App

def withUi (app : App Context Ref) (change : Ui → Ui) : App Context Ref := { app with ui := change app.ui }

def withNotebook (app : App Context Ref) (notebook : Notebook Context Ref) : App Context Ref :=
  { app with workspace := { app.workspace with notebook := notebook } }

def did (app : App Context Ref) (deed : Deed) : App Context Ref := { app with deeds := deed :: app.deeds }

/-- The notebook after a transaction of the workspace, whose status the dialog shows. -/
def finish (app : App Context Ref) (deed : Deed) (result : Status × Workspace Context Ref) : App Context Ref :=
  let shown := { app with workspace := result.2 }.withUi (Ui.setStatus · result.1)
  if result.1 = .ok then shown.did deed else shown

end App

def beginFileMenu (app : App Context Ref) : App Context Ref :=
  app.withUi fun ui => { ui with view := .fileMenu, pending := .nothing, selected := 0 }.clearStatus

/-- `phy_notebook_edit_target_kind`. -/
inductive EditTarget where
  | nothing
  | math
  | markdownHeading
  | markdownBody
deriving DecidableEq, Repr

def editTargetKind (notebook : Notebook Context Ref) : EditTarget :=
  if notebook.editing = false then .nothing
  else
    match notebook.cells[notebook.editIndex]?.map Cell.kind with
    | some .input => .math
    | some .markdown => if notebook.editSecondary then .markdownBody else .markdownHeading
    | _ => .nothing

/-- `begin_palette`: a palette for a heading is one for the body. -/
def beginPalette (app : App Context Ref) : App Context Ref :=
  let target := editTargetKind app.workspace.notebook
  let switched := editSwitchField app.workspace.notebook
  if target = .markdownHeading ∧ switched.1 = false then app
  else
    let switchedApp := if target = .markdownHeading then app.withNotebook switched.2 else app
    let edited := if target = .markdownHeading then EditTarget.markdownBody else target
    if edited ≠ .math ∧ edited ≠ .markdownBody then switchedApp
    else switchedApp.withUi fun ui =>
      { ui with
        paletteKind := if edited = EditTarget.math then .cas else .latex
        paletteCategory := 0
        selected := 0
        view := .palette }.clearStatus

def beginSaveAs (app : App Context Ref) (outside : Outside) : App Context Ref :=
  if outside.suggestion.1 ≠ .ok then app.withUi (Ui.setStatus · outside.suggestion.1)
  else app.withUi fun ui =>
    { ui with
      editName := outside.suggestion.2
      editCursor := outside.suggestion.2.length
      view := .saveAs }.clearStatus

def beginOpen (app : App Context Ref) (outside : Outside) : App Context Ref :=
  if outside.listing.1 ≠ .ok then app.withUi (Ui.setStatus · outside.listing.1)
  else app.withUi fun ui => { ui with catalog := outside.listing.2, selected := 0, view := .openList }.clearStatus

section

variable (machinery : Machinery Context Ref Value) (outside : Outside)

def requestPending (app : App Context Ref) (pending : Pending) : App Context Ref :=
  if app.workspace.notebook.dirty then
    (app.withUi fun ui => { ui with pending := pending, selected := 0, view := .dirtyConfirm }.clearStatus).did
      (.asked pending)
  else
    match pending with
    | .makeNew =>
      (app.finish .madeNew (workspaceNew machinery app.workspace outside)).withUi ({ · with view := .notebook })
    | .openOther => beginOpen app outside
    | .quit => { app with running := false }
    | .nothing => app

def completePending (app : App Context Ref) : App Context Ref :=
  let cleared := app.withUi ({ · with pending := .nothing })
  match app.ui.pending with
  | .nothing => cleared.withUi ({ · with view := .notebook })
  | .makeNew =>
    ((cleared.did (.carriedOut .makeNew)).finish .madeNew (workspaceNew machinery app.workspace outside)).withUi
      ({ · with view := .notebook })
  | .openOther => beginOpen (cleared.did (.carriedOut .openOther)) outside
  | .quit => { cleared.did (.carriedOut .quit) with running := false }

def activateFileMenu (app : App Context Ref) : App Context Ref :=
  if app.ui.selected = 0 then requestPending machinery outside app .makeNew
  else if app.ui.selected = 1 then
    if app.workspace.filename.isSome then
      let result := workspaceSave machinery app.workspace none outside
      let saved := app.finish .saved result
      if result.1 = .ok then saved.withUi ({ · with view := .notebook }) else saved
    else beginSaveAs app outside
  else if app.ui.selected = 2 then requestPending machinery outside app .openOther
  else
    -- Run all cells
    match evaluateAll machinery.engine app.workspace.notebook with
    | none => app
    | some finished =>
      (app.withNotebook finished.2.1).withUi fun ui => { ui.setStatus finished.1 with view := .notebook }

/-- `activate_dirty`: Save, Discard or Cancel. -/
def activateDirty (app : App Context Ref) : App Context Ref :=
  if app.ui.selected = 0 then
    if app.workspace.filename.isSome then
      let result := workspaceSave machinery app.workspace none outside
      let saved := app.finish .saved result
      if result.1 = .ok then completePending machinery outside saved else saved
    else beginSaveAs app outside
  else if app.ui.selected = 1 then completePending machinery outside (app.did .discarded)
  else (app.withUi fun ui => { ui with pending := .nothing, view := .notebook }.clearStatus).did .left

def activateSaveAs (app : App Context Ref) : App Context Ref :=
  let result := workspaceSave machinery app.workspace (some app.ui.editName) outside
  let saved := app.finish .saved result
  if result.1 = .ok then completePending machinery outside saved else saved

def activateOpen (app : App Context Ref) : App Context Ref :=
  match app.ui.catalog[app.ui.selected]? with
  | none => app
  | some name =>
    let result := workspaceOpen machinery app.workspace name outside
    let opened := app.finish .opened result
    if result.1 = .ok then opened.withUi ({ · with view := .notebook }) else opened

end

section

variable (screen : Screen Context Ref)

def paletteGet (kind : PaletteKind) (category entry : Nat) : Option (Text × Nat) :=
  ((screen.palette kind)[category]?.bind (·[entry]?))

def paletteEntryCount (kind : PaletteKind) (category : Nat) : Nat :=
  ((screen.palette kind)[category]?.map List.length).getD 0

def paletteFirstVisible (kind : PaletteKind) (category selected visible : Nat) : Nat :=
  let count := paletteEntryCount screen kind category
  if count = 0 ∨ visible = 0 then 0
  else
    let shown := if count ≤ selected then count - 1 else selected
    if shown < visible then 0 else shown - visible + 1

def activatePalette (app : App Context Ref) : App Context Ref :=
  match paletteGet screen app.ui.paletteKind app.ui.paletteCategory app.ui.selected with
  | none => app
  | some (snippet, cursorOffset) =>
    let inserted := editInsertText app.workspace.notebook snippet cursorOffset
    if inserted.1 = false then app.withUi (Ui.setStatus · .termLimit)
    else (app.withNotebook inserted.2).withUi fun ui => { ui with view := .notebook }.clearStatus

/-- The next or the previous of some places, in a circle. -/
def around (count place : Nat) (direction : Int) : Nat :=
  if 0 < direction then (place + 1) % count else if place = 0 then count - 1 else place - 1

def movePaletteCategory (app : App Context Ref) (direction : Int) : App Context Ref :=
  let count := (screen.palette app.ui.paletteKind).length
  if count = 0 ∨ direction = 0 then app
  else app.withUi fun ui =>
    { ui with paletteCategory := around count ui.paletteCategory direction, selected := 0 }.clearStatus

def moveModalSelection (app : App Context Ref) (direction : Int) : App Context Ref :=
  let count :=
    match app.ui.view with
    | .fileMenu => 4
    | .dirtyConfirm => 3
    | .openList => app.ui.catalog.length
    | .palette => paletteEntryCount screen app.ui.paletteKind app.ui.paletteCategory
    | _ => 0
  if count = 0 ∨ direction = 0 then app
  else app.withUi fun ui => { ui with selected := around count ui.selected direction }

end

def handleSaveNameText (app : App Context Ref) (character : UInt8) : App Context Ref :=
  if printable character = false then app
  else if nameCapacity ≤ app.ui.editName.length + 1 ∨ app.ui.editName.length < app.ui.editCursor then app
  else app.withUi fun ui =>
    { ui with
      editName := ui.editName.take ui.editCursor ++ character :: ui.editName.drop ui.editCursor
      editCursor := ui.editCursor + 1 }.clearStatus

def handleSaveNameBackspace (app : App Context Ref) : App Context Ref :=
  if app.ui.editCursor = 0 then app
  else app.withUi fun ui =>
    let cursor := min ui.editCursor ui.editName.length
    { ui with
      editName := ui.editName.take (cursor - 1) ++ ui.editName.drop cursor
      editCursor := cursor - 1 }.clearStatus

end PhyNspire.App

import PhyNspire.App.Dialogs

/-!
The event loop. One event is handled after the other until the application stops running; drawing
and the pointer on the screen are left out.
-/

namespace PhyNspire.App

open PhyNspire.Eval PhyNspire.Storage
open PhyNspire.Notebook hiding perform

variable {Context Ref Value : Type}

inductive Key where
  | unset
  | esc
  | enter
  | tab
  | menu
  | up
  | down
  | left
  | right
  | backspace
  | other
deriving DecidableEq, Repr

inductive Event where
  | nothing
  | keyDown (key : Key)
  | keyUp (key : Key)
  | pointerMove (x y : Int)
  | pointerDown (x y : Int)
  | pointerUp (x y : Int)
  | textInput (character : UInt8)
  | quit
deriving DecidableEq, Repr

def pointerInRect (x y left top width height : Int) : Bool :=
  decide (left ≤ x) && decide (x < left + width) && decide (top ≤ y) && decide (y < top + height)

def rowAt (x y top stride height : Int) (count : Nat) : Option Nat :=
  (List.range count).find? fun row => pointerInRect x y 58 (top + row * stride) 204 height

def openFirstVisible (selected : Nat) : Nat := if selected < 8 then 0 else selected - 8 + 1

/-- The footer button of the notebook that the pointer is on: true for Markdown. -/
def insertButton (x y : Int) : Option Bool :=
  if pointerInRect x y 5 222 31 14 then some true
  else if pointerInRect x y 40 222 43 14 then some false
  else none

variable (machinery : Machinery Context Ref Value) (screen : Screen Context Ref) (outside : Outside)

def handleModalPointer (app : App Context Ref) (x y : Int) : App Context Ref :=
  match app.ui.view with
  | .fileMenu =>
    match rowAt x y 68 25 21 4 with
    | none => app
    | some row => activateFileMenu machinery outside (app.withUi ({ · with selected := row }))
  | .openList =>
    let first := openFirstVisible app.ui.selected
    match rowAt x y 46 18 17 (min (first + 8) app.ui.catalog.length - first) with
    | none => app
    | some row => activateOpen machinery outside (app.withUi ({ · with selected := first + row }))
  | .dirtyConfirm =>
    match rowAt x y 101 21 17 3 with
    | none => app
    | some row => activateDirty machinery outside (app.withUi ({ · with selected := row }))
  | .palette =>
    if pointerInRect x y 54 42 18 20 then movePaletteCategory screen app (-1)
    else if pointerInRect x y 248 42 18 20 then movePaletteCategory screen app 1
    else
      let count := paletteEntryCount screen app.ui.paletteKind app.ui.paletteCategory
      let first := paletteFirstVisible screen app.ui.paletteKind app.ui.paletteCategory app.ui.selected 7
      match rowAt x y 66 18 17 (min (first + 7) count - first) with
      | none => app
      | some row => activatePalette screen (app.withUi ({ · with selected := first + row }))
  | _ => app

def modalKey (app : App Context Ref) (key : Key) : App Context Ref :=
  match key with
  | .esc =>
    let closed := app.withUi fun ui =>
      { ui with
        pending := if ui.view = View.dirtyConfirm then .nothing else ui.pending
        view := .notebook }.clearStatus
    if app.ui.view = .dirtyConfirm ∨ app.ui.view = .saveAs then closed.did .left else closed
  | .up => moveModalSelection screen app (-1)
  | .down => moveModalSelection screen app 1
  | .tab => moveModalSelection screen app 1
  | .left =>
    if app.ui.view = .palette then movePaletteCategory screen app (-1)
    else if app.ui.view = .saveAs ∧ 0 < app.ui.editCursor then
      app.withUi fun ui => { ui with editCursor := ui.editCursor - 1 }
    else app
  | .right =>
    if app.ui.view = .palette then movePaletteCategory screen app 1
    else if app.ui.view = .saveAs ∧ app.ui.editCursor < app.ui.editName.length then
      app.withUi fun ui => { ui with editCursor := ui.editCursor + 1 }
    else app
  | .backspace => if app.ui.view = .saveAs then handleSaveNameBackspace app else app
  | .enter =>
    match app.ui.view with
    | .fileMenu => activateFileMenu machinery outside app
    | .saveAs => activateSaveAs machinery outside app
    | .openList => activateOpen machinery outside app
    | .dirtyConfirm => activateDirty machinery outside app
    | .palette => activatePalette screen app
    | .notebook => app
  | _ => app

/-- An arrow key in the notebook: through the text, through a wide formula, or through the cells. -/
def arrowKey (notebook : Notebook Context Ref) (key : Key) : Notebook Context Ref :=
  let direction : Int := if key = .up ∨ key = .left then -1 else 1
  if notebook.editing = true ∧ (key = .left ∨ key = .right) then (editMove notebook direction).2
  else if notebook.editing = true ∧ key = .tab then (editSwitchField notebook).2
  else
    let moved : Bool × Notebook Context Ref :=
      if notebook.editing = true ∧ (key = .up ∨ key = .down) then editMoveLine notebook direction else (false, notebook)
    if moved.1 then moved.2
    else if (key = .left ∨ key = .right) ∧ screen.pans moved.2 direction = true then moved.2
    else (selectNext moved.2 direction).2

def notebookKey (app : App Context Ref) (key : Key) : App Context Ref :=
  let notebook := app.workspace.notebook
  match key with
  | .esc =>
    if notebook.editing then app.withNotebook (endEdit notebook) else requestPending machinery outside app .quit
  | .menu => if notebook.editing then beginPalette app else beginFileMenu app
  | .backspace => if notebook.editing then app.withNotebook (editBackspace notebook).2 else app
  | .up => app.withNotebook (arrowKey screen notebook .up)
  | .left => app.withNotebook (arrowKey screen notebook .left)
  | .down => app.withNotebook (arrowKey screen notebook .down)
  | .right => app.withNotebook (arrowKey screen notebook .right)
  | .tab => app.withNotebook (arrowKey screen notebook .tab)
  | .enter =>
    let activated := activateSelected machinery.engine notebook
    app.withNotebook (if activated.1 = .unsupported then (beginEditSelected activated.2).2 else activated.2)
  | _ => app

def pointNotebook (notebook : Notebook Context Ref) (x y : Int) : Notebook Context Ref :=
  match insertButton x y with
  | some markdown => (insertAt notebook markdown).2
  | none =>
    let ran := runAt machinery.engine notebook (screen.badgeAt notebook x y)
    if ran.1.isSome then ran.2
    else
      let hit := screen.cellAt notebook x y
      let edit := beginEditAt notebook hit (screen.spotAt notebook x y).1 (screen.spotAt notebook x y).2
      if edit.1 then edit.2 else (selectAt edit.2 hit).2

def pointerDown (app : App Context Ref) (x y : Int) : App Context Ref :=
  if ¬(0 ≤ x ∧ x < 320 ∧ 0 ≤ y ∧ y < 240) then app
  else if app.ui.view ≠ .notebook then handleModalPointer machinery screen outside app x y
  else if pointerInRect x y 282 2 36 13 then
    if app.workspace.notebook.editing = false then beginFileMenu app else app
  else app.withNotebook (pointNotebook machinery screen app.workspace.notebook x y)

/-- The body of the loop of `phy_app_run`, on one event. -/
def handle (app : App Context Ref) (event : Event) : App Context Ref :=
  match event with
  | .quit =>
    if app.ui.view = .notebook ∧ app.workspace.notebook.dirty = true then requestPending machinery outside app .quit
    else { app with running := false }
  | .keyDown key =>
    if app.ui.view ≠ .notebook then modalKey machinery screen outside app key
    else notebookKey machinery screen outside app key
  | .pointerDown x y => pointerDown machinery screen outside app x y
  | .textInput character =>
    if app.ui.view = .saveAs then handleSaveNameText app character
    else if app.ui.view = .notebook then
      let notebook := app.workspace.notebook
      let edited := if notebook.editing then notebook else (beginEditSelected notebook).2
      app.withNotebook (editInsert edited character).2
    else app
  | _ => app

def step (app : App Context Ref) (event : Event) : App Context Ref :=
  handle machinery screen outside { app with deeds := [] } event

/-- The state in which the loop begins. -/
def launch (notebook : Notebook Context Ref) : App Context Ref where
  ui := ⟨.notebook, .nothing, 0, [], [], 0, .cas, 0, .ok, false⟩
  workspace := ⟨markClean notebook, none⟩
  running := true
  deeds := []

end PhyNspire.App

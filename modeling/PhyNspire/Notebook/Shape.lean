import PhyNspire.Notebook.Replay

/-!
Selecting, inserting and editing cells. The layout of the cards is not part of the model: a pointer
that hits a card comes with the index of its cell, and a click in a text with the column it is on.
-/

namespace PhyNspire.Notebook

open PhyNspire.Platform PhyNspire.Eval

variable {Context Ref Value : Type}

/-- `NOTEBOOK_EDIT_COLUMNS`: the width of a Markdown card in glyphs. -/
def editColumns : Nat := 45

def Cell.edited (secondary : Bool) (cell : Cell Ref) : Text :=
  if cell.kind = .markdown ∧ secondary = true then cell.secondary else cell.primary

def Cell.editCapacity (secondary : Bool) (cell : Cell Ref) : Nat :=
  if cell.kind = .markdown ∧ secondary = true then detailCapacity else textCapacity

def Cell.withEdited (secondary : Bool) (text : Text) (cell : Cell Ref) : Cell Ref :=
  if cell.kind = .markdown ∧ secondary = true then { cell with secondary := text } else { cell with primary := text }

/-- `edit_buffer`: the text that is edited and its capacity. -/
def editBuffer (notebook : Notebook Context Ref) : Option (Text × Nat) :=
  if notebook.editing then
    notebook.cells[notebook.editIndex]?.map fun cell =>
      (cell.edited notebook.editSecondary, cell.editCapacity notebook.editSecondary)
  else none

def select (notebook : Notebook Context Ref) (index : Nat) : Bool × Notebook Context Ref :=
  if notebook.cells.length ≤ index then (false, notebook)
  else (decide (notebook.selected ≠ index), { notebook with selected := index, editing := false })

def selectNext (notebook : Notebook Context Ref) (direction : Int) : Bool × Notebook Context Ref :=
  if notebook.cells = [] ∨ direction = 0 then (false, notebook)
  else select notebook
    (if 0 < direction then (notebook.selected + 1) % notebook.cells.length
    else if notebook.selected = 0 then notebook.cells.length - 1
    else notebook.selected - 1)

def selectAt (notebook : Notebook Context Ref) (hit : Option Nat) : Bool × Notebook Context Ref :=
  match hit with
  | none => (false, notebook)
  | some index => select notebook index

def endEdit (notebook : Notebook Context Ref) : Notebook Context Ref := { notebook with editing := false }

def markClean (notebook : Notebook Context Ref) : Notebook Context Ref := { notebook with dirty := false }

def activateSelected (engine : Engine Context Ref Value) (notebook : Notebook Context Ref) :
    Status × Notebook Context Ref :=
  match notebook.cells[notebook.selected]? with
  | none => (.invalidArgument, notebook)
  | some cell =>
    if cell.kind ≠ .input then (.unsupported, notebook)
    else evaluate engine { notebook with editing := false } notebook.selected

/-- `phy_notebook_run_at`, on the cell whose badge the pointer hits. -/
def runAt (engine : Engine Context Ref Value) (notebook : Notebook Context Ref) (hit : Option Nat) :
    Option Status × Notebook Context Ref :=
  match hit.bind fun index => notebook.cells[index]?.map (index, ·) with
  | none => (none, notebook)
  | some (index, cell) =>
    if cell.kind ≠ .input then (none, notebook)
    else
      let evaluated := evaluate engine { notebook with selected := index, editing := false } index
      (some evaluated.1, evaluated.2)

def insertionAfterSelection (notebook : Notebook Context Ref) : Nat :=
  if notebook.cells[notebook.selected]?.any (fun cell => decide (cell.kind = .input)) &&
      hasOutput notebook.cells notebook.selected then notebook.selected + 2
  else notebook.selected + 1

/-- The heading of a new Markdown cell: `New note`. -/
def newNote : Text := [78, 101, 119, 32, 110, 111, 116, 101]

/-- `phy_notebook_insert_at`, on the button that the pointer hits. -/
def insertAt (notebook : Notebook Context Ref) (markdown : Bool) : Status × Notebook Context Ref :=
  let cell : Cell Ref := if markdown then blankCell .markdown newNote [] else blankCell .input [] []
  let index := if notebook.cells = [] then 0 else insertionAfterSelection notebook
  match insertCell notebook index cell with
  | .error status => (status, notebook)
  | .ok inserted => (.ok, { inserted with
      selected := index
      editing := true
      editIndex := index
      editSecondary := false
      cursor := cell.primary.length })

/-- `phy_notebook_begin_edit_at`, on the hit cell: whether the pointer is on the body of a Markdown
cell, and the column it is on. -/
def beginEditAt (notebook : Notebook Context Ref) (hit : Option Nat) (body : Bool) (column : Nat) :
    Bool × Notebook Context Ref :=
  match hit.bind fun index => notebook.cells[index]?.map (index, ·) with
  | none => (false, notebook)
  | some (index, cell) =>
    if cell.kind.isOutput then (false, (select notebook index).2)
    else
      let secondary := decide (cell.kind = .markdown) && body
      (true, { notebook with
        selected := index
        editing := true
        editIndex := index
        editSecondary := secondary
        cursor := min column (cell.edited secondary).length })

def beginEditSelected (notebook : Notebook Context Ref) : Bool × Notebook Context Ref :=
  match notebook.cells[notebook.selected]? with
  | none => (false, notebook)
  | some cell =>
    if cell.kind.isOutput then (false, notebook)
    else (true, { notebook with
      editing := true
      editIndex := notebook.selected
      editSecondary := false
      cursor := cell.primary.length })

def markSourceStale (notebook : Notebook Context Ref) : List (Cell Ref) :=
  if notebook.cells[notebook.editIndex]?.any fun cell => decide (cell.kind = .input) then
    let marked := notebook.cells.modify notebook.editIndex fun cell => { cell with stale := true }
    if hasOutput notebook.cells notebook.editIndex then
      marked.modify (notebook.editIndex + 1) fun cell => { cell with stale := true }
    else marked
  else notebook.cells

def rewrite (notebook : Notebook Context Ref) (text : Text) (cursor : Nat) : Notebook Context Ref :=
  { notebook with
    cells := markSourceStale { notebook with
      cells := notebook.cells.modify notebook.editIndex (Cell.withEdited notebook.editSecondary text) }
    cursor := cursor
    dirty := true }

/-- `' ' <= c && c <= '~'`. -/
def printable (character : UInt8) : Bool := decide (32 ≤ character) && decide (character ≤ 126)

def editInsertText (notebook : Notebook Context Ref) (text : Text) (cursorOffset : Nat) :
    Bool × Notebook Context Ref :=
  if text = [] ∨ text.length < cursorOffset ∨ text.all printable = false then (false, notebook)
  else
    match editBuffer notebook with
    | none => (false, notebook)
    | some (buffer, capacity) =>
      if capacity ≤ text.length ∨ capacity - text.length - 1 < buffer.length ∨ buffer.length < notebook.cursor then
        (false, notebook)
      else (true, rewrite notebook (buffer.take notebook.cursor ++ text ++ buffer.drop notebook.cursor)
        (notebook.cursor + cursorOffset))

def editInsert (notebook : Notebook Context Ref) (character : UInt8) : Bool × Notebook Context Ref :=
  if printable character = false then (false, notebook) else editInsertText notebook [character] 1

def editBackspace (notebook : Notebook Context Ref) : Bool × Notebook Context Ref :=
  match editBuffer notebook with
  | none => (false, notebook)
  | some (buffer, _) =>
    if notebook.cursor = 0 then (false, notebook)
    else
      let cursor := min notebook.cursor buffer.length
      (true, rewrite notebook (buffer.take (cursor - 1) ++ buffer.drop cursor) (cursor - 1))

def editMove (notebook : Notebook Context Ref) (direction : Int) : Bool × Notebook Context Ref :=
  match editBuffer notebook with
  | none => (false, notebook)
  | some (buffer, _) =>
    if direction < 0 ∧ 0 < notebook.cursor then (true, { notebook with cursor := notebook.cursor - 1 })
    else if 0 < direction ∧ notebook.cursor < buffer.length then
      (true, { notebook with cursor := notebook.cursor + 1 })
    else (false, notebook)

/-- `phy_notebook_edit_move_line`: the cursor is first brought back inside the text. -/
def editMoveLine (notebook : Notebook Context Ref) (direction : Int) : Bool × Notebook Context Ref :=
  match editBuffer notebook with
  | none => (false, notebook)
  | some (buffer, _) =>
    if direction = 0 ∨ notebook.editSecondary = false ∨
        notebook.cells[notebook.editIndex]?.any (fun cell => decide (cell.kind = .markdown)) = false then
      (false, notebook)
    else
      let cursor := min notebook.cursor buffer.length
      let inside : Notebook Context Ref := { notebook with cursor := cursor }
      if direction < 0 then
        if cursor < editColumns then (false, inside) else (true, { notebook with cursor := cursor - editColumns })
      else if cursor / editColumns = buffer.length / editColumns then (false, inside)
      else (true, { notebook with cursor := min (cursor + editColumns) buffer.length })

/-- `phy_notebook_edit_switch_field`. The slots after the last cell are blank, which makes them Markdown. -/
def editSwitchField (notebook : Notebook Context Ref) : Bool × Notebook Context Ref :=
  if notebook.editing = false ∨
      notebook.cells[notebook.editIndex]?.any (fun cell => decide (cell.kind ≠ .markdown)) = true then
    (false, notebook)
  else
    let switched : Notebook Context Ref := { notebook with editSecondary := !notebook.editSecondary }
    (true, { switched with cursor := ((editBuffer switched).map fun buffer => buffer.1.length).getD 0 })

end PhyNspire.Notebook

/-!
The shape of a notebook: where the outputs stand, where the selection and the editor are, and that
every text ends inside its buffer. Only an evaluation can leave a text without an end, and only when
the tree of its source has a text too long for the buffer.
-/

namespace PhyNspire.Notebook

open PhyNspire.Platform PhyNspire.Eval

variable {Context Ref Value : Type}

def Cell.Terminated (cell : Cell Ref) : Prop :=
  cell.primary.length < textCapacity ∧ cell.secondary.length < detailCapacity

def IsInput (cells : List (Cell Ref)) (index : Nat) : Prop := ∃ cell, cells[index]? = some cell ∧ cell.kind = .input

structure Sound (notebook : Notebook Context Ref) : Prop where
  count : notebook.cells.length ≤ maxCells
  selected : notebook.selected < notebook.cells.length ∨ notebook.cells = [] ∧ notebook.selected = 0
  texts : ∀ cell ∈ notebook.cells, cell.Terminated
  owners : ∀ index cell, notebook.cells[index]? = some cell → cell.kind.isOutput = true →
    cell.ownerInput + 1 = index ∧ IsInput notebook.cells cell.ownerInput
  editing : notebook.editing = true → ∃ cell, notebook.cells[notebook.editIndex]? = some cell ∧
    cell.kind.isOutput = false ∧ notebook.cursor ≤ (cell.edited notebook.editSecondary).length

variable {notebook : Notebook Context Ref}

theorem Sound.output_unique (sound : Sound notebook) {first second : Nat}
    {cell other : Cell Ref} (there : notebook.cells[first]? = some cell) (isOutput : cell.kind.isOutput = true)
    (there' : notebook.cells[second]? = some other) (isOutput' : other.kind.isOutput = true)
    (same : cell.ownerInput = other.ownerInput) : first = second := by
  rw [← (sound.owners first cell there isOutput).1, same, (sound.owners second other there' isOutput').1]

theorem isOutput_input {cell : Cell Ref} (isInput : cell.kind = .input) : cell.kind.isOutput = false := by
  rw [isInput]
  rfl

@[simp] theorem Cell.kind_shifted (cell : Cell Ref) (index : Nat) : (cell.shifted index).kind = cell.kind := by
  unfold shifted
  split_ifs <;> rfl

@[simp] theorem Cell.primary_shifted (cell : Cell Ref) (index : Nat) :
    (cell.shifted index).primary = cell.primary := by
  unfold shifted
  split_ifs <;> rfl

@[simp] theorem Cell.secondary_shifted (cell : Cell Ref) (index : Nat) :
    (cell.shifted index).secondary = cell.secondary := by
  unfold shifted
  split_ifs <;> rfl

@[simp] theorem Cell.edited_shifted (cell : Cell Ref) (index : Nat) (secondary : Bool) :
    (cell.shifted index).edited secondary = cell.edited secondary := by
  unfold edited
  rw [kind_shifted, primary_shifted, secondary_shifted]

theorem Cell.owner_shifted {cell : Cell Ref} {index : Nat} (isOutput : cell.kind.isOutput = true)
    (after : index ≤ cell.ownerInput) : (cell.shifted index).ownerInput = cell.ownerInput + 1 := by
  unfold shifted
  rw [isOutput, decide_eq_true after]
  rfl

def withCell (cells : List (Cell Ref)) (index : Nat) (cell : Cell Ref) : List (Cell Ref) :=
  cells.take index ++ cell :: (cells.drop index).map (Cell.shifted index)

section

variable {cells : List (Cell Ref)} {index : Nat} {cell : Cell Ref}

theorem withCell_length (inside : index ≤ cells.length) : (withCell cells index cell).length = cells.length + 1 := by
  unfold withCell
  rw [List.length_append, List.length_take, List.length_cons, List.length_map, List.length_drop]
  omega

variable {position : Nat}

theorem withCell_before (inside : index ≤ cells.length) (before : position < index) :
    (withCell cells index cell)[position]? = cells[position]? := by
  unfold withCell
  rw [List.getElem?_append_left (by rw [List.length_take]; omega), List.getElem?_take, if_pos before]

theorem withCell_at (inside : index ≤ cells.length) : (withCell cells index cell)[index]? = some cell := by
  unfold withCell
  rw [List.getElem?_append_right (by rw [List.length_take]; omega), List.length_take, Nat.min_eq_left inside,
    Nat.sub_self]
  rfl

theorem withCell_after (inside : index ≤ cells.length) (after : index ≤ position) :
    (withCell cells index cell)[position + 1]? = cells[position]?.map (Cell.shifted index) := by
  unfold withCell
  rw [List.getElem?_append_right (by rw [List.length_take]; omega), List.length_take, Nat.min_eq_left inside,
    show position + 1 - index = position - index + 1 by omega, List.getElem?_cons_succ, List.getElem?_map,
    List.getElem?_drop, Nat.add_sub_cancel' after]

theorem mem_withCell {other : Cell Ref} (member : other ∈ withCell cells index cell) :
    other = cell ∨ ∃ old ∈ cells, other = old ∨ other = old.shifted index := by
  obtain early | late := List.mem_append.mp member
  · exact Or.inr ⟨other, List.mem_of_mem_take early, Or.inl rfl⟩
  · obtain rfl | late := List.mem_cons.mp late
    · exact Or.inl rfl
    · obtain ⟨old, found, rfl⟩ := List.mem_map.mp late
      exact Or.inr ⟨old, List.mem_of_mem_drop found, Or.inr rfl⟩

theorem IsInput.withCell (isInput : IsInput cells position) (inside : index ≤ cells.length) (cell : Cell Ref) :
    IsInput (withCell cells index cell) (if position < index then position else position + 1) := by
  obtain ⟨input, there, kind⟩ := isInput
  by_cases before : position < index
  · rw [if_pos before]
    exact ⟨input, by rw [withCell_before inside before, there], kind⟩
  · rw [if_neg before]
    refine ⟨input.shifted index, ?_, by rw [Cell.kind_shifted, kind]⟩
    rw [withCell_after inside (not_lt.mp before), there]
    rfl

theorem owners_withCell
    (owners : ∀ position other, cells[position]? = some other → other.kind.isOutput = true →
      other.ownerInput + 1 = position ∧ IsInput cells other.ownerInput)
    (inside : index ≤ cells.length)
    (boundary : ∀ next, cells[index]? = some next → next.kind.isOutput = false)
    (owner : cell.kind.isOutput = true → cell.ownerInput + 1 = index ∧ IsInput cells cell.ownerInput)
    (position : Nat) (other : Cell Ref) (there : (withCell cells index cell)[position]? = some other)
    (isOutput : other.kind.isOutput = true) :
    other.ownerInput + 1 = position ∧ IsInput (withCell cells index cell) other.ownerInput := by
  obtain before | rfl | after := lt_trichotomy position index
  · rw [withCell_before inside before] at there
    obtain ⟨next, isInput⟩ := owners position other there isOutput
    have moved := isInput.withCell inside cell
    rw [if_pos (by omega)] at moved
    exact ⟨next, moved⟩
  · rw [withCell_at inside, Option.some_inj] at there
    subst there
    obtain ⟨next, isInput⟩ := owner isOutput
    have moved := isInput.withCell inside cell
    rw [if_pos (by omega)] at moved
    exact ⟨next, moved⟩
  · obtain ⟨before, rfl⟩ : ∃ before, position = before + 1 := ⟨position - 1, by omega⟩
    rw [withCell_after inside (by omega), Option.map_eq_some_iff] at there
    obtain ⟨old, there, rfl⟩ := there
    rw [Cell.kind_shifted] at isOutput
    obtain ⟨next, isInput⟩ := owners before old there isOutput
    have later : index ≠ before := by
      rintro rfl
      rw [boundary old there] at isOutput
      cases isOutput
    rw [Cell.owner_shifted isOutput (by omega)]
    have moved := isInput.withCell inside cell
    rw [if_neg (by omega)] at moved
    exact ⟨by omega, moved⟩

end

theorem insertCell_ok {after : Notebook Context Ref} {index : Nat} {cell : Cell Ref}
    (inserted : insertCell notebook index cell = .ok after) :
    index ≤ notebook.cells.length ∧ notebook.cells.length < maxCells ∧ after = { notebook with
      cells := withCell notebook.cells index cell
      dirty := true
      selected :=
        if index ≤ notebook.selected ∧ 1 < notebook.cells.length + 1 then notebook.selected + 1
        else notebook.selected
      editIndex :=
        if notebook.editing ∧ index ≤ notebook.editIndex then notebook.editIndex + 1 else notebook.editIndex } := by
  unfold insertCell at inserted
  by_cases outside : notebook.cells.length < index
  · rw [if_pos outside] at inserted
    cases inserted
  by_cases full : maxCells ≤ notebook.cells.length
  · rw [if_neg outside, if_pos full] at inserted
    cases inserted
  rw [if_neg outside, if_neg full] at inserted
  exact ⟨not_lt.mp outside, not_le.mp full, (Except.ok.inj inserted).symm⟩

theorem Sound.inserted {after : Notebook Context Ref} {index : Nat} {cell : Cell Ref}
    (sound : Sound notebook) (inserted : insertCell notebook index cell = .ok after) (terminated : cell.Terminated)
    (boundary : ∀ next, notebook.cells[index]? = some next → next.kind.isOutput = false)
    (owner : cell.kind.isOutput = true →
      cell.ownerInput + 1 = index ∧ IsInput notebook.cells cell.ownerInput) : Sound after := by
  obtain ⟨inside, room, rfl⟩ := insertCell_ok inserted
  have length : (withCell notebook.cells index cell).length = notebook.cells.length + 1 := withCell_length inside
  refine ⟨by dsimp only; omega, ?_, ?_, owners_withCell sound.owners inside boundary owner, ?_⟩
  · refine Or.inl ?_
    dsimp only
    rw [length]
    obtain before | ⟨none, first⟩ := sound.selected
    · split_ifs <;> omega
    · rw [none, List.length_nil, if_neg (by omega)]
      omega
  · intro other member
    obtain rfl | ⟨old, found, rfl | rfl⟩ := mem_withCell member
    · exact terminated
    · exact sound.texts other found
    · unfold Cell.Terminated
      rw [Cell.primary_shifted, Cell.secondary_shifted]
      exact sound.texts old found
  · intro editing
    dsimp only at editing ⊢
    obtain ⟨edited, there, source, cursor⟩ := sound.editing editing
    by_cases moved : index ≤ notebook.editIndex
    · rw [if_pos ⟨editing, moved⟩]
      refine ⟨edited.shifted index, ?_, by rw [Cell.kind_shifted, source], by rwa [Cell.edited_shifted]⟩
      rw [withCell_after inside moved, there]
      rfl
    · rw [if_neg (fun both => moved both.2)]
      exact ⟨edited, by rw [withCell_before inside (not_le.mp moved), there], source, cursor⟩

theorem no_cell_at_end (next : Cell Ref)
    (there : notebook.cells[notebook.cells.length]? = some next) : next.kind.isOutput = false := by
  rw [List.getElem?_eq_none le_rfl] at there
  cases there

theorem copyText_ok {capacity : Nat} {source text : Text} (copied : copyText capacity source = .ok text) :
    text = source ∧ text.length < capacity := by
  unfold copyText at copied
  split_ifs at copied with long
  obtain rfl := Except.ok.inj copied
  exact ⟨rfl, not_le.mp long⟩

theorem Sound.addMarkdown (sound : Sound notebook) (heading body : Text) :
    Sound (addMarkdown notebook heading body).2 := by
  unfold Notebook.addMarkdown
  split
  · exact sound
  · exact sound
  · rename_i heading' body' copied copied'
    split
    · exact sound
    · rename_i inserted run
      exact sound.inserted run ⟨(copyText_ok copied).2, (copyText_ok copied').2⟩ no_cell_at_end
        (fun isOutput => Bool.noConfusion isOutput)

theorem Sound.addInput (sound : Sound notebook) (source : Text) :
    Sound (addInput notebook source).2 := by
  unfold Notebook.addInput
  split
  · exact sound
  · rename_i source' copied
    split
    · exact sound
    · rename_i inserted run
      exact sound.inserted run ⟨(copyText_ok copied).2, show 0 < detailCapacity by decide⟩ no_cell_at_end
        (fun isOutput => Bool.noConfusion isOutput)

end PhyNspire.Notebook

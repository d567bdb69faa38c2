import PhyNspire.Notebook.Shape

/-!
Every operation keeps the shape of a notebook, evaluations on the condition that the source's tree
fits into its buffer.
-/

namespace PhyNspire.Notebook

open PhyNspire.Eval

variable {Context Ref Value : Type}

theorem Sound.moved {notebook after : Notebook Context Ref} (sound : Sound notebook)
    (cells : after.cells = notebook.cells)
    (selected : after.selected = notebook.selected ∨ after.selected < notebook.cells.length)
    (editing : after.editing = true → ∃ cell, notebook.cells[after.editIndex]? = some cell ∧
      cell.kind.isOutput = false ∧ after.cursor ≤ (cell.edited after.editSecondary).length) : Sound after where
  count := cells ▸ sound.count
  selected := by
    obtain same | inside := selected
    · rw [same, cells]
      exact sound.selected
    · rw [cells]
      exact Or.inl inside
  texts := cells ▸ sound.texts
  owners := by
    rw [cells]
    exact sound.owners
  editing := by
    rw [cells]
    exact editing

theorem Sound.select {notebook : Notebook Context Ref} (sound : Sound notebook) (index : Nat) :
    Sound (select notebook index).2 := by
  unfold Notebook.select
  split_ifs with outside
  · exact sound
  · exact sound.moved rfl (Or.inr (not_le.mp outside)) (fun editing => Bool.noConfusion editing)

theorem Sound.selectNext {notebook : Notebook Context Ref} (sound : Sound notebook) (direction : Int) :
    Sound (selectNext notebook direction).2 := by
  unfold Notebook.selectNext
  by_cases nothing : notebook.cells = [] ∨ direction = 0
  · rw [if_pos nothing]
    exact sound
  · rw [if_neg nothing]
    exact sound.select _

theorem Sound.selectAt {notebook : Notebook Context Ref} (sound : Sound notebook) (hit : Option Nat) :
    Sound (selectAt notebook hit).2 := by
  cases hit with
  | none => exact sound
  | some index => exact sound.select index

theorem Sound.beginEditAt {notebook : Notebook Context Ref} (sound : Sound notebook) (hit : Option Nat) (body : Bool)
    (column : Nat) : Sound (beginEditAt notebook hit body column).2 := by
  unfold Notebook.beginEditAt
  cases hit with
  | none => exact sound
  | some index =>
    rw [Option.bind_some]
    cases there : notebook.cells[index]? with
    | none => exact sound
    | some cell =>
      dsimp only [Option.map_some]
      by_cases isOutput : cell.kind.isOutput = true
      · rw [if_pos isOutput]
        exact sound.select index
      · rw [if_neg isOutput]
        exact sound.moved rfl (Or.inr (List.getElem?_eq_some_iff.mp there).1)
          (fun _ => ⟨cell, there, Bool.eq_false_iff.mpr isOutput, min_le_right _ _⟩)

@[simp] theorem Cell.edited_false (cell : Cell Ref) : cell.edited false = cell.primary := by
  unfold Cell.edited
  rw [if_neg (fun both => Bool.false_ne_true both.2)]

theorem Sound.beginEditSelected {notebook : Notebook Context Ref} (sound : Sound notebook) :
    Sound (beginEditSelected notebook).2 := by
  unfold Notebook.beginEditSelected
  cases there : notebook.cells[notebook.selected]? with
  | none => exact sound
  | some cell =>
    dsimp only
    by_cases isOutput : cell.kind.isOutput = true
    · rw [if_pos isOutput]
      exact sound
    · rw [if_neg isOutput]
      refine sound.moved rfl (Or.inl rfl) (fun _ => ⟨cell, there, Bool.eq_false_iff.mpr isOutput, ?_⟩)
      rw [Cell.edited_false]

theorem editBuffer_some {notebook : Notebook Context Ref} {buffer : Text} {capacity : Nat}
    (found : editBuffer notebook = some (buffer, capacity)) :
    notebook.editing = true ∧ ∃ cell, notebook.cells[notebook.editIndex]? = some cell ∧
      buffer = cell.edited notebook.editSecondary ∧ capacity = cell.editCapacity notebook.editSecondary := by
  unfold editBuffer at found
  by_cases editing : notebook.editing = true
  · rw [if_pos editing, Option.map_eq_some_iff] at found
    obtain ⟨cell, there, same⟩ := found
    exact ⟨editing, cell, there, (congrArg Prod.fst same).symm, (congrArg Prod.snd same).symm⟩
  · rw [if_neg editing] at found
    cases found

theorem Sound.cursor {notebook after : Notebook Context Ref} (sound : Sound notebook) {buffer : Text} {capacity : Nat}
    (found : editBuffer notebook = some (buffer, capacity)) (inside : after.cursor ≤ buffer.length)
    (same : after = { notebook with cursor := after.cursor }) : Sound after := by
  obtain ⟨editing, cell, there, rfl, rfl⟩ := editBuffer_some found
  rw [same]
  refine sound.moved rfl (Or.inl rfl) (fun _ => ?_)
  obtain ⟨cell', there', source, _⟩ := sound.editing editing
  rw [there, Option.some_inj] at there'
  subst there'
  exact ⟨cell, there, source, inside⟩

theorem Sound.editMove {notebook : Notebook Context Ref} (sound : Sound notebook) (direction : Int) :
    Sound (editMove notebook direction).2 := by
  unfold Notebook.editMove
  split
  · exact sound
  · rename_i buffer capacity found
    obtain ⟨editing, cell, there, same, _⟩ := editBuffer_some found
    obtain ⟨cell', there', _, cursor⟩ := sound.editing editing
    rw [there, Option.some_inj] at there'
    subst there'
    rw [← same] at cursor
    by_cases left : direction < 0 ∧ 0 < notebook.cursor
    · rw [if_pos left]
      exact sound.cursor found (by dsimp only; omega) rfl
    rw [if_neg left]
    by_cases right : 0 < direction ∧ notebook.cursor < buffer.length
    · rw [if_pos right]
      exact sound.cursor found (by dsimp only; omega) rfl
    · rw [if_neg right]
      exact sound

theorem Sound.editMoveLine {notebook : Notebook Context Ref} (sound : Sound notebook) (direction : Int) :
    Sound (editMoveLine notebook direction).2 := by
  unfold Notebook.editMoveLine
  split
  · exact sound
  · rename_i buffer capacity found
    dsimp only
    split
    · exact sound
    split
    · split
      · exact sound.cursor found (min_le_right _ _) rfl
      · exact sound.cursor found (by dsimp only; omega) rfl
    · split
      · exact sound.cursor found (min_le_right _ _) rfl
      · exact sound.cursor found (min_le_right _ _) rfl

theorem Sound.editSwitchField {notebook : Notebook Context Ref} (sound : Sound notebook) :
    Sound (editSwitchField notebook).2 := by
  unfold Notebook.editSwitchField
  split
  · exact sound
  · rename_i free
    obtain ⟨editing, _⟩ := not_or.mp free
    replace editing : notebook.editing = true := Bool.not_eq_false _ ▸ editing
    obtain ⟨cell, there, source, _⟩ := sound.editing editing
    refine sound.moved rfl (Or.inl rfl) (fun _ => ⟨cell, there, source, ?_⟩)
    dsimp only
    unfold editBuffer
    rw [if_pos editing]
    dsimp only
    rw [there]
    exact le_rfl

structure Cell.Alike (cell other : Cell Ref) : Prop where
  output : other.kind.isOutput = cell.kind.isOutput
  source : cell.kind.isOutput = false → other.kind = cell.kind
  owner : cell.kind.isOutput = true → other.ownerInput = cell.ownerInput

def Changed (change : Cell Ref → Cell Ref → Prop) (cells others : List (Cell Ref)) : Prop :=
  others.length = cells.length ∧
    ∀ (index : Nat) (cell other : Cell Ref), cells[index]? = some cell → others[index]? = some other →
      change cell other

theorem Changed.before {change : Cell Ref → Cell Ref → Prop} {cells others : List (Cell Ref)}
    (changed : Changed change cells others) {index : Nat} {other : Cell Ref} (there : others[index]? = some other) :
    ∃ cell, cells[index]? = some cell ∧ change cell other := by
  have inside := (List.getElem?_eq_some_iff.mp there).1
  rw [changed.1] at inside
  exact ⟨_, List.getElem?_eq_getElem inside, changed.2 index _ other (List.getElem?_eq_getElem inside) there⟩

theorem Changed.after {change : Cell Ref → Cell Ref → Prop} {cells others : List (Cell Ref)}
    (changed : Changed change cells others) {index : Nat} {cell : Cell Ref} (there : cells[index]? = some cell) :
    ∃ other, others[index]? = some other ∧ change cell other := by
  have inside := (List.getElem?_eq_some_iff.mp there).1
  rw [← changed.1] at inside
  exact ⟨_, List.getElem?_eq_getElem inside, changed.2 index cell _ there (List.getElem?_eq_getElem inside)⟩

theorem Changed.comp {change : Cell Ref → Cell Ref → Prop}
    (compose : ∀ first second third, change first second → change second third → change first third)
    {cells others last : List (Cell Ref)} (changed : Changed change cells others)
    (changed' : Changed change others last) : Changed change cells last := by
  refine ⟨changed'.1.trans changed.1, fun index cell other there there' => ?_⟩
  obtain ⟨middle, found, first⟩ := changed.after there
  exact compose _ _ _ first (changed'.2 index middle other found there')

theorem Changed.mono {change change' : Cell Ref → Cell Ref → Prop} {cells others : List (Cell Ref)}
    (changed : Changed change cells others) (weaker : ∀ cell other, change cell other → change' cell other) :
    Changed change' cells others :=
  ⟨changed.1, fun index cell other there there' => weaker cell other (changed.2 index cell other there there')⟩

theorem changed_mapIdx {change : Cell Ref → Cell Ref → Prop} (update : Nat → Cell Ref → Cell Ref)
    {cells : List (Cell Ref)} (each : ∀ index cell, cells[index]? = some cell → change cell (update index cell)) :
    Changed change cells (cells.mapIdx update) := by
  refine ⟨List.length_mapIdx, fun index cell other there there' => ?_⟩
  rw [List.getElem?_mapIdx, there] at there'
  obtain rfl := Option.some_inj.mp there'
  exact each index cell there

theorem changed_modify {change : Cell Ref → Cell Ref → Prop} {cells : List (Cell Ref)} {index : Nat}
    {update : Cell Ref → Cell Ref} (refl : ∀ cell, change cell cell)
    (each : ∀ cell, cells[index]? = some cell → change cell (update cell)) :
    Changed change cells (cells.modify index update) := by
  refine ⟨List.length_modify _ _ _, fun position cell other there there' => ?_⟩
  rw [List.getElem?_modify, there] at there'
  obtain rfl := Option.some_inj.mp there'
  by_cases here : index = position
  · subst here
    dsimp only
    rw [if_pos rfl]
    exact each cell there
  · dsimp only
    rw [if_neg here]
    exact refl cell

theorem Cell.Alike.refl (cell : Cell Ref) : cell.Alike cell := ⟨rfl, fun _ => rfl, fun _ => rfl⟩

theorem Cell.Alike.input {cell other : Cell Ref} (alike : cell.Alike other) (isInput : cell.kind = .input) :
    other.kind = .input := (alike.source (isOutput_input isInput)).trans isInput

theorem IsInput.changed {cells others : List (Cell Ref)} {index : Nat} (isInput : IsInput cells index)
    (changed : Changed Cell.Alike cells others) : IsInput others index := by
  obtain ⟨cell, there, kind⟩ := isInput
  obtain ⟨other, there', alike⟩ := changed.after there
  exact ⟨other, there', alike.input kind⟩

theorem Sound.changed {notebook after : Notebook Context Ref} (sound : Sound notebook)
    (changed : Changed Cell.Alike notebook.cells after.cells) (texts : ∀ cell ∈ after.cells, cell.Terminated)
    (selected : after.selected = notebook.selected)
    (editing : after.editing = true → ∃ cell, after.cells[after.editIndex]? = some cell ∧
      cell.kind.isOutput = false ∧ after.cursor ≤ (cell.edited after.editSecondary).length) : Sound after where
  count := changed.1 ▸ sound.count
  selected := by
    rw [selected, changed.1]
    refine sound.selected.imp id fun empty => ⟨?_, empty.2⟩
    rw [← List.length_eq_zero_iff, changed.1, empty.1]
    rfl
  texts := texts
  owners := by
    intro index other there isOutput
    obtain ⟨cell, found, alike⟩ := changed.before there
    rw [alike.output] at isOutput
    rw [alike.owner isOutput]
    obtain ⟨next, isInput⟩ := sound.owners index cell found isOutput
    exact ⟨next, isInput.changed changed⟩
  editing := editing

/-- A cell that keeps its role and its place in the document's text: of an input its source, of a
Markdown cell both texts. -/
structure Cell.Kept (cell other : Cell Ref) : Prop extends Cell.Alike cell other where
  primary : cell.kind.isOutput = false → other.primary = cell.primary
  body : cell.kind = .markdown → other.secondary = cell.secondary

theorem Cell.Kept.refl (cell : Cell Ref) : cell.Kept cell := ⟨.refl cell, fun _ => rfl, fun _ => rfl⟩

theorem Cell.Kept.trans {first second third : Cell Ref} (kept : first.Kept second) (kept' : second.Kept third) :
    first.Kept third := by
  have source (isSource : first.kind.isOutput = false) : second.kind.isOutput = false := kept.output.trans isSource
  refine ⟨⟨kept'.output.trans kept.output, fun isSource => ?_, fun isOutput => ?_⟩, fun isSource => ?_,
    fun markdown => ?_⟩
  · exact (kept'.source (source isSource)).trans (kept.source isSource)
  · exact (kept'.owner (kept.output.trans isOutput)).trans (kept.owner isOutput)
  · exact (kept'.primary (source isSource)).trans (kept.primary isSource)
  · have isSource : first.kind.isOutput = false := by rw [markdown]; rfl
    exact (kept'.body ((kept.source isSource).trans markdown)).trans (kept.body markdown)

theorem Cell.Kept.edited {cell other : Cell Ref} (kept : cell.Kept other) (isSource : cell.kind.isOutput = false)
    (secondary : Bool) : other.edited secondary = cell.edited secondary := by
  unfold Cell.edited
  rw [kept.source isSource, kept.primary isSource]
  by_cases body : cell.kind = .markdown ∧ secondary = true
  · rw [if_pos body, if_pos body, kept.body body.1]
  · rw [if_neg body, if_neg body]

structure Cell.SameText (cell other : Cell Ref) : Prop where
  kind : other.kind = cell.kind
  primary : other.primary = cell.primary
  secondary : other.secondary = cell.secondary
  owner : other.ownerInput = cell.ownerInput

theorem Cell.SameText.refl (cell : Cell Ref) : cell.SameText cell := ⟨rfl, rfl, rfl, rfl⟩

theorem Cell.SameText.trans {first second third : Cell Ref} (same : first.SameText second)
    (same' : second.SameText third) : first.SameText third :=
  ⟨same'.kind.trans same.kind, same'.primary.trans same.primary, same'.secondary.trans same.secondary,
    same'.owner.trans same.owner⟩

theorem Cell.SameText.kept {cell other : Cell Ref} (same : cell.SameText other) : cell.Kept other :=
  ⟨⟨by rw [same.kind], fun _ => same.kind, fun _ => same.owner⟩, fun _ => same.primary, fun _ => same.secondary⟩

theorem Cell.SameText.terminated {cell other : Cell Ref} (same : cell.SameText other) (terminated : cell.Terminated) :
    other.Terminated := by
  unfold Cell.Terminated
  rw [same.primary, same.secondary]
  exact terminated

theorem Changed.texts {change : Cell Ref → Cell Ref → Prop} {cells others : List (Cell Ref)}
    (changed : Changed change cells others) (each : ∀ cell other, change cell other → cell.Terminated → other.Terminated)
    (texts : ∀ cell ∈ cells, cell.Terminated) : ∀ cell ∈ others, cell.Terminated := by
  intro other member
  obtain ⟨index, there⟩ := List.mem_iff_getElem?.mp member
  obtain ⟨cell, found, change⟩ := changed.before there
  exact each cell other change (texts cell (List.mem_of_getElem? found))

theorem Sound.kept {notebook after : Notebook Context Ref} (sound : Sound notebook)
    (changed : Changed Cell.Kept notebook.cells after.cells) (texts : ∀ cell ∈ after.cells, cell.Terminated)
    (selected : after.selected = notebook.selected)
    (editing : after.editing = true → notebook.editing = true ∧ after.editIndex = notebook.editIndex ∧
      after.editSecondary = notebook.editSecondary ∧ after.cursor = notebook.cursor) : Sound after := by
  refine sound.changed (changed.mono fun _ _ kept => kept.toAlike) texts selected fun edits => ?_
  obtain ⟨edits, index, secondary, cursor⟩ := editing edits
  obtain ⟨cell, there, isSource, inside⟩ := sound.editing edits
  obtain ⟨other, found, kept⟩ := changed.after there
  rw [index, secondary, cursor]
  exact ⟨other, found, kept.output.trans isSource, by rwa [kept.edited isSource]⟩

theorem Sound.sameText {notebook after : Notebook Context Ref} (sound : Sound notebook)
    (changed : Changed Cell.SameText notebook.cells after.cells)
    (selected : after.selected = notebook.selected)
    (editing : after.editing = true → notebook.editing = true ∧ after.editIndex = notebook.editIndex ∧
      after.editSecondary = notebook.editSecondary ∧ after.cursor = notebook.cursor) : Sound after :=
  sound.kept (changed.mono fun _ _ same => same.kept) (changed.texts (fun _ _ same => same.terminated) sound.texts)
    selected editing

theorem markSourceStale_changed (notebook : Notebook Context Ref) :
    Changed Cell.SameText notebook.cells (markSourceStale notebook) := by
  have marks (cells : List (Cell Ref)) (index : Nat) :
      Changed Cell.SameText cells (cells.modify index fun cell => { cell with stale := true }) :=
    changed_modify Cell.SameText.refl fun _ _ => ⟨rfl, rfl, rfl, rfl⟩
  have unchanged : Changed Cell.SameText notebook.cells notebook.cells := by
    refine ⟨rfl, fun index cell other there there' => ?_⟩
    rw [there, Option.some_inj] at there'
    exact there' ▸ .refl cell
  unfold markSourceStale
  dsimp only
  split_ifs
  · exact (marks _ _).comp (fun _ _ _ same same' => same.trans same') (marks _ _)
  · exact marks _ _
  · exact unchanged

theorem Cell.edited_withEdited (cell : Cell Ref) (secondary : Bool) (text : Text) :
    (cell.withEdited secondary text).edited secondary = text := by
  unfold Cell.withEdited Cell.edited
  by_cases body : cell.kind = .markdown ∧ secondary = true
  · rw [if_pos body, if_pos body]
  · rw [if_neg body, if_neg body]

theorem Cell.alike_withEdited (cell : Cell Ref) (secondary : Bool) (text : Text) :
    cell.Alike (cell.withEdited secondary text) := by
  unfold Cell.withEdited
  split_ifs <;> exact ⟨rfl, fun _ => rfl, fun _ => rfl⟩

theorem Cell.Terminated.withEdited {cell : Cell Ref} (terminated : cell.Terminated) {secondary : Bool} {text : Text}
    (fits : text.length < cell.editCapacity secondary) : (cell.withEdited secondary text).Terminated := by
  unfold Cell.editCapacity at fits
  unfold Cell.withEdited
  by_cases body : cell.kind = .markdown ∧ secondary = true
  · rw [if_pos body] at fits ⊢
    exact ⟨terminated.1, fits⟩
  · rw [if_neg body] at fits ⊢
    exact ⟨fits, terminated.2⟩

theorem Sound.rewrite {notebook : Notebook Context Ref} (sound : Sound notebook) {buffer text : Text}
    {capacity cursor : Nat} (found : editBuffer notebook = some (buffer, capacity)) (fits : text.length < capacity)
    (inside : cursor ≤ text.length) : Sound (rewrite notebook text cursor) := by
  obtain ⟨editing, cell, there, rfl, rfl⟩ := editBuffer_some found
  obtain ⟨cell', there', isSource, _⟩ := sound.editing editing
  rw [there, Option.some_inj] at there'
  subst there'
  have replaced : Sound { notebook with
      cells := notebook.cells.modify notebook.editIndex (Cell.withEdited notebook.editSecondary text)
      cursor := cursor } := by
    refine sound.changed ?_ ?_ rfl ?_
    · exact changed_modify Cell.Alike.refl fun cell _ => cell.alike_withEdited _ _
    · intro other member
      obtain ⟨index, there'⟩ := List.mem_iff_getElem?.mp member
      rw [List.getElem?_modify] at there'
      obtain ⟨old, found, rfl⟩ := Option.map_eq_some_iff.mp there'
      have terminated := sound.texts old (List.mem_of_getElem? found)
      by_cases here : notebook.editIndex = index
      · subst here
        rw [there, Option.some_inj] at found
        subst found
        rw [if_pos rfl]
        exact terminated.withEdited fits
      · rw [if_neg here]
        exact terminated
    · intro _
      refine ⟨cell.withEdited notebook.editSecondary text, ?_, ?_, ?_⟩
      · dsimp only
        rw [List.getElem?_modify, there]
        change some (if notebook.editIndex = notebook.editIndex then _ else _) = _
        rw [if_pos rfl]
      · rw [(cell.alike_withEdited _ _).output, isSource]
      · rwa [Cell.edited_withEdited]
  change Sound (Notebook.rewrite notebook text cursor)
  exact replaced.sameText
    (markSourceStale_changed { notebook with
      cells := notebook.cells.modify notebook.editIndex (Cell.withEdited notebook.editSecondary text) })
    rfl fun edits => ⟨edits, rfl, rfl, rfl⟩

theorem Sound.editInsertText {notebook : Notebook Context Ref} (sound : Sound notebook) (text : Text)
    (cursorOffset : Nat) : Sound (editInsertText notebook text cursorOffset).2 := by
  unfold Notebook.editInsertText
  by_cases refused : text = [] ∨ text.length < cursorOffset ∨ text.all printable = false
  · rw [if_pos refused]
    exact sound
  rw [if_neg refused]
  obtain ⟨_, offset, _⟩ : text ≠ [] ∧ ¬text.length < cursorOffset ∧ ¬text.all printable = false := by
    simpa only [not_or] using refused
  split
  · exact sound
  · rename_i buffer capacity found
    by_cases full : capacity ≤ text.length ∨ capacity - text.length - 1 < buffer.length ∨
        buffer.length < notebook.cursor
    · rw [if_pos full]
      exact sound
    · rw [if_neg full]
      have length : (buffer.take notebook.cursor ++ text ++ buffer.drop notebook.cursor).length =
          buffer.length + text.length := by
        rw [List.length_append, List.length_append, List.length_take, List.length_drop]
        omega
      exact sound.rewrite found (by omega) (by omega)

theorem Sound.editInsert {notebook : Notebook Context Ref} (sound : Sound notebook) (character : UInt8) :
    Sound (editInsert notebook character).2 := by
  unfold Notebook.editInsert
  split_ifs
  · exact sound
  · exact sound.editInsertText _ _

theorem Sound.editBackspace {notebook : Notebook Context Ref} (sound : Sound notebook) :
    Sound (editBackspace notebook).2 := by
  unfold Notebook.editBackspace
  split
  · exact sound
  · rename_i buffer capacity found
    by_cases start : notebook.cursor = 0
    · rw [if_pos start]
      exact sound
    · rw [if_neg start]
      have fits : buffer.length < capacity := by
        obtain ⟨_, cell, there, rfl, rfl⟩ := editBuffer_some found
        have terminated := sound.texts cell (List.mem_of_getElem? there)
        unfold Cell.edited Cell.editCapacity
        split_ifs
        · exact terminated.2
        · exact terminated.1
      have length : (buffer.take (min notebook.cursor buffer.length - 1) ++
          buffer.drop (min notebook.cursor buffer.length)).length =
            min notebook.cursor buffer.length - 1 + (buffer.length - min notebook.cursor buffer.length) := by
        rw [List.length_append, List.length_take, List.length_drop]
        omega
      exact sound.rewrite found (by omega) (by omega)

end PhyNspire.Notebook

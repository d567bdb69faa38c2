import PhyNspire.Notebook.Sessions

/-!
Every operation that changes the document of a notebook marks it dirty.
-/

namespace PhyNspire.Notebook

open PhyNspire.Platform PhyNspire.Eval

variable {Context Ref Value : Type}

def documentOf (engine : Engine Context Ref Value) (notebook : Notebook Context Ref) : List UInt8 :=
  documentHeader notebook.cells.length notebook.nextExecution
    (notebook.cells.flatMap (recordBytes engine notebook.context)) ++
      notebook.cells.flatMap (recordBytes engine notebook.context)

section

variable {engine : Engine Context Ref Value} {context : Context}

theorem expressionTextSize_error {cell : Cell Ref} {status : Status}
    (refused : expressionTextSize engine context cell = .error status) : status = .termLimit := by
  unfold expressionTextSize at refused
  split_ifs at refused
  split at refused
  · cases refused
  · dsimp only at refused
    split_ifs at refused
    exact (Except.error.inj refused).symm

theorem requiredFrom_error {cells : List (Cell Ref)} {required : Nat} {status : Status}
    (refused : requiredFrom engine context cells required = .error status) : status ≠ .ok := by
  induction cells generalizing required with
  | nil => cases refused
  | cons cell rest ih =>
    unfold requiredFrom at refused
    cases sized : expressionTextSize engine context cell with
    | error failure =>
      rw [sized] at refused
      rw [← Except.error.inj refused, expressionTextSize_error sized]
      decide
    | ok size =>
      rw [sized] at refused
      dsimp only at refused
      split_ifs at refused
      · rw [← Except.error.inj refused]
        decide
      · exact ih refused

theorem encodeCells_error {cells : List (Cell Ref)} {status : Status}
    (refused : encodeCells engine context cells = .error status) : status ≠ .ok := by
  induction cells with
  | nil => cases refused
  | cons cell rest ih =>
    unfold encodeCells at refused
    cases first : encodeCell engine context cell with
    | error failure =>
      rw [first] at refused
      obtain rfl := Except.error.inj refused
      unfold encodeCell at first
      cases sized : expressionTextSize engine context cell with
      | error failure' =>
        rw [sized] at first
        rw [← Except.error.inj first, expressionTextSize_error sized]
        decide
      | ok size =>
        rw [sized] at first
        dsimp only at first
        split at first
        · cases first
        · split_ifs at first with failed
          · exact Except.error.inj first ▸ failed
          · rw [← Except.error.inj first]
            decide
    | ok record =>
      cases others : encodeCells engine context rest with
      | error failure =>
        rw [first, others] at refused
        exact ih (others.trans refused)
      | ok later =>
        rw [first, others] at refused
        cases refused

theorem serialize_error {notebook : Notebook Context Ref} {capacity : Nat} {status : Status}
    (refused : serialize engine notebook capacity = .error status) : status ≠ .ok := by
  unfold serialize at refused
  cases required : documentRequiredSize engine notebook with
  | error failure =>
    rw [required] at refused
    exact Except.error.inj refused ▸ requiredFrom_error required
  | ok size =>
    rw [required] at refused
    dsimp only at refused
    by_cases small : capacity < size
    · rw [if_pos small] at refused
      rw [← Except.error.inj refused]
      decide
    rw [if_neg small] at refused
    cases records : encodeCells engine notebook.context notebook.cells with
    | error failure =>
      rw [records] at refused
      exact Except.error.inj refused ▸ encodeCells_error records
    | ok bytes =>
      rw [records] at refused
      dsimp only at refused
      split_ifs at refused
      rw [← Except.error.inj refused]
      decide

end

section

variable (engine : Engine Context Ref Value)

def Marks (notebook after : Notebook Context Ref) : Prop :=
  after.dirty = true ∨ documentOf engine after = documentOf engine notebook ∧ after.dirty = notebook.dirty

variable {engine} {notebook : Notebook Context Ref}

theorem Marks.refl (notebook : Notebook Context Ref) : Marks engine notebook notebook := Or.inr ⟨rfl, rfl⟩

theorem Marks.trans {middle after : Notebook Context Ref} (first : Marks engine notebook middle)
    (second : Marks engine middle after) : Marks engine notebook after := by
  obtain dirty | ⟨document, dirty⟩ := second
  · exact Or.inl dirty
  · obtain dirty' | ⟨document', dirty'⟩ := first
    · exact Or.inl (dirty.trans dirty')
    · exact Or.inr ⟨document.trans document', dirty.trans dirty'⟩

theorem Marks.untouched {after : Notebook Context Ref} (cells : after.cells = notebook.cells)
    (execution : after.nextExecution = notebook.nextExecution) (context : after.context = notebook.context)
    (dirty : after.dirty = notebook.dirty) : Marks engine notebook after := by
  refine Or.inr ⟨?_, dirty⟩
  unfold documentOf
  rw [cells, execution, context]

theorem insertCell_dirty {after : Notebook Context Ref} {index : Nat} {cell : Cell Ref}
    (inserted : insertCell notebook index cell = .ok after) : after.dirty = true := by
  obtain ⟨_, _, rfl⟩ := insertCell_ok inserted
  rfl

theorem select_marks (index : Nat) : Marks engine notebook (select notebook index).2 := by
  unfold select
  split_ifs
  · exact .refl _
  · exact .untouched rfl rfl rfl rfl

theorem selectNext_marks (direction : Int) : Marks engine notebook (selectNext notebook direction).2 := by
  unfold selectNext
  by_cases nothing : notebook.cells = [] ∨ direction = 0
  · rw [if_pos nothing]
    exact .refl _
  · rw [if_neg nothing]
    exact select_marks _

theorem selectAt_marks (hit : Option Nat) : Marks engine notebook (selectAt notebook hit).2 := by
  cases hit with
  | none => exact .refl _
  | some index => exact select_marks index

theorem insertAt_marks (markdown : Bool) : Marks engine notebook (insertAt notebook markdown).2 := by
  unfold insertAt
  dsimp only
  split
  · exact .refl _
  · rename_i after run
    have dirty := insertCell_dirty run
    exact Or.inl dirty

theorem beginEditAt_marks (hit : Option Nat) (body : Bool) (column : Nat) :
    Marks engine notebook (beginEditAt notebook hit body column).2 := by
  unfold beginEditAt
  split
  · exact .refl _
  · split_ifs
    · exact select_marks _
    · exact .untouched rfl rfl rfl rfl

theorem beginEditSelected_marks : Marks engine notebook (beginEditSelected notebook).2 := by
  unfold beginEditSelected
  split
  · exact .refl _
  · split_ifs
    · exact .refl _
    · exact .untouched rfl rfl rfl rfl

theorem editInsertText_marks (text : Text) (cursorOffset : Nat) :
    Marks engine notebook (editInsertText notebook text cursorOffset).2 := by
  unfold editInsertText
  split
  · exact .refl _
  · split
    · exact .refl _
    · split_ifs
      · exact .refl _
      · exact Or.inl rfl

theorem editInsert_marks (character : UInt8) : Marks engine notebook (editInsert notebook character).2 := by
  unfold editInsert
  split_ifs
  · exact .refl _
  · exact editInsertText_marks _ _

theorem editBackspace_marks : Marks engine notebook (editBackspace notebook).2 := by
  unfold editBackspace
  split
  · exact .refl _
  · split_ifs
    · exact .refl _
    · exact Or.inl rfl

theorem editMove_marks (direction : Int) : Marks engine notebook (editMove notebook direction).2 := by
  unfold editMove
  split
  · exact .refl _
  · split_ifs
    · exact .untouched rfl rfl rfl rfl
    · exact .untouched rfl rfl rfl rfl
    · exact .refl _

theorem editMoveLine_marks (direction : Int) : Marks engine notebook (editMoveLine notebook direction).2 := by
  unfold editMoveLine
  split
  · exact .refl _
  · dsimp only
    split
    · exact .refl _
    split
    · split
      · exact .untouched rfl rfl rfl rfl
      · exact .untouched rfl rfl rfl rfl
    · split
      · exact .untouched rfl rfl rfl rfl
      · exact .untouched rfl rfl rfl rfl

theorem editSwitchField_marks : Marks engine notebook (editSwitchField notebook).2 := by
  unfold editSwitchField
  split
  · exact .refl _
  · exact .untouched rfl rfl rfl rfl

theorem retried_marks (input : Nat) :
    Marks engine notebook { notebook with
      cells := notebook.cells.modify input fun cell => { cell with poisoned := false } } := by
  have records : (notebook.cells.modify input fun cell => { cell with poisoned := false }).flatMap
      (recordBytes engine notebook.context) = notebook.cells.flatMap (recordBytes engine notebook.context) := by
    unfold List.flatMap
    refine congrArg List.flatten (List.ext_getElem? fun index => ?_)
    rw [List.getElem?_map, List.getElem?_map, List.getElem?_modify]
    cases notebook.cells[index]? with
    | none => rfl
    | some cell =>
      change some (recordBytes engine notebook.context (if input = index then _ else _)) = some _
      split_ifs <;> rfl
  refine Or.inr ⟨?_, rfl⟩
  unfold documentOf
  dsimp only
  rw [records, List.length_modify]

theorem evaluateInto_dirty (ready : Notebook Context Ref) (input : Nat) (cell : Cell Ref) :
    (evaluateInto engine ready input cell).2.dirty = true := by
  unfold evaluateInto
  dsimp only
  split
  · rfl
  · split
    · unfold rebuildContext createEngines
      split_ifs <;> rfl
    · rfl

theorem evaluate_marks (input : Nat) : Marks engine notebook (evaluate engine notebook input).2 := by
  unfold evaluate
  split
  · exact .refl _
  · split
    · exact .refl _
    · dsimp only
      split
      · exact retried_marks input
      · exact Or.inl (evaluateInto_dirty _ _ _)

theorem activateSelected_marks : Marks engine notebook (activateSelected engine notebook).2 := by
  unfold activateSelected
  split
  · exact .refl _
  · split_ifs
    · exact .refl _
    · exact Marks.trans (.untouched rfl rfl rfl rfl) (evaluate_marks _)

theorem runAt_marks (hit : Option Nat) : Marks engine notebook (runAt engine notebook hit).2 := by
  unfold runAt
  split
  · exact .refl _
  · split_ifs
    · exact .refl _
    · exact Marks.trans (.untouched rfl rfl rfl rfl) (evaluate_marks _)

theorem evaluateAll_marks
    (resets : ∀ context tree, engine.write (engine.reset context) tree = engine.write context tree)
    {finished : Status × Notebook Context Ref × List (Notebook Context Ref × Nat)}
    (run : evaluateAll engine notebook = some finished) : Marks engine notebook finished.2.1 := by
  have reset (other : Notebook Context Ref) :
      Marks engine other { other with context := engine.reset other.context } := by
    have same : recordBytes engine (engine.reset other.context) = recordBytes engine other.context := by
      have texts : engine.write (engine.reset other.context) = engine.write other.context := funext (resets _)
      funext cell
      unfold recordBytes treeSize treeText
      rw [texts]
    refine Or.inr ⟨?_, rfl⟩
    unfold documentOf
    dsimp only
    rw [same]
  unfold evaluateAll at run
  exact replay_keeps (Marks engine notebook) (fun other marks => marks.trans (reset other))
    (fun other input marks => marks.trans (evaluate_marks input)) _ (reset notebook) run

end

end PhyNspire.Notebook

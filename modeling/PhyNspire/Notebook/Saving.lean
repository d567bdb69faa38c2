import PhyNspire.Notebook.Document
import PhyNspire.Notebook.Shape

/-!
The size of an encoded notebook, and that encoding succeeds when the size is within the limit and
every text ends inside its buffer.
-/

namespace PhyNspire.Notebook

open PhyNspire.Eval PhyNspire.Lib.Words

variable {Context Ref Value : Type}

section

variable (engine : Engine Context Ref Value) (context : Context)

/-- The text of a cell's tree in a document, with its `NUL`. -/
def treeText (cell : Cell Ref) : Option Text :=
  if cell.kind = .input then none else cell.expression.map fun expression => engine.write context expression ++ [0]

def treeSize (cell : Cell Ref) : Nat := ((treeText engine context cell).map List.length).getD 0

def recordSize (cell : Cell Ref) : Nat :=
  documentRecordBytes + cell.primary.length + cell.secondary.length + treeSize engine context cell

def recordsSize (cells : List (Cell Ref)) : Nat := (cells.map (recordSize engine context)).sum

def encodedSize (notebook : Notebook Context Ref) : Nat :=
  documentHeaderBytes + recordsSize engine notebook.context notebook.cells

def recordBytes (cell : Cell Ref) : List UInt8 :=
  recordHeader cell (treeSize engine context cell) ++ cell.primary ++ cell.secondary ++
    (treeText engine context cell).getD []

end

@[simp] theorem recordHeader_length (cell : Cell Ref) (expression : Nat) :
    (recordHeader cell expression).length = documentRecordBytes := by
  unfold recordHeader
  simp only [List.length_cons, List.length_append, wordBytes_length]
  rfl

@[simp] theorem documentHeader_length (count : Nat) (nextExecution : UInt32) (records : List UInt8) :
    (documentHeader count nextExecution records).length = documentHeaderBytes := by
  unfold documentHeader
  simp only [List.length_append, wordBytes_length]
  rfl

variable {engine : Engine Context Ref Value} {context : Context}

theorem recordBytes_length (cell : Cell Ref) :
    (recordBytes engine context cell).length = recordSize engine context cell := by
  unfold recordBytes recordSize treeSize
  rw [List.length_append, List.length_append, List.length_append, recordHeader_length]
  cases treeText engine context cell <;> rfl

theorem expressionTextSize_eq {cell : Cell Ref} (fits : treeSize engine context cell ≤ documentMaxBytes) :
    expressionTextSize engine context cell = .ok (treeSize engine context cell) := by
  unfold treeSize treeText at fits ⊢
  unfold expressionTextSize
  by_cases isInput : cell.kind = .input
  · rw [if_pos isInput, if_pos isInput]
    rfl
  rw [if_neg isInput] at fits ⊢
  rw [if_neg isInput]
  cases tree : cell.expression with
  | none => rfl
  | some expression =>
    rw [tree] at fits
    have length : ((Option.map List.length (Option.map (fun expression => engine.write context expression ++ [0])
        (some expression))).getD 0) = (engine.write context expression).length + 1 := by
      change (engine.write context expression ++ [0]).length = _
      rw [List.length_append, List.length_singleton]
    rw [length] at fits ⊢
    dsimp only
    rw [if_neg]
    have : documentMaxBytes < 0xffffffff := by decide
    omega

theorem encodeCell_eq {cell : Cell Ref} (fits : treeSize engine context cell ≤ documentMaxBytes) :
    encodeCell engine context cell = .ok (recordBytes engine context cell) := by
  unfold encodeCell
  rw [expressionTextSize_eq fits]
  unfold recordBytes
  dsimp only
  by_cases isInput : cell.kind = .input
  · have none : treeText engine context cell = none := by
      unfold treeText
      rw [if_pos isInput]
    rw [treeSize, none]
    dsimp only [Option.map_none, Option.getD_none]
    rw [if_pos rfl, List.append_nil]
  cases tree : cell.expression with
  | none =>
    have none : treeText engine context cell = none := by
      unfold treeText
      rw [if_neg isInput, tree]
      rfl
    rw [treeSize, none]
    dsimp only [Option.map_none, Option.getD_none]
    rw [if_pos rfl, List.append_nil]
  | some expression =>
    have text : treeText engine context cell = some (engine.write context expression ++ [0]) := by
      unfold treeText
      rw [if_neg isInput, tree]
      rfl
    have size : treeSize engine context cell = (engine.write context expression).length + 1 := by
      rw [treeSize, text]
      change (engine.write context expression ++ [0]).length = _
      rw [List.length_append, List.length_singleton]
    rw [size, text, if_neg (Nat.succ_ne_zero _)]
    dsimp only [Option.getD_some]
    unfold writeInto
    rw [if_neg (lt_irrefl _)]
    dsimp only
    rw [if_neg (fun differs => differs rfl), if_neg (fun differs => differs rfl), List.append_assoc _ _ [0]]

theorem treeSize_le (cell : Cell Ref) : treeSize engine context cell ≤ recordSize engine context cell :=
  Nat.le_add_left _ _

theorem recordsSize_cons (cell : Cell Ref) (rest : List (Cell Ref)) :
    recordsSize engine context (cell :: rest) = recordSize engine context cell + recordsSize engine context rest := by
  unfold recordsSize
  rw [List.map_cons, List.sum_cons]

theorem encodeCells_eq {cells : List (Cell Ref)} (fits : recordsSize engine context cells ≤ documentMaxBytes) :
    encodeCells engine context cells = .ok (cells.flatMap (recordBytes engine context)) := by
  induction cells with
  | nil => rfl
  | cons cell rest ih =>
    rw [recordsSize_cons] at fits
    have room : treeSize engine context cell ≤ recordSize engine context cell := treeSize_le cell
    unfold encodeCells
    rw [encodeCell_eq (by omega), ih (by omega)]
    rfl

theorem records_length (cells : List (Cell Ref)) :
    (cells.flatMap (recordBytes engine context)).length = recordsSize engine context cells := by
  induction cells with
  | nil => rfl
  | cons cell rest ih => rw [List.flatMap_cons, List.length_append, recordBytes_length, ih, recordsSize_cons]

theorem requiredFrom_eq {cells : List (Cell Ref)} (texts : ∀ cell ∈ cells, cell.Terminated) {required : Nat}
    (fits : required + recordsSize engine context cells ≤ documentMaxBytes) :
    requiredFrom engine context cells required = .ok (required + recordsSize engine context cells) := by
  induction cells generalizing required with
  | nil => rfl
  | cons cell rest ih =>
    obtain ⟨primary, secondary⟩ := texts cell List.mem_cons_self
    rw [recordsSize_cons] at fits ⊢
    unfold recordSize at fits ⊢
    unfold requiredFrom
    rw [expressionTextSize_eq (by omega)]
    dsimp only
    rw [if_neg (by omega), ih (fun other member => texts other (List.mem_cons_of_mem _ member)) (by omega)]
    refine congrArg Except.ok ?_
    omega

theorem serialize_eq {notebook : Notebook Context Ref} (texts : ∀ cell ∈ notebook.cells, cell.Terminated)
    (fits : encodedSize engine notebook ≤ documentMaxBytes) {capacity : Nat}
    (room : encodedSize engine notebook ≤ capacity) :
    serialize engine notebook capacity =
      .ok (documentHeader notebook.cells.length notebook.nextExecution
        (notebook.cells.flatMap (recordBytes engine notebook.context)) ++
          notebook.cells.flatMap (recordBytes engine notebook.context)) := by
  unfold encodedSize at fits room
  unfold serialize documentRequiredSize
  rw [requiredFrom_eq texts fits]
  dsimp only
  rw [if_neg (not_lt.mpr room), encodeCells_eq (by omega)]
  dsimp only
  rw [records_length, if_neg (fun differs => differs rfl)]

end PhyNspire.Notebook

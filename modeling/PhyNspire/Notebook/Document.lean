import PhyNspire.Lib.Words
import PhyNspire.Notebook.Evaluation

/-!
The document codec. Encoding is a function of the notebook. Decoding is a program over a cursor into
the document's bytes: `size_t` has `width` bits, so the cursor and the sums of lengths are taken
modulo `2 ^ width`, and a read outside the document is an ending of its own.
-/

namespace PhyNspire.Notebook

open PhyNspire.Platform PhyNspire.Eval PhyNspire.Lib.Words

variable {Context Ref Value : Type}

def documentHeaderBytes : Nat := 32

def documentRecordBytes : Nat := 20

def documentMaxBytes : Nat := 131072

def documentVersion : Nat := 1

/-- `DOCUMENT_NO_OWNER`. -/
def noOwner : Nat := 65535

/-- `PHYNB001`. -/
def documentMagic : List UInt8 := [80, 72, 89, 78, 66, 48, 48, 49]

/-- `phy_status`, in the order of its numbers. -/
def statuses : List Status :=
  [.ok, .platformInit, .displayUnsupported, .alreadyInitialized, .notInitialized, .invalidArgument, .outOfMemory,
    .interrupted, .parse, .type, .domain, .assumption, .unsupported, .overflow, .timeout, .nodeLimit, .depthLimit,
    .termLimit, .memoryLimit, .backend, .corruptDocument]

/-- `phy_notebook_cell_kind`, in the order of its numbers. -/
def cellKinds : List CellKind := [.markdown, .input, .output, .error]

def crcBit (crc : UInt32) : UInt32 := (crc >>> 1) ^^^ (if crc &&& 1 = 1 then 0xedb88320 else 0)

def crc32Bytes (bytes : List UInt8) : UInt32 :=
  ~~~bytes.foldl (fun crc byte => crcBit^[8] (crc ^^^ byte.toUInt32)) 0xffffffff

def expressionTextSize (engine : Engine Context Ref Value) (context : Context) (cell : Cell Ref) :
    Except Status Nat :=
  if cell.kind = .input then .ok 0
  else
    match cell.expression with
    | none => .ok 0
    | some expression =>
      let text := engine.write context expression
      if 0xffffffff ≤ text.length then .error .termLimit else .ok (text.length + 1)

/-- The loop of `document_required_size`. -/
def requiredFrom (engine : Engine Context Ref Value) (context : Context) : List (Cell Ref) → Nat → Except Status Nat
  | [], required => .ok required
  | cell :: rest, required =>
    match expressionTextSize engine context cell with
    | .error status => .error status
    | .ok expression =>
      if textCapacity ≤ cell.primary.length ∨ detailCapacity ≤ cell.secondary.length ∨
          documentMaxBytes - documentRecordBytes < required ∨
          documentMaxBytes - required - documentRecordBytes <
            cell.primary.length + cell.secondary.length + expression then .error .termLimit
      else requiredFrom engine context rest
        (required + documentRecordBytes + cell.primary.length + cell.secondary.length + expression)

def documentRequiredSize (engine : Engine Context Ref Value) (notebook : Notebook Context Ref) : Except Status Nat :=
  requiredFrom engine notebook.context notebook.cells documentHeaderBytes

def recordHeader (cell : Cell Ref) (expression : Nat) : List UInt8 :=
  UInt8.ofNat (cellKinds.idxOf cell.kind) :: (if cell.stale then 1 else 0) ::
    (wordBytes 2 (statuses.idxOf cell.status) ++ wordBytes 4 cell.execution.toNat ++
      wordBytes 2 (if cell.kind.isOutput then cell.ownerInput else noOwner) ++
      wordBytes 2 cell.primary.length ++ wordBytes 2 cell.secondary.length ++ wordBytes 2 0 ++
      wordBytes 4 expression)

/-- One record: the header, the texts, and the tree's text with its `NUL`. -/
def encodeCell (engine : Engine Context Ref Value) (context : Context) (cell : Cell Ref) :
    Except Status (List UInt8) :=
  match expressionTextSize engine context cell with
  | .error status => .error status
  | .ok expression =>
    let texts := recordHeader cell expression ++ cell.primary ++ cell.secondary
    match (if expression = 0 then none else cell.expression) with
    | none => .ok texts
    | some tree =>
      let written := writeInto expression (engine.write context tree)
      if written.1 ≠ .ok then .error written.1
      else if written.2.length + 1 ≠ expression then .error .corruptDocument
      else .ok (texts ++ written.2 ++ [0])

def encodeCells (engine : Engine Context Ref Value) (context : Context) : List (Cell Ref) → Except Status (List UInt8)
  | [] => .ok []
  | cell :: rest =>
    match encodeCell engine context cell, encodeCells engine context rest with
    | .error status, _ => .error status
    | .ok _, .error status => .error status
    | .ok record, .ok records => .ok (record ++ records)

def documentHeader (count : Nat) (nextExecution : UInt32) (records : List UInt8) : List UInt8 :=
  documentMagic ++ wordBytes 2 documentVersion ++ wordBytes 2 documentHeaderBytes ++ wordBytes 4 records.length ++
    wordBytes 2 count ++ wordBytes 2 0 ++ wordBytes 4 nextExecution.toNat ++
    wordBytes 4 (crc32Bytes records).toNat ++ wordBytes 4 0

/-- `phy_notebook_serialize` into a buffer of the given capacity. -/
def serialize (engine : Engine Context Ref Value) (notebook : Notebook Context Ref) (capacity : Nat) :
    Except Status (List UInt8) :=
  match documentRequiredSize engine notebook with
  | .error status => .error status
  | .ok required =>
    if capacity < required then .error .invalidArgument
    else
      match encodeCells engine notebook.context notebook.cells with
      | .error status => .error status
      | .ok records =>
        if documentHeaderBytes + records.length ≠ required then .error .corruptDocument
        else .ok (documentHeader notebook.cells.length notebook.nextExecution records ++ records)

/-- Why the decoder stops: it refuses the document, or it has read outside of it. -/
inductive Stop where
  | refused (status : Status)
  | astray
deriving DecidableEq, Repr

/-- The decoder's state; `moves` are the changes of the cursor, the latest first. -/
structure Decoding (Context Ref : Type) where
  cursor : Nat
  moves : List (Nat × Nat)
  notebook : Notebook Context Ref

abbrev DecodeM (Context Ref : Type) := EStateM Stop (Decoding Context Ref)

/-- `count` bytes of the document from an offset on. -/
def fetch {σ : Type} (buffer : List UInt8) (offset count : Nat) : EStateM Stop σ (List UInt8) :=
  if count = 0 ∨ offset + count ≤ buffer.length then pure ((buffer.drop offset).take count)
  else throw .astray

/-- The characters before the first `NUL`. -/
def cString (bytes : List UInt8) : Text := bytes.takeWhile fun byte => decide (byte ≠ 0)

/-- A text of the document, up to its `NUL`. -/
def fetchText {σ : Type} (buffer : List UInt8) (offset : Nat) : EStateM Stop σ Text :=
  if (buffer.drop offset).contains 0 then pure (cString (buffer.drop offset)) else throw .astray

/-- `at += count`, in `size_t`. -/
def advance (width count : Nat) : DecodeM Context Ref Unit :=
  modify fun state =>
    let moved := (state.cursor + count) % 2 ^ width
    { state with cursor := moved, moves := (state.cursor, moved) :: state.moves }

def field (bytes : List UInt8) (offset count : Nat) : Nat := wordOf ((bytes.drop offset).take count)

def degradesToStaleCell : Status → Bool
  | .parse | .type | .domain | .assumption | .unsupported | .overflow | .nodeLimit | .depthLimit | .termLimit
  | .memoryLimit => true
  | _ => false

def emptySuccessOutputIsClear (engine : Engine Context Ref Value) (notebook : Notebook Context Ref)
    (cell : Cell Ref) : Bool × Context :=
  match notebook.cells[cell.ownerInput]? with
  | none => (false, notebook.context)
  | some input =>
    if input.kind ≠ .input then (false, notebook.context)
    else
      let parsed := engine.parse notebook.context input.primary
      (decide (parsed.1 = .ok) && decide (parsed.2.1.operation = .clear), parsed.2.2)

/-- What a text read again makes of a cell. -/
def Cell.reread (cell : Cell Ref) (status : Status) (expression : Option Ref) : Except Status (Cell Ref) :=
  if degradesToStaleCell status then .ok { cell with expression := none, status := status, stale := true }
  else if status = .ok then .ok { cell with expression := expression }
  else .error status

def readCell (engine : Engine Context Ref Value) (cell : Cell Ref) (text : Text) : DecodeM Context Ref (Cell Ref) := do
  let state ← get
  let answer := engine.read state.notebook.context text
  set { state with notebook := { state.notebook with context := answer.2.2 } }
  match cell.reread answer.1 answer.2.1 with
  | .ok cell => pure cell
  | .error status => throw (.refused status)

/-- `parse_cell_expression`, with the cursor on the tree's text. -/
def parseCellExpression (engine : Engine Context Ref Value) (buffer : List UInt8) (cell : Cell Ref)
    (expressionSize : Nat) : DecodeM Context Ref (Cell Ref) := do
  let state ← get
  if cell.kind = .input then
    if cell.secondary = [] then pure cell else readCell engine cell cell.secondary
  else if expressionSize = 0 then
    if cell.kind = .output ∧ cell.status = .ok ∧ cell.primary = [] then do
      let clear := emptySuccessOutputIsClear engine state.notebook cell
      set { state with notebook := { state.notebook with context := clear.2 } }
      if clear.1 then pure cell else throw (.refused .corruptDocument)
    else pure cell
  else do
    let last ← fetch buffer (state.cursor + expressionSize - 1) 1
    if last ≠ [0] then throw (.refused .corruptDocument)
    else do
      let text ← fetchText buffer state.cursor
      readCell engine cell text

def validCellShape (cells : List (Cell Ref)) (cell : Cell Ref) : Bool :=
  if cell.kind.isOutput then
    decide (0 < cells.length) && decide (cell.ownerInput + 1 = cells.length) &&
      cells[cell.ownerInput]?.any fun input => decide (input.kind = .input)
  else true

/-- One pass of the loop of `phy_notebook_deserialize`. -/
def decodeCell (width : Nat) (engine : Engine Context Ref Value) (buffer : List UInt8) : DecodeM Context Ref Unit := do
  let state ← get
  if buffer.length < state.cursor ∨ buffer.length - state.cursor < documentRecordBytes then
    throw (.refused .corruptDocument)
  else do
    let record ← fetch buffer state.cursor documentRecordBytes
    let primary := field record 10 2
    let secondary := field record 12 2
    let expression := field record 16 4
    advance width documentRecordBytes
    let state ← get
    match cellKinds[field record 0 1]?, statuses[field record 2 2]? with
    | some kind, some status =>
      if 1 < field record 1 1 ∨ field record 14 2 ≠ 0 ∨ textCapacity ≤ primary ∨ detailCapacity ≤ secondary ∨
          buffer.length - state.cursor < (primary + secondary + expression) % 2 ^ width then
        throw (.refused .corruptDocument)
      else do
        let heading ← fetch buffer state.cursor primary
        advance width primary
        let state ← get
        let detail ← fetch buffer state.cursor secondary
        advance width secondary
        let cell ← parseCellExpression engine buffer
          { kind := kind
            primary := cString heading
            secondary := cString detail
            expression := none
            status := status
            execution := UInt32.ofNat (field record 4 4)
            ownerInput := if field record 8 2 = noOwner then 0 else field record 8 2
            stale := decide (field record 1 1 = 1)
            poisoned := false } expression
        advance width expression
        let state ← get
        set { state with notebook := { state.notebook with cells := state.notebook.cells ++ [cell] } }
        if validCellShape state.notebook.cells cell then pure () else throw (.refused .corruptDocument)
    | _, _ => throw (.refused .corruptDocument)

def decodeCells (width : Nat) (engine : Engine Context Ref Value) (buffer : List UInt8) :
    Nat → DecodeM Context Ref Unit
  | 0 => pure ()
  | count + 1 => do
    decodeCell width engine buffer
    decodeCells width engine buffer count

/-- The checks of the document's header, with the number of cells and the next execution. -/
def readHeader {σ : Type} (buffer : List UInt8) : EStateM Stop σ (Nat × UInt32) := do
  if buffer.length < documentHeaderBytes ∨ documentMaxBytes < buffer.length then throw (.refused .corruptDocument)
  else do
    let header ← fetch buffer 0 documentHeaderBytes
    if header.take 8 ≠ documentMagic ∨ field header 8 2 ≠ documentVersion ∨
        field header 10 2 ≠ documentHeaderBytes ∨ field header 18 2 ≠ 0 ∨ field header 28 4 ≠ 0 then
      throw (.refused .corruptDocument)
    else if field header 12 4 ≠ buffer.length - documentHeaderBytes ∨ maxCells < field header 16 2 ∨
        field header 20 4 = 0 then throw (.refused .corruptDocument)
    else do
      let payload ← fetch buffer documentHeaderBytes (field header 12 4)
      if field header 24 4 ≠ (crc32Bytes payload).toNat then throw (.refused .corruptDocument)
      else pure (field header 16 2, UInt32.ofNat (field header 20 4))

/-- The body of `phy_notebook_deserialize` after the notebook is made. -/
def decodeBody (width : Nat) (engine : Engine Context Ref Value) (validate : Context → Status)
    (buffer : List UInt8) (count : Nat) : DecodeM Context Ref Unit := do
  decodeCells width engine buffer count
  let state ← get
  if state.cursor ≠ buffer.length then throw (.refused .corruptDocument)
  else
    match validate state.notebook.context with
    | .ok => pure ()
    | status => throw (.refused status)

/-- What the caller of the decoder sees, and the way of the cursor. -/
structure Opened (Context Ref : Type) where
  stop : Option Stop
  outNotebook : Option (Notebook Context Ref)
  moves : List (Nat × Nat)

/-- `phy_notebook_deserialize`; `validate` is `phy_ir_validate`. -/
def deserialize (width : Nat) (engine : Engine Context Ref Value) (validate : Context → Status)
    (buffer : List UInt8) (heap : Heap) : Opened Context Ref :=
  match (readHeader buffer : EStateM Stop Unit (Nat × UInt32)) () with
  | .error stop _ => ⟨some stop, none, []⟩
  | .ok (count, nextExecution) _ =>
    match notebookCreate engine heap with
    | (none, _) => ⟨some (.refused .outOfMemory), none, []⟩
    | (some created, _) =>
      match decodeBody width engine validate buffer count
          ⟨documentHeaderBytes, [], { created with nextExecution := nextExecution }⟩ with
      | .error stop final => ⟨some stop, none, final.moves⟩
      | .ok _ final =>
        ⟨none, some { final.notebook with selected := 0, editing := false, dirty := false }, final.moves⟩

end PhyNspire.Notebook

import PhyNspire.Eval.Commands

/-!
The cells of a notebook and the engines behind them. One context stands for the typed IR, the CAS
and the evaluator's environment together; what they compute is a parameter, the engine.

A text buffer is the list of its characters before the first `NUL`: it is terminated exactly when
it has fewer characters than the buffer has bytes.
-/

namespace PhyNspire.Notebook

open PhyNspire.Platform PhyNspire.Eval

abbrev Text := List UInt8

def textCapacity : Nat := 192

def detailCapacity : Nat := 1024

def maxCells : Nat := 400

inductive CellKind where
  | markdown
  | input
  | output
  | error
deriving DecidableEq, Repr

def CellKind.isOutput : CellKind → Bool
  | .output => true
  | .error => true
  | _ => false

structure Cell (Ref : Type) where
  kind : CellKind
  primary : Text
  secondary : Text
  expression : Option Ref
  status : Status
  execution : UInt32
  ownerInput : Nat
  stale : Bool
  poisoned : Bool
deriving DecidableEq, Repr

/-- `phy_source_command`, as far as the notebook reads it. -/
structure SourceCommand (Ref : Type) where
  expression : Option Ref
  operation : Operation
  target : Symbol
deriving DecidableEq, Repr

/-- The functions of the engines that the notebook calls.
* `fresh` is what `create_engines` makes, `reset` is `phy_env_reset`.
* `parse` is `phy_source_parse`, `read` is `phy_ir_read`, `write` the whole text of `phy_ir_write`.
* `command` is `phy_eval_command`, `expression` is `phy_eval_value_expression`, `isNone` whether the
  value is `PHY_VALUE_NONE`, `describe` is `phy_eval_describe`.
* `equation` names an expression: `phy_ir_symbol_ref` and `phy_ir_equation`.
* `probe` interns the canary: true when the context cannot intern anything any more. -/
structure Engine (Context Ref Value : Type) where
  fresh : Context
  reset : Context → Context
  parse : Context → Text → Status × SourceCommand Ref × Context
  read : Context → Text → Status × Option Ref × Context
  write : Context → Ref → Text
  command : Context → SourceCommand Ref → Status × Value × Context
  isNone : Value → Bool
  expression : Context → Value → Status × Option Ref × Context
  equation : Context → Symbol → Ref → Except Status Ref × Context
  describe : Context → Value → Status × Text
  probe : Context → UInt32 → Bool × Context

structure Notebook (Context Ref : Type) where
  context : Context
  generation : UInt32
  canary : UInt32
  cells : List (Cell Ref)
  selected : Nat
  nextExecution : UInt32
  editing : Bool
  editIndex : Nat
  editSecondary : Bool
  cursor : Nat
  dirty : Bool
  heap : Heap

variable {Context Ref Value : Type}

/-- `create_engines`; one request stands for all of its allocations. -/
def createEngines (engine : Engine Context Ref Value) (heap : Heap) : Except Status Context × Heap :=
  if heap.alloc.1 then (.ok engine.fresh, heap.alloc.2) else (.error .outOfMemory, heap.alloc.2)

def notebookCreate (engine : Engine Context Ref Value) (heap : Heap) : Option (Notebook Context Ref) × Heap :=
  if heap.alloc.1 then
    match createEngines engine heap.alloc.2 with
    | (.ok context, rest) => (some ⟨context, 0, 0, [], 0, 1, false, 0, false, 0, false, rest⟩, rest)
    | (.error _, rest) => (none, rest)
  else (none, heap.alloc.2)

def copyText (capacity : Nat) (source : Text) : Except Status Text :=
  if capacity ≤ source.length then .error .termLimit else .ok source

/-- `phy_ir_write` into a buffer: a text that does not fit fills the buffer and is not terminated. -/
def writeInto (capacity : Nat) (text : Text) : Status × Text :=
  if capacity < text.length + 1 then (.invalidArgument, text.take capacity) else (.ok, text)

/-- A cell that moves to the next slot keeps pointing at its input. -/
def Cell.shifted (index : Nat) (cell : Cell Ref) : Cell Ref :=
  if cell.kind.isOutput && decide (index ≤ cell.ownerInput) then { cell with ownerInput := cell.ownerInput + 1 }
  else cell

def insertCell (notebook : Notebook Context Ref) (index : Nat) (cell : Cell Ref) :
    Except Status (Notebook Context Ref) :=
  if notebook.cells.length < index then .error .invalidArgument
  else if maxCells ≤ notebook.cells.length then .error .termLimit
  else .ok { notebook with
    cells := notebook.cells.take index ++ cell :: (notebook.cells.drop index).map (Cell.shifted index)
    dirty := true
    selected :=
      if index ≤ notebook.selected ∧ 1 < notebook.cells.length + 1 then notebook.selected + 1
      else notebook.selected
    editIndex :=
      if notebook.editing ∧ index ≤ notebook.editIndex then notebook.editIndex + 1 else notebook.editIndex }

def blankCell (kind : CellKind) (primary secondary : Text) : Cell Ref :=
  ⟨kind, primary, secondary, none, .ok, 0, 0, false, false⟩

def addMarkdown (notebook : Notebook Context Ref) (heading body : Text) : Status × Notebook Context Ref :=
  match copyText textCapacity heading, copyText detailCapacity body with
  | .error status, _ => (status, notebook)
  | .ok _, .error status => (status, notebook)
  | .ok heading, .ok body =>
    match insertCell notebook notebook.cells.length (blankCell .markdown heading body) with
    | .error status => (status, notebook)
    | .ok inserted => (.ok, inserted)

def addInput (notebook : Notebook Context Ref) (source : Text) : Status × Notebook Context Ref :=
  match copyText textCapacity source with
  | .error status => (status, notebook)
  | .ok source =>
    match insertCell notebook notebook.cells.length (blankCell .input source []) with
    | .error status => (status, notebook)
    | .ok inserted => (.ok, inserted)

def hasOutput (cells : List (Cell Ref)) (input : Nat) : Bool :=
  cells[input + 1]?.any fun cell => cell.kind.isOutput && decide (cell.ownerInput = input)

def newOutput (input : Nat) : Cell Ref := { blankCell .output [] [] with ownerInput := input }

/-- `ensure_output`: the notebook with an output cell after the input. -/
def ensureOutput (notebook : Notebook Context Ref) (input : Nat) : Except Status (Notebook Context Ref) :=
  if hasOutput notebook.cells input then .ok notebook
  else insertCell notebook (input + 1) (newOutput input)

end PhyNspire.Notebook

/-!
Evaluating one input, rebuilding a saturated context, and replaying all inputs.
-/

namespace PhyNspire.Notebook

open PhyNspire.Platform PhyNspire.Eval

variable {Context Ref Value : Type}

/-- What one command leaves in its cells: the input's tree and its text, and the result. -/
structure Outcome (Context Ref : Type) where
  expression : Option Ref
  secondary : Text
  status : Status
  result : Option Ref
  description : Text
  context : Context

def constructorResult (engine : Engine Context Ref Value) (command : SourceCommand Ref) (value : Value)
    (context : Context) : Status × Option Ref × Text × Context :=
  match command.expression with
  | none =>
    let described := engine.describe context value
    (described.1, none, described.2, context)
  | some expression =>
    if command.operation = .assign ∧ command.target ≠ 0 then
      match engine.equation context command.target expression with
      | (.ok result, after) => (.ok, some result, [], after)
      | (.error status, after) => (status, none, [], after)
    else (.ok, some expression, [], context)

def resultOf (engine : Engine Context Ref Value) (command : SourceCommand Ref) (context : Context) :
    Status × Option Ref × Text × Context :=
  let run := engine.command context command
  if run.1 ≠ .ok then (run.1, none, [], run.2.2)
  else
    let expanded := engine.expression run.2.2 run.2.1
    if expanded.1 = .ok ∧ expanded.2.1 = none ∧ engine.isNone run.2.1 = false then
      constructorResult engine command run.2.1 expanded.2.2
    else (expanded.1, expanded.2.1, [], expanded.2.2)

/-- The middle of `phy_notebook_evaluate`: everything the source decides. -/
def runCommand (engine : Engine Context Ref Value) (context : Context) (source : Text) : Outcome Context Ref :=
  let parsed := engine.parse context source
  if parsed.1 ≠ .ok then ⟨none, [], parsed.1, none, [], parsed.2.2⟩
  else
    let written := (parsed.2.1.expression.map fun expression =>
      writeInto detailCapacity (engine.write parsed.2.2 expression)).getD (.ok, [])
    if written.1 ≠ .ok then ⟨parsed.2.1.expression, written.2, written.1, none, [], parsed.2.2⟩
    else
      let result := resultOf engine parsed.2.1 parsed.2.2
      ⟨parsed.2.1.expression, written.2, result.1, result.2.1, result.2.2.1, result.2.2.2⟩

/-- `mark_following_stale`, for one cell. -/
def Cell.outdated (cell : Cell Ref) : Cell Ref :=
  if cell.kind = .markdown then cell else { cell with stale := true }

def Cell.asInput (cell : Cell Ref) (outcome : Outcome Context Ref) (execution : UInt32) : Cell Ref :=
  { cell with
    execution := execution
    secondary := outcome.secondary
    expression := outcome.expression
    status := outcome.status
    stale := false }

def Cell.asOutput (cell : Cell Ref) (outcome : Outcome Context Ref) (execution : UInt32) (input : Nat) : Cell Ref :=
  { cell with
    kind := if outcome.status = .ok then .output else .error
    expression := outcome.result
    status := outcome.status
    execution := execution
    ownerInput := input
    stale := false
    primary :=
      if outcome.status = .ok then (copyText textCapacity outcome.description).toOption.getD cell.primary else [] }

def publish (outcome : Outcome Context Ref) (execution : UInt32) (input : Nat) (cells : List (Cell Ref)) :
    List (Cell Ref) :=
  cells.mapIdx fun index cell =>
    if index < input then cell
    else if index = input then cell.asInput outcome execution
    else if index = input + 1 then cell.asOutput outcome execution input
    else cell.outdated

def migrate (engine : Engine Context Ref Value) (old : Context) : List (Cell Ref) → Context →
    List (Cell Ref) × Context
  | [], context => ([], context)
  | cell :: rest, context =>
    let text : Option Text :=
      if cell.kind = .input then if cell.secondary = [] then none else some cell.secondary
      else cell.expression.bind fun expression =>
        if (engine.write old expression).length + 1 ≤ 2048 then some (engine.write old expression) else none
    let migrated := (text.map (engine.read context)).getD (.ok, none, context)
    let others := migrate engine old rest migrated.2.2
    ({ cell with
        expression := migrated.2.1
        stale := if cell.kind = .markdown then cell.stale else true } :: others.1, others.2)

def rebuildContext (engine : Engine Context Ref Value) (notebook : Notebook Context Ref) :
    Status × Notebook Context Ref :=
  match createEngines engine notebook.heap with
  | (.error status, heap) => (status, { notebook with heap := heap })
  | (.ok fresh, heap) =>
    let migrated := migrate engine notebook.context notebook.cells fresh
    (.ok, { notebook with
      heap := heap
      cells := migrated.1
      context := migrated.2
      generation := notebook.generation + 1 })

/-- An input keeps its execution number; a new one gets the next. -/
def executionOf (notebook : Notebook Context Ref) (cell : Cell Ref) : UInt32 :=
  if cell.execution = 0 then notebook.nextExecution else cell.execution

/-- `phy_notebook_evaluate`, once the output cell is there. -/
def evaluateInto (engine : Engine Context Ref Value) (notebook : Notebook Context Ref) (input : Nat)
    (cell : Cell Ref) : Status × Notebook Context Ref :=
  let outcome := runCommand engine notebook.context cell.primary
  let published : Notebook Context Ref := { notebook with
    context := outcome.context
    cells := publish outcome (executionOf notebook cell) input notebook.cells
    nextExecution := if cell.execution = 0 then notebook.nextExecution + 1 else notebook.nextExecution
    dirty := true }
  if outcome.status = .ok then (.ok, published)
  else
    let probed := engine.probe outcome.context notebook.canary
    let salted : Notebook Context Ref := { published with context := probed.2, canary := notebook.canary + 1 }
    if probed.1 then
      (outcome.status, (rebuildContext engine { salted with
        cells := salted.cells.modify input fun cell => { cell with poisoned := true } }).2)
    else (outcome.status, salted)

def evaluate (engine : Engine Context Ref Value) (notebook : Notebook Context Ref) (input : Nat) :
    Status × Notebook Context Ref :=
  match notebook.cells[input]? with
  | none => (.invalidArgument, notebook)
  | some cell =>
    if cell.kind ≠ .input then (.invalidArgument, notebook)
    else
      let retried : Notebook Context Ref := { notebook with
        cells := notebook.cells.modify input fun cell => { cell with poisoned := false } }
      match ensureOutput retried input with
      | .error status => (status, retried)
      | .ok ready => evaluateInto engine ready input { cell with poisoned := false }

def Cell.active (cell : Cell Ref) : Bool := decide (cell.kind = .input) && !cell.poisoned

/-- The loop of `phy_notebook_evaluate_all`, and the evaluations it makes: on which notebook and which input. -/
def replay (engine : Engine Context Ref Value) : Nat → Notebook Context Ref → Nat → Status →
    Option (Status × Notebook Context Ref × List (Notebook Context Ref × Nat))
  | 0, _, _, _ => none
  | fuel + 1, notebook, index, firstError =>
    match notebook.cells[index]? with
    | none => some (firstError, notebook, [])
    | some cell =>
      if cell.active then
        let evaluated := evaluate engine notebook index
        let error := if evaluated.1 ≠ .ok ∧ firstError = .ok then evaluated.1 else firstError
        let later :=
          if evaluated.2.generation ≠ notebook.generation then
            replay engine fuel { evaluated.2 with context := engine.reset evaluated.2.context } 0 error
          else replay engine fuel evaluated.2 (index + 1) error
        later.map fun finished => (finished.1, finished.2.1, (notebook, index) :: finished.2.2)
      else replay engine fuel notebook (index + 1) firstError

/-- The steps of the loop that are enough: a pass for every input that can still be quarantined. -/
def replayFuel (notebook : Notebook Context Ref) : Nat :=
  (notebook.cells.countP Cell.active + 1) *
    (max notebook.cells.length maxCells + notebook.cells.countP Cell.active + 1) + 1

def evaluateAll (engine : Engine Context Ref Value) (notebook : Notebook Context Ref) :
    Option (Status × Notebook Context Ref × List (Notebook Context Ref × Nat)) :=
  replay engine (replayFuel notebook) { notebook with context := engine.reset notebook.context } 0 .ok

end PhyNspire.Notebook

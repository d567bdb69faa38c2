import PhyNspire.Notebook.Opening
import PhyNspire.Notebook.Saving
import PhyNspire.Notebook.Sources

/-!
A notebook over its life: made or opened, and then changed by any sequence of the public operations,
whatever the engines answer.
-/

namespace PhyNspire.Notebook

open PhyNspire.Platform PhyNspire.Eval

variable {Context Ref Value : Type}

def chars (literal : String) : Text := literal.toList.map fun character => UInt8.ofNat character.toNat

def welcomeFirst : Text := chars "D[Sin[x]^2, x]"

def welcomeSecond : Text := chars "Simplify[x^2 + 1/2]"

/-- The public operations. -/
inductive Call where
  | addMarkdown (heading body : Text)
  | addInput (source : Text)
  | evaluate (input : Nat)
  | evaluateAll
  | activateSelected
  | select (index : Nat)
  | selectNext (direction : Int)
  | selectAt (hit : Option Nat)
  | runAt (hit : Option Nat)
  | insertAt (markdown : Bool)
  | beginEditAt (hit : Option Nat) (body : Bool) (column : Nat)
  | beginEditSelected
  | endEdit
  | editInsert (character : UInt8)
  | editInsertText (text : Text) (cursorOffset : Nat)
  | editBackspace
  | editMove (direction : Int)
  | editMoveLine (direction : Int)
  | editSwitchField
  | markClean
  | seedWelcome
deriving DecidableEq, Repr

/-- The next step of a sequence that stops at the first error. -/
def andThen (step : Notebook Context Ref → Status × Notebook Context Ref) (done : Status × Notebook Context Ref) :
    Status × Notebook Context Ref :=
  if done.1 = .ok then step done.2 else done

def seedWelcome (engine : Engine Context Ref Value) (notebook : Notebook Context Ref) : Status × Notebook Context Ref :=
  if notebook.cells ≠ [] then (.invalidArgument, notebook)
  else
    let noted := addMarkdown notebook (chars "Symbolic Physics") (chars "Exact CAS notebook - native Ndless")
    let first := andThen (addInput · welcomeFirst) noted
    let firstInput := noted.2.cells.length
    let ran := andThen (evaluate engine · firstInput) first
    let second := andThen (addInput · welcomeSecond) ran
    let secondInput := ran.2.cells.length
    let finished := andThen (evaluate engine · secondInput) second
    andThen (fun notebook => (.ok, { notebook with selected := firstInput })) finished

def perform (engine : Engine Context Ref Value) (notebook : Notebook Context Ref) : Call → Notebook Context Ref
  | .addMarkdown heading body => (addMarkdown notebook heading body).2
  | .addInput source => (addInput notebook source).2
  | .evaluate input => (evaluate engine notebook input).2
  | .evaluateAll => ((evaluateAll engine notebook).map fun finished => finished.2.1).getD notebook
  | .activateSelected => (activateSelected engine notebook).2
  | .select index => (select notebook index).2
  | .selectNext direction => (selectNext notebook direction).2
  | .selectAt hit => (selectAt notebook hit).2
  | .runAt hit => (runAt engine notebook hit).2
  | .insertAt markdown => (insertAt notebook markdown).2
  | .beginEditAt hit body column => (beginEditAt notebook hit body column).2
  | .beginEditSelected => (beginEditSelected notebook).2
  | .endEdit => endEdit notebook
  | .editInsert character => (editInsert notebook character).2
  | .editInsertText text cursorOffset => (editInsertText notebook text cursorOffset).2
  | .editBackspace => (editBackspace notebook).2
  | .editMove direction => (editMove notebook direction).2
  | .editMoveLine direction => (editMoveLine notebook direction).2
  | .editSwitchField => (editSwitchField notebook).2
  | .markClean => markClean notebook
  | .seedWelcome => (seedWelcome engine notebook).2

def Call.evaluated (notebook : Notebook Context Ref) : Call → List Text
  | .evaluate input => (notebook.cells[input]?.bind Cell.source).toList
  | .activateSelected => (notebook.cells[notebook.selected]?.bind Cell.source).toList
  | .runAt hit => ((hit.bind fun index => notebook.cells[index]?).bind Cell.source).toList
  | .evaluateAll => sources notebook.cells
  | .seedWelcome => [welcomeFirst, welcomeSecond]
  | _ => []

/-- The host has a 64-bit `size_t`, the device a 32-bit one. -/
inductive SizeT where
  | host
  | device
deriving DecidableEq, Repr

def SizeT.bits : SizeT → Nat
  | .host => 64
  | .device => 32

/-- The notebooks that calls of some kind lead to, from a new one or from an opened document. -/
inductive Reached (engine : Engine Context Ref Value) (validate : Context → Status)
    (Allowed : Notebook Context Ref → Call → Prop) : Notebook Context Ref → Prop where
  | created (heap rest : Heap) (notebook : Notebook Context Ref)
      (made : notebookCreate engine heap = (some notebook, rest)) : Reached engine validate Allowed notebook
  | opened (size : SizeT) (document : List UInt8) (heap : Heap) (notebook : Notebook Context Ref)
      (read : (deserialize size.bits engine validate document heap).outNotebook = some notebook) :
      Reached engine validate Allowed notebook
  | performed (notebook : Notebook Context Ref) (call : Call) (reached : Reached engine validate Allowed notebook)
      (allowed : Allowed notebook call) : Reached engine validate Allowed (perform engine notebook call)

/-- What is expected of every notebook, and that its document can be written when it is within the limit. -/
structure Intact (engine : Engine Context Ref Value) (notebook : Notebook Context Ref) : Prop where
  count : notebook.cells.length ≤ maxCells
  selected : notebook.selected < notebook.cells.length ∨ notebook.cells.length = 0
  texts : ∀ cell ∈ notebook.cells, cell.primary.length < textCapacity ∧ cell.secondary.length < detailCapacity
  owners : ∀ index cell, notebook.cells[index]? = some cell → cell.kind.isOutput = true →
    cell.ownerInput + 1 = index ∧ ∃ input, notebook.cells[cell.ownerInput]? = some input ∧ input.kind = .input
  single : ∀ (first second : Nat) (cell other : Cell Ref), notebook.cells[first]? = some cell → cell.kind.isOutput = true →
    notebook.cells[second]? = some other → other.kind.isOutput = true → cell.ownerInput = other.ownerInput →
      first = second
  editing : notebook.editing = true → ∃ cell, notebook.cells[notebook.editIndex]? = some cell ∧
    (cell.kind = .markdown ∨ cell.kind = .input) ∧
      notebook.cursor ≤ (cell.edited notebook.editSecondary).length
  saves : encodedSize engine notebook ≤ documentMaxBytes → ∀ capacity, encodedSize engine notebook ≤ capacity →
    ∃ document, serialize engine notebook capacity = .ok document

theorem kind_source {cell : Cell Ref} (isSource : cell.kind.isOutput = false) :
    cell.kind = .markdown ∨ cell.kind = .input := by
  cases kind : cell.kind with
  | markdown => exact Or.inl rfl
  | input => exact Or.inr rfl
  | output =>
    rw [kind] at isSource
    cases isSource
  | error =>
    rw [kind] at isSource
    cases isSource

theorem Sound.intact {notebook : Notebook Context Ref} (sound : Sound notebook) (engine : Engine Context Ref Value) :
    Intact engine notebook where
  count := sound.count
  selected := sound.selected.imp id fun empty => List.length_eq_zero_iff.mpr empty.1
  texts := sound.texts
  owners := sound.owners
  single := fun _ _ _ _ there isOutput there' isOutput' same => sound.output_unique there isOutput there' isOutput' same
  editing := fun editing => by
    obtain ⟨cell, there, isSource, cursor⟩ := sound.editing editing
    exact ⟨cell, there, kind_source isSource, cursor⟩
  saves := fun fits _ room => ⟨_, serialize_eq sound.texts fits room⟩

section

variable {engine : Engine Context Ref Value} {notebook : Notebook Context Ref}

theorem Sound.endEdit (sound : Sound notebook) : Sound (endEdit notebook) :=
  sound.moved rfl (Or.inl rfl) fun editing => by cases editing

theorem Sound.markClean (sound : Sound notebook) : Sound (markClean notebook) :=
  sound.moved rfl (Or.inl rfl) sound.editing

theorem insertion_boundary (sound : Sound notebook) (next : Cell Ref)
    (there : notebook.cells[insertionAfterSelection notebook]? = some next) : next.kind.isOutput = false := by
  refine Bool.eq_false_iff.mpr fun isOutput => ?_
  obtain ⟨owner, isInput⟩ := sound.owners _ next there isOutput
  unfold insertionAfterSelection at there owner
  split_ifs at there owner with follows
  · -- the cell before would be both the output and the input
    obtain ⟨_, has⟩ := Bool.and_eq_true _ _ ▸ follows
    obtain ⟨output, found, isOutput', _⟩ := hasOutput_iff.mp has
    obtain ⟨input, found', kind⟩ := isInput
    rw [show next.ownerInput = notebook.selected + 1 by omega, found, Option.some_inj] at found'
    rw [found', kind] at isOutput'
    cases isOutput'
  · refine follows ?_
    have own : next.ownerInput = notebook.selected := by omega
    obtain ⟨input, found, kind⟩ := isInput
    rw [own] at found
    rw [Bool.and_eq_true, found]
    exact ⟨decide_eq_true kind, hasOutput_iff.mpr ⟨next, there, isOutput, own⟩⟩

theorem Sound.insertAt (sound : Sound notebook) (markdown : Bool) : Sound (insertAt notebook markdown).2 := by
  unfold Notebook.insertAt
  dsimp only
  split
  · exact sound
  · rename_i after run
    have boundary : ∀ next, notebook.cells[if notebook.cells = [] then 0 else insertionAfterSelection notebook]? =
        some next → next.kind.isOutput = false := by
      intro next there
      split_ifs at there with none
      · rw [none] at there
        cases there
      · exact insertion_boundary sound next there
    have source : (if markdown = true then blankCell .markdown newNote [] else blankCell .input [] [] :
        Cell Ref).kind.isOutput = false := by
      cases markdown <;> rfl
    have placed : Sound after := by
      refine sound.inserted run ?_ boundary fun isOutput => Bool.noConfusion (source.symm.trans isOutput)
      cases markdown
      · exact ⟨Nat.succ_pos _, Nat.succ_pos _⟩
      · exact ⟨show newNote.length < textCapacity by decide, Nat.succ_pos _⟩
    obtain ⟨inside, _, rfl⟩ := insertCell_ok run
    refine placed.moved rfl (Or.inr ?_) fun _ => ⟨_, withCell_at inside, source, ?_⟩
    · dsimp only
      rw [withCell_length inside]
      omega
    · rw [Cell.edited_false]

theorem fits_at {index : Nat} (fits : ∀ source ∈ (notebook.cells[index]?.bind Cell.source).toList, Fits engine source)
    (cell : Cell Ref) (there : notebook.cells[index]? = some cell) (isInput : cell.kind = .input) :
    Fits engine cell.primary := by
  refine fits _ ?_
  rw [there]
  change cell.primary ∈ cell.source.toList
  rw [Cell.source, if_pos isInput]
  exact List.mem_singleton_self _

theorem Sound.activateSelected (sound : Sound notebook)
    (fits : ∀ source ∈ Call.activateSelected.evaluated notebook, Fits engine source) :
    Sound (activateSelected engine notebook).2 := by
  unfold Notebook.activateSelected
  cases there : notebook.cells[notebook.selected]? with
  | none => exact sound
  | some cell =>
    dsimp only
    split_ifs
    · exact sound
    · have ended : Sound { notebook with editing := false } := sound.endEdit
      exact (ended.evaluate fun other found => fits_at fits other found).1

theorem Sound.runAt (sound : Sound notebook) {hit : Option Nat}
    (fits : ∀ source ∈ (Call.runAt hit).evaluated notebook, Fits engine source) :
    Sound (runAt engine notebook hit).2 := by
  unfold Notebook.runAt
  cases hit with
  | none => exact sound
  | some index =>
    rw [Option.bind_some]
    cases there : notebook.cells[index]? with
    | none => exact sound
    | some cell =>
      dsimp only [Option.map_some]
      split_ifs
      · exact sound
      · have moved : Sound { notebook with selected := index, editing := false } :=
          sound.moved rfl (Or.inr (List.getElem?_eq_some_iff.mp there).1) fun editing => by cases editing
        exact (moved.evaluate fun other found => fits_at fits other found).1

theorem Sound.andThen {step : Notebook Context Ref → Status × Notebook Context Ref}
    {done : Status × Notebook Context Ref} (sound : Sound done.2)
    (keeps : done.1 = .ok → Sound (step done.2).2) : Sound (andThen step done).2 := by
  unfold Notebook.andThen
  split_ifs with isOk
  · exact keeps isOk
  · exact sound

theorem addInput_at {source : Text} (added : (addInput notebook source).1 = .ok) :
    (addInput notebook source).2.cells[notebook.cells.length]? = some (blankCell .input source []) := by
  unfold addInput at added ⊢
  cases copied : copyText textCapacity source with
  | error status =>
    rw [copied] at added
    unfold copyText at copied
    split_ifs at copied
    cases copied
    cases added
  | ok text =>
    rw [copied] at added
    dsimp only at added ⊢
    obtain ⟨rfl, _⟩ := copyText_ok copied
    cases inserted : insertCell notebook notebook.cells.length (blankCell .input text []) with
    | error status =>
      rw [inserted] at added
      unfold insertCell at inserted
      split_ifs at inserted <;> cases inserted <;> cases added
    | ok after =>
      obtain ⟨inside, _, rfl⟩ := insertCell_ok inserted
      exact withCell_at inside

theorem Sound.addAndRun {done : Status × Notebook Context Ref} (sound : Sound done.2) {source : Text}
    (fits : Fits engine source) {added ran : Status × Notebook Context Ref}
    (adds : added = Notebook.andThen (Notebook.addInput · source) done)
    (runs : ran = Notebook.andThen (Notebook.evaluate engine · done.2.cells.length) added) :
    Sound ran.2 ∧ (ran.1 = .ok → done.2.cells.length < ran.2.cells.length) := by
  have placed : Sound added.2 := adds ▸ sound.andThen fun _ => sound.addInput source
  have there (isOk : added.1 = .ok) : added.2.cells[done.2.cells.length]? = some (blankCell .input source []) := by
    rw [adds] at isOk ⊢
    unfold Notebook.andThen at isOk ⊢
    split_ifs at isOk ⊢ with noted
    · exact addInput_at isOk
    · exact absurd isOk noted
  have fitting (isOk : added.1 = .ok) (cell : Cell Ref)
      (found : added.2.cells[done.2.cells.length]? = some cell) (_ : cell.kind = .input) : Fits engine cell.primary := by
    rw [there isOk, Option.some_inj] at found
    exact found ▸ fits
  have evaluated (isOk : added.1 = .ok) := placed.evaluate (fitting isOk)
  subst runs
  refine ⟨placed.andThen fun isOk => (evaluated isOk).1, fun finished => ?_⟩
  unfold Notebook.andThen at finished ⊢
  by_cases isOk : added.1 = .ok
  · rw [if_pos isOk]
    exact (List.getElem?_eq_some_iff.mp (there isOk)).1.trans_le (evaluated isOk).2.2
  · rw [if_neg isOk] at finished
    exact absurd finished isOk

theorem Sound.seedWelcome (sound : Sound notebook)
    (fits : ∀ source ∈ Call.seedWelcome.evaluated notebook, Fits engine source) :
    Sound (seedWelcome engine notebook).2 := by
  unfold Notebook.seedWelcome
  by_cases used : notebook.cells ≠ []
  · rw [if_pos used]
    exact sound
  rw [if_neg used]
  dsimp only
  obtain ⟨first, grows⟩ := (sound.addMarkdown (chars "Symbolic Physics")
    (chars "Exact CAS notebook - native Ndless")).addAndRun (fits welcomeFirst List.mem_cons_self) rfl rfl
  obtain ⟨second, grows'⟩ := first.addAndRun
    (fits welcomeSecond (List.mem_cons_of_mem _ List.mem_cons_self)) rfl rfl
  refine second.andThen fun isOk => second.moved rfl (Or.inr ((grows ?_).trans (grows' isOk))) second.editing
  -- a sequence that ends well has gone well so far
  have back {step : Notebook Context Ref → Status × Notebook Context Ref} {done : Status × Notebook Context Ref}
      (finished : (Notebook.andThen step done).1 = .ok) : done.1 = .ok := by
    unfold Notebook.andThen at finished
    by_cases earlier : done.1 = .ok
    · exact earlier
    · rwa [if_neg earlier] at finished
  exact back (back isOk)

theorem Sound.perform (sound : Sound notebook) {call : Call}
    (fits : ∀ source ∈ call.evaluated notebook, Fits engine source) : Sound (perform engine notebook call) := by
  cases call with
  | addMarkdown heading body => exact sound.addMarkdown heading body
  | addInput source => exact sound.addInput source
  | evaluate input => exact (sound.evaluate fun cell there => fits_at fits cell there).1
  | evaluateAll =>
    change Sound (((Notebook.evaluateAll engine notebook).map fun finished => finished.2.1).getD notebook)
    cases run : Notebook.evaluateAll engine notebook with
    | none => exact sound
    | some finished => exact sound.evaluateAll fits run
  | activateSelected => exact sound.activateSelected fits
  | select index => exact sound.select index
  | selectNext direction => exact sound.selectNext direction
  | selectAt hit => exact sound.selectAt hit
  | runAt hit => exact sound.runAt fits
  | insertAt markdown => exact sound.insertAt markdown
  | beginEditAt hit body column => exact sound.beginEditAt hit body column
  | beginEditSelected => exact sound.beginEditSelected
  | endEdit => exact sound.endEdit
  | editInsert character => exact sound.editInsert character
  | editInsertText text cursorOffset => exact sound.editInsertText text cursorOffset
  | editBackspace => exact sound.editBackspace
  | editMove direction => exact sound.editMove direction
  | editMoveLine direction => exact sound.editMoveLine direction
  | editSwitchField => exact sound.editSwitchField
  | markClean => exact sound.markClean
  | seedWelcome => exact sound.seedWelcome fits

end

theorem SizeT.wide (size : SizeT) : documentMaxBytes < 2 ^ size.bits := by
  cases size <;> decide

def Fitting (engine : Engine Context Ref Value) (notebook : Notebook Context Ref) (call : Call) : Prop :=
  ∀ source ∈ call.evaluated notebook, Fits engine source

theorem Reached.sound {engine : Engine Context Ref Value} {validate : Context → Status}
    {notebook : Notebook Context Ref} (reached : Reached engine validate (Fitting engine) notebook) :
    Sound notebook := by
  induction reached with
  | created heap rest notebook made =>
    obtain ⟨cells, selected, editing⟩ := notebookCreate_blank made
    refine ⟨?_, Or.inr ⟨cells, selected⟩, ?_, ?_, ?_⟩
    · rw [cells]
      exact Nat.zero_le _
    · rw [cells]
      exact fun _ member => by cases member
    · rw [cells]
      exact fun _ _ there => by cases there
    · rw [editing]
      exact fun edits => by cases edits
  | opened size document heap notebook read =>
    exact ((deserialize_answers size.wide engine validate document heap).sound notebook read).1
  | performed notebook call _ fits sound => exact sound.perform fits

/-- As long as every evaluated source fits, the notebook keeps its shape and can be saved, however the
evaluations end. -/
theorem fitting_sessions_stay_intact (engine : Engine Context Ref Value) (validate : Context → Status)
    (notebook : Notebook Context Ref) (reached : Reached engine validate (Fitting engine) notebook) :
    Intact engine notebook := reached.sound.intact engine

/-- The number of `-{}` that follow. -/
def subtractions : Text → Option Nat
  | [] => some 0
  | 45 :: 123 :: 125 :: rest => (subtractions rest).map (· + 1)
  | _ => none

/-- The sources `{}-{}-…`, with their trees: the empty list, and sums of it and its negatives. -/
def listEngine : Engine Unit Nat Unit where
  fresh := ()
  reset := id
  parse _ source :=
    match source with
    | 123 :: 125 :: rest =>
      match subtractions rest with
      | some count => (.ok, ⟨some count, .simplify, 0⟩, ())
      | none => (.parse, ⟨none, .simplify, 0⟩, ())
    | _ => (.parse, ⟨none, .simplify, 0⟩, ())
  read _ _ := (.parse, none, ())
  write _ count :=
    if count = 0 then chars "(fn List)"
    else chars "(+" ++ (List.replicate count (chars " (* -1 (fn List))")).flatten ++ chars " (fn List))"
  command _ _ := (.unsupported, (), ())
  isNone _ := true
  expression _ _ := (.ok, none, ())
  equation _ _ tree := (.ok tree, ())
  describe _ _ := (.ok, [])
  probe _ _ := (false, ())

/-- `{}` and 60 times `-{}`. -/
def longSource : Text := chars "{}" ++ (List.replicate 60 (chars "-{}")).flatten

def longNotebook : Notebook Unit Nat :=
  perform listEngine (perform listEngine ⟨(), 0, 0, [], 0, 1, false, 0, false, 0, false, ⟨fun _ => true, 2⟩⟩
    (.addInput longSource)) (.evaluate 0)

theorem longNotebook_reached :
    Reached listEngine (fun _ => .ok) (fun _ _ => True) longNotebook :=
  .performed _ _ (.performed _ _ (.created ⟨fun _ => true, 0⟩ ⟨fun _ => true, 2⟩ _ rfl) trivial) trivial

theorem long_source_is_unsaveable :
    (¬∀ notebook, Reached listEngine (fun _ => .ok) (fun _ _ => True) notebook → Intact listEngine notebook) ∧
      encodedSize listEngine longNotebook ≤ documentMaxBytes ∧
      serialize listEngine longNotebook documentMaxBytes = .error .termLimit := by
  refine ⟨fun always => ?_, by decide +kernel, by decide +kernel⟩
  have texts := (always longNotebook longNotebook_reached).texts
  have long : ¬∀ cell ∈ longNotebook.cells, cell.primary.length < textCapacity ∧
      cell.secondary.length < detailCapacity := by decide +kernel
  exact long texts

/-- A new notebook with `{}-{}`, evaluated. -/
def shortNotebook : Notebook Unit Nat :=
  perform listEngine (perform listEngine ⟨(), 0, 0, [], 0, 1, false, 0, false, 0, false, ⟨fun _ => true, 2⟩⟩
    (.addInput (chars "{}-{}"))) (.evaluate 0)

theorem shortSource_fits : Fits listEngine (chars "{}-{}") := by
  intro _ tree _ same
  obtain rfl : 1 = tree := Option.some_inj.mp same
  change (listEngine.write () 1).length < detailCapacity
  decide

theorem short_session_stays_intact : Intact listEngine shortNotebook :=
  fitting_sessions_stay_intact listEngine (fun _ => .ok) shortNotebook
    (.performed _ _ (.performed _ _ (.created ⟨fun _ => true, 0⟩ ⟨fun _ => true, 2⟩ _ rfl)
      (fun _ member => by cases member)) (fun source member => by
        obtain rfl : source = chars "{}-{}" := List.mem_singleton.mp member
        exact shortSource_fits))

end PhyNspire.Notebook

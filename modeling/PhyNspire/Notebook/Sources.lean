import PhyNspire.Notebook.Upkeep

/-!
Evaluations change no source, and keep the shape of a notebook whose sources fit: the buffer of an
input holds the text of the tree of its source, and `phy_ir_write` leaves a longer text without end.
-/

namespace PhyNspire.Notebook

open PhyNspire.Platform PhyNspire.Eval

variable {Context Ref Value : Type}

def Fits (engine : Engine Context Ref Value) (source : Text) : Prop :=
  ∀ context tree, (engine.parse context source).1 = .ok →
    (engine.parse context source).2.1.expression = some tree →
      (engine.write (engine.parse context source).2.2 tree).length < detailCapacity

def Cell.source (cell : Cell Ref) : Option Text := if cell.kind = .input then some cell.primary else none

def sources (cells : List (Cell Ref)) : List Text := cells.filterMap Cell.source

variable {cell : Cell Ref}

theorem mem_sources {cells : List (Cell Ref)} {index : Nat} (there : cells[index]? = some cell)
    (isInput : cell.kind = .input) : cell.primary ∈ sources cells :=
  List.mem_filterMap.mpr ⟨cell, List.mem_of_getElem? there, by rw [Cell.source, if_pos isInput]⟩

theorem Cell.source_output (isOutput : cell.kind.isOutput = true) : cell.source = none := by
  unfold Cell.source
  rw [if_neg]
  intro isInput
  rw [isInput] at isOutput
  cases isOutput

theorem Cell.Kept.source_eq {other : Cell Ref} (kept : cell.Kept other) : other.source = cell.source := by
  by_cases isOutput : cell.kind.isOutput = true
  · rw [Cell.source_output isOutput, Cell.source_output (kept.output.trans isOutput)]
  · have isSource := Bool.eq_false_iff.mpr isOutput
    unfold Cell.source
    rw [kept.source isSource, kept.primary isSource]

theorem Changed.sources {cells others : List (Cell Ref)} (changed : Changed Cell.Kept cells others) :
    sources others = sources cells := by
  have same : others.map Cell.source = cells.map Cell.source := by
    refine List.ext_getElem? fun index => ?_
    rw [List.getElem?_map, List.getElem?_map]
    cases there : cells[index]? with
    | none =>
      have outside := List.getElem?_eq_none_iff.mp there
      rw [← changed.1] at outside
      rw [List.getElem?_eq_none outside]
    | some cell =>
      obtain ⟨other, found, kept⟩ := changed.after there
      rw [found]
      exact congrArg some kept.source_eq
  have whole (list : List (Cell Ref)) : Notebook.sources list = (list.map Cell.source).filterMap id := by
    rw [List.filterMap_map]
    rfl
  rw [whole, whole, same]

theorem sources_withCell (cells : List (Cell Ref)) (index : Nat)
    (isOutput : cell.kind.isOutput = true) : sources (withCell cells index cell) = sources cells := by
  have shifted : Cell.source ∘ Cell.shifted index = (Cell.source : Cell Ref → Option Text) := by
    funext cell
    rw [Function.comp_apply]
    unfold Cell.source
    rw [Cell.kind_shifted, Cell.primary_shifted]
  unfold sources withCell
  rw [List.filterMap_append, List.filterMap_cons_none (Cell.source_output isOutput), List.filterMap_map, shifted,
    ← List.filterMap_append, List.take_append_drop]

variable {engine : Engine Context Ref Value}

theorem runCommand_secondary {source : Text} (fits : Fits engine source)
    (context : Context) : (runCommand engine context source).secondary.length < detailCapacity := by
  have empty : ([] : Text).length < detailCapacity := by decide
  unfold runCommand
  dsimp only
  by_cases parsed : (engine.parse context source).1 ≠ .ok
  · rw [if_pos parsed]
    exact empty
  rw [if_neg parsed]
  have written : (((engine.parse context source).2.1.expression.map fun expression =>
      writeInto detailCapacity (engine.write (engine.parse context source).2.2 expression)).getD (.ok, [])).2.length <
        detailCapacity := by
    cases found : (engine.parse context source).2.1.expression with
    | none => exact empty
    | some tree =>
      have short := fits context tree (not_not.mp parsed) found
      change (writeInto _ _).2.length < _
      unfold writeInto
      rw [if_neg (by omega)]
      exact short
  split_ifs
  · exact written
  · exact written

structure SameView (notebook after : Notebook Context Ref) : Prop where
  selected : after.selected = notebook.selected
  editing : after.editing = true → notebook.editing = true ∧ after.editIndex = notebook.editIndex ∧
    after.editSecondary = notebook.editSecondary ∧ after.cursor = notebook.cursor

theorem rebuildContext_view (engine : Engine Context Ref Value) (notebook : Notebook Context Ref) :
    SameView notebook (rebuildContext engine notebook).2 := by
  unfold rebuildContext createEngines
  split_ifs
  · exact ⟨rfl, fun editing => ⟨editing, rfl, rfl, rfl⟩⟩
  · exact ⟨rfl, fun editing => ⟨editing, rfl, rfl, rfl⟩⟩

theorem evaluateInto_view (engine : Engine Context Ref Value) (ready : Notebook Context Ref) (input : Nat)
    (cell : Cell Ref) : SameView ready (evaluateInto engine ready input cell).2 := by
  unfold evaluateInto
  dsimp only
  by_cases isOk : (runCommand engine ready.context cell.primary).status = .ok
  · rw [if_pos isOk]
    exact ⟨rfl, fun editing => ⟨editing, rfl, rfl, rfl⟩⟩
  rw [if_neg isOk]
  by_cases wedged : (engine.probe (runCommand engine ready.context cell.primary).context ready.canary).1 = true
  · rw [if_pos wedged]
    obtain ⟨selected, editing⟩ := rebuildContext_view engine _
    exact ⟨selected, editing⟩
  · rw [if_neg wedged]
    exact ⟨rfl, fun editing => ⟨editing, rfl, rfl, rfl⟩⟩

variable {ready : Notebook Context Ref} {input : Nat}

theorem publishedCells_changed (output : hasOutput ready.cells input = true) (isInput : IsInput ready.cells input)
    (fits : Fits engine cell.primary) :
    Changed (fun old new => old.Kept new ∧ (old.Terminated → new.Terminated)) ready.cells
      (publishedCells engine ready input cell) := by
  obtain ⟨source, there, kind⟩ := isInput
  obtain ⟨result, next, isOutput, owner⟩ := hasOutput_iff.mp output
  refine changed_mapIdx _ fun index old found => ?_
  by_cases before : index < input
  · rw [if_pos before]
    exact ⟨.refl old, id⟩
  rw [if_neg before]
  by_cases same : index = input
  · subst same
    rw [there, Option.some_inj] at found
    subst found
    rw [if_pos rfl]
    refine ⟨⟨⟨rfl, fun _ => rfl, fun _ => rfl⟩, fun _ => rfl, fun markdown => ?_⟩, fun terminated => ?_⟩
    · rw [kind] at markdown
      cases markdown
    · exact ⟨terminated.1, runCommand_secondary fits _⟩
  rw [if_neg same]
  by_cases after : index = input + 1
  · subst after
    rw [next, Option.some_inj] at found
    subst found
    rw [if_pos rfl]
    refine ⟨⟨⟨?_, fun isSource => ?_, fun _ => owner.symm⟩, fun isSource => ?_, fun markdown => ?_⟩,
      fun terminated => ⟨?_, terminated.2⟩⟩
    · rw [Cell.isOutput_asOutput, isOutput]
    · exact Bool.noConfusion (isSource.symm.trans isOutput)
    · exact Bool.noConfusion (isSource.symm.trans isOutput)
    · rw [markdown] at isOutput
      cases isOutput
    · change (if _ = Status.ok then _ else _ : Text).length < textCapacity
      split_ifs
      · cases copied : copyText textCapacity (runCommand engine ready.context cell.primary).description with
        | error status => exact terminated.1
        | ok text => exact (copyText_ok copied).2
      · decide
  · rw [if_neg after]
    have same : old.SameText old.outdated := by
      unfold Cell.outdated
      split_ifs <;> exact ⟨rfl, rfl, rfl, rfl⟩
    exact ⟨same.kept, same.terminated⟩

theorem migrate_changed (engine : Engine Context Ref Value) (old context : Context) (cells : List (Cell Ref)) :
    Changed Cell.SameText cells (migrate engine old cells context).1 := by
  induction cells generalizing context with
  | nil => exact ⟨rfl, fun _ _ _ there => by cases there⟩
  | cons cell rest ih =>
    rw [migrate]
    dsimp only
    refine ⟨congrArg (· + 1) (ih _).1, fun index old new there there' => ?_⟩
    cases index with
    | zero =>
      cases there
      cases there'
      exact ⟨rfl, rfl, rfl, rfl⟩
    | succ index => exact (ih _).2 index old new there there'

theorem poison_changed (cells : List (Cell Ref)) (index : Nat) :
    Changed Cell.SameText cells (cells.modify index Cell.poison) :=
  changed_modify Cell.SameText.refl fun _ _ => ⟨rfl, rfl, rfl, rfl⟩

theorem evaluateInto_changed (output : hasOutput ready.cells input = true) (isInput : IsInput ready.cells input)
    (fits : Fits engine cell.primary) :
    Changed (fun old new => old.Kept new ∧ (old.Terminated → new.Terminated)) ready.cells
      (evaluateInto engine ready input cell).2.cells := by
  have published := publishedCells_changed output isInput fits
  have same {cells others : List (Cell Ref)} (changed : Changed Cell.SameText cells others) :
      Changed (fun old new => old.Kept new ∧ (old.Terminated → new.Terminated)) cells others :=
    changed.mono fun _ _ same => ⟨same.kept, same.terminated⟩
  have compose {cells middle others : List (Cell Ref)}
      (first : Changed (fun old new => old.Kept new ∧ (old.Terminated → new.Terminated)) cells middle)
      (second : Changed (fun old new => old.Kept new ∧ (old.Terminated → new.Terminated)) middle others) :
      Changed (fun old new => old.Kept new ∧ (old.Terminated → new.Terminated)) cells others :=
    first.comp (fun _ _ _ kept kept' => ⟨kept.1.trans kept'.1, fun texts => kept'.2 (kept.2 texts)⟩) second
  obtain ⟨_, ends⟩ := evaluateInto_ends engine ready input cell
  cases ends with
  | published cells =>
    rw [cells]
    exact published
  | quarantined cells =>
    rw [cells]
    exact compose published (same (poison_changed _ _))
  | rebuilt old cells =>
    rw [cells]
    exact compose published (compose (same (poison_changed _ _)) (same (migrate_changed _ _ _ _)))

variable {notebook : Notebook Context Ref}

theorem Sound.ensureOutput (sound : Sound notebook)
    (isInput : IsInput notebook.cells input) (ensured : ensureOutput notebook input = .ok ready) :
    Sound ready ∧ hasOutput ready.cells input = true ∧ IsInput ready.cells input ∧
      sources ready.cells = sources notebook.cells ∧ notebook.cells.length ≤ ready.cells.length := by
  unfold Notebook.ensureOutput at ensured
  by_cases has : hasOutput notebook.cells input = true
  · rw [if_pos has] at ensured
    obtain rfl := Except.ok.inj ensured
    exact ⟨sound, has, isInput, rfl, le_rfl⟩
  rw [if_neg has] at ensured
  have placed : Sound ready := by
    refine sound.inserted ensured ⟨Nat.succ_pos _, Nat.succ_pos _⟩ (fun next there => ?_) fun _ => ⟨rfl, isInput⟩
    refine Bool.eq_false_iff.mpr fun isOutput => has (hasOutput_iff.mpr ⟨next, there, isOutput, ?_⟩)
    have owner := (sound.owners _ next there isOutput).1
    omega
  obtain ⟨inside, _, rfl⟩ := insertCell_ok ensured
  refine ⟨placed, hasOutput_iff.mpr ⟨newOutput input, withCell_at inside, rfl, rfl⟩, ?_,
    sources_withCell _ _ rfl, (withCell_length inside).symm ▸ Nat.le_succ _⟩
  have moved := isInput.withCell inside (newOutput input)
  rwa [if_pos (by omega)] at moved

theorem Sound.evaluate (sound : Sound notebook)
    (fits : ∀ cell, notebook.cells[input]? = some cell → cell.kind = .input → Fits engine cell.primary) :
    Sound (evaluate engine notebook input).2 ∧
      sources (evaluate engine notebook input).2.cells = sources notebook.cells ∧
        notebook.cells.length ≤ (evaluate engine notebook input).2.cells.length := by
  unfold Notebook.evaluate
  cases there : notebook.cells[input]? with
  | none => exact ⟨sound, rfl, le_rfl⟩
  | some cell =>
    dsimp only
    by_cases isInput : cell.kind = .input
    swap
    · rw [if_pos isInput]
      exact ⟨sound, rfl, le_rfl⟩
    rw [if_neg (not_not.mpr isInput)]
    have healed : Changed Cell.SameText notebook.cells
        (notebook.cells.modify input fun cell => { cell with poisoned := false }) :=
      changed_modify Cell.SameText.refl fun _ _ => ⟨rfl, rfl, rfl, rfl⟩
    have retried : Sound { notebook with
        cells := notebook.cells.modify input fun cell => { cell with poisoned := false } } :=
      sound.sameText healed rfl fun editing => ⟨editing, rfl, rfl, rfl⟩
    have kept : sources (notebook.cells.modify input fun cell => { cell with poisoned := false }) =
        sources notebook.cells := (healed.mono fun _ _ same => same.kept).sources
    have stands : IsInput (notebook.cells.modify input fun cell => { cell with poisoned := false }) input :=
      IsInput.changed ⟨cell, there, isInput⟩ (healed.mono fun _ _ same => same.kept.toAlike)
    split
    · exact ⟨retried, kept, healed.1.ge⟩
    · rename_i ready ensured
      obtain ⟨placed, output, stands', same, longer⟩ := retried.ensureOutput stands ensured
      have fitting : Fits engine { cell with poisoned := false }.primary := fits cell there isInput
      have changed := evaluateInto_changed output stands' fitting
      obtain ⟨selected, editing⟩ := evaluateInto_view engine ready input { cell with poisoned := false }
      exact ⟨placed.kept (changed.mono fun _ _ both => both.1) (changed.texts (fun _ _ both => both.2) placed.texts)
          selected editing,
        (changed.mono fun _ _ both => both.1).sources.trans (same.trans kept),
        (healed.1.ge.trans longer).trans changed.1.ge⟩

theorem replay_keeps (keeps : Notebook Context Ref → Prop)
    (reset : ∀ notebook, keeps notebook → keeps { notebook with context := engine.reset notebook.context })
    (evaluation : ∀ notebook input, keeps notebook → keeps (evaluate engine notebook input).2)
    (fuel : Nat) {index : Nat} {firstError : Status}
    {finished : Status × Notebook Context Ref × List (Notebook Context Ref × Nat)} (holds : keeps notebook)
    (run : replay engine fuel notebook index firstError = some finished) : keeps finished.2.1 := by
  induction fuel generalizing notebook index firstError finished with
  | zero => cases run
  | succ fuel ih =>
    rw [replay] at run
    cases there : notebook.cells[index]? with
    | none =>
      rw [there] at run
      cases run
      exact holds
    | some cell =>
      rw [there] at run
      dsimp only at run
      by_cases active : cell.active = true
      · rw [if_pos active] at run
        obtain ⟨later, goesOn, rfl⟩ := Option.map_eq_some_iff.mp run
        have evaluated := evaluation notebook index holds
        change keeps later.2.1
        by_cases rebuilt : (evaluate engine notebook index).2.generation ≠ notebook.generation
        · rw [if_pos rebuilt] at goesOn
          exact ih (reset _ evaluated) goesOn
        · rw [if_neg rebuilt] at goesOn
          exact ih evaluated goesOn
      · rw [if_neg active] at run
        exact ih holds run

theorem Sound.context (sound : Sound notebook) (context : Context) :
    Sound { notebook with context := context } :=
  ⟨sound.count, sound.selected, sound.texts, sound.owners, sound.editing⟩

theorem Sound.evaluateAll (sound : Sound notebook) (fits : ∀ source ∈ sources notebook.cells, Fits engine source)
    {finished : Status × Notebook Context Ref × List (Notebook Context Ref × Nat)}
    (run : evaluateAll engine notebook = some finished) : Sound finished.2.1 := by
  unfold Notebook.evaluateAll at run
  refine (replay_keeps
    (fun notebook => Sound notebook ∧ ∀ source ∈ sources notebook.cells, Fits engine source)
    (fun notebook held => ⟨held.1.context _, held.2⟩) (fun notebook input held => ?_) _
    ⟨sound.context (engine.reset notebook.context), fits⟩ run).1
  obtain ⟨later, same, _⟩ := Sound.evaluate held.1
    fun cell there isInput => held.2 _ (mem_sources there isInput)
  rw [same]
  exact ⟨later, held.2⟩

end PhyNspire.Notebook

import PhyNspire.Notebook.Evaluation

/-!
What evaluating one input does to the cells: everything before the input stays, the input and its
output get the command's outcome, and what follows only becomes stale, unless the context is
rebuilt.
-/

namespace PhyNspire.Notebook

open PhyNspire.Platform PhyNspire.Eval

variable {Context Ref Value : Type}

def Inserts (call : Notebook Context Ref × Nat) : Prop :=
  hasOutput call.1.cells call.2 = true ∨ call.1.cells.length < maxCells

instance (call : Notebook Context Ref × Nat) : Decidable (Inserts call) := inferInstanceAs (Decidable (_ ∨ _))

variable {cells : List (Cell Ref)}

theorem hasOutput_iff {input : Nat} :
    hasOutput cells input = true ↔
      ∃ cell, cells[input + 1]? = some cell ∧ cell.kind.isOutput = true ∧ cell.ownerInput = input := by
  unfold hasOutput
  cases cells[input + 1]? with
  | none => simp
  | some cell => simp

theorem Cell.active_iff {cell : Cell Ref} : cell.active = true ↔ cell.kind = .input ∧ cell.poisoned = false := by
  unfold active
  rw [Bool.and_eq_true, decide_eq_true_eq, Bool.not_eq_true']

theorem Cell.active_output {cell : Cell Ref} (isOutput : cell.kind.isOutput = true) : cell.active = false := by
  unfold active
  cases kind : cell.kind with
  | input =>
    rw [kind] at isOutput
    cases isOutput
  | markdown => rfl
  | output => rfl
  | error => rfl

@[simp] theorem Cell.active_shifted (cell : Cell Ref) (index : Nat) : (cell.shifted index).active = cell.active := by
  unfold shifted
  split_ifs <;> rfl

@[simp] theorem Cell.active_outdated (cell : Cell Ref) : cell.outdated.active = cell.active := by
  unfold outdated
  split_ifs <;> rfl

@[simp] theorem Cell.active_asInput (cell : Cell Ref) (outcome : Outcome Context Ref) (execution : UInt32) :
    (cell.asInput outcome execution).active = cell.active := rfl

theorem Cell.isOutput_asOutput (cell : Cell Ref) (outcome : Outcome Context Ref) (execution : UInt32) (input : Nat) :
    (cell.asOutput outcome execution input).kind.isOutput = true := by
  change (if outcome.status = .ok then CellKind.output else .error).isOutput = true
  split_ifs <;> rfl

theorem publish_get (outcome : Outcome Context Ref) (execution : UInt32) (input : Nat) (cells : List (Cell Ref))
    (index : Nat) :
    (publish outcome execution input cells)[index]? = cells[index]?.map fun cell =>
      if index < input then cell
      else if index = input then cell.asInput outcome execution
      else if index = input + 1 then cell.asOutput outcome execution input
      else cell.outdated := by
  unfold publish
  rw [List.getElem?_mapIdx]

@[simp] theorem publish_length (outcome : Outcome Context Ref) (execution : UInt32) (input : Nat)
    (cells : List (Cell Ref)) : (publish outcome execution input cells).length = cells.length := List.length_mapIdx

theorem publish_active {input : Nat} (ready : hasOutput cells input = true)
    (outcome : Outcome Context Ref) (execution : UInt32) :
    (publish outcome execution input cells).map Cell.active = cells.map Cell.active := by
  refine List.ext_getElem? fun index => ?_
  rw [List.getElem?_map, publish_get, List.getElem?_map, Option.map_map]
  cases there : cells[index]? with
  | none => rfl
  | some cell =>
    refine congrArg some ?_
    change Cell.active (if index < input then cell else _) = cell.active
    split_ifs with before same next
    · rfl
    · rfl
    · subst next
      obtain ⟨output, isNext, isOutput, _⟩ := hasOutput_iff.mp ready
      rw [there, Option.some_inj] at isNext
      subst isNext
      rw [Cell.active_output (Cell.isOutput_asOutput _ _ _ _), Cell.active_output isOutput]
    · exact cell.active_outdated

theorem migrate_length (engine : Engine Context Ref Value) (old context : Context) (cells : List (Cell Ref)) :
    (migrate engine old cells context).1.length = cells.length := by
  induction cells generalizing context with
  | nil => rfl
  | cons cell rest ih =>
    rw [migrate]
    exact congrArg (· + 1) (ih _)

theorem migrate_active (engine : Engine Context Ref Value) (old context : Context) (cells : List (Cell Ref)) :
    (migrate engine old cells context).1.map Cell.active = cells.map Cell.active := by
  induction cells generalizing context with
  | nil => rfl
  | cons cell rest ih =>
    rw [migrate, List.map_cons, List.map_cons]
    exact congrArg (_ :: ·) (ih _)

theorem modify_get {index : Nat} {cell : Cell Ref} (change : Cell Ref → Cell Ref)
    (there : cells[index]? = some cell) (same : change cell = cell) : cells.modify index change = cells := by
  refine List.ext_getElem? fun other => ?_
  rw [List.getElem?_modify]
  by_cases eq : index = other
  · subst eq
    rw [there]
    change some (if index = index then change cell else cell) = some cell
    rw [if_pos rfl, same]
  · cases cells[other]? with
    | none => rfl
    | some found =>
      change some (if index = other then change found else found) = some found
      rw [if_neg eq]

structure Ready (notebook ready : Notebook Context Ref) (input : Nat) : Prop where
  output : hasOutput ready.cells input = true
  before : ∀ index ≤ input, ready.cells[index]? = notebook.cells[index]?
  longer : ready.cells.length ≤ notebook.cells.length + 1
  room : ready.cells.length ≤ max notebook.cells.length maxCells
  active : ready.cells.countP Cell.active = notebook.cells.countP Cell.active
  activeLater : (ready.cells.drop (input + 1)).countP Cell.active =
    (notebook.cells.drop (input + 1)).countP Cell.active
  context : ready.context = notebook.context
  generation : ready.generation = notebook.generation

theorem countP_shifted (index : Nat) (cells : List (Cell Ref)) :
    (cells.map (Cell.shifted index)).countP Cell.active = cells.countP Cell.active := by
  rw [List.countP_map]
  exact List.countP_congr fun cell _ => by rw [Function.comp_apply, Cell.active_shifted]

variable {notebook : Notebook Context Ref}

theorem ensureOutput_ready {input : Nat} {cell : Cell Ref}
    (there : notebook.cells[input]? = some cell) (inserts : Inserts (notebook, input)) :
    ∃ ready, ensureOutput notebook input = .ok ready ∧ Ready notebook ready input := by
  unfold ensureOutput
  by_cases has : hasOutput notebook.cells input = true
  · rw [if_pos has]
    exact ⟨notebook, rfl, has, fun _ _ => rfl, by omega, le_max_left _ _, rfl, rfl, rfl, rfl⟩
  · have room : notebook.cells.length < maxCells := inserts.resolve_left has
    have inside : input < notebook.cells.length := (List.getElem?_eq_some_iff.mp there).1
    rw [if_neg has, insertCell, if_neg (by omega), if_neg (by omega)]
    have taken : (notebook.cells.take (input + 1)).length = input + 1 := by
      rw [List.length_take]
      omega
    have length : (notebook.cells.take (input + 1) ++ newOutput input ::
        (notebook.cells.drop (input + 1)).map (Cell.shifted (input + 1))).length = notebook.cells.length + 1 := by
      rw [List.length_append, taken, List.length_cons, List.length_map, List.length_drop]
      omega
    have passive : ¬(newOutput input : Cell Ref).active = true := Bool.false_ne_true
    refine ⟨_, rfl, ?_, ?_, length.le, length.le.trans (le_max_of_le_right room), ?_, ?_, rfl, rfl⟩
    · refine hasOutput_iff.mpr ⟨newOutput input, ?_, rfl, rfl⟩
      rw [List.getElem?_append_right taken.le, taken, Nat.sub_self]
      rfl
    · intro index le
      rw [List.getElem?_append_left (by omega), List.getElem?_take, if_pos (by omega)]
    · have parts := congrArg (List.countP Cell.active) (List.take_append_drop (input + 1) notebook.cells)
      rw [List.countP_append] at parts
      rw [List.countP_append, List.countP_cons_of_neg passive, countP_shifted, parts]
    · dsimp only
      rw [List.drop_append_of_le_length taken.ge, List.drop_eq_nil_of_le taken.le, List.nil_append,
        List.countP_cons_of_neg passive, countP_shifted]

theorem evaluate_active {engine : Engine Context Ref Value} {input : Nat}
    {cell : Cell Ref} (there : notebook.cells[input]? = some cell) (active : cell.active = true) :
    evaluate engine notebook input =
      match ensureOutput notebook input with
      | .error status => (status, notebook)
      | .ok ready => evaluateInto engine ready input cell := by
  obtain ⟨isInput, healthy⟩ := Cell.active_iff.mp active
  have same : ({ cell with poisoned := false } : Cell Ref) = cell := by rw [← healthy]
  have retried : { notebook with
      cells := notebook.cells.modify input fun cell => { cell with poisoned := false } } = notebook := by
    rw [modify_get _ there same]
  unfold evaluate
  rw [there]
  dsimp only
  rw [if_neg (not_not.mpr isInput), retried, same] <;> rfl

theorem ensureOutput_error {input : Nat} {cell : Cell Ref}
    (there : notebook.cells[input]? = some cell) (full : ¬Inserts (notebook, input)) :
    ensureOutput notebook input = .error .termLimit := by
  obtain ⟨has, room⟩ := not_or.mp full
  have inside : input < notebook.cells.length := (List.getElem?_eq_some_iff.mp there).1
  unfold ensureOutput
  rw [if_neg has, insertCell, if_neg (by omega), if_pos (not_lt.mp room)]

end PhyNspire.Notebook

/-!
The replay ends, whatever the commands do: a pass moves forward, and a new pass begins only after
one more input has been quarantined.
-/

namespace PhyNspire.Notebook

open PhyNspire.Platform PhyNspire.Eval

variable {Context Ref Value : Type}

def Cell.poison (cell : Cell Ref) : Cell Ref := { cell with poisoned := true }

theorem rebuildContext_cases (engine : Engine Context Ref Value) (notebook : Notebook Context Ref) :
    ((rebuildContext engine notebook).2.cells = notebook.cells ∧
        (rebuildContext engine notebook).2.generation = notebook.generation) ∨
      ((rebuildContext engine notebook).2.cells =
          (migrate engine notebook.context notebook.cells engine.fresh).1 ∧
        (rebuildContext engine notebook).2.generation = notebook.generation + 1) := by
  unfold rebuildContext createEngines
  split_ifs
  · exact Or.inr ⟨rfl, rfl⟩
  · exact Or.inl ⟨rfl, rfl⟩

section

variable (engine : Engine Context Ref Value) (ready : Notebook Context Ref) (input : Nat) (cell : Cell Ref)

def publishedCells : List (Cell Ref) :=
  publish (runCommand engine ready.context cell.primary) (executionOf ready cell) input ready.cells

/-- The three ways an evaluation ends once its output cell is there. -/
inductive Ends (after : Notebook Context Ref) : Prop where
  | published (cells : after.cells = publishedCells engine ready input cell)
      (generation : after.generation = ready.generation)
      (context : after.context = (runCommand engine ready.context cell.primary).context ∨
        ∃ salt, after.context = (engine.probe (runCommand engine ready.context cell.primary).context salt).2)
  | quarantined (cells : after.cells = (publishedCells engine ready input cell).modify input Cell.poison)
      (generation : after.generation = ready.generation)
  | rebuilt (old : Context)
      (cells : after.cells =
        (migrate engine old ((publishedCells engine ready input cell).modify input Cell.poison) engine.fresh).1)
      (generation : after.generation = ready.generation + 1)

theorem evaluateInto_ends :
    (evaluateInto engine ready input cell).1 = (runCommand engine ready.context cell.primary).status ∧
      Ends engine ready input cell (evaluateInto engine ready input cell).2 := by
  unfold evaluateInto
  dsimp only
  by_cases isOk : (runCommand engine ready.context cell.primary).status = .ok
  · rw [if_pos isOk]
    exact ⟨isOk.symm, .published rfl rfl (Or.inl rfl)⟩
  · rw [if_neg isOk]
    by_cases wedged : (engine.probe (runCommand engine ready.context cell.primary).context ready.canary).1 = true
    · rw [if_pos wedged]
      refine ⟨rfl, ?_⟩
      obtain ⟨cells, generation⟩ | ⟨cells, generation⟩ := rebuildContext_cases engine _
      · exact .quarantined cells generation
      · exact .rebuilt _ cells generation
    · rw [if_neg wedged]
      exact ⟨rfl, .published rfl rfl (Or.inr ⟨ready.canary, rfl⟩)⟩

variable {engine ready input cell}

theorem publishedCells_input (there : ready.cells[input]? = some cell) :
    (publishedCells engine ready input cell)[input]? =
      some (cell.asInput (runCommand engine ready.context cell.primary) (executionOf ready cell)) := by
  unfold publishedCells
  rw [publish_get, there]
  change some (if input < input then cell else _) = _
  rw [if_neg (lt_irrefl _), if_pos rfl]

end

variable {cells : List (Cell Ref)}

theorem countP_of_map {others : List (Cell Ref)} (same : cells.map Cell.active = others.map Cell.active) :
    cells.countP Cell.active = others.countP Cell.active := by
  have counted := congrArg (List.countP id) same
  rw [List.countP_map, List.countP_map] at counted
  exact counted

theorem drop_of_map {others : List (Cell Ref)} (count : Nat) (same : cells.map Cell.active = others.map Cell.active) :
    (cells.drop count).countP Cell.active = (others.drop count).countP Cell.active := by
  refine countP_of_map ?_
  rw [List.map_drop, List.map_drop, same]

theorem countP_poison {input : Nat} {cell : Cell Ref} (there : cells[input]? = some cell)
    (active : cell.active = true) :
    (cells.modify input Cell.poison).countP Cell.active + 1 = cells.countP Cell.active := by
  induction cells generalizing input with
  | nil => cases there
  | cons head rest ih =>
    cases input with
    | zero =>
      cases there
      have passive : ¬cell.poison.active = true := by
        rw [Cell.active_iff]
        exact fun h => Bool.noConfusion h.2
      rw [List.modify_zero_cons, List.countP_cons_of_neg passive, List.countP_cons_of_pos active]
    | succ input =>
      have later := ih there
      rw [List.modify_succ_cons, List.countP_cons, List.countP_cons]
      omega

theorem drop_active {index : Nat} {cell : Cell Ref} (there : cells[index]? = some cell) :
    (cells.drop index).countP Cell.active =
      (cells.drop (index + 1)).countP Cell.active + if cell.active then 1 else 0 := by
  obtain ⟨inside, rfl⟩ := List.getElem?_eq_some_iff.mp there
  rw [List.drop_eq_getElem_cons inside, List.countP_cons]

theorem next_generation (generation : UInt32) : generation + 1 ≠ generation := by
  intro same
  have values := congrArg UInt32.toNat same
  rw [UInt32.toNat_add, UInt32.toNat_one] at values
  have := generation.toNat_lt
  omega

structure Progress (bound : Nat) (notebook after : Notebook Context Ref) (index : Nat) : Prop where
  bounded : after.cells.length ≤ bound
  step : after.cells.countP Cell.active + 1 = notebook.cells.countP Cell.active ∨
    (after.generation = notebook.generation ∧
      after.cells.countP Cell.active = notebook.cells.countP Cell.active ∧
      (after.cells.drop (index + 1)).countP Cell.active + 1 = (notebook.cells.drop index).countP Cell.active ∧
      after.cells.length ≤ notebook.cells.length + 1)

theorem evaluate_progress (engine : Engine Context Ref Value) {notebook : Notebook Context Ref} {index bound : Nat}
    {cell : Cell Ref} (there : notebook.cells[index]? = some cell) (active : cell.active = true)
    (bounded : notebook.cells.length ≤ bound) (large : maxCells ≤ bound) :
    Progress bound notebook (evaluate engine notebook index).2 index := by
  have drop := drop_active there
  rw [if_pos active] at drop
  rw [evaluate_active there active]
  by_cases inserts : Inserts (notebook, index)
  · obtain ⟨ready, isReady, facts⟩ := ensureOutput_ready there inserts
    rw [isReady]
    dsimp only
    have thereReady : ready.cells[index]? = some cell := (facts.before index le_rfl).trans there
    have room : ready.cells.length ≤ bound := facts.room.trans (max_le bounded large)
    have activity : (publishedCells engine ready index cell).map Cell.active = ready.cells.map Cell.active :=
      publish_active facts.output _ _
    have length : (publishedCells engine ready index cell).length = ready.cells.length := publish_length _ _ _ _
    have poisoned : ((publishedCells engine ready index cell).modify index Cell.poison).countP Cell.active + 1 =
        notebook.cells.countP Cell.active := by
      rw [countP_poison (publishedCells_input thereReady) active, countP_of_map activity, facts.active]
    cases (evaluateInto_ends engine ready index cell).2 with
    | published cells generation =>
      refine ⟨by rw [cells, length]; exact room, Or.inr ⟨generation.trans facts.generation, ?_, ?_, ?_⟩⟩
      · rw [cells, countP_of_map activity, facts.active]
      · rw [cells, drop_of_map _ activity, facts.activeLater, drop]
      · rw [cells, length]
        exact facts.longer
    | quarantined cells _ =>
      exact ⟨by rw [cells, List.length_modify, length]; exact room, Or.inl (by rw [cells]; exact poisoned)⟩
    | rebuilt old cells _ =>
      refine ⟨by rw [cells, migrate_length, List.length_modify, length]; exact room, Or.inl ?_⟩
      rw [cells, countP_of_map (migrate_active _ _ _ _)]
      exact poisoned
  · rw [ensureOutput_error there inserts]
    exact ⟨bounded, Or.inr ⟨rfl, rfl, drop.symm, Nat.le_succ _⟩⟩

def distance (width : Nat) (notebook : Notebook Context Ref) (index : Nat) : Nat :=
  notebook.cells.countP Cell.active * width + (notebook.cells.length - index) +
    (notebook.cells.drop index).countP Cell.active

theorem replay_ends (engine : Engine Context Ref Value) {bound inputs : Nat} (large : maxCells ≤ bound) (fuel : Nat)
    (notebook : Notebook Context Ref) (index : Nat) (firstError : Status)
    (bounded : notebook.cells.length ≤ bound) (few : notebook.cells.countP Cell.active ≤ inputs)
    (enough : distance (bound + inputs + 1) notebook index < fuel) :
    ∃ result, replay engine fuel notebook index firstError = some result := by
  induction fuel generalizing notebook index firstError with
  | zero => omega
  | succ fuel ih =>
    rw [replay]
    unfold distance at enough
    cases there : notebook.cells[index]? with
    | none => exact ⟨_, rfl⟩
    | some cell =>
      have inside : index < notebook.cells.length := (List.getElem?_eq_some_iff.mp there).1
      have drop := drop_active there
      dsimp only
      by_cases active : cell.active = true
      · rw [if_pos active]
        rw [if_pos active] at drop
        obtain ⟨bounded', step⟩ := evaluate_progress engine there active bounded large
        have few' : (evaluate engine notebook index).2.cells.countP Cell.active ≤ inputs := by
          obtain less | ⟨_, same, _⟩ := step
          · omega
          · omega
        have later (i : Nat) : ((evaluate engine notebook index).2.cells.drop i).countP Cell.active ≤ inputs :=
          ((List.drop_sublist _ _).countP_le).trans few'
        -- a quarantine pays for a whole new pass
        have pays (less : (evaluate engine notebook index).2.cells.countP Cell.active + 1 =
            notebook.cells.countP Cell.active) (i : Nat) :
            distance (bound + inputs + 1) (evaluate engine notebook index).2 i < fuel := by
          unfold distance
          have rest := later i
          rw [← less, Nat.add_mul, Nat.one_mul] at enough
          omega
        have finish (next : Option (Status × Notebook Context Ref × List (Notebook Context Ref × Nat)))
            (ends : ∃ result, next = some result) :
            ∃ result, (next.map fun finished => (finished.1, finished.2.1, (notebook, index) :: finished.2.2)) =
              some result := by
          obtain ⟨result, rfl⟩ := ends
          exact ⟨_, rfl⟩
        refine finish _ ?_
        by_cases changed : (evaluate engine notebook index).2.generation ≠ notebook.generation
        · rw [if_pos changed]
          refine ih _ 0 _ bounded' few' ?_
          obtain less | ⟨same, _⟩ := step
          · exact pays less 0
          · exact absurd same changed
        · rw [if_neg changed]
          refine ih _ (index + 1) _ bounded' few' ?_
          obtain less | ⟨_, same, moved, longer⟩ := step
          · exact pays less (index + 1)
          · unfold distance
            rw [same]
            omega
      · rw [if_neg active]
        rw [if_neg active] at drop
        refine ih notebook (index + 1) firstError bounded few ?_
        unfold distance
        omega

theorem evaluateAll_ends (engine : Engine Context Ref Value) (notebook : Notebook Context Ref) :
    ∃ status after calls, evaluateAll engine notebook = some (status, after, calls) := by
  obtain ⟨result, ends⟩ := replay_ends engine (le_max_right notebook.cells.length maxCells)
    (replayFuel notebook) { notebook with context := engine.reset notebook.context } 0 .ok (le_max_left _ _) le_rfl
    (by
      unfold distance replayFuel
      dsimp only
      rw [List.drop_zero, Nat.add_mul, Nat.one_mul]
      have := le_max_left notebook.cells.length maxCells
      omega)
  exact ⟨result.1, result.2.1, result.2.2, ends⟩

end PhyNspire.Notebook

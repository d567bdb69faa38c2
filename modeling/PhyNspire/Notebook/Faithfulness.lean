import PhyNspire.Notebook.Replay

/-!
The replay is faithful: at its end every input that is not quarantined shows what running exactly
these inputs once, in document order and from an empty environment, gives.
-/

namespace PhyNspire.Notebook

open PhyNspire.Platform PhyNspire.Eval

variable {Context Ref Value : Type}

/-- The context is an environment: a reset empties it, and the canary does not change it. -/
structure Engine.Environmental (engine : Engine Context Ref Value) : Prop where
  reset : ∀ context, engine.reset context = engine.fresh
  probe : ∀ context salt, (engine.probe context salt).2 = context

def stepContext (engine : Engine Context Ref Value) (context : Context) (cell : Cell Ref) : Context :=
  if cell.active then (runCommand engine context cell.primary).context else context

/-- The environment before a cell when the inputs before it ran once, in order, from an empty one. -/
def environmentBefore (engine : Engine Context Ref Value) (cells : List (Cell Ref)) (index : Nat) : Context :=
  (cells.take index).foldl (stepContext engine) engine.fresh

structure Shows (outcome : Outcome Context Ref) (cells : List (Cell Ref)) (index : Nat) (cell : Cell Ref) :
    Prop where
  status : cell.status = outcome.status
  expression : cell.expression = outcome.expression
  secondary : cell.secondary = outcome.secondary
  current : cell.stale = false
  output : ∃ output : Cell Ref, cells[index + 1]? = some output ∧ output.ownerInput = index ∧
    output.kind = (if outcome.status = .ok then .output else .error) ∧ output.status = outcome.status ∧
    output.expression = outcome.result ∧ output.stale = false ∧
    (outcome.status ≠ .ok → output.primary = []) ∧
    (outcome.status = .ok → outcome.description.length < textCapacity → output.primary = outcome.description)

/-- The inputs before `bound` that are not quarantined show what the document says. -/
def FaithfulBelow (engine : Engine Context Ref Value) (cells : List (Cell Ref)) (bound : Nat) : Prop :=
  ∀ index < bound, ∀ cell, cells[index]? = some cell → cell.active = true →
    Shows (runCommand engine (environmentBefore engine cells index) cell.primary) cells index cell

def Faithful (engine : Engine Context Ref Value) (cells : List (Cell Ref)) : Prop :=
  FaithfulBelow engine cells cells.length

def Rebuilds (engine : Engine Context Ref Value) (call : Notebook Context Ref × Nat) : Prop :=
  (evaluate engine call.1 call.2).2.cells[call.2]?.any Cell.poisoned = true →
    (evaluate engine call.1 call.2).2.generation ≠ call.1.generation

instance (engine : Engine Context Ref Value) (call : Notebook Context Ref × Nat) : Decidable (Rebuilds engine call) :=
  inferInstanceAs (Decidable (_ → _))

theorem environmentBefore_congr (engine : Engine Context Ref Value) {cells others : List (Cell Ref)} {index : Nat}
    (same : ∀ lower < index, cells[lower]? = others[lower]?) :
    environmentBefore engine cells index = environmentBefore engine others index := by
  unfold environmentBefore
  congr 1
  refine List.ext_getElem? fun lower => ?_
  rw [List.getElem?_take, List.getElem?_take]
  split_ifs with below
  · exact same lower below
  · rfl

theorem environmentBefore_succ (engine : Engine Context Ref Value) {cells : List (Cell Ref)} {index : Nat}
    {cell : Cell Ref} (there : cells[index]? = some cell) :
    environmentBefore engine cells (index + 1) = stepContext engine (environmentBefore engine cells index) cell := by
  unfold environmentBefore
  rw [List.take_add_one, there, List.foldl_append]
  rfl

theorem FaithfulBelow.congr {engine : Engine Context Ref Value} {cells others : List (Cell Ref)} {index : Nat}
    {cell : Cell Ref} (faithful : FaithfulBelow engine cells index)
    (same : ∀ lower < index, others[lower]? = cells[lower]?) (there : cells[index]? = some cell)
    (active : cell.active = true) : FaithfulBelow engine others index := by
  intro lower below found isFound isActive
  rw [same lower below] at isFound
  have shows := faithful lower below found isFound isActive
  rw [environmentBefore_congr engine fun first before => same first (before.trans below)]
  obtain ⟨output, isOutput, owner, kind, rest⟩ := shows.output
  have apart : lower + 1 ≠ index := by
    rintro rfl
    rw [there, Option.some_inj] at isOutput
    subst isOutput
    rw [(Cell.active_iff.mp active).1] at kind
    split_ifs at kind
  refine { shows with output := ⟨output, ?_, owner, kind, rest⟩ }
  rw [same (lower + 1) (by omega)]
  exact isOutput

section

variable {engine : Engine Context Ref Value} {ready : Notebook Context Ref} {index : Nat} {cell : Cell Ref}

theorem publishedCells_before {lower : Nat} (below : lower < index) :
    (publishedCells engine ready index cell)[lower]? = ready.cells[lower]? := by
  unfold publishedCells
  rw [publish_get]
  cases ready.cells[lower]? with
  | none => rfl
  | some found =>
    change some (if lower < index then found else _) = some found
    rw [if_pos below]

theorem publishedCells_show (there : ready.cells[index]? = some cell) (output : hasOutput ready.cells index = true) :
    Shows (runCommand engine ready.context cell.primary) (publishedCells engine ready index cell) index
      (cell.asInput (runCommand engine ready.context cell.primary) (executionOf ready cell)) where
  status := rfl
  expression := rfl
  secondary := rfl
  current := rfl
  output := by
    obtain ⟨found, isNext, _, _⟩ := hasOutput_iff.mp output
    refine ⟨found.asOutput (runCommand engine ready.context cell.primary) (executionOf ready cell) index, ?_, rfl, rfl,
      rfl, rfl, rfl, ?_, ?_⟩
    · unfold publishedCells
      rw [publish_get, isNext]
      change some (if index + 1 < index then found else _) = _
      rw [if_neg (by omega), if_neg (by omega), if_pos rfl]
    · intro failed
      exact if_neg failed
    · intro isOk fits
      refine (if_pos isOk).trans ?_
      rw [copyText, if_neg (not_le.mpr fits)]
      rfl

end

/-- Where the replay stands: what it has passed is faithful, and the environment is the one the
document has there. -/
structure Standing (engine : Engine Context Ref Value) (notebook : Notebook Context Ref) (index : Nat) : Prop where
  context : notebook.context = environmentBefore engine notebook.cells index
  faithful : FaithfulBelow engine notebook.cells index

theorem Standing.start {engine : Engine Context Ref Value} (environmental : engine.Environmental)
    (notebook : Notebook Context Ref) :
    Standing engine { notebook with context := engine.reset notebook.context } 0 where
  context := environmental.reset _
  faithful := fun _ below => by omega

theorem Standing.skip {engine : Engine Context Ref Value} {notebook : Notebook Context Ref} {index : Nat}
    {cell : Cell Ref} (standing : Standing engine notebook index) (there : notebook.cells[index]? = some cell)
    (passive : ¬cell.active = true) : Standing engine notebook (index + 1) where
  context := by
    rw [environmentBefore_succ engine there, stepContext, if_neg passive]
    exact standing.context
  faithful := by
    intro lower below found isFound isActive
    obtain before | rfl := Nat.lt_succ_iff_lt_or_eq.mp below
    · exact standing.faithful lower before found isFound isActive
    · rw [there, Option.some_inj] at isFound
      exact absurd (isFound ▸ isActive) passive

theorem Standing.evaluate {engine : Engine Context Ref Value} (environmental : engine.Environmental)
    {notebook : Notebook Context Ref} {index : Nat} {cell : Cell Ref} (standing : Standing engine notebook index)
    (there : notebook.cells[index]? = some cell) (active : cell.active = true)
    (inserts : Inserts (notebook, index)) (rebuilds : Rebuilds engine (notebook, index))
    (stays : (evaluate engine notebook index).2.generation = notebook.generation) :
    Standing engine (evaluate engine notebook index).2 (index + 1) := by
  obtain ⟨ready, isReady, facts⟩ := ensureOutput_ready there inserts
  have result : Notebook.evaluate engine notebook index = evaluateInto engine ready index cell := by
    rw [evaluate_active there active, isReady]
  have thereReady : ready.cells[index]? = some cell := (facts.before index le_rfl).trans there
  cases (evaluateInto_ends engine ready index cell).2 with
  | published cells _ context =>
    rw [result]
    have same (lower : Nat) (below : lower < index) :
        (evaluateInto engine ready index cell).2.cells[lower]? = notebook.cells[lower]? := by
      rw [cells, publishedCells_before below, facts.before lower below.le]
    have before := environmentBefore_congr engine same
    have input : (publishedCells engine ready index cell)[index]? = _ := publishedCells_input thereReady
    rw [← cells] at input
    have shows : Shows (runCommand engine ready.context cell.primary) _ index _ :=
      publishedCells_show thereReady facts.output
    rw [← cells, facts.context, standing.context, ← before] at shows
    have isActive : (cell.asInput (runCommand engine ready.context cell.primary) (executionOf ready cell)).active =
        true := active
    refine ⟨?_, ?_⟩
    · rw [environmentBefore_succ engine input, stepContext, if_pos isActive, before, ← standing.context,
        ← facts.context]
      obtain same | ⟨salt, same⟩ := context
      · exact same
      · exact same.trans (environmental.probe _ salt)
    · intro lower below found isFound isActive
      obtain earlier | rfl := Nat.lt_succ_iff_lt_or_eq.mp below
      · exact (standing.faithful.congr same there active) lower earlier found isFound isActive
      · rw [input, Option.some_inj] at isFound
        subst isFound
        rw [facts.context, standing.context, ← before]
        exact shows
  | quarantined cells _ =>
    have input : (publishedCells engine ready index cell)[index]? = _ := publishedCells_input thereReady
    have poisoned : (Notebook.evaluate engine notebook index).2.cells[index]? =
        some (cell.asInput (runCommand engine ready.context cell.primary) (executionOf ready cell)).poison := by
      rw [result, cells, List.getElem?_modify, input]
      change some (if index = index then _ else _) = _
      rw [if_pos rfl]
    refine absurd stays (rebuilds ?_)
    dsimp only
    rw [poisoned]
    rfl
  | rebuilt old _ generation =>
    rw [result, generation, facts.generation] at stays
    exact absurd stays (next_generation _)

theorem replay_spec {engine : Engine Context Ref Value} (fuel : Nat) {notebook after : Notebook Context Ref}
    {index : Nat} {firstError status : Status} {calls : List (Notebook Context Ref × Nat)}
    (ends : replay engine fuel notebook index firstError = some (status, after, calls)) :
    (status = .ok ↔ firstError = .ok ∧ ∀ call ∈ calls, (evaluate engine call.1 call.2).1 = .ok) ∧
      (engine.Environmental → (∀ call ∈ calls, Inserts call ∧ Rebuilds engine call) →
        Standing engine notebook index → Faithful engine after.cells) := by
  induction fuel generalizing notebook index firstError calls with
  | zero => cases ends
  | succ fuel ih =>
    rw [replay] at ends
    cases there : notebook.cells[index]? with
    | none =>
      rw [there] at ends
      cases ends
      refine ⟨(and_iff_left (fun _ member => by cases member)).symm, fun _ _ standing => ?_⟩
      intro lower below
      exact standing.faithful lower (below.trans_le (List.getElem?_eq_none_iff.mp there))
    | some cell =>
      rw [there] at ends
      dsimp only at ends
      by_cases active : cell.active = true
      · rw [if_pos active, Option.map_eq_some_iff] at ends
        obtain ⟨⟨laterStatus, last, laterCalls⟩, finished, same⟩ := ends
        cases same
        have error : (if (evaluate engine notebook index).1 ≠ .ok ∧ firstError = .ok then
              (evaluate engine notebook index).1 else firstError) = .ok ↔
            firstError = .ok ∧ (evaluate engine notebook index).1 = .ok := by
          split_ifs with first
          · exact ⟨fun isOk => ⟨first.2, isOk⟩, And.right⟩
          · exact ⟨fun isOk => ⟨isOk, not_not.mp fun failed => first ⟨failed, isOk⟩⟩, And.left⟩
        by_cases changed : (evaluate engine notebook index).2.generation ≠ notebook.generation
        · rw [if_pos changed] at finished
          obtain ⟨statuses, faithful⟩ := ih finished
          refine ⟨?_, fun environmental conditions _ => ?_⟩
          · rw [statuses, error, List.forall_mem_cons, and_assoc]
          · exact faithful environmental (fun call member => conditions call (List.mem_cons_of_mem _ member))
              (Standing.start environmental _)
        · rw [if_neg changed] at finished
          obtain ⟨statuses, faithful⟩ := ih finished
          refine ⟨?_, fun environmental conditions standing => ?_⟩
          · rw [statuses, error, List.forall_mem_cons, and_assoc]
          · obtain ⟨inserts, rebuilds⟩ := conditions (notebook, index) List.mem_cons_self
            exact faithful environmental (fun call member => conditions call (List.mem_cons_of_mem _ member))
              (standing.evaluate environmental there active inserts rebuilds (not_not.mp changed))
      · rw [if_neg active] at ends
        obtain ⟨statuses, faithful⟩ := ih ends
        exact ⟨statuses, fun environmental conditions standing =>
          faithful environmental conditions (standing.skip there active)⟩

/-- The replay of every notebook ends. It returns `PHY_OK` exactly when none of its evaluations
failed, and it is faithful when every output cell could be inserted and every rebuild worked. -/
theorem replay_is_faithful (engine : Engine Context Ref Value) (environmental : engine.Environmental)
    (notebook : Notebook Context Ref) :
    ∃ status after calls, evaluateAll engine notebook = some (status, after, calls) ∧
      (status = .ok ↔ ∀ call ∈ calls, (evaluate engine call.1 call.2).1 = .ok) ∧
      ((∀ call ∈ calls, Inserts call ∧ Rebuilds engine call) → Faithful engine after.cells) := by
  obtain ⟨status, after, calls, ends⟩ := evaluateAll_ends engine notebook
  obtain ⟨statuses, faithful⟩ := replay_spec _ ends
  refine ⟨status, after, calls, ends, statuses.trans (and_iff_right rfl), fun conditions => ?_⟩
  exact faithful environmental conditions (Standing.start environmental notebook)

/-- An engine whose environment is one bit. A source of one character saturates the context and
spoils the environment; any other source shows the environment. -/
def moodyEngine : Engine Bool Nat Nat where
  fresh := false
  reset := fun _ => false
  parse := fun context source => (.ok, ⟨some source.length, .simplify, 0⟩, context)
  read := fun context _ => (.ok, none, context)
  write := fun _ _ => []
  command := fun context command =>
    if command.expression = some 1 then (.memoryLimit, 0, true) else (.ok, if context then 1 else 0, context)
  isNone := fun _ => false
  expression := fun context value => (.ok, some value, context)
  equation := fun context _ ref => (.ok ref, context)
  describe := fun _ _ => (.ok, [])
  probe := fun context _ => (context, context)

theorem moodyEngine_environmental : moodyEngine.Environmental := ⟨fun _ => rfl, fun _ _ => rfl⟩

/-- A source that saturates the context and one that does not. -/
def twoInputs (grants : Nat → Bool) : Notebook Bool Nat :=
  ⟨false, 0, 0, [blankCell .input [72] [], blankCell .input [120, 121] []], 0, 1, false, 0, false, 0, false, ⟨grants, 0⟩⟩

theorem quarantined_replay_is_faithful :
    ∃ after calls, evaluateAll moodyEngine (twoInputs fun _ => true) = some (.memoryLimit, after, calls) ∧
      Faithful moodyEngine after.cells := by
  obtain ⟨status, after, calls, ends, _, faithful⟩ :=
    replay_is_faithful moodyEngine moodyEngine_environmental (twoInputs fun _ => true)
  have checked : (evaluateAll moodyEngine (twoInputs fun _ => true)).map (fun result =>
      (result.1, result.2.2.all fun call => decide (Inserts call ∧ Rebuilds moodyEngine call))) =
      some (.memoryLimit, true) := by decide
  rw [ends, Option.map_some, Option.some_inj, Prod.mk.injEq] at checked
  obtain ⟨rfl, conditions⟩ := checked
  refine ⟨after, calls, ends, faithful fun call member => ?_⟩
  exact of_decide_eq_true (List.all_eq_true.mp conditions call member)

/-- When the rebuild fails, the second input shows the environment that the first one spoiled. -/
theorem failed_rebuild_is_not_faithful :
    (∃ status after calls, evaluateAll moodyEngine (twoInputs fun _ => false) = some (status, after, calls) ∧
      (∀ call ∈ calls, Inserts call) ∧ ¬Faithful moodyEngine after.cells) ∧
    ¬∀ (engine : Engine Bool Nat Nat), engine.Environmental → ∀ notebook,
      ∃ status after calls, evaluateAll engine notebook = some (status, after, calls) ∧
        (status = .ok ↔ ∀ call ∈ calls, (evaluate engine call.1 call.2).1 = .ok) ∧
        ((∀ call ∈ calls, Inserts call) → Faithful engine after.cells) := by
  obtain ⟨status, after, calls, ends⟩ := evaluateAll_ends moodyEngine (twoInputs fun _ => false)
  have checked : (evaluateAll moodyEngine (twoInputs fun _ => false)).map (fun result =>
      (result.2.2.all (fun call => decide (Inserts call)), result.2.1.cells[2]?.map Cell.active,
        result.2.1.cells[2]?.map Cell.primary, result.2.1.cells[3]?.map Cell.expression,
        environmentBefore moodyEngine result.2.1.cells 2)) =
      some (true, some true, some [120, 121], some (some 1), false) := rfl
  rw [ends, Option.map_some, Option.some_inj] at checked
  simp only [Prod.mk.injEq, Option.map_eq_some_iff] at checked
  obtain ⟨inserts, ⟨cell, there, active⟩, ⟨_, there', source⟩, ⟨output, isOutput, result⟩, empty⟩ := checked
  rw [there, Option.some_inj] at there'
  subst there'
  have unfaithful : ¬Faithful moodyEngine after.cells := by
    intro faithful
    obtain ⟨found, isFound, _, _, _, shown, _⟩ :=
      (faithful 2 (List.getElem?_eq_some_iff.mp there).1 cell there active).output
    rw [isOutput, Option.some_inj] at isFound
    subst isFound
    rw [result, empty, source] at shown
    revert shown
    decide
  have inserted : ∀ call ∈ calls, Inserts call := fun call member =>
    of_decide_eq_true (List.all_eq_true.mp inserts call member)
  refine ⟨⟨status, after, calls, ends, inserted, unfaithful⟩, fun all => ?_⟩
  obtain ⟨_, _, _, ends', _, faithful⟩ := all moodyEngine moodyEngine_environmental (twoInputs fun _ => false)
  rw [ends, Option.some_inj, Prod.mk.injEq, Prod.mk.injEq] at ends'
  obtain ⟨_, rfl, rfl⟩ := ends'
  exact unfaithful (faithful inserted)

end PhyNspire.Notebook

import PhyNspire.Eval.Histories

/-!
Coordinates are names, not values. `Manifold` and `ComponentBasis` refuse a coordinate that is
bound, and a binding refuses a name that is a coordinate of a chart or basis in the table; every
other object stands on the charts and bases of the objects it depends on.
-/

namespace PhyNspire.Eval

open PhyNspire.Platform PhyNspire.Lib.Marking Relation

/-- One entry of a coordinate list: a symbol or another expression. -/
inductive Argument where
  | symbol (name : Symbol)
  | other
deriving DecidableEq, Repr

/-- The loop over the coordinate list in `eval_manifold` and `eval_component_basis`. A basis given
by its dimension has an empty list. -/
def readCoordinates (env : Env) : List Argument → Except Status (List Symbol)
  | [] => .ok []
  | .other :: _ => .error .type
  | .symbol name :: rest =>
    if (evalLookup env name).isSome then .error .assumption
    else if name = 0 then .error .corruptDocument
    else (readCoordinates env rest).map (name :: ·)

/-- The `PHY_IR_SYMBOL` case of `eval_node`. -/
def evalSymbol (env : Env) (name : Symbol) (expr : Nat) : Value := (evalLookup env name).getD (.scalar expr)

/-- What `Manifold`, `ComponentBasis` and the other constructors register. Evaluation does not touch
the bindings, so it does not matter when in the command the names were looked up. -/
inductive Constructed (env : Env) : Registration → Prop where
  | chart {arguments : List Argument} {coordinates : List Symbol} (pointer : Pointer)
      (read : readCoordinates env arguments = .ok coordinates) :
      Constructed env ⟨.object .chart pointer, pointer, coordinates, []⟩
  | basis {arguments : List Argument} {coordinates : List Symbol} (pointer : Pointer) (space : Value)
      (read : readCoordinates env arguments = .ok coordinates) :
      Constructed env ⟨.object .componentBasis pointer, pointer, coordinates, [space]⟩
  | built (new : Registration)
      (stands : ∀ name ∈ new.coordinates, ∃ value ∈ new.dependencies, ∃ (slot : Nat) (object : Object),
        slotOf env value = some slot ∧ env.objects[slot]? = some object ∧ name ∈ object.coordinates) :
      Constructed env new

def AllConstructed (env : Env) : List Registration → Prop
  | [] => True
  | new :: rest => Constructed env new ∧ AllConstructed (evalRegisterMany env new).2.1 rest

def Session.Constructs (session : Session) : List (Command × Evaluation) → Prop
  | [] => True
  | step :: rest => AllConstructed session.env step.2.registrations ∧ (session.step step).Constructs rest

def Supported (env : Env) : Prop :=
  ∀ (slot : Nat) (object : Object), env.objects[slot]? = some object → ∀ name ∈ object.coordinates,
    object.value.isFrame = true ∨ ∃ (lower : Nat) (target : Object),
      object.dependency.getLsbD lower = true ∧ env.objects[lower]? = some target ∧ name ∈ target.coordinates

/-- No coordinate of an object in the table is bound, and none is `PHY_IR_NO_SYMBOL`. -/
def Uncaptured (env : Env) : Prop :=
  ∀ object ∈ env.objects, ∀ name ∈ object.coordinates, name ≠ 0 ∧ name ∉ env.bindings.map Binding.name

theorem evalLookup_none {env : Env} {name : Symbol} :
    evalLookup env name = none ↔ name = 0 ∨ name ∉ env.bindings.map Binding.name := by
  unfold evalLookup
  split_ifs with isNull
  · exact ⟨fun _ => Or.inl isNull, fun _ => rfl⟩
  · rw [Option.map_eq_none_iff, List.find?_eq_none, List.mem_map]
    simp only [decide_eq_true_eq, isNull, false_or, not_exists, not_and]

theorem readCoordinates_free {env : Env} {arguments : List Argument} {coordinates : List Symbol}
    (read : readCoordinates env arguments = .ok coordinates) :
    ∀ name ∈ coordinates, name ≠ 0 ∧ name ∉ env.bindings.map Binding.name := by
  induction arguments generalizing coordinates with
  | nil =>
    cases read
    exact fun _ there => by cases there
  | cons argument rest ih =>
    cases argument with
    | other => cases read
    | symbol name =>
      rw [readCoordinates] at read
      split_ifs at read with isBound isNull
      cases later : readCoordinates env rest with
      | error status =>
        rw [later] at read
        cases read
      | ok names =>
        rw [later] at read
        cases read
        intro other there
        obtain rfl | there := List.mem_cons.mp there
        · have free := evalLookup_none.mp (Option.not_isSome_iff_eq_none.mp isBound)
          exact ⟨isNull, free.resolve_left isNull⟩
        · exact ih later other there

theorem evalIsChartCoordinate_iff {env : Env} {name : Symbol} :
    evalIsChartCoordinate env name = true ↔
      name ≠ 0 ∧ ∃ object ∈ env.objects, object.value.isFrame = true ∧ name ∈ object.coordinates := by
  unfold evalIsChartCoordinate
  rw [Bool.and_eq_true, decide_eq_true_eq, List.any_eq_true]
  simp only [Bool.and_eq_true, List.contains_iff_mem]

theorem Supported.found {env : Env} (supported : Supported env)
    (down : ∀ slot bit, refers env slot bit = true → bit < slot) {slot : Nat} {object : Object} {name : Symbol}
    (there : env.objects[slot]? = some object) (isCoordinate : name ∈ object.coordinates) :
    ∃ frame ∈ env.objects, frame.value.isFrame = true ∧ name ∈ frame.coordinates := by
  induction slot using Nat.strong_induction_on generalizing object with
  | h slot ih =>
    obtain isFrame | ⟨lower, target, set, isTarget, below⟩ := supported slot object there name isCoordinate
    · exact ⟨object, List.mem_of_getElem? there, isFrame, isCoordinate⟩
    · exact ih lower (down slot lower (refers_iff.mpr ⟨object, there, set⟩)) isTarget below

section

variable {env : Env} {ledger : Ledger} {freed : List Pointer}

theorem Constructed.register {new : Registration} (tracks : Tracks env ledger freed)
    (constructed : Constructed env new) (supported : Supported env) (free : Uncaptured env) :
    Supported (evalRegisterMany env new).2.1 ∧ Uncaptured (evalRegisterMany env new).2.1 := by
  by_cases isOk : (evalRegisterMany env new).1 = .ok
  · obtain ⟨_, _, bits, found, result⟩ := evalRegisterMany_ok isOk
    rw [result]
    have old (slot : Nat) (object : Object) (there : env.objects[slot]? = some object) :
        (env.objects ++ [⟨new.value, new.owned, bits, new.coordinates⟩])[slot]? = some object :=
      concat_get.mpr (Or.inl there)
    refine ⟨?_, ?_⟩
    · intro slot object there name isCoordinate
      obtain there | ⟨_, rfl⟩ := concat_get.mp there
      · exact (supported slot object there name isCoordinate).imp_right
          fun ⟨lower, target, set, isTarget, below⟩ => ⟨lower, target, set, old lower target isTarget, below⟩
      · cases constructed with
        | chart _ _ => exact Or.inl rfl
        | basis _ _ _ => exact Or.inl rfl
        | built _ stands =>
          obtain ⟨value, isDependency, lower, target, isSlot, isTarget, below⟩ := stands name isCoordinate
          have set := (dependencyBits_bit tracks.room found).mpr ⟨value, isDependency, isSlot⟩
          exact Or.inr ⟨lower, target, set, old lower target isTarget, below⟩
    · intro object there name isCoordinate
      obtain there | there := List.mem_append.mp there
      · exact free object there name isCoordinate
      · rw [List.mem_singleton.mp there] at isCoordinate
        cases constructed with
        | chart _ read => exact readCoordinates_free read name isCoordinate
        | basis _ _ read => exact readCoordinates_free read name isCoordinate
        | built _ stands =>
          obtain ⟨_, _, _, target, _, isTarget, below⟩ := stands name isCoordinate
          exact free target (List.mem_of_getElem? isTarget) name below
  · rw [evalRegisterMany_failed isOk]
    exact ⟨supported, free⟩

theorem AllConstructed.evalNode {news : List Registration} (tracks : Tracks env ledger freed)
    (fits : AllFit env news) (constructed : AllConstructed env news) (supported : Supported env)
    (free : Uncaptured env) : Supported (evalNode env news).1 ∧ Uncaptured (evalNode env news).1 := by
  induction news generalizing env ledger freed with
  | nil => exact ⟨supported, free⟩
  | cons new rest ih =>
    obtain ⟨supported, free⟩ := constructed.1.register tracks supported free
    exact ih (tracks.register fits.1) fits.2 constructed.2 supported free

theorem Supported.evalSweep (tracks : Tracks env ledger freed) (supported : Supported env) (keep : Value) :
    Supported (evalSweep env keep).1 := by
  intro number object there name isCoordinate
  obtain ⟨slot, old, isOld, isMarked, rfl, rfl⟩ := compact_origin there
  refine (supported slot old isOld name isCoordinate).imp_right ?_
  rintro ⟨lower, target, set, isTarget, below⟩
  obtain ⟨root, isRoot, path⟩ := (marks_iff tracks).mp isMarked
  have reached : marks env keep lower = true :=
    (marks_iff tracks).mpr ⟨root, isRoot, path.tail (refers_iff.mpr ⟨old, isOld, set⟩)⟩
  refine ⟨rank (marks env keep) lower, _, ?_, compact_get isTarget reached, below⟩
  exact (mappedBits_bit tracks.room).mpr ⟨lower, (List.getElem?_eq_some_iff.mp isTarget).1, set, reached, rfl⟩

theorem Uncaptured.evalSweep (free : Uncaptured env) (keep : Value) : Uncaptured (evalSweep env keep).1 := by
  intro object there name isCoordinate
  obtain ⟨_, there⟩ := List.mem_iff_getElem?.mp there
  obtain ⟨_, old, isOld, _, _, rfl⟩ := compact_origin there
  exact free old (List.mem_of_getElem? isOld) name isCoordinate

theorem Uncaptured.evalUnbind (free : Uncaptured env) (name : Symbol) : Uncaptured (evalUnbind env name) := by
  intro object there other isCoordinate
  obtain ⟨present, unbound⟩ := free object there other isCoordinate
  exact ⟨present, fun isBound => unbound ((List.eraseP_sublist.map _).subset isBound)⟩

theorem Uncaptured.evalBind (tracks : Tracks env ledger freed) (supported : Supported env) (free : Uncaptured env)
    (name : Symbol) (value : Value) : Uncaptured (evalBind env name value).2 := by
  obtain ⟨_, same⟩ | ⟨present, notCoordinate, bindings, result, bound⟩ := evalBind_cases env name value
  · rw [same]
    exact free
  · rw [result]
    have names (other : Symbol) (isBound : other ∈ bindings.map Binding.name) :
        other ∈ env.bindings.map Binding.name ∨ other = name := by
      obtain replaced | ⟨_, _, rfl⟩ := bound
      · rw [(rebind_names replaced).1] at isBound
        exact Or.inl isBound
      · rw [List.map_append, List.mem_append] at isBound
        exact isBound.imp_right List.mem_singleton.mp
    intro object there other isCoordinate
    obtain ⟨otherPresent, unbound⟩ := free object there other isCoordinate
    refine ⟨otherPresent, fun isBound => ?_⟩
    obtain old | rfl := names other isBound
    · exact unbound old
    · obtain ⟨slot, isSlot⟩ := List.mem_iff_getElem?.mp there
      have frame := supported.found (fun _ _ => tracks.down) isSlot isCoordinate
      rw [evalIsChartCoordinate_iff.mpr ⟨present, frame⟩] at notCoordinate
      cases notCoordinate

end

/-- One command captures no coordinate. -/
theorem Session.step_uncaptured {session : Session} {step : Command × Evaluation} (settled : session.Settled)
    (fits : step.2.Fits session.env) (constructs : AllConstructed session.env step.2.registrations)
    (supported : Supported session.env) (free : Uncaptured session.env) :
    Supported (session.step step).env ∧ Uncaptured (session.step step).env := by
  obtain ⟨command, evaluation⟩ := step
  unfold Session.step evalCommand
  by_cases isClear : command.operation = .clear
  · simp only [if_pos isClear]
    by_cases isAll : command.target = 0
    · simp only [if_pos isAll]
      exact ⟨(fun _ _ there => by cases there), fun _ there => by cases there⟩
    · simp only [if_neg isAll]
      have tracks : Tracks (evalUnbind session.env command.target) session.ledger session.destroyed :=
        settled.tracks.congr rfl
      exact ⟨Supported.evalSweep tracks supported _, (free.evalUnbind _).evalSweep _⟩
  · simp only [if_neg isClear]
    have tracks := settled.tracks.registerAll fits.registrations
    obtain ⟨supported, free⟩ := constructs.evalNode settled.tracks fits.registrations supported free
    by_cases failed : evaluation.status ≠ .ok
    · simp only [if_pos failed]
      exact ⟨supported.evalSweep tracks _, free.evalSweep _⟩
    · simp only [if_neg failed]
      by_cases isAssign : command.operation = .assign
      · simp only [if_pos isAssign]
        have same := evalBind_objects (evalNode session.env evaluation.registrations).1 command.target evaluation.value
        have bound : Supported (evalBind (evalNode session.env evaluation.registrations).1 command.target
            evaluation.value).2 := by
          unfold Supported
          rw [same]
          exact supported
        exact ⟨bound.evalSweep (tracks.congr same.symm) _, (free.evalBind tracks supported _ _).evalSweep _⟩
      · simp only [if_neg isAssign]
        exact ⟨supported.evalSweep tracks _, free.evalSweep _⟩

theorem Session.run_uncaptured {session : Session} {steps : List (Command × Evaluation)} (settled : session.Settled)
    (fits : session.Fits steps) (constructs : session.Constructs steps) (supported : Supported session.env)
    (free : Uncaptured session.env) : Uncaptured (session.run steps).env := by
  induction steps generalizing session with
  | nil => exact free
  | cons first rest ih =>
    obtain ⟨supported, free⟩ := session.step_uncaptured settled fits.1 constructs.1 supported free
    exact ih (settled.step fits.1) fits.2 constructs.2 supported free

/-- After every sequence of commands no coordinate of an object in the table is bound, so a
coordinate symbol evaluates to itself. -/
theorem no_coordinate_capture (steps : List (Command × Evaluation)) (fits : Session.start.Fits steps)
    (constructs : Session.start.Constructs steps) :
    ∀ object ∈ (Session.start.run steps).env.objects, ∀ name ∈ object.coordinates,
      name ∉ (Session.start.run steps).env.bindings.map Binding.name ∧
        ∀ expr, evalSymbol (Session.start.run steps).env name expr = .scalar expr := by
  have free := Session.run_uncaptured Session.Settled.start fits constructs
    (fun _ _ there => by cases there) (fun _ there => by cases there)
  intro object there name isCoordinate
  obtain ⟨_, unbound⟩ := free object there name isCoordinate
  refine ⟨unbound, fun expr => ?_⟩
  unfold evalSymbol
  rw [evalLookup_none.mpr (Or.inr unbound)]
  rfl

theorem Constructed.on {env : Env} {new : Registration} {value : Value} {slot : Nat} {object : Object}
    (isDependency : value ∈ new.dependencies) (isSlot : slotOf env value = some slot)
    (there : env.objects[slot]? = some object) (same : new.coordinates = object.coordinates) :
    Constructed env new :=
  .built new fun _ isCoordinate => ⟨value, isDependency, slot, object, isSlot, there, same ▸ isCoordinate⟩

theorem exampleSteps_construct : Session.start.Constructs exampleSteps := by
  have chart : readCoordinates Env.empty [.symbol 7] = .ok [7] := rfl
  refine ⟨⟨.chart 100 chart, .on List.mem_cons_self rfl rfl rfl, trivial⟩,
    ⟨.on List.mem_cons_self rfl rfl rfl, .on List.mem_cons_self rfl rfl rfl, trivial⟩,
    ⟨.on List.mem_cons_self rfl rfl rfl, trivial⟩, trivial, trivial⟩

theorem example_coordinate_is_free :
    7 ∉ (Session.start.run exampleSteps).env.bindings.map Binding.name ∧
      ∀ expr, evalSymbol (Session.start.run exampleSteps).env 7 expr = .scalar expr :=
  no_coordinate_capture exampleSteps exampleSteps_fit exampleSteps_construct
    ⟨.object .chart 100, 100, 0, [7]⟩ (by decide) 7 (by decide)

end PhyNspire.Eval

import PhyNspire.Eval.Commands

/-!
What the object table is for. Every registration gets the next serial number, and the ledger
remembers for each what it owns and what it uses; the objects of the table are the live serials.
A sequence of commands should leave exactly what can be reached.
-/

namespace PhyNspire.Eval

open PhyNspire.Lib.Marking Relation

/-- One registration, successful or not. -/
structure Creation where
  pointer : Pointer
  owns : Bool
  dependsOn : List Nat
deriving DecidableEq, Repr

/-- All registrations so far, the serials in the table slot by slot, and those destroyed, oldest first. -/
structure Ledger where
  creations : List Creation
  live : List Nat
  destroyed : List Nat
deriving DecidableEq, Repr

def Ledger.empty : Ledger := ⟨[], [], []⟩

def Ledger.owns (ledger : Ledger) (serial : Nat) : Bool := ledger.creations[serial]?.any Creation.owns

def Ledger.pointerOf (ledger : Ledger) (serial : Nat) : Pointer :=
  (ledger.creations[serial]?.map Creation.pointer).getD 0

def Ledger.Uses (ledger : Ledger) (user used : Nat) : Prop :=
  ∃ creation : Creation, ledger.creations[user]? = some creation ∧ used ∈ creation.dependsOn

def Ledger.serialOf (ledger : Ledger) (env : Env) (value : Value) : Option Nat :=
  (slotOf env value).bind fun slot => ledger.live[slot]?

def Registration.owns (new : Registration) : Bool := !(destroyOwned new.value new.owned).isEmpty

/-- A registration in the environment `env`. -/
def Ledger.register (ledger : Ledger) (env : Env) (new : Registration) : Ledger :=
  let serial := ledger.creations.length
  if (evalRegisterMany env new).1 = .ok then
    { creations := ledger.creations ++
        [⟨new.value.pointer, new.owns, new.dependencies.filterMap (ledger.serialOf env)⟩]
      live := ledger.live ++ [serial]
      destroyed := ledger.destroyed }
  else
    { creations := ledger.creations ++ [⟨new.value.pointer, new.owns, []⟩]
      live := ledger.live
      destroyed := ledger.destroyed ++ if new.owns then [serial] else [] }

def Ledger.registerAll (ledger : Ledger) (env : Env) : List Registration → Ledger
  | [] => ledger
  | new :: rest => (ledger.register env new).registerAll (evalRegisterMany env new).2.1 rest

/-- Only marked slots stay; the others are destroyed from the last down. -/
def Ledger.keep (ledger : Ledger) (marked : Nat → Bool) : Ledger where
  creations := ledger.creations
  live := kept marked ledger.live
  destroyed := ledger.destroyed ++ (kept (fun slot => !marked slot) ledger.live).reverse.filter ledger.owns

/-- The ledger of a command; it follows the branches of `evalCommand`. -/
def Ledger.command (ledger : Ledger) (env : Env) (command : Command) (evaluation : Evaluation) : Ledger :=
  if command.operation = .clear then
    if command.target = 0 then ledger.keep fun _ => false
    else ledger.keep (marks (evalUnbind env command.target) .none)
  else
    let evaluated := (evalNode env evaluation.registrations).1
    let registered := ledger.registerAll env evaluation.registrations
    if evaluation.status ≠ .ok then registered.keep (marks evaluated .none)
    else if command.operation = .assign then
      let bound := evalBind evaluated command.target evaluation.value
      registered.keep (marks bound.2 (if bound.1 = .ok then evaluation.value else .none))
    else
      let operated := scalarOperation command evaluation
      registered.keep (marks evaluated (if operated.1 = .ok then operated.2 else .none))

/-- An environment after some commands: the result of the last one, the owning pointers
destroyed so far, and the ledger kept for the reader. -/
structure Session where
  env : Env
  result : Value
  destroyed : List Pointer
  ledger : Ledger
deriving DecidableEq, Repr

def Session.start : Session := ⟨Env.empty, .none, [], Ledger.empty⟩

def Session.step (session : Session) (step : Command × Evaluation) : Session :=
  let answer := evalCommand session.env step.1 step.2
  ⟨answer.env, answer.result, session.destroyed ++ answer.destroyed,
    session.ledger.command session.env step.1 step.2⟩

def Session.run (session : Session) (steps : List (Command × Evaluation)) : Session :=
  steps.foldl Session.step session

def Session.Fits (session : Session) : List (Command × Evaluation) → Prop
  | [] => True
  | step :: rest => step.2.Fits session.env ∧ (session.step step).Fits rest

def Session.Root (session : Session) (serial : Nat) : Prop :=
  ∃ (slot : Nat) (object : Object), session.ledger.live[slot]? = some serial ∧ session.env.objects[slot]? = some object ∧
    (object.value.pointer = session.result.pointer ∨
      ∃ binding ∈ session.env.bindings, object.value.pointer = binding.value.pointer)

/-- What can be reached through the recorded dependencies. -/
def Session.Reachable (session : Session) (serial : Nat) : Prop :=
  ∃ root, session.Root root ∧ ReflTransGen session.ledger.Uses root serial

/-- The table holds exactly what can be reached.
* Slots and live serials correspond; a live serial was registered with the pointer in its slot.
* The live serials are the reachable ones, each once and in creation order.
* A dependency bit names the slot of an object that the object uses, and a lower one.
* The owned objects that are not live were destroyed, once, after everything that uses them. -/
structure Session.Exact (session : Session) : Prop where
  aligned : session.ledger.live.length = session.env.objects.length
  registered : ∀ (slot serial : Nat) (object : Object), session.ledger.live[slot]? = some serial →
    session.env.objects[slot]? = some object →
    ∃ creation : Creation, session.ledger.creations[serial]? = some creation ∧ creation.pointer = object.value.pointer
  ordered : session.ledger.live.Pairwise (· < ·)
  reachable : ∀ serial, serial ∈ session.ledger.live ↔ session.Reachable serial
  renamed : ∀ (slot serial : Nat) (object : Object) (bit : Nat), session.ledger.live[slot]? = some serial →
    session.env.objects[slot]? = some object →
    (object.dependency.getLsbD bit = true ↔
      ∃ used, session.ledger.live[bit]? = some used ∧ session.ledger.Uses serial used)
  downward : ∀ (slot : Nat) (object : Object) (bit : Nat), session.env.objects[slot]? = some object →
    object.dependency.getLsbD bit = true → bit < slot
  destroyedOnce : session.ledger.destroyed.Nodup
  accounted : ∀ serial, serial ∈ session.ledger.destroyed ↔
    (session.ledger.owns serial = true ∧ serial ∉ session.ledger.live)
  afterUsers : ∀ serial user, serial ∈ session.ledger.destroyed → TransGen session.ledger.Uses user serial →
    user ∉ session.ledger.live ∧
      (session.ledger.owns user = true → [user, serial].Sublist session.ledger.destroyed)
  destroyed : session.destroyed = session.ledger.destroyed.map session.ledger.pointerOf
  handedOut : session.result.Known session.env
  valid : envValidate session.env = .ok

/-!
Slots and dependency bits: when a value has a slot, which bits a registration sets, and where a
sweep moves them.
-/

variable {env : Env} {value : Value} {slot : Nat}

theorem slotOf_eq_some :
    slotOf env value = some slot ↔ value.pointer ≠ 0 ∧
      ∃ inside : slot < env.objects.length, env.objects[slot].value.pointer = value.pointer ∧
        ∀ lower, ∀ below : lower < slot, env.objects[lower].value.pointer ≠ value.pointer := by
  unfold slotOf
  split_ifs with isNull
  · exact ⟨(fun h => by cases h), fun h => absurd isNull h.1⟩
  · rw [List.findIdx?_eq_some_iff_getElem]
    simp only [decide_eq_true_eq]
    exact ⟨fun h => ⟨isNull, h⟩, fun h => h.2⟩

theorem slotOf_congr {other : Env} (same : env.objects = other.objects) :
    slotOf env value = slotOf other value := by
  unfold slotOf
  rw [same]

theorem slotOf_pointer {value' : Value} (same : value.pointer = value'.pointer) :
    slotOf env value = slotOf env value' := by
  unfold slotOf
  rw [same]

theorem slotOf_lt (found : slotOf env value = some slot) :
    slot < env.objects.length := (slotOf_eq_some.mp found).2.1

theorem slotOf_object {object : Object}
    (found : slotOf env value = some slot) (there : env.objects[slot]? = some object) :
    object.value.pointer = value.pointer ∧ slotOf env object.value = some slot := by
  obtain ⟨_, inside, same, _⟩ := slotOf_eq_some.mp found
  obtain ⟨_, rfl⟩ := List.getElem?_eq_some_iff.mp there
  exact ⟨same, by rw [slotOf_pointer same, found]⟩

theorem slotOf_append (more : List Object) (found : slotOf env value = some slot) :
    slotOf { env with objects := env.objects ++ more } value = some slot := by
  obtain ⟨present, inside, same, earlier⟩ := slotOf_eq_some.mp found
  refine slotOf_eq_some.mpr ⟨present, ?_, ?_, ?_⟩
  · rw [List.length_append]
    omega
  · rw [List.getElem_append_left inside]
    exact same
  · intro lower below
    rw [List.getElem_append_left (below.trans inside)]
    exact earlier lower below

variable {bit : Nat}

theorem twoPow_bit (inside : slot < 128) : (BitVec.twoPow 128 slot).getLsbD bit = true ↔ bit = slot := by
  rw [BitVec.getLsbD_twoPow, Bool.and_eq_true, decide_eq_true_eq, decide_eq_true_eq]
  omega

theorem dependencyBits_bit {dependencies : List Value} {bits : BitVec 128}
    (room : env.objects.length ≤ maxObjects) (found : dependencyBits env dependencies = some bits) :
    bits.getLsbD bit = true ↔ ∃ value ∈ dependencies, slotOf env value = some bit := by
  induction dependencies generalizing bits with
  | nil =>
    cases found
    simp
  | cons value rest ih =>
    rw [List.exists_mem_cons_iff]
    cases value with
    | none =>
      rw [ih found]
      exact (or_iff_right (fun h => nomatch h)).symm
    | scalar ref =>
      rw [ih found]
      exact (or_iff_right (fun h => nomatch h)).symm
    | object kind pointer =>
      rw [dependencyBits] at found
      split at found
      case h_2 => cases found
      case h_1 slot others slotFound othersFound =>
        cases found
        have inside : slot < 128 := (slotOf_lt slotFound).trans_le (room.trans (by decide))
        rw [BitVec.getLsbD_or, Bool.or_eq_true, twoPow_bit inside, ih othersFound, slotFound]
        refine or_congr_left ?_
        rw [Option.some_inj]
        exact eq_comm

theorem mappedBits_bit {marked : Nat → Bool} {bits : BitVec 128} {count : Nat} (room : count ≤ maxObjects) :
    (mappedBits marked bits count).getLsbD bit = true ↔
      ∃ old < count, bits.getLsbD old = true ∧ marked old = true ∧ rank marked old = bit := by
  induction count with
  | zero =>
    rw [mappedBits]
    simp
  | succ old ih =>
    have split (P : Nat → Prop) : (∃ slot < old + 1, P slot) ↔ (∃ slot < old, P slot) ∨ P old :=
      Nat.exists_lt_succ_right
    rw [split, ← ih (by omega), mappedBits]
    split_ifs with active
    · rw [Bool.and_eq_true] at active
      have inside : rank marked old < 128 := (rank_le marked old).trans_lt (by unfold maxObjects at room; omega)
      rw [BitVec.getLsbD_or, Bool.or_eq_true, twoPow_bit inside]
      refine or_congr_right ⟨fun h => ⟨active.1, active.2, h.symm⟩, fun h => h.2.2.symm⟩
    · refine (or_iff_left ?_).symm
      rintro ⟨set, isMarked, _⟩
      rw [set, isMarked] at active
      exact active rfl

theorem refers_iff {lower : Nat} :
    refers env slot lower = true ↔
      ∃ object, env.objects[slot]? = some object ∧ object.dependency.getLsbD lower = true := by
  unfold refers
  cases env.objects[slot]? with
  | none => simp
  | some object => simp

theorem roots_iff {keep : Value} :
    roots env keep slot = true ↔
      (∃ binding ∈ env.bindings, slotOf env binding.value = some slot) ∨ slotOf env keep = some slot := by
  unfold roots
  rw [Bool.or_eq_true, List.any_eq_true, decide_eq_true_eq]
  simp only [decide_eq_true_eq]

theorem roots_lt {keep : Value} (isRoot : roots env keep slot = true) :
    slot < env.objects.length := by
  obtain ⟨_, _, found⟩ | found := roots_iff.mp isRoot
  · exact slotOf_lt found
  · exact slotOf_lt found

end PhyNspire.Eval

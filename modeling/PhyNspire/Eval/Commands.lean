import PhyNspire.Eval.Objects

/-!
One command of the notebook. What its right-hand side does to the environment is a list of
registrations, of any objects and any dependencies, followed by a status and a value; what a
scalar operation makes of a scalar value is another status and another scalar.
-/

namespace PhyNspire.Eval

open PhyNspire.Platform

/-- `phy_source_operation`. -/
inductive Operation where
  | simplify
  | fullSimplify
  | expand
  | together
  | cancel
  | factor
  | apart
  | numerator
  | denominator
  | differentiate
  | integrate
  | series
  | normal
  | limit
  | solve
  | resultant
  | discriminant
  | groebnerBasis
  | numeric
  | numericSolve
  | assign
  | clear
deriving DecidableEq, Repr

structure Command where
  operation : Operation
  target : Symbol
deriving DecidableEq, Repr

/-- What `eval_node` does on the command's expression, and what `apply_scalar_operation` and
`verify_scalar_operation` answer for its value. -/
structure Evaluation where
  registrations : List Registration
  status : Status
  value : Value
  scalarStatus : Status
  scalarResult : Nat
deriving DecidableEq, Repr

/-- The effect of `eval_node` on the environment. -/
def evalNode (env : Env) : List Registration → Env × List Pointer
  | [] => (env, [])
  | new :: rest =>
    let registered := evalRegisterMany env new
    let finished := evalNode registered.2.1 rest
    (finished.1, registered.2.2 ++ finished.2)

/-- A typed object passes through the simplifications; every other operation is scalar algebra. -/
def scalarOperation (command : Command) (evaluation : Evaluation) : Status × Value :=
  if command.operation = .simplify ∧ evaluation.value.isScalar = false then (.ok, evaluation.value)
  else if command.operation = .fullSimplify ∧ evaluation.value.isScalar = false then (.ok, evaluation.value)
  else if evaluation.value.isScalar = false then (.type, evaluation.value)
  else if evaluation.scalarStatus = .ok then (.ok, .scalar evaluation.scalarResult)
  else (evaluation.scalarStatus, evaluation.value)

structure Answer where
  status : Status
  /-- The value handed to the caller, `Value.none` when the command failed. -/
  result : Value
  env : Env
  destroyed : List Pointer
deriving DecidableEq, Repr

/-- The end of a command: the sweep keeps the value of a command that succeeded. -/
def finish (env : Env) (destroyed : List Pointer) (status : Status) (value : Value) : Answer :=
  let result := if status = .ok then value else .none
  let swept := evalSweep env result
  ⟨status, result, swept.1, destroyed ++ swept.2⟩

def evalCommand (env : Env) (command : Command) (evaluation : Evaluation) : Answer :=
  if command.operation = .clear then
    if command.target = 0 then
      let reset := envReset env
      ⟨.ok, .none, reset.1, reset.2⟩
    else
      let swept := evalSweep (evalUnbind env command.target) .none
      ⟨.ok, .none, swept.1, swept.2⟩
  else
    let evaluated := evalNode env evaluation.registrations
    if evaluation.status ≠ .ok then finish evaluated.1 evaluated.2 evaluation.status .none
    else if command.operation = .assign then
      let bound := evalBind evaluated.1 command.target evaluation.value
      finish bound.2 evaluated.2 bound.1 evaluation.value
    else
      let operated := scalarOperation command evaluation
      finish evaluated.1 evaluated.2 operated.1 operated.2

/-- The value can be handed out: a value that names an object names one in the table. -/
def Value.Known (env : Env) (value : Value) : Prop := value.isObject = true → (slotOf env value).isSome = true

instance (env : Env) (value : Value) : Decidable (value.Known env) := inferInstanceAs (Decidable (_ → _))

/-- The allocator and the callers of `eval_register_many` promise that an owned object is the
value itself and lies at an address that no object of the table has. -/
def Registration.Fits (env : Env) (new : Registration) : Prop :=
  new.owned = 0 ∨
    (new.owned = new.value.pointer ∧ ∀ object ∈ env.objects, object.value.pointer ≠ new.value.pointer)

instance (env : Env) (new : Registration) : Decidable (new.Fits env) := inferInstanceAs (Decidable (_ ∨ _))

def AllFit (env : Env) : List Registration → Prop
  | [] => True
  | new :: rest => new.Fits env ∧ AllFit (evalRegisterMany env new).2.1 rest

instance decidableAllFit (env : Env) : (news : List Registration) → Decidable (AllFit env news)
  | [] => inferInstanceAs (Decidable True)
  | new :: rest =>
    have := decidableAllFit (evalRegisterMany env new).2.1 rest
    inferInstanceAs (Decidable (_ ∧ _))

/-- What an evaluation owes the environment it starts in. -/
structure Evaluation.Fits (env : Env) (evaluation : Evaluation) : Prop where
  registrations : AllFit env evaluation.registrations
  value : evaluation.status = .ok → evaluation.value.Known (evalNode env evaluation.registrations).1

end PhyNspire.Eval

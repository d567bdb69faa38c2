import PhyNspire.Lib.Marking
import PhyNspire.Platform

/-!
The object table and the bindings of the evaluator's environment. Objects are appended in
creation order and name what they depend on by a bit for each earlier slot; a sweep destroys
what neither a binding nor the kept value reaches and closes the gaps.

A pointer is an address, 0 is `NULL`, and an address may be used again after it was destroyed.
Functions that destroy objects also return the owning pointers destroyed, in that order.
-/

namespace PhyNspire.Eval

open PhyNspire.Platform PhyNspire.Lib.Marking

/-- The kinds of `phy_value_kind` that name an object. -/
inductive Kind where
  | chart
  | manifold
  | tensor
  | form
  | lieGroup
  | lieAlgebra
  | lieElement
  | lieForm
  | curvature
  | indexSpace
  | tensorHead
  | abstractTensor
  | abstractExpression
  | componentBasis
  | componentTensor
  | vector
  | matrix
  | coordinateMap
  | basisTransition
  | atlas
  | grComponents
  | qftComponents
deriving DecidableEq, Repr

abbrev Pointer := Nat

/-- An interned name; 0 is `PHY_IR_NO_SYMBOL`. -/
abbrev Symbol := Nat

inductive Value where
  | none
  | scalar (ref : Nat)
  | object (kind : Kind) (pointer : Pointer)
deriving DecidableEq, Repr

def maxObjects : Nat := 96

def maxBindings : Nat := 32

def Value.pointer : Value → Pointer
  | .none => 0
  | .scalar _ => 0
  | .object _ pointer => pointer

def Value.isObject : Value → Bool
  | .object _ _ => true
  | _ => false

def Value.isScalar : Value → Bool
  | .scalar _ => true
  | _ => false

def Value.isFrame : Value → Bool
  | .object .chart _ => true
  | .object .componentBasis _ => true
  | _ => false

/-- The kinds that `destroy_owned` destroys: algebras, index spaces and tensor heads are never owned. -/
def Kind.owns : Kind → Bool
  | .lieAlgebra => false
  | .indexSpace => false
  | .tensorHead => false
  | _ => true

/-- `destroy_owned`: the pointer destroyed, if any. -/
def destroyOwned (value : Value) (owned : Pointer) : List Pointer :=
  match value with
  | .object kind _ => if owned ≠ 0 ∧ kind.owns = true then [owned] else []
  | _ => []

/-- `coordinates` are the coordinate symbols of the chart or basis that the pointer names; for
the other kinds, those of the charts and bases the object was built on. -/
structure Object where
  value : Value
  owned : Pointer
  dependency : BitVec 128
  coordinates : List Symbol
deriving DecidableEq, Repr

structure Binding where
  name : Symbol
  value : Value
deriving DecidableEq, Repr

structure Env where
  objects : List Object
  bindings : List Binding
deriving DecidableEq, Repr

def Env.empty : Env := ⟨[], []⟩

def slotOf (env : Env) (value : Value) : Option Nat :=
  if value.pointer = 0 then Option.none
  else env.objects.findIdx? fun object => object.value.pointer = value.pointer

def envReset (env : Env) : Env × List Pointer :=
  (⟨[], []⟩, env.objects.reverse.flatMap fun object => destroyOwned object.value object.owned)

structure Registration where
  value : Value
  owned : Pointer
  coordinates : List Symbol
  dependencies : List Value
deriving DecidableEq, Repr

/-- The dependency bitmap of a new object; none when a dependency is not in the table. -/
def dependencyBits (env : Env) : List Value → Option (BitVec 128)
  | [] => some 0
  | .none :: rest => dependencyBits env rest
  | .scalar _ :: rest => dependencyBits env rest
  | .object kind pointer :: rest =>
    match slotOf env (.object kind pointer), dependencyBits env rest with
    | some slot, some bits => some (BitVec.twoPow 128 slot ||| bits)
    | _, _ => Option.none

/-- `eval_register_many`: takes the object into the table or destroys it. -/
def evalRegisterMany (env : Env) (new : Registration) : Status × Env × List Pointer :=
  if new.value.pointer = 0 then (.invalidArgument, env, destroyOwned new.value new.owned)
  else if maxObjects ≤ env.objects.length then (.termLimit, env, destroyOwned new.value new.owned)
  else
    match dependencyBits env new.dependencies with
    | Option.none => (.corruptDocument, env, destroyOwned new.value new.owned)
    | some bits =>
      (.ok, { env with objects := env.objects ++ [⟨new.value, new.owned, bits, new.coordinates⟩] }, [])

def refers (env : Env) (slot lower : Nat) : Bool :=
  env.objects[slot]?.any fun object => object.dependency.getLsbD lower

def roots (env : Env) (keep : Value) (slot : Nat) : Bool :=
  env.bindings.any (fun binding => slotOf env binding.value = some slot) || decide (slotOf env keep = some slot)

def marks (env : Env) (keep : Value) : Nat → Bool :=
  propagate (refers env) env.objects.length (roots env keep)

/-- The bits below `count` of the marked slots, moved to the slots' new numbers. -/
def mappedBits (marked : Nat → Bool) (bits : BitVec 128) : Nat → BitVec 128
  | 0 => 0
  | old + 1 =>
    if bits.getLsbD old && marked old then mappedBits marked bits old ||| BitVec.twoPow 128 (rank marked old)
    else mappedBits marked bits old

/-- The end of `eval_sweep`: destroy from the last slot down, then close the gaps. -/
def compact (env : Env) (marked : Nat → Bool) : Env × List Pointer :=
  ({ env with
      objects := (kept marked env.objects).map fun object =>
        { object with dependency := mappedBits marked object.dependency env.objects.length } },
    (kept (fun slot => !marked slot) env.objects).reverse.flatMap fun object => destroyOwned object.value object.owned)

/-- `eval_sweep`. A `NULL` to keep is `Value.none`. -/
def evalSweep (env : Env) (keep : Value) : Env × List Pointer := compact env (marks env keep)

/-- `eval_is_chart_coordinate`: charts and bases are asked for their coordinates. -/
def evalIsChartCoordinate (env : Env) (name : Symbol) : Bool :=
  decide (name ≠ 0) && env.objects.any fun object => object.value.isFrame && object.coordinates.contains name

def evalLookup (env : Env) (name : Symbol) : Option Value :=
  if name = 0 then Option.none
  else (env.bindings.find? fun binding => binding.name = name).map Binding.value

def rebind (name : Symbol) (value : Value) : List Binding → Option (List Binding)
  | [] => Option.none
  | binding :: rest =>
    if binding.name = name then some (⟨binding.name, value⟩ :: rest)
    else (rebind name value rest).map (binding :: ·)

def evalBind (env : Env) (name : Symbol) (value : Value) : Status × Env :=
  if name = 0 then (.invalidArgument, env)
  else if evalIsChartCoordinate env name then (.assumption, env)
  else
    match rebind name value env.bindings with
    | some bindings => (.ok, { env with bindings := bindings })
    | Option.none =>
      if maxBindings ≤ env.bindings.length then (.termLimit, env)
      else (.ok, { env with bindings := env.bindings ++ [⟨name, value⟩] })

/-- `eval_unbind`: removes the first binding of the name. -/
def evalUnbind (env : Env) (name : Symbol) : Env :=
  { env with bindings := env.bindings.eraseP fun binding => binding.name = name }

/-- What `phy_env_validate` asks of the object in a slot. -/
def ObjectValid (env : Env) (slot : Nat) (object : Object) : Prop :=
  object.value.pointer ≠ 0 ∧
  (object.owned = 0 ∨ object.owned = object.value.pointer) ∧
  (∀ earlier ∈ env.objects.take slot, earlier.value.pointer ≠ object.value.pointer) ∧
  ∀ bit < maxObjects, slot ≤ bit → object.dependency.getLsbD bit = false

instance (env : Env) (slot : Nat) (object : Object) : Decidable (ObjectValid env slot object) :=
  inferInstanceAs (Decidable (_ ∧ _ ∧ _ ∧ _))

/-- What `phy_env_validate` asks of a binding; scalars are not compared with earlier names. -/
def BindingValid (env : Env) (index : Nat) (binding : Binding) : Prop :=
  binding.value.isObject = true →
    (slotOf env binding.value).isSome = true ∧ ∀ earlier ∈ env.bindings.take index, earlier.name ≠ binding.name

instance (env : Env) (index : Nat) (binding : Binding) : Decidable (BindingValid env index binding) :=
  inferInstanceAs (Decidable (_ → _))

/-- `phy_env_validate`; every violation has the same status. -/
def envValidate (env : Env) : Status :=
  if maxObjects < env.objects.length ∨ maxBindings < env.bindings.length then .corruptDocument
  else if ¬∀ slot, ∀ inside : slot < env.objects.length, ObjectValid env slot env.objects[slot] then
    .corruptDocument
  else if ¬∀ index, ∀ inside : index < env.bindings.length, BindingValid env index env.bindings[index] then
    .corruptDocument
  else .ok

end PhyNspire.Eval

import PhyNspire.Cas.CoreRuns

/-!
The arithmetic that the layers above ask of the scalar layer: whatever was asked before, an answer is worth what the
operation says.
-/

namespace PhyNspire.Cas.Core
open Lib Lib.Stateful Ir.Expressions
open Values Reading

variable (rules : Name → List Expr → Rule) (depth : Nat)

def casAdd (terms : List Expr) : CasM Expr := do
  casBegin
  (calls rules depth).addNode terms

def casMul (factors : List Expr) : CasM Expr := do
  casBegin
  (calls rules depth).mulNode factors

def casNeg (value : Expr) : CasM Expr := do
  casBegin
  negNode (calls rules depth) value

def casSub (left right : Expr) : CasM Expr := do
  casBegin
  let negated ← negNode (calls rules depth) right
  (calls rules depth).addNode [left, negated]

/-- `phy_cas_div`: only a denominator that simplifies to the number zero is refused. -/
def casDiv (numerator denominator : Expr) : CasM Expr := do
  casBegin
  let reduced ← (calls rules depth).simplifyNode denominator
  if isInteger reduced 0 then refuse .domain
  else do
    let inverse ← (calls rules depth).powNode reduced minusOne
    (calls rules depth).mulNode [numerator, inverse]

def casPow (base exponent : Expr) : CasM Expr := do
  casBegin
  let base ← (calls rules depth).simplifyNode base
  let exponent ← (calls rules depth).simplifyNode exponent
  (calls rules depth).powNode base exponent

inductive Arithmetic where
  | simplify (expr : Expr)
  | add (terms : List Expr)
  | mul (factors : List Expr)
  | neg (value : Expr)
  | sub (left right : Expr)
  | div (numerator denominator : Expr)
  | pow (base exponent : Expr)

def Arithmetic.run : Arithmetic → CasM Expr
  | simplify expr => casSimplify rules depth expr
  | add terms => casAdd rules depth terms
  | mul factors => casMul rules depth factors
  | neg value => casNeg rules depth value
  | sub left right => casSub rules depth left right
  | div numerator denominator => casDiv rules depth numerator denominator
  | pow base exponent => casPow rules depth base exponent

/-- What an answer is to be worth, where the operands have values and nothing is divided by zero. -/
def Arithmetic.worth {K : Type} [Field K] [DecidableEq K] (reading : Reading K) : Arithmetic → Option K
  | simplify expr => reading.eval expr
  | add terms => (reading.evalAll terms).map List.sum
  | mul factors => (reading.evalAll factors).map List.prod
  | neg value => (reading.eval value).map (- ·)
  | sub left right => (reading.eval left).bind fun u => (reading.eval right).map fun v => u - v
  | div numerator denominator => (reading.eval numerator).bind fun u =>
      (reading.eval denominator).bind fun v => if v = 0 then none else some (u / v)
  | pow base exponent => reading.eval (.node .pow [base, exponent])

variable {truth : Truth} {rules depth}

theorem meets_arithmetic (faithful : (calls rules depth).Faithful truth) (any : AnyReading) (operation : Arithmetic) :
    Meets truth (operation.run rules depth) fun r =>
      ∀ v, operation.worth any.reading = some v → any.reading.eval r = some v := by
  have sound := faithful.sound any
  have begun {operation : CasM Expr} {good : Expr → Prop} (meets : Meets truth operation good) :
      Meets truth (casBegin >>= fun _ => operation) good := meets_casBegin.seq fun _ => meets
  cases operation with
  | simplify expr => exact begun ((faithful.simplifies expr).mono fun r simplified => simplified.keeps any)
  | add terms => exact begun ((sound.add terms).mono fun r keeps v known => keeps v (by rwa [eval_add]))
  | mul factors => exact begun ((sound.mul factors).mono fun r keeps v known => keeps v (by rwa [eval_mul]))
  | neg value =>
    apply begun
    apply (meets_negNode sound value).mono
    intro negated opposite v known
    obtain ⟨u, worth, rfl⟩ := Option.map_eq_some_iff.mp known
    exact opposite u worth
  | sub left right =>
    apply begun
    apply (meets_negNode sound right).bind
    intro negated opposite
    apply (sound.add _).mono
    intro r keeps v known
    obtain ⟨u, first, known⟩ := Option.bind_eq_some_iff.mp known
    obtain ⟨w, second, rfl⟩ := Option.map_eq_some_iff.mp known
    apply keeps
    simp [evalAll_cons, first, opposite w second, sub_eq_add_neg]
  | div numerator denominator =>
    apply begun
    apply (faithful.simplifies denominator).bind
    intro reduced simplified
    apply meets_ite (fun _ => meets_throw _)
    intro _
    apply (sound.pow reduced minusOne).bind
    intro inverse inverts
    apply (sound.mul _).mono
    intro r keeps v known
    obtain ⟨u, first, known⟩ := Option.bind_eq_some_iff.mp known
    obtain ⟨w, second, known⟩ := Option.bind_eq_some_iff.mp known
    split_ifs at known with zero
    cases known
    have inverse : any.reading.eval inverse = some w⁻¹ := by
      apply inverts
      rw [minusOne, eval_pow, simplified.keeps any w second]
      simp [Branch.raise, raiseBy, zero]
    apply keeps
    simp [evalAll_cons, first, inverse, div_eq_mul_inv]
  | pow base exponent =>
    apply begun
    apply (faithful.simplifies base).bind
    intro base' simplified
    apply (faithful.simplifies exponent).bind
    intro exponent' simplified'
    apply (sound.pow base' exponent').mono
    intro r keeps v known
    exact keeps v (carries_replaced rfl rfl (.cons (simplified.replaces any) (.cons (simplified'.replaces any) .nil)) v known)

variable {s : CasState} {α β : Type}

theorem after_bind {program : CasM α} {next : α → CasM β} (first : Reached rules (after program s))
    (rest : ∀ value t, Reached rules t → Reached rules (after (next value) t)) : Reached rules (after (program >>= next) s) := by
  unfold after at first ⊢
  simp only [bind, EStateM.bind]
  cases ended : program s with
  | ok value t =>
    rw [ended] at first
    exact rest value t first
  | error stop t =>
    rw [ended] at first
    exact first

theorem after_discard (program : CasM α) : after (discard program) s = after program s := by
  unfold after
  simp only [discard, Functor.discard, Functor.mapConst, EStateM.map, Function.comp]
  cases program s <;> rfl

theorem reached_call (reached : Reached rules s) (call : Call) {program : CasM α} (same : call.run rules = discard program) :
    Reached rules (after program s) := by
  rw [← after_discard, ← same]
  exact .called reached call

theorem reached_arithmetic (reached : Reached rules s) (operation : Arithmetic) :
    Reached rules (after (operation.run rules depth) s) := by
  have begun {program : CasM Expr} (rest : ∀ t, Reached rules t → Reached rules (after program t)) :
      Reached rules (after (casBegin >>= fun _ => program) s) := after_bind (.called reached .begin) fun _ => rest
  have simplify (expr : Expr) (t : CasState) (reached : Reached rules t) :=
    reached_call reached (.simplify depth expr) rfl
  have negate (value : Expr) (t : CasState) (reached : Reached rules t) :
      Reached rules (after (negNode (calls rules depth) value) t) := reached_call reached (.mul depth [minusOne, value]) rfl
  cases operation with
  | simplify expr => exact begun (simplify expr)
  | add terms => exact begun fun t reached => reached_call reached (.add depth terms) rfl
  | mul factors => exact begun fun t reached => reached_call reached (.mul depth factors) rfl
  | neg value => exact begun (negate value)
  | sub left right =>
    exact begun fun t reached => after_bind (negate right t reached) fun negated u reached =>
      reached_call reached (.add depth [left, negated]) rfl
  | div numerator denominator =>
    refine begun fun t reached => after_bind (simplify denominator t reached) fun reduced u reached => ?_
    split_ifs
    · exact reached
    · exact after_bind (reached_call reached (.pow depth reduced minusOne) rfl) fun inverse v reached =>
        reached_call reached (.mul depth [numerator, inverse]) rfl
  | pow base exponent =>
    exact begun fun t reached => after_bind (simplify base t reached) fun base' u reached =>
      after_bind (simplify exponent u reached) fun exponent' v reached =>
        reached_call reached (.pow depth base' exponent') rfl

/-- Whatever was asked before, the answer of an operation is worth what the operation says, in every field where the
operands have values; the layer goes on from a state of the same kind. -/
theorem arithmetic_keeps_worth (reached : Reached rules s) (operation : Arithmetic) :
    Reached rules (after (operation.run rules depth) s) ∧
      ∀ result, valueOf (operation.run rules depth) s = some result → ∀ (any : AnyReading) v,
        operation.worth any.reading = some v → any.reading.eval result = some v := by
  refine ⟨reached_arithmetic reached operation, fun result returned any => ?_⟩
  obtain ⟨old, trusted⟩ := reached_tableTrue rules reached
  have meets := meets_arithmetic (truthAt_faithful s.substEpoch old rules depth) any operation
  exact (good_of_valueOf (meets s trusted) returned).choose_spec.1

theorem arithmetic_keeps_worth_difference :
    ∃ result, valueOf ((Arithmetic.sub (exactNode 1) (exactNode 2)).run noRules 8) casCreate = some result ∧
      (assignment fun _ => 0).eval result = some (1 - 2) := by
  have returns : (valueOf ((Arithmetic.sub (exactNode 1) (exactNode 2)).run noRules 8) casCreate).isSome = true := by
    decide +kernel
  obtain ⟨result, returned⟩ := Option.isSome_iff_exists.mp returns
  refine ⟨result, returned, (arithmetic_keeps_worth reached_casCreate _).2 result returned (assigned fun _ => 0) _ ?_⟩
  have value (q : ℚ) : (assigned fun _ => 0).reading.eval (exactNode q) = some q := eval_exact q
  rw [Arithmetic.worth, value, value]
  rfl

end PhyNspire.Cas.Core

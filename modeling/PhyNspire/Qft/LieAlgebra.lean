import PhyNspire.Lib.LieForms
import PhyNspire.Tensor.Determinants

/-!
Lie algebras given by their structure constants. An algebra is created only when the scalar
engine decides that its constants are antisymmetric and obey the Jacobi identity, so the
identities hold of the values that the constants denote.
-/

namespace PhyNspire.Qft
open Platform Cas Tensor Lib.Stateful Lib.LieForms

def lieMaxDim : Nat := 8

structure Placed (State Ref : Type) extends Engine State Ref where
  address : Nat

/-- `phy_lie_algebra`. The engine is borrowed: its address and its context are part of the algebra. -/
structure LieAlgebra (Ref : Type) where
  address : Nat
  cas : Nat
  ir : Nat
  name : Nat
  dimension : Nat
  basis : List Nat
  constants : List Ref
  positive : 1 ≤ dimension
  small : dimension ≤ lieMaxDim
  named : basis.length = dimension
  counted : constants.length = dimension * dimension * dimension
deriving DecidableEq

variable {State Ref K : Type}

def constantOffset (dimension a b c : Nat) : Nat := (a * dimension + b) * dimension + c

/-- `phy_lie_structure_constant`; outside the basis there is none. -/
def lieStructureConstant (algebra : LieAlgebra Ref) (a b c : Nat) : Option Ref :=
  if algebra.dimension ≤ a ∨ algebra.dimension ≤ b ∨ algebra.dimension ≤ c then none
  else algebra.constants[constantOffset algebra.dimension a b c]?

/-- A structure constant handed to the engine, which refuses a null handle. -/
def structureArgument (algebra : LieAlgebra Ref) (a b c : Nat) : EStateM Status State Ref :=
  match lieStructureConstant algebra a b c with
  | some constant => pure constant
  | none => throw .invalidArgument

def requireZero (cas : Cas State Ref) (expression : Ref) : EStateM Status State Unit := do
  let decision ← cas.isZero expression
  if decision = .zero then pure () else throw .assumption

def requireAntisymmetric (cas : Cas State Ref) (algebra : LieAlgebra Ref) (a b c : Nat) : EStateM Status State Unit := do
  let left ← structureArgument algebra a b c
  let right ← structureArgument algebra b a c
  let sum ← cas.add [left, right]
  requireZero cas sum

/-- The part of the Jacobi sum that passes through the basis element `d`. -/
def jacobiTerm (cas : Cas State Ref) (algebra : LieAlgebra Ref) (a b c e d : Nat) (sum : Ref) :
    EStateM Status State Ref := do
  let bc ← structureArgument algebra b c d
  let ad ← structureArgument algebra a d e
  let ca ← structureArgument algebra c a d
  let bd ← structureArgument algebra b d e
  let ab ← structureArgument algebra a b d
  let cd ← structureArgument algebra c d e
  let first ← cas.mul [bc, ad]
  let second ← cas.mul [ca, bd]
  let third ← cas.mul [ab, cd]
  cas.add [sum, first, second, third]

def requireJacobi (cas : Cas State Ref) (algebra : LieAlgebra Ref) (a b c e : Nat) : EStateM Status State Unit := do
  let zero ← cas.number 0 1
  let sum ← countUp (jacobiTerm cas algebra a b c e) algebra.dimension 0 zero
  requireZero cas sum

def lieAlgebraValidate (cas : Cas State Ref) (algebra : LieAlgebra Ref) : EStateM Status State Unit := do
  countUp (fun a _ => countUp (fun b _ => countUp (fun c _ => requireAntisymmetric cas algebra a b c)
    algebra.dimension 0 ()) algebra.dimension 0 ()) algebra.dimension 0 ()
  countUp (fun a _ => countUp (fun b _ => countUp (fun c _ => countUp (fun e _ => requireJacobi cas algebra a b c e)
    algebra.dimension 0 ()) algebra.dimension 0 ()) algebra.dimension 0 ()) algebra.dimension 0 ()

/-- The basis names are interned one after another, and no name may come twice. -/
def internBasis {Text : Type} (intern : Text → EStateM Status State Nat) : List Text → List Nat →
    EStateM Status State (List Nat)
  | [], symbols => pure symbols
  | name :: names, symbols => do
      let symbol ← intern name
      if symbol ∈ symbols then throw .assumption else internBasis intern names (symbols ++ [symbol])

/-- The algebra is checked once it is filled in; `intern` is `phy_ir_intern` in the engine's context. -/
def lieAlgebraCreate {Text : Type} (engine : Placed State Ref) (intern : Text → EStateM Status State Nat) (name : Text)
    (basisNames : List Text) (constants : List Ref) : EStateM Status (Memory State) (LieAlgebra Ref) :=
  if basisNames.length = 0 then throw .invalidArgument
  else if lieMaxDim < basisNames.length then throw .unsupported
  else do
    let memory ← get
    request
    let symbol ← Tensor.scalar (intern name)
    let basis ← Tensor.scalar (internBasis intern basisNames [])
    if checked : (0 < basisNames.length ∧ basisNames.length ≤ lieMaxDim) ∧ basis.length = basisNames.length ∧
        constants.length = basisNames.length * basisNames.length * basisNames.length then do
      let algebra : LieAlgebra Ref := ⟨memory.heap.taken, engine.address, engine.ir, symbol, basisNames.length, basis,
        constants, checked.1.1, checked.1.2, checked.2.1, checked.2.2⟩
      Tensor.scalar (lieAlgebraValidate engine.toCas algebra)
      pure algebra
    else throw .invalidArgument

def lieAdjointComponent (algebra : LieAlgebra Ref) (generator row column : Nat) : EStateM Status State Ref :=
  structureArgument algebra generator column row

def killingTerm (cas : Cas State Ref) (algebra : LieAlgebra Ref) (a b c d : Nat) (sum : Ref) :
    EStateM Status State Ref := do
  let left ← lieAdjointComponent algebra a c d
  let right ← lieAdjointComponent algebra b d c
  let term ← cas.mul [left, right]
  cas.add [sum, term]

def lieKillingComponent (cas : Cas State Ref) (algebra : LieAlgebra Ref) (a b : Nat) : EStateM Status State Ref :=
  if algebra.dimension ≤ a ∨ algebra.dimension ≤ b then throw .invalidArgument
  else do
    let zero ← cas.number 0 1
    countUp (fun c sum => countUp (fun d sum => killingTerm cas algebra a b c d sum) algebra.dimension 0 sum)
      algebra.dimension 0 zero

def Accepted (cas : Cas State Ref) (algebra : LieAlgebra Ref) : Prop :=
  ∃ s t, lieAlgebraValidate cas algebra s = .ok () t

theorem wp_gather {M ε σ β : Type} [AddCommMonoid M] {n : Nat} {body : Nat → β → EStateM ε σ β} {bad : ε → σ → Prop}
    (held : M → β → σ → Prop) (g : Fin n → M) {m : M} {acc : β} {s : σ} (start : held m acc s)
    (step : ∀ (i : Fin n) m acc s, held m acc s → wp (body i acc) (held (m + g i)) bad s) :
    wp (countUp body n 0 acc) (held (m + ∑ i, g i)) bad s := by
  have loop : wp (countUp body n 0 acc)
      (held (m + ∑ i ∈ Finset.range (0 + n), if inside : i < n then g ⟨i, inside⟩ else 0)) bad s := by
    refine wp_countUp (fun done => held (m + ∑ i ∈ Finset.range done, if inside : i < n then g ⟨i, inside⟩ else 0)) n 0 acc s
      (by rwa [Finset.sum_range_zero, add_zero]) ?_
    intro i acc t _ bound known
    have inside : i < n := by omega
    rw [Finset.sum_range_succ, dif_pos inside, ← add_assoc]
    exact step ⟨i, inside⟩ _ acc t known
  rw [Nat.zero_add, Finset.sum_range] at loop
  simpa only [Fin.is_lt, dif_pos] using loop

theorem wp_accumulate [CommRing K] {value : Ref → Option K} {body : Nat → Ref → EStateM Status State Ref} {n : Nat}
    {bad : Status → State → Prop} (g : Fin n → K) {start : Ref} {k : K} (denotes : value start = some k) (s : State)
    (step : ∀ (i : Fin n) sum k s, value sum = some k →
      wp (body i sum) (fun result _ => value result = some (k + g i)) bad s) :
    wp (countUp body n 0 start) (fun result _ => value result = some (k + ∑ i, g i)) bad s :=
  wp_gather (fun k sum _ => value sum = some k) g denotes (fun i k sum s known => step i sum k s known)

/-- The structure constants denote the table `f`. -/
def Constants (value : Ref → Option K) {n : Nat} (algebra : LieAlgebra Ref) (f : Fin n → Fin n → Fin n → K) : Prop :=
  algebra.dimension = n ∧ ∀ a b c : Fin n, ∃ constant, lieStructureConstant algebra a b c = some constant ∧
    value constant = some (f a b c)

section Deciding

variable [CommRing K] {cas : Cas State Ref} {value : Ref → Option K} {mayStop : Prop}
  (deciding : Deciding cas value mayStop) {n : Nat} {algebra : LieAlgebra Ref} {f : Fin n → Fin n → Fin n → K}
  (constants : Constants value algebra f)

include constants in
theorem wp_structureArgument (a b c : Fin n) {good : Ref → State → Prop} {bad : Status → State → Prop} {s : State}
    (held : ∀ constant, value constant = some (f a b c) → good constant s) :
    wp (structureArgument algebra a b c) good bad s := by
  obtain ⟨constant, found, denotes⟩ := constants.2 a b c
  unfold structureArgument
  rw [found]
  exact held constant denotes

include deciding in
theorem wp_requireZero {expression : Ref} {k : K} (denotes : value expression = some k) (s : State) :
    wp (requireZero cas expression) (fun _ _ => k = 0) (fun _ _ => mayStop ∨ k ≠ 0) s := by
  unfold requireZero
  rw [wp_bind]
  refine wp_mono (deciding.isZero expression k s denotes) (fun decision t known => ?_) (fun _ _ stopped => Or.inl stopped)
  refine wp_ite (fun zero => known.1 zero) (fun other => ?_)
  by_cases stops : mayStop
  · exact Or.inl stops
  · exact Or.inr (fun zero => other (known.2 zero stops))

include deciding constants

theorem wp_requireAntisymmetric (a b c : Fin n) (s : State) :
    wp (requireAntisymmetric cas algebra a b c) (fun _ _ => f a b c + f b a c = 0) (fun _ _ => mayStop ∨ ¬IsLie f) s := by
  unfold requireAntisymmetric
  rw [wp_bind]
  refine wp_structureArgument constants a b c (fun left first => ?_)
  rw [wp_bind]
  refine wp_structureArgument constants b a c (fun right second => ?_)
  rw [wp_bind]
  refine wp_mono (deciding.add [left, right] [f a b c, f b a c] s (.cons first (.cons second .nil)))
    (fun sum t known => ?_) (fun _ _ stopped => Or.inl stopped)
  rw [List.sum_cons, List.sum_cons, List.sum_nil, add_zero] at known
  exact wp_mono (wp_requireZero deciding known t) (fun _ _ zero => zero)
    (fun _ _ stopped => stopped.imp_right (fun other lie => other (lie.antisymmetric a b c)))

theorem wp_jacobiTerm (a b c e d : Fin n) {sum : Ref} {k : K} (denotes : value sum = some k) (s : State) :
    wp (jacobiTerm cas algebra a b c e d sum)
      (fun result _ => value result = some (k + (f b c d * f a d e + f c a d * f b d e + f a b d * f c d e)))
      (fun _ _ => mayStop) s := by
  unfold jacobiTerm
  rw [wp_bind]
  refine wp_structureArgument constants b c d (fun bc first => ?_)
  rw [wp_bind]
  refine wp_structureArgument constants a d e (fun ad first' => ?_)
  rw [wp_bind]
  refine wp_structureArgument constants c a d (fun ca second => ?_)
  rw [wp_bind]
  refine wp_structureArgument constants b d e (fun bd second' => ?_)
  rw [wp_bind]
  refine wp_structureArgument constants a b d (fun ab third => ?_)
  rw [wp_bind]
  refine wp_structureArgument constants c d e (fun cd third' => ?_)
  refine wp_then (deciding.mul _ _ _ (.cons first (.cons first' .nil))) fun one _ known => ?_
  refine wp_then (deciding.mul _ _ _ (.cons second (.cons second' .nil))) fun two _ known' => ?_
  refine wp_then (deciding.mul _ _ _ (.cons third (.cons third' .nil))) fun three _ known'' => ?_
  refine wp_good (deciding.add _ _ _ (.cons denotes (.cons known (.cons known' (.cons known'' .nil)))))
    fun result _ same => same.trans (congrArg some ?_)
  simp only [List.sum_cons, List.sum_nil, List.prod_cons, List.prod_nil, mul_one, add_zero]
  ring

theorem wp_requireJacobi (a b c e : Fin n) (s : State) :
    wp (requireJacobi cas algebra a b c e)
      (fun _ _ => ∑ d, (f b c d * f a d e + f c a d * f b d e + f a b d * f c d e) = 0)
      (fun _ _ => mayStop ∨ ¬IsLie f) s := by
  unfold requireJacobi
  rw [wp_bind]
  refine wp_mono (deciding.number 0 s) (fun zero t known => ?_) (fun _ _ stopped => Or.inl stopped)
  rw [Int.cast_zero] at known
  rw [wp_bind, constants.1]
  refine wp_mono (wp_accumulate _ known t (fun d sum k u denotes => wp_jacobiTerm deciding constants a b c e d denotes u))
    (fun sum u total => ?_) (fun _ _ stopped => Or.inl stopped)
  rw [zero_add] at total
  exact wp_mono (wp_requireZero deciding total u) (fun _ _ zero => zero)
    (fun _ _ stopped => stopped.imp_right (fun other lie => other (lie.jacobi a b c e)))

theorem wp_lieAlgebraValidate (s : State) :
    wp (lieAlgebraValidate cas algebra) (fun _ _ => IsLie f) (fun _ _ => mayStop ∨ ¬IsLie f) s := by
  have skew (a b : Fin n) (s : State) : wp (countUp (fun c _ => requireAntisymmetric cas algebra a b c) n 0 ())
      (fun _ _ => ∀ c, f a b c + f b a c = 0) (fun _ _ => mayStop ∨ ¬IsLie f) s :=
    wp_every (fun c s => wp_requireAntisymmetric deciding constants a b c s) s
  have skew' (a : Fin n) (s : State) :
      wp (countUp (fun b _ => countUp (fun c _ => requireAntisymmetric cas algebra a b c) n 0 ()) n 0 ())
        (fun _ _ => ∀ b c, f a b c + f b a c = 0) (fun _ _ => mayStop ∨ ¬IsLie f) s := wp_every (skew a) s
  have cyclic (a b c : Fin n) (s : State) : wp (countUp (fun e _ => requireJacobi cas algebra a b c e) n 0 ())
      (fun _ _ => ∀ e, ∑ d, (f b c d * f a d e + f c a d * f b d e + f a b d * f c d e) = 0)
      (fun _ _ => mayStop ∨ ¬IsLie f) s :=
    wp_every (fun e s => wp_requireJacobi deciding constants a b c e s) s
  have cyclic' (a b : Fin n) (s : State) :
      wp (countUp (fun c _ => countUp (fun e _ => requireJacobi cas algebra a b c e) n 0 ()) n 0 ())
        (fun _ _ => ∀ c e, ∑ d, (f b c d * f a d e + f c a d * f b d e + f a b d * f c d e) = 0)
        (fun _ _ => mayStop ∨ ¬IsLie f) s :=
    wp_every (cyclic a b) s
  have cyclic'' (a : Fin n) (s : State) :
      wp (countUp (fun b _ => countUp (fun c _ => countUp (fun e _ => requireJacobi cas algebra a b c e) n 0 ()) n 0 ())
        n 0 ()) (fun _ _ => ∀ b c e, ∑ d, (f b c d * f a d e + f c a d * f b d e + f a b d * f c d e) = 0)
        (fun _ _ => mayStop ∨ ¬IsLie f) s := wp_every (cyclic' a) s
  unfold lieAlgebraValidate
  rw [constants.1]
  refine wp_then (wp_every skew' s) fun _ t antisymmetric => ?_
  exact wp_good (wp_every cyclic'' t) fun _ _ jacobi => ⟨antisymmetric, jacobi⟩

theorem Accepted.isLie (accepted : Accepted cas algebra) : IsLie f := by
  obtain ⟨s, t, run⟩ := accepted
  exact (wp_of_ok run).mp (wp_lieAlgebraValidate deciding constants s)

theorem wp_killingTerm (a b c d : Fin n) {sum : Ref} {k : K} (denotes : value sum = some k) (s : State) :
    wp (killingTerm cas algebra a b c d sum) (fun result _ => value result = some (k + f a d c * f b c d))
      (fun _ _ => mayStop) s := by
  unfold killingTerm lieAdjointComponent
  rw [wp_bind]
  refine wp_structureArgument constants a d c (fun left first => ?_)
  rw [wp_bind]
  refine wp_structureArgument constants b c d (fun right second => ?_)
  refine wp_then (deciding.mul _ _ _ (.cons first (.cons second .nil))) fun term _ known => ?_
  refine wp_good (deciding.add _ _ _ (.cons denotes (.cons known .nil))) fun result _ same => same.trans (congrArg some ?_)
  simp only [List.sum_cons, List.sum_nil, List.prod_cons, List.prod_nil, mul_one, add_zero]

theorem wp_lieKillingComponent (a b : Fin n) (s : State) :
    wp (lieKillingComponent cas algebra a b) (fun result _ => value result = some (killing f a b)) (fun _ _ => mayStop) s := by
  have inside : ¬(algebra.dimension ≤ a ∨ algebra.dimension ≤ b) := by
    rw [constants.1]
    omega
  unfold lieKillingComponent
  rw [if_neg inside]
  refine wp_then (deciding.number 0 s) fun zero t known => ?_
  rw [Int.cast_zero] at known
  rw [constants.1]
  refine wp_good (wp_accumulate (fun c => ∑ d, f a d c * f b c d) known t (fun c sum k u denotes =>
    wp_accumulate (fun d => f a d c * f b c d) denotes u (fun d sum k u denotes =>
      wp_killingTerm deciding constants a b c d denotes u))) fun result _ total => ?_
  rwa [zero_add] at total

end Deciding

end PhyNspire.Qft

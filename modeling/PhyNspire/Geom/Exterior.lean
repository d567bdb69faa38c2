import PhyNspire.Cas.Scalars
import PhyNspire.Geom.Combinations
import PhyNspire.Tensor.Components

/-!
Differential forms in memory. A form is the table of its strictly increasing components on
one chart of one manifold. The forms that live are listed by address: an allocation
takes a fresh address and a destruction leaves the address empty, so an operation that
touches no operand leaves every old address as it was.

A manifold is borrowed and is read along with the form that points to it; its address is
part of it, so comparing two manifolds compares the pointers.
-/

namespace PhyNspire.Geom
open Platform Cas Tensor Lib.Stateful Lib.Exterior

inductive Orientation where
  | none
  | positive
  | negative
deriving DecidableEq, Repr

/-- `phy_manifold`, with what `phy_manifold_create` and `phy_manifold_add_chart` check. -/
structure Manifold (Ref : Type) where
  address : Nat
  ir : Nat
  dimension : Nat
  orientation : Orientation
  signature : List Int
  charts : List (Chart Ref)
  zero : Ref
  small : dimension ≤ manifoldMaxDim
  positive : 0 < dimension
  signed : signature.length = dimension ∧ ∀ entry ∈ signature, entry = 1 ∨ entry = -1
  charted : ∀ chart ∈ charts, chart.coordinates.length = dimension
deriving DecidableEq

/-- `phy_form`: the chart is one of the manifold's, the degree does not exceed the dimension, and
there is one component for each increasing tuple. -/
structure Form (Ref : Type) where
  manifold : Manifold Ref
  chartIndex : Nat
  degree : Nat
  components : List Ref
  charted : chartIndex < manifold.charts.length
  graded : degree ≤ manifold.dimension
  counted : components.length = geomBinomial manifold.dimension degree

variable {State Ref : Type}

namespace Form

abbrev dimension (form : Form Ref) : Nat := form.manifold.dimension
abbrev count (form : Form Ref) : Nat := geomBinomial form.dimension form.degree
abbrev zero (form : Form Ref) : Ref := form.manifold.zero
def chart (form : Form Ref) : Chart Ref := form.manifold.charts.get ⟨form.chartIndex, form.charted⟩

def componentAt (form : Form Ref) (position : Nat) : Ref := form.components.getD position form.zero

/-- `form->components[position] = value`. -/
def put (form : Form Ref) (position : Nat) (value : Ref) : Form Ref where
  manifold := form.manifold
  chartIndex := form.chartIndex
  degree := form.degree
  components := form.components.set position value
  charted := form.charted
  graded := form.graded
  counted := (List.length_set ..).trans form.counted

end Form

/-- The memory an operation works in. -/
structure World (State Ref : Type) where
  session : State
  heap : Heap
  forms : List (Option (Form Ref))

namespace World

def form (world : World State Ref) (address : Nat) : Option (Form Ref) := world.forms.getD address none

end World

/-- What runs in that memory. -/
abbrev Geometry (State Ref : Type) := EStateM Status (World State Ref)

/-- A call of the scalar engine, which sees its own session only. -/
def scalar {α : Type} (program : EStateM Status State α) : Geometry State Ref α := fun world =>
  match program world.session with
  | .ok value session => .ok value { world with session := session }
  | .error status session => .error status { world with session := session }

/-- A pointer that names no form is refused. -/
def formAt (address : Nat) : Geometry State Ref (Form Ref) := do
  let world ← get
  match world.form address with
  | some form => pure form
  | none => throw .invalidArgument

def geomCheckCas (cas : Cas State Ref) (manifold : Manifold Ref) : Geometry State Ref Unit :=
  if cas.ir ≠ manifold.ir then throw .invalidArgument else pure ()

def geomCheckPair [DecidableEq Ref] (left right : Form Ref) : Geometry State Ref Unit :=
  if left.manifold ≠ right.manifold ∨ left.chartIndex ≠ right.chartIndex then throw .type else pure ()

def formCreate (manifold : Manifold Ref) (chartIndex degree : Nat) : Geometry State Ref Nat := do
  if charted : chartIndex < manifold.charts.length then
    if graded : degree ≤ manifold.dimension then
      let world ← get
      let request := world.heap.alloc
      set { world with heap := request.2 }
      if request.1 then
        let form : Form Ref := ⟨manifold, chartIndex, degree,
          List.replicate (geomBinomial manifold.dimension degree) manifold.zero, charted, graded, List.length_replicate⟩
        modify (fun world => { world with forms := world.forms ++ [some form] })
        pure world.forms.length
      else throw .outOfMemory
    else throw .invalidArgument
  else throw .invalidArgument

def formDestroy (address : Nat) (world : World State Ref) : World State Ref :=
  { world with forms := world.forms.set address none }

def formLike (like : Form Ref) (degree : Nat) : Geometry State Ref Nat :=
  formCreate like.manifold like.chartIndex degree

/-- `result->components[position] = value` on the form at an address. -/
def formPut (address position : Nat) (value : Ref) (world : World State Ref) : World State Ref :=
  { world with forms := world.forms.set address ((world.form address).map (·.put position value)) }

/-- The shape every operation has: a result of the given degree is created, its components are computed one
after another, and a failure on the way destroys it. -/
def formFilled (like : Form Ref) (degree : Nat) (component : Nat → Geometry State Ref Ref) : Geometry State Ref Nat := do
  let result ← formLike like degree
  abandoning (formDestroy result) (do
    countUp (fun target _ => do
      let value ← component target
      modify (formPut result target value)) (geomBinomial like.dimension degree) 0 ()
    pure result)

@[simp] theorem wp_scalar {α : Type} (program : EStateM Status State α) (good : α → World State Ref → Prop)
    (bad : Status → World State Ref → Prop) (world : World State Ref) :
    wp (scalar program) good bad world ↔
      wp program (fun value session => good value { world with session := session })
        (fun status session => bad status { world with session := session }) world.session := by
  unfold wp scalar
  cases program world.session <;> rfl

theorem Form.componentAt_put (form : Form Ref) {position : Nat} (bound : position < form.count) (value : Ref)
    (other : Nat) : (form.put position value).componentAt other = if other = position then value else form.componentAt other := by
  unfold Form.componentAt Form.put
  simp only [List.getD_eq_getElem?_getD, List.getElem?_set, form.counted]
  by_cases same : other = position
  · rw [if_pos same.symm, if_pos same, if_pos (same ▸ bound)]
    rfl
  · rw [if_neg (Ne.symm same), if_neg same]

/-- An operation leaves the forms that live where and as they were. -/
def Untouched (world world' : World State Ref) : Prop := ∀ address, world'.form address = world.form address

/-- Nothing but a form at a fresh address is new. -/
def Adds (world world' : World State Ref) (address : Nat) (form : Form Ref) : Prop :=
  world.form address = none ∧ world'.form address = some form ∧
    ∀ other, other ≠ address → world'.form other = world.form other

def Form.Like (like : Form Ref) (degree : Nat) (form : Form Ref) : Prop :=
  form.manifold = like.manifold ∧ form.chartIndex = like.chartIndex ∧ form.degree = degree

theorem World.form_append (forms : List (Option (Form Ref))) (last : Option (Form Ref)) (address : Nat) :
    (forms ++ [last]).getD address none = if address = forms.length then last else forms.getD address none := by
  simp only [List.getD_eq_getElem?_getD, List.getElem?_append]
  split_ifs with inside same same
  · omega
  · rfl
  · rw [same, Nat.sub_self]
    rfl
  · rw [List.getElem?_eq_none (by simp only [List.length_singleton]; omega), List.getElem?_eq_none (by omega)]

/-- What holds once the first `done` components of the result stand. -/
structure Filling (like : Form Ref) (degree : Nat) (holds : Nat → Ref → Prop) (forms : List (Option (Form Ref)))
    (done : Nat) (world : World State Ref) (form : Form Ref) : Prop where
  shape : world.forms = forms ++ [some form]
  like : like.Like degree form
  filled : ∀ target, target < done → holds target (form.componentAt target)

theorem wp_formCreate (manifold : Manifold Ref) (chartIndex degree : Nat) (world : World State Ref) :
    wp (formCreate manifold chartIndex degree)
      (fun result after => result = world.forms.length ∧ ∃ form : Form Ref, after.forms = world.forms ++ [some form] ∧
        form.manifold = manifold ∧ form.chartIndex = chartIndex ∧ form.degree = degree ∧
        ∀ position, form.componentAt position = manifold.zero)
      (fun _ after => after.forms = world.forms ∧ (chartIndex < manifold.charts.length → degree ≤ manifold.dimension →
        ∃ k, world.heap.grants k = false)) world := by
  unfold formCreate
  by_cases charted : chartIndex < manifold.charts.length
  · by_cases graded : degree ≤ manifold.dimension
    · rw [dif_pos charted, dif_pos graded]
      simp only [wp_bind, wp_get, wp_set]
      refine wp_ite (fun _ => ?_) (fun refused => ⟨rfl, fun _ _ => ⟨_, eq_false_of_ne_true refused⟩⟩)
      simp only [wp_bind, wp_modify, wp_pure]
      refine ⟨trivial, _, rfl, rfl, rfl, rfl, fun position => ?_⟩
      unfold Form.componentAt
      simp only [List.getD_eq_getElem?_getD, List.getElem?_replicate]
      split_ifs <;> rfl
    · rw [dif_pos charted, dif_neg graded]
      exact ⟨rfl, fun _ held => absurd held graded⟩
  · rw [dif_neg charted]
    exact ⟨rfl, fun held => absurd held charted⟩

variable {like form : Form Ref} {degree : Nat} {holds : Nat → Ref → Prop} {world : World State Ref}

theorem Filling.untouched {done : Nat}
    {world' : World State Ref} (filling : Filling like degree holds world.forms done world' form) :
    Untouched world (formDestroy world.forms.length world') := by
  intro address
  unfold formDestroy World.form
  rw [filling.shape, List.set_append_right _ _ (le_refl _), Nat.sub_self]
  change (world.forms ++ [none]).getD address none = world.forms.getD address none
  rw [World.form_append]
  split_ifs with same
  · rw [same, List.getD_eq_getElem?_getD, List.getElem?_eq_none (le_refl _)]
    rfl
  · rfl

theorem adds_last {after : World State Ref} (last : after.forms = world.forms ++ [some form]) :
    Adds world after world.forms.length form := by
  refine ⟨?_, ?_, fun other different => ?_⟩
  · unfold World.form
    rw [List.getD_eq_getElem?_getD, List.getElem?_eq_none (le_refl _)]
    rfl
  · unfold World.form
    rw [last, World.form_append, if_pos rfl]
  · unfold World.form
    rw [last, World.form_append, if_neg different]

theorem Filling.put {done : Nat} {forms : List (Option (Form Ref))}
    (filling : Filling like degree holds forms done world form) (bound : done < geomBinomial like.dimension degree)
    {value : Ref} (held : holds done value) :
    Filling like degree holds forms (done + 1) (formPut forms.length done value world) (form.put done value) := by
  obtain ⟨shape, ⟨same, chart, graded⟩, filled⟩ := filling
  have inside : done < form.count := by
    unfold Form.count Form.dimension
    rw [same, graded]
    exact bound
  refine ⟨?_, ⟨same, chart, graded⟩, fun target before => ?_⟩
  · unfold formPut World.form
    rw [shape, World.form_append, if_pos rfl, List.set_append_right _ _ (le_refl _), Nat.sub_self]
    rfl
  · rw [Form.componentAt_put form inside]
    split_ifs with here
    · exact here ▸ held
    · exact filled target (by omega)

/-- A filling stops only where the form cannot be created or a component is not computed. -/
theorem wp_formFilled {component : Nat → Geometry State Ref Ref} {stopped : Prop} (world : World State Ref)
    (computes : ∀ target world, target < geomBinomial like.dimension degree →
      wp (component target) (fun value after => holds target value ∧ after.forms = world.forms)
        (fun _ after => after.forms = world.forms ∧ stopped) world) :
    wp (formFilled like degree component)
      (fun result after => ∃ form, Adds world after result form ∧ like.Like degree form ∧
        ∀ target, target < form.count → holds target (form.componentAt target))
      (fun _ after => Untouched world after ∧
        (degree ≤ like.dimension → stopped ∨ ∃ k, world.heap.grants k = false)) world := by
  unfold formFilled formLike
  rw [wp_bind]
  refine wp_mono (wp_formCreate like.manifold like.chartIndex degree world) ?_
    (fun _ after refused => ⟨fun address => by unfold World.form; rw [refused.1], fun graded =>
      Or.inr (refused.2 like.charted graded)⟩)
  rintro result created ⟨rfl, form, shape, manifold, chart, graded, -⟩
  rw [wp_abandoning, wp_bind]
  refine wp_mono (show wp _ (fun (_ : Unit) after => ∃ form,
      Filling like degree holds world.forms (0 + geomBinomial like.dimension degree) after form)
    (fun (_ : Status) after => Untouched world (formDestroy world.forms.length after) ∧ stopped) created from ?_) ?_ ?_
  · refine wp_countUp (fun done _ after => ∃ form, Filling like degree holds world.forms done after form) _ 0 () created
      ⟨form, shape, ⟨manifold, chart, graded⟩, fun _ before => absurd before (Nat.not_lt_zero _)⟩ ?_
    rintro target - before - bound ⟨current, filling⟩
    rw [wp_bind]
    refine wp_mono (computes target before (by omega)) ?_ ?_
    · rintro value after ⟨held, same⟩
      rw [wp_modify]
      have moved : Filling like degree holds world.forms target after current :=
        ⟨same.trans filling.shape, filling.like, filling.filled⟩
      exact ⟨_, moved.put (by omega) held⟩
    · rintro _ after ⟨same, stops⟩
      have moved : Filling like degree holds world.forms target after current :=
        ⟨same.trans filling.shape, filling.like, filling.filled⟩
      exact ⟨moved.untouched, stops⟩
  · rintro - after ⟨form, filling⟩
    rw [wp_pure]
    refine ⟨form, adds_last filling.shape, filling.like, fun target bound => filling.filled target ?_⟩
    unfold Form.count Form.dimension at bound
    rw [filling.like.1, filling.like.2.2] at bound
    rw [Nat.zero_add]
    exact bound
  · exact fun _ _ untouched => ⟨untouched.1, fun _ => Or.inl untouched.2⟩

end PhyNspire.Geom

/-!
The exterior operations. Each creates its result, computes its components one after another
from stored components of the operands, and publishes it at the end. A component is a sum
of at most six terms; a term with a zero handle in it is skipped.
-/

namespace PhyNspire.Geom
open Platform Cas Tensor Lib.Stateful

variable {State Ref : Type} [DecidableEq Ref]

def geomApplySign (cas : Cas State Ref) (value : Ref) (sign : Int) : Geometry State Ref Ref :=
  if sign = 0 then throw .assumption
  else if sign > 0 then pure value
  else scalar (cas.neg value)

def geomSum (cas : Cas State Ref) (zero : Ref) (terms : List Ref) : Geometry State Ref Ref :=
  match terms with
  | [] => pure zero
  | [term] => pure term
  | terms => scalar (cas.add terms)

/-- One shuffle of a target tuple: which slots the left factor takes decides the term. -/
def wedgeTerm (cas : Cas State Ref) (left right : Form Ref) (indices : List Nat) (shuffle : Nat) (terms : List Ref) :
    Geometry State Ref (List Ref) := do
  let total := left.degree + right.degree
  let chosen := combinationAt total left.degree shuffle
  let rest := complementOf total chosen
  match combinationIndex left.dimension left.degree (chosen.map (indices.getD · 0)),
      combinationIndex left.dimension right.degree (rest.map (indices.getD · 0)) with
  | some leftPosition, some rightPosition =>
    let leftValue := left.componentAt leftPosition
    let rightValue := right.componentAt rightPosition
    if leftValue = left.zero ∨ rightValue = right.zero then pure terms
    else do
      let product ← scalar (cas.mul [leftValue, rightValue])
      let product ← geomApplySign cas product (sortParity (chosen ++ rest)).2
      pure (terms ++ [product])
  | _, _ => throw .corruptDocument

def wedgeComponent (cas : Cas State Ref) (left right : Form Ref) (target : Nat) : Geometry State Ref Ref := do
  let total := left.degree + right.degree
  let indices := combinationAt left.dimension total target
  let terms ← countUp (wedgeTerm cas left right indices) (geomBinomial total left.degree) 0 []
  geomSum cas left.zero terms

def formWedge (cas : Cas State Ref) (left right : Nat) : Geometry State Ref Nat := do
  let left ← formAt left
  let right ← formAt right
  geomCheckPair left right
  geomCheckCas cas left.manifold
  if left.dimension < left.degree + right.degree then throw .domain
  else formFilled left (left.degree + right.degree) (wedgeComponent cas left right)

/-- One slot of a target tuple left out, its coordinate differentiated by. -/
def derivativeTerm (cas : Cas State Ref) (form : Form Ref) (indices : List Nat) (omitted : Nat) (terms : List Ref) :
    Geometry State Ref (List Ref) :=
  match combinationIndex form.dimension form.degree (indices.eraseIdx omitted) with
  | none => throw .corruptDocument
  | some source =>
    let component := form.componentAt source
    if component = form.zero then pure terms
    else
      match form.chart.coordinates[indices.getD omitted 0]? with
      | none => throw .invalidArgument
      | some coordinate => do
        let derivative ← scalar (cas.diff component coordinate)
        if derivative = form.zero then pure terms
        else do
          let derivative ← geomApplySign cas derivative (if omitted % 2 = 0 then 1 else -1)
          pure (terms ++ [derivative])

def derivativeComponent (cas : Cas State Ref) (form : Form Ref) (target : Nat) : Geometry State Ref Ref := do
  let indices := combinationAt form.dimension (form.degree + 1) target
  let terms ← countUp (derivativeTerm cas form indices) (form.degree + 1) 0 []
  geomSum cas form.zero terms

def formExteriorDerivative (cas : Cas State Ref) (form : Nat) : Geometry State Ref Nat := do
  let form ← formAt form
  geomCheckCas cas form.manifold
  if form.dimension ≤ form.degree then throw .domain
  else formFilled form (form.degree + 1) (derivativeComponent cas form)

def interiorTerm (cas : Cas State Ref) (form : Form Ref) (vector : Tensor Ref) (rest : List Nat) (axis : Nat)
    (terms : List Ref) : Geometry State Ref (List Ref) :=
  let sorted := sortParity (axis :: rest)
  if sorted.2 = 0 then pure terms
  else
    match combinationIndex form.dimension form.degree sorted.1 with
    | none => throw .corruptDocument
    | some source =>
      let component := form.componentAt source
      if component = form.zero then pure terms
      else
        match tensorGet vector [axis] with
        | .error status => throw status
        | .ok entry =>
          if entry.sign = 0 ∨ entry.ref = vector.zero then pure terms
          else do
            let product ← scalar (cas.mul [entry.ref, component])
            let product ← geomApplySign cas product (sorted.2 * entry.sign)
            pure (terms ++ [product])

def interiorComponent (cas : Cas State Ref) (form : Form Ref) (vector : Tensor Ref) (target : Nat) :
    Geometry State Ref Ref := do
  let rest := combinationAt form.dimension (form.degree - 1) target
  let terms ← countUp (interiorTerm cas form vector rest) form.dimension 0 []
  geomSum cas form.zero terms

def formInteriorProduct (cas : Cas State Ref) (form : Nat) (vector : Tensor Ref) : Geometry State Ref Nat := do
  let form ← formAt form
  geomCheckCas cas form.manifold
  if vector.rank ≠ 1 ∨ vector.valence ≠ [.upper] ∨ vector.chart ≠ form.chart then throw .type
  else if form.degree = 0 then throw .domain
  else formFilled form (form.degree - 1) (interiorComponent cas form vector)

/-- The body that `phy_form_add` and `phy_form_sub` share. -/
def combine (cas : Cas State Ref) (left right : Nat) (subtract : Bool) : Geometry State Ref Nat := do
  let left ← formAt left
  let right ← formAt right
  geomCheckPair left right
  if left.degree ≠ right.degree then throw .type
  else do
    geomCheckCas cas left.manifold
    formFilled left left.degree (fun position =>
      if subtract then scalar (cas.sub (left.componentAt position) (right.componentAt position))
      else scalar (cas.add [left.componentAt position, right.componentAt position]))

def formAdd (cas : Cas State Ref) (left right : Nat) : Geometry State Ref Nat := combine cas left right false

def formSub (cas : Cas State Ref) (left right : Nat) : Geometry State Ref Nat := combine cas left right true

def formScale (cas : Cas State Ref) (form : Nat) (factor : Ref) : Geometry State Ref Nat := do
  let form ← formAt form
  geomCheckCas cas form.manifold
  formFilled form form.degree (fun position => scalar (cas.mul [factor, form.componentAt position]))

/-- `d(iota_v alpha)`, absent at degree zero. -/
def lieContraction (cas : Cas State Ref) (form : Nat) (degree : Nat) (vector : Tensor Ref) :
    Geometry State Ref (Option Nat) :=
  if 0 < degree then do
    let contracted ← formInteriorProduct cas form vector
    ensuring (formDestroy contracted) (some <$> formExteriorDerivative cas contracted)
  else pure none

/-- `iota_v(d alpha)`, absent at top degree. -/
def lieDerivation (cas : Cas State Ref) (form : Nat) (degree dimension : Nat) (vector : Tensor Ref) :
    Geometry State Ref (Option Nat) :=
  if degree < dimension then do
    let derivative ← formExteriorDerivative cas form
    ensuring (formDestroy derivative) (some <$> formInteriorProduct cas derivative vector)
  else pure none

/-- `phy_form_destroy`, which ignores a null pointer. -/
def formDiscard (address : Option Nat) (world : World State Ref) : World State Ref :=
  match address with
  | some address => formDestroy address world
  | none => world

/-- Cartan's formula. The intermediate forms are destroyed however the call ends. -/
def formLieDerivative (cas : Cas State Ref) (form : Nat) (vector : Tensor Ref) : Geometry State Ref Nat := do
  let operand ← formAt form
  let dContracted ← lieContraction cas form operand.degree vector
  let contractedDerivative ← abandoning (formDiscard dContracted)
    (lieDerivation cas form operand.degree operand.dimension vector)
  match dContracted, contractedDerivative with
  | some first, some second => ensuring (fun world => formDestroy first (formDestroy second world)) (formAdd cas first second)
  | some first, none => pure first
  | none, some second => pure second
  | none, none => throw .corruptDocument

end PhyNspire.Geom

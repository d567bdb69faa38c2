import PhyNspire.Cas.Halves
import PhyNspire.Qft.Lagrangian

/-!
The Yang-Mills identities between calls. Each hypothesis says that a call returned a Lie form
with the given contents, in whatever memory it was made. The identities that differentiate
products with the coupling or with the structure constants need these to be constants
on the chart; nothing in the operations asks for it.
-/

namespace PhyNspire.Qft
open Cas Tensor Geom Lib.Stateful Lib.Exterior Lib.LieForms

variable {State Ref K : Type} {n : Nat}

def LieYields (world : World State Ref) (call : Geometry State Ref (LieForm Ref)) (result : LieField Ref n) : Prop :=
  ∃ form after, call world = .ok form after ∧ Holds after form result

/-- The components denote the family `ω`. -/
def LieMeans [CommRing K] (value : Ref → Option K) (field : LieField Ref n) (ω : Fin n → Finset Nat → K) : Prop :=
  ∀ a, Means value (field.component a) (ω a)

section Relations

variable [DecidableEq Ref] (engine : Placed State Ref)

/-- `result = left + right`, computed in some memory. -/
def LieSums (left right result : LieField Ref n) : Prop :=
  ∃ world l r, Holds world l left ∧ Holds world r right ∧ LieYields world (lieFormAdd engine l r) result

def LieScales (factor : Ref) (field result : LieField Ref n) : Prop :=
  ∃ world l, Holds world l field ∧ LieYields world (lieFormScale engine l factor) result

def Brackets (left right result : LieField Ref n) : Prop :=
  ∃ world l r, Holds world l left ∧ Holds world r right ∧ LieYields world (lieFormBracketWedge engine l r) result

/-- `result = D field` along a connection. -/
def Covariates (connection : LieField Ref n) (coupling : Ref) (field result : LieField Ref n) : Prop :=
  ∃ world l r, Holds world l connection ∧ Holds world r field ∧
    LieYields world (yangMillsCovariantDerivative engine l coupling r) result

/-- `result = F`, the field strength of a connection. -/
def Strengthens (connection : LieField Ref n) (coupling : Ref) (result : LieField Ref n) : Prop :=
  ∃ world l, Holds world l connection ∧ LieYields world (yangMillsFieldStrength engine l coupling) result

def Bianchis (connection : LieField Ref n) (coupling : Ref) (result : LieField Ref n) : Prop :=
  ∃ world l, Holds world l connection ∧ LieYields world (yangMillsBianchi engine l coupling) result

def VariesConnection (connection : LieField Ref n) (coupling : Ref) (parameter result : LieField Ref n) : Prop :=
  ∃ world l r, Holds world l connection ∧ Holds world r parameter ∧
    LieYields world (yangMillsGaugeVariationConnection engine l coupling r) result

def VariesCurvature (curvature : LieField Ref n) (coupling : Ref) (parameter result : LieField Ref n) : Prop :=
  ∃ world l r, Holds world l curvature ∧ Holds world r parameter ∧
    LieYields world (yangMillsGaugeVariationCurvature engine l coupling r) result

/-- `result` is the Lagrangian of a curvature with the Killing form. -/
def Weighs (curvature : LieField Ref n) (metric : Tensor Ref) (result : Form Ref) : Prop :=
  ∃ world l, Holds world l curvature ∧ Yields world (yangMillsLagrangian engine l metric none) result

end Relations

def Steady [CommRing K] (partialBy : Ref → Derivation ℤ K K) (manifold : Manifold Ref) (chartIndex : Nat) (k : K) : Prop :=
  ∀ axis, axis < manifold.dimension → axisPartials partialBy manifold chartIndex axis k = 0

/-- An accepted algebra whose constants denote `f`, and forms on it with a coupling, all of them admitted. -/
structure Gauged [CommRing K] (engine : Placed State Ref) (value : Ref → Option K) (admits : Manifold Ref → Nat → K → Prop)
    (field : LieField Ref n) (f : Fin n → Fin n → Fin n → K) (coupling : Ref) (g : K) : Prop where
  accepted : Accepted engine.toCas field.algebra
  constants : Constants value field.algebra f
  coupling : value coupling = some g
  admitted : admits field.manifold field.chartIndex g
  structural : ∀ a b c, admits field.manifold field.chartIndex (f a b c)

structure BracketLaws [CommRing K] [DecidableEq Ref] (engine : Placed State Ref) (value : Ref → Option K) : Prop where
  antisymmetric : ∀ {n} {f : Fin n → Fin n → Fin n → K} {left right forth back : LieField Ref n} {α β},
    Accepted engine.toCas left.algebra → Constants value left.algebra f → LieMeans value left α → LieMeans value right β →
      Brackets engine left right forth → Brackets engine right left back →
        ∃ ω, LieMeans value back ω ∧ LieMeans value forth (-((-1 : K) ^ (left.degree * right.degree) • ω))
  jacobi : ∀ {n} {f : Fin n → Fin n → Fin n → K} {a b c bc abc ca bca ab cab : LieField Ref n} {α β γ},
    Accepted engine.toCas a.algebra → Constants value a.algebra f → LieMeans value a α → LieMeans value b β →
      LieMeans value c γ → Brackets engine b c bc → Brackets engine a bc abc → Brackets engine c a ca →
        Brackets engine b ca bca → Brackets engine a b ab → Brackets engine c ab cab →
          ∃ ξ η ζ, LieMeans value abc ξ ∧ LieMeans value bca η ∧ LieMeans value cab ζ ∧
            (-1 : K) ^ (a.degree * c.degree) • ξ + (-1 : K) ^ (b.degree * a.degree) • η +
              (-1 : K) ^ (c.degree * b.degree) • ζ = 0

structure ConnectionLaws [CommRing K] [DecidableEq Ref] (engine : Placed State Ref) (value : Ref → Option K)
    (partialBy : Ref → Derivation ℤ K K) (admits : Manifold Ref → Nat → K → Prop) : Prop where
  bianchi : ∀ {n} {f : Fin n → Fin n → Fin n → K} {connection residual : LieField Ref n} {coupling g A},
    Gauged engine value admits connection f coupling g → LieMeans value connection A →
      Bianchis engine connection coupling residual → LieMeans value residual 0
  square : ∀ {n} {f : Fin n → Fin n → Fin n → K} {connection field once twice curvature product : LieField Ref n}
    {coupling g A ω}, Gauged engine value admits connection f coupling g → LieMeans value connection A →
      LieMeans value field ω → Covariates engine connection coupling field once →
        Covariates engine connection coupling once twice → Strengthens engine connection coupling curvature →
          Brackets engine curvature field product → ∃ η, LieMeans value product η ∧ LieMeans value twice (g • η)
  curvature : ∀ {n} {f : Fin n → Fin n → Fin n → K} {connection parameter direction curvature variation : LieField Ref n}
    {coupling g A φ}, Gauged engine value admits connection f coupling g → LieMeans value connection A →
      LieMeans value parameter φ → VariesConnection engine connection coupling parameter direction →
        Strengthens engine connection coupling curvature → VariesCurvature engine curvature coupling parameter variation →
          ∃ F η ζ, LieMeans value curvature F ∧ LieMeans value variation η ∧
            ∀ {factor ε scaled moved curvature'}, value factor = some ε →
              Steady partialBy connection.manifold connection.chartIndex ε → LieScales engine factor direction scaled →
                LieSums engine connection scaled moved → Strengthens engine moved coupling curvature' →
                  LieMeans value curvature' (F + ε • η + ε ^ 2 • ζ)

/-- The Lagrangian of the Killing form does not change to first order under the variation of the connection. -/
structure LagrangianLaw [Field K] [DecidableEq Ref] (engine : Placed State Ref) (value : Ref → Option K)
    (partialBy : Ref → Derivation ℤ K K) (admits : Manifold Ref → Nat → K → Prop) : Prop where
  lagrangian : ∀ {n} {f : Fin n → Fin n → Fin n → K} {connection parameter direction curvature : LieField Ref n}
    {metric t density} {coupling g A φ}, Gauged engine value admits connection f coupling g → LieMeans value connection A →
      LieMeans value parameter φ → TensorMeans value metric t →
        determinantOf connection.manifold.dimension (entry t) ≠ 0 →
          VariesConnection engine connection coupling parameter direction →
            Strengthens engine connection coupling curvature → Weighs engine curvature metric density →
              ∃ ρ₀ ρ₂ ρ₃ ρ₄, Means value density ρ₀ ∧
                ∀ {factor ε scaled moved curvature' density'}, value factor = some ε →
                  Steady partialBy connection.manifold connection.chartIndex ε →
                    LieScales engine factor direction scaled → LieSums engine connection scaled moved →
                      Strengthens engine moved coupling curvature' → Weighs engine curvature' metric density' →
                        Means value density' (ρ₀ + ε ^ 2 • ρ₂ + ε ^ 3 • ρ₃ + ε ^ 4 • ρ₄)

structure YangMillsLaws [Field K] [DecidableEq Ref] (engine : Placed State Ref) (value : Ref → Option K)
    (partialBy : Ref → Derivation ℤ K K) (admits : Manifold Ref → Nat → K → Prop) : Prop where
  brackets : BracketLaws engine value
  connections : ConnectionLaws engine value partialBy admits
  lagrangian : LagrangianLaw engine value partialBy admits

def LieField.Shape (field : LieField Ref n) (algebra : LieAlgebra Ref) (manifold : Manifold Ref) (chartIndex degree : Nat) :
    Prop := field.algebra = algebra ∧ field.manifold = manifold ∧ field.chartIndex = chartIndex ∧ field.degree = degree

def LieField.Beside (left right : LieField Ref n) : Prop :=
  left.algebra = right.algebra ∧ left.manifold = right.manifold ∧ left.chartIndex = right.chartIndex

theorem Holds.beside {world : World State Ref} {l r : LieForm Ref} {left right : LieField Ref n}
    (first : Holds world l left) (second : Holds world r right) (compatible : Compatible l r) : left.Beside right := by
  obtain ⟨algebra, manifold, chart⟩ := compatible
  exact ⟨first.shape.1.symm.trans (algebra.trans second.shape.1),
    first.shape.2.1.symm.trans (manifold.trans second.shape.2.1),
    first.shape.2.2.1.symm.trans (chart.trans second.shape.2.2.1)⟩

section Known

variable [CommRing K] {value : Ref → Option K}

variable {world : World State Ref} {field : LieField Ref n} {ω : Fin n → Finset Nat → K}

theorem Holds.carries {form : LieForm Ref}
    (holds : Holds world form field) (means : LieMeans value field ω) : Carries value world form ω := by
  obtain ⟨algebra, manifold, chart, degree⟩ := holds.shape
  refine ⟨algebra ▸ field.sized, fun a => ⟨field.component a, holds.components a, ?_, means a⟩⟩
  obtain ⟨manifold', chart', degree'⟩ := field.shaped a
  exact ⟨manifold'.trans manifold.symm, chart'.trans chart.symm, degree'.trans degree.symm⟩

variable {result : LieField Ref n}

theorem LieYields.known {call : Geometry State Ref (LieForm Ref)}
    {like : LieForm Ref} {degree : Nat} (yields : LieYields world call result)
    (publishes : LiePublishes value world call like degree ω) (holds : Holds world like field) :
    result.Shape field.algebra field.manifold field.chartIndex degree ∧ LieMeans value result ω := by
  obtain ⟨form, after, run, held⟩ := yields
  have draft := (wp_of_ok run).mp publishes
  refine ⟨⟨held.shape.1.symm.trans (draft.shape.1.trans holds.shape.1),
    held.shape.2.1.symm.trans (draft.shape.2.1.trans holds.shape.2.1),
    held.shape.2.2.1.symm.trans (draft.shape.2.2.1.trans holds.shape.2.2.1),
    held.shape.2.2.2.symm.trans draft.shape.2.2.2⟩, fun a => ?_⟩
  obtain ⟨component, lives, -, means⟩ := draft.filled.filled a
  rw [held.components a, Option.some.injEq] at lives
  exact lives ▸ means

theorem LieYields.checked {call : Geometry State Ref (LieForm Ref)}
    {fact : Prop} (yields : LieYields world call result) (checks : wp call (fun _ _ => fact) (fun _ _ => True) world) : fact := by
  obtain ⟨form, after, run, -⟩ := yields
  exact (wp_of_ok run).mp checks

abbrev LieField.derived (partialBy : Ref → Derivation ℤ K K) (field : LieField Ref n) (ω : Fin n → Finset Nat → K) :
    Fin n → Finset Nat → K :=
  derive (Finset.range field.manifold.dimension) (axisPartials partialBy field.manifold field.chartIndex) ω

theorem Holds.derived {form : LieForm Ref}
    (partialBy : Ref → Derivation ℤ K K) (holds : Holds world form field) (ω : Fin n → Finset Nat → K) :
    form.derived partialBy ω = field.derived partialBy ω := by
  unfold LieForm.derived LieField.derived
  rw [holds.shape.2.1, holds.shape.2.2.1]

theorem LieMeans.graded (means : LieMeans value field ω) :
    Graded field.degree ω := fun a => (field.shaped a).2.2 ▸ (means a).degree

variable [DecidableEq Ref] {engine : Placed State Ref}

omit [CommRing K] in
theorem Brackets.beside {left right : LieField Ref n} (call : Brackets engine left right result) :
    left.Beside right := by
  obtain ⟨world, l, r, first, second, yields⟩ := call
  have checks : wp (lieFormBracketWedge engine l r) (fun _ _ => Compatible l r) (fun _ _ => True) world := by
    unfold lieFormBracketWedge
    refine wp_ite (fun _ => trivial) (fun passed => wp_of_run (fun _ _ _ => ?_) (fun _ _ _ => trivial))
    exact by_contra (fun other => passed (Or.inr other))
  exact first.beside second (yields.checked checks)

omit [CommRing K] in
theorem Covariates.beside {connection : LieField Ref n} {coupling : Ref}
    (call : Covariates engine connection coupling field result) : connection.Beside field ∧ connection.degree = 1 := by
  obtain ⟨world, l, r, first, second, yields⟩ := call
  have checks : wp (yangMillsCovariantDerivative engine l coupling r) (fun _ _ => Compatible l r ∧ l.degree = 1)
      (fun _ _ => True) world := by
    unfold yangMillsCovariantDerivative
    refine wp_ite (fun _ => trivial) (fun passed => wp_of_run (fun _ _ _ => ?_) (fun _ _ _ => trivial))
    exact ⟨by_contra (fun other => passed (Or.inl other)),
      by_contra (fun other => passed (Or.inr (Or.inr (Or.inr other))))⟩
  obtain ⟨compatible, degree⟩ := yields.checked checks
  exact ⟨first.beside second compatible, first.shape.2.2.2.symm.trans degree⟩

omit [CommRing K] in
theorem Bianchis.degree {connection : LieField Ref n} {coupling : Ref}
    (call : Bianchis engine connection coupling result) : connection.degree = 1 := by
  obtain ⟨world, l, first, yields⟩ := call
  have checks : wp (yangMillsBianchi engine l coupling) (fun _ _ => l.degree = 1) (fun _ _ => True) world := by
    unfold yangMillsBianchi yangMillsFieldStrength
    rw [wp_bind]
    refine wp_ite (fun _ => trivial) (fun passed => wp_of_run (fun _ _ _ => ?_) (fun _ _ _ => trivial))
    exact wp_of_run (fun _ _ _ => by_contra (fun other => passed (Or.inr other))) (fun _ _ _ => trivial)
  exact first.shape.2.2.2.symm.trans (yields.checked checks)

omit [CommRing K] in
theorem VariesConnection.covariates {connection parameter : LieField Ref n} {coupling : Ref}
    (call : VariesConnection engine connection coupling parameter result) :
    Covariates engine connection coupling parameter result ∧ parameter.degree = 0 := by
  obtain ⟨world, l, r, first, second, form, after, run, held⟩ := call
  unfold yangMillsGaugeVariationConnection at run
  by_cases degree : r.degree = 0
  · rw [if_neg (not_not.mpr degree)] at run
    exact ⟨⟨world, l, r, first, second, form, after, run, held⟩, second.shape.2.2.2.symm.trans degree⟩
  · rw [if_pos degree] at run
    cases run

section Exact

variable {partialBy : Ref → Derivation ℤ K K} (exact : Exact engine.toCas value partialBy)
  {f : Fin n → Fin n → Fin n → K} {coupling : Ref} {g : K} (denotes : value coupling = some g)
include exact

variable {result : LieField Ref n}

theorem LieSums.known {left right : LieField Ref n} {α β : Fin n → Finset Nat → K}
    (call : LieSums engine left right result) (first : LieMeans value left α) (second : LieMeans value right β) :
    result.Shape left.algebra left.manifold left.chartIndex left.degree ∧ LieMeans value result (α + β) := by
  obtain ⟨world, l, r, holds, holds', yields⟩ := call
  have known := yields.known (publishes_lieFormAdd exact (holds.carries first) (holds'.carries second)) holds
  rwa [holds.shape.2.2.2] at known

theorem LieScales.known {factor : Ref} {field : LieField Ref n} {c : K} {ω : Fin n → Finset Nat → K}
    (call : LieScales engine factor field result) (means : LieMeans value field ω) (known : value factor = some c) :
    result.Shape field.algebra field.manifold field.chartIndex field.degree ∧ LieMeans value result (c • ω) := by
  obtain ⟨world, l, holds, yields⟩ := call
  have scaled := yields.known (publishes_lieFormScale exact (holds.carries means) known) holds
  rwa [holds.shape.2.2.2] at scaled

theorem Brackets.known {left right : LieField Ref n} {α β : Fin n → Finset Nat → K}
    (call : Brackets engine left right result) (constants : Constants value left.algebra f) (first : LieMeans value left α)
    (second : LieMeans value right β) :
    result.Shape left.algebra left.manifold left.chartIndex (left.degree + right.degree) ∧
      LieMeans value result (bracket f α β) := by
  obtain ⟨world, l, r, holds, holds', yields⟩ := call
  have known := yields.known (publishes_lieFormBracketWedge exact (holds.carries first) (holds'.carries second)
    (holds.shape.1.symm ▸ constants)) holds
  rwa [holds.shape.2.2.2, holds'.shape.2.2.2] at known

include denotes

theorem Covariates.known {connection field : LieField Ref n} {A ω : Fin n → Finset Nat → K}
    (call : Covariates engine connection coupling field result) (constants : Constants value connection.algebra f)
    (first : LieMeans value connection A) (second : LieMeans value field ω) :
    result.Shape connection.algebra connection.manifold connection.chartIndex (field.degree + 1) ∧
      LieMeans value result (connection.derived partialBy ω + g • bracket f A ω) := by
  obtain ⟨⟨algebra, manifold, chart⟩, -⟩ := call.beside
  obtain ⟨world, l, r, holds, holds', yields⟩ := call
  have known := yields.known (publishes_yangMillsCovariantDerivative exact (holds.carries first) (holds'.carries second)
    (holds.shape.1.symm ▸ constants) denotes) holds'
  rw [holds'.derived, holds'.shape.2.2.2] at known
  unfold LieField.derived at known ⊢
  rwa [algebra, manifold, chart]

theorem VariesCurvature.known {curvature parameter : LieField Ref n} {F φ : Fin n → Finset Nat → K}
    (call : VariesCurvature engine curvature coupling parameter result) (constants : Constants value curvature.algebra f)
    (first : LieMeans value curvature F) (second : LieMeans value parameter φ) : LieMeans value result (g • bracket f F φ) := by
  obtain ⟨world, l, r, holds, holds', yields⟩ := call
  exact (yields.known (publishes_yangMillsGaugeVariationCurvature exact (holds.carries first) (holds'.carries second)
    (holds.shape.1.symm ▸ constants) denotes) holds).2

variable {h₀ : K} (half : ∀ s, wp (engine.number 1 2) (fun ref _ => value ref = some h₀) (fun _ _ => True) s)
include half

theorem Strengthens.known {connection : LieField Ref n} {A : Fin n → Finset Nat → K}
    (call : Strengthens engine connection coupling result) (constants : Constants value connection.algebra f)
    (means : LieMeans value connection A) :
    result.Shape connection.algebra connection.manifold connection.chartIndex (connection.degree + 1) ∧
      LieMeans value result (strength (Finset.range connection.manifold.dimension)
        (axisPartials partialBy connection.manifold connection.chartIndex) f (h₀ * g) A) := by
  obtain ⟨world, l, holds, yields⟩ := call
  have known := yields.known (publishes_yangMillsFieldStrength exact half (holds.carries means)
    (holds.shape.1.symm ▸ constants) denotes) holds
  rwa [holds.derived, holds.shape.2.2.2] at known

theorem Bianchis.known {connection : LieField Ref n} {A : Fin n → Finset Nat → K}
    (call : Bianchis engine connection coupling result) (constants : Constants value connection.algebra f)
    (means : LieMeans value connection A) :
    LieMeans value result (covariant (Finset.range connection.manifold.dimension)
      (axisPartials partialBy connection.manifold connection.chartIndex) f g A
        (strength (Finset.range connection.manifold.dimension)
          (axisPartials partialBy connection.manifold connection.chartIndex) f (h₀ * g) A)) := by
  obtain ⟨world, l, holds, yields⟩ := call
  have known := (yields.known (publishes_yangMillsBianchi exact half (holds.carries means)
    (holds.shape.1.symm ▸ constants) denotes) holds).2
  unfold LieForm.derived at known
  rwa [holds.shape.2.1, holds.shape.2.2.1] at known

end Exact

end Known

section Laws

variable [DecidableEq Ref] {engine : Placed State Ref} {value : Ref → Option K}

theorem bracketLaws [CommRing K] {partialBy : Ref → Derivation ℤ K K} (exact : Exact engine.toCas value partialBy) :
    BracketLaws engine value where
  antisymmetric accepted constants first second forth back := by
    have whole := (forth.known exact constants first second).2
    rw [bracket_comm (accepted.isLie exact.deciding constants) first.graded second.graded] at whole
    exact ⟨_, (back.known exact (forth.beside.1 ▸ constants) second first).2, whole⟩
  jacobi {n f a b c bc abc ca bca ab cab α β γ} accepted constants first second third product nested product' nested'
      product'' nested'' := by
    have onB : Constants value b.algebra f := product''.beside.1 ▸ constants
    have onC : Constants value c.algebra f := product.beside.1 ▸ onB
    have one := (product.known exact onB second third).2
    have two := (product'.known exact onC third first).2
    have three := (product''.known exact constants first second).2
    exact ⟨_, _, _, (nested.known exact constants first one).2, (nested'.known exact onB second two).2,
      (nested''.known exact onC third three).2,
      bracket_jacobi (accepted.isLie exact.deciding constants) first.graded second.graded third.graded⟩

theorem axisPartials_comm [CommRing K] {partialBy : Ref → Derivation ℤ K K}
    (commute : ∀ first second x, partialBy first (partialBy second x) = partialBy second (partialBy first x))
    (manifold : Manifold Ref) (chartIndex i j : Nat) (x : K) :
    axisPartials partialBy manifold chartIndex i (axisPartials partialBy manifold chartIndex j x) =
      axisPartials partialBy manifold chartIndex j (axisPartials partialBy manifold chartIndex i x) := by
  unfold axisPartials
  cases manifold.charts[chartIndex]? with
  | none => rfl
  | some chart => exact partials_comm commute chart i j x

variable [Field K] [CharZero K] {partialBy : Ref → Derivation ℤ K K} {root : K → K} {mayStop : Prop}

variable {F : Fin n → Finset Nat → K}

theorem wedge_manifoldDual {curvature : LieField Ref n} (means : LieMeans value curvature F)
    {t : List Nat → K} (symmetric : Symmetric curvature.manifold.dimension (entry t)) (a b : Fin n) :
    wedge (F a) (manifoldDual root curvature.manifold t (F b)) = wedge (F b) (manifoldDual root curvature.manifold t (F a)) := by
  have inside (a : Fin n) : Inside (Finset.range curvature.manifold.dimension) (F a) := by
    rw [← (curvature.shaped a).1]
    exact fun I => (means a).inside
  have bounded : curvature.degree ≤ (Finset.range curvature.manifold.dimension).card := by
    rw [Finset.card_range, ← (curvature.shaped a).1, ← (curvature.shaped a).2.2]
    exact (curvature.component a).graded
  exact wedge_hodge_symmetric (fun i j => inverseOf_symmetric symmetric i j) (inside a) (inside b) (means.graded a)
    (means.graded b) bounded _

theorem Weighs.known (exact : Exact engine.toCas value partialBy) (sound : Sound engine.toEngine value root mayStop)
    {f : Fin n → Fin n → Fin n → K} {curvature : LieField Ref n} {metric : Tensor Ref} {result : Form Ref}
    {t : List Nat → K} {c : K} (call : Weighs engine curvature metric result)
    (means : LieMeans value curvature F) (constants : Constants value curvature.algebra f)
    (components : TensorMeans value metric t) (regular : determinantOf curvature.manifold.dimension (entry t) ≠ 0)
    (minusHalf : ∀ s, wp (engine.number (-1) 2) (fun ref _ => value ref = some c) (fun _ _ => True) s) :
    Means value result (c • density (killing f) (manifoldDual root curvature.manifold t) F F) ∧
      (killing f = 0 ∨ Symmetric curvature.manifold.dimension (entry t)) := by
  obtain ⟨world, l, holds, yields⟩ := call
  exact (publishes_yangMillsLagrangian exact sound components regular (holds.carries means) holds.shape.2.1
    (holds.shape.1.symm ▸ constants) minusHalf).yields yields

theorem strength_variation {s : Finset Nat} {δ : Nat → Derivation ℤ K K} {f : Fin n → Fin n → Fin n → K} (lie : IsLie f)
    (square : ∀ i j x, δ i (δ j x) = δ j (δ i x)) (structural : ∀ a b c, ∀ i ∈ s, δ i (f a b c) = 0) {g h ε : K}
    (half : g = 2 * h) (constant : ∀ i ∈ s, δ i g = 0) (still : ∀ i ∈ s, δ i ε = 0) {A φ : Fin n → Finset Nat → K}
    (connection : Graded 1 A) (function : Graded 0 φ) :
    strength s δ f h (A + ε • covariant s δ f g A φ) = strength s δ f h A + ε • (g • bracket f (strength s δ f h A) φ) +
      ε ^ 2 • (h • bracket f (covariant s δ f g A φ) (covariant s δ f g A φ)) := by
  have direction : Graded 1 (covariant s δ f g A φ) := (function.derive s δ).add ((connection.bracket f function).smul g)
  rw [strength_line lie connection direction still, ← half,
    covariant_covariant lie square structural half constant connection function]

theorem density_variation {f : Fin n → Fin n → Fin n → K} (lie : IsLie f) (star : (Finset Nat → K) →ₗ[K] (Finset Nat → K))
    {φ : Fin n → Finset Nat → K} (ζ : Fin n → Finset Nat → K) (function : Graded 0 φ) (g ε : K)
    (symmetric : killing f = 0 ∨ ∀ a b, wedge (F a) (star (F b)) = wedge (F b) (star (F a))) :
    let η := g • bracket f F φ
    let G := F + ε • η + ε ^ 2 • ζ
    density (killing f) star G G = density (killing f) star F F +
      ε ^ 2 • (density (killing f) star η η + density (killing f) star F ζ + density (killing f) star ζ F) +
      ε ^ 3 • (density (killing f) star η ζ + density (killing f) star ζ η) + ε ^ 4 • density (killing f) star ζ ζ := by
  intro η G
  have linear : density (killing f) star η F + density (killing f) star F η = 0 := by
    rcases symmetric with flat | symmetric
    · have nothing (α β : Fin n → Finset Nat → K) : density (killing f) star α β = 0 := by
        rw [flat]
        exact Finset.sum_eq_zero (fun a _ => Finset.sum_eq_zero (fun b _ => zero_smul _ _))
      rw [nothing, nothing, add_zero]
    · obtain ⟨left, right⟩ := density_action star lie function symmetric
      rw [density_smul_left, density_smul_right, left, right, smul_zero, add_zero]
  rw [density_path, linear, smul_zero, add_zero]

def Quotients (engine : Placed State Ref) (value : Ref → Option K) : Prop :=
  ∀ (num den : Int) s, 0 < den → wp (engine.number num den) (fun ref _ => value ref = some ((num : K) / den))
    (fun _ _ => True) s

omit [DecidableEq Ref] [CharZero K] in
theorem Steady.range {manifold : Manifold Ref} {chartIndex : Nat} {k : K} (steady : Steady partialBy manifold chartIndex k) :
    ∀ axis ∈ Finset.range manifold.dimension, axisPartials partialBy manifold chartIndex axis k = 0 :=
  fun axis member => steady axis (Finset.mem_range.mp member)

section Connections

variable (exact : Exact engine.toCas value partialBy) (sound : Sound engine.toEngine value root mayStop)
  (quotients : Quotients engine value)
  (commute : ∀ first second x, partialBy first (partialBy second x) = partialBy second (partialBy first x))
  {f : Fin n → Fin n → Fin n → K} {connection : LieField Ref n} {coupling : Ref} {g : K} {A : Fin n → Finset Nat → K}
  (gauged : Gauged engine value (Steady partialBy) connection f coupling g) (means : LieMeans value connection A)

/-- Half of the coupling. -/
abbrev halved (g : K) : K := ((1 : Int) : K) / ((2 : Int) : K) * g

omit [DecidableEq Ref] in
theorem two_halved (g : K) : g = 2 * halved g := by
  push_cast
  ring

abbrev LieField.covariant (partialBy : Ref → Derivation ℤ K K) (connection : LieField Ref n) (f : Fin n → Fin n → Fin n → K)
    (g : K) (A ω : Fin n → Finset Nat → K) : Fin n → Finset Nat → K :=
  Lib.LieForms.covariant (Finset.range connection.manifold.dimension)
    (axisPartials partialBy connection.manifold connection.chartIndex) f g A ω

abbrev LieField.strength (partialBy : Ref → Derivation ℤ K K) (connection : LieField Ref n) (f : Fin n → Fin n → Fin n → K)
    (g : K) (A : Fin n → Finset Nat → K) : Fin n → Finset Nat → K :=
  Lib.LieForms.strength (Finset.range connection.manifold.dimension)
    (axisPartials partialBy connection.manifold connection.chartIndex) f (halved g) A

include exact quotients commute gauged means

theorem bianchi_vanishes {residual : LieField Ref n} (call : Bianchis engine connection coupling residual) :
    LieMeans value residual 0 := by
  have known := call.known exact gauged.coupling (fun s => quotients 1 2 s (by decide)) gauged.constants means
  rwa [bianchi (gauged.accepted.isLie exact.deciding gauged.constants) (axisPartials_comm commute _ _)
    (fun a b c => (gauged.structural a b c).range) (two_halved g) gauged.admitted.range (call.degree ▸ means.graded)] at known

variable {curvature : LieField Ref n}

theorem covariates_twice {field once again product : LieField Ref n} {ω : Fin n → Finset Nat → K}
    (means' : LieMeans value field ω) (first : Covariates engine connection coupling field once)
    (second : Covariates engine connection coupling once again) (strengthens : Strengthens engine connection coupling curvature)
    (brackets : Brackets engine curvature field product) :
    ∃ η, LieMeans value product η ∧ LieMeans value again (g • η) := by
  have known := (first.known exact gauged.coupling gauged.constants means means').2
  have known' := (second.known exact gauged.coupling gauged.constants means known).2
  obtain ⟨shape, strong⟩ := strengthens.known exact gauged.coupling (fun s => quotients 1 2 s (by decide)) gauged.constants means
  have whole := (brackets.known exact (shape.1.symm ▸ gauged.constants) strong means').2
  have squared := covariant_covariant (gauged.accepted.isLie exact.deciding gauged.constants)
    (axisPartials_comm commute connection.manifold connection.chartIndex) (fun a b c => (gauged.structural a b c).range)
    (two_halved g) gauged.admitted.range (first.beside.2 ▸ means.graded) means'.graded
  exact ⟨_, whole, squared ▸ known'⟩

variable {parameter direction : LieField Ref n} {φ : Fin n → Finset Nat → K} (means' : LieMeans value parameter φ)
  (varies : VariesConnection engine connection coupling parameter direction)
include means' varies

theorem moved_strength {factor : Ref} {ε : K} {scaled moved : LieField Ref n} (denotes : value factor = some ε)
    (still : Steady partialBy connection.manifold connection.chartIndex ε) (scales : LieScales engine factor direction scaled)
    (sums : LieSums engine connection scaled moved) (strengthens : Strengthens engine moved coupling curvature) :
    (curvature.algebra = connection.algebra ∧ curvature.manifold = connection.manifold) ∧
      LieMeans value curvature (connection.strength partialBy f g A +
        ε • (g • bracket f (connection.strength partialBy f g A) φ) +
        ε ^ 2 • (halved g • bracket f (connection.covariant partialBy f g A φ) (connection.covariant partialBy f g A φ))) := by
  obtain ⟨covariates, function⟩ := varies.covariates
  have known := (covariates.known exact gauged.coupling gauged.constants means means').2
  have known' := (scales.known exact known denotes).2
  obtain ⟨⟨algebra, manifold, chart, -⟩, known''⟩ := sums.known exact means known'
  obtain ⟨shape, strong⟩ := strengthens.known exact gauged.coupling (fun s => quotients 1 2 s (by decide))
    (algebra.symm ▸ gauged.constants) known''
  refine ⟨⟨shape.1.trans algebra, shape.2.1.trans manifold⟩, ?_⟩
  rw [manifold, chart] at strong
  have along := strength_variation (gauged.accepted.isLie exact.deciding gauged.constants)
    (axisPartials_comm commute connection.manifold connection.chartIndex) (fun a b c => (gauged.structural a b c).range)
    (two_halved g) gauged.admitted.range still.range (covariates.beside.2 ▸ means.graded) (function ▸ means'.graded)
  exact along ▸ strong

include sound

theorem lagrangian_varies {metric : Tensor Ref} {t : List Nat → K} {density : Form Ref}
    (components : TensorMeans value metric t) (regular : determinantOf connection.manifold.dimension (entry t) ≠ 0)
    (strengthens : Strengthens engine connection coupling curvature) (weighs : Weighs engine curvature metric density) :
    ∃ ρ₀ ρ₂ ρ₃ ρ₄, Means value density ρ₀ ∧
      ∀ {factor ε scaled moved curvature' density'}, value factor = some ε →
        Steady partialBy connection.manifold connection.chartIndex ε → LieScales engine factor direction scaled →
          LieSums engine connection scaled moved → Strengthens engine moved coupling curvature' →
            Weighs engine curvature' metric density' → Means value density' (ρ₀ + ε ^ 2 • ρ₂ + ε ^ 3 • ρ₃ + ε ^ 4 • ρ₄) := by
  have minusHalf (s : State) := quotients (-1) 2 s (by decide)
  have lie := gauged.accepted.isLie exact.deciding gauged.constants
  obtain ⟨shape, strong⟩ := strengthens.known exact gauged.coupling (fun s => quotients 1 2 s (by decide)) gauged.constants means
  obtain ⟨weighed, symmetric⟩ := weighs.known exact sound strong (shape.1.symm ▸ gauged.constants) components
    (shape.2.1.symm ▸ regular) minusHalf
  have even : killing f = 0 ∨ ∀ a b, wedge (connection.strength partialBy f g A a)
      (manifoldDual root curvature.manifold t (connection.strength partialBy f g A b)) =
      wedge (connection.strength partialBy f g A b)
        (manifoldDual root curvature.manifold t (connection.strength partialBy f g A a)) :=
    symmetric.imp id (wedge_manifoldDual strong)
  rw [shape.2.1] at weighed even
  let star := manifoldDual root connection.manifold t
  let F := connection.strength partialBy f g A
  let η := g • bracket f F φ
  let ζ := halved g • bracket f (connection.covariant partialBy f g A φ) (connection.covariant partialBy f g A φ)
  let c : K := ((-1 : Int) : K) / ((2 : Int) : K)
  refine ⟨_, c • (Lib.LieForms.density (killing f) star η η + Lib.LieForms.density (killing f) star F ζ +
    Lib.LieForms.density (killing f) star ζ F),
    c • (Lib.LieForms.density (killing f) star η ζ + Lib.LieForms.density (killing f) star ζ η),
    c • Lib.LieForms.density (killing f) star ζ ζ, weighed, ?_⟩
  intro factor ε scaled moved curvature' density' denotes still scales sums strengthens' weighs'
  obtain ⟨⟨algebra, manifold⟩, strong'⟩ := moved_strength exact quotients commute gauged means means' varies denotes still
    scales sums strengthens'
  have weighed' := (weighs'.known exact sound strong' (algebra.symm ▸ gauged.constants) components
    (manifold.symm ▸ regular) minusHalf).1
  have along := density_variation lie star ζ (varies.covariates.2 ▸ means'.graded) g ε even
  rw [manifold, along, smul_add, smul_add, smul_add, smul_comm c, smul_comm c, smul_comm c] at weighed'
  exact weighed'

end Connections

theorem connectionLaws (exact : Exact engine.toCas value partialBy)
    (quotients : Quotients engine value)
    (commute : ∀ first second x, partialBy first (partialBy second x) = partialBy second (partialBy first x)) :
    ConnectionLaws engine value partialBy (Steady partialBy) where
  bianchi gauged means call := bianchi_vanishes exact quotients commute gauged means call
  square gauged means means' first second strengthens brackets :=
    covariates_twice exact quotients commute gauged means means' first second strengthens brackets
  curvature {n f connection parameter direction curvature variation coupling g A φ} gauged means means' varies strengthens
      varies' := by
    obtain ⟨shape, strong⟩ := strengthens.known exact gauged.coupling (fun s => quotients 1 2 s (by decide))
      gauged.constants means
    have varied := varies'.known exact gauged.coupling (shape.1.symm ▸ gauged.constants) strong means'
    exact ⟨connection.strength partialBy f g A, g • bracket f (connection.strength partialBy f g A) φ, _, strong, varied,
      fun denotes still scales sums strengthens' =>
        (moved_strength exact quotients commute gauged means means' varies denotes still scales sums strengthens').2⟩

/-- The Yang-Mills operations obey their identities when the coupling and the structure constants are constants. -/
theorem yang_mills_identities (exact : Exact engine.toCas value partialBy) (sound : Sound engine.toEngine value root mayStop)
    (quotients : Quotients engine value)
    (commute : ∀ first second x, partialBy first (partialBy second x) = partialBy second (partialBy first x)) :
    YangMillsLaws engine value partialBy (Steady partialBy) :=
  ⟨bracketLaws exact, connectionLaws exact quotients commute,
    ⟨fun gauged means means' components regular varies strengthens weighs =>
      lagrangian_varies exact sound quotients commute gauged means means' varies components regular strengthens weighs⟩⟩

end Laws

/-- The complex numbers as an engine at an address. -/
noncomputable def placedConstants : Placed Unit ℂ := ⟨constants 0, 0⟩

/-- The identities at the engine of complex numbers. -/
theorem yang_mills_identities_of_constants :
    YangMillsLaws placedConstants some (fun _ => 0) (Steady (fun _ : ℂ => (0 : Derivation ℤ ℂ ℂ))) :=
  yang_mills_identities (constants_exact 0) (constants_sound 0 False) (fun _ _ _ _ => rfl) (fun _ _ _ => rfl)

section Returned

variable [CommRing K] {value : Ref → Option K}

variable {world : World State Ref}

theorem LiePublishes.draft {after : World State Ref} {call : Geometry State Ref (LieForm Ref)} {like form : LieForm Ref}
    {degree : Nat} {ω : Fin n → Finset Nat → K} (publishes : LiePublishes value world call like degree ω)
    (run : call world = .ok form after) : Draft value world like degree ω form after := (wp_of_ok run).mp publishes

theorem Draft.field {after : World State Ref} {like form : LieForm Ref} {degree : Nat} {ω : Fin n → Finset Nat → K}
    (draft : Draft value world like degree ω form after) (sized : like.algebra.dimension = n) :
    ∃ result : LieField Ref n, Holds after form result ∧ LieMeans value result ω := by
  obtain ⟨algebra, manifold, chart, same⟩ := draft.shape
  choose component lives fits means using draft.filled.filled
  exact ⟨⟨form.algebra, form.manifold, form.chartIndex, form.degree, component, algebra ▸ sized, fits⟩,
    ⟨⟨rfl, rfl, rfl, rfl⟩, lives⟩, means⟩

theorem valueOf_bind {α β : Type} {call : Geometry State Ref α} {next : α → Geometry State Ref β}
    {b : β} (returned : valueOf (call >>= next) world = some b) :
    ∃ a after, call world = .ok a after ∧ valueOf (next a) after = some b := by
  have sequence : (call >>= next) world = EStateM.bind call next world := rfl
  unfold valueOf at returned
  rw [sequence, EStateM.bind] at returned
  cases run : call world with
  | ok a after =>
    rw [run] at returned
    exact ⟨a, after, rfl, returned⟩
  | error status after =>
    rw [run] at returned
    cases returned

end Returned

theorem exists_means [CommRing K] {value : Ref → Option K} (total : ∀ ref, ∃ k, value ref = some k) (form : Form Ref)
    (zero : value form.zero = some 0) : ∃ α, Means value form α := by
  choose denotation denotes using total
  refine ⟨fun I => if I ∈ (Finset.range form.dimension).powersetCard form.degree then
    denotation (form.componentAt ((combinationIndex form.dimension form.degree (increasing I)).getD 0)) else 0,
    zero, fun position inside => ?_, fun I outside => if_neg outside⟩
  have found := combinationIndex_at form.dimension (Finset.mem_range.mpr (Nat.lt_succ_of_le form.manifold.small)) form.degree
    (Finset.mem_range.mpr (Nat.lt_succ_of_le form.graded)) position (Finset.mem_range.mpr inside)
  rw [if_pos (combinationAt_mem form.manifold.small form.graded inside),
    increasing_combinationAt form.manifold.small form.graded inside, found]
  exact denotes _

/-- The algebra of two generators with `[e₀, e₁] = e₁`. -/
def affine : LieAlgebra Poly where
  address := 0
  cas := 0
  ir := 0
  name := 0
  dimension := 2
  basis := [3, 4]
  constants := [[], [], [], [(1, [])], [], [(-1, [])], [], []]
  positive := by decide
  small := by decide
  named := rfl
  counted := rfl

/-- The plane with the coordinates `x` and `y`, the symbols 1 and 2. -/
def chartedPlane : Manifold Poly where
  address := 0
  ir := 0
  dimension := 2
  orientation := .positive
  signature := [1, 1]
  charts := [⟨1, [Poly.symbol 1, Poly.symbol 2]⟩]
  zero := []
  small := Geom.plane.small
  positive := Geom.plane.positive
  signed := Geom.plane.signed
  charted := by decide

def planeFunction (p : Poly) : Form Poly := ⟨chartedPlane, 0, 0, [p], by decide, by decide, (by decide : 1 = geomBinomial 2 0)⟩

def planeOneForm (p q : Poly) : Form Poly :=
  ⟨chartedPlane, 0, 1, [p, q], by decide, by decide, (by decide : 2 = geomBinomial 2 1)⟩

/-- The connection `dy e₀` and the function `e₁`. -/
def affineConnection : LieField Poly 2 :=
  ⟨affine, chartedPlane, 0, 1, ![planeOneForm [] [(1, [])], planeOneForm [] []], rfl, by decide⟩

def affineFunction : LieField Poly 2 :=
  ⟨affine, chartedPlane, 0, 0, ![planeFunction [], planeFunction [(1, [])]], rfl, by decide⟩

def affineEngine : Placed Nat Poly := ⟨halves 0, 0⟩

def affineWorld : World Nat Poly := ⟨1000, ⟨fun _ => true, 0⟩,
  [some (planeOneForm [] [(1, [])]), some (planeOneForm [] []), some (planeFunction []), some (planeFunction [(1, [])])]⟩

def firstComponent (world : World Nat Poly) (address : Nat) : Poly := ((world.form address).map (·.componentAt 0)).getD []

/-- The second covariant derivative and the bracket with the field strength, with the coupling `x`. -/
def affineProgram (connection function : LieForm Poly) : Geometry Nat Poly (List Poly) := do
  let once ← yangMillsCovariantDerivative affineEngine connection (Poly.symbol 1) function
  let twice ← yangMillsCovariantDerivative affineEngine connection (Poly.symbol 1) once
  let curvature ← yangMillsFieldStrength affineEngine connection (Poly.symbol 1)
  let product ← lieFormBracketWedge affineEngine curvature function
  let world ← get
  pure [firstComponent world (twice.componentAt 1), firstComponent world (product.componentAt 1)]

def affineForm (degree first : Nat) : LieForm Poly := ⟨affine, chartedPlane, 0, degree, [first, first + 1]⟩

noncomputable def affineTable (a b c : Fin 2) : Lib.RationalFunctions.RationalFunction Nat :=
  halvesMap (Poly.eval ((lieStructureConstant affine a b c).getD []))

theorem affine_constants : Constants halvesValue affine affineTable := by
  have total : ∀ a b c : Fin 2, (lieStructureConstant affine a b c).isSome = true := by decide
  refine ⟨rfl, fun a b c => ?_⟩
  obtain ⟨constant, found⟩ := Option.isSome_iff_exists.mp (total a b c)
  refine ⟨constant, found, ?_⟩
  unfold affineTable
  rw [found]
  rfl

theorem affine_accepted : Accepted affineEngine.toCas affine := by
  have returned : valueOf (lieAlgebraValidate affineEngine.toCas affine) 1000 = some () := by decide +kernel
  unfold valueOf at returned
  cases run : lieAlgebraValidate affineEngine.toCas affine 1000 with
  | ok value after => exact ⟨1000, after, run⟩
  | error status after =>
    rw [run] at returned
    cases returned

theorem affine_quotients : Quotients affineEngine halvesValue := by
  intro num den s _
  refine wp_spend s (fun result same => ?_)
  split_ifs at same with one two
  · rw [Except.ok.injEq] at same
    rw [← same, halvesValue, eval_int, map_intCast, one, Int.cast_one, div_one]
  · rw [Except.ok.injEq] at same
    rw [← same, halvesValue, halvesMap_half, two]
    rfl

theorem halvesValue_total (p : Poly) : halvesValue p = some (halvesMap (Poly.eval p)) := rfl

theorem affine_means (field : LieField Poly 2) (zero : field.manifold.zero = []) : ∃ ω, LieMeans halvesValue field ω := by
  have vanishes (a : Fin 2) : halvesValue (field.component a).zero = some 0 := by
    unfold Form.zero
    rw [(field.shaped a).1, zero, halvesValue_total, Poly.eval_nil, map_zero]
  have means (a : Fin 2) := exists_means (fun ref => ⟨_, halvesValue_total ref⟩) (field.component a) (vanishes a)
  choose ω known using means
  exact ⟨ω, known⟩

theorem affineProgram_returns : valueOf (affineProgram (affineForm 1 0) (affineForm 0 2)) affineWorld =
    some [[(1, [])], []] := by decide +kernel

theorem affineConnection_holds : Holds affineWorld (affineForm 1 0) affineConnection :=
  ⟨⟨rfl, rfl, rfl, rfl⟩, fun a => by fin_cases a <;> rfl⟩

theorem affineFunction_holds : Holds affineWorld (affineForm 0 2) affineFunction :=
  ⟨⟨rfl, rfl, rfl, rfl⟩, fun a => by fin_cases a <;> rfl⟩

theorem firstComponent_means {world : World Nat Poly} {form : LieForm Poly} {field : LieField Poly 2}
    {ω : Fin 2 → Finset Nat → Lib.RationalFunctions.RationalFunction Nat} (holds : Holds world form field)
    (means : LieMeans halvesValue field ω) (plane : field.manifold = chartedPlane) (top : field.degree = 2) (a : Fin 2) :
    halvesMap (Poly.eval (firstComponent world (form.componentAt a))) = ω a (combinationAt 2 2 0).toFinset := by
  obtain ⟨manifold, -, degree⟩ := field.shaped a
  have dimension : (field.component a).dimension = 2 := by
    unfold Form.dimension
    rw [manifold, plane]
    rfl
  have known := (means a).components 0 (by
    unfold Form.count
    rw [dimension, degree, top]
    decide)
  rw [dimension, degree, top] at known
  unfold firstComponent
  rw [holds.components a]
  exact Option.some.inj known

theorem affineProgram_calls {connection function : LieForm Poly} {world : World Nat Poly} {b : List Poly}
    (returned : valueOf (affineProgram connection function) world = some b) :
    ∃ once w₁ twice w₂ curvature w₃ product w₄,
      yangMillsCovariantDerivative affineEngine connection (Poly.symbol 1) function world = .ok once w₁ ∧
      yangMillsCovariantDerivative affineEngine connection (Poly.symbol 1) once w₁ = .ok twice w₂ ∧
      yangMillsFieldStrength affineEngine connection (Poly.symbol 1) w₂ = .ok curvature w₃ ∧
      lieFormBracketWedge affineEngine curvature function w₃ = .ok product w₄ ∧
      [firstComponent w₄ (twice.componentAt 1), firstComponent w₄ (product.componentAt 1)] = b := by
  unfold affineProgram at returned
  obtain ⟨once, w₁, run₁, returned⟩ := valueOf_bind returned
  obtain ⟨twice, w₂, run₂, returned⟩ := valueOf_bind returned
  obtain ⟨curvature, w₃, run₃, returned⟩ := valueOf_bind returned
  obtain ⟨product, w₄, run₄, returned⟩ := valueOf_bind returned
  exact ⟨once, w₁, twice, w₂, curvature, w₃, product, w₄, run₁, run₂, run₃, run₄, Option.some.inj returned⟩

theorem affine_calls : ∃ once twice curvature product : LieField Poly 2,
    Covariates affineEngine affineConnection (Poly.symbol 1) affineFunction once ∧
      Covariates affineEngine affineConnection (Poly.symbol 1) once twice ∧
        Strengthens affineEngine affineConnection (Poly.symbol 1) curvature ∧
          Brackets affineEngine curvature affineFunction product ∧
            ∃ world l r, Holds world l twice ∧ Holds world r product ∧
              [firstComponent world (l.componentAt 1), firstComponent world (r.componentAt 1)] = [[(1, [])], []] := by
  have exact : Exact affineEngine.toCas halvesValue halvesPartial := halves_exact 0
  have half (s : Nat) := affine_quotients 1 2 s (by decide)
  obtain ⟨A, meansA⟩ := affine_means affineConnection rfl
  obtain ⟨ω, meansω⟩ := affine_means affineFunction rfl
  have coupling := halvesValue_total (Poly.symbol 1)
  obtain ⟨once, w₁, twice, w₂, curvature, w₃, product, w₄, run₁, run₂, run₃, run₄, stored⟩ :=
    affineProgram_calls affineProgram_returns
  have draft₁ := (publishes_yangMillsCovariantDerivative exact (affineConnection_holds.carries meansA)
    (affineFunction_holds.carries meansω) affine_constants coupling).draft run₁
  obtain ⟨onceField, holds₁, means₁⟩ := draft₁.field rfl
  have holdsA₁ := affineConnection_holds.extended draft₁.fresh.extends
  have draft₂ := (publishes_yangMillsCovariantDerivative exact (holdsA₁.carries meansA)
    (holds₁.carries means₁) affine_constants coupling).draft run₂
  obtain ⟨twiceField, holds₂, means₂⟩ := draft₂.field (congrArg LieAlgebra.dimension draft₁.shape.1)
  have holdsA₂ := holdsA₁.extended draft₂.fresh.extends
  have draft₃ := (publishes_yangMillsFieldStrength exact half (holdsA₂.carries meansA) affine_constants
    coupling).draft run₃
  obtain ⟨curvatureField, holds₃, means₃⟩ := draft₃.field rfl
  have holdsω₃ := ((affineFunction_holds.extended draft₁.fresh.extends).extended draft₂.fresh.extends).extended
    draft₃.fresh.extends
  have constants : Constants halvesValue curvature.algebra affineTable := draft₃.shape.1.symm ▸ affine_constants
  have draft₄ := (publishes_lieFormBracketWedge exact (holds₃.carries means₃) (holdsω₃.carries meansω)
    constants).draft run₄
  obtain ⟨productField, holds₄, -⟩ := draft₄.field (congrArg LieAlgebra.dimension draft₃.shape.1)
  exact ⟨onceField, twiceField, curvatureField, productField,
    ⟨_, _, _, affineConnection_holds, affineFunction_holds, once, w₁, run₁, holds₁⟩,
    ⟨_, _, _, holdsA₁, holds₁, twice, w₂, run₂, holds₂⟩, ⟨_, _, holdsA₂, curvature, w₃, run₃, holds₃⟩,
    ⟨_, _, _, holds₃, holdsω₃, product, w₄, run₄, holds₄⟩, w₄, twice, product,
    (holds₂.extended draft₃.fresh.extends).extended draft₄.fresh.extends, holds₄, stored⟩

/-- With the coupling `x` the second covariant derivative of `e₁` along `dy e₀` is `dx ∧ dy e₁`, although the field
strength vanishes. -/
theorem identities_need_constants : ¬∀ (engine : Placed Nat Poly)
    (value : Poly → Option (Lib.RationalFunctions.RationalFunction Nat))
    (partialBy : Poly → Derivation ℤ (Lib.RationalFunctions.RationalFunction Nat) (Lib.RationalFunctions.RationalFunction Nat)),
    Exact engine.toCas value partialBy → Quotients engine value →
      (∀ first second x, partialBy first (partialBy second x) = partialBy second (partialBy first x)) →
        ConnectionLaws engine value partialBy (fun _ _ _ => True) := by
  intro always
  have exact : Exact affineEngine.toCas halvesValue halvesPartial := halves_exact 0
  have half (s : Nat) := affine_quotients 1 2 s (by decide)
  have coupling := halvesValue_total (Poly.symbol 1)
  have laws := always affineEngine halvesValue halvesPartial exact affine_quotients halvesPartial_comm
  obtain ⟨A, meansA⟩ := affine_means affineConnection rfl
  obtain ⟨ω, meansω⟩ := affine_means affineFunction rfl
  have gauged : Gauged affineEngine halvesValue (fun _ _ _ => True) affineConnection affineTable (Poly.symbol 1)
      (halvesMap (Poly.eval (Poly.symbol 1))) :=
    ⟨affine_accepted, affine_constants, coupling, trivial, fun _ _ _ => trivial⟩
  obtain ⟨once, twice, curvature, product, first, second, strengthens, brackets, world, l, r, holds, holds', stored⟩ :=
    affine_calls
  obtain ⟨η, known, known'⟩ := laws.square gauged meansA meansω first second strengthens brackets
  obtain ⟨shape, means⟩ := first.known exact coupling affine_constants meansA meansω
  obtain ⟨⟨-, plane, -, top⟩, -⟩ := second.known exact coupling affine_constants meansA means
  obtain ⟨shape', strong⟩ := strengthens.known exact coupling half affine_constants meansA
  have constants : Constants halvesValue curvature.algebra affineTable := shape'.1.symm ▸ affine_constants
  obtain ⟨⟨-, plane', -, top'⟩, -⟩ := brackets.known exact constants strong meansω
  have left := firstComponent_means holds known' plane (top.trans (congrArg (· + 1) shape.2.2.2)) 1
  have right := firstComponent_means holds' known (plane'.trans shape'.2.1) (top'.trans (congrArg (· + 0) shape'.2.2.2)) 1
  rw [List.cons.injEq, List.cons.injEq] at stored
  have one : firstComponent world (l.componentAt (1 : Fin 2)) = [(1, [])] := stored.1
  have none : firstComponent world (r.componentAt (1 : Fin 2)) = [] := stored.2.1
  rw [one, Pi.smul_apply, Pi.smul_apply, eval_constant] at left
  rw [none, Poly.eval_nil, map_zero] at right
  rw [← right, smul_zero, Int.cast_one, map_one, map_one] at left
  exact one_ne_zero left

end PhyNspire.Qft

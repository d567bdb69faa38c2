import PhyNspire.Qft.LieFields

/-!
What the operations on Lie forms compute. An operation is followed by the family of
components that its result denotes so far; every replacement of a component updates
one member of the family.
-/

namespace PhyNspire.Qft
open Platform Cas Tensor Geom Lib.Stateful Lib.Exterior Lib.LieForms

variable {State Ref K : Type} [CommRing K] {n : Nat} {value : Ref → Option K}

/-- A Lie form in memory that denotes `ω`. -/
structure Carries (value : Ref → Option K) (world : World State Ref) (form : LieForm Ref) (ω : Fin n → Finset Nat → K) :
    Prop where
  sized : form.algebra.dimension = n
  carried : ∀ a : Fin n, ∃ component, world.form (form.componentAt a) = some component ∧ form.Fits component ∧
    Means value component (ω a)

/-- A fresh Lie form in the shape of another, which denotes `ω`. -/
structure Draft (value : Ref → Option K) (world : World State Ref) (like : LieForm Ref) (degree : Nat)
    (ω : Fin n → Finset Nat → K) (form : LieForm Ref) (after : World State Ref) : Prop where
  fresh : Fresh world after form
  shape : form.Shape like.algebra like.manifold like.chartIndex degree
  filled : Filled after form (fun a component => Means value component (ω a))

/-- A call that returns a fresh Lie form, or changes no form. -/
def LiePublishes (value : Ref → Option K) (world : World State Ref) (call : Geometry State Ref (LieForm Ref))
    (like : LieForm Ref) (degree : Nat) (ω : Fin n → Finset Nat → K) : Prop :=
  wp call (Draft value world like degree ω) (fun _ after => Untouched world after) world

variable {after : World State Ref}

theorem Carries.extended {world : World State Ref} {form : LieForm Ref} {ω : Fin n → Finset Nat → K}
    (carries : Carries value world form ω) (kept : Extends world after) : Carries value after form ω :=
  ⟨carries.sized, fun a => by
    obtain ⟨component, lives, known⟩ := carries.carried a
    exact ⟨component, kept _ _ lives, known⟩⟩

theorem Carries.zero {world : World State Ref} {form : LieForm Ref} {ω : Fin n → Finset Nat → K}
    (carries : Carries value world form ω) : value form.manifold.zero = some 0 := by
  obtain ⟨component, -, fits, means⟩ := carries.carried ⟨0, carries.sized ▸ form.algebra.positive⟩
  have zero := means.zero
  unfold Form.zero at zero
  rwa [fits.1] at zero

variable {like : LieForm Ref} {degree : Nat}

theorem Draft.carries {world : World State Ref} {form : LieForm Ref}
    {ω : Fin n → Finset Nat → K} (draft : Draft value world like degree ω form after)
    (sized : like.algebra.dimension = n) : Carries value after form ω :=
  ⟨draft.shape.1 ▸ sized, draft.filled.filled⟩

theorem wp_replaceComponent {world : World State Ref} {form : LieForm Ref}
    {ω : Fin n → Finset Nat → K} (draft : Draft value world like degree ω form after) (basis : Fin n)
    {call : Geometry State Ref Nat} (η : Finset Nat → K)
    (publishes : Publishes after call (fun component => form.Fits component ∧ Means value component η)) :
    wp (replaceComponent form basis call) (Draft value world like degree (Function.update ω basis η))
      (fun _ later => Untouched world later) after := by
  unfold replaceComponent
  rw [wp_bind, wp_abandoning]
  refine wp_mono publishes ?_ (fun _ later same => draft.fresh.destroyed same)
  rintro address later ⟨component, adds, fits, means⟩
  rw [wp_bind, wp_modify, wp_pure]
  obtain ⟨fresh, filled⟩ := draft.fresh.replaced draft.filled adds (Means value · η) fits means
  refine ⟨fresh, draft.shape, filled.sized, fun a => ?_⟩
  obtain ⟨other, lives, fits', held⟩ := filled.filled a
  refine ⟨other, lives, fits', ?_⟩
  by_cases same : a = basis
  · rw [if_pos same] at held
    rw [same, Function.update_self]
    exact held
  · rw [if_neg same] at held
    rw [Function.update_of_ne same]
    exact held

theorem publishes_lieFormCreate (sized : like.algebra.dimension = n)
    (zero : value like.manifold.zero = some 0) (degree : Nat) (world : World State Ref) :
    LiePublishes value world (lieFormCreate like.algebra like.manifold like.chartIndex degree) like degree
      (0 : Fin n → Finset Nat → K) := by
  refine wp_good (wp_lieFormCreate sized like.manifold like.chartIndex degree world) ?_
  rintro form after ⟨fresh, shape, filled⟩
  refine ⟨fresh, shape, filled.sized, fun a => ?_⟩
  obtain ⟨component, lives, fits, blank⟩ := filled.filled a
  have vanishes : value component.zero = some 0 := by
    unfold Form.zero
    rw [fits.1, shape.2.1]
    exact zero
  exact ⟨component, lives, fits, vanishes, fun position _ => by rw [blank]; exact vanishes, fun _ _ => rfl⟩

theorem publishes_lieFormFilled {call : Nat → Geometry State Ref Nat}
    {ω : Fin n → Finset Nat → K} {world : World State Ref} (sized : like.algebra.dimension = n)
    (zero : value like.manifold.zero = some 0)
    (computes : ∀ (a : Fin n) after, Extends world after → Publishes after (call a) (fun component =>
      (component.manifold = like.manifold ∧ component.chartIndex = like.chartIndex ∧ component.degree = degree) ∧
        Means value component (ω a))) :
    LiePublishes value world (lieFormFilled like degree call) like degree ω := by
  unfold LiePublishes lieFormFilled LieForm.dimension
  rw [wp_bind, sized]
  refine wp_good (publishes_lieFormCreate sized zero degree world) fun form after start => ?_
  have loop : wp (countUp (fun basis result => replaceComponent result basis (call basis)) n 0 form)
      (Draft value world like degree (fun a : Fin n => if a.val < 0 + n then ω a else 0))
      (fun _ later => Untouched world later) after := by
    refine wp_countUp (fun done => Draft value world like degree (fun a : Fin n => if a.val < done then ω a else 0)) n 0 form
      after ?_ (fun basis result later _ bound draft => ?_)
    · have none : (fun a : Fin n => if a.val < 0 then ω a else 0) = 0 := funext (fun a => if_neg a.val.not_lt_zero)
      rw [none]
      exact start
    · have inside : basis < n := by omega
      refine wp_good (wp_replaceComponent draft ⟨basis, inside⟩ (ω ⟨basis, inside⟩) ?_) ?_
      · refine (computes ⟨basis, inside⟩ later draft.fresh.extends).mono (fun component known => ⟨?_, known.2⟩)
        exact ⟨known.1.1.trans draft.shape.2.1.symm, known.1.2.1.trans draft.shape.2.2.1.symm,
          known.1.2.2.trans draft.shape.2.2.2.symm⟩
      · intro result later next
        have family : Function.update (fun a : Fin n => if a.val < basis then ω a else 0) ⟨basis, inside⟩ (ω ⟨basis, inside⟩) =
            fun a : Fin n => if a.val < basis + 1 then ω a else 0 := by
          funext a
          by_cases same : a = ⟨basis, inside⟩
          · subst same
            rw [Function.update_self, if_pos (Nat.lt_succ_self basis)]
          · have other : a.val ≠ basis := fun equal => same (Fin.ext equal)
            rw [Function.update_of_ne same]
            exact if_congr (by omega) rfl rfl
        exact family ▸ next
  have full : (fun a : Fin n => if a.val < 0 + n then ω a else 0) = ω := funext (fun a => if_pos (by omega))
  rwa [full] at loop

theorem publishes_scratch {world : World State Ref} {first : Geometry State Ref Nat}
    {second : Nat → Geometry State Ref Nat} {scratch result : Form Ref → Prop} (made : Publishes world first scratch)
    (used : ∀ address form after, Adds world after address form → scratch form → Publishes after (second address) result) :
    Publishes world (first >>= fun address => ensuring (formDestroy address) (second address)) result := by
  unfold Publishes
  refine wp_then made ?_
  rintro address after ⟨form, adds, known⟩
  rw [wp_ensuring]
  refine wp_mono (used address form after adds known) ?_ (fun _ later same => adds.destroyed same)
  rintro named later ⟨form', adds', known'⟩
  exact ⟨form', adds.remains adds', known'⟩

theorem liePublishes_scratch {world : World State Ref} {first : Geometry State Ref (LieForm Ref)}
    {second : LieForm Ref → Geometry State Ref (LieForm Ref)} {like' : LieForm Ref} {degree' : Nat}
    {ω ω' : Fin n → Finset Nat → K} (made : LiePublishes value world first like degree ω)
    (used : ∀ form after, Draft value world like degree ω form after →
      LiePublishes value after (second form) like' degree' ω') :
    LiePublishes value world (first >>= fun form => ensuring (lieFormDestroy form) (second form)) like' degree' ω' := by
  unfold LiePublishes
  refine wp_then made fun scratch after draft => ?_
  rw [wp_ensuring]
  refine wp_mono (used scratch after draft) (fun form later draft' => ?_) (fun _ later same => draft.fresh.destroyed same)
  obtain ⟨fresh, apart⟩ := draft.fresh.remains draft.filled.alive draft'.fresh
  refine ⟨fresh, draft'.shape, draft'.filled.sized, fun a => ?_⟩
  obtain ⟨component, lives, known⟩ := draft'.filled.filled a
  have member : form.componentAt a ∈ form.components := componentAt_mem (draft'.filled.sized ▸ a.isLt)
  refine ⟨component, ?_, known⟩
  unfold lieFormDestroy
  rw [form_destroyComponents, if_neg (apart _ member)]
  exact lives

theorem liePublishes_ite {world : World State Ref} {condition : Prop} [Decidable condition]
    {first second : Geometry State Ref (LieForm Ref)} {ω : Fin n → Finset Nat → K}
    (taken : condition → LiePublishes value world first like degree ω)
    (skipped : ¬condition → LiePublishes value world second like degree ω) :
    LiePublishes value world (if condition then first else second) like degree ω := wp_ite taken skipped

theorem liePublishes_throw (world : World State Ref) (status : Status) (like : LieForm Ref) (degree : Nat)
    (ω : Fin n → Finset Nat → K) : LiePublishes value world (throw status) like degree ω := Untouched.refl world

/-- Differentiation along the axes of a chart. -/
def axisPartials (partialBy : Ref → Derivation ℤ K K) (manifold : Manifold Ref) (chartIndex axis : Nat) :
    Derivation ℤ K K :=
  match manifold.charts[chartIndex]? with
  | some chart => partials partialBy chart axis
  | none => 0

theorem axisPartials_eq (partialBy : Ref → Derivation ℤ K K) {form : LieForm Ref} {component : Form Ref}
    (fits : form.Fits component) :
    partials partialBy component.chart = axisPartials partialBy form.manifold form.chartIndex := by
  funext axis
  have found : form.manifold.charts[form.chartIndex]? = some component.chart := by
    rw [← fits.1, ← fits.2.1]
    exact List.getElem?_eq_getElem component.charted
  unfold axisPartials
  rw [found]

abbrev LieForm.derived (partialBy : Ref → Derivation ℤ K K) (form : LieForm Ref) (ω : Fin n → Finset Nat → K) :
    Fin n → Finset Nat → K :=
  derive (Finset.range form.manifold.dimension) (axisPartials partialBy form.manifold form.chartIndex) ω

theorem update_add_single [DecidableEq (Fin n)] (ω : Fin n → Finset Nat → K) (a : Fin n) (η : Finset Nat → K) :
    Function.update ω a (ω a + η) = ω + Pi.single a η := by
  funext b
  by_cases same : b = a
  · subst same
    rw [Function.update_self, Pi.add_apply, Pi.single_eq_same]
  · rw [Function.update_of_ne same, Pi.add_apply, Pi.single_eq_of_ne same, add_zero]

theorem sum_bracket (f : Fin n → Fin n → Fin n → K) (α β : Fin n → Finset Nat → K) :
    ∑ out, ∑ a, ∑ b, Pi.single (M := fun _ => Finset Nat → K) out (f a b out • wedge (α a) (β b)) = bracket f α β := by
  funext c
  unfold bracket
  rw [Finset.sum_apply, Finset.sum_eq_single c]
  · simp only [Finset.sum_apply, Pi.single_eq_same]
  · intro other _ different
    simp only [Finset.sum_apply, Pi.single_eq_of_ne (Ne.symm different), Finset.sum_const_zero]
  · exact fun missing => absurd (Finset.mem_univ c) missing

theorem LiePublishes.along {world : World State Ref} {call : Geometry State Ref (LieForm Ref)} {like' : LieForm Ref}
    {degree' : Nat} {ω : Fin n → Finset Nat → K} (publishes : LiePublishes value world call like degree ω)
    (shape : like.algebra = like'.algebra ∧ like.manifold = like'.manifold ∧ like.chartIndex = like'.chartIndex ∧
      degree = degree') : LiePublishes value world call like' degree' ω := by
  obtain ⟨algebra, manifold, chart, same⟩ := shape
  exact wp_good publishes fun form after draft => ⟨draft.fresh, ⟨draft.shape.1.trans algebra, draft.shape.2.1.trans manifold,
    draft.shape.2.2.1.trans chart, draft.shape.2.2.2.trans same⟩, draft.filled⟩

theorem liePublishes_scalar {α : Type} {world : World State Ref} {program : EStateM Status State α}
    {next : α → Geometry State Ref (LieForm Ref)} {ω : Fin n → Finset Nat → K}
    (held : wp program (fun result session => LiePublishes value { world with session := session } (next result) like degree ω)
      (fun _ _ => True) world.session) : LiePublishes value world (Geom.scalar program >>= next) like degree ω := by
  unfold LiePublishes
  rw [wp_bind, Geom.wp_scalar]
  refine wp_mono held (fun result session publishes => ?_) (fun _ _ _ => Untouched.refl world)
  exact wp_good publishes fun form after draft => ⟨⟨draft.fresh.fresh, draft.fresh.distinct, draft.fresh.kept⟩, draft.shape,
    draft.filled⟩

section Exact

variable [DecidableEq Ref] {engine : Placed State Ref} {partialBy : Ref → Derivation ℤ K K}
  (exact : Exact engine.toCas value partialBy)
include exact

theorem publishes_addScaledWedge {world : World State Ref} {sum left right : Nat} {s l r : Form Ref}
    {σ α β : Finset Nat → K} {factor : Ref} {k : K} (lives : world.form sum = some s) (lives' : world.form left = some l)
    (lives'' : world.form right = some r) (first : Means value s σ) (second : Means value l α) (third : Means value r β)
    (denotes : value factor = some k) :
    Publishes world (addScaledWedge engine sum left right factor)
      (fun result => s.Like s.degree result ∧ Means value result (σ + k • wedge α β)) := by
  unfold addScaledWedge
  refine publishes_scratch (publishes_formWedge exact lives' lives'' second third) (fun address form after adds known => ?_)
  refine publishes_scratch (publishes_formScale exact adds.2.1 known.2 denotes) (fun address' form' after' adds' known' => ?_)
  have sums := publishes_combine exact (adds'.lives (adds.lives lives)) adds'.2.1 first known'.2 false
  simp only [Bool.false_eq_true, if_false] at sums
  exact sums

variable {world : World State Ref} {left right form : LieForm Ref} {α β ω : Fin n → Finset Nat → K}

theorem publishes_lieFormAdd (first : Carries value world left α) (second : Carries value world right β) :
    LiePublishes value world (lieFormAdd engine left right) left left.degree (α + β) := by
  unfold lieFormAdd
  refine liePublishes_ite (fun _ => liePublishes_throw _ _ _ _ _) (fun _ => ?_)
  refine publishes_lieFormFilled first.sized first.zero (fun a after kept => ?_)
  obtain ⟨l, lives, fits, means⟩ := first.carried a
  obtain ⟨r, lives', -, means'⟩ := second.carried a
  have sums := publishes_combine exact (kept _ _ lives) (kept _ _ lives') means means' false
  simp only [Bool.false_eq_true, if_false] at sums
  exact sums.mono (fun result known => ⟨⟨known.1.1.trans fits.1, known.1.2.1.trans fits.2.1, known.1.2.2.trans fits.2.2⟩, known.2⟩)

theorem publishes_lieFormScale (carries : Carries value world form ω) {factor : Ref} {k : K}
    (denotes : value factor = some k) :
    LiePublishes value world (lieFormScale engine form factor) form form.degree (k • ω) := by
  unfold lieFormScale
  refine liePublishes_ite (fun _ => liePublishes_throw _ _ _ _ _) (fun _ => ?_)
  refine publishes_lieFormFilled carries.sized carries.zero (fun a after kept => ?_)
  obtain ⟨component, lives, fits, means⟩ := carries.carried a
  refine (publishes_formScale exact (kept _ _ lives) means denotes).mono (fun result known => ⟨?_, known.2⟩)
  exact ⟨known.1.1.trans fits.1, known.1.2.1.trans fits.2.1, known.1.2.2.trans fits.2.2⟩

theorem publishes_lieFormExteriorDerivative (carries : Carries value world form ω) :
    LiePublishes value world (lieFormExteriorDerivative engine form) form (form.degree + 1) (form.derived partialBy ω) := by
  unfold lieFormExteriorDerivative
  refine liePublishes_ite (fun _ => liePublishes_throw _ _ _ _ _) (fun _ => ?_)
  refine liePublishes_ite (fun _ => liePublishes_throw _ _ _ _ _) (fun _ => ?_)
  refine publishes_lieFormFilled carries.sized carries.zero (fun a after kept => ?_)
  obtain ⟨component, lives, fits, means⟩ := carries.carried a
  refine (publishes_formExteriorDerivative exact (kept _ _ lives) means).mono (fun result known => ⟨?_, ?_⟩)
  · exact ⟨known.1.1.trans fits.1, known.1.2.1.trans fits.2.1, known.1.2.2.trans (congrArg (· + 1) fits.2.2)⟩
  · have derived := known.2
    unfold Form.dimension at derived
    rw [axisPartials_eq partialBy fits, fits.1] at derived
    exact derived

variable {f : Fin n → Fin n → Fin n → K}

theorem wp_weighStructure {algebra : LieAlgebra Ref} (constants : Constants value algebra f) (a b c : Fin n) (s : State) :
    wp (weighStructure engine algebra a b c)
      (fun weight _ => value weight.1 = some (f a b c) ∧ (weight.2 = .zero → f a b c = 0)) (fun _ _ => True) s := by
  unfold weighStructure
  rw [wp_bind]
  refine wp_structureArgument constants a b c (fun constant denotes => ?_)
  rw [wp_bind]
  exact wp_mono (exact.isZero constant _ s denotes) (fun decision _ known => ⟨denotes, known.1⟩) (fun _ _ _ => trivial)

theorem wp_bracketTerm {like bracket : LieForm Ref} {degree : Nat} {after : World State Ref}
    (first : Carries value world left α) (second : Carries value world right β) (constants : Constants value left.algebra f)
    (out a b : Fin n) {ω : Fin n → Finset Nat → K} (draft : Draft value world like degree ω bracket after) :
    wp (bracketTerm engine left right out a b bracket)
      (Draft value world like degree (ω + Pi.single out (f a b out • wedge (α a) (β b))))
      (fun _ later => Untouched world later) after := by
  unfold bracketTerm
  rw [wp_bind, wp_abandoning, Geom.wp_scalar]
  refine wp_mono (wp_weighStructure exact constants a b out after.session) (fun weight session known => ?_)
    (fun _ _ _ => draft.fresh.destroyed (Untouched.refl after))
  obtain ⟨denotes, vanishes⟩ := known
  have moved : Draft value world like degree ω bracket { after with session := session } :=
    ⟨⟨draft.fresh.fresh, draft.fresh.distinct, draft.fresh.kept⟩, draft.shape, draft.filled.sized, draft.filled.filled⟩
  refine wp_ite (fun zero => ?_) (fun _ => ?_)
  · rw [vanishes zero, zero_smul, Pi.single_zero, add_zero, wp_pure]
    exact moved
  · obtain ⟨l, lives, -, means⟩ := first.carried a
    obtain ⟨r, lives', -, means'⟩ := second.carried b
    obtain ⟨sum, lives'', fits, means''⟩ := moved.filled.filled out
    have kept := moved.fresh.extends
    rw [← update_add_single]
    refine wp_replaceComponent moved out _ ((publishes_addScaledWedge exact lives'' (kept _ _ lives) (kept _ _ lives')
      means'' means means' denotes).mono (fun component known => ⟨?_, known.2⟩))
    exact ⟨known.1.1.trans fits.1, known.1.2.1.trans fits.2.1, known.1.2.2.trans fits.2.2⟩

theorem publishes_lieFormBracketWedge (first : Carries value world left α) (second : Carries value world right β)
    (constants : Constants value left.algebra f) :
    LiePublishes value world (lieFormBracketWedge engine left right) left (left.degree + right.degree)
      (bracket f α β) := by
  unfold lieFormBracketWedge
  refine liePublishes_ite (fun _ => liePublishes_throw _ _ _ _ _) (fun _ => ?_)
  refine liePublishes_ite (fun _ => liePublishes_throw _ _ _ _ _) (fun _ => ?_)
  unfold LiePublishes LieForm.dimension
  rw [wp_bind, first.sized]
  refine wp_good (publishes_lieFormCreate first.sized first.zero _ world) fun form after start => ?_
  let part (out a b : Fin n) : Fin n → Finset Nat → K := Pi.single out (f a b out • wedge (α a) (β b))
  let drafted := Draft value world left (left.degree + right.degree) (n := n)
  have row (out a : Fin n) (ω : Fin n → Finset Nat → K) (form : LieForm Ref) (after : World State Ref)
      (draft : drafted ω form after) :
      wp (countUp (fun b bracket => bracketTerm engine left right out a b bracket) n 0 form)
        (drafted (ω + ∑ b, part out a b)) (fun _ later => Untouched world later) after :=
    wp_gather drafted (part out a) draft (fun b ω form after draft => wp_bracketTerm exact first second constants out a b draft)
  have block (out : Fin n) (ω : Fin n → Finset Nat → K) (form : LieForm Ref) (after : World State Ref)
      (draft : drafted ω form after) :
      wp (countUp (fun a bracket => countUp (fun b bracket => bracketTerm engine left right out a b bracket) n 0 bracket)
        n 0 form) (drafted (ω + ∑ a, ∑ b, part out a b)) (fun _ later => Untouched world later) after :=
    wp_gather drafted (fun a => ∑ b, part out a b) draft (row out)
  have loops : wp (countUp (fun out bracket => countUp (fun a bracket => countUp (fun b bracket =>
      bracketTerm engine left right out a b bracket) n 0 bracket) n 0 bracket) n 0 form)
      (drafted (0 + ∑ out, ∑ a, ∑ b, part out a b)) (fun _ later => Untouched world later) after :=
    wp_gather drafted (fun out => ∑ a, ∑ b, part out a b) start block
  rw [zero_add, sum_bracket] at loops
  exact loops

variable {coupling : Ref}

theorem publishes_covariantDerivativeChecked {connection : LieForm Ref} {A : Fin n → Finset Nat → K}
    (carries : Carries value world connection A) (carries' : Carries value world form ω)
    (constants : Constants value connection.algebra f) {g : K} (denotes : value coupling = some g) :
    LiePublishes value world (covariantDerivativeChecked engine connection coupling form) form (form.degree + 1)
      (form.derived partialBy ω + g • bracket f A ω) := by
  unfold covariantDerivativeChecked
  refine liePublishes_scratch (publishes_lieFormExteriorDerivative exact carries') (fun derivative w draft => ?_)
  have kept := draft.fresh.extends
  refine liePublishes_scratch (publishes_lieFormBracketWedge exact (carries.extended kept) (carries'.extended kept) constants)
    (fun product w' draft' => ?_)
  refine liePublishes_scratch (publishes_lieFormScale exact (draft'.carries carries.sized) denotes) (fun interaction w'' draft'' => ?_)
  have kept' := draft'.fresh.extends.trans draft''.fresh.extends
  exact (publishes_lieFormAdd exact ((draft.carries carries'.sized).extended kept')
    (draft''.carries (draft'.carries carries.sized).sized)).along draft.shape

theorem publishes_yangMillsCovariantDerivative {connection : LieForm Ref} {A : Fin n → Finset Nat → K}
    (carries : Carries value world connection A) (carries' : Carries value world form ω)
    (constants : Constants value connection.algebra f) {g : K} (denotes : value coupling = some g) :
    LiePublishes value world (yangMillsCovariantDerivative engine connection coupling form) form (form.degree + 1)
      (form.derived partialBy ω + g • bracket f A ω) := by
  unfold yangMillsCovariantDerivative
  refine liePublishes_ite (fun _ => liePublishes_throw _ _ _ _ _) (fun _ => ?_)
  exact publishes_covariantDerivativeChecked exact carries carries' constants denotes

theorem publishes_yangMillsGaugeVariationCurvature {curvature parameter : LieForm Ref} {F φ : Fin n → Finset Nat → K}
    (carries : Carries value world curvature F) (carries' : Carries value world parameter φ)
    (constants : Constants value curvature.algebra f) {g : K} (denotes : value coupling = some g) :
    LiePublishes value world (yangMillsGaugeVariationCurvature engine curvature coupling parameter) curvature
      (curvature.degree + parameter.degree) (g • bracket f F φ) := by
  unfold yangMillsGaugeVariationCurvature
  refine liePublishes_ite (fun _ => liePublishes_throw _ _ _ _ _) (fun _ => ?_)
  refine liePublishes_scratch (publishes_lieFormBracketWedge exact carries carries' constants) (fun product w draft => ?_)
  exact (publishes_lieFormScale exact (draft.carries carries.sized) denotes).along draft.shape

section Half

variable {h₀ : K} (half : ∀ s, wp (engine.number 1 2) (fun ref _ => value ref = some h₀) (fun _ _ => True) s)
include half

variable {coupling : Ref}

theorem wp_halfCoupling {g : K} (denotes : value coupling = some g) (s : State) :
    wp (halfCoupling engine coupling) (fun ref _ => value ref = some (h₀ * g)) (fun _ _ => True) s := by
  unfold halfCoupling
  rw [wp_bind]
  refine wp_mono (half s) (fun ref t known => ?_) (fun _ _ _ => trivial)
  refine wp_mono (exact.mul _ _ t (.cons known (.cons denotes .nil))) (fun result _ same => same.trans (congrArg some ?_))
    (fun _ _ _ => trivial)
  rw [List.prod_cons, List.prod_singleton]

theorem publishes_yangMillsFieldStrength {connection : LieForm Ref} {A : Fin n → Finset Nat → K}
    (carries : Carries value world connection A) (constants : Constants value connection.algebra f) {g : K}
    (denotes : value coupling = some g) :
    LiePublishes value world (yangMillsFieldStrength engine connection coupling) connection (connection.degree + 1)
      (connection.derived partialBy A + (h₀ * g) • bracket f A A) := by
  unfold yangMillsFieldStrength
  refine liePublishes_ite (fun _ => liePublishes_throw _ _ _ _ _) (fun _ => ?_)
  refine liePublishes_scalar (wp_mono (wp_halfCoupling exact half denotes world.session) (fun ref session known => ?_)
    (fun _ _ _ => trivial))
  have moved : Carries value { world with session := session } connection A := ⟨carries.sized, carries.carried⟩
  refine liePublishes_scratch (publishes_lieFormExteriorDerivative exact moved) (fun derivative w draft => ?_)
  have kept := draft.fresh.extends
  refine liePublishes_scratch (publishes_lieFormBracketWedge exact (moved.extended kept) (moved.extended kept) constants)
    (fun product w' draft' => ?_)
  refine liePublishes_scratch (publishes_lieFormScale exact (draft'.carries carries.sized) known) (fun nonlinear w'' draft'' => ?_)
  have kept' := draft'.fresh.extends.trans draft''.fresh.extends
  exact (publishes_lieFormAdd exact ((draft.carries carries.sized).extended kept')
    (draft''.carries (draft'.carries carries.sized).sized)).along draft.shape

theorem publishes_yangMillsBianchi {connection : LieForm Ref} {A : Fin n → Finset Nat → K}
    (carries : Carries value world connection A) (constants : Constants value connection.algebra f) {g : K}
    (denotes : value coupling = some g) :
    LiePublishes value world (yangMillsBianchi engine connection coupling) connection (connection.degree + 1 + 1)
      (connection.derived partialBy (connection.derived partialBy A + (h₀ * g) • bracket f A A) +
        g • bracket f A (connection.derived partialBy A + (h₀ * g) • bracket f A A)) := by
  unfold yangMillsBianchi
  refine liePublishes_scratch (publishes_yangMillsFieldStrength exact half carries constants denotes)
    (fun curvature w draft => ?_)
  have residual := publishes_yangMillsCovariantDerivative exact (carries.extended draft.fresh.extends)
    (draft.carries carries.sized) constants denotes
  obtain ⟨algebra, manifold, chart, degree⟩ := draft.shape
  unfold LieForm.derived at residual
  rw [manifold, chart] at residual
  exact residual.along ⟨algebra, manifold, chart, congrArg (· + 1) degree⟩

end Half

end Exact

end PhyNspire.Qft

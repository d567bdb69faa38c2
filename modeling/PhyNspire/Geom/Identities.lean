import PhyNspire.Cas.Polynomials
import PhyNspire.Geom.Operations

/-!
The identities of exterior calculus, for what the operations return. The Lie derivative is
computed through intermediate forms, which are gone when it returns; the identities are
those of the definitions on components, read off the stored forms.
-/

namespace PhyNspire.Geom
open Cas Tensor Lib.Stateful Lib.Exterior

variable {State Ref K : Type} [CommRing K] {value : Ref → Option K}

theorem World.form_destroy (world : World State Ref) (gone address : Nat) :
    (formDestroy gone world).form address = if address = gone then none else world.form address := by
  unfold World.form formDestroy
  simp only [List.getD_eq_getElem?_getD, List.getElem?_set]
  by_cases same : address = gone
  · rw [if_pos same.symm, if_pos same]
    split_ifs <;> rfl
  · rw [if_neg (Ne.symm same), if_neg same]

theorem Adds.destroyed {world world' world'' : World State Ref} {address : Nat} {form : Form Ref}
    (adds : Adds world world' address form) (same : Untouched world' world'') :
    Untouched world (formDestroy address world'') := by
  intro other
  rw [World.form_destroy]
  split_ifs with here
  · rw [here, adds.1]
  · rw [same, adds.2.2 other here]

theorem Adds.remains {world world' world'' : World State Ref} {scratch address : Nat} {form form' : Form Ref}
    (first : Adds world world' scratch form) (second : Adds world' world'' address form') :
    Adds world (formDestroy scratch world'') address form' := by
  have other : address ≠ scratch := by
    rintro rfl
    exact Option.some_ne_none _ (first.2.1.symm.trans second.1)
  refine ⟨?_, ?_, fun elsewhere different => ?_⟩
  · rw [← first.2.2 address other, second.1]
  · rw [World.form_destroy, if_neg other, second.2.1]
  · rw [World.form_destroy]
    split_ifs with here
    · rw [here, first.1]
    · rw [second.2.2 elsewhere different, first.2.2 elsewhere here]

theorem Adds.lives {world world' : World State Ref} {address other : Nat} {form form' : Form Ref}
    (adds : Adds world world' address form) (lives : world.form other = some form') : world'.form other = some form' := by
  rw [adds.2.2 other (fun same => by rw [same, adds.1] at lives; cases lives), lives]

theorem wp_intermediate {world : World State Ref} {first : Geometry State Ref Nat} {second : Nat → Geometry State Ref Nat}
    {scratch result : Form Ref → Prop} (made : Publishes world first scratch)
    (used : ∀ address form world', Adds world world' address form → scratch form →
      Publishes world' (second address) result) :
    wp (first >>= fun address => ensuring (formDestroy address) (some <$> second address))
      (fun address after => ∃ named form, address = some named ∧ Adds world after named form ∧ result form)
      (fun _ after => Untouched world after) world := by
  refine wp_then made ?_
  rintro address after ⟨form, adds, known⟩
  rw [wp_ensuring, wp_map]
  refine wp_mono (used address form after adds known) ?_ (fun _ after' same => adds.destroyed same)
  rintro named after' ⟨form', adds', known'⟩
  exact ⟨named, form', rfl, adds.remains adds', known'⟩

/-- One summand of Cartan's formula: a form that was added, or nothing at a boundary degree. -/
def Summand (world after : World State Ref) (absent : Prop) (result : Form Ref → Prop) (address : Option Nat) : Prop :=
  (∃ named form, address = some named ∧ Adds world after named form ∧ result form) ∨
    (address = none ∧ absent ∧ after = world)

section Lie

variable [DecidableEq Ref] {cas : Cas State Ref} {partialBy : Ref → Derivation ℤ K K}
  (exact : Exact cas value partialBy) {world : World State Ref} {a : Nat} {form : Form Ref} {vector : Tensor Ref}
  {α : Finset Nat → K} {v : Nat → K} (lives : world.form a = some form) (means : Means value form α)
  (field : VectorMeans value vector v)
include exact lives means field

theorem wp_lieContraction :
    wp (lieContraction cas a form.degree vector)
      (fun address after => Summand world after (form.degree = 0) (fun result => form.Like form.degree result ∧
        Means value result (exteriorDerivative (Finset.range form.dimension) (partials partialBy form.chart)
          (interior (Finset.range form.dimension) v α))) address)
      (fun _ after => Untouched world after) world := by
  unfold lieContraction
  refine wp_ite (fun positive => ?_) (fun zero => Or.inr ⟨rfl, by omega, rfl⟩)
  refine wp_good (wp_intermediate (publishes_formInteriorProduct exact lives means field) ?_)
    fun _ _ known => Or.inl known
  rintro address contracted world' adds ⟨⟨-, alike⟩, known⟩
  refine (publishes_formExteriorDerivative exact adds.2.1 known).mono (fun result known' => ?_)
  rw [alike.chart, alike.dimension] at known'
  refine ⟨⟨known'.1.1.trans alike.1, known'.1.2.1.trans alike.2.1, known'.1.2.2.trans ?_⟩, known'.2⟩
  rw [alike.2.2, Nat.sub_add_cancel positive]

theorem wp_lieDerivation :
    wp (lieDerivation cas a form.degree form.dimension vector)
      (fun address after => Summand world after (form.degree = form.dimension) (fun result =>
        form.Like form.degree result ∧ Means value result (interior (Finset.range form.dimension) v
          (exteriorDerivative (Finset.range form.dimension) (partials partialBy form.chart) α))) address)
      (fun _ after => Untouched world after) world := by
  unfold lieDerivation
  refine wp_ite (fun below => ?_)
    (fun top => Or.inr ⟨rfl, le_antisymm form.graded (Nat.le_of_not_lt top), rfl⟩)
  refine wp_good (wp_intermediate (publishes_formExteriorDerivative exact lives means) ?_)
    fun _ _ known => Or.inl known
  rintro address derivative world' adds ⟨alike, known⟩
  refine (publishes_formInteriorProduct exact adds.2.1 known field).mono (fun result known' => ?_)
  rw [alike.dimension] at known'
  refine ⟨⟨known'.1.2.1.trans alike.1, known'.1.2.2.1.trans alike.2.1, known'.1.2.2.2.trans ?_⟩, known'.2⟩
  rw [alike.2.2, Nat.add_sub_cancel]

theorem publishes_formLieDerivative :
    Publishes world (formLieDerivative cas a vector) (fun result => form.Like form.degree result ∧
      Means value result (lieDerivative (Finset.range form.dimension) (partials partialBy form.chart) v α)) := by
  unfold formLieDerivative
  refine publishes_formAt lives ?_
  unfold Publishes
  refine wp_then (wp_lieContraction exact lives means field) ?_
  rintro dContracted world₁ (⟨d, first, rfl, adds, alike, known⟩ | ⟨rfl, zero, rfl⟩)
  · rw [wp_bind, wp_abandoning]
    refine wp_mono (wp_lieDerivation exact (adds.lives lives) means field) ?_ (fun _ _ same => adds.destroyed same)
    rintro contractedDerivative world₂ (⟨e, second, rfl, adds', alike', known'⟩ | ⟨rfl, top, rfl⟩)
    · simp only
      rw [wp_ensuring]
      refine wp_mono (publishes_combine exact (adds'.lives adds.2.1) adds'.2.1 known known' false) ?_
        (fun _ after same => adds.destroyed (adds'.destroyed same))
      rintro address after ⟨result, adds'', alike'', known''⟩
      refine ⟨result, adds.remains (adds'.remains adds''), ⟨alike''.1.trans alike.1, alike''.2.1.trans alike.2.1,
        alike''.2.2.trans alike.2.2⟩, ?_⟩
      rwa [if_neg (by decide)] at known''
    · have flat := exteriorDerivative_top (partials partialBy form.chart) (top ▸ means.degree) (fun I => means.inside)
      refine ⟨first, adds, alike, ?_⟩
      have same : lieDerivative (Finset.range form.dimension) (partials partialBy form.chart) v α =
          exteriorDerivative (Finset.range form.dimension) (partials partialBy form.chart)
            (interior (Finset.range form.dimension) v α) := by
        funext M
        unfold lieDerivative
        rw [flat, interior_zero, Pi.zero_apply, add_zero]
      rw [same]
      exact known
  · rw [wp_bind, wp_abandoning]
    refine wp_good (wp_lieDerivation exact lives means field) ?_
    rintro contractedDerivative world₂ (⟨e, second, rfl, adds', alike', known'⟩ | ⟨rfl, top, rfl⟩)
    · refine ⟨second, adds', alike', ?_⟩
      have same : lieDerivative (Finset.range form.dimension) (partials partialBy form.chart) v α =
          interior (Finset.range form.dimension) v
            (exteriorDerivative (Finset.range form.dimension) (partials partialBy form.chart) α) := by
        funext M
        unfold lieDerivative
        rw [interior_of_function (zero ▸ means.degree), exteriorDerivative_zero, Pi.zero_apply, zero_add]
      rw [same]
      exact known'
    · exact absurd (zero.symm.trans top) (Nat.ne_of_lt form.manifold.positive)

end Lie

end PhyNspire.Geom

/-!
The identities between calls of the exterior operations. Each hypothesis says that a call
returned a form, in whatever memory it was made; the conclusions compare what the returned
forms denote. A call above the top degree or below degree zero never returns, and
there the identities are read with the missing form zero.
-/

namespace PhyNspire.Geom
open Cas Tensor Lib.Stateful Lib.Exterior

variable {State Ref K : Type} [CommRing K] [DecidableEq Ref]

def published (world : World State Ref) (call : Geometry State Ref Nat) : Option (Form Ref) :=
  match call world with
  | .ok address after => after.form address
  | .error _ _ => none

def Yields (world : World State Ref) (call : Geometry State Ref Nat) (result : Form Ref) : Prop :=
  published world call = some result

omit [DecidableEq Ref] in
theorem Publishes.yields {world : World State Ref} {call : Geometry State Ref Nat} {known : Form Ref → Prop}
    {result : Form Ref} (publishes : Publishes world call known) (yields : Yields world call result) : known result := by
  unfold Yields published at yields
  unfold Publishes wp at publishes
  cases run : call world with
  | ok address after =>
    rw [run] at yields publishes
    obtain ⟨form, adds, held⟩ := publishes
    exact Option.some.inj (adds.2.1.symm.trans yields) ▸ held
  | error status after =>
    rw [run] at yields
    cases yields

/-- `result = left ∧ right`, computed in some memory. -/
def Wedges (cas : Cas State Ref) (left right result : Form Ref) : Prop :=
  ∃ world a b, world.form a = some left ∧ world.form b = some right ∧ Yields world (formWedge cas a b) result

def Sums (cas : Cas State Ref) (left right result : Form Ref) : Prop :=
  ∃ world a b, world.form a = some left ∧ world.form b = some right ∧ Yields world (formAdd cas a b) result

def Scales (cas : Cas State Ref) (factor : Ref) (form result : Form Ref) : Prop :=
  ∃ world a, world.form a = some form ∧ Yields world (formScale cas a factor) result

/-- `result = d form`. -/
def Derives (cas : Cas State Ref) (form result : Form Ref) : Prop :=
  ∃ world a, world.form a = some form ∧ Yields world (formExteriorDerivative cas a) result

/-- `result = iota_v form`. -/
def Contracts (cas : Cas State Ref) (vector : Tensor Ref) (form result : Form Ref) : Prop :=
  ∃ world a, world.form a = some form ∧ Yields world (formInteriorProduct cas a vector) result

/-- `result = L_v form`. -/
def Drags (cas : Cas State Ref) (vector : Tensor Ref) (form result : Form Ref) : Prop :=
  ∃ world a, world.form a = some form ∧ Yields world (formLieDerivative cas a vector) result

/-- The stored components are those of the definitions. -/
structure References (cas : Cas State Ref) (value : Ref → Option K) (partialBy : Ref → Derivation ℤ K K) : Prop where
  wedge : ∀ {left right result α β}, Means value left α → Means value right β → Wedges cas left right result →
    result.degree = left.degree + right.degree ∧ Means value result (wedge α β) ∧
      ∀ k : Fin (left.degree + right.degree) → Nat, StrictMono k →
        ((left.degree.factorial * right.degree.factorial : Nat) : K) * wedge α β (Finset.univ.image k) =
          ∑ π : Equiv.Perm (Fin (left.degree + right.degree)), ((Equiv.Perm.sign π : ℤ) : K) *
            (component α (List.ofFn (fun i => k (π (Fin.castAdd right.degree i)))) *
              component β (List.ofFn (fun j => k (π (Fin.natAdd left.degree j)))))
  derivative : ∀ {form result α}, Means value form α → Derives cas form result →
    result.degree = form.degree + 1 ∧
      Means value result (exteriorDerivative (Finset.range form.dimension) (partials partialBy form.chart) α)
  interior : ∀ {vector form result v α}, VectorMeans value vector v → Means value form α →
    Contracts cas vector form result → result.degree + 1 = form.degree ∧
      Means value result (fun J => ∑ i ∈ Finset.range form.dimension, v i * component α (i :: increasing J))
  lie : ∀ {vector form result v α}, VectorMeans value vector v → Means value form α → Drags cas vector form result →
    result.degree = form.degree ∧ Means value result
      (lieDerivative (Finset.range form.dimension) (partials partialBy form.chart) v α)

structure WedgeLaws (cas : Cas State Ref) (value : Ref → Option K) : Prop where
  associative : ∀ {a b c ab bc left right α β γ}, Means value a α → Means value b β → Means value c γ →
    Wedges cas a b ab → Wedges cas ab c left → Wedges cas b c bc → Wedges cas a bc right →
      ∃ ω, Means value left ω ∧ Means value right ω
  gradedCommutative : ∀ {a b ab ba α β}, Means value a α → Means value b β → Wedges cas a b ab → Wedges cas b a ba →
    ∃ ω, Means value ba ω ∧ Means value ab ((-1 : K) ^ (a.degree * b.degree) • ω)
  addLeft : ∀ {a a' b sum whole left right α α' β}, Means value a α → Means value a' α' → Means value b β →
    Sums cas a a' sum → Wedges cas sum b whole → Wedges cas a b left → Wedges cas a' b right →
      ∃ ω ω', Means value left ω ∧ Means value right ω' ∧ Means value whole (ω + ω')
  addRight : ∀ {a b b' sum whole left right α β β'}, Means value a α → Means value b β → Means value b' β' →
    Sums cas b b' sum → Wedges cas a sum whole → Wedges cas a b left → Wedges cas a b' right →
      ∃ ω ω', Means value left ω ∧ Means value right ω' ∧ Means value whole (ω + ω')
  scaleLeft : ∀ {a b scaled whole part factor c α β}, Means value a α → Means value b β → value factor = some c →
    Scales cas factor a scaled → Wedges cas scaled b whole → Wedges cas a b part →
      ∃ ω, Means value part ω ∧ Means value whole (c • ω)
  scaleRight : ∀ {a b scaled whole part factor c α β}, Means value a α → Means value b β → value factor = some c →
    Scales cas factor b scaled → Wedges cas a scaled whole → Wedges cas a b part →
      ∃ ω, Means value part ω ∧ Means value whole (c • ω)

structure DerivativeLaws (cas : Cas State Ref) (value : Ref → Option K) : Prop where
  square : ∀ {w dw ddw α}, Means value w α → Derives cas w dw → Derives cas dw ddw → Means value ddw 0
  leibniz : ∀ {a b ab whole da left db right α β}, Means value a α → Means value b β → Wedges cas a b ab →
    Derives cas ab whole → Derives cas a da → Wedges cas da b left → Derives cas b db → Wedges cas a db right →
      ∃ ω ω', Means value left ω ∧ Means value right ω' ∧ Means value whole (ω + (-1 : K) ^ a.degree • ω')

/-- The interior product squares to zero and is an antiderivation, a function contracting to zero. -/
structure InteriorLaws (cas : Cas State Ref) (value : Ref → Option K) : Prop where
  square : ∀ {vector v w iw iiw α}, VectorMeans value vector v → Means value w α → Contracts cas vector w iw →
    Contracts cas vector iw iiw → Means value iiw 0
  leibniz : ∀ {vector v a b ab whole ia left ib right α β}, VectorMeans value vector v → Means value a α →
    Means value b β → Wedges cas a b ab → Contracts cas vector ab whole → Contracts cas vector a ia →
      Wedges cas ia b left → Contracts cas vector b ib → Wedges cas a ib right →
        ∃ ω ω', Means value left ω ∧ Means value right ω' ∧ Means value whole (ω + (-1 : K) ^ a.degree • ω')
  leibnizFunctionLeft : ∀ {vector v a b ab whole ib right α β}, VectorMeans value vector v → Means value a α →
    Means value b β → a.degree = 0 → Wedges cas a b ab → Contracts cas vector ab whole → Contracts cas vector b ib →
      Wedges cas a ib right → ∃ ω, Means value right ω ∧ Means value whole ω
  leibnizFunctionRight : ∀ {vector v a b ab whole ia left α β}, VectorMeans value vector v → Means value a α →
    Means value b β → b.degree = 0 → Wedges cas a b ab → Contracts cas vector ab whole → Contracts cas vector a ia →
      Wedges cas ia b left → ∃ ω, Means value left ω ∧ Means value whole ω

structure LieLaws (cas : Cas State Ref) (value : Ref → Option K) : Prop where
  cartan : ∀ {vector v w l iw diw dw idw α}, VectorMeans value vector v → Means value w α → Drags cas vector w l →
    Contracts cas vector w iw → Derives cas iw diw → Derives cas w dw → Contracts cas vector dw idw →
      ∃ ω ω', Means value diw ω ∧ Means value idw ω' ∧ Means value l (ω + ω')
  cartanFunction : ∀ {vector v w l dw idw α}, VectorMeans value vector v → Means value w α → w.degree = 0 →
    Drags cas vector w l → Derives cas w dw → Contracts cas vector dw idw → ∃ ω, Means value idw ω ∧ Means value l ω
  cartanTop : ∀ {vector v w l iw diw α}, VectorMeans value vector v → Means value w α → w.degree = w.dimension →
    Drags cas vector w l → Contracts cas vector w iw → Derives cas iw diw → ∃ ω, Means value diw ω ∧ Means value l ω
  commutes : ∀ {vector v w l dl dw ld α}, VectorMeans value vector v → Means value w α → Drags cas vector w l →
    Derives cas l dl → Derives cas w dw → Drags cas vector dw ld → ∃ ω, Means value dl ω ∧ Means value ld ω

/-- A call adds its result or leaves the memory's forms alone. -/
structure Transactions (cas : Cas State Ref) (value : Ref → Option K) : Prop where
  wedge : ∀ {world a b left right α β}, world.form a = some left → world.form b = some right → Means value left α →
    Means value right β → Publishes world (formWedge cas a b) (fun _ => True)
  sum : ∀ {world a b left right α β}, world.form a = some left → world.form b = some right → Means value left α →
    Means value right β → Publishes world (formAdd cas a b) (fun _ => True)
  difference : ∀ {world a b left right α β}, world.form a = some left → world.form b = some right →
    Means value left α → Means value right β → Publishes world (formSub cas a b) (fun _ => True)
  scale : ∀ {world a form factor c α}, world.form a = some form → Means value form α → value factor = some c →
    Publishes world (formScale cas a factor) (fun _ => True)
  derivative : ∀ {world a form α}, world.form a = some form → Means value form α →
    Publishes world (formExteriorDerivative cas a) (fun _ => True)
  interior : ∀ {world a form vector v α}, world.form a = some form → Means value form α → VectorMeans value vector v →
    Publishes world (formInteriorProduct cas a vector) (fun _ => True)
  lie : ∀ {world a form vector v α}, world.form a = some form → Means value form α → VectorMeans value vector v →
    Publishes world (formLieDerivative cas a vector) (fun _ => True)

structure ExteriorCalculus (cas : Cas State Ref) (value : Ref → Option K) (partialBy : Ref → Derivation ℤ K K) : Prop where
  references : References cas value partialBy
  wedge : WedgeLaws cas value
  derivative : DerivativeLaws cas value
  interior : InteriorLaws cas value
  lie : LieLaws cas value
  transactions : Transactions cas value

section Exact

variable {cas : Cas State Ref} {value : Ref → Option K} {partialBy : Ref → Derivation ℤ K K}
  (exact : Exact cas value partialBy)
include exact

theorem Wedges.known {left right result : Form Ref} {α β : Finset Nat → K} (call : Wedges cas left right result)
    (first : Means value left α) (second : Means value right β) :
    (left.Like right.degree right ∧ left.Like (left.degree + right.degree) result) ∧
      Means value result (wedge α β) := by
  obtain ⟨world, a, b, lives, lives', yields⟩ := call
  exact (publishes_formWedge exact lives lives' first second).yields yields

theorem Sums.known {left right result : Form Ref} {α β : Finset Nat → K} (call : Sums cas left right result)
    (first : Means value left α) (second : Means value right β) :
    left.Like left.degree result ∧ Means value result (α + β) := by
  obtain ⟨world, a, b, lives, lives', yields⟩ := call
  exact (publishes_combine exact lives lives' first second false).yields yields

theorem Scales.known {factor : Ref} {form result : Form Ref} {c : K} {α : Finset Nat → K}
    (call : Scales cas factor form result) (means : Means value form α) (denotes : value factor = some c) :
    form.Like form.degree result ∧ Means value result (c • α) := by
  obtain ⟨world, a, lives, yields⟩ := call
  exact (publishes_formScale exact lives means denotes).yields yields

theorem Derives.known {form result : Form Ref} {α : Finset Nat → K} (call : Derives cas form result)
    (means : Means value form α) : form.Like (form.degree + 1) result ∧
      Means value result (exteriorDerivative (Finset.range form.dimension) (partials partialBy form.chart) α) := by
  obtain ⟨world, a, lives, yields⟩ := call
  exact (publishes_formExteriorDerivative exact lives means).yields yields

theorem Contracts.known {vector : Tensor Ref} {form result : Form Ref} {v : Nat → K} {α : Finset Nat → K}
    (call : Contracts cas vector form result) (field : VectorMeans value vector v) (means : Means value form α) :
    (0 < form.degree ∧ form.Like (form.degree - 1) result) ∧
      Means value result (interior (Finset.range form.dimension) v α) := by
  obtain ⟨world, a, lives, yields⟩ := call
  exact (publishes_formInteriorProduct exact lives means field).yields yields

theorem Drags.known {vector : Tensor Ref} {form result : Form Ref} {v : Nat → K} {α : Finset Nat → K}
    (call : Drags cas vector form result) (field : VectorMeans value vector v) (means : Means value form α) :
    form.Like form.degree result ∧
      Means value result (lieDerivative (Finset.range form.dimension) (partials partialBy form.chart) v α) := by
  obtain ⟨world, a, lives, yields⟩ := call
  exact (publishes_formLieDerivative exact lives means field).yields yields

theorem references : References cas value partialBy where
  wedge first second call := by
    obtain ⟨⟨-, alike⟩, known⟩ := call.known exact first second
    exact ⟨alike.2.2, known, fun k rising => wedge_antisymmetrized first.degree _ rising⟩
  derivative means call := by
    obtain ⟨alike, known⟩ := call.known exact means
    exact ⟨alike.2.2, known⟩
  interior {vector form result v α} field means call := by
    obtain ⟨⟨positive, alike⟩, known⟩ := call.known exact field means
    refine ⟨by rw [alike.2.2]; omega, ?_⟩
    have tuples : interior (Finset.range form.dimension) v α =
        fun J => ∑ i ∈ Finset.range form.dimension, v i * component α (i :: increasing J) := by
      funext J
      refine Finset.sum_congr rfl (fun i _ => ?_)
      rw [← contract_eq_component i α (increasing_pairwise J), toFinset_increasing]
    exact tuples ▸ known
  lie field means call := by
    obtain ⟨alike, known⟩ := call.known exact field means
    exact ⟨alike.2.2, known⟩

theorem wedgeLaws : WedgeLaws cas value where
  associative first second third ab left bc right := by
    have whole := (left.known exact (ab.known exact first second).2 third).2
    have whole' := (right.known exact first (bc.known exact second third).2).2
    rw [← wedge_assoc] at whole'
    exact ⟨_, whole, whole'⟩
  gradedCommutative first second ab ba := by
    have whole := (ab.known exact first second).2
    rw [wedge_comm first.degree second.degree] at whole
    exact ⟨_, (ba.known exact second first).2, whole⟩
  addLeft first first' second sum product left right := by
    have whole := (product.known exact (sum.known exact first first').2 second).2
    rw [wedge_add_left] at whole
    exact ⟨_, _, (left.known exact first second).2, (right.known exact first' second).2, whole⟩
  addRight first second second' sum product left right := by
    have whole := (product.known exact first (sum.known exact second second').2).2
    rw [wedge_add_right] at whole
    exact ⟨_, _, (left.known exact first second).2, (right.known exact first second').2, whole⟩
  scaleLeft first second denotes scaled product part := by
    have whole := (product.known exact (scaled.known exact first denotes).2 second).2
    rw [wedge_smul_left] at whole
    exact ⟨_, (part.known exact first second).2, whole⟩
  scaleRight first second denotes scaled product part := by
    have whole := (product.known exact first (scaled.known exact second denotes).2).2
    rw [wedge_smul_right] at whole
    exact ⟨_, (part.known exact first second).2, whole⟩

theorem interiorLaws : InteriorLaws cas value where
  square field means once again := by
    obtain ⟨⟨-, alike⟩, known⟩ := once.known exact field means
    have twice := (again.known exact field known).2
    rwa [alike.dimension, interior_self] at twice
  leibniz field first second product contraction ia left ib right := by
    obtain ⟨⟨paired, alike⟩, known⟩ := product.known exact first second
    have whole := (contraction.known exact field known).2
    rw [alike.dimension, interior_wedge _ _ first.degree] at whole
    have inner := (ib.known exact field second).2
    rw [paired.dimension] at inner
    exact ⟨_, _, (left.known exact (ia.known exact field first).2 second).2, (right.known exact first inner).2, whole⟩
  leibnizFunctionLeft field first second zero product contraction ib right := by
    obtain ⟨⟨paired, alike⟩, known⟩ := product.known exact first second
    have whole := (contraction.known exact field known).2
    rw [alike.dimension, interior_wedge _ _ first.degree, interior_of_function (zero ▸ first.degree), zero_wedge, zero_add,
      zero, pow_zero, one_smul] at whole
    have inner := (ib.known exact field second).2
    rw [paired.dimension] at inner
    exact ⟨_, (right.known exact first inner).2, whole⟩
  leibnizFunctionRight field first second zero product contraction ia left := by
    obtain ⟨⟨paired, alike⟩, known⟩ := product.known exact first second
    have whole := (contraction.known exact field known).2
    have nothing := interior_of_function (zero ▸ second.degree)
    rw [alike.dimension, interior_wedge _ _ first.degree, nothing, wedge_zero, smul_zero, add_zero] at whole
    exact ⟨_, (left.known exact (ia.known exact field first).2 second).2, whole⟩

theorem transactions : Transactions cas value where
  wedge lives lives' first second := (publishes_formWedge exact lives lives' first second).mono (fun _ _ => trivial)
  sum lives lives' first second := (publishes_combine exact lives lives' first second false).mono (fun _ _ => trivial)
  difference lives lives' first second := (publishes_combine exact lives lives' first second true).mono (fun _ _ => trivial)
  scale lives means denotes := (publishes_formScale exact lives means denotes).mono (fun _ _ => trivial)
  derivative lives means := (publishes_formExteriorDerivative exact lives means).mono (fun _ _ => trivial)
  interior lives means field := (publishes_formInteriorProduct exact lives means field).mono (fun _ _ => trivial)
  lie lives means field := (publishes_formLieDerivative exact lives means field).mono (fun _ _ => trivial)

variable (commute : ∀ first second x, partialBy first (partialBy second x) = partialBy second (partialBy first x))
include commute

omit exact [DecidableEq Ref] in
theorem partials_comm (chart : Chart Ref) (i j : Nat) (x : K) :
    partials partialBy chart i (partials partialBy chart j x) = partials partialBy chart j (partials partialBy chart i x) := by
  unfold partials
  cases chart.coordinates[i]? <;> cases chart.coordinates[j]?
  · rfl
  · simp
  · simp
  · exact commute _ _ _

theorem derivativeLaws : DerivativeLaws cas value where
  square {w _ _ _} means once again := by
    obtain ⟨alike, known⟩ := once.known exact means
    have twice := (again.known exact known).2
    rwa [alike.dimension, alike.chart, exteriorDerivative_self _ _ (partials_comm commute w.chart)] at twice
  leibniz first second product derivation da left db right := by
    obtain ⟨⟨paired, alike⟩, known⟩ := product.known exact first second
    have whole := (derivation.known exact known).2
    rw [alike.dimension, alike.chart, exteriorDerivative_wedge _ _ first.degree second.degree] at whole
    have inner := (db.known exact second).2
    rw [paired.dimension, paired.chart] at inner
    exact ⟨_, _, (left.known exact (da.known exact first).2 second).2, (right.known exact first inner).2, whole⟩

omit exact commute [DecidableEq Ref] in
theorem lieDerivative_function {w : Form Ref} {α : Finset Nat → K} (means : Means value w α) (zero : w.degree = 0)
    (δ : Nat → Derivation ℤ K K) (v : Nat → K) :
    lieDerivative (Finset.range w.dimension) δ v α =
      interior (Finset.range w.dimension) v (exteriorDerivative (Finset.range w.dimension) δ α) := by
  funext M
  unfold lieDerivative
  rw [interior_of_function (zero ▸ means.degree), exteriorDerivative_zero, Pi.zero_apply, zero_add]

omit exact commute [DecidableEq Ref] in
theorem lieDerivative_top {w : Form Ref} {α : Finset Nat → K} (means : Means value w α) (top : w.degree = w.dimension)
    (δ : Nat → Derivation ℤ K K) (v : Nat → K) :
    lieDerivative (Finset.range w.dimension) δ v α =
      exteriorDerivative (Finset.range w.dimension) δ (interior (Finset.range w.dimension) v α) := by
  funext M
  unfold lieDerivative
  rw [exteriorDerivative_top δ (top ▸ means.degree) (fun I => means.inside), interior_zero, Pi.zero_apply, add_zero]

theorem lieLaws : LieLaws cas value where
  cartan field means drag iw diw dw idw := by
    obtain ⟨⟨-, alike⟩, known⟩ := iw.known exact field means
    have first := (diw.known exact known).2
    obtain ⟨alike', known'⟩ := dw.known exact means
    have second := (idw.known exact field known').2
    rw [alike.dimension, alike.chart] at first
    rw [alike'.dimension] at second
    exact ⟨_, _, first, second, (drag.known exact field means).2⟩
  cartanFunction field means zero drag dw idw := by
    obtain ⟨alike, known⟩ := dw.known exact means
    have second := (idw.known exact field known).2
    rw [alike.dimension] at second
    have whole := (drag.known exact field means).2
    rw [lieDerivative_function means zero] at whole
    exact ⟨_, second, whole⟩
  cartanTop field means top drag iw diw := by
    obtain ⟨⟨-, alike⟩, known⟩ := iw.known exact field means
    have first := (diw.known exact known).2
    rw [alike.dimension, alike.chart] at first
    have whole := (drag.known exact field means).2
    rw [lieDerivative_top means top] at whole
    exact ⟨_, first, whole⟩
  commutes {_ _ w _ _ _ _ _} field means drag dl dw ld := by
    obtain ⟨alike, known⟩ := drag.known exact field means
    have left := (dl.known exact known).2
    obtain ⟨alike', known'⟩ := dw.known exact means
    have right := (ld.known exact field known').2
    rw [alike.dimension, alike.chart] at left
    rw [alike'.dimension, alike'.chart, lieDerivative_exteriorDerivative _ _ (partials_comm commute w.chart)] at right
    exact ⟨_, left, right⟩

/-- The exterior operations compute exterior calculus. -/
theorem exterior_calculus : ExteriorCalculus cas value partialBy :=
  ⟨references exact, wedgeLaws exact, derivativeLaws exact commute, interiorLaws exact, lieLaws exact commute,
    transactions exact⟩

end Exact

/-- The plane with its two coordinates, and the form `x dy` on it. -/
def plane : Manifold Poly where
  address := 0
  ir := 0
  dimension := 2
  orientation := .positive
  signature := [1, 1]
  charts := [⟨1, [Poly.symbol 0, Poly.symbol 1]⟩]
  zero := []
  small := by decide
  positive := by decide
  signed := by decide
  charted := by decide

def planeForm : Form Poly where
  manifold := plane
  chartIndex := 0
  degree := 1
  components := [[], Poly.symbol 0]
  charted := by decide
  graded := by decide
  counted := by decide

def planeWorld : World Nat Poly := ⟨100, ⟨fun _ => true, 0⟩, [some planeForm]⟩

/-- `d(x dy) = dx ∧ dy`, as it is computed. -/
theorem exterior_calculus_of_polynomials :
    ExteriorCalculus (polynomials 0) polynomialValue polynomialPartial ∧
      (published planeWorld (formExteriorDerivative (polynomials 0) 0)).map (·.components) = some [[(1, [])]] :=
  ⟨exterior_calculus (polynomials_exact 0) polynomialPartial_comm, by decide +kernel⟩

end PhyNspire.Geom

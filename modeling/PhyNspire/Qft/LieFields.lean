import PhyNspire.Qft.LieForms

/-!
What the memory holds of a Lie form. A call that returns has put its components at fresh
addresses and has left every other address as it was; a call that fails has left all of
them as they were. The rules here follow a result while its components are replaced.
-/

namespace PhyNspire.Qft
open Cas Tensor Geom Lib.Stateful Lib.Exterior

variable {State Ref K : Type} {n : Nat}

structure LieField (Ref : Type) (n : Nat) where
  algebra : LieAlgebra Ref
  manifold : Manifold Ref
  chartIndex : Nat
  degree : Nat
  component : Fin n → Form Ref
  sized : algebra.dimension = n
  shaped : ∀ a, (component a).manifold = manifold ∧ (component a).chartIndex = chartIndex ∧ (component a).degree = degree

def LieForm.Shape (form : LieForm Ref) (algebra : LieAlgebra Ref) (manifold : Manifold Ref) (chartIndex degree : Nat) : Prop :=
  form.algebra = algebra ∧ form.manifold = manifold ∧ form.chartIndex = chartIndex ∧ form.degree = degree

def LieForm.Fits (form : LieForm Ref) (component : Form Ref) : Prop :=
  component.manifold = form.manifold ∧ component.chartIndex = form.chartIndex ∧ component.degree = form.degree

structure Holds (world : World State Ref) (form : LieForm Ref) (field : LieField Ref n) : Prop where
  shape : form.Shape field.algebra field.manifold field.chartIndex field.degree
  components : ∀ a : Fin n, world.form (form.componentAt a) = some (field.component a)

/-- A Lie form at fresh addresses, and nothing else changed. -/
structure Fresh (world after : World State Ref) (form : LieForm Ref) : Prop where
  fresh : ∀ address ∈ form.components, world.form address = none
  distinct : form.components.Nodup
  kept : ∀ address, address ∉ form.components → after.form address = world.form address

structure Filled (after : World State Ref) (form : LieForm Ref) (holds : Fin n → Form Ref → Prop) : Prop where
  sized : form.components.length = n
  filled : ∀ a : Fin n, ∃ component, after.form (form.componentAt a) = some component ∧
    form.Fits component ∧ holds a component

/-- Whatever lived still lives. -/
def Extends (world after : World State Ref) : Prop :=
  ∀ address form, world.form address = some form → after.form address = some form

variable {world : World State Ref}

theorem Extends.trans {world' world'' : World State Ref} (first : Extends world world') (second : Extends world' world'') :
    Extends world world'' := fun address form lives => second address form (first address form lives)

variable {after : World State Ref} {form : LieForm Ref}

theorem Fresh.extends (fresh : Fresh world after form) :
    Extends world after := fun address component lives => by
  rw [fresh.kept address (fun member => by rw [fresh.fresh address member] at lives; cases lives), lives]

theorem Holds.extended {field : LieField Ref n}
    (holds : Holds world form field) (kept : Extends world after) : Holds after form field :=
  ⟨holds.shape, fun a => kept _ _ (holds.components a)⟩

theorem form_destroyComponents (components : List Nat) (world : World State Ref) (address : Nat) :
    (destroyComponents components world).form address = if address ∈ components then none else world.form address := by
  unfold destroyComponents
  induction components generalizing world with
  | nil => rfl
  | cons first rest ih =>
    rw [List.foldl_cons, ih, World.form_destroy]
    by_cases inside : address ∈ rest
    · rw [if_pos inside, if_pos (List.mem_cons_of_mem _ inside)]
    · rw [if_neg inside]
      by_cases same : address = first
      · rw [if_pos same, if_pos (same ▸ List.mem_cons_self)]
      · rw [if_neg same, if_neg (fun member => (List.mem_cons.mp member).elim same inside)]

variable {later : World State Ref}

theorem Fresh.destroyed (fresh : Fresh world after form)
    (same : Untouched after later) : Untouched world (lieFormDestroy form later) := by
  intro address
  unfold lieFormDestroy
  rw [form_destroyComponents]
  split_ifs with member
  · exact (fresh.fresh address member).symm
  · rw [same address, fresh.kept address member]

theorem Fresh.remains {scratch : LieForm Ref} (first : Fresh world after scratch)
    (alive : ∀ address ∈ scratch.components, ∃ component, after.form address = some component)
    (second : Fresh after later form) :
    Fresh world (lieFormDestroy scratch later) form ∧ ∀ address ∈ form.components, address ∉ scratch.components := by
  have apart : ∀ address ∈ form.components, address ∉ scratch.components := fun address member other => by
    obtain ⟨component, lives⟩ := alive address other
    rw [second.fresh address member] at lives
    cases lives
  refine ⟨⟨fun address member => ?_, second.distinct, fun address outside => ?_⟩, apart⟩
  · rw [← first.kept address (apart address member), second.fresh address member]
  · unfold lieFormDestroy
    rw [form_destroyComponents]
    split_ifs with scratched
    · exact (first.fresh address scratched).symm
    · rw [second.kept address outside, first.kept address scratched]

theorem componentAt_mem {a : Nat} (inside : a < form.components.length) :
    form.componentAt a ∈ form.components := by
  unfold LieForm.componentAt
  rw [List.getD_eq_getElem _ _ inside]
  exact List.getElem_mem inside

variable {address : Nat}

theorem mem_componentAt (member : address ∈ form.components) :
    ∃ a, a < form.components.length ∧ form.componentAt a = address := by
  obtain ⟨a, inside, same⟩ := List.getElem_of_mem member
  exact ⟨a, inside, by rw [LieForm.componentAt, List.getD_eq_getElem _ _ inside, same]⟩

theorem Filled.alive {holds : Fin n → Form Ref → Prop}
    (filled : Filled after form holds) : ∀ address ∈ form.components, ∃ component, after.form address = some component := by
  intro address member
  obtain ⟨a, inside, rfl⟩ := mem_componentAt member
  rw [filled.sized] at inside
  obtain ⟨component, lives, -⟩ := filled.filled ⟨a, inside⟩
  exact ⟨component, lives⟩

theorem Fresh.replaced {holds : Fin n → Form Ref → Prop}
    (fresh : Fresh world after form) (filled : Filled after form holds) {basis : Fin n} {component : Form Ref}
    (adds : Adds after later address component) (good : Form Ref → Prop)
    (fits : form.Fits component)
    (held : good component) :
    Fresh world (formDestroy (form.componentAt basis) later) (form.put basis address) ∧
      Filled (formDestroy (form.componentAt basis) later) (form.put basis address)
        (fun a component => if a = basis then good component else holds a component) := by
  have bound : basis.val < form.components.length := filled.sized ▸ basis.isLt
  have unused : address ∉ form.components := fun member => by
    obtain ⟨other, lives⟩ := filled.alive address member
    rw [adds.1] at lives
    cases lives
  have old := componentAt_mem bound
  have placed (a : Nat) : (form.put basis address).componentAt a =
      if a = basis.val then address else form.componentAt a := by
    unfold LieForm.put LieForm.componentAt
    simp only [List.getD_eq_getElem?_getD, List.getElem?_set]
    by_cases same : a = basis.val
    · rw [if_pos same.symm, if_pos same, if_pos bound]
      rfl
    · rw [if_neg (Ne.symm same), if_neg same]
  have member (other : Nat) : other ∈ (form.put basis address).components → other = address ∨ other ∈ form.components := by
    intro inside
    rcases List.mem_or_eq_of_mem_set inside with kept | new
    · exact Or.inr kept
    · exact Or.inl new
  refine ⟨⟨fun other inside => ?_, ?_, fun other outside => ?_⟩, ⟨?_, fun a => ?_⟩⟩
  · rcases member other inside with rfl | kept
    · rw [← fresh.kept other unused, adds.1]
    · exact fresh.fresh other kept
  · exact fresh.distinct.set unused
  · rw [World.form_destroy]
    split_ifs with here
    · rw [here, fresh.fresh _ old]
    · have other' : other ≠ address := fun same => outside (same ▸ List.mem_set bound address)
      rw [adds.2.2 other other']
      by_cases inside : other ∈ form.components
      · obtain ⟨a, inside', rfl⟩ := mem_componentAt inside
        have different : a ≠ basis.val := fun same => here (same ▸ rfl)
        refine absurd ?_ outside
        have size : a < (form.put basis address).components.length := by
          unfold LieForm.put
          rwa [List.length_set]
        have found := componentAt_mem size
        rwa [placed, if_neg different] at found
      · exact fresh.kept other inside
  · exact (List.length_set ..).trans filled.sized
  · rw [placed]
    by_cases same : a = basis
    · subst same
      have apart : address ≠ form.componentAt a := fun clash => unused (by rw [clash]; exact old)
      rw [if_pos rfl, World.form_destroy, if_neg apart]
      exact ⟨component, adds.2.1, fits, by rw [if_pos rfl]; exact held⟩
    · have different : a.val ≠ basis.val := fun equal => same (Fin.ext equal)
      obtain ⟨other, lives, fits', held'⟩ := filled.filled a
      have apart : form.componentAt a ≠ form.componentAt basis := by
        intro clash
        unfold LieForm.componentAt at clash
        have boundA : a.val < form.components.length := filled.sized ▸ a.isLt
        rw [List.getD_eq_getElem _ _ boundA, List.getD_eq_getElem _ _ bound] at clash
        exact different ((List.Nodup.getElem_inj_iff fresh.distinct).mp clash)
      rw [if_neg different, World.form_destroy, if_neg apart]
      exact ⟨other, adds.lives lives, fits', by rw [if_neg same]; exact held'⟩

theorem Fresh.appended {k : Nat} {good : Form Ref → Prop}
    (fresh : Fresh world after form) (filled : Filled after form (fun (_ : Fin k) => good))
    {component : Form Ref} (adds : Adds after later address component)
    (fits : form.Fits component)
    (held : good component) :
    Fresh world later { form with components := form.components ++ [address] } ∧
      Filled later { form with components := form.components ++ [address] } (fun (_ : Fin (k + 1)) => good) := by
  have unused : address ∉ form.components := fun member => by
    obtain ⟨other, lives⟩ := filled.alive address member
    rw [adds.1] at lives
    cases lives
  have member (other : Nat) (inside : other ∈ form.components ++ [address]) : other ∈ form.components ∨ other = address :=
    (List.mem_append.mp inside).imp id List.mem_singleton.mp
  refine ⟨⟨fun other inside => ?_, ?_, fun other outside => ?_⟩, ⟨?_, fun a => ?_⟩⟩
  · rcases member other inside with old | rfl
    · exact fresh.fresh other old
    · rw [← fresh.kept other unused, adds.1]
  · exact List.nodup_append.mpr ⟨fresh.distinct, List.nodup_singleton address, fun other old other' new same =>
      unused (List.mem_singleton.mp new ▸ same ▸ old)⟩
  · have apart : other ≠ address := fun same => outside (List.mem_append_right _ (List.mem_singleton.mpr same))
    rw [adds.2.2 other apart, fresh.kept other (fun old => outside (List.mem_append_left _ old))]
  · rw [List.length_append, filled.sized, List.length_singleton]
  · unfold LieForm.componentAt
    by_cases last : a.val < k
    · obtain ⟨other, lives, fits', held'⟩ := filled.filled ⟨a, last⟩
      rw [List.getD_append _ _ _ _ (filled.sized ▸ last)]
      exact ⟨other, adds.lives lives, fits', held'⟩
    · have here : a.val = form.components.length := by
        rw [filled.sized]
        omega
      rw [List.getD_append_right _ _ _ _ here.ge, here, Nat.sub_self]
      exact ⟨component, adds.2.1, fits, held⟩

theorem fresh_nil (same : Untouched world after) (algebra : LieAlgebra Ref)
    (manifold : Manifold Ref) (chartIndex degree : Nat) (good : Form Ref → Prop) :
    Fresh world after ⟨algebra, manifold, chartIndex, degree, []⟩ ∧
      Filled after ⟨algebra, manifold, chartIndex, degree, []⟩ (fun (_ : Fin 0) => good) :=
  ⟨⟨fun _ inside => absurd inside List.not_mem_nil, List.nodup_nil, fun address _ => same address⟩,
    ⟨rfl, fun a => a.elim0⟩⟩

def Blank (form : Form Ref) : Prop := ∀ position, form.componentAt position = form.zero

theorem wp_createComponent {algebra : LieAlgebra Ref} {manifold : Manifold Ref}
    {chartIndex degree k : Nat} {made : List Nat} (fresh : Fresh world after ⟨algebra, manifold, chartIndex, degree, made⟩)
    (filled : Filled after ⟨algebra, manifold, chartIndex, degree, made⟩ (fun (_ : Fin k) => Blank)) :
    wp (createComponent manifold chartIndex degree made)
      (fun made' later => Fresh world later ⟨algebra, manifold, chartIndex, degree, made'⟩ ∧
        Filled later ⟨algebra, manifold, chartIndex, degree, made'⟩ (fun (_ : Fin (k + 1)) => Blank))
      (fun _ later => Untouched world later) after := by
  unfold createComponent
  rw [wp_bind, wp_abandoning]
  refine wp_mono (wp_formCreate manifold chartIndex degree after) ?_ (fun _ later refused =>
    fresh.destroyed (fun address => by unfold World.form; rw [refused.1]))
  rintro address later ⟨rfl, component, last, manifold', chart', degree', blank⟩
  rw [wp_pure]
  refine fresh.appended filled (adds_last last) ⟨manifold', chart', degree'⟩ (fun position => ?_)
  unfold Form.zero
  rw [blank, manifold']

theorem wp_lieFormCreate {algebra : LieAlgebra Ref} (sized : algebra.dimension = n) (manifold : Manifold Ref)
    (chartIndex degree : Nat) (world : World State Ref) :
    wp (lieFormCreate algebra manifold chartIndex degree)
      (fun form after => Fresh world after form ∧ form.Shape algebra manifold chartIndex degree ∧
        Filled after form (fun (_ : Fin n) => Blank))
      (fun _ after => Untouched world after) world := by
  unfold lieFormCreate
  refine wp_ite (fun _ => Untouched.refl world) (fun _ => wp_ite (fun _ => Untouched.refl world) (fun _ => ?_))
  refine wp_ite (fun _ => Untouched.refl world) (fun _ => ?_)
  simp only [wp_bind, wp_get, wp_set]
  refine wp_ite (fun _ => ?_) (fun _ => Untouched.refl world)
  rw [wp_bind, sized]
  have start := fresh_nil (show Untouched world { world with heap := world.heap.alloc.2 } from Untouched.refl world)
    algebra manifold chartIndex degree Blank
  refine wp_good (wp_countUp (fun done made after => Fresh world after ⟨algebra, manifold, chartIndex, degree, made⟩ ∧
    Filled after ⟨algebra, manifold, chartIndex, degree, made⟩ (fun (_ : Fin done) => Blank)) n 0 [] _ start
    (fun _ made after _ _ held => wp_createComponent held.1 held.2)) ?_
  rw [Nat.zero_add]
  exact fun made after held => ⟨held.1, ⟨rfl, rfl, rfl, rfl⟩, held.2⟩

end PhyNspire.Qft

import PhyNspire.Qft.LieElements

/-!
An algebra is created exactly for the structure constants of a Lie algebra, and what the
operations return in it obeys the laws of one.
-/

namespace PhyNspire.Qft
open Platform Cas Tensor Lib.Stateful Lib.LieForms Lib.LieProducts

variable {State Ref K : Type}

structure Interns (intern : List UInt8 → EStateM Status State Nat) (symbolOf : List UInt8 → Nat) (mayStop : Prop) : Prop where
  distinct : Function.Injective symbolOf
  intern : ∀ name s, wp (intern name) (fun symbol _ => symbol = symbolOf name ∧ name ≠ []) (fun _ _ => mayStop ∨ name = []) s

def WellNamed (name : List UInt8) (basisNames : List (List UInt8)) : Prop :=
  (∀ text ∈ name :: basisNames, text ≠ []) ∧ basisNames.Nodup

section Create

variable {intern : List UInt8 → EStateM Status State Nat} {symbolOf : List UInt8 → Nat} {mayStop : Prop}
  (interns : Interns intern symbolOf mayStop)
include interns

theorem wp_internBasis (names prior : List (List UInt8)) (distinct : prior.Nodup) (s : State) :
    wp (internBasis intern names (prior.map symbolOf))
      (fun basis _ => basis.length = prior.length + names.length ∧ (∀ text ∈ names, text ≠ []) ∧ (prior ++ names).Nodup)
      (fun _ _ => mayStop ∨ ¬((∀ text ∈ names, text ≠ []) ∧ (prior ++ names).Nodup)) s := by
  induction names generalizing prior s with
  | nil =>
    unfold internBasis
    rw [wp_pure, List.append_nil, List.length_map]
    exact ⟨rfl, fun _ never => absurd never List.not_mem_nil, distinct⟩
  | cons name names ih =>
    unfold internBasis
    rw [wp_bind]
    refine wp_mono (interns.intern name s) (fun symbol t known => ?_) (fun _ _ stopped => stopped.imp_right (fun empty all =>
      all.1 name List.mem_cons_self empty))
    obtain ⟨rfl, named⟩ := known
    have split : prior ++ name :: names = (prior ++ [name]) ++ names := by rw [List.append_assoc, List.singleton_append]
    refine wp_ite (fun twice => Or.inr (fun all => ?_)) (fun fresh => ?_)
    · obtain ⟨other, member, same⟩ := List.mem_map.mp twice
      rw [interns.distinct same] at member
      exact List.disjoint_of_nodup_append all.2 member List.mem_cons_self
    · have apart : name ∉ prior := fun member => fresh (List.mem_map_of_mem member)
      have distinct' : (prior ++ [name]).Nodup := List.nodup_append.mpr ⟨distinct, List.nodup_singleton name,
        fun a inside b last same => apart (List.mem_singleton.mp last ▸ same ▸ inside)⟩
      have rest := ih (prior ++ [name]) distinct' t
      rw [List.map_append, List.map_singleton] at rest
      refine wp_mono rest (fun basis _ known => ?_) (fun _ _ stopped => stopped.imp_right (fun other all => ?_))
      · rw [split]
        refine ⟨?_, fun text member => ?_, known.2.2⟩
        · rw [known.1, List.length_append, List.length_singleton, List.length_cons]
          omega
        · rcases List.mem_cons.mp member with rfl | later
          · exact named
          · exact known.2.1 text later
      · exact other ⟨fun text member => all.1 text (List.mem_cons_of_mem name member), split ▸ all.2⟩

variable [CommRing K] {engine : Placed State Ref} {value : Ref → Option K} (deciding : Deciding engine.toCas value mayStop)
  {n : Nat} {f : Fin n → Fin n → Fin n → K} {name : List UInt8} {basisNames : List (List UInt8)} {constants : List Ref}
include deciding

theorem wp_lieAlgebraCreate (positive : 0 < n) (small : n ≤ lieMaxDim) (counted : basisNames.length = n)
    (dense : constants.length = n * n * n)
    (denote : ∀ a b c : Fin n, ∃ constant, constants[constantOffset n a b c]? = some constant ∧
      value constant = some (f a b c)) (memory : Memory State) :
    wp (lieAlgebraCreate engine intern name basisNames constants)
      (fun algebra _ => (WellNamed name basisNames ∧ IsLie f) ∧ Constants value algebra f)
      (fun _ _ => Refused mayStop memory.heap ∨ ¬(WellNamed name basisNames ∧ IsLie f)) memory := by
  unfold lieAlgebraCreate
  rw [if_neg (by omega), if_neg (by omega), wp_bind, wp_get, wp_bind]
  refine wp_mono (wp_request memory) (fun _ after _ => ?_) (fun _ _ refused => Or.inl (Or.inr refused))
  rw [wp_bind, Tensor.wp_scalar]
  refine wp_mono (interns.intern name after.session) (fun symbol session known => ?_)
    (fun _ _ stopped => stopped.imp Or.inl (fun empty all => all.1.1 name List.mem_cons_self empty))
  rw [wp_bind, Tensor.wp_scalar]
  refine wp_mono (wp_internBasis interns basisNames [] List.nodup_nil session) (fun basis session' named => ?_)
    (fun _ _ stopped => stopped.imp Or.inl (fun other all =>
      other ⟨fun text member => all.1.1 text (List.mem_cons_of_mem name member), all.1.2⟩))
  have wellNamed : WellNamed name basisNames := by
    refine ⟨fun text member => ?_, named.2.2⟩
    rcases List.mem_cons.mp member with rfl | later
    · exact known.2
    · exact named.2.1 text later
  have checked : (0 < basisNames.length ∧ basisNames.length ≤ lieMaxDim) ∧ basis.length = basisNames.length ∧
      constants.length = basisNames.length * basisNames.length * basisNames.length := by
    refine ⟨by omega, ?_, by rw [counted, dense]⟩
    rw [named.1, List.length_nil, Nat.zero_add]
  rw [dif_pos checked, wp_bind, Tensor.wp_scalar]
  have table (algebra : LieAlgebra Ref) (dimension : algebra.dimension = basisNames.length)
      (copied : algebra.constants = constants) : Constants value algebra f := by
    refine ⟨dimension.trans counted, fun a b c => ?_⟩
    obtain ⟨constant, found, denotes⟩ := denote a b c
    refine ⟨constant, ?_, denotes⟩
    unfold lieStructureConstant
    rw [if_neg (by omega), copied, dimension, counted]
    exact found
  refine wp_mono (wp_lieAlgebraValidate deciding (table _ rfl rfl) session') (fun _ _ lie => ?_)
    (fun _ _ stopped => stopped.imp Or.inl (fun other all => other all.2))
  exact ⟨⟨wellNamed, lie⟩, table _ rfl rfl⟩

end Create

/-- What the operations in an algebra with the structure constants `f` return, and when they fail. -/
structure LieOperations [CommRing K] [DecidableEq Ref] (cas : Cas State Ref) (value : Ref → Option K) (mayStop : Prop) {n : Nat}
    (algebra : LieAlgebra Ref) (f : Fin n → Fin n → Fin n → K) : Prop where
  basis : ∀ (a : Fin n) (memory : Memory State), wp (lieBasisElement cas algebra a)
    (fun result _ => result.algebra = algebra ∧ Stands value result (Pi.single a (1 : K)))
    (fun _ _ => Refused mayStop memory.heap) memory
  add : ∀ (left right : LieElement Ref) (x y : Fin n → K) (memory : Memory State), left.algebra = algebra →
    right.algebra = algebra → Stands value left x → Stands value right y → wp (lieElementAdd cas left right)
      (fun result _ => result.algebra = algebra ∧ Stands value result (x + y)) (fun _ _ => Refused mayStop memory.heap) memory
  scale : ∀ (element : LieElement Ref) (x : Fin n → K) (factor : Ref) (k : K) (memory : Memory State),
    element.algebra = algebra → Stands value element x → value factor = some k → wp (lieElementScale cas element factor)
      (fun result _ => result.algebra = algebra ∧ Stands value result (k • x)) (fun _ _ => Refused mayStop memory.heap) memory
  bracket : ∀ (left right : LieElement Ref) (x y : Fin n → K) (memory : Memory State), left.algebra = algebra →
    right.algebra = algebra → Stands value left x → Stands value right y → wp (lieBracket cas left right)
      (fun result _ => result.algebra = algebra ∧ Stands value result (product f x y))
      (fun _ _ => Refused mayStop memory.heap) memory
  adjoint : ∀ (a row column : Fin n) (s : State), wp (lieAdjointComponent algebra a row column)
    (fun ref _ => value ref = some (adjoint f a row column)) (fun _ _ => False) s
  killing : ∀ (a b : Fin n) (s : State), wp (lieKillingComponent cas algebra a b)
    (fun ref _ => value ref = some (killing f a b)) (fun _ _ => mayStop) s

theorem lieOperations [CommRing K] [DecidableEq Ref] {cas : Cas State Ref} {value : Ref → Option K} {mayStop : Prop}
    (deciding : Deciding cas value mayStop) {n : Nat} {algebra : LieAlgebra Ref} {f : Fin n → Fin n → Fin n → K}
    (constants : Constants value algebra f) : LieOperations cas value mayStop algebra f where
  basis a memory := wp_lieBasisElement deciding.toArithmetic constants.1 a memory
  add left right x y memory inside inside' first second := by
    have sums := wp_lieElementAdd deciding.toArithmetic first second (inside.trans inside'.symm) memory
    rwa [inside] at sums
  scale element x factor k memory inside stands denotes := by
    have scaled := wp_lieElementScale deciding.toArithmetic stands denotes memory
    rwa [inside] at scaled
  bracket left right x y memory inside inside' first second := by
    have products := wp_lieBracket deciding.toArithmetic first second (inside.symm ▸ constants) (inside.trans inside'.symm) memory
    rwa [inside] at products
  adjoint a row column s := wp_structureArgument constants a column row (fun _ denotes => denotes)
  killing a b s := wp_lieKillingComponent deciding constants a b s

/-- Creation accepts the structure constants of Lie algebras and nothing else, and the operations in an accepted
algebra obey the laws. -/
theorem lie_algebras_are_lie [CommRing K] [DecidableEq Ref] {intern : List UInt8 → EStateM Status State Nat}
    {symbolOf : List UInt8 → Nat} {mayStop : Prop} (interns : Interns intern symbolOf mayStop) {engine : Placed State Ref}
    {value : Ref → Option K} (deciding : Deciding engine.toCas value mayStop) {n : Nat} (positive : 0 < n)
    (small : n ≤ lieMaxDim) (f : Fin n → Fin n → Fin n → K) (name : List UInt8) (basisNames : List (List UInt8))
    (constants : List Ref) (counted : basisNames.length = n) (dense : constants.length = n * n * n)
    (denote : ∀ a b c : Fin n, ∃ constant, constants[constantOffset n a b c]? = some constant ∧
      value constant = some (f a b c)) (memory : Memory State) :
    wp (lieAlgebraCreate engine intern name basisNames constants)
      (fun algebra _ => (WellNamed name basisNames ∧ IsLie f) ∧ LieOperations engine.toCas value mayStop algebra f ∧ Laws f)
      (fun _ _ => Refused mayStop memory.heap ∨ ¬(WellNamed name basisNames ∧ IsLie f)) memory :=
  wp_good (wp_lieAlgebraCreate interns deciding positive small counted dense denote memory)
    (fun _ _ created => ⟨created.1, lieOperations deciding created.2, laws created.1.2⟩)

def internNumbered (name : List UInt8) : EStateM Status Unit Nat :=
  if name = [] then throw .invalidArgument else pure (Encodable.encode (name.map UInt8.toNat))

/-- The algebra of two generators with `[T₁, T₂] = T₂`. -/
def twoGenerators (a b c : Fin 2) : ℤ := if c.val = 1 then b.val - a.val else 0

theorem lie_algebras_are_lie_affine : ∃ algebra after,
    lieAlgebraCreate (⟨constants 0, 0⟩ : Placed Unit ℂ) internNumbered [103] [[84, 49], [84, 50]] [0, 0, 0, 1, 0, -1, 0, 0]
      ⟨(), ⟨fun _ => true, 0⟩⟩ = .ok algebra after ∧
    LieOperations (constants 0).toCas some False algebra (fun a b c => ((twoGenerators a b c : ℤ) : ℂ)) := by
  have interns : Interns internNumbered (fun name => Encodable.encode (name.map UInt8.toNat)) False := by
    refine ⟨fun first second same => ?_, fun name s => ?_⟩
    · exact List.map_injective_iff.mpr (fun a b => UInt8.toNat_inj.mp) (Encodable.encode_injective same)
    · exact wp_ite (fun empty => Or.inr empty) (fun named => ⟨rfl, named⟩)
  have lie : IsLie (fun a b c => ((twoGenerators a b c : ℤ) : ℂ)) :=
    isLie_map (Int.castRingHom ℂ) (g := twoGenerators) ⟨by decide, by decide⟩
  have deciding : Deciding (⟨constants 0, 0⟩ : Placed Unit ℂ).toCas some False := constants_deciding 0 False
  have accepted := lie_algebras_are_lie interns deciding (by decide) (by decide)
    (fun a b c => ((twoGenerators a b c : ℤ) : ℂ)) [103] [[84, 49], [84, 50]] [0, 0, 0, 1, 0, -1, 0, 0] rfl rfl
    (fun a b c => ⟨((twoGenerators a b c : ℤ) : ℂ), by
      fin_cases a <;> fin_cases b <;> fin_cases c <;> simp [constantOffset, twoGenerators], rfl⟩) ⟨(), ⟨fun _ => true, 0⟩⟩
  cases run : lieAlgebraCreate (⟨constants 0, 0⟩ : Placed Unit ℂ) internNumbered [103] [[84, 49], [84, 50]]
    [0, 0, 0, 1, 0, -1, 0, 0] ⟨(), ⟨fun _ => true, 0⟩⟩ with
  | ok algebra after => exact ⟨algebra, after, rfl, ((wp_of_ok run).mp accepted).2.1⟩
  | error status after =>
    rcases (wp_of_error run).mp accepted with (never | ⟨_, never⟩) | other
    · exact absurd never not_false
    · cases never
    · exact absurd ⟨⟨by decide, by decide⟩, lie⟩ other

end PhyNspire.Qft

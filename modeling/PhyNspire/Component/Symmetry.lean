import Mathlib.Data.Int.Order.Units
import PhyNspire.Cas.Polynomials
import PhyNspire.Component.Table

/-!
Component tensors in use: after any sequence of calls, whatever their outcome, the table
realizes the declared symmetry. Each orbit of index tuples has at most one entry, at its
least tuple, and it holds the value that was accepted last for the orbit.
-/

namespace PhyNspire.Component
open Platform Lib.Stateful Cas Permutation.Perm Permutation.Elements Permutation.Runs

variable {State Ref K : Type} {n : Nat}

def SameOrbit (G : Subgroup (Signed n)) (indices other : Indices n) : Prop := ∃ g ∈ G, moved g other = indices

section
variable {G : Subgroup (Signed n)} {i j k key key' : Indices n} {sign sign' : Int} {g h : Signed n}

theorem SameOrbit.symm (same : SameOrbit G i j) : SameOrbit G j i := by
  obtain ⟨g, member, rfl⟩ := same
  exact ⟨g⁻¹, inv_mem member, by rw [← moved_mul, mul_inv_cancel, moved_one]⟩

theorem SameOrbit.trans (first : SameOrbit G i j) (second : SameOrbit G j k) : SameOrbit G i k := by
  obtain ⟨g, member, rfl⟩ := first
  obtain ⟨h, member', rfl⟩ := second
  exact ⟨h * g, mul_mem member' member, moved_mul h g k⟩

theorem Canonical.sameOrbit (canonical : Canonical G i (key, sign)) : SameOrbit G key i := canonical.orbit

theorem Canonical.forced_iff (left : Canonical G i (key, sign)) (right : Canonical G j (key', sign'))
    (same : SameOrbit G i j) : sign = 0 ↔ sign' = 0 := by
  have carried : ∀ {i j}, SameOrbit G i j → (∃ g ∈ G, g.1 = -1 ∧ moved g j = j) →
      ∃ g ∈ G, g.1 = -1 ∧ moved g i = i := by
    rintro _ j ⟨g, member, rfl⟩ ⟨r, reversal, minus, fixed⟩
    refine ⟨g⁻¹ * r * g, mul_mem (mul_mem (inv_mem member) reversal) member, ?_, ?_⟩
    · rw [Prod.fst_mul, Prod.fst_mul, Prod.fst_inv, mul_right_comm, inv_mul_cancel, one_mul, minus]
    · rw [← moved_mul, mul_assoc, mul_inv_cancel_left, moved_mul, fixed]
  rw [left.forced, right.forced]
  exact ⟨carried same.symm, carried same⟩

theorem Canonical.key_unique (left : Canonical G i (key, sign)) (right : Canonical G j (key', sign'))
    (same : SameOrbit G i j) (nonzero : sign ≠ 0) : key = key' := by
  have nonzero' : sign' ≠ 0 := fun zero => nonzero ((left.forced_iff right same).mpr zero)
  have below : ∀ {i j key key' : Indices n} {sign sign' : Int}, Canonical G i (key, sign) → sign ≠ 0 →
      Canonical G j (key', sign') → SameOrbit G i j → toLex key ≤ toLex key' := by
    intro i j key key' sign sign' left nonzero right same
    obtain ⟨g, member, moves⟩ := right.sameOrbit.trans same.symm
    rw [← moves]
    exact left.least nonzero g member
  exact toLex.injective (le_antisymm (below left nonzero right same) (below right nonzero' left same.symm))

theorem Canonical.sign_unique (canonical : Canonical G i (key, sign)) (nonzero : sign ≠ 0) (left : g ∈ G)
    (right : h ∈ G) (same : moved g i = moved h i) : g.1 = h.1 := by
  by_contra different
  exact nonzero (canonical.forced.mpr (reversal_of_tie left right same different))

theorem Canonical.sign_eq (canonical : Canonical G i (key, sign)) (nonzero : sign ≠ 0) (member : g ∈ G)
    (moves : moved g i = key) : (g.1 : Int) = sign := by
  obtain ⟨b, inside, best, signed⟩ := canonical.reached nonzero
  rw [canonical.sign_unique nonzero member inside (moves.trans best.symm)]
  exact signed

theorem Canonical.self (canonical : Canonical G i (key, sign)) (nonzero : sign ≠ 0) : Canonical G key (key, 1) := by
  obtain ⟨b, inside, best, signed⟩ := canonical.reached nonzero
  have free : ¬∃ g ∈ G, g.1 = -1 ∧ moved g key = key := by
    rintro ⟨r, reversal, minus, fixed⟩
    have same : (b * r).1 = b.1 := by
      refine canonical.sign_unique nonzero (mul_mem inside reversal) inside ?_
      rw [moved_mul, best, fixed]
    rw [Prod.fst_mul, mul_eq_left, minus] at same
    exact absurd same (by decide)
  refine ⟨⟨1, one_mem _, rfl⟩, ⟨fun never => (by cases never), fun reversed => absurd reversed free⟩,
    fun _ => ⟨1, one_mem _, rfl, rfl⟩, fun _ g member => ?_⟩
  have least := canonical.least nonzero (b * g) (mul_mem inside member)
  rwa [moved_mul, best] at least

theorem Canonical.moved_sign (canonical : Canonical G i (key, sign)) (nonzero : sign ≠ 0) (member : g ∈ G)
    (moved_canonical : Canonical G (moved g i) (key', sign')) : key' = key ∧ sign' = g.1 * sign := by
  have same : SameOrbit G (moved g i) i := ⟨g, member, rfl⟩
  have nonzero' : sign' ≠ 0 := fun zero => nonzero ((moved_canonical.forced_iff canonical same).mp zero)
  obtain rfl := moved_canonical.key_unique canonical same nonzero'
  refine ⟨rfl, ?_⟩
  obtain ⟨b, inside, best, signed⟩ := moved_canonical.reached nonzero'
  rw [← canonical.sign_eq nonzero (mul_mem member inside) ((moved_mul g b i).trans best), Prod.fst_mul, Units.val_mul,
    ← mul_assoc, ← Units.val_mul, Int.units_mul_self, Units.val_one, one_mul]
  exact signed.symm

end

inductive ComponentCall (Ref : Type) (n : Nat) where
  | canonicalIndices (indices : Indices n)
  | set (indices : Indices n) (value : Ref)
  | get (indices : Indices n)

namespace ComponentCall

def exec (cas : Cas State Ref) : ComponentCall Ref n → ComponentM State Ref n Unit
  | canonicalIndices indices => (fun _ => ()) <$> componentTensorCanonicalIndices indices
  | set indices value => componentTensorSet cas indices value
  | get indices => (fun _ => ()) <$> componentTensorGet cas indices

/-- What a call that succeeds adds to the accepted values. -/
def additions : ComponentCall Ref n → List (Indices n × Ref)
  | set indices value => [(indices, value)]
  | _ => []

/-- The accepted values, newest first, and the memory after a call, however it ends. -/
def after (cas : Cas State Ref) (call : ComponentCall Ref n) (accepted : List (Indices n × Ref)) (world : World State Ref n) :
    List (Indices n × Ref) × World State Ref n :=
  match call.exec cas world with
  | .ok _ world' => (call.additions ++ accepted, world')
  | .error _ world' => (accepted, world')

end ComponentCall

/-- The memories that calls on a new tensor bring about, with the values accepted on the way. Between
two calls the scalar engine and the allocator may be used by others. -/
inductive Reachable (cas : Cas State Ref) : List (Indices n × Ref) → World State Ref n → Prop where
  | create {head : TensorHead n} {bases : Fin n → ComponentBasis} {valence : Fin n → Nat}
      {requested : Option ComponentLimits} {session : State} {heap : Heap} {world : World State Ref n}
      (created : componentTensorCreate cas head bases valence requested session heap = .ok world) :
      Reachable cas [] world
  | call {accepted : List (Indices n × Ref)} {world : World State Ref n} (before : Reachable cas accepted world)
      (call : ComponentCall Ref n) :
      Reachable cas (call.after cas accepted world).1 (call.after cas accepted world).2
  | elsewhere {accepted : List (Indices n × Ref)} {world : World State Ref n} (before : Reachable cas accepted world)
      (session : State) (heap : Heap) : Reachable cas accepted { world with session := session, heap := heap }

/-- The value accepted last for the orbit of a tuple, and the tuple that it was given for. -/
def LastFor (G : Subgroup (Signed n)) : List (Indices n × Ref) → Indices n → Indices n × Ref → Prop
  | [], _, _ => False
  | latest :: earlier, indices, found =>
      SameOrbit G indices latest.1 ∧ found = latest ∨ ¬SameOrbit G indices latest.1 ∧ LastFor G earlier indices found

theorem LastFor.sameOrbit {G : Subgroup (Signed n)} {accepted : List (Indices n × Ref)} {indices : Indices n}
    {found : Indices n × Ref} (last : LastFor G accepted indices found) : SameOrbit G indices found.1 := by
  induction accepted with
  | nil => cases last
  | cons latest earlier ih =>
    rcases last with ⟨same, rfl⟩ | ⟨_, older⟩
    · exact same
    · exact ih older

def Vanished (cas : Cas State Ref) (ref : Ref) : Prop :=
  DecidedZero cas ref ∨ ∃ sign kept, Transported cas sign ref kept ∧ DecidedZero cas kept

/-- What holds of the table between calls. -/
structure Faithful (cas : Cas State Ref) (G : Subgroup (Signed n)) (accepted entries : List (Indices n × Ref)) : Prop where
  distinct : (Keys entries).Nodup
  canonical : ∀ entry ∈ entries, Canonical G entry.1 (entry.1, 1)
  nonzero : ∀ entry ∈ entries, NotDecidedZero cas entry.2
  kept : ∀ entry ∈ entries, ∃ given ref, LastFor G accepted entry.1 (given, ref) ∧
    ∀ g ∈ G, moved g given = entry.1 → Transported cas g.1 ref entry.2
  dropped : ∀ indices given ref, LastFor G accepted indices (given, ref) →
    (∀ entry ∈ entries, ¬SameOrbit G entry.1 indices) → Vanished cas ref

theorem Faithful.empty (cas : Cas State Ref) (G : Subgroup (Signed n)) : Faithful cas G [] [] :=
  ⟨List.nodup_nil, fun _ member => (by cases member), fun _ member => (by cases member),
    fun _ member => (by cases member), fun _ _ _ never => never.elim⟩

/-- A set that succeeds keeps the table faithful to the values accepted so far. -/
theorem Faithful.set {cas : Cas State Ref} {G : Subgroup (Signed n)} {accepted entries entries' : List (Indices n × Ref)}
    (faithful : Faithful cas G accepted entries) {indices : Indices n} {value : Ref}
    (setTo : SetTo cas G indices value entries entries') : Faithful cas G ((indices, value) :: accepted) entries' := by
  obtain ⟨key, sign, canonical, ⟨vanishing, decided, rfl⟩ | ⟨nonzero, kept, zero, transported, tested, replaced⟩⟩ := setTo
  · -- an orbit that is forced to vanish has no entry
    have apart : ∀ entry ∈ entries', ¬SameOrbit G entry.1 indices := by
      intro entry member same
      have forced := ((faithful.canonical entry member).forced_iff canonical same).mpr vanishing
      cases forced
    refine ⟨faithful.distinct, faithful.canonical, faithful.nonzero, fun entry member => ?_, ?_⟩
    · obtain ⟨given, ref, last, moves⟩ := faithful.kept entry member
      exact ⟨given, ref, .inr ⟨apart entry member, last⟩, moves⟩
    · rintro other given ref (⟨_, same⟩ | ⟨_, older⟩) absent
      · obtain ⟨rfl, rfl⟩ := Prod.mk.inj same
        exact .inl decided
      · exact faithful.dropped other given ref older absent
  · have here : ∀ entry ∈ entries, SameOrbit G entry.1 indices → entry.1 = key := fun entry member same =>
      (faithful.canonical entry member).key_unique canonical same (by decide)
    have old : ∀ entry ∈ entries', entry.1 ≠ key → entry ∈ entries := fun entry member different => by
      rcases (replaced.members entry).mp member with ⟨listed, _⟩ | ⟨same, _⟩
      · exact listed
      · exact absurd same different
    have fresh : ∀ entry ∈ entries', entry.1 = key → zero = false ∧ entry.2 = kept := fun entry member same => by
      rcases (replaced.members entry).mp member with ⟨_, different⟩ | ⟨_, value⟩
      · exact absurd same different
      · cases zero with
        | true => cases value
        | false => exact ⟨rfl, Option.some.inj value⟩
    refine ⟨replaced.distinct, fun entry member => ?_, fun entry member => ?_, fun entry member => ?_, ?_⟩
    · by_cases same : entry.1 = key
      · rw [same]
        exact canonical.self nonzero
      · exact faithful.canonical entry (old entry member same)
    · by_cases same : entry.1 = key
      · obtain ⟨open', rfl⟩ := fresh entry member same
        exact tested.2 open'
      · exact faithful.nonzero entry (old entry member same)
    · by_cases same : entry.1 = key
      · obtain ⟨_, value'⟩ := fresh entry member same
        refine ⟨indices, value, .inl ⟨same ▸ canonical.sameOrbit, rfl⟩, fun g inside moves => ?_⟩
        rw [canonical.sign_eq nonzero inside (moves.trans same), value']
        exact transported
      · obtain ⟨given, ref, last, moves⟩ := faithful.kept entry (old entry member same)
        exact ⟨given, ref, .inr ⟨fun orbit => same (here entry (old entry member same) orbit), last⟩, moves⟩
    · rintro other given ref (⟨orbit, same⟩ | ⟨apart, older⟩) absent
      · obtain ⟨rfl, rfl⟩ := Prod.mk.inj same
        cases zero with
        | true => exact .inr ⟨sign, kept, transported, tested.1 rfl⟩
        | false =>
          refine absurd ?_ (absent (key, kept) ((replaced.members _).mpr (.inr ⟨rfl, rfl⟩)))
          exact canonical.sameOrbit.trans orbit.symm
      · refine faithful.dropped other given ref older fun entry member same => ?_
        by_cases at' : entry.1 = key
        · refine apart (same.symm.trans ?_)
          rw [at']
          exact canonical.sameOrbit
        · exact absent entry ((replaced.members entry).mpr (.inl ⟨member, at'⟩)) same

structure InUse (cas : Cas State Ref) (accepted : List (Indices n × Ref)) (world : World State Ref n) : Prop where
  realized : Realized world.tensor
  faithful : Faithful cas (slotGroup world.tensor.head) accepted world.tensor.entries
  zero : ∃ s t, cas.number 0 1 s = .ok world.tensor.zero t

theorem InUse.steady {cas : Cas State Ref} {accepted : List (Indices n × Ref)} {world world' : World State Ref n}
    (inUse : InUse cas accepted world) (steady : Steady world world') : InUse cas accepted world' := by
  refine ⟨steady.realized inUse.realized, ?_, ?_⟩
  · rw [steady.head, steady.entries]
    exact inUse.faithful
  · rw [steady.zero]
    exact inUse.zero

theorem componentTensorCreate_spec {cas : Cas State Ref} {head : TensorHead n} {bases : Fin n → ComponentBasis}
    {valence : Fin n → Nat} {requested : Option ComponentLimits} {session : State} {heap : Heap} {world : World State Ref n}
    (created : componentTensorCreate cas head bases valence requested session heap = .ok world) :
    InUse cas [] world ∧ world.tensor.head = head := by
  have built := @componentTensorBuild_spec Ref n head bases valence requested heap
  unfold wp at built
  unfold componentTensorCreate at created
  cases run : @componentTensorBuild Ref n head bases valence requested heap with
  | error status heap => simp [run] at created
  | ok finish heap =>
    simp only [run] at built created
    cases number : cas.number 0 1 session with
    | error status session => simp [number] at created
    | ok zero session =>
      simp only [number, Except.ok.injEq] at created
      subst created
      obtain ⟨fresh, same⟩ := built zero
      refine ⟨⟨fresh.realized, ?_, ?_⟩, fresh.head⟩
      · rw [fresh.empty]
        exact .empty _ _
      · rw [same]
        exact ⟨_, _, number⟩

theorem ComponentCall.inUse {cas : Cas State Ref} {accepted : List (Indices n × Ref)} {world : World State Ref n}
    (call : ComponentCall Ref n) (inUse : InUse cas accepted world) :
    InUse cas (call.after cas accepted world).1 (call.after cas accepted world).2 := by
  have outcome : wp (call.exec cas) (fun _ world' => InUse cas (call.additions ++ accepted) world')
      (fun _ world' => InUse cas accepted world') world := by
    cases call with
    | canonicalIndices indices =>
      rw [exec, wp_map]
      exact wp_mono (componentTensorCanonicalIndices_spec indices world inUse.realized)
        (fun _ _ held => inUse.steady held.1.steady) (fun _ _ stopped => inUse.steady stopped.1.steady)
    | set indices value =>
      refine wp_mono (componentTensorSet_spec cas indices value world inUse.realized inUse.faithful.distinct) ?_
        (fun _ _ stopped => inUse.steady stopped)
      rintro _ world' ⟨kept, setTo⟩
      refine ⟨kept.realized inUse.realized, ?_, ?_⟩
      · rw [kept.head]
        exact inUse.faithful.set setTo
      · rw [kept.zero]
        exact inUse.zero
    | get indices =>
      rw [exec, wp_map]
      exact wp_mono (componentTensorGet_spec cas indices world inUse.realized)
        (fun _ _ held => inUse.steady held.1) (fun _ _ stopped => inUse.steady stopped)
  unfold wp at outcome
  unfold after
  cases run : call.exec cas world <;> rw [run] at outcome <;> exact outcome

theorem Reachable.inUse {cas : Cas State Ref} {accepted : List (Indices n × Ref)} {world : World State Ref n}
    (reachable : Reachable cas accepted world) : InUse cas accepted world := by
  induction reachable with
  | create created => exact (componentTensorCreate_spec created).1
  | call _ call ih => exact call.inUse ih
  | elsewhere _ session heap ih => exact ih.steady ⟨⟨rfl, rfl, rfl, rfl, rfl⟩, rfl⟩

section
variable [CommRing K] {cas : Cas State Ref} {value : Ref → Option K} {partialBy : Ref → Derivation ℤ K K}

theorem Transported.denotes (exact' : Exact cas value partialBy) {sign : Int} {ref ref' : Ref}
    (transported : Transported cas sign ref ref') {x : K} (given : value ref = some x) :
    value ref' = some (sign * x) := by
  obtain ⟨rfl, rfl⟩ | ⟨rfl, s, t, run⟩ := transported
  · rw [given, Int.cast_one, one_mul]
  · have held := exact'.neg ref x s given
    rw [wp_of_ok run] at held
    rw [held, Int.cast_neg, Int.cast_one, neg_one_mul]

theorem DecidedZero.denotes (exact' : Exact cas value partialBy) {ref : Ref} (decided : DecidedZero cas ref) {x : K}
    (given : value ref = some x) : x = 0 := by
  obtain ⟨s, t, run⟩ := decided
  have held := exact'.isZero ref x s given
  rw [wp_of_ok run] at held
  exact held.1 rfl

theorem Transported.sign_eq {sign : Int} {ref ref' : Ref} (transported : Transported cas sign ref ref') :
    sign = 1 ∨ sign = -1 := transported.imp And.left And.left

theorem Vanished.denotes (exact' : Exact cas value partialBy) {ref : Ref} (vanished : Vanished cas ref) {x : K}
    (given : value ref = some x) : x = 0 := by
  rcases vanished with decided | ⟨sign, kept, transported, decided⟩
  · exact decided.denotes exact' given
  · have zero := decided.denotes exact' (transported.denotes exact' given)
    rcases transported.sign_eq with rfl | rfl <;> simpa using zero

theorem InUse.zero_value (exact' : Exact cas value partialBy) {accepted : List (Indices n × Ref)}
    {world : World State Ref n} (inUse : InUse cas accepted world) : value world.tensor.zero = some 0 := by
  obtain ⟨s, t, run⟩ := inUse.zero
  have held := exact'.number 0 s
  rw [wp_of_ok run, Int.cast_zero] at held
  exact held

section
variable {G : Subgroup (Signed n)} {accepted : List (Indices n × Ref)} {i j : Indices n} {found found' : Indices n × Ref}

theorem LastFor.along (last : LastFor G accepted i found) (same : SameOrbit G j i) : LastFor G accepted j found := by
  induction accepted with
  | nil => exact last
  | cons latest earlier ih =>
    rcases last with ⟨here, equal⟩ | ⟨apart, older⟩
    · exact .inl ⟨same.trans here, equal⟩
    · exact .inr ⟨fun here => apart (same.symm.trans here), ih older⟩

theorem LastFor.unique (last : LastFor G accepted i found) (last' : LastFor G accepted i found') : found = found' := by
  induction accepted with
  | nil => cases last
  | cons latest earlier ih =>
    rcases last with ⟨here, equal⟩ | ⟨apart, older⟩ <;> rcases last' with ⟨here', equal'⟩ | ⟨apart', older'⟩
    · exact equal.trans equal'.symm
    · exact absurd here apart'
    · exact absurd here' apart
    · exact ih older older'

theorem LastFor.exists_of_mem {entry : Indices n × Ref} (listed : entry ∈ accepted) (same : SameOrbit G i entry.1) :
    ∃ found, LastFor G accepted i found := by
  induction accepted with
  | nil => cases listed
  | cons latest earlier ih =>
    by_cases here : SameOrbit G i latest.1
    · exact ⟨latest, .inl ⟨here, rfl⟩⟩
    · rcases List.mem_cons.mp listed with rfl | older
      · exact absurd same here
      · obtain ⟨found, last⟩ := ih older
        exact ⟨found, .inr ⟨here, last⟩⟩

theorem LastFor.mem (last : LastFor G accepted i found) : found ∈ accepted := by
  induction accepted with
  | nil => cases last
  | cons latest earlier ih =>
    rcases last with ⟨_, rfl⟩ | ⟨_, older⟩
    · exact List.mem_cons_self
    · exact List.mem_cons_of_mem _ (ih older)

end

theorem HeldAt.unique {entries : List (Indices n × Ref)} (distinct : (Keys entries).Nodup) {zero : Ref} {key : Indices n}
    {ref ref' : Ref} (held : HeldAt entries zero key ref) (held' : HeldAt entries zero key ref') : ref = ref' := by
  rcases held with listed | ⟨absent, rfl⟩ <;> rcases held' with listed' | ⟨absent', rfl⟩
  · have inj := List.inj_on_of_nodup_map distinct listed listed' rfl
    exact congrArg Prod.snd inj
  · exact absurd rfl (absent' _ listed)
  · exact absurd rfl (absent _ listed')
  · rfl

theorem ReadAs.moved {cas : Cas State Ref} {G : Subgroup (Signed n)} {entries : List (Indices n × Ref)}
    (distinct : (Keys entries).Nodup) {zero result result' : Ref} {indices : Indices n} {g : Signed n} (member : g ∈ G)
    (read : ReadAs cas G indices entries zero result) (read' : ReadAs cas G (moved g indices) entries zero result') :
    result = zero ∧ result' = zero ∨
      ∃ held sign, Transported cas sign held result ∧ Transported cas (g.1 * sign) held result' := by
  obtain ⟨key, sign, canonical, outcome⟩ := read
  obtain ⟨key', sign', canonical', outcome'⟩ := read'
  have forced := canonical'.forced_iff canonical ⟨g, member, rfl⟩
  rcases outcome with ⟨vanishing, rfl⟩ | ⟨nonzero, held, heldAt, transported⟩ <;>
    rcases outcome' with ⟨vanishing', rfl⟩ | ⟨nonzero', held', heldAt', transported'⟩
  · exact .inl ⟨rfl, rfl⟩
  · exact absurd (forced.mpr vanishing) nonzero'
  · exact absurd (forced.mp vanishing') nonzero
  · obtain ⟨rfl, rfl⟩ := canonical.moved_sign nonzero member canonical'
    obtain rfl := heldAt.unique distinct heldAt'
    exact .inr ⟨held, sign, transported, transported'⟩

section
variable {accepted : List (Indices n × Ref)} {world : World State Ref n}

/-- A reading returns the value accepted last for the orbit with the sign of the element that leads there. -/
theorem ReadAs.latest (exact' : Exact cas value partialBy) (inUse : InUse cas accepted world) {indices given : Indices n}
    {ref result : Ref} (read : ReadAs cas (slotGroup world.tensor.head) indices world.tensor.entries world.tensor.zero result)
    (last : LastFor (slotGroup world.tensor.head) accepted indices (given, ref)) {g : Signed n}
    (member : g ∈ slotGroup world.tensor.head) (moves : Component.moved g given = indices) {x : K} (denotes : value ref = some x) :
    value result = some ((g.1 : Int) * x) := by
  obtain ⟨key, sign, canonical, outcome⟩ := read
  have vanishes : (∀ entry ∈ world.tensor.entries, ¬SameOrbit (slotGroup world.tensor.head) entry.1 indices) → x = 0 :=
    fun absent => (inUse.faithful.dropped _ _ _ last absent).denotes exact' denotes
  rcases outcome with ⟨vanishing, rfl⟩ | ⟨nonzero, held, heldAt, transported⟩
  · have none : x = 0 := vanishes fun entry inside same => by
      have forced := ((inUse.faithful.canonical entry inside).forced_iff canonical same).mpr vanishing
      cases forced
    rw [none, mul_zero, inUse.zero_value exact']
  · rcases heldAt with listed | ⟨absent, rfl⟩
    · obtain ⟨given', ref', last', moves'⟩ := inUse.faithful.kept _ listed
      obtain ⟨rfl, rfl⟩ := Prod.mk.inj (last'.unique (last.along canonical.sameOrbit))
      obtain ⟨b, inside, best, signed⟩ := canonical.reached nonzero
      obtain rfl : (b.1 : Int) = sign := signed
      have kept := moves' (g * b) (mul_mem member inside) (by rw [moved_mul, moves, best])
      rw [transported.denotes exact' (kept.denotes exact' denotes)]
      refine congrArg some ?_
      rw [Prod.fst_mul, mul_comm g.1, Units.val_mul, Int.cast_mul, ← mul_assoc, ← mul_assoc, ← Int.cast_mul,
        ← Units.val_mul, Int.units_mul_self, Units.val_one, Int.cast_one, one_mul]
    · have none : x = 0 := vanishes fun entry inside same =>
        absent entry inside ((inUse.faithful.canonical entry inside).key_unique canonical same (by decide))
      rw [none, mul_zero, transported.denotes exact' (inUse.zero_value exact'), mul_zero]

theorem ReadAs.absent (exact' : Exact cas value partialBy) (inUse : InUse cas accepted world) {indices : Indices n}
    {result : Ref} (read : ReadAs cas (slotGroup world.tensor.head) indices world.tensor.entries world.tensor.zero result)
    (none : ∀ entry ∈ accepted, ¬SameOrbit (slotGroup world.tensor.head) indices entry.1) : value result = some 0 := by
  obtain ⟨key, sign, canonical, ⟨_, rfl⟩ | ⟨_, held, listed | ⟨_, rfl⟩, transported⟩⟩ := read
  · exact inUse.zero_value exact'
  · obtain ⟨given, ref, last, _⟩ := inUse.faithful.kept _ listed
    exact absurd (canonical.sameOrbit.symm.trans last.sameOrbit) (none _ last.mem)
  · rw [transported.denotes exact' (inUse.zero_value exact'), mul_zero]

theorem ReadAs.signed (exact' : Exact cas value partialBy) (inUse : InUse cas accepted world) {indices : Indices n}
    {result result' : Ref} {g : Signed n} (member : g ∈ slotGroup world.tensor.head)
    (read : ReadAs cas (slotGroup world.tensor.head) indices world.tensor.entries world.tensor.zero result)
    (read' : ReadAs cas (slotGroup world.tensor.head) (Component.moved g indices) world.tensor.entries world.tensor.zero result')
    (denotes : ∀ given ref, LastFor (slotGroup world.tensor.head) accepted indices (given, ref) → ∃ x, value ref = some x) :
    ∃ x, value result = some x ∧ value result' = some ((g.1 : Int) * x) := by
  have same : SameOrbit (slotGroup world.tensor.head) (Component.moved g indices) indices := ⟨g, member, rfl⟩
  by_cases none : ∀ entry ∈ accepted, ¬SameOrbit (slotGroup world.tensor.head) indices entry.1
  · refine ⟨0, read.absent exact' inUse none, ?_⟩
    rw [mul_zero]
    exact read'.absent exact' inUse fun entry listed orbit => none entry listed (same.symm.trans orbit)
  · obtain ⟨⟨given, ref⟩, last⟩ : ∃ found, LastFor (slotGroup world.tensor.head) accepted indices found := by
      simp only [not_forall, not_not] at none
      obtain ⟨entry, listed, orbit⟩ := none
      exact LastFor.exists_of_mem listed orbit
    obtain ⟨x, known⟩ := denotes given ref last
    obtain ⟨h, inside, moves⟩ := last.sameOrbit
    refine ⟨(h.1 : Int) * x, read.latest exact' inUse last inside moves known, ?_⟩
    rw [read'.latest exact' inUse (last.along same) (mul_mem inside member)
      ((moved_mul h g given).trans (congrArg (Component.moved g) moves)) known, Prod.fst_mul, Units.val_mul, Int.cast_mul,
      mul_comm (((h.1 : Int)) : K), mul_assoc]

end

end

/-- What the store promises, after the values accepted so far. -/
structure Realization (cas : Cas State Ref) (value : Ref → Option K) [CommRing K] (accepted : List (Indices n × Ref))
    (world : World State Ref n) : Prop where
  canonicalIndices : ∀ indices, wp (componentTensorCanonicalIndices indices)
    (fun result _ => Canonical (slotGroup world.tensor.head) indices result)
    (fun status _ => status = .timeout ∨ status = .invalidArgument ∧ validateIndices world.tensor indices = false) world
  keys : ∀ entry ∈ world.tensor.entries, Canonical (slotGroup world.tensor.head) entry.1 (entry.1, 1)
  distinct : (Keys world.tensor.entries).Nodup
  nonzero : ∀ entry ∈ world.tensor.entries, NotDecidedZero cas entry.2
  failed : ∀ indices ref, wp (componentTensorSet cas indices ref) (fun _ _ => True)
    (fun _ world' => world'.tensor.entries = world.tensor.entries) world
  /-- Two readings come from one handle, with signs that differ by the sign of the element. -/
  symmetric : ∀ indices, ∀ g ∈ slotGroup world.tensor.head, ∀ world', Steady world world' →
    wp (componentTensorGet cas indices)
      (fun result _ => wp (componentTensorGet cas (moved g indices))
        (fun result' _ => result = world.tensor.zero ∧ result' = world.tensor.zero ∨
          ∃ held sign, Transported cas sign held result ∧ Transported cas (g.1 * sign) held result')
        (fun _ _ => True) world')
      (fun _ _ => True) world
  signed : ∀ indices, ∀ g ∈ slotGroup world.tensor.head, ∀ world', Steady world world' →
    (∀ given ref, LastFor (slotGroup world.tensor.head) accepted indices (given, ref) → ∃ x, value ref = some x) →
    wp (componentTensorGet cas indices)
      (fun result _ => wp (componentTensorGet cas (moved g indices))
        (fun result' _ => ∃ x, value result = some x ∧ value result' = some ((g.1 : Int) * x))
        (fun _ _ => True) world')
      (fun _ _ => True) world
  latest : ∀ indices given ref, LastFor (slotGroup world.tensor.head) accepted indices (given, ref) →
    ∀ g ∈ slotGroup world.tensor.head, moved g given = indices → ∀ x, value ref = some x →
    wp (componentTensorGet cas indices) (fun result _ => value result = some ((g.1 : Int) * x)) (fun _ _ => True) world
  absent : ∀ indices, (∀ entry ∈ accepted, ¬SameOrbit (slotGroup world.tensor.head) indices entry.1) →
    wp (componentTensorGet cas indices) (fun result _ => value result = some 0) (fun _ _ => True) world

/-- After any calls on a tensor, the store realizes the slot group of its head: the orbit has its least
tuple as key, and readings along the orbit differ by signs. -/
theorem component_store [CommRing K] {cas : Cas State Ref} {value : Ref → Option K} {partialBy : Ref → Derivation ℤ K K}
    (exact' : Exact cas value partialBy) {accepted : List (Indices n × Ref)} {world : World State Ref n}
    (reachable : Reachable cas accepted world) : Realization cas value accepted world := by
  have inUse := reachable.inUse
  have reads := fun indices => componentTensorGet_spec cas indices world inUse.realized
  refine ⟨fun indices => ?_, inUse.faithful.canonical, inUse.faithful.distinct, inUse.faithful.nonzero, fun indices ref => ?_,
    fun indices g member world' steady => ?_, fun indices g member world' steady denotes => ?_, fun indices given ref last g member moves x denotes => ?_,
    fun indices none => ?_⟩
  · exact wp_mono (componentTensorCanonicalIndices_spec indices world inUse.realized) (fun _ _ held => held.2.2)
      (fun _ _ stopped => stopped.2)
  · exact wp_mono (componentTensorSet_spec cas indices ref world inUse.realized inUse.faithful.distinct)
      (fun _ _ _ => trivial) (fun _ _ stopped => stopped.entries)
  · refine wp_mono (reads indices) (fun result _ held => ?_) (fun _ _ _ => trivial)
    refine wp_mono (componentTensorGet_spec cas (moved g indices) world' (steady.realized inUse.realized)) ?_
      (fun _ _ _ => trivial)
    rintro result' _ ⟨_, read'⟩
    rw [steady.head, steady.entries, steady.zero] at read'
    exact held.2.moved inUse.faithful.distinct member read'
  · refine wp_mono (reads indices) (fun result _ held => ?_) (fun _ _ _ => trivial)
    refine wp_mono (componentTensorGet_spec cas (moved g indices) world' (steady.realized inUse.realized)) ?_
      (fun _ _ _ => trivial)
    rintro result' _ ⟨_, read'⟩
    rw [steady.head, steady.entries, steady.zero] at read'
    exact held.2.signed exact' inUse member read' denotes
  · exact wp_mono (reads indices) (fun _ _ held => held.2.latest exact' inUse last member moves denotes) (fun _ _ _ => trivial)
  · exact wp_mono (reads indices) (fun _ _ held => held.2.absent exact' inUse none) (fun _ _ _ => trivial)

def plane : ComponentBasis := ⟨0, 0, 2⟩

def exchange : Words 2 := fun slot => if slot.val = 0 then 1 else 0

def antisymmetricHead : TensorHead 2 := ⟨fun _ => 0, [(exchange, -1)], by decide, by decide⟩

/-- A head that is declared symmetric and antisymmetric. -/
def vanishingHead : TensorHead 2 := ⟨fun _ => 0, [(exchange, 1), (exchange, -1)], by decide, by decide⟩

/-- A head without slots that is declared equal to its negative. -/
def scalarHead : TensorHead 0 := ⟨fun _ => 0, [(fun slot => slot.elim0, -1)], by decide, by decide⟩

def planeStore (head : TensorHead n) : Except Status (World Nat Poly n) :=
  componentTensorCreate (polynomials 0) head (fun _ => plane) (fun _ => indexLower) none 1000 ⟨fun _ => true, 0⟩

def onPlane {α : Type} (head : TensorHead n) (program : ComponentM Nat Poly n α) : Option α :=
  match planeStore head with
  | .ok world => valueOf program world
  | .error _ => none

theorem onPlane_some {α : Type} {head : TensorHead n} {program : ComponentM Nat Poly n α} {result : α}
    (returned : onPlane head program = some result) :
    ∃ world world', Reachable (polynomials 0) [] world ∧ program world = .ok result world' ∧ world.tensor.head = head := by
  unfold onPlane at returned
  cases created : planeStore head with
  | error status => simp [created] at returned
  | ok world =>
    rw [created] at returned
    refine ⟨world, ?_⟩
    unfold valueOf at returned
    have same : world.tensor.head = head := (componentTensorCreate_spec created).2
    cases run : program world with
    | error status world' => simp [run] at returned
    | ok value world' =>
      simp only [run, Option.some.injEq] at returned
      exact ⟨world', .create created, by rw [returned], same⟩

def upper : Indices 2 := fun slot => if slot.val = 0 then 0 else 1
def lower : Indices 2 := fun slot => if slot.val = 0 then 1 else 0

/-- The entry `T[1,0] = 1` of an antisymmetric tensor, read as `T[0,1]`. -/
theorem component_store_antisymmetric :
    ∃ world world', Reachable (polynomials 0) [(lower, [(1, [])])] world ∧
      Realization (polynomials 0) polynomialValue [(lower, [(1, [])])] world ∧
      componentTensorGet (polynomials 0) upper world = .ok [(-1, [])] world' := by
  have returned : onPlane antisymmetricHead (do
      componentTensorSet (polynomials 0) lower [(1, [])]
      componentTensorGet (polynomials 0) upper) = some [(-1, [])] := by
    decide +kernel
  obtain ⟨world, last, fresh, run, -⟩ := onPlane_some returned
  change EStateM.bind _ _ world = _ at run
  unfold EStateM.bind at run
  cases put : componentTensorSet (polynomials 0) lower [(1, [])] world with
  | error status world' => simp [put] at run
  | ok value world' =>
    rw [put] at run
    have after : Reachable (polynomials 0) _ _ := .call fresh (.set lower [(1, [])])
    rw [ComponentCall.after, ComponentCall.exec, put] at after
    exact ⟨world', last, after, component_store (polynomials_exact 0) after, run⟩

/-- Where the group reverses a tuple, the tuple handed out with sign zero need not be the least one;
and a head without slots is never forced to vanish, even if it is declared equal to its negative. -/
theorem canonical_not_least :
    (∃ world world' : World Nat Poly 2, Reachable (polynomials 0) [] world ∧
      componentTensorCanonicalIndices lower world = .ok (lower, 0) world' ∧
      ∃ g ∈ generatedFrom world.tensor.head.generators, toLex (moved g lower) < toLex lower) ∧
    ∃ world world' : World Nat Poly 0, ∃ tuple : Indices 0, Reachable (polynomials 0) [] world ∧
      componentTensorCanonicalIndices tuple world = .ok (tuple, 1) world' ∧
      ∃ g ∈ generatedFrom world.tensor.head.generators, g.1 = -1 ∧ moved g tuple = tuple := by
  refine ⟨?_, ?_⟩
  · have returned : onPlane vanishingHead (componentTensorCanonicalIndices lower) = some (lower, 0) := by decide +kernel
    obtain ⟨world, world', fresh, run, same⟩ := onPlane_some returned
    refine ⟨world, world', fresh, run, ?_⟩
    rw [same]
    refine ⟨(1, Equiv.swap 0 1), Subgroup.subset_closure ⟨(exchange, 1), by simp [vanishingHead], rfl, by decide⟩, ?_⟩
    exact ⟨0, fun slot before => absurd before (by simp), by decide⟩
  · have returned : onPlane scalarHead (componentTensorCanonicalIndices fun slot => slot.elim0) =
        some (fun slot => slot.elim0, 1) := by decide +kernel
    obtain ⟨world, world', fresh, run, same⟩ := onPlane_some returned
    refine ⟨world, world', _, fresh, run, ?_⟩
    rw [same]
    exact ⟨(-1, 1), Subgroup.subset_closure ⟨(_, -1), List.mem_singleton.mpr rfl, rfl, fun slot => slot.elim0⟩, rfl, rfl⟩

end PhyNspire.Component

import PhyNspire.Component.Canonical

/-!
The sparse table of component.c: keys are canonical tuples, and a component whose value is
decided zero is not kept.
-/

namespace PhyNspire.Component
open Platform Lib.Stateful Cas Permutation.Perm

variable {State Ref : Type} {n : Nat}

def entryBlockBytes (rank capacity : Nat) : Option Nat :=
  if rank ≠ 0 ∧ sizeMax / rank < capacity then none
  else if sizeMax / 4 < rank * capacity then none
  else if (sizeMax - alignUp (rank * capacity * 4) 4) / 4 < capacity then none
  else some (alignUp (rank * capacity * 4) 4 + capacity * 4)

def growEntries : ComponentM State Ref n Unit := do
  let world ← get
  let tensor := world.tensor
  let maxEntries := tensor.limits.maxEntries.toNat
  if maxEntries ≤ tensor.entryCapacity then throw .termLimit
  else
    let doubled := if tensor.entryCapacity = 0 then 8 else tensor.entryCapacity * 2 % 2 ^ 32
    let capacity := if doubled < tensor.entryCapacity ∨ maxEntries < doubled then maxEntries else doubled
    match entryBlockBytes n capacity with
    | none => throw .memoryLimit
    | some bytes =>
        if tensor.otherBudget - tensor.bytesUsed < bytes then throw .memoryLimit
        else do
          set { world with heap := world.heap.alloc.2 }
          if !world.heap.alloc.1 then throw .memoryLimit
          else
            modify fun world => { world with tensor := { world.tensor with
              entryCapacity := capacity
              entryBytes := bytes
              bytesUsed := world.tensor.bytesUsed + bytes - world.tensor.entryBytes } }

def reserveEntry : ComponentM State Ref n Unit := do
  let world ← get
  if world.tensor.entries.length = world.tensor.entryCapacity then growEntries else pure ()

def findEntry (tensor : ComponentTensor Ref n) (indices : Indices n) : Option Nat :=
  tensor.entries.findIdx? fun entry => decide (entry.1 = indices)

def withEntries (change : List (Indices n × Ref) → List (Indices n × Ref)) (world : World State Ref n) :
    World State Ref n :=
  { world with tensor := { world.tensor with entries := change world.tensor.entries } }

def exactZero (cas : Cas State Ref) (value : Ref) : ComponentM State Ref n Bool := do
  let decision ← scalar (cas.isZero value)
  pure (decide (decision = .zero))

/-- The canonical tuple is written to `best_indices`; the result is its sign. -/
def canonicalInPlace (indices : Indices n) : ComponentM State Ref n Int := do
  let (best, sign) ← componentTensorCanonicalIndices indices
  modify fun world => { world with tensor := { world.tensor with bestIndices := best } }
  pure sign

/-- The value that is kept at the canonical tuple, and whether it is decided zero. -/
def canonicalValue (cas : Cas State Ref) (sign : Int) (value : Ref) (zero : Bool) : ComponentM State Ref n (Ref × Bool) :=
  if sign < 0 then do
    let negated ← scalar (cas.neg value)
    let zero ← exactZero cas negated
    pure (negated, zero)
  else pure (value, zero)

/-- The statements of `phy_component_tensor_set` that change the table. -/
def keepEntry (value : Ref) (zero : Bool) : ComponentM State Ref n Unit := do
  let world ← get
  let indices := world.tensor.bestIndices
  let found := findEntry world.tensor indices
  if zero then
    match found with
    | some entry => modify (withEntries fun entries => entries.eraseIdx entry)
    | none => pure ()
  else
    match found with
    | some entry => modify (withEntries fun entries => entries.modify entry fun old => (old.1, value))
    | none => do
        reserveEntry
        modify (withEntries fun entries => entries ++ [(indices, value)])

def componentTensorSet (cas : Cas State Ref) (indices : Indices n) (value : Ref) : ComponentM State Ref n Unit := do
  let sign ← canonicalInPlace indices
  let zero ← exactZero cas value
  if sign = 0 then
    if zero then pure () else throw .assumption
  else do
    let (kept, zero) ← canonicalValue cas sign value zero
    keepEntry kept zero

/-- What is stored at the canonical tuple just found; nothing stands for zero. -/
def storedValue (tensor : ComponentTensor Ref n) : Ref :=
  match findEntry tensor tensor.bestIndices with
  | some entry => (tensor.entries.map Prod.snd).getD entry tensor.zero
  | none => tensor.zero

def componentTensorGet (cas : Cas State Ref) (indices : Indices n) : ComponentM State Ref n Ref := do
  let sign ← canonicalInPlace indices
  let world ← get
  let tensor := world.tensor
  if sign = 0 then pure tensor.zero
  else if sign < 0 then scalar (cas.neg (storedValue tensor))
  else pure (storedValue tensor)

end PhyNspire.Component

/-!
What `phy_component_tensor_set` and `phy_component_tensor_get` do to the table, call by
call.
-/

namespace PhyNspire.Component
open Platform Lib.Stateful Cas Permutation.Perm Permutation.Elements

variable {State Ref : Type} {n : Nat}

theorem wp_scalar {α : Type} {program : EStateM Status State α} {good : α → World State Ref n → Prop}
    {bad : Status → World State Ref n → Prop} {world : World State Ref n}
    (held : wp program (fun value session => good value { world with session := session })
      (fun status session => bad status { world with session := session }) world.session) :
    wp (scalar program) good bad world := by
  unfold wp scalar at *
  cases run : program world.session <;> rw [run] at held <;> exact held

abbrev Keys (entries : List (Indices n × Ref)) : List (Indices n) := entries.map Prod.fst

/-- The parts of a tensor that no call changes. -/
structure Kept (world world' : World State Ref n) : Prop where
  head : world'.tensor.head = world.tensor.head
  bases : world'.tensor.bases = world.tensor.bases
  group : world'.tensor.group = world.tensor.group
  chain : world'.tensor.chain = world.tensor.chain
  zero : world'.tensor.zero = world.tensor.zero

theorem Kept.refl (world : World State Ref n) : Kept world world := ⟨rfl, rfl, rfl, rfl, rfl⟩

theorem Kept.trans {first second third : World State Ref n} (left : Kept first second) (right : Kept second third) :
    Kept first third :=
  ⟨right.head.trans left.head, right.bases.trans left.bases, right.group.trans left.group,
    right.chain.trans left.chain, right.zero.trans left.zero⟩

theorem Kept.realized {world world' : World State Ref n} (kept : Kept world world') (realized : Realized world.tensor) :
    Realized world'.tensor := by
  refine ⟨?_, ?_⟩
  · rw [kept.group, kept.head, kept.chain]
    exact realized.group
  · rw [kept.head, kept.bases]
    exact realized.bases

structure Steady (world world' : World State Ref n) : Prop extends Kept world world' where
  entries : world'.tensor.entries = world.tensor.entries

theorem Steady.refl (world : World State Ref n) : Steady world world := ⟨.refl world, rfl⟩

theorem Steady.trans {first second third : World State Ref n} (left : Steady first second)
    (right : Steady second third) : Steady first third :=
  ⟨left.toKept.trans right.toKept, right.entries.trans left.entries⟩

theorem Scratched.steady {world world' : World State Ref n} (scratched : Scratched world world') :
    Steady world world' := by
  obtain ⟨scratch, rfl⟩ := scratched
  exact ⟨⟨rfl, rfl, rfl, rfl, rfl⟩, rfl⟩

theorem findEntry_some {tensor : ComponentTensor Ref n} {indices : Indices n} {entry : Nat}
    (found : findEntry tensor indices = some entry) :
    ∃ before value after, tensor.entries = before ++ (indices, value) :: after ∧ before.length = entry := by
  obtain ⟨inside, same, _⟩ := List.findIdx?_eq_some_iff_getElem.mp found
  refine ⟨tensor.entries.take entry, (tensor.entries[entry]).2, tensor.entries.drop (entry + 1), ?_,
    List.length_take_of_le inside.le⟩
  have key : tensor.entries[entry] = (indices, (tensor.entries[entry]).2) :=
    Prod.ext (by simpa using same) rfl
  rw [← key, List.cons_getElem_drop_succ, List.take_append_drop]

theorem findEntry_none {tensor : ComponentTensor Ref n} {indices : Indices n}
    (absent : findEntry tensor indices = none) : ∀ entry ∈ tensor.entries, entry.1 ≠ indices := by
  have none := List.findIdx?_eq_none_iff.mp absent
  exact fun entry member same => by simpa [same] using none entry member

theorem modify_at_length {α : Type} (before after : List α) (old : α) (change : α → α) :
    (before ++ old :: after).modify before.length change = before ++ change old :: after := by
  induction before with
  | nil => rfl
  | cons head before ih => rw [List.cons_append, List.length_cons, List.modify_succ_cons, ih, List.cons_append]

structure Replaced (entries : List (Indices n × Ref)) (key : Indices n) (kept : Option Ref)
    (entries' : List (Indices n × Ref)) : Prop where
  distinct : (Keys entries').Nodup
  members : ∀ entry, entry ∈ entries' ↔ entry ∈ entries ∧ entry.1 ≠ key ∨ entry.1 = key ∧ some entry.2 = kept

theorem replaced_split {before after : List (Indices n × Ref)} {key : Indices n} {old : Ref}
    (distinct : (Keys (before ++ (key, old) :: after)).Nodup) :
    Replaced (before ++ (key, old) :: after) key none (before ++ after) ∧
      ∀ value, Replaced (before ++ (key, old) :: after) key (some value) (before ++ (key, value) :: after) := by
  have outside : ∀ entry : Indices n × Ref, entry ∈ before ∨ entry ∈ after → entry.1 ≠ key := by
    rw [Keys, List.map_append, List.map_cons, List.nodup_middle, List.nodup_cons, List.mem_append] at distinct
    rintro entry (early | late) same
    · exact distinct.1 (.inl (List.mem_map.mpr ⟨entry, early, same⟩))
    · exact distinct.1 (.inr (List.mem_map.mpr ⟨entry, late, same⟩))
  refine ⟨⟨?_, fun entry => ?_⟩, fun value => ⟨?_, fun entry => ?_⟩⟩
  · have smaller : (before ++ after).Sublist (before ++ (key, old) :: after) :=
      List.Sublist.append (List.Sublist.refl _) (List.sublist_cons_self _ _)
    exact distinct.sublist (smaller.map Prod.fst)
  · have := outside entry
    simp only [List.mem_append, List.mem_cons]
    grind
  · simpa only [Keys, List.map_append, List.map_cons] using distinct
  · have := outside entry
    obtain ⟨indices, held⟩ := entry
    simp only [List.mem_append, List.mem_cons, Prod.mk.injEq, Option.some.injEq]
    grind

theorem growEntries_spec (world : World State Ref n) :
    wp growEntries
      (fun _ world' => Steady world world' ∧ world'.tensor.bestIndices = world.tensor.bestIndices)
      (fun _ world' => Steady world world') world := by
  have same : ∀ (heap : Heap), Steady world { world with heap := heap } :=
    fun _ => ⟨⟨rfl, rfl, rfl, rfl, rfl⟩, rfl⟩
  unfold growEntries
  rw [wp_bind, wp_get]
  refine wp_ite (fun _ => .refl world) (fun _ => ?_)
  dsimp only
  split
  · exact .refl world
  · refine wp_ite (fun _ => .refl world) (fun _ => ?_)
    rw [wp_bind, wp_set]
    refine wp_ite (fun _ => same _) (fun _ => ?_)
    rw [wp_modify]
    exact ⟨⟨⟨rfl, rfl, rfl, rfl, rfl⟩, rfl⟩, rfl⟩

theorem reserveEntry_spec (world : World State Ref n) :
    wp reserveEntry
      (fun _ world' => Steady world world' ∧ world'.tensor.bestIndices = world.tensor.bestIndices)
      (fun _ world' => Steady world world') world := by
  unfold reserveEntry
  rw [wp_bind, wp_get]
  exact wp_ite (fun _ => growEntries_spec world) (fun _ => ⟨.refl world, rfl⟩)

theorem keepEntry_spec (value : Ref) (zero : Bool) (world : World State Ref n)
    (distinct : (Keys world.tensor.entries).Nodup) :
    wp (keepEntry value zero)
      (fun _ world' => Kept world world' ∧
        Replaced world.tensor.entries world.tensor.bestIndices (if zero then none else some value) world'.tensor.entries)
      (fun _ world' => Steady world world') world := by
  unfold keepEntry
  rw [wp_bind, wp_get]
  cases found : findEntry world.tensor world.tensor.bestIndices with
  | some entry =>
    simp only [found]
    obtain ⟨before, old, after, split, rfl⟩ := findEntry_some found
    rw [split] at distinct ⊢
    obtain ⟨dropped, replaced⟩ := replaced_split distinct
    refine wp_ite (fun yes => ?_) (fun no => ?_)
    · rw [wp_modify, if_pos yes]
      refine ⟨⟨rfl, rfl, rfl, rfl, rfl⟩, ?_⟩
      change Replaced _ _ _ (world.tensor.entries.eraseIdx before.length)
      rw [split, List.eraseIdx_append_of_length_le (Nat.le_refl _), Nat.sub_self, List.eraseIdx_cons_zero]
      exact dropped
    · rw [wp_modify, if_neg no]
      refine ⟨⟨rfl, rfl, rfl, rfl, rfl⟩, ?_⟩
      change Replaced _ _ _ (world.tensor.entries.modify before.length _)
      rw [split, modify_at_length]
      exact replaced value
  | none =>
    simp only [found]
    have outside := findEntry_none found
    refine wp_ite (fun yes => ?_) (fun no => ?_)
    · rw [wp_pure, if_pos yes]
      refine ⟨.refl world, distinct, fun entry => ⟨fun member => .inl ⟨member, outside entry member⟩, ?_⟩⟩
      rintro (⟨member, _⟩ | ⟨_, never⟩)
      · exact member
      · cases never
    · rw [if_neg no]
      have appended : ∀ world', Steady world world' → world'.tensor.bestIndices = world.tensor.bestIndices →
          wp (modify (withEntries fun entries => entries ++ [(world.tensor.bestIndices, value)]) : ComponentM State Ref n Unit)
            (fun _ world' => Kept world world' ∧
              Replaced world.tensor.entries world.tensor.bestIndices (some value) world'.tensor.entries)
            (fun _ world' => Steady world world') world' := by
        intro world' steady best
        rw [wp_modify]
        refine ⟨⟨steady.head, steady.bases, steady.group, steady.chain, steady.zero⟩, ?_⟩
        change Replaced _ _ _ (world'.tensor.entries ++ _)
        rw [steady.entries]
        refine ⟨?_, fun entry => ?_⟩
        · rw [Keys, List.map_append, List.nodup_append']
          refine ⟨distinct, List.nodup_singleton _, fun key listed last => ?_⟩
          obtain ⟨entry, member, rfl⟩ := List.mem_map.mp listed
          exact outside entry member (by simpa using last)
        · have := outside entry
          obtain ⟨indices, held⟩ := entry
          simp only [List.mem_append, List.mem_singleton, Prod.mk.injEq, Option.some.injEq]
          grind
      exact wp_then (reserveEntry_spec world) fun _ world' grown => appended world' grown.1 grown.2

def DecidedZero (cas : Cas State Ref) (ref : Ref) : Prop := ∃ s t, cas.isZero ref s = .ok .zero t

/-- The engine was asked and did not decide that the value is zero. -/
def NotDecidedZero (cas : Cas State Ref) (ref : Ref) : Prop :=
  ∃ s decision t, cas.isZero ref s = .ok decision t ∧ decision ≠ .zero

def Tested (cas : Cas State Ref) (ref : Ref) (zero : Bool) : Prop :=
  (zero = true → DecidedZero cas ref) ∧ (zero = false → NotDecidedZero cas ref)

/-- A handle that carries another one's value with a sign. -/
def Transported (cas : Cas State Ref) (sign : Int) (ref ref' : Ref) : Prop :=
  sign = 1 ∧ ref' = ref ∨ sign = -1 ∧ ∃ s t, cas.neg ref s = .ok ref' t

/-- The same table, with the canonical tuple still in place. -/
def InPlace (world world' : World State Ref n) : Prop :=
  Steady world world' ∧ world'.tensor.bestIndices = world.tensor.bestIndices

theorem InPlace.session (world : World State Ref n) (session : State) :
    InPlace world { world with session := session } := ⟨⟨⟨rfl, rfl, rfl, rfl, rfl⟩, rfl⟩, rfl⟩

theorem InPlace.trans {first second third : World State Ref n} (left : InPlace first second)
    (right : InPlace second third) : InPlace first third := ⟨left.1.trans right.1, right.2.trans left.2⟩

variable (cas : Cas State Ref)

theorem exactZero_spec (value : Ref) (world : World State Ref n) :
    wp (exactZero cas value) (fun zero world' => InPlace world world' ∧ Tested cas value zero)
      (fun _ world' => Steady world world') world := by
  unfold exactZero
  rw [wp_bind]
  refine wp_scalar (wp_of_run (fun decision session run => ?_) (fun _ session _ => (InPlace.session world session).1))
  rw [wp_pure]
  refine ⟨.session world session, fun zero => ?_, fun nonzero => ?_⟩
  · obtain rfl := of_decide_eq_true zero
    exact ⟨_, _, run⟩
  · exact ⟨_, _, _, run, of_decide_eq_false nonzero⟩

theorem canonicalValue_spec {sign : Int} (signed : sign = 1 ∨ sign = -1) (value : Ref) (zero : Bool)
    (tested : Tested cas value zero) (world : World State Ref n) :
    wp (canonicalValue cas sign value zero)
      (fun result world' => InPlace world world' ∧ Transported cas sign value result.1 ∧ Tested cas result.1 result.2)
      (fun _ world' => Steady world world') world := by
  unfold canonicalValue
  refine wp_ite (fun negative => ?_) (fun positive => ?_)
  · have minus : sign = -1 := by omega
    rw [wp_bind]
    refine wp_scalar (wp_of_run (fun negated session run => ?_) (fun _ session _ => (InPlace.session world session).1))
    rw [wp_bind]
    refine wp_mono (exactZero_spec cas negated _) ?_ (fun _ _ stopped => (InPlace.session world session).1.trans stopped)
    rintro zero world' ⟨same, tested⟩
    exact ⟨(InPlace.session world session).trans same, .inr ⟨minus, _, _, run⟩, tested⟩
  · exact ⟨⟨.refl world, rfl⟩, .inl ⟨by omega, rfl⟩, tested⟩

theorem canonicalInPlace_spec (indices : Indices n) (world : World State Ref n) (realized : Realized world.tensor) :
    wp (canonicalInPlace indices)
      (fun sign world' => Steady world world' ∧
        Canonical (slotGroup world.tensor.head) indices (world'.tensor.bestIndices, sign))
      (fun _ world' => Steady world world') world := by
  unfold canonicalInPlace
  rw [wp_bind]
  refine wp_mono (componentTensorCanonicalIndices_spec indices world realized) ?_ (fun _ _ stopped => stopped.1.steady)
  rintro ⟨best, sign⟩ world' ⟨scratched, _, canonical⟩
  rw [wp_bind, wp_modify]
  have steady := scratched.steady
  exact ⟨⟨⟨steady.head, steady.bases, steady.group, steady.chain, steady.zero⟩, steady.entries⟩, canonical⟩

theorem Canonical.signed {G : Subgroup (Signed n)} {indices key : Indices n} {sign : Int}
    (canonical : Canonical G indices (key, sign)) (nonzero : sign ≠ 0) : sign = 1 ∨ sign = -1 := by
  obtain ⟨g, _, _, same⟩ := canonical.reached nonzero
  rcases Int.units_eq_one_or g.1 with one | minus
  · exact .inl (same.symm.trans (congrArg Units.val one))
  · exact .inr (same.symm.trans (congrArg Units.val minus))

/-- What a call that sets a component has done once it succeeds. -/
def SetTo (G : Subgroup (Signed n)) (indices : Indices n) (value : Ref) (entries entries' : List (Indices n × Ref)) : Prop :=
  ∃ key sign, Canonical G indices (key, sign) ∧
    (sign = 0 ∧ DecidedZero cas value ∧ entries' = entries ∨
      sign ≠ 0 ∧ ∃ kept zero, Transported cas sign value kept ∧ Tested cas kept zero ∧
        Replaced entries key (if zero then none else some kept) entries')

theorem componentTensorSet_spec (indices : Indices n) (value : Ref) (world : World State Ref n)
    (realized : Realized world.tensor) (distinct : (Keys world.tensor.entries).Nodup) :
    wp (componentTensorSet cas indices value)
      (fun _ world' => Kept world world' ∧
        SetTo cas (slotGroup world.tensor.head) indices value world.tensor.entries world'.tensor.entries)
      (fun _ world' => Steady world world') world := by
  unfold componentTensorSet
  refine wp_then (canonicalInPlace_spec indices world realized) ?_
  rintro sign first ⟨steady, canonical⟩
  rw [wp_bind]
  refine wp_mono (exactZero_spec cas value first) ?_ (fun _ _ stopped => steady.trans stopped)
  rintro zero second ⟨same, tested⟩
  have steady' := steady.trans same.1
  rw [← same.2] at canonical
  refine wp_ite (fun vanishing => ?_) (fun nonzero => ?_)
  · refine wp_ite (fun decided => ?_) (fun _ => steady')
    exact ⟨steady'.toKept, _, sign, canonical, .inl ⟨vanishing, tested.1 decided, steady'.entries⟩⟩
  · rw [wp_bind]
    refine wp_mono (canonicalValue_spec cas (canonical.signed nonzero) value zero tested second) ?_
      (fun _ _ stopped => steady'.trans stopped)
    rintro ⟨kept, zero'⟩ third ⟨same', transported, tested'⟩
    have steady'' := steady'.trans same'.1
    rw [← same'.2] at canonical
    refine wp_mono (keepEntry_spec kept zero' third (by rw [steady''.entries]; exact distinct)) ?_
      (fun _ _ stopped => steady''.trans stopped)
    rintro _ last ⟨kept', replaced⟩
    rw [steady''.entries] at replaced
    exact ⟨steady''.toKept.trans kept', _, sign, canonical, .inr ⟨nonzero, kept, zero', transported, tested', replaced⟩⟩

/-- The value at a canonical tuple: what is kept there, or zero. -/
def HeldAt (entries : List (Indices n × Ref)) (zero : Ref) (key : Indices n) (ref : Ref) : Prop :=
  (key, ref) ∈ entries ∨ (∀ entry ∈ entries, entry.1 ≠ key) ∧ ref = zero

/-- What a call that reads a component returns. -/
def ReadAs (G : Subgroup (Signed n)) (indices : Indices n) (entries : List (Indices n × Ref)) (zero result : Ref) : Prop :=
  ∃ key sign, Canonical G indices (key, sign) ∧
    (sign = 0 ∧ result = zero ∨ sign ≠ 0 ∧ ∃ held, HeldAt entries zero key held ∧ Transported cas sign held result)

theorem componentTensorGet_spec (indices : Indices n) (world : World State Ref n) (realized : Realized world.tensor) :
    wp (componentTensorGet cas indices)
      (fun result world' => Steady world world' ∧
        ReadAs cas (slotGroup world.tensor.head) indices world.tensor.entries world.tensor.zero result)
      (fun _ world' => Steady world world') world := by
  unfold componentTensorGet
  refine wp_then (canonicalInPlace_spec indices world realized) ?_
  rintro sign first ⟨steady, canonical⟩
  rw [wp_bind, wp_get]
  refine wp_ite (fun vanishing => ?_) (fun nonzero => ?_)
  · exact ⟨steady, _, sign, canonical, .inl ⟨vanishing, steady.zero⟩⟩
  · have held : HeldAt world.tensor.entries world.tensor.zero first.tensor.bestIndices (storedValue first.tensor) := by
      rw [← steady.entries]
      unfold storedValue
      cases found : findEntry first.tensor first.tensor.bestIndices with
      | none => exact .inr ⟨findEntry_none found, steady.zero⟩
      | some entry =>
        obtain ⟨before, value, after, split, rfl⟩ := findEntry_some found
        refine .inl ?_
        dsimp only
        rw [split]
        simp
    have signed := canonical.signed nonzero
    refine wp_ite (fun negative => ?_) (fun positive => ?_)
    · refine wp_scalar (wp_of_run (fun result session run => ?_) (fun _ session _ => ?_))
      · have steady' := steady.trans (InPlace.session first session).1
        exact ⟨steady', _, sign, canonical, .inr ⟨nonzero, _, held, .inr ⟨by omega, _, _, run⟩⟩⟩
      · exact steady.trans (InPlace.session first session).1
    · exact ⟨steady, _, sign, canonical, .inr ⟨nonzero, _, held, .inl ⟨by omega, rfl⟩⟩⟩

end PhyNspire.Component

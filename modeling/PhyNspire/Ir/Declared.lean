import PhyNspire.Ir.Runs
import Mathlib.Data.List.Find
import Mathlib.Data.List.GetD

/-!
What a context has declared of its symbols: for each of them the assumption bits and the list of
slot pairs, latest first. The builders leave all of it alone; a new symbol starts with nothing, and
each accepted declaration changes the entry of one symbol.
-/

namespace PhyNspire.Ir.Declared
open Platform Lib Lib.Stateful Lib.Chains Expressions Context Symbols Nodes Builders Layout SymbolTable Calls Runs

structure SlotPair where
  low : Nat
  high : Nat
  symmetry : Nat
deriving DecidableEq, Repr

def SlotPair.slots (pair : SlotPair) : Nat × Nat := (pair.low, pair.high)

def SymmetryRecord.pair (record : SymmetryRecord) : SlotPair := ⟨record.slotA, record.slotB, record.symmetry⟩

/-- The indices on the way from `start` to the end of its list. -/
def visited (next : Nat → Nat) : Nat → Nat → List Nat
  | 0, _ => []
  | turns + 1, start => if start = 0 then [] else start :: visited next turns (next start)

def pairsFrom (pools : Pools) (head : Nat) : List SlotPair :=
  (visited (nextAt SymmetryRecord.next pools.symmetries) pools.symmetries.length head).map fun index =>
    SymmetryRecord.pair (pools.symmetries.getD index .null)

structure Declaration where
  assumptions : UInt32
  pairs : List SlotPair
deriving DecidableEq, Repr

def Declaration.none : Declaration := ⟨0, []⟩

def declarationOf (pools : Pools) (record : SymbolRecord) : Declaration :=
  ⟨record.assumptions, pairsFrom pools record.symmetryHead⟩

def declarations (pools : Pools) : List Declaration := pools.symbols.tail.map (declarationOf pools)

section

variable {s t u : IrContext} {pools pools' : Pools} {graph graph' : Graph} {next : Nat → Nat} {start turns : Nat} {chain : List Nat}

theorem visited_of_linked (linked : Linked next start chain) (enough : chain.length ≤ turns) : visited next turns start = chain := by
  induction chain generalizing start turns with
  | nil =>
    cases turns with
    | zero => rfl
    | succ turns => simp only [visited, show start = 0 from linked, if_true]
  | cons member rest ih =>
    obtain ⟨rfl, positive, tail⟩ := linked
    cases turns with
    | zero => simp at enough
    | succ turns => rw [visited, if_neg positive, ih tail (by simpa using enough)]

variable {record : SymbolRecord}

theorem exists_chain (sound : Sound pools graph) (inside : record ∈ pools.symbols) :
    ∃ chain, Linked (nextAt SymmetryRecord.next pools.symmetries) record.symmetryHead chain ∧
      (∀ index ∈ chain, index < pools.symmetries.length) ∧ chain.length ≤ pools.symmetries.length := by
  obtain ⟨owner, chained, -⟩ := sound.symmetries.owned
  obtain ⟨position, below, rfl⟩ := List.mem_iff_getElem.mp inside
  have linked := chained position (by rwa [List.length_map])
  rw [List.getD_eq_getElem _ _ (by rwa [List.length_map]), List.getElem_map] at linked
  refine ⟨_, linked, fun index member => (mem_members.mp member).2.1, ?_⟩
  have bound := length_members_le owner position pools.symmetries.length
  omega

theorem pairsFrom_of_linked (linked : Linked (nextAt SymmetryRecord.next pools.symmetries) start chain)
    (enough : chain.length ≤ pools.symmetries.length) :
    pairsFrom pools start = chain.map fun index => SymmetryRecord.pair (pools.symmetries.getD index .null) := by
  rw [pairsFrom, visited_of_linked linked enough]

@[simp] theorem pairsFrom_zero (pools : Pools) : pairsFrom pools 0 = [] := by
  unfold pairsFrom
  cases pools.symmetries.length <;> rfl

theorem pairsFrom_append (added : List SymmetryRecord) (linked : Linked (nextAt SymmetryRecord.next pools.symmetries) start chain)
    (inside : ∀ index ∈ chain, index < pools.symmetries.length) (enough : chain.length ≤ pools.symmetries.length)
    (grown : pools'.symmetries = pools.symmetries ++ added) : pairsFrom pools' start = pairsFrom pools start := by
  have linked' : Linked (nextAt SymmetryRecord.next pools'.symmetries) start chain := by
    apply linked.congr
    intro index member
    rw [grown]
    exact nextAt_append_left (inside index member)
  rw [pairsFrom_of_linked linked enough, pairsFrom_of_linked linked' (by rw [grown, List.length_append]; omega)]
  apply List.map_congr_left
  intro index member
  rw [grown, List.getD_append _ _ _ _ (inside index member)]

structure Aside (s t : IrContext) : Prop where
  symbols : t.pools.symbols = s.pools.symbols
  symmetries : t.pools.symmetries = s.pools.symmetries

theorem Aside.refl (s : IrContext) : Aside s s := ⟨rfl, rfl⟩

theorem Aside.trans (first : Aside s t) (second : Aside t u) : Aside s u :=
  ⟨second.symbols.trans first.symbols, second.symmetries.trans first.symmetries⟩

theorem Aside.of_kept (kept : Kept s t) : Aside s t := ⟨by rw [kept.pools], by rw [kept.pools]⟩

/-- A program that leaves the declarations alone, however it ends. -/
def Quiet {α : Type} (program : IrM α) : Prop := ∀ s, wp program (fun _ t => Aside s t) (fun _ t => Aside s t) s

namespace Quiet

variable {α β : Type}

theorem pure (value : α) : Quiet (Pure.pure value : IrM α) := fun s => .refl s

theorem throw (stop : Refusal) : Quiet (MonadExcept.throw stop : IrM α) := fun s => .refl s

theorem get : Quiet (MonadState.get : IrM IrContext) := fun s => .refl s

theorem edit {change : IrContext → IrContext} (aside : ∀ s, Aside s (change s)) : Quiet (modify change : IrM PUnit) := aside

variable {program : IrM α}

theorem bind {next : α → IrM β} (first : Quiet program) (later : ∀ value, Quiet (next value)) :
    Quiet (program >>= next) := by
  intro s
  rw [wp_bind]
  apply wp_mono (first s)
  · intro value t before
    exact wp_mono (later value t) (fun _ _ after => before.trans after) (fun _ _ after => before.trans after)
  · exact fun _ _ before => before

theorem ite {condition : Prop} [Decidable condition] {first second : IrM α} (taken : Quiet first) (skipped : Quiet second) :
    Quiet (if condition then first else second) := by
  split
  · exact taken
  · exact skipped

theorem attempt (quiet : Quiet program) : Quiet (Stateful.attempt program) := by
  intro s
  rw [wp_attempt]
  exact quiet s

theorem abandoning {cleanup : IrContext → IrContext} (quiet : Quiet program)
    (aside : ∀ s, Aside s (cleanup s)) : Quiet (Stateful.abandoning cleanup program) := by
  intro s
  rw [wp_abandoning]
  exact wp_mono (quiet s) (fun _ _ after => after) (fun _ t after => after.trans (aside t))

theorem setError (status : Status) : Quiet (Context.setError status) := edit fun _ => ⟨rfl, rfl⟩

theorem refuse (status : Status) : Quiet (Context.refuse status : IrM α) := (setError status).bind fun _ => throw _

theorem poolReserve (elemSize capacity needed : Nat) : Quiet (Context.poolReserve elemSize capacity needed) := fun _ =>
  wp_mono (poolReserve_spec _ _ _) (fun _ _ kept => .of_kept kept) (fun _ _ kept => .of_kept kept)

theorem reserve (pool : PoolName) (needed : Nat) : Quiet (Context.reserve pool needed) := fun _ =>
  wp_mono (reserve_spec _ _) (fun _ _ kept => .of_kept kept) (fun _ _ kept => .of_kept kept)

theorem setCapacity (pool : PoolName) (capacity : Nat) : Quiet (Context.setCapacity pool capacity) := edit fun _ => ⟨rfl, rfl⟩

theorem changePools {change : Pools → Pools} (symbols : ∀ pools, (change pools).symbols = pools.symbols)
    (symmetries : ∀ pools, (change pools).symmetries = pools.symmetries) : Quiet (Context.changePools change) :=
  edit fun s => ⟨symbols s.pools, symmetries s.pools⟩

theorem pushNode (node : Node) : Quiet (Context.pushNode node) :=
  get.bind fun _ => (reserve _ _).bind fun _ => bind (changePools (fun _ => rfl) (fun _ => rfl)) fun _ => pure _

theorem pushRational (rational : Rat64) : Quiet (Context.pushRational rational) :=
  get.bind fun _ => (reserve _ _).bind fun _ => bind (changePools (fun _ => rfl) (fun _ => rfl)) fun _ => pure _

theorem pushBigExact (record : BigExact) : Quiet (Context.pushBigExact record) :=
  get.bind fun _ => (reserve _ _).bind fun _ => bind (changePools (fun _ => rfl) (fun _ => rfl)) fun _ => pure _

theorem appendChildren (children : List Nat) : Quiet (Nodes.appendChildren children) :=
  get.bind fun _ => (reserve _ _).bind fun _ => bind (changePools (fun _ => rfl) (fun _ => rfl)) fun _ => pure _

theorem appendBigExact (bigExact : BigExactProto) : Quiet (Nodes.appendBigExact bigExact) := by
  apply get.bind
  intro s
  apply ite (throw _)
  apply (reserve _ _).bind
  intro _
  exact bind (changePools (fun _ => rfl) (fun _ => rfl)) fun _ => abandoning (pushBigExact _) fun _ => ⟨rfl, rfl⟩

theorem nodeRehash : Quiet Nodes.nodeRehash := by
  apply get.bind
  intro s
  apply ite (pure _)
  apply (attempt ((poolReserve _ _ _).bind fun _ => pure _)).bind
  intro made
  cases made with
  | none => exact edit fun _ => ⟨rfl, rfl⟩
  | some made =>
    apply bind
    · exact edit fun _ => ⟨rfl, rfl⟩
    intro _
    exact (setCapacity _ _).bind fun _ => changePools (fun _ => rfl) (fun _ => rfl)

theorem appendPayload (proto : Node) (extra : Extra) : Quiet (Nodes.appendPayload proto extra) := by
  unfold Nodes.appendPayload
  split
  · exact (appendBigExact _).bind fun _ => pure _
  · exact (pushRational _).bind fun _ => pure _
  · exact ite ((appendChildren _).bind fun _ => pure _) (pure _)

theorem publishNode (proto : Node) (extra : Extra) : Quiet (Nodes.publishNode proto extra) := by
  apply get.bind
  intro s
  apply (appendPayload proto extra).bind
  intro node
  apply bind
  · exact abandoning (pushNode _) fun _ => ⟨rfl, rfl⟩
  intro index
  exact bind (changePools (fun _ => rfl) (fun _ => rfl)) fun _ => nodeRehash.bind fun _ => pure _

theorem internNode (proto : Node) (extra : Extra) : Quiet (Nodes.internNode proto extra) := by
  apply get.bind
  intro s
  split
  · exact pure _
  · exact ite (refuse _) (publishNode proto extra)

theorem irRational (numerator denominator : Int64) : Quiet (Builders.irRational numerator denominator) := by
  unfold Builders.irRational
  apply ite (refuse _)
  apply ite (internNode _ _)
  apply ite (refuse _)
  exact ite (internNode _ _) (internNode _ _)

theorem onExact {exact : Exact.Context.ExactContext} (program : Exact.Context.ExactM α) : Quiet (Builders.onExact exact program) := by
  intro s
  unfold Builders.onExact
  rw [wp_bind, wp_get]
  split
  · exact ⟨rfl, rfl⟩
  · exact ⟨rfl, rfl⟩

theorem allocate : Quiet Builders.allocate := fun _ => ⟨rfl, rfl⟩

theorem publishBigRational (exact : Exact.Context.ExactContext) (value : Exact.Rational.Bigrat) :
    Quiet (Builders.publishBigRational exact value) := by
  unfold Builders.publishBigRational
  split
  · exact irRational _ _
  apply (onExact _).bind
  intro _
  apply (onExact _).bind
  intro _
  apply allocate.bind
  intro _
  apply allocate.bind
  intro _
  apply ite (refuse _)
  apply (onExact _).bind
  intro _
  apply (onExact _).bind
  intro _
  apply ite (refuse _)
  exact ite (internNode _ _) (internNode _ _)

theorem copyDecimalToken (text : List UInt8) : Quiet (Builders.copyDecimalToken text) := by
  apply ite ((setError _).bind fun _ => pure _)
  apply allocate.bind
  exact fun _ => ite (pure _) ((setError _).bind fun _ => pure _)

theorem exactReaderCreate : Quiet Builders.exactReaderCreate := by
  intro s
  unfold Builders.exactReaderCreate
  simp only [wp_bind, wp_get, wp_set]
  split
  · exact ⟨rfl, rfl⟩
  · exact ⟨rfl, rfl⟩

theorem irRationalTextN (numerator denominator : List UInt8) : Quiet (Builders.irRationalTextN numerator denominator) := by
  apply (copyDecimalToken _).bind
  intro _
  apply (copyDecimalToken _).bind
  intro _
  apply ite (throw _)
  apply exactReaderCreate.bind
  intro _
  apply (onExact _).bind
  exact fun _ => publishBigRational _ _

theorem operandsOk (refs : List Nat) : Quiet (Builders.operandsOk refs) := by
  apply get.bind
  intro s
  apply ite (refuse _)
  split
  · exact refuse _
  · exact ite (refuse _) (pure _)

theorem makeCompound (kind : Kind) (head : Nat) (children : List Nat) : Quiet (Builders.makeCompound kind head children) := by
  apply (operandsOk children).bind
  intro depth
  apply get.bind
  intro s
  apply ite
  · split
    · exact refuse _
    · exact internNode _ _
  · exact internNode _ _

theorem makeNary (kind : Kind) (operands : List Nat) : Quiet (Builders.makeNary kind operands) := by
  apply ite (refuse _)
  apply get.bind
  intro s
  split
  · exact refuse _
  apply ite (refuse _)
  apply (reserve _ _).bind
  intro _
  dsimp only
  generalize (if kind.commutative = true then Order.irSortRefs s.pools _ else _) = staged
  split
  · exact ite (pure _) (makeCompound _ _ _)
  · exact makeCompound _ _ _

theorem irIndexInSpace (name variance space : Nat) : Quiet (Builders.irIndexInSpace name variance space) := by
  apply ite (refuse _)
  apply get.bind
  intro s
  split
  · exact refuse _
  · exact ite (refuse _) (internNode _ _)

theorem irDerivative (expr : Nat) (vars : List Nat) : Quiet (Builders.irDerivative expr vars) := by
  apply ite (refuse _)
  apply get.bind
  intro s
  apply ite (refuse _)
  apply ite (refuse _)
  exact (reserve _ _).bind fun _ => makeCompound _ _ _

theorem irSymbolRef (symbol : Nat) : Quiet (Builders.irSymbolRef symbol) := by
  apply get.bind
  intro s
  split
  · exact refuse _
  · exact internNode _ _

theorem irTensor (head : Nat) (indices : List Nat) : Quiet (Builders.irTensor head indices) := by
  apply get.bind
  exact fun s => ite (refuse _) (makeCompound _ _ _)

theorem irCall (call : IrCall) (other : ∀ name, call ≠ .internN name) : Quiet call.run := by
  cases call with
  | internN name => exact absurd rfl (other name)
  | integer value => exact internNode _ _
  | rational numerator denominator => exact irRational _ _
  | integerTextN decimal => exact irRationalTextN _ _
  | rationalTextN numerator denominator => exact irRationalTextN _ _
  | real bits => exact ite (refuse _) (internNode _ _)
  | symbolRef symbol => exact irSymbolRef _
  | index name variance => exact irIndexInSpace _ _ _
  | indexInSpace name variance space => exact irIndexInSpace _ _ _
  | error code => exact ite (refuse _) (internNode _ _)
  | add terms => exact makeNary _ _
  | mul factors => exact makeNary _ _
  | ncmul factors => exact makeNary _ _
  | wedge factors => exact makeNary _ _
  | pow base exponent => exact makeCompound .pow 0 _
  | equation lhs rhs => exact makeCompound .equation 0 _
  | function head args => exact makeCompound _ _ _
  | tensor head indices => exact irTensor _ _
  | operator head args => exact makeCompound _ _ _
  | derivative expr vars => exact irDerivative _ _

end Quiet

/-- The fields of a symbol that declarations set. -/
def told (record : SymbolRecord) : UInt32 × Nat := (record.assumptions, record.symmetryHead)

theorem declarations_congr (same : pools'.symbols.map told = pools.symbols.map told) (symmetries : pools'.symmetries = pools.symmetries) :
    declarations pools' = declarations pools := by
  have read (record : SymbolRecord) : declarationOf pools' record = declarationOf pools record := by
    rw [declarationOf, declarationOf, pairsFrom, pairsFrom, symmetries]
  have factor (records : List SymbolRecord) : records.tail.map (declarationOf pools) =
      ((records.map told).tail).map fun fields => ⟨fields.1, pairsFrom pools fields.2⟩ := by
    rw [← List.map_tail, List.map_map]
    rfl
  rw [declarations, declarations, List.map_congr_left (fun record _ => read record), factor, factor, same]

theorem Aside.declarations (aside : Aside s t) : declarations t.pools = declarations s.pools :=
  declarations_congr (by rw [aside.symbols]) aside.symmetries

theorem symbolRehash_told : wp symbolRehash (fun _ t => t.pools.symbols.map told = s.pools.symbols.map told ∧
    t.pools.symmetries = s.pools.symmetries) (fun _ _ => False) s := by
  unfold symbolRehash bucketsInit setCapacity changePools
  simp only [wp_bind, wp_get]
  apply wp_ite
  · exact fun _ => ⟨rfl, rfl⟩
  intro _
  simp only [wp_bind, wp_attempt, wp_pure, wp_modify]
  apply wp_mono (poolReserve_spec _ _ _)
  · intro _ t kept
    refine ⟨?_, by rw [← kept.pools]; rfl⟩
    have keeps (link : Nat) (record : SymbolRecord) : told (linkSymbol link record) = told record := rfl
    rw [← kept.pools]
    exact rehash_eq_map keeps _ _
  · intro _ t kept
    exact ⟨by rw [kept.pools], by rw [kept.pools]⟩

theorem publishSymbol_declares (sound : Sound s.pools graph) {name : Name} :
    wp (publishSymbol name) (fun _ t => declarations t.pools = declarations s.pools ++ [.none]) (fun _ t => Kept s t) s := by
  unfold publishSymbol pushSymbol changePools
  simp only [wp_bind, wp_get]
  apply wp_good (reserve_spec _ _)
  intro _ t kept
  simp only [wp_modify, wp_abandoning, wp_bind, wp_get]
  apply wp_mono (reserve_spec _ _)
  · intro _ u kept'
    simp only [wp_pure]
    apply wp_mono symbolRehash_told _ (fun _ _ impossible => impossible.elim)
    rintro _ v ⟨fields, symmetries⟩
    rw [declarations_congr fields symmetries]
    simp only [kept'.pools, kept.pools, declarations]
    rw [List.tail_append_of_ne_nil (symbols_ne_nil sound), List.map_append, List.map_singleton, declarationOf, pairsFrom_zero]
    rfl
  · intro _ u kept'
    refine ⟨?_, kept'.limits.trans kept.limits⟩
    simp only [kept'.pools, kept.pools, List.take_left]

theorem irInternN_declares (sound : Sound s.pools graph) (name : Name) :
    wp (irInternN name) (fun symbol t => ∃ graph', Published s t graph graph' ∧ Named graph'.names symbol name ∧
      (graph'.names = graph.names ∧ declarations t.pools = declarations s.pools ∨
        name ∉ graph.names ∧ graph'.names = graph.names ++ [name] ∧ declarations t.pools = declarations s.pools ++ [.none]))
      (fun _ t => Kept s t) s := by
  unfold irInternN
  apply wp_ite
  · exact fun _ => wp_refuse _ (fun _ kept => kept)
  intro spelled
  simp only [wp_bind, wp_get]
  split
  · rename_i symbol found
    exact ⟨graph, .of_kept sound (.refl s), sound.symbols.findSymbol_some found, .inl ⟨rfl, rfl⟩⟩
  · rename_i missed
    have fresh := sound.symbols.findSymbol_none missed
    apply wp_mono (wp_and (publishSymbol_spec sound spelled fresh) (publishSymbol_declares sound))
    · rintro symbol t ⟨⟨published, named⟩, declared⟩
      exact ⟨_, published, named, .inr ⟨fresh, rfl, declared⟩⟩
    · exact fun _ _ both => both.1

variable {symbol : Nat}

theorem declarations_getElem? (held : symbolAt pools symbol = some record) :
    (declarations pools)[symbol - 1]? = some (declarationOf pools record) := by
  unfold symbolAt at held
  split at held
  · cases held
  rename_i positive
  rw [declarations, List.getElem?_map, List.getElem?_tail, Nat.sub_add_cancel (Nat.pos_of_ne_zero positive), held]
  rfl

theorem mem_of_symbolAt (held : symbolAt pools symbol = some record) :
    record ∈ pools.symbols := by
  unfold symbolAt at held
  split at held
  · cases held
  · exact List.mem_of_getElem? held

theorem tail_modify {α : Type} (items : List α) (index : Nat) (positive : index ≠ 0) (change : α → α) :
    (items.modify index change).tail = items.tail.modify (index - 1) change := by
  cases index with
  | zero => exact absurd rfl positive
  | succ index =>
    cases items with
    | nil => simp
    | cons item rest => rfl

theorem map_modify {α β : Type} {f : α → β} {change : α → α} {change' : β → β} (commute : ∀ item, f (change item) = change' (f item))
    (items : List α) (index : Nat) : (items.modify index change).map f = (items.map f).modify index change' := by
  induction items generalizing index with
  | nil => cases index <;> rfl
  | cons item rest ih =>
    cases index with
    | zero => simp only [List.modify_zero_cons, List.map_cons, commute]
    | succ index => simp only [List.modify_succ_cons, List.map_cons, ih]

def Declaration.assume (assumptions : UInt32) (declaration : Declaration) : Declaration :=
  { declaration with assumptions := declaration.assumptions ||| assumptions }

def Declaration.declare (pair : SlotPair) (declaration : Declaration) : Declaration :=
  { declaration with pairs := pair :: declaration.pairs }

theorem symbolAt_positive (held : symbolAt pools symbol = some record) : symbol ≠ 0 := by
  rintro rfl
  cases held

theorem or_and_distrib (a b c : UInt32) : (a ||| b) &&& c = a &&& c ||| b &&& c := by
  apply UInt32.toBitVec_inj.mp
  apply BitVec.eq_of_getElem_eq
  intro index inside
  simp [Bool.and_or_distrib_right]

def Known (assumptions : UInt32) : Prop := assumptions &&& ~~~assumeAll = 0

def Consistent (assumptions : UInt32) : Prop := ¬(assumptions &&& assumePositive ≠ 0 ∧ assumptions &&& assumeNegative ≠ 0)

instance (assumptions : UInt32) : Decidable (Known assumptions) := inferInstanceAs (Decidable (_ = _))

instance (assumptions : UInt32) : Decidable (Consistent assumptions) := inferInstanceAs (Decidable (¬_))

/-- `phy_ir_assume` accepts what exists and contradicts nothing. -/
theorem irAssume_declares (held : symbolAt s.pools symbol = some record) (assumptions : UInt32) :
    wp (irAssume symbol assumptions) (fun status t => (status = .ok ↔ Known assumptions ∧ Consistent (record.assumptions ||| assumptions)) ∧
      (status = .ok → declarations t.pools = (declarations s.pools).modify (symbol - 1) (.assume assumptions) ∧ t.error = s.error))
      (fun _ _ => False) s := by
  unfold irAssume answer setError changeSymbol changePools
  simp only [wp_bind, wp_get, held]
  apply wp_ite
  · intro unknown
    exact ⟨iff_of_false (by decide) (fun both => unknown both.1), fun failed => by cases failed⟩
  intro known
  apply wp_ite
  · intro both
    exact ⟨iff_of_false (by decide) (fun consistent => consistent.2 both), fun failed => by cases failed⟩
  intro consistent
  refine ⟨iff_of_true rfl ⟨not_not.mp known, consistent⟩, fun _ => ⟨?_, rfl⟩⟩
  have positive := symbolAt_positive held
  rw [symbolAt, if_neg positive] at held
  have same : s.pools.symbols.modify symbol (fun entry => { entry with assumptions := record.assumptions ||| assumptions }) =
      s.pools.symbols.modify symbol (fun entry => { entry with assumptions := entry.assumptions ||| assumptions }) := by
    apply List.ext_getElem?
    intro index
    rw [List.getElem?_modify, List.getElem?_modify]
    by_cases here : symbol = index
    · subst here
      simp only [held, if_true]
      rfl
    · simp only [if_neg here]
  simp only [same, declarations]
  have commute (entry : SymbolRecord) : declarationOf s.pools { entry with assumptions := entry.assumptions ||| assumptions } =
      (declarationOf s.pools entry).assume assumptions := rfl
  rw [tail_modify _ _ positive]
  exact map_modify commute _ _

variable {owner : SymbolRecord}

theorem findSymmetry_eq (sound : Sound pools graph) (inside : owner ∈ pools.symbols) (low high : Nat) :
    ((findSymmetry pools owner.symmetryHead low high).map fun index => SymmetryRecord.pair (pools.symmetries.getD index .null)) =
      (pairsFrom pools owner.symmetryHead).find? fun pair => decide (pair.slots = (low, high)) := by
  obtain ⟨chain, linked, members, enough⟩ := exists_chain sound inside
  unfold findSymmetry
  rw [pairsFrom_of_linked linked enough, linked.walk_eq _ enough, List.find?_map]
  congr 1
  apply List.find?_congr
  intro index member
  rw [List.getElem?_eq_getElem (members index member), Function.comp_apply, List.getD_eq_getElem _ _ (members index member)]
  simp [SymmetryRecord.pair, SlotPair.slots]

theorem findSymmetry_inside (sound : Sound pools graph) (inside : owner ∈ pools.symbols) {low high index : Nat}
    (found : findSymmetry pools owner.symmetryHead low high = some index) : index < pools.symmetries.length := by
  obtain ⟨chain, linked, members, enough⟩ := exists_chain sound inside
  unfold findSymmetry at found
  rw [linked.walk_eq _ enough] at found
  exact members index (List.mem_of_find?_eq_some found)

def Short (status : Status) : Prop := status = .memoryLimit ∨ status = .outOfMemory

/-- An error is pending, for lack of memory unless one was before. -/
def Starved (before after : Status) : Prop := after ≠ .ok ∧ (before = .ok → Short after)

theorem setError_starved {status : Status} (short : Short status) : Starved s.error (if s.error = .ok then status else s.error) := by
  refine ⟨?_, fun clear => by rwa [if_pos clear]⟩
  split
  · rintro rfl
    rcases short with short | short <;> cases short
  · assumption

theorem poolReserve_error (elemSize capacity needed : Nat) :
    wp (poolReserve elemSize capacity needed) (fun _ t => t.error = s.error) (fun _ t => Starved s.error t.error) s := by
  unfold poolReserve charge refuse setError
  apply wp_ite
  · exact fun _ => rfl
  intro _
  dsimp only
  apply wp_ite
  · exact fun _ => setError_starved (.inl rfl)
  intro _
  simp only [wp_bind, wp_get]
  apply wp_ite
  · exact fun _ => setError_starved (.inl rfl)
  intro _
  simp only [wp_set, Heap.alloc]
  apply wp_ite
  · intro _
    simp only [wp_bind, wp_set]
    apply wp_ite
    · exact fun _ => rfl
    · exact fun _ => rfl
  · intro _
    exact setError_starved (.inr rfl)

theorem reserve_error (pool : PoolName) (needed : Nat) :
    wp (reserve pool needed) (fun _ t => t.error = s.error) (fun _ t => Starved s.error t.error) s := by
  unfold reserve setCapacity
  simp only [wp_bind, wp_get, wp_modify]
  exact poolReserve_error _ _ _

theorem irInternN_error {name : Name} (spelled : name ≠ []) :
    wp (irInternN name) (fun _ t => t.error = s.error) (fun _ t => Starved s.error t.error) s := by
  unfold irInternN
  rw [if_neg spelled]
  simp only [wp_bind, wp_get]
  split
  · exact rfl
  unfold publishSymbol pushSymbol changePools
  simp only [wp_bind, wp_get]
  apply wp_good (reserve_error _ _)
  intro _ t same
  simp only [wp_modify, wp_abandoning, wp_bind, wp_get]
  apply wp_mono (reserve_error _ _)
  · intro _ u same'
    simp only [wp_pure]
    unfold symbolRehash bucketsInit setCapacity changePools
    simp only [wp_bind, wp_get]
    apply wp_ite
    · exact fun _ => same'.trans same
    intro _
    simp only [wp_bind, wp_attempt, wp_pure, wp_modify]
    apply wp_mono (poolReserve_error _ _ _)
    · exact fun _ v same'' => (same''.trans same').trans same
    · exact fun _ _ _ => same'.trans same
  · exact fun _ u stopped => ⟨stopped.1, fun clear => stopped.2 (same.trans clear)⟩

/-- A record put in front of one symbol's list leaves the other lists alone. -/
theorem declarations_withSymmetry (sound : Sound pools graph) {entry : SymmetryRecord}
    (held : symbolAt pools symbol = some owner) (link : entry.next = owner.symmetryHead) :
    declarations (Layout.withSymmetry pools symbol entry) =
      (declarations pools).modify (symbol - 1) (.declare (SymmetryRecord.pair entry)) := by
  have positive := symbolAt_positive held
  have owned := held
  rw [symbolAt, if_neg positive] at owned
  have grown : (Layout.withSymmetry pools symbol entry).symmetries = pools.symmetries ++ [entry] := rfl
  -- The lists that were there are read the same, and the new one is a record before an old list.
  have old (record : SymbolRecord) (inside : record ∈ pools.symbols) :
      pairsFrom (Layout.withSymmetry pools symbol entry) record.symmetryHead = pairsFrom pools record.symmetryHead := by
    obtain ⟨chain, linked, members, enough⟩ := exists_chain sound inside
    exact pairsFrom_append _ linked members enough grown
  have front : pairsFrom (Layout.withSymmetry pools symbol entry) pools.symmetries.length =
      SymmetryRecord.pair entry :: pairsFrom pools owner.symmetryHead := by
    have inside := mem_of_symbolAt held
    obtain ⟨chain, linked, members, enough⟩ := exists_chain sound inside
    have linked' : Linked (nextAt SymmetryRecord.next (Layout.withSymmetry pools symbol entry).symmetries) owner.symmetryHead chain := by
      apply linked.congr
      intro index member
      rw [grown]
      exact nextAt_append_left (members index member)
    have whole : Linked (nextAt SymmetryRecord.next (Layout.withSymmetry pools symbol entry).symmetries) pools.symmetries.length
        (pools.symmetries.length :: chain) := by
      refine ⟨rfl, symmetries_ne_nil sound, ?_⟩
      have follows : nextAt SymmetryRecord.next (Layout.withSymmetry pools symbol entry).symmetries pools.symmetries.length =
          owner.symmetryHead := by
        rw [grown]
        simp [nextAt, link]
      rwa [follows]
    have room : (pools.symmetries.length :: chain).length ≤ (Layout.withSymmetry pools symbol entry).symmetries.length := by
      rw [grown, List.length_append, List.length_cons, List.length_singleton]
      omega
    have first : (Layout.withSymmetry pools symbol entry).symmetries.getD pools.symmetries.length .null = entry := by
      rw [grown]
      simp
    rw [pairsFrom_of_linked whole room, List.map_cons, first, ← pairsFrom_of_linked linked' (by rw [grown, List.length_append]; omega),
      old owner inside]
  apply List.ext_getElem?
  intro index
  rw [List.getElem?_modify, declarations, declarations, List.getElem?_map, List.getElem?_map, List.getElem?_tail, List.getElem?_tail]
  change ((pools.symbols.modify symbol _)[index + 1]?).map _ = _
  rw [List.getElem?_modify]
  by_cases here : symbol = index + 1
  · have target : symbol - 1 = index := by omega
    simp only [if_pos target, ← here, owned, if_true, Option.map_eq_map, Option.map_some, declarationOf, front]
    rfl
  · have target : ¬symbol - 1 = index := by omega
    simp only [if_neg here, if_neg target, Option.map_eq_map]
    cases found : pools.symbols[index + 1]? with
    | none => rfl
    | some record =>
      have inside := List.mem_of_getElem? found
      simp only [Option.map_some, declarationOf, old record inside]

/-- `phy_ir_declare_symmetry` puts a new pair in front, and accepts a known one again. -/
theorem irDeclareSymmetry_declares (sound : Sound s.pools graph)
    (held : symbolAt s.pools symbol = some owner) {slotA slotB symmetry : Nat} (apart : slotA ≠ slotB)
    (kind : symmetry = 1 ∨ symmetry = 2) :
    wp (irDeclareSymmetry symbol slotA slotB symmetry) (fun status t =>
      (status = .ok → t.error = s.error ∧
        (declarations t.pools = declarations s.pools ∧ ⟨min slotA slotB, max slotA slotB, symmetry⟩ ∈ pairsFrom s.pools owner.symmetryHead ∨
          (min slotA slotB, max slotA slotB) ∉ (pairsFrom s.pools owner.symmetryHead).map SlotPair.slots ∧
            declarations t.pools = (declarations s.pools).modify (symbol - 1) (.declare ⟨min slotA slotB, max slotA slotB, symmetry⟩))) ∧
      (status ≠ .ok → s.error = .ok → Short status ∨
        ∃ pair ∈ pairsFrom s.pools owner.symmetryHead, pair.slots = (min slotA slotB, max slotA slotB) ∧ pair.symmetry ≠ symmetry))
      (fun _ _ => False) s := by
  have inside := mem_of_symbolAt held
  have search := findSymmetry_eq sound inside (min slotA slotB) (max slotA slotB)
  unfold irDeclareSymmetry answer setError changeSymbol changePools
  simp only [wp_bind, wp_get, held]
  rw [if_neg (by omega)]
  split
  · rename_i index found
    rw [found, Option.map_some] at search
    have member := List.mem_of_find?_eq_some search.symm
    have slots := List.find?_some search.symm
    have below := findSymmetry_inside sound inside found
    rw [List.getD_eq_getElem _ _ below] at member slots
    rw [decide_eq_true_eq] at slots
    rw [List.getElem?_eq_getElem below, Option.map_some]
    apply wp_ite
    · intro same
      rw [Option.some.injEq] at same
      refine ⟨fun _ => ⟨rfl, .inl ⟨rfl, ?_⟩⟩, fun failed => absurd rfl failed⟩
      have pair : (⟨min slotA slotB, max slotA slotB, symmetry⟩ : SlotPair) = SymmetryRecord.pair s.pools.symmetries[index] := by
        rw [SlotPair.slots, Prod.mk.injEq] at slots
        rw [← slots.1, ← slots.2, ← same]
        rfl
      rwa [pair]
    · intro other
      refine ⟨fun failed => (by cases failed), fun _ _ => .inr ⟨_, member, slots, ?_⟩⟩
      exact fun same => other (congrArg some same)
  · rename_i missed
    rw [missed, Option.map_none] at search
    have fresh : (min slotA slotB, max slotA slotB) ∉ (pairsFrom s.pools owner.symmetryHead).map SlotPair.slots := by
      intro known
      obtain ⟨pair, member, slots⟩ := List.mem_map.mp known
      exact List.find?_eq_none.mp search.symm pair member (decide_eq_true slots)
    unfold pushSymmetry changePools
    simp only [wp_bind, wp_attempt, wp_get]
    apply wp_mono (wp_and (reserve_spec _ _) (reserve_error _ _))
    · rintro _ t ⟨kept, clear⟩
      simp only [wp_modify, wp_pure]
      refine ⟨fun _ => ⟨clear, .inr ⟨fresh, ?_⟩⟩, fun failed => absurd rfl failed⟩
      simp only [kept.pools]
      exact declarations_withSymmetry sound held rfl
    · rintro _ t ⟨kept, pending, short⟩
      exact ⟨fun accepted => absurd accepted pending, fun _ clear => .inl (short clear)⟩

structure Declaration.Accepted (declaration : Declaration) : Prop where
  known : Known declaration.assumptions
  consistent : Consistent declaration.assumptions
  ordered : ∀ pair ∈ declaration.pairs, pair.low < pair.high
  kind : ∀ pair ∈ declaration.pairs, pair.symmetry = 1 ∨ pair.symmetry = 2
  distinct : (declaration.pairs.map SlotPair.slots).Nodup

theorem accepted_none : Declaration.none.Accepted where
  known := by decide
  consistent := by decide
  ordered := fun _ inside => nomatch inside
  kind := fun _ inside => nomatch inside
  distinct := List.nodup_nil

def WellDeclared (pools : Pools) : Prop := ∀ declaration ∈ declarations pools, declaration.Accepted

theorem WellDeclared.congr (well : WellDeclared pools) (same : declarations pools' = declarations pools) : WellDeclared pools' := by
  unfold WellDeclared
  rwa [same]

theorem WellDeclared.of_kept (well : WellDeclared s.pools) (kept : Kept s t) : WellDeclared t.pools := kept.pools ▸ well

theorem WellDeclared.at (well : WellDeclared pools) (held : symbolAt pools symbol = some record) :
    (declarationOf pools record).Accepted := well _ (List.mem_of_getElem? (declarations_getElem? held))

theorem WellDeclared.modify (well : WellDeclared pools) (held : symbolAt pools symbol = some record)
    {change : Declaration → Declaration} (accepted : (change (declarationOf pools record)).Accepted)
    (changed : declarations pools' = (declarations pools).modify (symbol - 1) change) : WellDeclared pools' := by
  intro declaration inside
  rw [changed] at inside
  obtain ⟨index, found⟩ := List.mem_iff_getElem?.mp inside
  rw [List.getElem?_modify] at found
  by_cases here : symbol - 1 = index
  · simp only [if_pos here, ← here, declarations_getElem? held] at found
    cases found
    exact accepted
  · simp only [if_neg here] at found
    exact well _ (List.mem_of_getElem? (by simpa using found))

theorem wellDeclared_call (sound : Sound s.pools graph) (well : WellDeclared s.pools) (call : IrCall) :
    wp call.run (fun _ t => WellDeclared t.pools) (fun _ _ => True) s := by
  by_cases named : ∃ name, call = .internN name
  · obtain ⟨name, rfl⟩ := named
    apply wp_mono (irInternN_declares sound name) _ (fun _ _ _ => trivial)
    rintro symbol t ⟨graph', -, -, ⟨-, same⟩ | ⟨-, -, grown⟩⟩
    · exact well.congr same
    · intro declaration inside
      rw [grown, List.mem_append, List.mem_singleton] at inside
      rcases inside with inside | rfl
      · exact well _ inside
      · exact accepted_none
  · have other := not_exists.mp named
    exact wp_mono (Quiet.irCall call other s) (fun _ _ aside => well.congr aside.declarations) (fun _ _ _ => trivial)

theorem irAssume_owner {assumptions : UInt32} (unknown : symbolAt s.pools symbol = none) :
    wp (irAssume symbol assumptions) (fun status _ => status ≠ .ok) (fun _ _ => False) s := by
  unfold irAssume answer setError
  simp only [wp_bind, wp_get, unknown]
  exact fun same => by cases same

theorem irDeclareSymmetry_owner {slotA slotB symmetry : Nat} (malformed : symbolAt s.pools symbol = none ∨ slotA = slotB ∨
    ¬(symmetry = 1 ∨ symmetry = 2)) : wp (irDeclareSymmetry symbol slotA slotB symmetry) (fun status _ => status ≠ .ok) (fun _ _ => False) s := by
  unfold irDeclareSymmetry answer setError
  simp only [wp_bind, wp_get]
  cases held : symbolAt s.pools symbol with
  | none => exact fun same => by cases same
  | some owner =>
    rw [held] at malformed
    have refused : slotA = slotB ∨ symmetry = 0 ∨ 2 < symmetry := by
      rcases malformed with missing | equal | kind
      · cases missing
      · exact .inl equal
      · exact .inr (by omega)
    simp only [if_pos refused]
    exact fun same => by cases same

theorem wellDeclared_declare (sound : Sound s.pools graph) (well : WellDeclared s.pools) (declaration : IrDeclaration) :
    wp declaration.run (fun status t => status = .ok → WellDeclared t.pools) (fun _ _ => True) s := by
  cases declaration with
  | assume symbol assumptions =>
    cases held : symbolAt s.pools symbol with
    | none => exact wp_mono (irAssume_owner held) (fun _ _ refused same => absurd same refused) (fun _ _ _ => trivial)
    | some record =>
      apply wp_mono (irAssume_declares held assumptions) _ (fun _ _ _ => trivial)
      rintro status t ⟨accepts, declares⟩ same
      obtain ⟨known, consistent⟩ := accepts.mp same
      have before := well.at held
      refine well.modify held ⟨?_, consistent, before.ordered, before.kind, before.distinct⟩ (declares same).1
      have old := before.known
      unfold Known at known old ⊢
      change (record.assumptions ||| assumptions) &&& _ = 0
      change record.assumptions &&& _ = 0 at old
      rw [or_and_distrib, old, known, UInt32.or_zero]
  | declareSymmetry symbol slotA slotB symmetry =>
    by_cases malformed : symbolAt s.pools symbol = none ∨ slotA = slotB ∨ ¬(symmetry = 1 ∨ symmetry = 2)
    · exact wp_mono (irDeclareSymmetry_owner malformed) (fun _ _ refused same => absurd same refused) (fun _ _ _ => trivial)
    · rw [not_or, not_or, not_not] at malformed
      obtain ⟨some, apart, kind⟩ := malformed
      obtain ⟨owner, held⟩ := Option.ne_none_iff_exists'.mp some
      apply wp_mono (irDeclareSymmetry_declares sound held apart kind) _ (fun _ _ _ => trivial)
      rintro status t ⟨declares, -⟩ same
      have before := well.at held
      obtain ⟨-, ⟨kept, -⟩ | ⟨fresh, grown⟩⟩ := declares same
      · exact well.congr kept
      · refine well.modify held ⟨before.known, before.consistent, ?_, ?_, ?_⟩ grown
        · intro pair inside
          rcases List.mem_cons.mp inside with rfl | inside
          · exact show min slotA slotB < max slotA slotB by omega
          · exact before.ordered pair inside
        · intro pair inside
          rcases List.mem_cons.mp inside with rfl | inside
          · exact kind
          · exact before.kind pair inside
        · exact List.nodup_cons.mpr ⟨fresh, before.distinct⟩

theorem Progress.wellDeclared (progress : Progress s t) (sound : Sound s.pools graph) (well : WellDeclared s.pools) :
    WellDeclared t.pools := by
  induction progress with
  | still kept => exact well.of_kept kept
  | call before call returns kept ih =>
    obtain ⟨graph', published⟩ := Calls.Progress.published sound before
    have held := wellDeclared_call published.sound ih call
    rw [wp_of_ok returns] at held
    exact held.of_kept kept
  | declare before declaration returns kept ih =>
    obtain ⟨graph', published⟩ := Calls.Progress.published sound before
    have held := wellDeclared_declare published.sound ih declaration
    rw [wp_of_ok returns] at held
    exact (held rfl).of_kept kept

theorem openPools_error : wp openPools (fun _ t => t.error = s.error) (fun _ _ => True) s := by
  unfold openPools pushNode pushSymbol pushSymmetry bucketsInit setCapacity changePools
  simp only [wp_bind, wp_get, wp_modify, wp_pure]
  apply wp_mono (reserve_error _ _) _ (fun _ _ _ => trivial)
  intro _ t first
  apply wp_mono (reserve_error _ _) _ (fun _ _ _ => trivial)
  intro _ u second
  apply wp_mono (reserve_error _ _) _ (fun _ _ _ => trivial)
  intro _ v third
  apply wp_mono (poolReserve_error _ _ _) _ (fun _ _ _ => trivial)
  intro _ w fourth
  apply wp_mono (poolReserve_error _ _ _) _ (fun _ _ _ => trivial)
  intro _ x fifth
  exact (((fifth.trans fourth).trans third).trans second).trans first

theorem irContextCreate_fresh {limits : Option IrLimits} {heap heap' : Platform.Heap}
    (created : irContextCreate limits heap = (some s, heap')) : s.pools = freshPools ∧ s.error = .ok := by
  unfold irContextCreate at created
  split at created
  · cases created
  dsimp only at created
  split at created
  · split at created
    · rename_i value context run
      have pools := (wp_of_ok run).mp (openPools_spec rfl)
      have clear := (wp_of_ok run).mp openPools_error
      cases created
      exact ⟨pools.1, clear⟩
    · cases created
  · cases created

theorem Reachable.wellDeclared (reachable : Reachable s) : WellDeclared s.pools := by
  obtain ⟨limits, heap, created, heap', made, reaches⟩ := reachable
  have start := irContextCreate_sound made
  have blank : WellDeclared created.pools := by
    rw [(irContextCreate_fresh made).1]
    exact fun _ inside => nomatch inside
  exact Progress.wellDeclared (reaches.progress start) start blank

end

end PhyNspire.Ir.Declared

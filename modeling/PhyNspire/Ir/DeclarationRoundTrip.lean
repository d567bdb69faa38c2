import PhyNspire.Ir.DeclarationReader

/-!
Declarations survive being written and read: the fresh context that reads the text has told of every
name what the written one has, and it writes the same text again.
-/

namespace PhyNspire.Ir.DeclarationRoundTrip
open Platform Lib Lib.Stateful Lib.Chains Lib.Registry Expressions Context Symbols Reader Layout SymbolTable Calls Runs Declared DeclarationWriter
open DeclarationReader

variable {s t : IrContext} {pools : Pools} {graph : Graph} {name : Name} {entries : List (Name × Declaration)}

def irAssumptions (pools : Pools) (symbol : Nat) : UInt32 := ((symbolAt pools symbol).map SymbolRecord.assumptions).getD 0

def assumptionsOf (pools : Pools) (name : Name) : UInt32 := ((findSymbol pools name).map (irAssumptions pools)).getD 0

def symmetryOf (pools : Pools) (name : Name) (slotA slotB : Nat) : Nat :=
  ((findSymbol pools name).map fun symbol => irSlotSymmetry pools symbol slotA slotB).getD 0

def toldOf (entries : List (Name × Declaration)) (name : Name) : Declaration := (find name entries).getD .none

def symmetryIn (declaration : Declaration) (slotA slotB : Nat) : Nat :=
  if slotA = slotB then 0
  else ((declaration.pairs.find? fun pair => decide (pair.slots = (min slotA slotB, max slotA slotB))).map SlotPair.symmetry).getD 0

theorem names_zip (sound : Sound pools graph) : (graph.names.zip (declarations pools)).map Prod.fst = graph.names :=
  List.map_fst_zip (length_declarations sound).ge

theorem findSymbol_toldOf (sound : Sound pools graph) (name : Name) :
    (findSymbol pools name = none ∧ toldOf (graph.names.zip (declarations pools)) name = .none) ∨
      ∃ symbol record, findSymbol pools name = some symbol ∧ symbolAt pools symbol = some record ∧
        toldOf (graph.names.zip (declarations pools)) name = declarationOf pools record := by
  unfold toldOf
  cases found : findSymbol pools name with
  | none =>
    have absent := sound.symbols.findSymbol_none found
    have missed : find name (graph.names.zip (declarations pools)) = none := by
      rwa [find_eq_none, keys, names_zip sound]
    rw [missed]
    exact .inl ⟨rfl, rfl⟩
  | some symbol =>
    have named := sound.symbols.findSymbol_some found
    have below := (List.getElem?_eq_some_iff.mp named.2).1
    obtain ⟨record, held, -, -, entry⟩ := symbol_at sound below
    rw [Nat.sub_add_cancel (Nat.pos_of_ne_zero named.1)] at held
    have spelled : nameOf pools record = name := by
      rw [List.getElem?_zip_eq_some, named.2] at entry
      exact (Option.some.inj entry.1).symm
    rw [spelled] at entry
    have distinct : (keys (graph.names.zip (declarations pools))).Nodup := by
      rw [keys, names_zip sound]
      exact sound.symbols.distinct
    rw [find_of_mem distinct (List.mem_of_getElem? entry)]
    exact .inr ⟨symbol, record, rfl, held, rfl⟩

theorem irSlotSymmetry_eq (sound : Sound pools graph) {symbol : Nat} {record : SymbolRecord} (held : symbolAt pools symbol = some record)
    (slotA slotB : Nat) : irSlotSymmetry pools symbol slotA slotB = symmetryIn (declarationOf pools record) slotA slotB := by
  have inside := mem_of_symbolAt held
  have search := findSymmetry_eq sound inside (min slotA slotB) (max slotA slotB)
  unfold irSlotSymmetry symmetryIn
  rw [held]
  dsimp only
  by_cases same : slotA = slotB
  · rw [if_pos same, if_pos same]
  · rw [if_neg same, if_neg same, declarationOf, ← search]
    cases found : findSymmetry pools record.symmetryHead (min slotA slotB) (max slotA slotB) with
    | none => rfl
    | some index =>
      have below := findSymmetry_inside sound inside found
      simp only [Option.map_some, Option.getD_some, List.getElem?_eq_getElem below, List.getD_eq_getElem _ _ below]
      rfl

theorem assumptionsOf_eq (sound : Sound pools graph) (name : Name) :
    assumptionsOf pools name = (toldOf (graph.names.zip (declarations pools)) name).assumptions := by
  unfold assumptionsOf irAssumptions
  rcases findSymbol_toldOf sound name with ⟨missed, nothing⟩ | ⟨symbol, record, found, held, told⟩
  · rw [missed, nothing]
    rfl
  · rw [found, told, Option.map_some, held]
    rfl

theorem symmetryOf_eq (sound : Sound pools graph) (name : Name) (slotA slotB : Nat) :
    symmetryOf pools name slotA slotB = symmetryIn (toldOf (graph.names.zip (declarations pools)) name) slotA slotB := by
  unfold symmetryOf
  rcases findSymbol_toldOf sound name with ⟨missed, nothing⟩ | ⟨symbol, record, found, held, told⟩
  · rw [missed, nothing]
    unfold symmetryIn
    split <;> rfl
  · rw [found, told, Option.map_some, irSlotSymmetry_eq sound held]
    rfl

theorem find_slots {pairs : List SlotPair} (distinct : (pairs.map SlotPair.slots).Nodup) (slots : Nat × Nat) (pair : SlotPair) :
    pairs.find? (fun pair => decide (pair.slots = slots)) = some pair ↔ pair ∈ pairs ∧ pair.slots = slots := by
  constructor
  · intro found
    exact ⟨List.mem_of_find?_eq_some found, by simpa using List.find?_some found⟩
  · rintro ⟨inside, rfl⟩
    cases found : pairs.find? fun other => decide (other.slots = pair.slots) with
    | none =>
      have missed := List.find?_eq_none.mp found pair inside
      exact absurd (decide_eq_true rfl) missed
    | some other =>
      have same : other.slots = pair.slots := by simpa using List.find?_some found
      rw [List.inj_on_of_nodup_map distinct (List.mem_of_find?_eq_some found) inside same]

variable {declaration : Declaration}

theorem symmetryIn_reread (accepted : declaration.Accepted) (slotA slotB : Nat) :
    symmetryIn (reread declaration) slotA slotB = symmetryIn declaration slotA slotB := by
  have perm := (List.reverse_perm _).trans (orderedPairs_perm declaration.pairs)
  have distinct := (perm.map SlotPair.slots).nodup_iff.mpr accepted.distinct
  unfold symmetryIn reread
  congr 3
  apply Option.ext
  intro pair
  rw [find_slots distinct, find_slots accepted.distinct, perm.mem_iff]

theorem reread_accepted (accepted : declaration.Accepted) : (reread declaration).Accepted := by
  have perm := (List.reverse_perm _).trans (orderedPairs_perm declaration.pairs)
  refine ⟨accepted.known, accepted.consistent, ?_, ?_, (perm.map SlotPair.slots).nodup_iff.mpr accepted.distinct⟩
  · exact fun pair inside => accepted.ordered pair (perm.mem_iff.mp inside)
  · exact fun pair inside => accepted.kind pair (perm.mem_iff.mp inside)

theorem reread_eq_none : reread declaration = .none ↔ declaration = .none := by
  obtain ⟨assumptions, pairs⟩ := declaration
  have empty : (orderedPairs pairs).reverse = [] ↔ pairs = [] := by
    rw [List.reverse_eq_nil_iff, ← List.length_eq_zero_iff, (orderedPairs_perm pairs).length_eq, List.length_eq_zero_iff]
  simp only [reread, Declaration.none, Declaration.mk.injEq, empty]

theorem declarationText_reread (accepted : declaration.Accepted) (name : Name) :
    declarationText name (reread declaration) = declarationText name declaration := by
  have perm := (List.reverse_perm _).trans (orderedPairs_perm declaration.pairs)
  unfold declarationText reread
  rw [orderedPairs_congr perm ((perm.map SlotPair.slots).nodup_iff.mpr accepted.distinct)]

def rereadAll (entries : List (Name × Declaration)) : List (Name × Declaration) := entries.map fun entry => (entry.1, reread entry.2)

theorem find_rereadAll (name : Name) : find name (rereadAll entries) = (find name entries).map reread := by
  induction entries with
  | nil => rfl
  | cons entry rest ih =>
    rw [rereadAll, List.map_cons, find_cons, find_cons]
    split
    · rfl
    · exact ih

theorem toldOf_filter (distinct : (keys entries).Nodup) (name : Name) :
    toldOf (entries.filter fun entry => decide (entry.2 ≠ .none)) name = toldOf entries name := by
  unfold toldOf
  induction entries with
  | nil => rfl
  | cons entry rest ih =>
    obtain ⟨fresh, distinct⟩ := List.nodup_cons.mp distinct
    rw [List.filter_cons]
    by_cases same : entry.1 = name
    · by_cases nothing : entry.2 = .none
      · have absent : find name rest = none := by
          rw [find_eq_none, ← same]
          exact fresh
        have later := ih distinct
        rw [absent] at later
        rw [if_neg (by simpa using nothing), later, find_cons, if_pos same, nothing]
        rfl
      · rw [if_pos (by simpa using nothing), find_cons, find_cons, if_pos same, if_pos same]
    · split
      · rw [find_cons, find_cons, if_neg same, if_neg same]
        exact ih distinct
      · rw [find_cons, if_neg same]
        exact ih distinct

theorem nameText_ne_zero (free : (0 : UInt8) ∉ name) : (0 : UInt8) ∉ nameText name := by
  unfold nameText
  split
  · exact free
  · simp only [List.cons_append, List.mem_cons, List.mem_append, List.mem_flatMap, List.not_mem_nil, or_false, not_or, not_exists, not_and]
    refine ⟨by decide, ⟨fun c inside => ?_, by decide⟩⟩
    have other : (0 : UInt8) ≠ c := by
      rintro rfl
      exact free inside
    split
    · simp [other]
    · simp [other]

theorem emitU64_ne_zero {n : Nat} (word : n < 2 ^ 32) : (0 : UInt8) ∉ emitU64 n := by
  rw [emitU64_eq (by omega)]
  intro inside
  exact absurd (naturalText_digit inside).1 (by decide)

theorem declarationText_ne_zero (free : (0 : UInt8) ∉ name) (ordered : ∀ pair ∈ declaration.pairs, pair.low < pair.high)
    (word : ∀ pair ∈ declaration.pairs, pair.high < 2 ^ 32) : (0 : UInt8) ∉ declarationText name declaration := by
  have assumptions : (0 : UInt8) ∉ assumptionText declaration.assumptions := by
    have words : ∀ entry ∈ assumptionNames, (0 : UInt8) ∉ 32 :: entry.1 := by decide
    unfold assumptionText
    rw [List.mem_flatMap]
    rintro ⟨entry, inside, held⟩
    split at held
    · exact words entry inside held
    · exact nomatch held
  have pairs : (0 : UInt8) ∉ (orderedPairs declaration.pairs).flatMap pairText := by
    rw [List.mem_flatMap]
    rintro ⟨pair, inside, held⟩
    have there := (orderedPairs_perm declaration.pairs).mem_iff.mp inside
    have high := word pair there
    have low := emitU64_ne_zero ((ordered pair there).trans high)
    have open_ : (0 : UInt8) ∉ ascii (if pair.symmetry = 2 then " (asym " else " (sym ") := by
      split
      · decide
      · decide
    simp only [pairText, List.mem_append, List.mem_cons, List.not_mem_nil, or_false, open_, low, emitU64_ne_zero high, false_or] at held
    rcases held with held | held <;> cases held
  have opening : (0 : UInt8) ∉ ascii "(declare " := by decide
  simp only [declarationText, List.mem_append, opening, nameText_ne_zero free, assumptions, pairs, false_or, List.mem_singleton]
  decide

theorem declarationsText_ne_zero (free : ∀ entry ∈ entries, (0 : UInt8) ∉ declarationText entry.1 entry.2) :
    (0 : UInt8) ∉ declarationsText entries := by
  unfold declarationsText
  cases entries with
  | nil => exact List.not_mem_nil
  | cons first rest =>
    rw [List.map_cons, joinedLines, List.mem_append, List.mem_flatMap, not_or]
    refine ⟨free first List.mem_cons_self, ?_⟩
    rintro ⟨line, inside, held⟩
    obtain ⟨entry, member, rfl⟩ := List.mem_map.mp inside
    rcases List.mem_cons.mp held with zero | held
    · cases zero
    · exact free entry (List.mem_cons_of_mem _ member) held

theorem openReading_rest (context : IrContext) {text : List UInt8} (free : (0 : UInt8) ∉ text) :
    (openReading context (text ++ [0])).rest = text := by
  have nonzero : ∀ byte ∈ text, byte ≠ 0 := by
    rintro byte inside rfl
    exact free inside
  unfold openReading
  rw [List.takeWhile_append_of_pos (by simpa using nonzero)]
  simp

theorem irReadDeclarations_eq {created : IrContext} (pools : created.pools = freshPools) (clear : created.error = .ok)
    (distinct : (entries.map Prod.fst).Nodup) (readable : ∀ entry ∈ entries, Readable entry)
    (free : (0 : UInt8) ∉ declarationsText entries) :
    ((irReadDeclarations created (declarationsText entries ++ [0])).1.status = .ok ∧
      ∃ graph, Sound (irReadDeclarations created (declarationsText entries ++ [0])).2.pools graph ∧ graph.names = entries.map Prod.fst ∧
        declarations (irReadDeclarations created (declarationsText entries ++ [0])).2.pools = entries.map fun entry => reread entry.2) ∨
      Short (irReadDeclarations created (declarationsText entries ++ [0])).1.status := by
  have start : (openReading created (declarationsText entries ++ [0])).rest = declarationsText entries := openReading_rest created free
  have stage : Stage (openReading created (declarationsText entries ++ [0])) [] [] := by
    refine ⟨⟨emptyGraph, ?_, rfl⟩, ?_, clear, rfl⟩
    · exact pools ▸ freshPools_sound
    · change declarations created.pools = []
      rw [pools]
      rfl
  have room : entries.length ≤ (openReading created (declarationsText entries ++ [0])).rest.length := by
    rw [start]
    unfold declarationsText
    cases entries with
    | nil => exact Nat.le_refl 0
    | cons first rest =>
      have lines := length_le_flatMap (fun line : List UInt8 => List.cons_ne_nil 10 line) (rest.map fun entry => declarationText entry.1 entry.2)
      have one : 0 < (declarationText first.1 first.2).length := by simp [declarationText]
      rw [List.length_map] at lines
      rw [List.map_cons, joinedLines, List.length_append, List.length_cons]
      omega
  have held : wp (parseDeclarations (openReading created (declarationsText entries ++ [0])).rest.length)
      (fun _ t => Stage t (entries.map Prod.fst) (entries.map fun entry => reread entry.2)) OutOfRoom
      (openReading created (declarationsText entries ++ [0])) :=
    parseDeclarations_eq stage rfl (by simpa using distinct) readable room
      (by rw [start, declarationsText_no_space]) (fun t final => by simpa using final)
  unfold wp at held
  unfold irReadDeclarations
  dsimp only
  split
  · rename_i r run
    rw [run] at held
    obtain ⟨⟨graph, sound, named⟩, declared, -, -⟩ : Stage r _ _ := held
    exact .inl ⟨rfl, graph, sound, named, declared⟩
  · rename_i stop r run
    rw [run] at held
    exact .inr held

def SlotWords (pools : Pools) : Prop := ∀ record ∈ pools.symmetries, record.slotA < 2 ^ 32 ∧ record.slotB < 2 ^ 32

/-- The declared names fit the reader's token and have no terminator inside. -/
def NamesFit (pools : Pools) : Prop := ∀ symbol record, symbolAt pools symbol = some record → declarationOf pools record ≠ .none →
  (nameOf pools record).length ≤ tokenMax ∧ (0 : UInt8) ∉ nameOf pools record

instance (pools : Pools) : Decidable (SlotWords pools) :=
  inferInstanceAs (Decidable (∀ record ∈ pools.symmetries, record.slotA < 2 ^ 32 ∧ record.slotB < 2 ^ 32))

theorem namesFit_of_symbols (fit : ∀ record ∈ pools.symbols, declarationOf pools record ≠ .none →
    (nameOf pools record).length ≤ tokenMax ∧ (0 : UInt8) ∉ nameOf pools record) : NamesFit pools :=
  fun _ record held => fit record (mem_of_symbolAt held)

theorem mem_declared (sound : Sound pools graph) {entry : Name × Declaration} (inside : entry ∈ declared graph.names (declarations pools)) :
    ∃ symbol record, symbolAt pools symbol = some record ∧ entry = (nameOf pools record, declarationOf pools record) ∧
      nameOf pools record ≠ [] ∧ declarationOf pools record ≠ .none := by
  obtain ⟨member, some⟩ := List.mem_filter.mp inside
  obtain ⟨index, found⟩ := List.mem_iff_getElem?.mp member
  have below : index < graph.names.length := by
    have short := (List.getElem?_eq_some_iff.mp found).1
    rw [List.length_zip, length_declarations sound, Nat.min_self] at short
    exact short
  obtain ⟨record, held, -, -, same⟩ := symbol_at sound below
  obtain rfl := Option.some.inj (found.symm.trans same)
  have listed := (List.getElem?_zip_eq_some.mp same).1
  exact ⟨_, record, held, rfl, sound.symbols.spelled _ (List.mem_of_getElem? listed), by simpa using some⟩

theorem pair_words (sound : Sound pools graph) (words : SlotWords pools) {record : SymbolRecord} (inside : record ∈ pools.symbols)
    {pair : SlotPair} (member : pair ∈ pairsFrom pools record.symmetryHead) : pair.high < 2 ^ 32 := by
  obtain ⟨chain, linked, members, enough⟩ := exists_chain sound inside
  rw [pairsFrom_of_linked linked enough] at member
  obtain ⟨index, listed, rfl⟩ := List.mem_map.mp member
  have below := members index listed
  rw [List.getD_eq_getElem _ _ below]
  exact (words _ (List.getElem_mem below)).2

theorem keys_zip_nodup (sound : Sound pools graph) : (keys (graph.names.zip (declarations pools))).Nodup := by
  rw [keys, names_zip sound]
  exact sound.symbols.distinct

/-- The pools of a context that has read the text of another. -/
structure Reread (pools : Pools) (graph : Graph) (pools' : Pools) (graph' : Graph) : Prop where
  sound : Sound pools graph
  well : WellDeclared pools
  sound' : Sound pools' graph'
  names : graph'.names = (declared graph.names (declarations pools)).map Prod.fst
  declared : declarations pools' = (declared graph.names (declarations pools)).map fun entry => reread entry.2

namespace Reread

variable {pools' : Pools} {graph' : Graph}

theorem zip (reader : Reread pools graph pools' graph') :
    graph'.names.zip (declarations pools') = rereadAll (DeclarationWriter.declared graph.names (declarations pools)) := by
  rw [reader.names, reader.declared, List.zip_map', rereadAll]

theorem toldOf (reader : Reread pools graph pools' graph') (name : Name) :
    DeclarationRoundTrip.toldOf (graph'.names.zip (declarations pools')) name =
      reread (DeclarationRoundTrip.toldOf (graph.names.zip (declarations pools)) name) := by
  rw [← toldOf_filter (keys_zip_nodup reader.sound) name, reader.zip, DeclarationRoundTrip.toldOf, find_rereadAll]
  unfold DeclarationRoundTrip.toldOf DeclarationWriter.declared
  cases find name ((graph.names.zip (declarations pools)).filter fun entry => decide (entry.2 ≠ .none)) with
  | none => exact (reread_eq_none.mpr rfl).symm
  | some declaration => rfl

theorem accepted (reader : Reread pools graph pools' graph') (name : Name) :
    (DeclarationRoundTrip.toldOf (graph.names.zip (declarations pools)) name).Accepted := by
  rcases findSymbol_toldOf reader.sound name with ⟨-, nothing⟩ | ⟨symbol, record, -, held, told⟩
  · rw [nothing]
    exact accepted_none
  · rw [told]
    exact reader.well.at held

theorem entry_accepted (reader : Reread pools graph pools' graph') {entry : Name × Declaration}
    (inside : entry ∈ DeclarationWriter.declared graph.names (declarations pools)) : entry.2.Accepted := by
  obtain ⟨symbol, record, held, rfl, -⟩ := mem_declared reader.sound inside
  exact reader.well.at held

theorem emitted (reader : Reread pools graph pools' graph') : emitted pools' = DeclarationWriter.emitted pools := by
  have well : WellDeclared pools' := by
    intro declaration inside
    rw [reader.declared] at inside
    obtain ⟨entry, member, rfl⟩ := List.mem_map.mp inside
    exact reread_accepted (reader.entry_accepted member)
  rw [emitted_eq reader.sound' well, emitted_eq reader.sound reader.well]
  have all : DeclarationWriter.declared graph'.names (declarations pools') = rereadAll (DeclarationWriter.declared graph.names (declarations pools)) := by
    rw [DeclarationWriter.declared, reader.zip, List.filter_eq_self]
    intro entry inside
    obtain ⟨old, member, rfl⟩ := List.mem_map.mp inside
    have some := (List.mem_filter.mp member).2
    simpa only [ne_eq, reread_eq_none] using some
  rw [all, declarationsText, declarationsText, rereadAll, List.map_map]
  congr 1
  apply List.map_congr_left
  intro entry inside
  exact declarationText_reread (reader.entry_accepted inside) entry.1

end Reread

/-- The declarations of a run, written and then read into a fresh context: unless memory runs out there,
every name has the same assumptions and the same symmetries as before, and the text is written again
byte for byte. -/
theorem declarations_round_trip (reachable : Reachable s) (words : SlotWords s.pools) (fit : NamesFit s.pools)
    {limits : Option IrLimits} {heap heap' : Platform.Heap} {created : IrContext}
    (fresh : irContextCreate limits heap = (some created, heap')) (capacity : Nat)
    (room : (irWriteDeclarations s 0).length < capacity) :
    (irWriteDeclarations s capacity).status = .ok ∧
      (((irReadDeclarations created (irWriteDeclarations s capacity).buffer).1.status = .ok ∧
          (∀ name, assumptionsOf (irReadDeclarations created (irWriteDeclarations s capacity).buffer).2.pools name = assumptionsOf s.pools name) ∧
          (∀ name slotA slotB, symmetryOf (irReadDeclarations created (irWriteDeclarations s capacity).buffer).2.pools name slotA slotB =
            symmetryOf s.pools name slotA slotB) ∧
          ∀ capacity', irWriteDeclarations (irReadDeclarations created (irWriteDeclarations s capacity).buffer).2 capacity' =
            irWriteDeclarations s capacity') ∨
        (irReadDeclarations created (irWriteDeclarations s capacity).buffer).1.status = .memoryLimit ∨
        (irReadDeclarations created (irWriteDeclarations s capacity).buffer).1.status = .outOfMemory) := by
  have sound := reachable.sound
  have well := Reachable.wellDeclared reachable
  obtain ⟨pools, clear⟩ := irContextCreate_fresh fresh
  generalize Denotation.graphOf s.pools = graph at sound
  have text := emitted_eq sound well
  have length : (irWriteDeclarations s 0).length = (emitted s.pools).length := rfl
  have written : irWriteDeclarations s capacity = ⟨.ok, (emitted s.pools).length, emitted s.pools ++ [0]⟩ := by
    unfold irWriteDeclarations
    dsimp only
    rw [if_neg (by omega)]
  rw [written]
  refine ⟨rfl, ?_⟩
  dsimp only
  have readable : ∀ entry ∈ declared graph.names (declarations s.pools), Readable entry := by
    intro entry inside
    obtain ⟨symbol, record, held, rfl, spelled, some⟩ := mem_declared sound inside
    exact ⟨spelled, (fit symbol record held some).1, ⟨well.at held, fun pair => pair_words sound words (mem_of_symbolAt held)⟩⟩
  have free : (0 : UInt8) ∉ declarationsText (declared graph.names (declarations s.pools)) := by
    apply declarationsText_ne_zero
    intro entry inside
    obtain ⟨symbol, record, held, rfl, -, some⟩ := mem_declared sound inside
    exact declarationText_ne_zero (fit symbol record held some).2 (well.at held).ordered
      (fun pair => pair_words sound words (mem_of_symbolAt held))
  have distinct : ((declared graph.names (declarations s.pools)).map Prod.fst).Nodup :=
    (keys_zip_nodup sound).sublist (List.filter_sublist.map Prod.fst)
  rw [text]
  rcases irReadDeclarations_eq pools clear distinct readable free with ⟨read, graph', sound', named, declared'⟩ | short
  · refine .inl ⟨read, ?_⟩
    generalize (irReadDeclarations created (declarationsText (declared graph.names (declarations s.pools)) ++ [0])).2 = later at *
    have reader : Reread s.pools graph later.pools graph' := ⟨sound, well, sound', named, declared'⟩
    refine ⟨fun name => ?_, fun name slotA slotB => ?_, fun capacity' => ?_⟩
    · rw [assumptionsOf_eq sound, assumptionsOf_eq sound', reader.toldOf]
      rfl
    · rw [symmetryOf_eq sound, symmetryOf_eq sound', reader.toldOf, symmetryIn_reread (reader.accepted name)]
    · unfold irWriteDeclarations
      rw [reader.emitted]
  · exact .inr short

/-- A run that declares a real `x`, and a `g` with a symmetric and an antisymmetric pair of slots. -/
def declaringRun : List IrOperation :=
  [.build (.internN [120]), .build (.internN [103]), .declare (.assume 1 1), .declare (.declareSymmetry 2 3 0 1),
    .declare (.declareSymmetry 2 1 2 2)]

def declaringContext : Option IrContext := contextOf none ⟨fun _ => true, 0⟩ declaringRun

/-- A fresh context on a heap that grants `grants` blocks. -/
def contextWithin (grants : Nat) : Option IrContext × Platform.Heap := irContextCreate none ⟨fun block => decide (block < grants), 0⟩

def rereadStatus (grants : Nat) : Option Status :=
  declaringContext.bind fun s => (contextWithin grants).1.map fun created =>
    (irReadDeclarations created (irWriteDeclarations s 100).buffer).1.status

theorem declaringContext_fits : ∃ s, declaringContext = some s ∧ Reachable s ∧ SlotWords s.pools ∧ NamesFit s.pools ∧
    (irWriteDeclarations s 0).length < 100 := by
  obtain ⟨s, ended⟩ := Option.isSome_iff_exists.mp (by decide +kernel : declaringContext.isSome = true)
  have words : (declaringContext.map fun s => decide (SlotWords s.pools)) = some true := by decide +kernel
  have fit : (declaringContext.map fun s => decide (∀ record ∈ s.pools.symbols, declarationOf s.pools record ≠ .none →
      (nameOf s.pools record).length ≤ tokenMax ∧ (0 : UInt8) ∉ nameOf s.pools record)) = some true := by decide +kernel
  have room : (declaringContext.map fun s => decide ((irWriteDeclarations s 0).length < 100)) = some true := by
    decide +kernel
  rw [ended, Option.map_some] at words fit room
  exact ⟨s, ended, reachable_of_contextOf ended, of_decide_eq_true (Option.some.inj words),
    namesFit_of_symbols (of_decide_eq_true (Option.some.inj fit)), of_decide_eq_true (Option.some.inj room)⟩

theorem declarations_round_trip_of_two : ∃ s created, declaringContext = some s ∧ (contextWithin 8).1 = some created ∧
    (irReadDeclarations created (irWriteDeclarations s 100).buffer).1.status = .ok ∧
    (∀ name, assumptionsOf (irReadDeclarations created (irWriteDeclarations s 100).buffer).2.pools name =
      assumptionsOf s.pools name) := by
  obtain ⟨s, ended, reachable, words, fit, room⟩ := declaringContext_fits
  obtain ⟨created, fresh⟩ := Option.isSome_iff_exists.mp (by decide +kernel : (contextWithin 8).1.isSome = true)
  have status : rereadStatus 8 = some .ok := by decide +kernel
  rw [rereadStatus, ended, fresh, Option.bind_some, Option.map_some] at status
  have read := Option.some.inj status
  have made : contextWithin 8 = (some created, (contextWithin 8).2) := Prod.ext fresh rfl
  rcases (declarations_round_trip reachable words fit made 100 room).2 with held | full | full
  · exact ⟨s, created, ended, fresh, held.1, held.2.1⟩
  · cases read.symm.trans full
  · cases read.symm.trans full

/-- A heap that grants the blocks of the fresh context alone refuses the first block of the reader. -/
theorem declarations_round_trip_without_memory : ∃ s created heap', Reachable s ∧ SlotWords s.pools ∧ NamesFit s.pools ∧
    irContextCreate none ⟨fun block => decide (block < 6), 0⟩ = (some created, heap') ∧
    (irWriteDeclarations s 100).status = .ok ∧
    (irReadDeclarations created (irWriteDeclarations s 100).buffer).1.status = .outOfMemory := by
  obtain ⟨s, ended, reachable, words, fit, room⟩ := declaringContext_fits
  obtain ⟨created, fresh⟩ := Option.isSome_iff_exists.mp (by decide +kernel : (contextWithin 6).1.isSome = true)
  have status : rereadStatus 6 = some .outOfMemory := by decide +kernel
  have written : (declaringContext.map fun s => (irWriteDeclarations s 100).status) = some .ok := by decide +kernel
  rw [rereadStatus, ended, fresh, Option.bind_some, Option.map_some] at status
  rw [ended, Option.map_some] at written
  exact ⟨s, created, _, reachable, words, fit, Prod.ext fresh rfl, Option.some.inj written, Option.some.inj status⟩

end PhyNspire.Ir.DeclarationRoundTrip

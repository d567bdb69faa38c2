import PhyNspire.Ir.Declared

/-!
The writer of text.c for declarations. Slot pairs are emitted by a selection loop in the order of
their slots, so that the text depends on what was declared and not on the order in which it was.
-/

namespace PhyNspire.Ir.DeclarationWriter
open Platform Lib Lib.Chains Exact.Decimals Expressions Context Symbols Reader Layout SymbolTable Runs Declared

/-- `name_is_bare`: the name reads back as one bare token that is no number. -/
def nameIsBare (name : Name) : Bool :=
  decide (name ≠ []) && !(name.head?.any isDigit || decide (name.head? = some 45)) &&
    name.all fun c => decide (32 < c) && decide (c ≠ 40) && decide (c ≠ 41) && decide (c ≠ 124) && decide (c ≠ 92)

/-- The bytes of `emit_name`. -/
def nameText (name : Name) : List UInt8 :=
  if nameIsBare name then name
  else 124 :: name.flatMap (fun c => if c = 124 ∨ c = 92 then [92, c] else [c]) ++ [124]

def emitName (pools : Pools) (symbol : Nat) : List UInt8 :=
  match symbolAt pools symbol with
  | none => ascii "||"
  | some record => nameText (nameOf pools record)

def emitU64 (value : Nat) : List UInt8 := (wordDigits 20 value).reverse

/-- The order of slot pairs, by the first slot and then by the second. -/
def Before (left right : Nat × Nat) : Prop := left.1 < right.1 ∨ left.1 = right.1 ∧ left.2 < right.2

instance (left right : Nat × Nat) : Decidable (Before left right) := inferInstanceAs (Decidable (_ ∨ _))

/-- One turn of `next_symmetry_in_order`. -/
def selectSymmetry (previous : Option (Nat × Nat)) (best : Option SlotPair) (candidate : SlotPair) : Option SlotPair :=
  if previous.any fun slots => !decide (Before slots candidate.slots) then best
  else
    match best with
    | none => some candidate
    | some held => if Before candidate.slots held.slots then some candidate else best

/-- `next_symmetry_in_order`, along a symbol's list. -/
def nextSymmetryInOrder (pools : Pools) (previous : Option (Nat × Nat)) : Nat → Nat → Option SlotPair → Option SlotPair
  | 0, _, best => best
  | turns + 1, index, best =>
      if index = 0 then best
      else
        let candidate := pools.symmetries.getD index .null
        nextSymmetryInOrder pools previous turns candidate.next (selectSymmetry previous best (SymmetryRecord.pair candidate))

def pairText (pair : SlotPair) : List UInt8 :=
  ascii (if pair.symmetry = 2 then " (asym " else " (sym ") ++ emitU64 pair.low ++ 32 :: emitU64 pair.high ++ [41]

/-- The loop over a symbol's pairs. Every turn takes a later pair, so there are no more turns than records. -/
def writeSymmetries (pools : Pools) (head : Nat) : Nat → Option (Nat × Nat) → List UInt8
  | 0, _ => []
  | turns + 1, previous =>
      match nextSymmetryInOrder pools previous pools.symmetries.length head none with
      | none => []
      | some current => pairText current ++ writeSymmetries pools head turns (some current.slots)

def assumptionText (assumptions : UInt32) : List UInt8 :=
  assumptionNames.flatMap fun entry => if assumptions &&& entry.2 ≠ 0 then 32 :: entry.1 else []

def writeDeclaration (pools : Pools) (symbol : Nat) (record : SymbolRecord) : List UInt8 :=
  ascii "(declare " ++ emitName pools symbol ++ assumptionText record.assumptions ++
    writeSymmetries pools record.symmetryHead pools.symmetries.length none ++ [41]

/-- One turn of `phy_ir_write_declarations`; a symbol of which nothing is declared has no line. -/
def writeSymbol (pools : Pools) (text : List UInt8) (symbol : Nat) : List UInt8 :=
  match pools.symbols[symbol]? with
  | none => text
  | some record =>
      if record.assumptions = 0 ∧ record.symmetryHead = 0 then text
      else (if text ≠ [] then text ++ [10] else text) ++ writeDeclaration pools symbol record

/-- All that `phy_ir_write_declarations` emits. -/
def emitted (pools : Pools) : List UInt8 := (List.range' 1 (pools.symbols.length - 1)).foldl (writeSymbol pools) []

structure WriteAnswer where
  status : Status
  length : Nat
  buffer : List UInt8
deriving DecidableEq, Repr

/-- `phy_ir_write_declarations`; text beyond the capacity is counted and dropped. -/
def irWriteDeclarations (context : IrContext) (capacity : Nat) : WriteAnswer :=
  let text := emitted context.pools
  if capacity < text.length + 1 then ⟨.invalidArgument, text.length, text.take capacity⟩
  else ⟨.ok, text.length, text ++ [0]⟩

section

variable {pools : Pools} {graph : Graph} {pairs ordered : List SlotPair} {previous : Option (Nat × Nat)} {best : Option SlotPair}

def After (previous : Option (Nat × Nat)) (pair : SlotPair) : Prop := ∀ slots ∈ previous, Before slots pair.slots

theorem skipped_iff (pair : SlotPair) : (previous.any fun slots => !decide (Before slots pair.slots)) = true ↔ ¬After previous pair := by
  cases previous with
  | none => simp [After]
  | some slots => simp [After]

structure First (previous : Option (Nat × Nat)) (pairs : List SlotPair) (pair : SlotPair) : Prop where
  mem : pair ∈ pairs
  after : After previous pair
  least : ∀ other ∈ pairs, After previous other → ¬Before other.slots pair.slots

theorem Before.trans {a b c : Nat × Nat} (first : Before a b) (second : Before b c) : Before a c := by
  unfold Before at *
  omega

theorem Before.irrefl (a : Nat × Nat) : ¬Before a a := by
  unfold Before
  omega

theorem First.select {seen : List SlotPair} (candidate : SlotPair) (held : ∀ pair ∈ best, First previous seen pair)
    (none : best = .none → ∀ other ∈ seen, ¬After previous other) :
    (∀ pair ∈ selectSymmetry previous best candidate, First previous (seen ++ [candidate]) pair) ∧
      (selectSymmetry previous best candidate = .none → ∀ other ∈ seen ++ [candidate], ¬After previous other) := by
  have within {other : SlotPair} (inside : other ∈ seen ++ [candidate]) : other ∈ seen ∨ other = candidate := by simpa using inside
  unfold selectSymmetry
  split
  · rename_i skipped
    rw [skipped_iff] at skipped
    refine ⟨fun pair chosen => ?_, fun missed other inside => ?_⟩
    · have first := held pair chosen
      refine ⟨List.mem_append_left _ first.mem, first.after, fun other inside later => ?_⟩
      rcases within inside with inside | rfl
      · exact first.least other inside later
      · exact absurd later skipped
    · rcases within inside with inside | rfl
      · exact none missed other inside
      · exact skipped
  · rename_i kept
    rw [skipped_iff, not_not] at kept
    have last : candidate ∈ seen ++ [candidate] := by simp
    split
    · refine ⟨fun pair chosen => ?_, fun missed => nomatch missed⟩
      cases chosen
      refine ⟨last, kept, fun other inside later => ?_⟩
      rcases within inside with inside | rfl
      · exact absurd later (none rfl other inside)
      · exact Before.irrefl _
    · rename_i best
      have first := held best rfl
      split
      · rename_i less
        refine ⟨fun pair chosen => ?_, fun missed => nomatch missed⟩
        cases chosen
        refine ⟨last, kept, fun other inside later => ?_⟩
        rcases within inside with inside | rfl
        · exact fun smaller => first.least other inside later (smaller.trans less)
        · exact Before.irrefl _
      · rename_i more
        refine ⟨fun pair chosen => ?_, fun missed => nomatch missed⟩
        cases chosen
        refine ⟨List.mem_append_left _ first.mem, first.after, fun other inside later => ?_⟩
        rcases within inside with inside | rfl
        · exact first.least other inside later
        · exact more

theorem First.foldl (pairs : List SlotPair) {seen : List SlotPair} (held : ∀ pair ∈ best, First previous seen pair)
    (none : best = .none → ∀ other ∈ seen, ¬After previous other) :
    (∀ pair ∈ pairs.foldl (selectSymmetry previous) best, First previous (seen ++ pairs) pair) ∧
      (pairs.foldl (selectSymmetry previous) best = .none → ∀ other ∈ seen ++ pairs, ¬After previous other) := by
  induction pairs generalizing best seen with
  | nil =>
    rw [List.append_nil]
    exact ⟨held, none⟩
  | cons candidate rest ih =>
    have split : seen ++ candidate :: rest = (seen ++ [candidate]) ++ rest := by simp
    rw [List.foldl_cons, split]
    obtain ⟨held, none⟩ := First.select candidate held none
    exact ih held none

theorem nextSymmetryInOrder_of_linked {chain : List Nat} {turns start : Nat}
    (linked : Linked (nextAt SymmetryRecord.next pools.symmetries) start chain) (inside : ∀ index ∈ chain, index < pools.symmetries.length)
    (enough : chain.length ≤ turns) : nextSymmetryInOrder pools previous turns start best =
      (chain.map fun index => SymmetryRecord.pair (pools.symmetries.getD index .null)).foldl (selectSymmetry previous) best := by
  induction chain generalizing turns start best with
  | nil =>
    obtain rfl : start = 0 := linked
    cases turns <;> rfl
  | cons member rest ih =>
    obtain ⟨rfl, positive, tail⟩ := linked
    cases turns with
    | zero => simp at enough
    | succ turns =>
      have below := inside start List.mem_cons_self
      have follows : (pools.symmetries.getD start .null).next = nextAt SymmetryRecord.next pools.symmetries start := by
        rw [nextAt, List.getD_eq_getElem _ _ below, List.getElem?_eq_getElem below]
        rfl
      rw [nextSymmetryInOrder, if_neg positive, List.map_cons, List.foldl_cons]
      dsimp only
      rw [follows]
      exact ih tail (fun index member => inside index (List.mem_cons_of_mem _ member)) (by simpa using enough)

variable {record : SymbolRecord}

theorem nextSymmetryInOrder_eq (sound : Sound pools graph) (inside : record ∈ pools.symbols) :
    nextSymmetryInOrder pools previous pools.symmetries.length record.symmetryHead none =
      (pairsFrom pools record.symmetryHead).foldl (selectSymmetry previous) none := by
  obtain ⟨chain, linked, members, enough⟩ := exists_chain sound inside
  rw [nextSymmetryInOrder_of_linked linked members enough, pairsFrom_of_linked linked enough]

def orderedPairs (pairs : List SlotPair) : List SlotPair := pairs.mergeSort fun left right => !decide (Before right.slots left.slots)

theorem orderedPairs_perm (pairs : List SlotPair) : (orderedPairs pairs).Perm pairs := List.mergeSort_perm _ _

theorem orderedPairs_sorted (distinct : (pairs.map SlotPair.slots).Nodup) :
    (orderedPairs pairs).Pairwise fun left right => Before left.slots right.slots := by
  have sorted : (orderedPairs pairs).Pairwise fun left right => (!decide (Before right.slots left.slots)) = true := by
    apply List.pairwise_mergeSort
    · intro a b c first second
      simp only [Bool.not_eq_true', decide_eq_false_iff_not] at *
      unfold Before at *
      omega
    · intro a b
      simp only [Bool.or_eq_true, Bool.not_eq_true', decide_eq_false_iff_not]
      unfold Before
      omega
  have apart : (orderedPairs pairs).Pairwise fun left right => left.slots ≠ right.slots := by
    have nodup := ((orderedPairs_perm pairs).map SlotPair.slots).nodup_iff.mpr distinct
    rwa [List.Nodup, List.pairwise_map] at nodup
  apply (sorted.and apart).imp
  rintro left right ⟨order, other⟩
  simp only [Bool.not_eq_true', decide_eq_false_iff_not] at order
  have different : ¬(left.slots.1 = right.slots.1 ∧ left.slots.2 = right.slots.2) := fun same => other (Prod.ext same.1 same.2)
  unfold Before at *
  omega

theorem orderedPairs_congr {others : List SlotPair} (same : pairs.Perm others) (distinct : (pairs.map SlotPair.slots).Nodup) :
    orderedPairs pairs = orderedPairs others := by
  have distinct' := (same.map SlotPair.slots).nodup_iff.mp distinct
  have perm := ((orderedPairs_perm pairs).trans same).trans (orderedPairs_perm others).symm
  apply perm.eq_of_pairwise _ (orderedPairs_sorted distinct) (orderedPairs_sorted distinct')
  intro left right _ _ first second
  exact absurd (first.trans second) (Before.irrefl _)

variable {done : List SlotPair}

theorem not_mem_of_after (sorted : done.Pairwise fun left right => Before left.slots right.slots)
    {pair : SlotPair} (after : After (done.getLast?.map SlotPair.slots) pair) : pair ∉ done := by
  intro inside
  obtain ⟨front, last, rfl⟩ : ∃ front last, done = front ++ [last] :=
    ⟨_, _, (List.dropLast_append_getLast (List.ne_nil_of_mem inside)).symm⟩
  have later := after last.slots (by simp)
  rcases List.mem_append.mp inside with earlier | same
  · have before := (List.pairwise_append.mp sorted).2.2 pair earlier last (List.mem_singleton_self last)
    exact Before.irrefl _ (before.trans later)
  · rw [List.mem_singleton.mp same] at later
    exact Before.irrefl _ later

theorem after_of_sorted {pair : SlotPair} (earlier : ∀ other ∈ done, Before other.slots pair.slots) :
    After (done.getLast?.map SlotPair.slots) pair := by
  intro slots last
  obtain ⟨other, found, rfl⟩ := Option.map_eq_some_iff.mp last
  exact earlier other (List.mem_of_getLast? found)

theorem writeSymmetries_eq (sound : Sound pools graph) (inside : record ∈ pools.symbols)
    (distinct : ((pairsFrom pools record.symmetryHead).map SlotPair.slots).Nodup) {rest : List SlotPair}
    (split : orderedPairs (pairsFrom pools record.symmetryHead) = done ++ rest) {turns : Nat} (enough : rest.length ≤ turns) :
    writeSymmetries pools record.symmetryHead turns (done.getLast?.map SlotPair.slots) = rest.flatMap pairText := by
  induction turns generalizing done rest with
  | zero =>
    obtain rfl : rest = [] := List.eq_nil_of_length_eq_zero (Nat.le_zero.mp enough)
    rfl
  | succ turns ih =>
    have sorted := orderedPairs_sorted distinct
    rw [split] at sorted
    obtain ⟨before, ahead, across⟩ := List.pairwise_append.mp sorted
    have members (pair : SlotPair) : pair ∈ pairsFrom pools record.symmetryHead ↔ pair ∈ done ∨ pair ∈ rest := by
      rw [← List.mem_append, ← split]
      exact (orderedPairs_perm _).mem_iff.symm
    obtain ⟨chosen, missed⟩ := @First.foldl (done.getLast?.map SlotPair.slots) none (pairsFrom pools record.symmetryHead) []
      (fun _ absent => nomatch absent) (fun _ _ absent => nomatch absent)
    rw [List.nil_append] at chosen missed
    rw [writeSymmetries, nextSymmetryInOrder_eq sound inside]
    cases rest with
    | nil =>
      split
      · rfl
      · rename_i pair found
        have first := chosen pair found
        rcases (members pair).mp first.mem with written | absent
        · exact absurd written (not_mem_of_after before first.after)
        · exact nomatch absent
    | cons head rest =>
      have next : After (done.getLast?.map SlotPair.slots) head :=
        after_of_sorted fun other written => across other written head List.mem_cons_self
      have here : head ∈ pairsFrom pools record.symmetryHead := (members head).mpr (.inr List.mem_cons_self)
      split
      · rename_i found
        exact absurd next (missed found head here)
      · rename_i pair found
        have first := chosen pair found
        have same : pair = head := by
          rcases (members pair).mp first.mem with written | later
          · exact absurd written (not_mem_of_after before first.after)
          · rcases List.mem_cons.mp later with same | later
            · exact same
            · exact absurd ((List.pairwise_cons.mp ahead).1 pair later) (first.least head here next)
        have split' : orderedPairs (pairsFrom pools record.symmetryHead) = done ++ [head] ++ rest := by
          rw [split, List.append_assoc]
          rfl
        have rest_written := ih split' (by simpa using enough)
        rw [List.getLast?_concat, Option.map_some] at rest_written
        rw [same, rest_written, List.flatMap_cons]

def declarationText (name : Name) (declaration : Declaration) : List UInt8 :=
  ascii "(declare " ++ nameText name ++ assumptionText declaration.assumptions ++ (orderedPairs declaration.pairs).flatMap pairText ++ [41]

def joinedLines : List (List UInt8) → List UInt8
  | [] => []
  | first :: rest => first ++ rest.flatMap (10 :: ·)

def declared (names : List Name) (declarations : List Declaration) : List (Name × Declaration) :=
  (names.zip declarations).filter fun entry => decide (entry.2 ≠ .none)

def declarationsText (entries : List (Name × Declaration)) : List UInt8 := joinedLines (entries.map fun entry => declarationText entry.1 entry.2)

theorem length_declarations (sound : Sound pools graph) : (declarations pools).length = graph.names.length := by
  rw [declarations, List.length_map, List.length_tail, sound.symbols.count, Nat.add_sub_cancel]

theorem pairsFrom_length (sound : Sound pools graph) (inside : record ∈ pools.symbols) :
    (pairsFrom pools record.symmetryHead).length ≤ pools.symmetries.length := by
  obtain ⟨chain, linked, -, enough⟩ := exists_chain sound inside
  rwa [pairsFrom_of_linked linked enough, List.length_map]

theorem pairsFrom_eq_nil (sound : Sound pools graph) (inside : record ∈ pools.symbols) :
    pairsFrom pools record.symmetryHead = [] ↔ record.symmetryHead = 0 := by
  constructor
  · intro empty
    obtain ⟨chain, linked, -, enough⟩ := exists_chain sound inside
    rw [pairsFrom_of_linked linked enough, List.map_eq_nil_iff] at empty
    rwa [empty] at linked
  · intro zero
    rw [zero, pairsFrom_zero]

theorem symbol_at (sound : Sound pools graph) {index : Nat} (below : index < graph.names.length) :
    ∃ record, symbolAt pools (index + 1) = some record ∧ pools.symbols[index + 1]? = some record ∧ record ∈ pools.symbols ∧
      (graph.names.zip (declarations pools))[index]? = some (nameOf pools record, declarationOf pools record) := by
  have named : Named graph.names (index + 1) graph.names[index] := ⟨Nat.succ_ne_zero index, List.getElem?_eq_getElem below⟩
  obtain ⟨record, held, spelled, -⟩ := sound.symbols.symbolAt_of_named named
  refine ⟨record, held, ?_, mem_of_symbolAt held, ?_⟩
  · rwa [symbolAt, if_neg (Nat.succ_ne_zero index)] at held
  · have told := declarations_getElem? held
    rw [Nat.add_sub_cancel] at told
    rw [List.getElem?_zip_eq_some]
    exact ⟨by rw [spelled, List.getElem?_eq_getElem below], told⟩

theorem writeDeclaration_eq (sound : Sound pools graph) (well : WellDeclared pools) {symbol : Nat}
    (held : symbolAt pools symbol = some record) :
    writeDeclaration pools symbol record = declarationText (nameOf pools record) (declarationOf pools record) := by
  have inside := mem_of_symbolAt held
  have distinct := (well.at held).distinct
  have enough : (orderedPairs (pairsFrom pools record.symmetryHead)).length ≤ pools.symmetries.length := by
    rw [(orderedPairs_perm _).length_eq]
    exact pairsFrom_length sound inside
  have written := writeSymmetries_eq sound inside distinct (List.nil_append _).symm enough
  have emitted : emitName pools symbol = nameText (nameOf pools record) := by
    unfold emitName
    rw [held]
  change writeSymmetries pools record.symmetryHead pools.symmetries.length none = _ at written
  rw [writeDeclaration, emitted, written]
  rfl

def withLine (text line : List UInt8) : List UInt8 := (if text ≠ [] then text ++ [10] else text) ++ line

theorem writeSymbol_eq (sound : Sound pools graph) (well : WellDeclared pools) (text : List UInt8) {index : Nat}
    (held : symbolAt pools (index + 1) = some record) :
    writeSymbol pools text (index + 1) = if declarationOf pools record ≠ .none then
      withLine text (declarationText (nameOf pools record) (declarationOf pools record)) else text := by
  have found := held
  rw [symbolAt, if_neg (Nat.succ_ne_zero index)] at found
  have nothing : (record.assumptions = 0 ∧ record.symmetryHead = 0) ↔ declarationOf pools record = .none := by
    rw [← pairsFrom_eq_nil sound (mem_of_symbolAt held), declarationOf, Declaration.none, Declaration.mk.injEq]
  unfold writeSymbol
  simp only [found, nothing]
  rw [writeDeclaration_eq sound well held, ← withLine, ite_not]

theorem foldl_writeSymbol (sound : Sound pools graph) (well : WellDeclared pools) (left index : Nat) (size : index + left = graph.names.length)
    (text : List UInt8) : (List.range' (index + 1) left).foldl (writeSymbol pools) text =
      (((graph.names.zip (declarations pools)).drop index).filter fun entry => decide (entry.2 ≠ .none)).foldl
        (fun text entry => withLine text (declarationText entry.1 entry.2)) text := by
  induction left generalizing index text with
  | zero =>
    rw [List.drop_of_length_le (by rw [List.length_zip, length_declarations sound, Nat.min_self]; omega)]
    rfl
  | succ left ih =>
    obtain ⟨record, held, -, inside, entry⟩ := symbol_at sound (by omega : index < graph.names.length)
    have drop : (graph.names.zip (declarations pools)).drop index =
        (nameOf pools record, declarationOf pools record) :: (graph.names.zip (declarations pools)).drop (index + 1) := by
      rw [List.drop_eq_getElem?_toList_append, entry]
      rfl
    rw [List.range'_succ, List.foldl_cons, ih (index + 1) (by omega), writeSymbol_eq sound well text held, drop, List.filter_cons]
    by_cases nothing : declarationOf pools record = .none
    · simp [nothing]
    · simp [nothing]

theorem foldl_withLine (lines : List (List UInt8)) {text : List UInt8} (some : text ≠ []) :
    lines.foldl withLine text = text ++ lines.flatMap (10 :: ·) := by
  induction lines generalizing text with
  | nil => simp
  | cons line rest ih =>
    have longer : withLine text line = text ++ 10 :: line := by
      rw [withLine, if_pos some, List.append_assoc]
      rfl
    rw [List.foldl_cons, longer, ih (by simp), List.flatMap_cons, List.append_assoc, List.cons_append]

theorem emitted_eq (sound : Sound pools graph) (well : WellDeclared pools) :
    emitted pools = declarationsText (declared graph.names (declarations pools)) := by
  have written := foldl_writeSymbol sound well graph.names.length 0 (Nat.zero_add _) []
  rw [List.drop_zero] at written
  have count : pools.symbols.length - 1 = graph.names.length := by rw [sound.symbols.count, Nat.add_sub_cancel]
  unfold emitted declarationsText declared
  rw [count, written]
  generalize (graph.names.zip (declarations pools)).filter _ = entries
  cases entries with
  | nil => rfl
  | cons first rest =>
    have line : withLine [] (declarationText first.1 first.2) = declarationText first.1 first.2 := rfl
    have apart : declarationText first.1 first.2 ≠ [] := by
      unfold declarationText
      simp
    rw [List.foldl_cons, line, List.map_cons, joinedLines, ← foldl_withLine _ apart, List.foldl_map]

end

end PhyNspire.Ir.DeclarationWriter

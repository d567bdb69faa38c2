import PhyNspire.Ir.Texts

/-!
The graph that the pools hold, read back node by node with nothing but the accessors.
-/

namespace PhyNspire.Ir.Denotation
open Lib Lib.Trees Lib.Decimal Expressions Context Symbols Nodes Order Layout Ordering Construction

def nameAt (pools : Pools) (symbol : Nat) : Name := ((symbolAt pools symbol).map (nameOf pools)).getD []

def exactAt (pools : Pools) (ref : Nat) : Option ℚ :=
  (exactDecimalView pools ref).map fun view => (textValue view.1 : ℚ) / (textValue view.2 : ℚ)

/-- All of a node but its children; a number is told by its value. -/
def labelAt (pools : Pools) (ref : Nat) (node : Node) : Label :=
  match node.kind with
  | .invalid => .error 0
  | .integer => .exact ((exactAt pools ref).getD 0)
  | .rational => .exact ((exactAt pools ref).getD 0)
  | .real => .real node.payload.realBits
  | .symbol => .symbol (nameAt pools node.head)
  | .index =>
      .index (nameAt pools node.head) (if node.aux = 1 then .upper else .lower)
        (if node.payload.word = 0 then none else some (nameAt pools node.payload.word))
  | .error => .error node.aux
  | .add => .add
  | .mul => .mul
  | .ncmul => .ncmul
  | .pow => .pow
  | .equation => .equation
  | .function => .function (nameAt pools node.head)
  | .tensor => .tensor (nameAt pools node.head)
  | .operator => .operator (nameAt pools node.head)
  | .derivative => .derivative
  | .wedge => .wedge

def entryOf (pools : Pools) (ref : Nat) (node : Node) : Entry Label := ⟨labelAt pools ref node, childrenOf pools node⟩

def graphOf (pools : Pools) : Graph where
  names := pools.symbols.tail.map (nameOf pools)
  entries := pools.nodes.tail.mapIdx fun i node => entryOf pools (i + 1) node

def exprAt (pools : Pools) (ref : Nat) : Option Expr := treeAt (graphOf pools).entries ref

section

variable {pools : Pools} {names : List Name} {graph : Graph} {entry : Entry Label} {node : Node} {q : ℚ}
  {ref symbol : Nat} {name : Name}

theorem nameAt_of_named (laid : LaidSymbols pools names) (named : Named names symbol name) : nameAt pools symbol = name := by
  obtain ⟨record, held, spelled, _⟩ := laid.symbolAt_of_named named
  rw [nameAt, held, Option.map_some, Option.getD_some, spelled]

theorem exactAt_of_reads (held : nodeAt pools ref = some node) (reads : Reads pools names ⟨.exact q, []⟩ node) :
    exactAt pools ref = some q := by
  rw [exactAt, exactDecimalView_of_reads held reads, Option.map_some, textValue_integerText, textValue_integerText,
    Int.cast_natCast, Rat.num_div_den]

theorem exactAt_of_not_exact (held : nodeAt pools ref = some node) (other : node.kind ≠ .integer ∧ node.kind ≠ .rational) :
    exactAt pools ref = none := by
  rw [exactAt, exactDecimalView, held]
  dsimp only
  rw [if_pos other, Option.map_none]

theorem labelAt_of_reads (laid : LaidSymbols pools names) (held : nodeAt pools ref = some node)
    (reads : Reads pools names entry node) (leaf : ∀ q, entry.label = .exact q → entry.children = []) :
    labelAt pools ref node = entry.label := by
  obtain ⟨label, children⟩ := entry
  have kind : node.kind = label.kind := reads.kind
  have head := reads.toHeads.head
  cases label with
  | exact q =>
    obtain rfl : children = [] := leaf q rfl
    have value := exactAt_of_reads held reads
    rw [kind_exact] at kind
    unfold labelAt
    split at kind <;> simp only [kind, value, Option.getD_some]
  | real bits =>
    have payload : node.payload = .real bits := reads.payload
    simp only [labelAt, kind, Label.kind, payload, Payload.realBits]
  | symbol name =>
    simp only [labelAt, kind, Label.kind, nameAt_of_named laid head]
  | index name variance space =>
    have aux : node.aux = variance.code := reads.aux
    have word := titled_space reads.toHeads
    simp only [labelAt, kind, Label.kind, nameAt_of_named laid head, aux]
    congr 1
    · cases variance <;> rfl
    · cases space with
      | none => exact if_pos word
      | some space => rw [if_neg word.1, nameAt_of_named laid word]
  | error code =>
    have aux : node.aux = code := reads.aux
    simp only [labelAt, kind, Label.kind, aux]
  | function name => simp only [labelAt, kind, Label.kind, nameAt_of_named laid head]
  | tensor name => simp only [labelAt, kind, Label.kind, nameAt_of_named laid head]
  | operator name => simp only [labelAt, kind, Label.kind, nameAt_of_named laid head]
  | add => simp only [labelAt, kind, Label.kind]
  | mul => simp only [labelAt, kind, Label.kind]
  | ncmul => simp only [labelAt, kind, Label.kind]
  | pow => simp only [labelAt, kind, Label.kind]
  | equation => simp only [labelAt, kind, Label.kind]
  | derivative => simp only [labelAt, kind, Label.kind]
  | wedge => simp only [labelAt, kind, Label.kind]

theorem leaf_of_entryAt (wellFormed : WellFormed graph) (stored : entryAt graph.entries ref = some entry) (q : ℚ)
    (exact : entry.label = .exact q) : entry.children = [] :=
  wellFormed.leaf stored (by rw [exact]; rfl)

theorem entryOf_of_entryAt (sound : Sound pools graph) (stored : entryAt graph.entries ref = some entry) :
    ∃ node, nodeAt pools ref = some node ∧ entryOf pools ref node = entry := by
  obtain ⟨node, listed, reads, _⟩ := sound.nodes.nodeAt_entry stored
  refine ⟨node, listed, ?_⟩
  rw [entryOf, reads.children, labelAt_of_reads sound.symbols listed reads (leaf_of_entryAt sound.wellFormed stored)]

theorem graphOf_eq (sound : Sound pools graph) : graphOf pools = graph := by
  have names : (graphOf pools).names = graph.names := by
    refine List.ext_getElem? (fun i => ?_)
    change (pools.symbols.tail.map (nameOf pools))[i]? = _
    rw [List.getElem?_map, List.getElem?_tail]
    cases found : graph.names[i]? with
    | none =>
      have out := List.getElem?_eq_none_iff.mp found
      rw [List.getElem?_eq_none (by rw [sound.symbols.count]; omega)]
      rfl
    | some name =>
      obtain ⟨record, held, spelled, _⟩ := sound.symbols.named ⟨Nat.succ_ne_zero i, found⟩
      rw [held, Option.map_some, spelled]
  have entries : (graphOf pools).entries = graph.entries := by
    refine List.ext_getElem? (fun i => ?_)
    change (pools.nodes.tail.mapIdx _)[i]? = _
    rw [List.getElem?_mapIdx, List.getElem?_tail]
    cases found : graph.entries[i]? with
    | none =>
      have out := List.getElem?_eq_none_iff.mp found
      rw [List.getElem?_eq_none (by rw [sound.nodes.count]; omega)]
      rfl
    | some entry =>
      have stored : entryAt graph.entries (i + 1) = some entry := found
      obtain ⟨node, listed, same⟩ := entryOf_of_entryAt sound stored
      have held : pools.nodes[i + 1]? = some node := listed
      rw [held, Option.map_some, same]
  have parts : graphOf pools = ⟨graph.names, graph.entries⟩ := by rw [← names, ← entries]
  exact parts

end

end PhyNspire.Ir.Denotation

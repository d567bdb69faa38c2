import PhyNspire.Ir.Builders

/-!
What the pools of a context stand for. A graph is the list of names and the list of
entries that a context has published, in the order of their ids; the pools are the
concatenation of what each name and each entry owns. Chains, capacities and accounts are
not part of the graph.
-/

namespace PhyNspire.Ir.Layout
open Lib Lib.Chains Lib.Trees Lib.Decimal Expressions Context Symbols Nodes

structure Graph where
  names : List Name
  entries : List (Entry Label)

def Named (names : List Name) (symbol : Nat) (name : Name) : Prop := symbol ≠ 0 ∧ names[symbol - 1]? = some name

/-- The inline fraction of a number that is not an integer. -/
def ratOf : Label → Option Rat64
  | .exact q => if Inline q ∧ q.den ≠ 1 then some ⟨Int64.ofInt q.num, Int64.ofInt q.den⟩ else none
  | _ => none

/-- The decimal text of a number that is not held inline. -/
def promotedOf : Label → Option BigExactProto
  | .exact q => if Inline q then none else some ⟨integerText q.num, if q.den = 1 then [] else integerText q.den⟩
  | _ => none

def textOf (label : Label) : List UInt8 :=
  match promotedOf label with
  | none => []
  | some bigExact => bigExact.numerator ++ bigExact.denominator

def nodeAux (label : Label) : Nat := if promotedOf label = none then label.aux else exactBig

/-- The pool sizes before an entry's own payload. -/
def childMark (entries : List (Entry Label)) : Nat := (entries.flatMap Entry.children).length

def ratMark (entries : List (Entry Label)) : Nat := (entries.filterMap fun entry => ratOf entry.label).length

def bigMark (entries : List (Entry Label)) : Nat := (entries.filterMap fun entry => promotedOf entry.label).length

def textMark (entries : List (Entry Label)) : Nat := (entries.flatMap fun entry => textOf entry.label).length

def InlinePayload (names : List Name) (label : Label) (payload : Payload) : Prop :=
  match label with
  | .exact q => Inline q → q.den = 1 → payload = .integer (Int64.ofInt q.num)
  | .real bits => payload = .real bits
  | .index _ _ none => payload = .indexSpace 0
  | .index _ _ (some space) => ∃ symbol, payload = .indexSpace symbol ∧ Named names symbol space
  | _ => True

/-- The fields of a node that a search compares: all but its chain and its pool indices. -/
structure Heads (names : List Name) (label : Label) (children : List Nat) (node : Node) : Prop where
  kind : node.kind = label.kind
  aux : node.aux = nodeAux label
  childCount : node.childCount = children.length
  head : match label.head with
    | none => node.head = 0
    | some name => Named names node.head name
  payload : InlinePayload names label node.payload

/-- A node, given the entries published before it. -/
structure Encodes (pools : Pools) (graph : Graph) (before : List (Entry Label)) (entry : Entry Label) (node : Node) :
    Prop extends Heads graph.names entry.label entry.children node where
  offset : entry.children ≠ [] → node.payload.word = childMark before
  rat : ratOf entry.label ≠ none → node.payload.word = ratMark before
  promoted : ∀ bigExact, promotedOf entry.label = some bigExact → node.payload.word = bigMark before ∧
    pools.bigExacts[bigMark before]? = some
      ⟨textMark before, bigExact.numerator.length, textMark before + bigExact.numerator.length,
        bigExact.denominator.length⟩
  tree : ∀ expr, treeAt graph.entries (before.length + 1) = some expr → node.hash = hash expr ∧ node.depth = expr.height

structure LaidSymbols (pools : Pools) (names : List Name) : Prop where
  distinct : names.Nodup
  spelled : ∀ name ∈ names, name ≠ []
  strings : pools.strings = names.flatMap (· ++ [0])
  count : pools.symbols.length = names.length + 1
  record : ∀ i name, names[i]? = some name → ∃ record, pools.symbols[i + 1]? = some record ∧
    record.nameOffset = ((names.take i).flatMap (· ++ [0])).length ∧ record.nameLength = name.length ∧
    record.nameHash = hashName name
  buckets : 0 < pools.symbolBuckets.length
  chained : Chained (slotAt (symbolBucket pools.symbolBuckets.length) pools.symbols)
    (nextAt SymbolRecord.internNext pools.symbols) pools.symbolBuckets pools.symbols.length

structure LaidNodes (pools : Pools) (graph : Graph) : Prop where
  children : pools.children = graph.entries.flatMap Entry.children
  rationals : pools.rationals = graph.entries.filterMap fun entry => ratOf entry.label
  exactText : pools.exactText = graph.entries.flatMap fun entry => textOf entry.label
  bigExacts : pools.bigExacts.length = bigMark graph.entries
  count : pools.nodes.length = graph.entries.length + 1
  node : ∀ i entry, graph.entries[i]? = some entry → ∃ node, pools.nodes[i + 1]? = some node ∧
    Encodes pools graph (graph.entries.take i) entry node
  buckets : 0 < pools.nodeBuckets.length
  chained : Chained (slotAt (nodeBucket pools.nodeBuckets.length) pools.nodes)
    (nextAt Node.internNext pools.nodes) pools.nodeBuckets pools.nodes.length

structure LaidSymmetries (pools : Pools) : Prop where
  sentinel : pools.symmetries ≠ []
  owned : ∃ owner : Nat → Nat,
    Chained owner (nextAt SymmetryRecord.next pools.symmetries) (pools.symbols.map SymbolRecord.symmetryHead)
      pools.symmetries.length ∧
    ∀ i, i ≠ 0 → i < pools.symmetries.length → owner i ≠ 0 ∧ owner i < pools.symbols.length

/-- Finite, and zero only with its plus sign. -/
def CanonicalReal (bits : UInt64) : Prop := (bits >>> 52) &&& 0x7ff ≠ 0x7ff ∧ bits ≠ 0x8000000000000000

/-- The run of an associative node: two or more operands, none of the node's own kind. -/
def Flattened (label : Label) (children : List Expr) : Prop :=
  2 ≤ children.length ∧ ∀ child ∈ children, child.label ≠ label

def SortedExprs (children : List Expr) : Prop :=
  children.Pairwise fun left right => (compareExprs left right).isLE

def Shaped (label : Label) (children : List Expr) : Prop :=
  match label with
  | .exact _ => children = []
  | .real bits => children = [] ∧ CanonicalReal bits
  | .symbol _ => children = []
  | .index _ _ _ => children = []
  | .error code => children = [] ∧ code ≠ 0 ∧ code < 21
  | .add => Flattened .add children ∧ SortedExprs children
  | .mul => Flattened .mul children ∧ SortedExprs children
  | .ncmul => Flattened .ncmul children
  | .wedge => Flattened .wedge children
  | .pow => children.length = 2
  | .equation => children.length = 2
  | .function _ => True
  | .operator _ => True
  | .tensor _ => ∀ child ∈ children, child.label.kind = .index
  | .derivative => 2 ≤ children.length ∧ ∀ child ∈ children.tail, child.label.kind = .symbol ∨ child.label.kind = .index

structure WellFormed (graph : Graph) : Prop where
  distinct : graph.entries.Nodup
  backward : Backward graph.entries
  shaped : ∀ ref entry, entryAt graph.entries ref = some entry →
    Shaped entry.label (entry.children.filterMap (treeAt graph.entries))

structure Sound (pools : Pools) (graph : Graph) : Prop where
  symbols : LaidSymbols pools graph.names
  nodes : LaidNodes pools graph
  symmetries : LaidSymmetries pools
  wellFormed : WellFormed graph

/-- Publishing only appends. -/
structure Grows (before after : Graph) : Prop where
  names : before.names <+: after.names
  entries : before.entries <+: after.entries

section

variable {α β : Type}

theorem slice_append (front middle back : List α) : slice (front ++ (middle ++ back)) front.length middle.length = middle := by
  simp [slice]

theorem split_at {items : List α} {i : Nat} {item : α} (found : items[i]? = some item) :
    items = items.take i ++ (item :: items.drop (i + 1)) := by
  obtain ⟨inside, rfl⟩ := List.getElem?_eq_some_iff.mp found
  rw [List.getElem_cons_drop, List.take_append_drop]

theorem slice_flatMap {items : List α} {i : Nat} {item : α} (found : items[i]? = some item) (owns : α → List β) :
    slice (items.flatMap owns) ((items.take i).flatMap owns).length (owns item).length = owns item := by
  conv_lhs => rw [split_at found]
  rw [List.take_left' (by rw [List.length_take]; have := (List.getElem?_eq_some_iff.mp found).1; omega)]
  rw [List.flatMap_append, List.flatMap_cons, slice_append]

theorem getElem?_filterMap {items : List α} {i : Nat} {item : α} (found : items[i]? = some item) (owns : α → Option β)
    {owned : β} (owning : owns item = some owned) :
    (items.filterMap owns)[((items.take i).filterMap owns).length]? = some owned := by
  conv_lhs => rw [split_at found]
  rw [List.take_left' (by rw [List.length_take]; have := (List.getElem?_eq_some_iff.mp found).1; omega)]
  rw [List.filterMap_append, List.filterMap_cons_some owning, List.getElem?_append_right (Nat.le_refl _)]
  simp

end

end PhyNspire.Ir.Layout

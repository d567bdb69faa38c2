import PhyNspire.Ir.SymbolTable

/-!
Interning of nodes keeps the layout of the pools. A node is found again exactly when its
entry has been published before, so no entry is published twice.
-/

namespace PhyNspire.Ir.Layout
open Lib Lib.Chains Lib.Trees Lib.Decimal Exact.Decimals Expressions Context Symbols Nodes

structure Reads (pools : Pools) (names : List Name) (entry : Entry Label) (node : Node) : Prop
    extends Heads names entry.label entry.children node where
  children : childrenOf pools node = entry.children
  rational : ∀ rat, ratOf entry.label = some rat → pools.rationals[node.payload.word]? = some rat
  promoted : ∀ bigExact, promotedOf entry.label = some bigExact → ∃ held,
    pools.bigExacts[node.payload.word]? = some held ∧ held.numeratorLength = bigExact.numerator.length ∧
      held.denominatorLength = bigExact.denominator.length ∧ bigExactText pools held = bigExact ∧
      held.numeratorOffset + held.numeratorLength ≤ pools.exactText.length ∧
      held.denominatorOffset + held.denominatorLength ≤ pools.exactText.length

section

variable {pools : Pools} {names : List Name} {graph : Graph} {entry entry' : Entry Label} {node : Node} {ref : Nat}
  {label label' : Label} {q : ℚ}

theorem slice_back_of_append {α : Type} {items front back : List α} {offset : Nat}
    (held : slice items offset (front ++ back).length = front ++ back) :
    slice items (offset + front.length) back.length = back := by
  unfold slice at *
  have cut := congrArg (List.drop front.length) held
  rw [List.drop_take, List.drop_left, List.drop_drop, List.length_append, Nat.add_sub_cancel_left] at cut
  exact cut

theorem slice_inside {α : Type} {items : List α} {offset length : Nat} (held : (slice items offset length).length = length)
    (some : length ≠ 0) : offset + length ≤ items.length := by
  unfold slice at held
  rw [List.length_take, List.length_drop] at held
  omega

theorem integerText_length_pos (z : Int) : (integerText z).length ≠ 0 := by
  rw [Ne, List.length_eq_zero_iff]
  exact integerText_ne_nil z

theorem promotedOf_exact (big : ¬Inline q) : promotedOf (.exact q) =
    some ⟨integerText q.num, if q.den = 1 then [] else integerText q.den⟩ := by
  rw [promotedOf, if_neg big]

theorem promotedOf_eq_some {bigExact : BigExactProto} (promoted : promotedOf label = some bigExact) :
    ∃ q, label = .exact q ∧ ¬Inline q ∧
      bigExact = ⟨integerText q.num, if q.den = 1 then [] else integerText q.den⟩ := by
  unfold promotedOf at promoted
  split at promoted
  · split at promoted
    · cases promoted
    · rename_i big
      exact ⟨_, rfl, big, (Option.some.inj promoted).symm⟩
  · cases promoted

theorem ratOf_eq_some {rat : Rat64} (held : ratOf label = some rat) :
    ∃ q, label = .exact q ∧ Inline q ∧ q.den ≠ 1 ∧ rat = ⟨Int64.ofInt q.num, Int64.ofInt q.den⟩ := by
  unfold ratOf at held
  split at held
  · split at held
    · rename_i shape
      exact ⟨_, rfl, shape.1, shape.2, (Option.some.inj held).symm⟩
    · cases held
  · cases held

theorem LaidNodes.reads (laid : LaidNodes pools graph) {i : Nat} (found : graph.entries[i]? = some entry)
    (encodes : Encodes pools graph (graph.entries.take i) entry node) : Reads pools graph.names entry node where
  toHeads := encodes.toHeads
  children := by
    unfold childrenOf
    rw [encodes.childCount]
    by_cases leaf : entry.children = []
    · simp [leaf, slice]
    · rw [encodes.offset leaf, laid.children]
      exact slice_flatMap found Entry.children
  rational := by
    intro rat held
    rw [encodes.rat (by rw [held]; exact Option.some_ne_none rat), laid.rationals]
    exact getElem?_filterMap found (fun entry => ratOf entry.label) held
  promoted := by
    intro bigExact promoted
    obtain ⟨word, held⟩ := encodes.promoted bigExact promoted
    obtain ⟨q, _, _, shape⟩ := promotedOf_eq_some promoted
    have text : textOf entry.label = bigExact.numerator ++ bigExact.denominator := by rw [textOf, promoted]
    have run := slice_flatMap found (fun entry => textOf entry.label)
    simp only [text] at run
    change slice _ (textMark _) _ = _ at run
    rw [← laid.exactText] at run
    have front := slice_of_append run
    have back := slice_back_of_append run
    have nonempty : (bigExact.numerator ++ bigExact.denominator).length ≠ 0 := by
      have digits : bigExact.numerator.length ≠ 0 := shape ▸ integerText_length_pos q.num
      rw [List.length_append]
      omega
    have first := slice_inside (congrArg List.length run) nonempty
    rw [List.length_append] at first
    refine ⟨_, word ▸ held, rfl, rfl, ?_, ?_, ?_⟩
    · cases bigExact
      simp only [bigExactText]
      rw [front, back]
    · exact Nat.le_trans (Nat.add_le_add_left (Nat.le_add_right _ _) _) first
    · simpa only [Nat.add_assoc] using first
/-- What the builder of an entry hands over beside the node. -/
def extraOf (entry : Entry Label) : Extra := ⟨entry.children, ratOf entry.label, promotedOf entry.label⟩

theorem nodeAux_exact (q : ℚ) : nodeAux (.exact q) = if Inline q then 0 else exactBig := by
  unfold nodeAux promotedOf
  by_cases held : Inline q
  · simp [held, Label.aux]
  · simp [held]

theorem nodeAux_of_not_exact (other : ∀ q, label ≠ .exact q) : nodeAux label = label.aux := by
  unfold nodeAux promotedOf
  split
  · rename_i q
    exact absurd rfl (other q)
  · rfl

theorem kind_exact (q : ℚ) : (Label.exact q).kind = if q.den = 1 then .integer else .rational := rfl

theorem exact_of_kind (kind : label.kind = .integer ∨ label.kind = .rational) : ∃ q, label = .exact q := by
  cases label with
  | exact q => exact ⟨q, rfl⟩
  | _ => rcases kind with kind | kind <;> cases kind

theorem ofInt_injective {a b : Int} (first : FitsI64 a) (second : FitsI64 b) (same : Int64.ofInt a = Int64.ofInt b) :
    a = b := by
  rw [← toInt_ofInt_of_fits first, ← toInt_ofInt_of_fits second, same]

theorem inline_injective {q q' : ℚ} (first : Inline q) (second : Inline q')
    (same : (⟨Int64.ofInt q.num, Int64.ofInt q.den⟩ : Rat64) = ⟨Int64.ofInt q'.num, Int64.ofInt q'.den⟩) : q = q' := by
  obtain ⟨numerators, denominators⟩ := Rat64.mk.inj same
  exact Rat.ext (ofInt_injective first.1 second.1 numerators)
    (Int.ofNat_inj.mp (ofInt_injective first.2 second.2 denominators))

theorem integral_eq {q q' : ℚ} (integral : q.den = 1) (integral' : q'.den = 1) (same : q.num = q'.num) : q = q' :=
  Rat.ext same (integral.trans integral'.symm)

theorem samePayload_exact {proto : Node} {q q' : ℚ} (reads : Reads pools names ⟨.exact q, []⟩ node)
    (heads : Heads names (.exact q') [] proto) :
    samePayload pools node proto (extraOf ⟨.exact q', []⟩) = true ↔ q = q' := by
  have kind : node.kind = if q.den = 1 then .integer else .rational := reads.kind
  have kind' : proto.kind = if q'.den = 1 then .integer else .rational := heads.kind
  have aux : node.aux = if Inline q then 0 else exactBig := reads.aux.trans (nodeAux_exact q)
  have aux' : proto.aux = if Inline q' then 0 else exactBig := heads.aux.trans (nodeAux_exact q')
  have head : node.head = proto.head := (show node.head = 0 from reads.head).trans (show proto.head = 0 from heads.head).symm
  have count : node.childCount = proto.childCount := reads.childCount.trans heads.childCount.symm
  unfold samePayload
  by_cases alike : node.kind = proto.kind ∧ node.aux = proto.aux
  · obtain ⟨kinds, sizes⟩ := alike
    rw [if_neg (by simp [kinds, sizes, head, count])]
    have dens : q.den = 1 ↔ q'.den = 1 := by
      rw [kind, kind'] at kinds
      by_cases first : q.den = 1 <;> by_cases second : q'.den = 1 <;> simp [first, second] at kinds ⊢
    have inlines : Inline q ↔ Inline q' := by
      rw [aux, aux'] at sizes
      by_cases first : Inline q <;> by_cases second : Inline q' <;> simp [first, second, exactBig] at sizes ⊢
    by_cases integral : q.den = 1
    · have integral' := dens.mp integral
      simp only [kind, if_pos integral, aux]
      by_cases held : Inline q
      · have held' := inlines.mp held
        rw [if_pos held, if_neg (by decide), decide_eq_true_eq, reads.payload held integral,
          heads.payload held' integral']
        constructor
        · intro same
          exact integral_eq integral integral' (ofInt_injective held.1 held'.1 same)
        · rintro rfl
          rfl
      · have held' : ¬Inline q' := fun other => held (inlines.mpr other)
        obtain ⟨record, found, numerators, denominators, text, _⟩ := reads.promoted _ (promotedOf_exact held)
        have proposed : (extraOf ⟨.exact q', []⟩).bigExact = some _ := promotedOf_exact held'
        rw [if_neg held, if_pos rfl, found, proposed]
        simp only [Bool.and_eq_true, decide_eq_true_eq, numerators, denominators, text, if_pos integral, List.length_nil]
        constructor
        · rintro ⟨_, same⟩
          exact integral_eq integral integral' (integerText_injective same)
        · rintro rfl
          exact ⟨⟨trivial, rfl⟩, rfl⟩
    · have integral' : q'.den ≠ 1 := fun other => integral (dens.mpr other)
      simp only [kind, if_neg integral, aux]
      by_cases held : Inline q
      · have held' := inlines.mp held
        have stored : ratOf (.exact q) = some ⟨Int64.ofInt q.num, Int64.ofInt q.den⟩ := if_pos ⟨held, integral⟩
        have proposed : (extraOf ⟨.exact q', []⟩).rat = some ⟨Int64.ofInt q'.num, Int64.ofInt q'.den⟩ :=
          if_pos ⟨held', integral'⟩
        rw [if_pos held, if_neg (by decide), reads.rational _ stored, proposed]
        simp only [decide_eq_true_eq]
        constructor
        · exact inline_injective held held'
        · rintro rfl
          rfl
      · have held' : ¬Inline q' := fun other => held (inlines.mpr other)
        obtain ⟨record, found, numerators, denominators, text, _⟩ := reads.promoted _ (promotedOf_exact held)
        have proposed : (extraOf ⟨.exact q', []⟩).bigExact = some _ := promotedOf_exact held'
        rw [if_neg held, if_pos rfl, found, proposed]
        simp only [Bool.and_eq_true, decide_eq_true_eq, numerators, denominators, text, if_neg integral, if_neg integral',
          BigExactProto.mk.injEq]
        constructor
        · rintro ⟨_, first, second⟩
          exact Rat.ext (integerText_injective first) (Int.ofNat_inj.mp (integerText_injective second))
        · rintro rfl
          exact ⟨⟨rfl, rfl⟩, rfl, rfl⟩
  · rw [if_pos (by
      rcases not_and_or.mp alike with kinds | sizes
      · exact .inl kinds
      · exact .inr (.inl sizes))]
    simp only [Bool.false_eq_true, false_iff]
    rintro rfl
    exact alike ⟨kind.trans kind'.symm, aux.trans aux'.symm⟩

theorem head_eq_iff {proto : Node} {children children' : List Nat} (distinct : names.Nodup)
    (heads : Heads names label children node) (heads' : Heads names label' children' proto) :
    node.head = proto.head ↔ label.head = label'.head := by
  have first := heads.head
  have second := heads'.head
  cases name : label.head <;> cases name' : label'.head <;> simp only [name, name'] at first second
  · simp [first, second]
  · simp only [first, reduceCtorEq, iff_false]
    exact fun same => second.1 same.symm
  · simp only [second, reduceCtorEq, iff_false]
    exact first.1
  · rw [Option.some.injEq]
    constructor
    · intro same
      rw [same] at first
      exact first.unique second
    · rintro rfl
      exact first.symbol_eq distinct second

theorem label_eq_of_heads (kind : label.kind = label'.kind) (head : label.head = label'.head) (aux : label.aux = label'.aux)
    (plain : label.kind ≠ .integer ∧ label.kind ≠ .rational ∧ label.kind ≠ .real ∧ label.kind ≠ .index) :
    label = label' := by
  obtain ⟨integer, rational, real, index⟩ := plain
  have exact (q : ℚ) : label ≠ .exact q := by
    rintro rfl
    rw [kind_exact] at integer rational
    split at integer <;> simp_all
  have exact' (q : ℚ) : label' ≠ .exact q := by
    rintro rfl
    rw [kind, kind_exact] at integer rational
    split at integer <;> simp_all
  cases label <;> cases label' <;> simp_all [Label.kind, Label.head, Label.aux]

/-- An index space is told apart by its symbol, and no space is symbol zero. -/
theorem space_eq_iff {proto : Node} {children children' : List Nat} {name name' : Name} {variance variance' : Variance}
    {space space' : Option Name} (distinct : names.Nodup)
    (heads : Heads names (.index name variance space) children node)
    (heads' : Heads names (.index name' variance' space') children' proto) :
    node.payload.word = proto.payload.word ↔ space = space' := by
  have word : match space with
      | none => node.payload.word = 0
      | some space => Named names node.payload.word space := by
    have payload := heads.payload
    cases space with
    | none => exact congrArg Payload.word (show node.payload = .indexSpace 0 from payload)
    | some space =>
      obtain ⟨symbol, payload, named⟩ := payload
      rwa [payload]
  have word' : match space' with
      | none => proto.payload.word = 0
      | some space => Named names proto.payload.word space := by
    have payload := heads'.payload
    cases space' with
    | none => exact congrArg Payload.word (show proto.payload = .indexSpace 0 from payload)
    | some space =>
      obtain ⟨symbol, payload, named⟩ := payload
      rwa [payload]
  cases space <;> cases space' <;> simp only at word word'
  · simp [word, word']
  · simp only [word, reduceCtorEq, iff_false]
    exact fun same => word'.1 same.symm
  · simp only [word', reduceCtorEq, iff_false]
    exact word.1
  · rw [Option.some.injEq]
    constructor
    · intro same
      rw [same] at word
      exact word.unique word'
    · rintro rfl
      exact word.symbol_eq distinct word'

theorem children_eq_iff {proto : Node} (reads : Reads pools names entry node)
    (heads : Heads names entry'.label entry'.children proto) (count : node.childCount = proto.childCount) :
    (if node.childCount = 0 then true else decide (childrenOf pools node = entry'.children)) = true ↔
      entry.children = entry'.children := by
  have length : entry.children.length = entry'.children.length :=
    reads.childCount.symm.trans (count.trans heads.childCount)
  rw [reads.children, reads.childCount]
  by_cases leaf : entry.children.length = 0
  · have leaf' : entry'.children.length = 0 := length.symm.trans leaf
    rw [if_pos leaf, List.length_eq_zero_iff.mp leaf, List.length_eq_zero_iff.mp leaf']
    simp
  · rw [if_neg leaf, decide_eq_true_eq]

theorem samePayload_plain {proto : Node} {extra : Extra} (alike : ¬(node.kind ≠ proto.kind ∨ node.aux ≠ proto.aux ∨
    node.head ≠ proto.head ∨ node.childCount ≠ proto.childCount))
    (plain : node.kind ≠ .integer ∧ node.kind ≠ .rational ∧ node.kind ≠ .real ∧ node.kind ≠ .index) :
    samePayload pools node proto extra =
      if node.childCount = 0 then true else decide (childrenOf pools node = extra.children) := by
  obtain ⟨integer, rational, real, index⟩ := plain
  unfold samePayload
  rw [if_neg alike]
  cases kind : node.kind <;> first
    | rfl
    | contradiction

theorem real_of_kind (kind : label.kind = .real) : ∃ bits, label = .real bits := by
  cases label with
  | real bits => exact ⟨bits, rfl⟩
  | exact q =>
    rw [kind_exact] at kind
    split at kind <;> cases kind
  | _ => cases kind

theorem index_of_kind (kind : label.kind = .index) : ∃ name variance space, label = .index name variance space := by
  cases label with
  | index name variance space => exact ⟨name, variance, space, rfl⟩
  | exact q =>
    rw [kind_exact] at kind
    split at kind <;> cases kind
  | _ => cases kind

theorem entry_eq_iff : entry = entry' ↔ entry.label = entry'.label ∧ entry.children = entry'.children := by
  cases entry
  cases entry'
  simp

/-- A stored node and a proposed one agree exactly when they stand for one entry. -/
theorem samePayload_iff {proto : Node} (distinct : names.Nodup) (reads : Reads pools names entry node)
    (heads : Heads names entry'.label entry'.children proto) (leaf : entry.label.atom = true → entry.children = [])
    (leaf' : entry'.label.atom = true → entry'.children = []) :
    samePayload pools node proto (extraOf entry') = true ↔ entry = entry' := by
  have kinds : node.kind = proto.kind ↔ entry.label.kind = entry'.label.kind := by rw [reads.kind, heads.kind]
  have sameHead := head_eq_iff distinct reads.toHeads heads
  have counts : entry = entry' → node.childCount = proto.childCount := by
    rintro rfl
    exact reads.childCount.trans heads.childCount.symm
  have auxes : entry = entry' → node.aux = proto.aux := by
    rintro rfl
    exact reads.aux.trans heads.aux.symm
  by_cases exact : ∃ q, entry.label = .exact q ∧ ∃ q', entry'.label = .exact q'
  · obtain ⟨q, label, q', label'⟩ := exact
    have empty := leaf (by rw [label]; rfl)
    have empty' := leaf' (by rw [label']; rfl)
    cases entry
    cases entry'
    simp only at label label' empty empty'
    subst label label' empty empty'
    rw [samePayload_exact reads heads]
    simp
  by_cases unlike : node.kind ≠ proto.kind ∨ node.aux ≠ proto.aux ∨ node.head ≠ proto.head ∨
      node.childCount ≠ proto.childCount
  · unfold samePayload
    rw [if_pos unlike]
    simp only [Bool.false_eq_true, false_iff]
    intro same
    rcases unlike with kind | aux | head | count
    · exact kind (kinds.mpr (same ▸ rfl))
    · exact aux (auxes same)
    · exact head (sameHead.mpr (same ▸ rfl))
    · exact count (counts same)
  · obtain ⟨kind, aux, head, count⟩ : node.kind = proto.kind ∧ node.aux = proto.aux ∧ node.head = proto.head ∧
        node.childCount = proto.childCount := by
      simpa only [not_or, not_not, ne_eq] using unlike
    have labels := kinds.mp kind
    have plain (q : ℚ) : entry.label ≠ .exact q := by
      intro label
      obtain ⟨q', label'⟩ := exact_of_kind (by
        rw [← labels, label, kind_exact]
        split <;> simp)
      exact exact ⟨q, label, q', label'⟩
    have plain' (q : ℚ) : entry'.label ≠ .exact q := by
      intro label'
      obtain ⟨q', label⟩ := exact_of_kind (by
        rw [labels, label', kind_exact]
        split <;> simp)
      exact exact ⟨q', label, q, label'⟩
    rw [reads.aux, heads.aux, nodeAux_of_not_exact plain, nodeAux_of_not_exact plain'] at aux
    rw [entry_eq_iff]
    by_cases real : entry.label.kind = .real
    · obtain ⟨bits, label⟩ := real_of_kind real
      obtain ⟨bits', label'⟩ := real_of_kind (labels ▸ real)
      have payload := reads.payload
      have payload' := heads.payload
      rw [label] at payload
      rw [label'] at payload'
      have empty := leaf (by rw [label]; rfl)
      have empty' := leaf' (by rw [label']; rfl)
      unfold samePayload
      rw [if_neg unlike, reads.kind, label, label', empty, empty',
        show node.payload = .real bits from payload, show proto.payload = .real bits' from payload']
      simp only [Label.kind, Payload.realBits, Label.real.injEq, and_true]
      exact decide_eq_true_iff
    by_cases index : entry.label.kind = .index
    · obtain ⟨name, variance, space, label⟩ := index_of_kind index
      obtain ⟨name', variance', space', label'⟩ := index_of_kind (labels ▸ index)
      have first := reads.toHeads
      have second := heads
      rw [label] at first
      rw [label'] at second
      have empty := leaf (by rw [label]; rfl)
      have empty' := leaf' (by rw [label']; rfl)
      have names : some name = some name' := by simpa only [label, label', Label.head] using sameHead.mp head
      have variances : variance = variance' := Variance.code_injective (by simpa only [label, label', Label.aux] using aux)
      unfold samePayload
      rw [if_neg unlike, reads.kind, label, label', empty, empty']
      simp only [Label.kind, decide_eq_true_eq, space_eq_iff distinct first second, Option.some.inj names, variances,
        Label.index.injEq, true_and, and_true]
    have other : entry.label.kind ≠ .integer ∧ entry.label.kind ≠ .rational ∧ entry.label.kind ≠ .real ∧
        entry.label.kind ≠ .index := by
      refine ⟨?_, ?_, real, index⟩
      · intro integer
        obtain ⟨q, label⟩ := exact_of_kind (.inl integer)
        exact plain q label
      · intro rational
        obtain ⟨q, label⟩ := exact_of_kind (.inr rational)
        exact plain q label
    rw [samePayload_plain unlike (reads.kind ▸ other)]
    change (if node.childCount = 0 then true else decide (childrenOf pools node = entry'.children)) = true ↔ _
    rw [children_eq_iff reads heads count]
    exact ⟨fun same => ⟨label_eq_of_heads labels (sameHead.mp head) aux other, same⟩, fun same => same.2⟩

def exprOf (graph : Graph) (entry : Entry Label) : Expr := .node entry.label (entry.children.filterMap (treeAt graph.entries))

/-- A builder's proposal, judged against the entries published so far. -/
structure Proposes (graph : Graph) (entry : Entry Label) (proto : Node) : Prop
    extends Heads graph.names entry.label entry.children proto where
  live : ∀ child ∈ entry.children, Live graph.entries child
  shaped : Shaped entry.label (entry.children.filterMap (treeAt graph.entries))
  hash : proto.hash = Expressions.hash (exprOf graph entry)
  depth : proto.depth = (exprOf graph entry).height

theorem leaf_of_shaped {entries : List (Entry Label)} {children : List Nat} (live : ∀ child ∈ children, Live entries child)
    (shaped : Shaped label (children.filterMap (treeAt entries))) (atom : label.atom = true) : children = [] := by
  have empty : children.filterMap (treeAt entries) = [] := by
    cases label <;> first
      | exact shaped
      | exact shaped.1
      | cases atom
  cases children with
  | nil => rfl
  | cons child rest =>
    obtain ⟨tree, held⟩ := (live child List.mem_cons_self).exists_tree
    rw [List.filterMap_cons_some held] at empty
    cases empty

theorem WellFormed.live (wellFormed : WellFormed graph) (held : entryAt graph.entries ref = some entry) :
    ∀ child ∈ entry.children, Live graph.entries child := by
  intro child inside
  obtain ⟨positive, below⟩ := wellFormed.backward ref entry held child inside
  have last := (live_iff_entryAt.mpr ⟨entry, held⟩).2
  exact ⟨positive, by omega⟩

theorem WellFormed.leaf (wellFormed : WellFormed graph) (held : entryAt graph.entries ref = some entry) :
    entry.label.atom = true → entry.children = [] :=
  leaf_of_shaped (wellFormed.live held) (wellFormed.shaped ref entry held)

theorem LaidNodes.nodeAt_entry (laid : LaidNodes pools graph) (held : entryAt graph.entries ref = some entry) :
    ∃ node, nodeAt pools ref = some node ∧ Reads pools graph.names entry node ∧
      ∀ expr, treeAt graph.entries ref = some expr → node.hash = hash expr ∧ node.depth = expr.height := by
  have positive := (live_iff_entryAt.mpr ⟨entry, held⟩).1
  rw [entryAt, if_neg positive] at held
  obtain ⟨node, stored, encodes⟩ := laid.node (ref - 1) entry held
  have inside := (List.getElem?_eq_some_iff.mp held).1
  have place : (graph.entries.take (ref - 1)).length + 1 = ref := by
    rw [List.length_take]
    omega
  refine ⟨node, ?_, laid.reads held encodes, ?_⟩
  · rw [nodeAt, if_neg positive, ← stored, Nat.sub_add_cancel (Nat.pos_of_ne_zero positive)]
  · rw [← place]
    exact encodes.tree

theorem LaidNodes.entryAt_node (laid : LaidNodes pools graph) (held : nodeAt pools ref = some node) :
    ∃ entry, entryAt graph.entries ref = some entry ∧ Reads pools graph.names entry node ∧
      ∀ expr, treeAt graph.entries ref = some expr → node.hash = hash expr ∧ node.depth = expr.height := by
  have positive : ref ≠ 0 := by
    rintro rfl
    cases held
  have stored := held
  rw [nodeAt, if_neg positive] at stored
  have inside := (List.getElem?_eq_some_iff.mp stored).1
  rw [laid.count] at inside
  obtain ⟨entry, found⟩ := live_iff_entryAt.mp (⟨positive, by omega⟩ : Live graph.entries ref)
  obtain ⟨node', held', rest⟩ := laid.nodeAt_entry found
  obtain rfl := Option.some.inj (held.symm.trans held')
  exact ⟨entry, found, rest⟩

theorem findNode_some (sound : Sound pools graph) {proto : Node} (proposes : Proposes graph entry proto)
    (found : findNode pools proto (extraOf entry) = some ref) : entryAt graph.entries ref = some entry := by
  obtain ⟨positive, below, _, hit⟩ := sound.nodes.chained.walk_some (bucketOf_lt _ sound.nodes.buckets) found
  have held : pools.nodes[ref]? = some pools.nodes[ref] := List.getElem?_eq_getElem below
  have listed : nodeAt pools ref = some pools.nodes[ref] := by rw [nodeAt, if_neg positive, held]
  obtain ⟨entry', stored, reads, _⟩ := sound.nodes.entryAt_node listed
  rw [held] at hit
  simp only [Bool.and_eq_true, decide_eq_true_eq] at hit
  have same := (samePayload_iff sound.symbols.distinct reads proposes.toHeads (sound.wellFormed.leaf stored)
    (leaf_of_shaped proposes.live proposes.shaped)).mp hit.2
  rw [stored, same]

theorem findNode_none (sound : Sound pools graph) {proto : Node} (proposes : Proposes graph entry proto)
    (missed : findNode pools proto (extraOf entry) = none) : entry ∉ graph.entries := by
  intro inside
  obtain ⟨i, found⟩ := List.mem_iff_getElem?.mp inside
  have stored : entryAt graph.entries (i + 1) = some entry := found
  obtain ⟨node, listed, reads, described⟩ := sound.nodes.nodeAt_entry stored
  have hash : node.hash = proto.hash := by
    rw [(described _ (treeAt_of_entryAt sound.wellFormed.backward stored)).1, proposes.hash]
    rfl
  have held : pools.nodes[i + 1]? = some node := listed
  have slot : slotAt (nodeBucket pools.nodeBuckets.length) pools.nodes (i + 1) =
      bucketOf proto.hash pools.nodeBuckets.length := by
    simp [slotAt, held, nodeBucket, hash]
  have miss := sound.nodes.chained.walk_none (bucketOf_lt _ sound.nodes.buckets) missed (Nat.succ_ne_zero i)
    (List.getElem?_eq_some_iff.mp held).1 slot
  have hit := (samePayload_iff sound.symbols.distinct reads proposes.toHeads (sound.wellFormed.leaf stored)
    (leaf_of_shaped proposes.live proposes.shaped)).mpr rfl
  rw [held] at miss
  simp [hash, hit] at miss

/-- The record of a promoted number whose text starts at `offset`. -/
def bigExactAt (offset : Nat) (bigExact : BigExactProto) : BigExact :=
  ⟨offset, bigExact.numerator.length, offset + bigExact.numerator.length, bigExact.denominator.length⟩

def withPayload (pools : Pools) (entry : Entry Label) : Pools :=
  { pools with
    children := pools.children ++ entry.children
    rationals := pools.rationals ++ (ratOf entry.label).toList
    bigExacts := pools.bigExacts ++ ((promotedOf entry.label).map (bigExactAt pools.exactText.length)).toList
    exactText := pools.exactText ++ textOf entry.label }

def settled (pools : Pools) (entry : Entry Label) (payload : Payload) : Payload :=
  if promotedOf entry.label ≠ none then .rationalIndex pools.bigExacts.length
  else if ratOf entry.label ≠ none then .rationalIndex pools.rationals.length
  else if entry.children ≠ [] then .childOffset pools.children.length
  else payload

def publishedNode (pools : Pools) (entry : Entry Label) (proto : Node) : Node :=
  { proto with
    payload := settled pools entry proto.payload
    internNext := pools.nodeBuckets.getD (bucketOf proto.hash pools.nodeBuckets.length) 0 }

def withNode (pools : Pools) (entry : Entry Label) (node : Node) : Pools :=
  { withPayload pools entry with
    nodes := pools.nodes ++ [node]
    nodeBuckets := pools.nodeBuckets.set (bucketOf node.hash pools.nodeBuckets.length) pools.nodes.length }

theorem promotedOf_eq_none_of_ratOf {rat : Rat64} (held : ratOf label = some rat) : promotedOf label = none := by
  obtain ⟨q, rfl, inline, _⟩ := ratOf_eq_some held
  exact if_pos inline

theorem settled_of_promoted {payload : Payload} {bigExact : BigExactProto} (promoted : promotedOf entry.label = some bigExact) :
    settled pools entry payload = .rationalIndex pools.bigExacts.length := by
  unfold settled
  rw [if_pos (by simp [promoted])]

theorem settled_of_rat {payload : Payload} {rat : Rat64} (held : ratOf entry.label = some rat) :
    settled pools entry payload = .rationalIndex pools.rationals.length := by
  unfold settled
  rw [if_neg (by simp [promotedOf_eq_none_of_ratOf held]), if_pos (by simp [held])]

theorem settled_of_children {payload : Payload} (leaf : entry.label.atom = true → entry.children = [])
    (some : entry.children ≠ []) : settled pools entry payload = .childOffset pools.children.length := by
  have compound : entry.label.atom = false := by
    cases atom : entry.label.atom with
    | false => rfl
    | true => exact absurd (leaf atom) some
  have promoted : promotedOf entry.label = none := by
    cases found : promotedOf entry.label with
    | none => rfl
    | some bigExact =>
      obtain ⟨q, label, _⟩ := promotedOf_eq_some found
      rw [label] at compound
      cases compound
  have rat : ratOf entry.label = none := by
    cases found : ratOf entry.label with
    | none => rfl
    | some rat =>
      obtain ⟨q, label, _⟩ := ratOf_eq_some found
      rw [label] at compound
      cases compound
  unfold settled
  rw [if_neg (by simp [promoted]), if_neg (by simp [rat]), if_pos some]

theorem settled_inline {payload : Payload} (leaf : entry.label.atom = true → entry.children = [])
    (held : InlinePayload names entry.label payload) : InlinePayload names entry.label (settled pools entry payload) := by
  unfold settled
  split
  · rename_i promoted
    obtain ⟨bigExact, found⟩ := Option.ne_none_iff_exists'.mp promoted
    obtain ⟨q, label, big, _⟩ := promotedOf_eq_some found
    rw [label]
    exact fun inline => absurd inline big
  split
  · rename_i _ rat
    obtain ⟨rat, found⟩ := Option.ne_none_iff_exists'.mp rat
    obtain ⟨q, label, _, fraction, _⟩ := ratOf_eq_some found
    rw [label]
    exact fun _ integral => absurd integral fraction
  split
  · rename_i _ _ some
    have compound : entry.label.atom ≠ true := fun atom => some (leaf atom)
    cases label : entry.label <;> rw [label] at compound <;> first
      | exact absurd rfl compound
      | trivial
  · exact held

theorem Proposes.leaf {proto : Node} (proposes : Proposes graph entry proto) :
    entry.label.atom = true → entry.children = [] := leaf_of_shaped proposes.live proposes.shaped

theorem WellFormed.append {proto : Node} (wellFormed : WellFormed graph) (proposes : Proposes graph entry proto)
    (fresh : entry ∉ graph.entries) : WellFormed ⟨names, graph.entries ++ [entry]⟩ where
  distinct := by
    rw [List.nodup_append']
    exact ⟨wellFormed.distinct, List.nodup_singleton entry, List.disjoint_singleton.mpr fresh⟩
  backward := wellFormed.backward.append proposes.live
  shaped := by
    intro ref other held
    by_cases old : Live graph.entries ref
    · rw [entryAt_append old] at held
      rw [filterMap_congr_treeAt (wellFormed.live held)]
      exact wellFormed.shaped ref other held
    · have live := live_iff_entryAt.mpr ⟨other, held⟩
      have top : ref = graph.entries.length + 1 := by
        have bound := live.2
        rw [List.length_append, List.length_singleton] at bound
        by_contra apart
        exact old ⟨live.1, by omega⟩
      subst top
      rw [entryAt_last] at held
      obtain rfl := Option.some.inj held
      rw [filterMap_congr_treeAt proposes.live]
      exact proposes.shaped

theorem treeAt_last (wellFormed : WellFormed graph) (live : ∀ child ∈ entry.children, Live graph.entries child) :
    treeAt (graph.entries ++ [entry]) (graph.entries.length + 1) = some (exprOf graph entry) := by
  rw [treeAt_of_entryAt (wellFormed.backward.append live) entryAt_last, filterMap_congr_treeAt live]
  rfl

theorem Encodes.last {pools' : Pools} {proto : Node} (sound : Sound pools graph)
    (proposes : Proposes graph entry proto) (same : pools'.bigExacts = (withPayload pools entry).bigExacts) :
    Encodes pools' ⟨graph.names, graph.entries ++ [entry]⟩ graph.entries entry
      (publishedNode pools entry proto) where
  kind := proposes.kind
  aux := proposes.aux
  childCount := proposes.childCount
  head := proposes.head
  payload := settled_inline proposes.leaf proposes.payload
  offset := by
    intro some
    change (settled pools entry proto.payload).word = _
    rw [settled_of_children proposes.leaf some]
    exact congrArg List.length sound.nodes.children
  rat := by
    intro some
    obtain ⟨rat, held⟩ := Option.ne_none_iff_exists'.mp some
    change (settled pools entry proto.payload).word = _
    rw [settled_of_rat held]
    exact congrArg List.length sound.nodes.rationals
  promoted := by
    intro bigExact promoted
    change (settled pools entry proto.payload).word = _ ∧ _
    rw [same]
    change (settled pools entry proto.payload).word = _ ∧ (pools.bigExacts ++ _)[_]? = _
    rw [settled_of_promoted promoted, ← sound.nodes.bigExacts, promoted, List.getElem?_append_right (Nat.le_refl _),
      Nat.sub_self]
    refine ⟨rfl, ?_⟩
    have texts : pools.exactText.length = textMark graph.entries := congrArg List.length sound.nodes.exactText
    rw [← texts]
    rfl
  tree := by
    intro expr held
    rw [treeAt_last sound.wellFormed proposes.live] at held
    obtain rfl := Option.some.inj held
    exact ⟨proposes.hash, proposes.depth⟩

theorem length_toList_map {α β : Type} (found : Option α) (f : α → β) :
    (found.map f).toList.length = found.toList.length := by
  cases found <;> rfl

theorem LaidNodes.withNode {proto : Node} (sound : Sound pools graph) (proposes : Proposes graph entry proto) :
    LaidNodes (withNode pools entry (publishedNode pools entry proto)) ⟨graph.names, graph.entries ++ [entry]⟩ where
  children := by
    change pools.children ++ entry.children = _
    rw [List.flatMap_append, List.flatMap_singleton, sound.nodes.children]
  rationals := by
    change pools.rationals ++ (ratOf entry.label).toList = _
    rw [List.filterMap_append, sound.nodes.rationals]
    cases held : ratOf entry.label <;> simp [held]
  exactText := by
    change pools.exactText ++ textOf entry.label = _
    rw [List.flatMap_append, List.flatMap_singleton, sound.nodes.exactText]
  bigExacts := by
    change (pools.bigExacts ++ _).length = (List.filterMap _ (graph.entries ++ [entry])).length
    rw [List.filterMap_append, List.length_append, List.length_append, sound.nodes.bigExacts, length_toList_map]
    cases held : promotedOf entry.label <;> simp [held, bigMark]
  count := by
    change (pools.nodes ++ [_]).length = _
    rw [List.length_append, List.length_append, sound.nodes.count, List.length_singleton, List.length_singleton]
  node := by
    intro i other found
    change ∃ node, (pools.nodes ++ [_])[i + 1]? = some node ∧ _
    change (graph.entries ++ [entry])[i]? = some other at found
    by_cases old : i < graph.entries.length
    · rw [List.getElem?_append_left old] at found
      obtain ⟨node, held, encodes⟩ := sound.nodes.node i other found
      refine ⟨node, ?_, ?_⟩
      · rw [List.getElem?_append_left (by rw [sound.nodes.count]; omega), held]
      · rw [List.take_append_of_le_length (Nat.le_of_lt old)]
        have grows : Grows graph ⟨graph.names, graph.entries ++ [entry]⟩ := ⟨List.prefix_refl _, List.prefix_append _ _⟩
        have inside : (graph.entries.take i).length < graph.entries.length := by
          rw [List.length_take]
          omega
        exact encodes.mono grows (List.prefix_append _ _) inside
    · have last : i = graph.entries.length := by
        have below := (List.getElem?_eq_some_iff.mp found).1
        rw [List.length_append, List.length_singleton] at below
        omega
      subst last
      rw [List.getElem?_append_right (Nat.le_refl _), Nat.sub_self] at found
      obtain rfl : entry = other := by simpa using found
      refine ⟨publishedNode pools entry proto, ?_, ?_⟩
      · rw [← sound.nodes.count, List.getElem?_append_right (Nat.le_refl _), Nat.sub_self]
        rfl
      · rw [List.take_left]
        exact Encodes.last sound proposes rfl
  buckets := by
    change 0 < (pools.nodeBuckets.set _ _).length
    rw [List.length_set]
    exact sound.nodes.buckets
  chained := by
    change Chained (slotAt (nodeBucket (pools.nodeBuckets.set _ _).length) (pools.nodes ++ [_]))
      (nextAt Node.internNext (pools.nodes ++ [_])) (pools.nodeBuckets.set _ _) (pools.nodes ++ [_]).length
    rw [List.length_set, List.length_append, List.length_singleton]
    refine sound.nodes.chained.insert (by rw [sound.nodes.count]; omega) (fun i below => slotAt_append_left below)
      (fun i below => nextAt_append_left below) ?_ ?_
    · simp [slotAt, nodeBucket]
    · simp [nextAt, publishedNode]

theorem Sound.withNode {proto : Node} (sound : Sound pools graph) (proposes : Proposes graph entry proto)
    (fresh : entry ∉ graph.entries) :
    Sound (Layout.withNode pools entry (publishedNode pools entry proto)) ⟨graph.names, graph.entries ++ [entry]⟩ where
  symbols := sound.symbols.of_spelling rfl rfl sound.symbols.buckets sound.symbols.chained
  nodes := LaidNodes.withNode sound proposes
  symmetries := sound.symmetries.of_heads rfl rfl
  wellFormed := sound.wellFormed.append proposes fresh

theorem Encodes.relink {pools' : Pools} {before : List (Entry Label)} {node' : Node}
    (same : linkNode 0 node' = linkNode 0 node) (bigExacts : pools'.bigExacts = pools.bigExacts)
    (encodes : Encodes pools graph before entry node) : Encodes pools' graph before entry node' := by
  have linked : node' = linkNode node'.internNext node := by
    cases node
    cases node'
    simp only [linkNode, Node.mk.injEq] at same ⊢
    simp [same]
  rw [linked]
  exact
    { kind := encodes.kind
      aux := encodes.aux
      childCount := encodes.childCount
      head := encodes.head
      payload := encodes.payload
      offset := encodes.offset
      rat := encodes.rat
      promoted := by
        rw [bigExacts]
        exact encodes.promoted
      tree := encodes.tree }

def withNodeTable (pools : Pools) (size : Nat) : Pools :=
  let filed := rehash (nodeBucket size) linkNode size pools.nodes
  { pools with nodes := filed.1, nodeBuckets := filed.2 }

theorem Sound.withNodeTable (sound : Sound pools graph) {size : Nat} (positive : 0 < size) :
    Sound (Layout.withNodeTable pools size) graph where
  symbols := sound.symbols.of_spelling rfl rfl sound.symbols.buckets sound.symbols.chained
  nodes := by
    have same : (Layout.withNodeTable pools size).nodes.map (linkNode 0) = pools.nodes.map (linkNode 0) := by
      have keeps : ∀ link node, linkNode 0 (linkNode link node) = linkNode 0 node := fun _ _ => rfl
      exact rehash_eq_map keeps _ _
    have count : (Layout.withNodeTable pools size).nodes.length = pools.nodes.length := length_rehash _ _
    have table : (Layout.withNodeTable pools size).nodeBuckets.length = size := length_rehash_table _ _
    refine
      { children := sound.nodes.children
        rationals := sound.nodes.rationals
        exactText := sound.nodes.exactText
        bigExacts := sound.nodes.bigExacts
        count := count.trans sound.nodes.count
        node := ?_
        buckets := table.symm ▸ positive
        chained := ?_ }
    · intro i other found
      obtain ⟨node, held, encodes⟩ := sound.nodes.node i other found
      have read : ((Layout.withNodeTable pools size).nodes.map (linkNode 0))[i + 1]? = some (linkNode 0 node) := by
        rw [same, List.getElem?_map, held, Option.map_some]
      rw [List.getElem?_map, Option.map_eq_some_iff] at read
      obtain ⟨node', held', alike⟩ := read
      have bigExacts : (Layout.withNodeTable pools size).bigExacts = pools.bigExacts := rfl
      exact ⟨node', held', encodes.relink alike bigExacts⟩
    · rw [table, count]
      have files : ∀ link node, Node.internNext (linkNode link node) = link := fun _ _ => rfl
      have some : pools.nodes ≠ [] := by
        intro empty
        have count := sound.nodes.count
        rw [empty, List.length_nil] at count
        omega
      refine rehash_chained ?_ files size some
      exact fun _ _ => rfl
  symmetries := sound.symmetries.of_heads rfl rfl
  wellFormed := sound.wellFormed

end

end PhyNspire.Ir.Layout

namespace PhyNspire.Ir.NodeTable
open Lib Lib.Stateful Lib.Chains Lib.Trees Expressions Context Symbols Nodes Layout

variable {s : IrContext} {graph : Graph} {entry : Entry Label} {proto : Node}

theorem nodeRehash_spec (sound : Sound s.pools graph) :
    wp nodeRehash (fun _ t => Sound t.pools graph ∧ t.limits = s.limits) (fun _ _ => False) s := by
  unfold nodeRehash bucketsInit setCapacity changePools
  simp only [wp_bind, wp_get]
  apply wp_ite
  · intro _
    exact ⟨sound, rfl⟩
  intro _
  simp only [wp_bind, wp_attempt, wp_pure, wp_modify]
  refine wp_mono (poolReserve_spec _ _ _) (fun _ t kept => ?_) (fun _ t kept => ?_)
  · refine ⟨?_, kept.limits⟩
    have doubled : 0 < s.pools.nodeBuckets.length * 2 := Nat.mul_pos sound.nodes.buckets (by decide)
    change Sound (withNodeTable t.pools _) graph
    rw [kept.pools]
    exact sound.withNodeTable doubled
  · exact ⟨kept.pools ▸ sound, kept.limits⟩

theorem rewind_withPayload (pools : Pools) (entry : Entry Label) {context : IrContext}
    (same : context.pools = withPayload pools entry) : (rewind pools context).pools = pools := by
  unfold rewind
  rw [same]
  simp [withPayload]

theorem appendBigExact_spec (bigExact : BigExactProto) :
    wp (appendBigExact bigExact)
      (fun index t => index = s.pools.bigExacts.length ∧ t.limits = s.limits ∧ t.pools = { s.pools with
        exactText := s.pools.exactText ++ (bigExact.numerator ++ bigExact.denominator)
        bigExacts := s.pools.bigExacts ++ [bigExactAt s.pools.exactText.length bigExact] })
      (fun _ t => Kept s t) s := by
  unfold appendBigExact pushBigExact changePools
  simp only [wp_bind, wp_get]
  apply wp_ite
  · intro _
    exact .refl s
  intro _
  simp only [wp_bind, wp_abandoning, wp_modify, wp_pure, wp_get]
  refine wp_mono (reserve_spec _ _) (fun _ t kept => ?_) (fun _ t kept => kept)
  refine wp_mono (reserve_spec _ _) (fun _ u kept' => ?_) (fun _ u kept' => ?_)
  · refine ⟨by rw [kept.pools], kept'.limits.trans kept.limits, ?_⟩
    simp only [kept'.pools, kept.pools]
    rfl
  · refine ⟨?_, kept'.limits.trans kept.limits⟩
    simp [rewind, kept'.pools, kept.pools]

theorem appendPayload_spec (proposes : Proposes graph entry proto) :
    wp (appendPayload proto (extraOf entry))
      (fun node t => t.pools = withPayload s.pools entry ∧ t.limits = s.limits ∧
        node = { proto with payload := settled s.pools entry proto.payload })
      (fun _ t => Kept s t) s := by
  unfold appendPayload extraOf
  dsimp only
  cases promoted : promotedOf entry.label with
  | some bigExact =>
    obtain ⟨q, label, _, _⟩ := promotedOf_eq_some promoted
    have leaf := proposes.leaf (by rw [label]; rfl)
    have rat : ratOf entry.label = none := by
      cases held : ratOf entry.label with
      | none => rfl
      | some rat =>
        rw [promotedOf_eq_none_of_ratOf held] at promoted
        cases promoted
    simp only [wp_bind, wp_pure]
    refine wp_good (appendBigExact_spec bigExact) fun index t held => ?_
    obtain ⟨rfl, limits, pools⟩ := held
    refine ⟨?_, limits, by rw [settled_of_promoted promoted]⟩
    rw [pools]
    simp [withPayload, leaf, rat, promoted, textOf]
  | none =>
    have text : textOf entry.label = [] := by rw [textOf, promoted]
    cases rat : ratOf entry.label with
    | some rat =>
      obtain ⟨q, label, _⟩ := ratOf_eq_some rat
      have leaf := proposes.leaf (by rw [label]; rfl)
      unfold pushRational changePools
      simp only [wp_bind, wp_pure, wp_get, wp_modify]
      refine wp_good (reserve_spec _ _) fun _ t kept => ?_
      refine ⟨?_, kept.limits, by rw [settled_of_rat rat]⟩
      simp [withPayload, kept.pools, leaf, rat, promoted, text]
    | none =>
      dsimp only
      apply wp_ite
      · intro some
        have children : entry.children ≠ [] := by
          rw [proposes.childCount, Ne, List.length_eq_zero_iff] at some
          exact some
        unfold appendChildren changePools
        simp only [wp_bind, wp_pure, wp_get, wp_modify]
        refine wp_good (reserve_spec _ _) fun _ t kept => ?_
        refine ⟨?_, kept.limits, by rw [settled_of_children proposes.leaf children]⟩
        simp [withPayload, kept.pools, rat, promoted, text]
      · intro empty
        have children : entry.children = [] := by
          rw [proposes.childCount, not_not, List.length_eq_zero_iff] at empty
          exact empty
        refine ⟨?_, rfl, ?_⟩
        · simp [withPayload, children, rat, promoted, text]
        · simp [settled, children, rat, promoted]

theorem publishNode_spec (sound : Sound s.pools graph) (proposes : Proposes graph entry proto)
    (fresh : entry ∉ graph.entries) :
    wp (publishNode proto (extraOf entry))
      (fun ref t => Published s t graph ⟨graph.names, graph.entries ++ [entry]⟩ ∧ ref = graph.entries.length + 1)
      (fun _ t => Kept s t) s := by
  unfold publishNode pushNode changePools
  simp only [wp_bind, wp_get]
  refine wp_good (appendPayload_spec proposes) fun node t held => ?_
  obtain ⟨pools, limits, rfl⟩ := held
  simp only [wp_abandoning, wp_bind, wp_get]
  refine wp_mono (reserve_spec _ _) (fun _ u kept => ?_) (fun _ u kept => ?_)
  · simp only [wp_modify, wp_pure]
    have grown := sound.withNode proposes fresh
    refine wp_mono (nodeRehash_spec ((?_ : _ = withNode s.pools entry (publishedNode s.pools entry proto)) ▸ grown))
      (fun _ v held => ?_) (fun _ _ impossible => impossible.elim)
    · refine ⟨⟨⟨List.prefix_refl _, List.prefix_append _ _⟩, held.1, ?_⟩, ?_⟩
      · rw [held.2]
        exact kept.limits.trans limits
      · rw [pools]
        exact sound.nodes.count
    · simp only [kept.pools, pools]
      rfl
  · exact ⟨rewind_withPayload _ _ (kept.pools.trans pools), kept.limits.trans limits⟩

theorem internNode_spec (sound : Sound s.pools graph) (proposes : Proposes graph entry proto) :
    wp (internNode proto (extraOf entry)) (fun ref t => ∃ graph', Published s t graph graph' ∧
      graph'.names = graph.names ∧ entryAt graph'.entries ref = some entry) (fun _ t => Kept s t) s := by
  unfold internNode
  simp only [wp_bind, wp_get]
  split
  · rename_i ref found
    exact ⟨graph, .of_kept sound (.refl s), rfl, findNode_some sound proposes found⟩
  rename_i missed
  apply wp_ite
  · intro _
    exact wp_refuse _ (fun _ kept => kept)
  intro _
  refine wp_good (publishNode_spec sound proposes (findNode_none sound proposes missed)) fun ref t held => ?_
  obtain ⟨published, rfl⟩ := held
  exact ⟨_, published, rfl, entryAt_last⟩

end PhyNspire.Ir.NodeTable

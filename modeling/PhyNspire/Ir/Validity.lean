import PhyNspire.Ir.Denotation

/-!
`phy_ir_validate`: ownership of every pool element and reachability of every record,
checked by counting.
-/

namespace PhyNspire.Ir.Validation
open Platform Lib Lib.Chains Expressions Context Symbols Nodes

/-- Symbols own their name bytes, one NUL-terminated run each. -/
def claimStrings (pools : Pools) : List SymbolRecord → Nat → Option Nat
  | [], claimed => some claimed
  | record :: rest, claimed =>
      if pools.strings.length < record.nameOffset + record.nameLength + 1 then none
      else claimStrings pools rest (claimed + record.nameLength + 1)

/-- What the nodes so far claim of the payload pools. -/
structure Claims where
  children : Nat
  rationals : Nat
  bigExacts : Nat
  exactText : Nat
deriving DecidableEq, Repr

def claimNumber (pools : Pools) (node : Node) (claims : Claims) : Option Claims :=
  if (node.kind = .integer ∨ node.kind = .rational) ∧ node.aux = exactBig then
    if node.payload.word ≠ claims.bigExacts then none
    else
      match pools.bigExacts[node.payload.word]? with
      | none => none
      | some exact =>
          if exact.numeratorLength = 0 ∨ exact.numeratorOffset ≠ claims.exactText ∨
              decide (node.kind = .integer) ≠ decide (exact.denominatorLength = 0) then none
          else if exact.denominatorOffset ≠ claims.exactText + exact.numeratorLength then none
          else if pools.exactText.length < claims.exactText + exact.numeratorLength + exact.denominatorLength then none
          else some
            { claims with
              bigExacts := claims.bigExacts + 1
              exactText := claims.exactText + exact.numeratorLength + exact.denominatorLength }
  else if node.kind = .rational then
    if pools.rationals.length ≤ node.payload.word then none
    else some { claims with rationals := claims.rationals + 1 }
  else some claims

def claimChildren (pools : Pools) (index : Nat) (node : Node) (claims : Claims) : Option Claims :=
  if node.kind = .index ∧ node.payload.word ≠ 0 ∧ symbolAt pools node.payload.word = none then none
  else if node.childCount = 0 then some claims
  else if pools.children.length < node.payload.word + node.childCount then none
  else if (childrenOf pools node).any (fun child => decide (child = 0) || decide (index ≤ child)) then none
  else some { claims with children := claims.children + node.childCount }

def claimNodes (pools : Pools) : Nat → List Node → Claims → Option Claims
  | _, [], claims => some claims
  | index, node :: rest, claims => do
      let claims ← claimNumber pools node claims
      let claims ← claimChildren pools index node claims
      claimNodes pools (index + 1) rest claims

def reachableNodes (pools : Pools) : Option Nat :=
  countTable (nextAt Node.internNext pools.nodes)
    (fun bucket ref => decide (slotAt (nodeBucket pools.nodeBuckets.length) pools.nodes ref = bucket))
    pools.nodes.length 0 pools.nodeBuckets

def reachableSymbols (pools : Pools) : Option Nat :=
  countTable (nextAt SymbolRecord.internNext pools.symbols)
    (fun bucket symbol => decide (slotAt (symbolBucket pools.symbolBuckets.length) pools.symbols symbol = bucket))
    pools.symbols.length 0 pools.symbolBuckets

def ownedSymmetries (pools : Pools) : Option Nat :=
  countTable (nextAt SymmetryRecord.next pools.symmetries) (fun _ _ => true) pools.symmetries.length 0
    (pools.symbols.tail.map SymbolRecord.symmetryHead)

def irValidate (pools : Pools) : Status :=
  if claimStrings pools pools.symbols.tail 0 ≠ some pools.strings.length then .corruptDocument
  else if claimNodes pools 1 pools.nodes.tail ⟨0, 0, 0, 0⟩ ≠
      some ⟨pools.children.length, pools.rationals.length, pools.bigExacts.length, pools.exactText.length⟩ then
    .corruptDocument
  else if reachableNodes pools ≠ some (pools.nodes.length - 1) then .corruptDocument
  else if reachableSymbols pools ≠ some (pools.symbols.length - 1) then .corruptDocument
  else if ownedSymmetries pools ≠ some (pools.symmetries.length - 1) then .corruptDocument
  else .ok

end PhyNspire.Ir.Validation

/-!
`phy_ir_validate` accepts every sound layout: what it counts as claimed is what the entries own.
-/

namespace PhyNspire.Ir.Validity
open Platform Lib Lib.Chains Lib.Trees Lib.Decimal Expressions Context Symbols Nodes Validation Layout
open Construction Ordering

variable {pools : Pools} {names : List Name} {graph : Graph} {entry : Entry Label} {node : Node}

theorem claimStrings_spec (laid : LaidSymbols pools names) (done rest : List Name) (cut : names = done ++ rest) :
    claimStrings pools (pools.symbols.drop (done.length + 1)) (done.flatMap (· ++ [0])).length =
      some pools.strings.length := by
  induction rest generalizing done with
  | nil =>
    rw [List.append_nil] at cut
    rw [List.drop_eq_nil_of_le (by rw [laid.count, cut]), claimStrings, laid.strings, cut]
  | cons name rest ih =>
    have found : names[done.length]? = some name := by rw [cut, List.getElem?_append_right (Nat.le_refl _)]; simp
    obtain ⟨record, held, offset, length, _⟩ := laid.record _ _ found
    have front : names.take done.length = done := by rw [cut, List.take_left]
    rw [front] at offset
    obtain ⟨inside, value⟩ := List.getElem?_eq_some_iff.mp held
    rw [List.drop_eq_getElem_cons inside, value, claimStrings]
    have owned : (done.flatMap (· ++ [0])).length + name.length + 1 ≤ pools.strings.length := by
      rw [laid.strings, cut]
      simp only [List.flatMap_append, List.flatMap_cons, List.length_append, List.length_singleton]
      omega
    rw [if_neg (by rw [offset, length]; omega)]
    have next := ih (done ++ [name]) (by rw [cut]; simp)
    rw [List.length_append, List.length_singleton, List.flatMap_append, List.flatMap_singleton, List.length_append,
      List.length_append, List.length_singleton] at next
    rw [length, Nat.add_assoc]
    exact next

def claimed (entries : List (Entry Label)) : Claims :=
  ⟨childMark entries, ratMark entries, bigMark entries, textMark entries⟩

theorem childMark_concat (done : List (Entry Label)) (entry : Entry Label) :
    childMark (done ++ [entry]) = childMark done + entry.children.length := by
  simp [childMark]

theorem textMark_concat (done : List (Entry Label)) (entry : Entry Label) :
    textMark (done ++ [entry]) = textMark done + (textOf entry.label).length := by
  simp [textMark]

theorem ratMark_concat (done : List (Entry Label)) (entry : Entry Label) :
    ratMark (done ++ [entry]) = ratMark done + if ratOf entry.label = none then 0 else 1 := by
  unfold ratMark
  rw [List.filterMap_append, List.length_append]
  cases held : ratOf entry.label <;> simp [held]

theorem bigMark_concat (done : List (Entry Label)) (entry : Entry Label) :
    bigMark (done ++ [entry]) = bigMark done + if promotedOf entry.label = none then 0 else 1 := by
  unfold bigMark
  rw [List.filterMap_append, List.length_append]
  cases held : promotedOf entry.label <;> simp [held]

theorem claimNumber_spec (laid : LaidNodes pools graph) {done rest : List (Entry Label)}
    (cut : graph.entries = done ++ entry :: rest) (encodes : Encodes pools graph done entry node) :
    claimNumber pools node (claimed done) =
      some { claimed (done ++ [entry]) with children := childMark done } := by
  obtain ⟨label, children⟩ := entry
  have kind : node.kind = label.kind := encodes.kind
  have aux : node.aux = nodeAux label := encodes.aux
  have grown : claimed (done ++ [⟨label, children⟩]) = ⟨childMark done + children.length,
      ratMark done + (if ratOf label = none then 0 else 1), bigMark done + (if promotedOf label = none then 0 else 1),
      textMark done + (textOf label).length⟩ := by
    rw [claimed, childMark_concat, ratMark_concat, bigMark_concat, textMark_concat]
  rw [grown]
  by_cases number : ∃ q, label = .exact q
  · obtain ⟨q, rfl⟩ := number
    have exactKind : node.kind = .integer ∨ node.kind = .rational := by
      rw [kind, kind_exact]
      split
      · exact .inl rfl
      · exact .inr rfl
    have auxiliary : node.aux = exactBig ↔ ¬Inline q := by
      rw [aux, nodeAux_exact]
      by_cases inline : Inline q <;> simp [inline, exactBig]
    unfold claimNumber
    by_cases inline : Inline q
    · have small : promotedOf (.exact q) = none := if_pos inline
      rw [if_neg (fun both => (auxiliary.mp both.2) inline)]
      have text : textOf (.exact q) = [] := by rw [textOf, small]
      by_cases integral : q.den = 1
      · have unpaired : ratOf (.exact q) = none := if_neg (fun both => both.2 integral)
        rw [if_neg (by rw [kind, kind_exact, if_pos integral]; decide), unpaired, small, text]
        rfl
      · have paired : ratOf (.exact q) ≠ none := by
          rw [ratOf, if_pos ⟨inline, integral⟩]
          exact Option.some_ne_none _
        have inside : ratMark done < pools.rationals.length := by
          rw [laid.rationals, cut]
          change _ < ratMark (done ++ _ :: rest)
          rw [show done ++ (⟨.exact q, children⟩ : Entry Label) :: rest = (done ++ [⟨.exact q, children⟩]) ++ rest by simp]
          unfold ratMark
          rw [List.filterMap_append, List.length_append]
          change _ < ratMark (done ++ [⟨.exact q, children⟩]) + _
          rw [ratMark_concat, if_neg paired]
          change ratMark done < _
          omega
        rw [if_pos (by rw [kind, kind_exact, if_neg integral]), encodes.rat paired, if_neg (Nat.not_le.mpr inside),
          if_neg paired, small, text]
        rfl
    · have big := promotedOf_exact inline
      obtain ⟨word, held⟩ := encodes.promoted _ big
      have unpaired : ratOf (.exact q) = none := if_neg (fun both => inline both.1)
      have text : textOf (.exact q) = integerText q.num ++ if q.den = 1 then [] else integerText q.den := by
        rw [textOf, big]
      have total : textMark done + (textOf (.exact q)).length ≤ pools.exactText.length := by
        rw [laid.exactText, cut]
        change _ ≤ textMark (done ++ _ :: rest)
        rw [show done ++ (⟨.exact q, children⟩ : Entry Label) :: rest = (done ++ [⟨.exact q, children⟩]) ++ rest by simp]
        unfold textMark
        rw [List.flatMap_append, List.length_append]
        change _ ≤ textMark (done ++ [⟨.exact q, children⟩]) + _
        rw [textMark_concat]
        exact Nat.le_add_right _ _
      rw [text, List.length_append] at total
      rw [if_pos ⟨exactKind, auxiliary.mpr inline⟩, word, if_neg (fun apart => apart rfl), held]
      have integral : decide (node.kind = .integer) =
          decide ((if q.den = 1 then [] else integerText q.den).length = 0) := by
        rw [kind, kind_exact]
        by_cases one : q.den = 1
        · simp [one]
        · simp [one, integerText_ne_nil]
      dsimp only
      rw [if_neg (by
        rintro (empty | apart | mixed)
        · exact integerText_length_pos q.num empty
        · exact apart rfl
        · exact mixed integral)]
      rw [if_neg (fun apart => apart rfl), if_neg (by dsimp only [claimed]; omega), unpaired, big, text, List.length_append]
      simp only [claimed, if_true, Nat.add_zero, reduceCtorEq, if_false, Nat.add_assoc]
  · have other (q : ℚ) : label ≠ .exact q := fun same => number ⟨q, same⟩
    have kinds : ¬(node.kind = .integer ∨ node.kind = .rational) := by
      rw [kind]
      exact fun numeric => number (exact_of_kind numeric)
    have small : promotedOf label = none := by
      unfold promotedOf
      split
      · exact absurd rfl (other _)
      · rfl
    have unpaired : ratOf label = none := by
      unfold ratOf
      split
      · exact absurd rfl (other _)
      · rfl
    have text : textOf label = [] := by rw [textOf, small]
    unfold claimNumber
    rw [if_neg (fun both => kinds both.1), if_neg (fun rational => kinds (.inr rational)), unpaired, small, text]
    rfl

theorem claimChildren_spec (sound : Sound pools graph) {done rest : List (Entry Label)}
    (cut : graph.entries = done ++ entry :: rest) (encodes : Encodes pools graph done entry node)
    (reads : Reads pools graph.names entry node) (claims : Claims) (mark : claims.children = childMark done) :
    claimChildren pools (done.length + 1) node claims =
      some { claims with children := childMark (done ++ [entry]) } := by
  unfold claimChildren
  have spaced : ¬(node.kind = .index ∧ node.payload.word ≠ 0 ∧ symbolAt pools node.payload.word = none) := by
    rintro ⟨index, named, missing⟩
    rw [encodes.kind] at index
    obtain ⟨name, variance, space, label⟩ := index_of_kind index
    have heads := reads.toHeads
    rw [label] at heads
    have titled := titled_space heads
    cases space with
    | none => exact named titled
    | some space =>
      obtain ⟨record, held, _⟩ := sound.symbols.symbolAt_of_named titled
      rw [held] at missing
      cases missing
  rw [if_neg spaced, childMark_concat, encodes.childCount]
  by_cases leaf : entry.children = []
  · rw [if_pos (by rw [leaf]; rfl), leaf, List.length_nil, Nat.add_zero, ← mark]
  · rw [if_neg (fun empty => leaf (List.length_eq_zero_iff.mp empty)), encodes.offset leaf, reads.children]
    have total : childMark done + entry.children.length ≤ pools.children.length := by
      rw [sound.nodes.children, cut]
      simp only [childMark, List.flatMap_append, List.flatMap_cons, List.length_append]
      omega
    rw [if_neg (Nat.not_lt.mpr total)]
    have stored : entryAt graph.entries (done.length + 1) = some entry := by
      rw [entryAt, if_neg (Nat.succ_ne_zero _), Nat.add_sub_cancel, cut, List.getElem?_append_right (Nat.le_refl _)]
      simp
    have backward := sound.wellFormed.backward _ _ stored
    have clear : ¬((entry.children.any fun child => decide (child = 0) || decide (done.length + 1 ≤ child)) = true) := by
      rw [List.any_eq_true]
      rintro ⟨child, inside, bad⟩
      obtain ⟨positive, before⟩ := backward child inside
      rw [Bool.or_eq_true, decide_eq_true_eq, decide_eq_true_eq] at bad
      omega
    rw [if_neg clear, mark]

theorem claimNodes_spec (sound : Sound pools graph) (done rest : List (Entry Label)) (cut : graph.entries = done ++ rest) :
    claimNodes pools (done.length + 1) (pools.nodes.drop (done.length + 1)) (claimed done) =
      some (claimed graph.entries) := by
  induction rest generalizing done with
  | nil =>
    rw [List.append_nil] at cut
    rw [List.drop_eq_nil_of_le (by rw [sound.nodes.count, cut]), claimNodes, cut]
  | cons entry rest ih =>
    have found : graph.entries[done.length]? = some entry := by
      rw [cut, List.getElem?_append_right (Nat.le_refl _)]
      simp
    obtain ⟨node, held, encodes⟩ := sound.nodes.node _ _ found
    have reads := sound.nodes.reads found encodes
    have front : graph.entries.take done.length = done := by rw [cut, List.take_left]
    rw [front] at encodes
    obtain ⟨inside, value⟩ := List.getElem?_eq_some_iff.mp held
    rw [List.drop_eq_getElem_cons inside, value, claimNodes, claimNumber_spec sound.nodes cut encodes]
    simp only [Option.bind_eq_bind, Option.bind_some]
    rw [claimChildren_spec sound cut encodes reads _ rfl]
    have next := ih (done ++ [entry]) (by rw [cut]; simp)
    rw [List.length_append, List.length_singleton] at next
    exact next

theorem countTable_const (next : Nat → Nat) (count first first' : Nat) (table : List Nat) :
    countTable next (fun _ _ => true) count first table = countTable next (fun _ _ => true) count first' table := by
  induction table generalizing first first' with
  | nil => rfl
  | cons head rest ih => rw [countTable, countTable, ih (first + 1) (first' + 1)]

theorem reachableNodes_spec (laid : LaidNodes pools graph) : reachableNodes pools = some (pools.nodes.length - 1) := by
  refine laid.chained.countTable_eq (fun ref _ _ => decide_eq_true rfl) (fun ref _ below => ?_)
  rw [slotAt, List.getElem?_eq_getElem below]
  exact bucketOf_lt _ laid.buckets

theorem reachableSymbols_spec (laid : LaidSymbols pools names) : reachableSymbols pools = some (pools.symbols.length - 1) := by
  refine laid.chained.countTable_eq (fun symbol _ _ => decide_eq_true rfl) (fun symbol _ below => ?_)
  rw [slotAt, List.getElem?_eq_getElem below]
  exact bucketOf_lt _ laid.buckets

theorem ownedSymmetries_spec (symbols : LaidSymbols pools names) (laid : LaidSymmetries pools) :
    ownedSymmetries pools = some (pools.symmetries.length - 1) := by
  obtain ⟨owner, chained, owners⟩ := laid.owned
  have all : countTable (nextAt SymmetryRecord.next pools.symmetries) (fun _ _ => true) pools.symmetries.length 0
      (pools.symbols.map SymbolRecord.symmetryHead) = some (pools.symmetries.length - 1) :=
    chained.countTable_eq (fun _ _ _ => rfl) (fun i positive below => by
      rw [List.length_map]
      exact (owners i positive below).2)
  unfold ownedSymmetries
  cases held : pools.symbols with
  | nil =>
    have count := symbols.count
    rw [held] at count
    cases count
  | cons sentinel rest =>
    have unowned : members owner 0 pools.symmetries.length = [] := by
      rw [List.eq_nil_iff_forall_not_mem]
      intro i member
      obtain ⟨positive, below, same⟩ := mem_members.mp member
      exact (owners i positive below).1 same
    have first := chained 0 (by rw [List.length_map, held]; exact Nat.succ_pos _)
    rw [unowned, held] at first
    have empty : sentinel.symmetryHead = 0 := first
    rw [held, List.map_cons, countTable, empty] at all
    have start : countChain (nextAt SymmetryRecord.next pools.symmetries) (fun _ => true) pools.symmetries.length
        (pools.symmetries.length + 1) 0 0 = some 0 := by
      rw [countChain, if_pos rfl]
    rw [start] at all
    rw [List.tail_cons, countTable_const _ _ 0 1]
    cases counted : countTable (nextAt SymmetryRecord.next pools.symmetries) (fun _ _ => true) pools.symmetries.length 1
      (rest.map SymbolRecord.symmetryHead) with
    | none =>
      rw [counted] at all
      cases all
    | some total =>
      rw [counted] at all
      simpa using all

theorem irValidate_of_sound (sound : Sound pools graph) : irValidate pools = .ok := by
  have strings := claimStrings_spec sound.symbols [] graph.names rfl
  have nodes := claimNodes_spec sound [] graph.entries rfl
  have counts : claimed graph.entries =
      ⟨pools.children.length, pools.rationals.length, pools.bigExacts.length, pools.exactText.length⟩ := by
    rw [sound.nodes.children, sound.nodes.rationals, sound.nodes.bigExacts, sound.nodes.exactText]
    rfl
  rw [counts] at nodes
  rw [List.length_nil, Nat.zero_add, List.drop_one] at strings nodes
  have owned := ownedSymmetries_spec sound.symbols sound.symmetries
  unfold irValidate
  rw [if_neg (fun apart => apart strings), if_neg (fun apart => apart nodes),
    if_neg (fun apart => apart (reachableNodes_spec sound.nodes)),
    if_neg (fun apart => apart (reachableSymbols_spec sound.symbols)), if_neg (fun apart => apart owned)]

end PhyNspire.Ir.Validity

import PhyNspire.Ir.Layout

/-!
Interning of names keeps the layout of the pools. A name is looked up in one bucket and
published at most once; a failed call leaves every pool as it was.
-/

namespace PhyNspire.Ir.Layout
open Lib Lib.Chains Lib.Trees Expressions Context Symbols Nodes

section

variable {pools pools' : Pools} {names names' : List Name} {graph graph' : Graph} {symbol : Nat} {name : Name}
  {record : SymbolRecord}

theorem Named.mono (grown : names <+: names') (named : Named names symbol name) : Named names' symbol name := by
  obtain ⟨added, rfl⟩ := grown
  refine ⟨named.1, ?_⟩
  rw [List.getElem?_append_left (List.getElem?_eq_some_iff.mp named.2).1]
  exact named.2

theorem Named.unique (named : Named names symbol name) {name' : Name} (named' : Named names symbol name') :
    name = name' := Option.some.inj (named.2.symm.trans named'.2)

theorem Named.symbol_eq (distinct : names.Nodup) {symbol' : Nat} (named : Named names symbol name)
    (named' : Named names symbol' name) : symbol = symbol' := by
  have inside := (List.getElem?_eq_some_iff.mp named.2).1
  have position := (List.getElem?_inj inside distinct).mp (named.2.trans named'.2.symm)
  have first := named.1
  have second := named'.1
  omega

theorem slice_of_append {α : Type} {items front back : List α} {offset : Nat}
    (held : slice items offset (front ++ back).length = front ++ back) : slice items offset front.length = front := by
  unfold slice at *
  have cut := congrArg (List.take front.length) held
  rw [List.take_take, List.take_left, List.length_append, Nat.min_eq_left (Nat.le_add_right _ _)] at cut
  exact cut

theorem LaidSymbols.named (laid : LaidSymbols pools names) (named : Named names symbol name) :
    ∃ record, pools.symbols[symbol]? = some record ∧ nameOf pools record = name ∧
      record.nameLength = name.length ∧ record.nameHash = hashName name := by
  obtain ⟨positive, found⟩ := named
  obtain ⟨record, held, offset, length, hash⟩ := laid.record (symbol - 1) name found
  rw [Nat.sub_add_cancel (Nat.pos_of_ne_zero positive)] at held
  refine ⟨record, held, ?_, length, hash⟩
  unfold nameOf
  rw [offset, length, laid.strings]
  exact slice_of_append (slice_flatMap found (· ++ [0]))

theorem LaidSymbols.symbolAt_named (laid : LaidSymbols pools names) (held : symbolAt pools symbol = some record) :
    ∃ name, Named names symbol name ∧ nameOf pools record = name ∧ record.nameLength = name.length ∧
      record.nameHash = hashName name := by
  unfold symbolAt at held
  split at held
  · cases held
  rename_i positive
  have inside := (List.getElem?_eq_some_iff.mp held).1
  rw [laid.count] at inside
  obtain ⟨name, found⟩ : ∃ name, names[symbol - 1]? = some name := by
    exact ⟨_, List.getElem?_eq_getElem (by omega)⟩
  obtain ⟨record', held', spelled, length, hash⟩ := laid.named ⟨positive, found⟩
  obtain rfl := Option.some.inj (held.symm.trans held')
  exact ⟨name, ⟨positive, found⟩, spelled, length, hash⟩

theorem LaidSymbols.symbolAt_of_named (laid : LaidSymbols pools names) (named : Named names symbol name) :
    ∃ record, symbolAt pools symbol = some record ∧ nameOf pools record = name ∧
      record.nameLength = name.length ∧ record.nameHash = hashName name := by
  obtain ⟨record, held, rest⟩ := laid.named named
  exact ⟨record, by rw [symbolAt, if_neg named.1, held], rest⟩

theorem LaidSymbols.slotAt_named (laid : LaidSymbols pools names) (named : Named names symbol name) (size : Nat) :
    slotAt (symbolBucket size) pools.symbols symbol = bucketOf (hashName name) size := by
  obtain ⟨record, held, _, _, hash⟩ := laid.named named
  simp [slotAt, held, symbolBucket, hash]

theorem LaidSymbols.findSymbol_some (laid : LaidSymbols pools names) (found : findSymbol pools name = some symbol) :
    Named names symbol name := by
  obtain ⟨positive, below, _, hit⟩ := laid.chained.walk_some (bucketOf_lt _ laid.buckets) found
  have held : pools.symbols[symbol]? = some pools.symbols[symbol] := List.getElem?_eq_getElem below
  have listed : symbolAt pools symbol = some pools.symbols[symbol] := by rw [symbolAt, if_neg positive, held]
  obtain ⟨name', named, spelled, _⟩ := laid.symbolAt_named listed
  rw [held] at hit
  simp only [Bool.and_eq_true, decide_eq_true_eq] at hit
  rwa [← hit.2, spelled]

theorem LaidSymbols.findSymbol_none (laid : LaidSymbols pools names) (missed : findSymbol pools name = none) :
    name ∉ names := by
  intro inside
  obtain ⟨i, found⟩ := List.mem_iff_getElem?.mp inside
  have named : Named names (i + 1) name := ⟨Nat.succ_ne_zero i, found⟩
  obtain ⟨record, held, spelled, length, hash⟩ := laid.named named
  have below := (List.getElem?_eq_some_iff.mp held).1
  have miss := laid.chained.walk_none (bucketOf_lt _ laid.buckets) missed (Nat.succ_ne_zero i) below
    (laid.slotAt_named named _)
  rw [held] at miss
  simp [hash, length, spelled] at miss

theorem InlinePayload.mono {label : Label} {payload : Payload} (grown : names <+: names')
    (held : InlinePayload names label payload) : InlinePayload names' label payload := by
  unfold InlinePayload at *
  split at held
  · exact held
  · exact held
  · exact held
  · obtain ⟨symbol, payload, named⟩ := held
    exact ⟨symbol, payload, named.mono grown⟩
  · trivial

theorem Heads.mono {label : Label} {children : List Nat} {node : Node} (grown : names <+: names')
    (heads : Heads names label children node) : Heads names' label children node where
  kind := heads.kind
  aux := heads.aux
  childCount := heads.childCount
  head := by
    have head := heads.head
    split at head
    · exact head
    · exact head.mono grown
  payload := heads.payload.mono grown

theorem Encodes.mono {before : List (Entry Label)} {entry : Entry Label} {node : Node}
    (grows : Grows graph graph') (bigExacts : pools.bigExacts <+: pools'.bigExacts)
    (inside : before.length < graph.entries.length) (encodes : Encodes pools graph before entry node) :
    Encodes pools' graph' before entry node where
  toHeads := encodes.toHeads.mono grows.names
  offset := encodes.offset
  rat := encodes.rat
  promoted := by
    intro bigExact promoted
    obtain ⟨word, held⟩ := encodes.promoted bigExact promoted
    obtain ⟨added, grown⟩ := bigExacts
    refine ⟨word, ?_⟩
    rw [← grown, List.getElem?_append_left (List.getElem?_eq_some_iff.mp held).1]
    exact held
  tree := by
    intro expr
    obtain ⟨added, grown⟩ := grows.entries
    rw [← grown, treeAt_append ⟨Nat.succ_ne_zero _, inside⟩]
    exact encodes.tree expr

def nodePools (pools : Pools) : Pools :=
  { pools with symbols := [], strings := [], symmetries := [], symbolBuckets := [] }

theorem LaidNodes.of_nodePools (laid : LaidNodes pools graph) (grown : graph.names <+: names)
    (same : nodePools pools' = nodePools pools) : LaidNodes pools' ⟨names, graph.entries⟩ := by
  have bigExacts : pools'.bigExacts = pools.bigExacts := (congrArg Pools.bigExacts same :)
  have nodes : pools'.nodes = pools.nodes := (congrArg Pools.nodes same :)
  have buckets : pools'.nodeBuckets = pools.nodeBuckets := (congrArg Pools.nodeBuckets same :)
  refine
    { children := (congrArg Pools.children same).trans laid.children
      rationals := (congrArg Pools.rationals same).trans laid.rationals
      exactText := (congrArg Pools.exactText same).trans laid.exactText
      bigExacts := (congrArg List.length bigExacts).trans laid.bigExacts
      count := (congrArg List.length nodes).trans laid.count
      node := ?_
      buckets := ?_
      chained := ?_ }
  · intro i entry (found : graph.entries[i]? = some entry)
    obtain ⟨node, held, encodes⟩ := laid.node i entry found
    have inside : (graph.entries.take i).length < graph.entries.length := by
      have below := (List.getElem?_eq_some_iff.mp found).1
      rw [List.length_take]
      omega
    exact ⟨node, nodes ▸ held, encodes.mono ⟨grown, List.prefix_refl _⟩ (bigExacts ▸ List.prefix_refl _) inside⟩
  · exact buckets ▸ laid.buckets
  · rw [buckets, nodes]
    exact laid.chained

def spelling (record : SymbolRecord) : Nat × Nat × UInt32 := (record.nameOffset, record.nameLength, record.nameHash)

theorem LaidSymbols.of_spelling (laid : LaidSymbols pools names)
    (same : pools'.symbols.map spelling = pools.symbols.map spelling) (strings : pools'.strings = pools.strings)
    (buckets : 0 < pools'.symbolBuckets.length)
    (chained : Chained (slotAt (symbolBucket pools'.symbolBuckets.length) pools'.symbols)
      (nextAt SymbolRecord.internNext pools'.symbols) pools'.symbolBuckets pools'.symbols.length) :
    LaidSymbols pools' names where
  distinct := laid.distinct
  spelled := laid.spelled
  strings := strings.trans laid.strings
  count := by simpa only [List.length_map] using (congrArg List.length same).trans (by rw [List.length_map, laid.count])
  record := by
    intro i name found
    obtain ⟨record, held, offset, length, hash⟩ := laid.record i name found
    have read : (pools'.symbols.map spelling)[i + 1]? = some (spelling record) := by
      rw [same, List.getElem?_map, held, Option.map_some]
    rw [List.getElem?_map, Option.map_eq_some_iff] at read
    obtain ⟨record', held', alike⟩ := read
    simp only [spelling, Prod.mk.injEq] at alike
    exact ⟨record', held', alike.1.trans offset, alike.2.1.trans length, alike.2.2.trans hash⟩
  buckets := buckets
  chained := chained

theorem LaidSymbols.of_modify (laid : LaidSymbols pools names) {change : SymbolRecord → SymbolRecord}
    (same : pools'.symbols = pools.symbols.modify symbol change) (strings : pools'.strings = pools.strings)
    (buckets : pools'.symbolBuckets = pools.symbolBuckets)
    (keeps : ∀ record, spelling (change record) = spelling record)
    (links : ∀ record, (change record).internNext = record.internNext) : LaidSymbols pools' names := by
  have hashes (size : Nat) (record : SymbolRecord) : symbolBucket size (change record) = symbolBucket size record := by
    have alike : (change record).nameHash = record.nameHash := congrArg (fun part => part.2.2) (keeps record)
    rw [symbolBucket, symbolBucket, alike]
  refine laid.of_spelling (by rw [same, map_modify_eq keeps]) strings (by rw [buckets]; exact laid.buckets) ?_
  rw [same, buckets, slotAt_congr (map_modify_eq (hashes _) _ _), nextAt_congr (map_modify_eq links _ _),
    List.length_modify]
  exact laid.chained

def withSymbol (pools : Pools) (name : Name) (record : SymbolRecord) : Pools :=
  { pools with
    strings := pools.strings ++ (name ++ [0])
    symbols := pools.symbols ++ [record]
    symbolBuckets :=
      pools.symbolBuckets.set (bucketOf record.nameHash pools.symbolBuckets.length) pools.symbols.length }

theorem LaidSymbols.withSymbol (laid : LaidSymbols pools names) (spelled : name ≠ []) (fresh : name ∉ names)
    (same : spelling record = (pools.strings.length, name.length, hashName name))
    (link : record.internNext = pools.symbolBuckets.getD (bucketOf record.nameHash pools.symbolBuckets.length) 0) :
    LaidSymbols (withSymbol pools name record) (names ++ [name]) where
  distinct := by
    rw [List.nodup_append']
    exact ⟨laid.distinct, List.nodup_singleton name, List.disjoint_singleton.mpr fresh⟩
  spelled := by
    intro other inside
    rcases List.mem_append.mp inside with old | new
    · exact laid.spelled other old
    · exact List.mem_singleton.mp new ▸ spelled
  strings := by
    change pools.strings ++ (name ++ [0]) = _
    rw [laid.strings, List.flatMap_append, List.flatMap_singleton]
  count := by
    change (pools.symbols ++ [record]).length = _
    rw [List.length_append, List.length_append, laid.count, List.length_singleton, List.length_singleton]
  record := by
    intro i other found
    simp only [spelling, Prod.mk.injEq] at same
    change ∃ record', (pools.symbols ++ [record])[i + 1]? = some record' ∧ _
    by_cases old : i < names.length
    · rw [List.getElem?_append_left old] at found
      rw [List.getElem?_append_left (by rw [laid.count]; omega), List.take_append_of_le_length (Nat.le_of_lt old)]
      exact laid.record i other found
    · have last : i = names.length := by
        have below := (List.getElem?_eq_some_iff.mp found).1
        rw [List.length_append, List.length_singleton] at below
        omega
      subst last
      rw [List.getElem?_append_right (Nat.le_refl _), Nat.sub_self] at found
      obtain rfl : name = other := by simpa using found
      refine ⟨record, ?_, ?_, same.2.1, same.2.2⟩
      · rw [← laid.count, List.getElem?_append_right (Nat.le_refl _), Nat.sub_self]
        rfl
      · rw [List.take_left, ← laid.strings]
        exact same.1
  buckets := by
    change 0 < (pools.symbolBuckets.set _ _).length
    rw [List.length_set]
    exact laid.buckets
  chained := by
    change Chained (slotAt (symbolBucket (pools.symbolBuckets.set _ _).length) (pools.symbols ++ [record]))
      (nextAt SymbolRecord.internNext (pools.symbols ++ [record])) (pools.symbolBuckets.set _ _) (pools.symbols ++ [record]).length
    rw [List.length_set, List.length_append, List.length_singleton]
    refine laid.chained.insert (by rw [laid.count]; omega) (fun i below => slotAt_append_left below)
      (fun i below => nextAt_append_left below) ?_ ?_
    · simp [slotAt, symbolBucket]
    · simp [nextAt, link]

theorem LaidSymmetries.withSymbol (laid : LaidSymmetries pools) (empty : record.symmetryHead = 0) :
    LaidSymmetries (withSymbol pools name record) where
  sentinel := laid.sentinel
  owned := by
    obtain ⟨owner, chained, inside⟩ := laid.owned
    change ∃ owner : Nat → Nat, Chained owner (nextAt SymmetryRecord.next pools.symmetries)
      ((pools.symbols ++ [record]).map SymbolRecord.symmetryHead) pools.symmetries.length ∧ ∀ i, i ≠ 0 →
      i < pools.symmetries.length → owner i ≠ 0 ∧ owner i < (pools.symbols ++ [record]).length
    refine ⟨owner, ?_, ?_⟩
    · intro slot below
      rw [List.map_append, List.getD_eq_getElem?_getD]
      by_cases old : slot < pools.symbols.length
      · rw [List.getElem?_append_left (by rwa [List.length_map]), ← List.getD_eq_getElem?_getD]
        exact chained slot (by rwa [List.length_map])
      · have none : members owner slot pools.symmetries.length = [] := by
          refine List.eq_nil_iff_forall_not_mem.mpr (fun i member => ?_)
          obtain ⟨positive, inRange, same⟩ := mem_members.mp member
          exact old (same ▸ (inside i positive inRange).2)
        have last : slot = pools.symbols.length := by
          rw [List.length_map, List.length_append, List.length_singleton] at below
          omega
        subst last
        rw [none, List.getElem?_append_right (by rw [List.length_map])]
        simp [Linked, empty]
    · intro i positive below
      obtain ⟨named, old⟩ := inside i positive below
      exact ⟨named, by rw [List.length_append]; omega⟩

theorem LaidSymmetries.of_heads (laid : LaidSymmetries pools)
    (same : pools'.symbols.map SymbolRecord.symmetryHead = pools.symbols.map SymbolRecord.symmetryHead)
    (symmetries : pools'.symmetries = pools.symmetries) : LaidSymmetries pools' where
  sentinel := symmetries ▸ laid.sentinel
  owned := by
    obtain ⟨owner, chained, inside⟩ := laid.owned
    refine ⟨owner, ?_, ?_⟩
    · rw [same, symmetries]
      exact chained
    · have length := congrArg List.length same
      rw [List.length_map, List.length_map] at length
      rw [length, symmetries]
      exact inside

theorem Sound.of_symbols (sound : Sound pools graph) (rest : nodePools pools' = nodePools pools)
    (same : pools'.symbols.map spelling = pools.symbols.map spelling)
    (heads : pools'.symbols.map SymbolRecord.symmetryHead = pools.symbols.map SymbolRecord.symmetryHead)
    (strings : pools'.strings = pools.strings) (symmetries : pools'.symmetries = pools.symmetries)
    (buckets : 0 < pools'.symbolBuckets.length)
    (chained : Chained (slotAt (symbolBucket pools'.symbolBuckets.length) pools'.symbols)
      (nextAt SymbolRecord.internNext pools'.symbols) pools'.symbolBuckets pools'.symbols.length) :
    Sound pools' graph where
  symbols := sound.symbols.of_spelling same strings buckets chained
  nodes := sound.nodes.of_nodePools (List.prefix_refl _) rest
  symmetries := sound.symmetries.of_heads heads symmetries
  wellFormed := sound.wellFormed

theorem symbols_ne_nil (sound : Sound pools graph) : pools.symbols ≠ [] := by
  intro empty
  have count := sound.symbols.count
  rw [empty, List.length_nil] at count
  omega

theorem symmetries_ne_nil (sound : Sound pools graph) : pools.symmetries.length ≠ 0 := by
  rw [Ne, List.length_eq_zero_iff]
  exact sound.symmetries.sentinel

theorem Sound.withAssumptions (sound : Sound pools graph) (symbol : Nat) (assumptions : UInt32) :
    Sound { pools with symbols := pools.symbols.modify symbol fun record => { record with assumptions := assumptions } }
      graph where
  symbols := sound.symbols.of_modify rfl rfl rfl (fun _ => rfl) (fun _ => rfl)
  nodes := sound.nodes.of_nodePools (List.prefix_refl _) rfl
  symmetries := by
    have heads (record : SymbolRecord) :
        SymbolRecord.symmetryHead { record with assumptions := assumptions } = record.symmetryHead := rfl
    exact sound.symmetries.of_heads (map_modify_eq heads _ _) rfl
  wellFormed := sound.wellFormed

def withSymmetry (pools : Pools) (symbol : Nat) (record : SymmetryRecord) : Pools :=
  { pools with
    symmetries := pools.symmetries ++ [record]
    symbols := pools.symbols.modify symbol fun owner => { owner with symmetryHead := pools.symmetries.length } }

theorem map_symmetryHead_modify (symbols : List SymbolRecord) (symbol index : Nat) :
    (symbols.modify symbol fun owner => { owner with symmetryHead := index }).map SymbolRecord.symmetryHead =
      (symbols.map SymbolRecord.symmetryHead).set symbol index := by
  induction symbols generalizing symbol with
  | nil => cases symbol <;> rfl
  | cons record rest ih =>
    cases symbol with
    | zero => rfl
    | succ symbol => rw [List.modify_succ_cons, List.map_cons, List.map_cons, List.set_cons_succ, ih]

theorem Sound.withSymmetry (sound : Sound pools graph) {owner : SymbolRecord} {entry : SymmetryRecord}
    (held : symbolAt pools symbol = some owner) (link : entry.next = owner.symmetryHead) :
    Sound (Layout.withSymmetry pools symbol entry) graph where
  symbols := sound.symbols.of_modify rfl rfl rfl (fun _ => rfl) (fun _ => rfl)
  nodes := sound.nodes.of_nodePools (List.prefix_refl _) rfl
  symmetries := by
    obtain ⟨home, chained, inside⟩ := sound.symmetries.owned
    have positive : symbol ≠ 0 := by
      rintro rfl
      cases held
    rw [symbolAt, if_neg positive] at held
    have below := (List.getElem?_eq_some_iff.mp held).1
    refine ⟨by simp [Layout.withSymmetry], Function.update home pools.symmetries.length symbol, ?_, ?_⟩
    · change Chained _ (nextAt SymmetryRecord.next (pools.symmetries ++ [entry])) ((pools.symbols.modify _ _).map _)
        (pools.symmetries ++ [entry]).length
      rw [map_symmetryHead_modify, List.length_append, List.length_singleton]
      refine chained.insert (symmetries_ne_nil sound) (fun i old => ?_) (fun i old => nextAt_append_left old) ?_ ?_
      · exact Function.update_of_ne (Nat.ne_of_lt old) _ _
      · exact Function.update_self _ _ _
      · simp [nextAt, link, List.getD_eq_getElem?_getD, held]
    · intro i nonzero old
      change i < (pools.symmetries ++ [entry]).length at old
      change _ ∧ _ < (pools.symbols.modify _ _).length
      rw [List.length_append, List.length_singleton] at old
      rw [List.length_modify]
      by_cases last : i = pools.symmetries.length
      · rw [last, Function.update_self]
        exact ⟨positive, below⟩
      · rw [Function.update_of_ne last]
        exact inside i nonzero (by omega)
  wellFormed := sound.wellFormed

def withSymbolTable (pools : Pools) (size : Nat) : Pools :=
  let filed := rehash (symbolBucket size) linkSymbol size pools.symbols
  { pools with symbols := filed.1, symbolBuckets := filed.2 }

theorem Sound.withSymbolTable (sound : Sound pools graph) {size : Nat} (positive : 0 < size) :
    Sound (Layout.withSymbolTable pools size) graph := by
  have keeps {β : Type} (content : SymbolRecord → β)
      (same : ∀ link record, content (linkSymbol link record) = content record) :
      (Layout.withSymbolTable pools size).symbols.map content = pools.symbols.map content := rehash_eq_map same _ _
  refine sound.of_symbols rfl (keeps spelling (fun _ _ => rfl)) (keeps SymbolRecord.symmetryHead (fun _ _ => rfl)) rfl rfl ?_ ?_
  · change 0 < (rehash _ _ _ _).2.length
    rwa [length_rehash_table]
  · change Chained (slotAt (symbolBucket (rehash _ _ _ _).2.length) (rehash _ _ _ _).1) (nextAt SymbolRecord.internNext (rehash _ _ _ _).1)
      (rehash _ _ _ _).2 (rehash _ _ _ _).1.length
    rw [length_rehash_table, length_rehash]
    have files : ∀ link record, SymbolRecord.internNext (linkSymbol link record) = link := fun _ _ => rfl
    refine rehash_chained ?_ files size (symbols_ne_nil sound)
    exact fun _ _ => rfl

theorem Sound.withSymbol (sound : Sound pools graph) (spelled : name ≠ []) (fresh : name ∉ graph.names)
    (same : spelling record = (pools.strings.length, name.length, hashName name)) (empty : record.symmetryHead = 0)
    (link : record.internNext = pools.symbolBuckets.getD (bucketOf record.nameHash pools.symbolBuckets.length) 0) :
    Sound (Layout.withSymbol pools name record) ⟨graph.names ++ [name], graph.entries⟩ where
  symbols := sound.symbols.withSymbol spelled fresh same link
  nodes := sound.nodes.of_nodePools (List.prefix_append _ _) rfl
  symmetries := sound.symmetries.withSymbol empty
  wellFormed := ⟨sound.wellFormed.distinct, sound.wellFormed.backward, sound.wellFormed.shaped⟩

structure Published (s t : IrContext) (graph graph' : Graph) : Prop where
  grows : Grows graph graph'
  sound : Sound t.pools graph'
  limits : t.limits = s.limits

theorem Published.of_kept {s t : IrContext} (sound : Sound s.pools graph) (kept : Kept s t) : Published s t graph graph :=
  ⟨⟨List.prefix_refl _, List.prefix_refl _⟩, kept.pools ▸ sound, kept.limits⟩

end

end PhyNspire.Ir.Layout

namespace PhyNspire.Ir.SymbolTable
open Lib Lib.Stateful Lib.Chains Lib.Trees Expressions Context Symbols Nodes Layout

section

variable {s : IrContext} {graph : Graph} {name : Name}

theorem symbolRehash_spec (sound : Sound s.pools graph) :
    wp symbolRehash (fun _ t => Sound t.pools graph ∧ t.limits = s.limits) (fun _ _ => False) s := by
  unfold symbolRehash bucketsInit setCapacity changePools
  simp only [wp_bind, wp_get]
  apply wp_ite
  · intro _
    exact ⟨sound, rfl⟩
  intro _
  simp only [wp_bind, wp_attempt, wp_pure, wp_modify]
  refine wp_mono (poolReserve_spec _ _ _) (fun _ t kept => ?_) (fun _ t kept => ?_)
  · refine ⟨?_, kept.limits⟩
    have doubled : 0 < s.pools.symbolBuckets.length * 2 := Nat.mul_pos sound.symbols.buckets (by decide)
    change Sound (withSymbolTable t.pools _) graph
    rw [kept.pools]
    exact sound.withSymbolTable doubled
  · exact ⟨kept.pools ▸ sound, kept.limits⟩

theorem publishSymbol_spec (sound : Sound s.pools graph) (spelled : name ≠ []) (fresh : name ∉ graph.names) :
    wp (publishSymbol name) (fun symbol t => Published s t graph ⟨graph.names ++ [name], graph.entries⟩ ∧
      Named (graph.names ++ [name]) symbol name) (fun _ t => Kept s t) s := by
  unfold publishSymbol pushSymbol changePools
  simp only [wp_bind, wp_get]
  refine wp_mono (reserve_spec _ _) (fun _ t kept => ?_) (fun _ t kept => kept)
  simp only [wp_modify, wp_abandoning, wp_bind, wp_get]
  refine wp_mono (reserve_spec _ _) (fun _ u kept' => ?_) (fun _ u kept' => ?_)
  · simp only [wp_pure]
    let bucket := bucketOf (hashName name) s.pools.symbolBuckets.length
    let record : SymbolRecord :=
      ⟨s.pools.strings.length, name.length, hashName name, 0, 0, s.pools.symbolBuckets.getD bucket 0⟩
    have grown : Sound (withSymbol s.pools name record) ⟨graph.names ++ [name], graph.entries⟩ :=
      sound.withSymbol spelled fresh rfl rfl rfl
    have index : t.pools.symbols.length = graph.names.length + 1 := by rw [kept.pools, sound.symbols.count]
    refine wp_mono (symbolRehash_spec ((?_ : _ = withSymbol s.pools name record) ▸ grown)) (fun _ v held => ?_)
      (fun _ _ impossible => impossible.elim)
    · refine ⟨⟨⟨List.prefix_append _ _, List.prefix_refl _⟩, held.1, ?_⟩, ?_, ?_⟩
      · rw [held.2]
        exact kept'.limits.trans kept.limits
      · rw [index]
        exact Nat.succ_ne_zero _
      · rw [index, Nat.add_sub_cancel, List.getElem?_append_right (Nat.le_refl _), Nat.sub_self]
        rfl
    · simp only [kept'.pools, kept.pools]
      rfl
  · refine ⟨?_, kept'.limits.trans kept.limits⟩
    simp only [kept'.pools, kept.pools, List.take_left]

theorem irInternN_spec (sound : Sound s.pools graph) (name : Name) :
    wp (irInternN name) (fun symbol t => ∃ graph', Published s t graph graph' ∧ graph'.entries = graph.entries ∧
      Named graph'.names symbol name) (fun _ t => Kept s t) s := by
  unfold irInternN
  apply wp_ite
  · intro _
    exact wp_refuse _ (fun _ kept => kept)
  intro spelled
  simp only [wp_bind, wp_get]
  split
  · rename_i symbol found
    exact ⟨graph, .of_kept sound (.refl s), rfl, sound.symbols.findSymbol_some found⟩
  · rename_i missed
    refine wp_good (publishSymbol_spec sound spelled (sound.symbols.findSymbol_none missed)) fun symbol t held => ?_
    exact ⟨_, held.1, rfl, held.2⟩

theorem irAssume_spec (sound : Sound s.pools graph) (symbol : Nat) (assumptions : UInt32) :
    wp (irAssume symbol assumptions) (fun status t => Sound t.pools graph ∧ t.limits = s.limits ∧
      (status ≠ .ok → Kept s t)) (fun _ _ => False) s := by
  unfold irAssume answer setError changeSymbol changePools
  simp only [wp_bind, wp_get]
  split
  · exact ⟨sound, rfl, fun _ => ⟨rfl, rfl⟩⟩
  · apply wp_ite
    · intro _
      exact ⟨sound, rfl, fun _ => ⟨rfl, rfl⟩⟩
    intro _
    apply wp_ite
    · intro _
      exact ⟨sound, rfl, fun _ => ⟨rfl, rfl⟩⟩
    · intro _
      exact ⟨sound.withAssumptions _ _, rfl, fun failed => absurd rfl failed⟩

/-- `phy_ir_declare_symmetry`: a declaration that is not accepted changes nothing. -/
theorem irDeclareSymmetry_spec (sound : Sound s.pools graph) (symbol slotA slotB symmetry : Nat) :
    wp (irDeclareSymmetry symbol slotA slotB symmetry) (fun status t => Sound t.pools graph ∧ t.limits = s.limits ∧
      (status ≠ .ok → Kept s t)) (fun _ _ => False) s := by
  unfold irDeclareSymmetry answer setError changeSymbol changePools
  simp only [wp_bind, wp_get]
  split
  · exact ⟨sound, rfl, fun _ => ⟨rfl, rfl⟩⟩
  rename_i owner held
  apply wp_ite
  · intro _
    exact ⟨sound, rfl, fun _ => ⟨rfl, rfl⟩⟩
  intro _
  split
  · apply wp_ite
    · intro _
      exact ⟨sound, rfl, fun _ => ⟨rfl, rfl⟩⟩
    · intro _
      exact ⟨sound, rfl, fun _ => ⟨rfl, rfl⟩⟩
  · unfold pushSymmetry changePools
    simp only [wp_bind, wp_attempt, wp_get]
    refine wp_mono (reserve_spec _ _) (fun _ t kept => ?_) (fun _ t kept => ?_)
    · simp only [wp_modify, wp_pure]
      refine ⟨?_, kept.limits, fun failed => absurd rfl failed⟩
      have declared : Sound (withSymmetry s.pools symbol ⟨min slotA slotB, max slotA slotB, owner.symmetryHead, symmetry⟩)
          graph := sound.withSymmetry held rfl
      simp only [kept.pools]
      exact declared
    · exact ⟨kept.pools ▸ sound, kept.limits, fun _ => kept⟩

end

end PhyNspire.Ir.SymbolTable

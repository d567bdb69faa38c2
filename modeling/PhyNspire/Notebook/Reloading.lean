import Mathlib.Algebra.Order.BigOperators.Group.List
import PhyNspire.Notebook.Sessions

/-!
Loading what was saved: on the bytes of a saved notebook the decoder goes from record to record and
makes of each cell what its texts are read as.
-/

namespace PhyNspire.Notebook

open Platform Eval Lib.Words Lib.Stateful

variable {Context Ref Value : Type} {engine : Engine Context Ref Value} {old : Context} {cell : Cell Ref}

variable {σ : Type} {buffer bytes : List UInt8} {offset count : Nat}

theorem wp_fetch_there {good : List UInt8 → σ → Prop} {bad : Stop → σ → Prop} {s : σ}
    (there : (buffer.drop offset).take count = bytes) (length : bytes.length = count) (returns : good bytes s) :
    wp (fetch buffer offset count) good bad s := by
  refine wp_fetch (fun _ => there ▸ returns) (fun none => ?_) fun some outside => ?_
  · subst none
    exact List.length_eq_zero_iff.mp length ▸ returns
  · have short := congrArg List.length there
    rw [List.length_take, List.length_drop, length] at short
    omega

theorem cString_append {text : Text} (spelled : 0 ∉ text) (rest : List UInt8) :
    cString (text ++ rest) = text ++ cString rest :=
  List.takeWhile_append_of_pos fun byte member => decide_eq_true fun zero : byte = 0 => spelled (zero ▸ member)

theorem cString_self {text : Text} (spelled : 0 ∉ text) : cString text = text := by
  have whole := cString_append spelled []
  rwa [List.append_nil, show cString [] = [] from rfl, List.append_nil] at whole

/-- The texts of a cell hold no `NUL`, as the strings of the source do. -/
structure Cell.Spelled (engine : Engine Context Ref Value) (old : Context) (cell : Cell Ref) : Prop where
  primary : 0 ∉ cell.primary
  secondary : 0 ∉ cell.secondary
  tree : ∀ tree, cell.expression = some tree → 0 ∉ engine.write old tree

/-- A cell as its record has it, without its tree. -/
def Cell.stored (cell : Cell Ref) : Cell Ref :=
  { cell with
    expression := none
    poisoned := false
    ownerInput := if cell.kind.isOutput then cell.ownerInput else 0 }

def rereadIn (engine : Engine Context Ref Value) (context : Context) (cell : Cell Ref) (text : Text) :
    Except Status (Cell Ref × Context) :=
  (cell.reread (engine.read context text).1 (engine.read context text).2.1).map fun other =>
    (other, (engine.read context text).2.2)

def reload (engine : Engine Context Ref Value) (old : Context) (loaded : Notebook Context Ref) (cell : Cell Ref) :
    Except Status (Cell Ref × Context) :=
  if cell.kind = .input then
    if cell.secondary = [] then .ok (cell.stored, loaded.context)
    else rereadIn engine loaded.context cell.stored cell.secondary
  else
    match cell.expression with
    | some tree => rereadIn engine loaded.context cell.stored (engine.write old tree)
    | none =>
      if cell.kind = .output ∧ cell.status = .ok ∧ cell.primary = [] then
        let clear := emptySuccessOutputIsClear engine loaded cell.stored
        if clear.1 then .ok (cell.stored, clear.2) else .error .corruptDocument
      else .ok (cell.stored, loaded.context)

theorem wp_readCell {s : Decoding Context Ref} (text : Text) (stored : Cell Ref) :
    wp (readCell engine stored text)
      (fun other t => ∃ context, rereadIn engine s.notebook.context stored text = .ok (other, context) ∧
        t = { s with notebook := { s.notebook with context := context } })
      (fun stop _ => ∃ status, stop = .refused status ∧ rereadIn engine s.notebook.context stored text = .error status)
      s := by
  unfold readCell rereadIn
  simp only [wp_bind, wp_get, wp_set]
  cases stored.reread (engine.read s.notebook.context text).1 (engine.read s.notebook.context text).2.1 with
  | ok other => exact ⟨_, rfl, rfl⟩
  | error status => exact ⟨status, rfl, rfl⟩

theorem wp_parseCellExpression_saved {s : Decoding Context Ref} {rest : List UInt8} (spelled : cell.Spelled engine old)
    (tail : buffer.drop s.cursor = (treeText engine old cell).getD [] ++ rest) :
    wp (parseCellExpression engine buffer cell.stored (treeSize engine old cell))
      (fun other t => ∃ context, reload engine old s.notebook cell = .ok (other, context) ∧
        t = { s with notebook := { s.notebook with context := context } })
      (fun stop _ => ∃ status, stop = .refused status ∧ reload engine old s.notebook cell = .error status) s := by
  have kind : cell.stored.kind = cell.kind := rfl
  have secondary : cell.stored.secondary = cell.secondary := rfl
  unfold parseCellExpression reload
  simp only [wp_bind, wp_get, kind, secondary]
  by_cases isInput : cell.kind = .input
  · rw [if_pos isInput, if_pos isInput]
    by_cases empty : cell.secondary = []
    · rw [if_pos empty, if_pos empty]
      exact ⟨_, rfl, rfl⟩
    · rw [if_neg empty, if_neg empty]
      exact wp_readCell _ _
  rw [if_neg isInput, if_neg isInput]
  cases found : cell.expression with
  | none =>
    have none : treeText engine old cell = none := by rw [treeText, if_neg isInput, found]; rfl
    rw [treeSize, none, if_pos (show ((Option.none : Option Text).map List.length).getD 0 = 0 from rfl)]
    dsimp only
    by_cases blank : cell.kind = .output ∧ cell.status = .ok ∧ cell.primary = []
    · rw [if_pos (show cell.kind = .output ∧ cell.stored.status = .ok ∧ cell.stored.primary = [] from blank), if_pos blank]
      simp only [wp_bind, wp_set]
      by_cases clear : (emptySuccessOutputIsClear engine s.notebook cell.stored).1 = true
      · rw [if_pos clear, if_pos clear]
        exact ⟨_, rfl, rfl⟩
      · rw [if_neg clear, if_neg clear]
        exact ⟨_, rfl, rfl⟩
    · rw [if_neg (show ¬(cell.kind = .output ∧ cell.stored.status = .ok ∧ cell.stored.primary = []) from blank), if_neg blank]
      exact ⟨_, rfl, rfl⟩
  | some tree =>
    have text : treeText engine old cell = some (engine.write old tree ++ [0]) := by
      rw [treeText, if_neg isInput, found]
      rfl
    have size : treeSize engine old cell = (engine.write old tree).length + 1 := by
      rw [treeSize, text]
      exact List.length_append
    rw [text, Option.getD_some, List.append_assoc, List.singleton_append] at tail
    rw [size, if_neg (Nat.succ_ne_zero _)]
    simp only [wp_bind]
    refine @wp_fetch_there _ _ [0] _ _ _ _ _ ?_ rfl ?_
    · rw [show s.cursor + ((engine.write old tree).length + 1) - 1 = s.cursor + (engine.write old tree).length by omega,
        ← List.drop_drop, tail, List.drop_left]
      rfl
    · rw [if_neg (fun other => other rfl)]
      simp only [wp_bind]
      unfold fetchText
      rw [tail, if_pos (List.contains_iff_mem.mpr (List.mem_append_right _ List.mem_cons_self)), wp_pure,
        cString_append (spelled.tree tree found), show cString (0 :: rest) = [] from rfl, List.append_nil]
      exact wp_readCell _ _

/-- The lengths of a record fit into the words of its header. -/
structure Cell.Compact (engine : Engine Context Ref Value) (old : Context) (cell : Cell Ref) : Prop where
  primary : cell.primary.length < textCapacity
  secondary : cell.secondary.length < detailCapacity
  tree : treeSize engine old cell ≤ documentMaxBytes
  owner : cell.kind.isOutput = true → cell.ownerInput < noOwner

theorem statuses_idxOf (status : Status) : statuses[statuses.idxOf status]? = some status ∧ statuses.idxOf status < 256 ^ 2 := by
  cases status <;> decide

theorem cellKinds_idxOf (kind : CellKind) : cellKinds[cellKinds.idxOf kind]? = some kind ∧ cellKinds.idxOf kind < 256 := by
  cases kind <;> decide

structure Reads (record : List UInt8) (cell : Cell Ref) (size : Nat) : Prop where
  kind : cellKinds[field record 0 1]? = some cell.kind
  status : statuses[field record 2 2]? = some cell.status
  stale : field record 1 1 = if cell.stale then 1 else 0
  execution : UInt32.ofNat (field record 4 4) = cell.execution
  owner : (if field record 8 2 = noOwner then 0 else field record 8 2) = cell.stored.ownerInput
  primary : field record 10 2 = cell.primary.length
  secondary : field record 12 2 = cell.secondary.length
  reserved : field record 14 2 = 0
  tree : field record 16 4 = size

theorem reads_recordHeader (compact : cell.Compact engine old) :
    Reads (recordHeader cell (treeSize engine old cell)) cell (treeSize engine old cell) where
  kind := by
    change cellKinds[wordOf [UInt8.ofNat (cellKinds.idxOf cell.kind)]]? = _
    obtain ⟨there, small⟩ := cellKinds_idxOf cell.kind
    rw [wordOf, UInt8.toNat_ofNat', Nat.mod_eq_of_lt small]
    exact there
  status := by
    change statuses[wordOf (wordBytes 2 (statuses.idxOf cell.status))]? = _
    rw [wordOf_wordBytes (statuses_idxOf cell.status).2]
    exact (statuses_idxOf cell.status).1
  stale := by
    change wordOf [if cell.stale then 1 else 0] = _
    cases cell.stale <;> rfl
  execution := by
    change UInt32.ofNat (wordOf (wordBytes 4 cell.execution.toNat)) = _
    rw [wordOf_wordBytes cell.execution.toNat_lt, UInt32.ofNat_toNat]
  owner := by
    change (if wordOf (wordBytes 2 (if cell.kind.isOutput then cell.ownerInput else noOwner)) = noOwner then 0
      else wordOf (wordBytes 2 (if cell.kind.isOutput then cell.ownerInput else noOwner))) =
        if cell.kind.isOutput then cell.ownerInput else 0
    have word : noOwner < 256 ^ 2 := by decide
    by_cases isOutput : cell.kind.isOutput = true
    · have owner := compact.owner isOutput
      rw [if_pos isOutput, if_pos isOutput, wordOf_wordBytes (owner.trans word), if_neg owner.ne]
    · rw [if_neg isOutput, if_neg isOutput, wordOf_wordBytes word, if_pos rfl]
  primary := by
    have small : textCapacity < 256 ^ 2 := by decide
    exact wordOf_wordBytes (compact.primary.trans small)
  secondary := by
    have small : detailCapacity < 256 ^ 2 := by decide
    exact wordOf_wordBytes (compact.secondary.trans small)
  reserved := rfl
  tree := by
    have small : documentMaxBytes < 256 ^ 4 := by decide
    exact wordOf_wordBytes (compact.tree.trans_lt small)

variable {width : Nat}

theorem advanced_cursor {s : Decoding Context Ref} (small : buffer.length < 2 ^ width)
    (inside : s.cursor + count ≤ buffer.length) : (s.advanced width count).cursor = s.cursor + count :=
  Nat.mod_eq_of_lt (inside.trans_lt small)

/-- What a cell keeps when it is loaded: its kind and texts, and its status unless the engines refuse a text. -/
structure Cell.Reopened (cell other : Cell Ref) : Prop where
  kind : other.kind = cell.kind
  primary : other.primary = cell.primary
  secondary : other.secondary = cell.secondary
  execution : other.execution = cell.execution
  owner : cell.kind.isOutput = true → other.ownerInput = cell.ownerInput
  status : other.status = cell.status ∧ other.stale = cell.stale ∨
    degradesToStaleCell other.status = true ∧ other.stale = true ∧ other.expression = none

theorem Cell.reopened_stored (cell : Cell Ref) : cell.Reopened cell.stored :=
  ⟨rfl, rfl, rfl, rfl, fun isOutput => if_pos isOutput, .inl ⟨rfl, rfl⟩⟩

theorem reopened_rereadIn {context context' : Context} {text : Text} {other : Cell Ref}
    (read : rereadIn engine context cell.stored text = .ok (other, context')) : cell.Reopened other := by
  have stored := cell.reopened_stored
  unfold rereadIn Cell.reread at read
  split_ifs at read with degrades
  · cases read
    exact { stored with status := .inr ⟨degrades, rfl, rfl⟩ }
  · cases read
    exact { stored with status := .inl ⟨rfl, rfl⟩ }
  · cases read

theorem reopened_reload {loaded : Notebook Context Ref} {other : Cell Ref} {context : Context}
    (reloaded : reload engine old loaded cell = .ok (other, context)) : cell.Reopened other := by
  unfold reload at reloaded
  split at reloaded
  · split at reloaded
    · cases reloaded
      exact cell.reopened_stored
    · exact reopened_rereadIn reloaded
  split at reloaded
  · exact reopened_rereadIn reloaded
  dsimp only at reloaded
  split_ifs at reloaded <;> cases reloaded <;> exact cell.reopened_stored

theorem wp_decodeCell_saved {s : Decoding Context Ref} {rest : List UInt8} (small : buffer.length < 2 ^ width)
    (compact : cell.Compact engine old) (spelled : cell.Spelled engine old)
    (there : buffer.drop s.cursor = recordBytes engine old cell ++ rest)
    (shape : ∀ other, cell.Reopened other → validCellShape s.notebook.cells other = true) :
    wp (decodeCell width engine buffer)
      (fun _ t => ∃ other context, reload engine old s.notebook cell = .ok (other, context) ∧
        t.cursor = s.cursor + recordSize engine old cell ∧
        t.notebook = { s.notebook with context := context, cells := s.notebook.cells ++ [other] })
      (fun stop _ => ∃ status, stop = .refused status ∧ reload engine old s.notebook cell = .error status) s := by
  have room : buffer.length - s.cursor = recordSize engine old cell + rest.length := by
    rw [← List.length_drop, there, List.length_append, recordBytes_length]
  have reads := reads_recordHeader compact
  have positive : 0 < documentRecordBytes := by decide
  unfold recordBytes recordSize at *
  simp only [List.append_assoc] at there
  unfold decodeCell
  simp only [wp_bind, wp_get]
  rw [if_neg (by omega)]
  simp only [wp_bind]
  refine wp_fetch_there (?_ : _ = recordHeader cell (treeSize engine old cell)) (recordHeader_length _ _) ?_
  · rw [there, List.take_left' (recordHeader_length _ _)]
  simp only [wp_advance, wp_get, reads.kind, reads.status, reads.stale, reads.execution, reads.owner, reads.primary,
    reads.secondary, reads.reserved, reads.tree]
  have one := @advanced_cursor _ _ buffer documentRecordBytes width s small (by omega)
  have kept : (s.advanced width documentRecordBytes).notebook = s.notebook := rfl
  have next := congrArg (List.drop documentRecordBytes) there
  rw [List.drop_drop, ← one, List.drop_left' (recordHeader_length _ _)] at next
  generalize s.advanced width documentRecordBytes = first at one kept next ⊢
  have fits : (cell.primary.length + cell.secondary.length + treeSize engine old cell) % 2 ^ width =
      cell.primary.length + cell.secondary.length + treeSize engine old cell := Nat.mod_eq_of_lt (by omega)
  have flag : ¬1 < if cell.stale = true then 1 else 0 := by split_ifs <;> omega
  rw [fits, if_neg (by have := compact.primary; have := compact.secondary; omega)]
  simp only [wp_bind]
  refine wp_fetch_there (by rw [next, List.take_left]) rfl ?_
  have two := @advanced_cursor _ _ buffer cell.primary.length width first small (by omega)
  replace kept : (first.advanced width cell.primary.length).notebook = s.notebook := kept
  replace next := congrArg (List.drop cell.primary.length) next
  rw [List.drop_drop, ← two, List.drop_left] at next
  simp only [wp_advance, wp_get]
  generalize first.advanced width cell.primary.length = second at two kept next ⊢
  refine wp_fetch_there (by rw [next, List.take_left]) rfl ?_
  have three := @advanced_cursor _ _ buffer cell.secondary.length width second small (by omega)
  replace kept : (second.advanced width cell.secondary.length).notebook = s.notebook := kept
  replace next := congrArg (List.drop cell.secondary.length) next
  rw [List.drop_drop, ← three, List.drop_left] at next
  generalize second.advanced width cell.secondary.length = third at three kept next ⊢
  have stored :
      ({ kind := cell.kind
         primary := cString cell.primary
         secondary := cString cell.secondary
         expression := none
         status := cell.status
         execution := cell.execution
         ownerInput := cell.stored.ownerInput
         stale := decide ((if cell.stale = true then 1 else 0) = 1)
         poisoned := false } : Cell Ref) = cell.stored := by
    rw [cString_self spelled.primary, cString_self spelled.secondary]
    unfold Cell.stored
    cases cell.stale <;> rfl
  rw [stored]
  refine wp_mono (wp_parseCellExpression_saved spelled next) ?_ ?_
  · rintro other _ ⟨context, reloaded, rfl⟩
    rw [kept] at reloaded
    have four := @advanced_cursor _ _ buffer (treeSize engine old cell) width
      { third with notebook := { third.notebook with context := context } } small (by dsimp only; omega)
    rw [if_pos (kept ▸ shape other (reopened_reload reloaded))]
    exact ⟨other, context, reloaded, four.trans (by dsimp only; omega), kept ▸ rfl⟩
  · rintro stop t ⟨status, rfl, refused⟩
    exact ⟨status, rfl, kept ▸ refused⟩

/-- What becomes of the saved cells, one after another. -/
def reloadCells (engine : Engine Context Ref Value) (old : Context) :
    List (Cell Ref) → Notebook Context Ref → Except Status (Notebook Context Ref)
  | [], loaded => .ok loaded
  | cell :: rest, loaded =>
    match reload engine old loaded cell with
    | .error status => .error status
    | .ok (other, context) =>
      reloadCells engine old rest { loaded with context := context, cells := loaded.cells ++ [other] }

theorem reloadCells_reopened {cells : List (Cell Ref)} {loaded after : Notebook Context Ref}
    (reloaded : reloadCells engine old cells loaded = .ok after) :
    after.nextExecution = loaded.nextExecution ∧
      ∃ added, after.cells = loaded.cells ++ added ∧ List.Forall₂ Cell.Reopened cells added := by
  induction cells generalizing loaded with
  | nil =>
    cases reloaded
    exact ⟨rfl, [], (List.append_nil _).symm, .nil⟩
  | cons cell rest ih =>
    unfold reloadCells at reloaded
    split at reloaded
    · cases reloaded
    · rename_i other context found
      obtain ⟨execution, added, cells, each⟩ := ih reloaded
      refine ⟨execution, other :: added, ?_, .cons (reopened_reload found) each⟩
      rw [cells, List.append_assoc, List.singleton_append]

theorem Sound.validCellShape {notebook : Notebook Context Ref} (sound : Sound notebook)
    {done rest loaded : List (Cell Ref)} {other : Cell Ref} (split : notebook.cells = done ++ cell :: rest)
    (kinds : loaded.map Cell.kind = done.map Cell.kind) (reopened : cell.Reopened other) :
    validCellShape loaded other = true := by
  by_cases isOutput : cell.kind.isOutput = true
  swap
  · unfold Notebook.validCellShape
    rw [reopened.kind, if_neg isOutput]
  have length : loaded.length = done.length := by simpa only [List.length_map] using congrArg List.length kinds
  have here : notebook.cells[done.length]? = some cell := by
    rw [split, List.getElem?_append_right le_rfl, Nat.sub_self]
    rfl
  obtain ⟨next, input, there, isInput⟩ := sound.owners _ cell here isOutput
  rw [split, List.getElem?_append_left (by omega)] at there
  have found := congrArg (fun kinds => kinds[cell.ownerInput]?) kinds
  simp only [List.getElem?_map, there, Option.map_some, isInput] at found
  obtain ⟨input', there', isInput'⟩ := Option.map_eq_some_iff.mp found
  unfold Notebook.validCellShape
  rw [reopened.kind, if_pos isOutput, reopened.owner isOutput, there', Bool.and_eq_true, Bool.and_eq_true]
  exact ⟨⟨decide_eq_true (by omega), decide_eq_true (by omega)⟩, decide_eq_true isInput'⟩

theorem wp_decodeCells_saved {notebook : Notebook Context Ref} (sound : Sound notebook) (small : buffer.length < 2 ^ width)
    {cells done : List (Cell Ref)} (split : notebook.cells = done ++ cells)
    (each : ∀ cell ∈ cells, cell.Compact engine old ∧ cell.Spelled engine old) {s : Decoding Context Ref}
    (kinds : s.notebook.cells.map Cell.kind = done.map Cell.kind)
    (there : buffer.drop s.cursor = cells.flatMap (recordBytes engine old)) :
    wp (decodeCells width engine buffer cells.length)
      (fun _ t => reloadCells engine old cells s.notebook = .ok t.notebook ∧
        t.cursor = s.cursor + recordsSize engine old cells)
      (fun stop _ => ∃ status, stop = .refused status ∧ reloadCells engine old cells s.notebook = .error status) s := by
  induction cells generalizing done s with
  | nil => exact ⟨rfl, rfl⟩
  | cons cell rest ih =>
    obtain ⟨⟨compact, spelled⟩, others⟩ := List.forall_mem_cons.mp each
    rw [List.flatMap_cons] at there
    simp only [List.length_cons, decodeCells, wp_bind]
    unfold reloadCells
    refine wp_mono (wp_decodeCell_saved small compact spelled there fun other => sound.validCellShape split kinds) ?_ ?_
    · rintro _ t ⟨other, context, reloaded, cursor, now⟩
      have kinds' : t.notebook.cells.map Cell.kind = (done ++ [cell]).map Cell.kind := by
        rw [now, List.map_append, List.map_append, kinds]
        exact congrArg (List.map Cell.kind done ++ [·]) (reopened_reload reloaded).kind
      have next := congrArg (List.drop (recordSize engine old cell)) there
      rw [List.drop_drop, ← cursor, List.drop_left' (recordBytes_length cell)] at next
      rw [reloaded]
      have held := ih (split.trans (List.append_cons _ _ _)) others kinds' next
      rw [now, cursor] at held
      refine wp_mono held (fun _ u after => ⟨after.1, ?_⟩) fun _ _ refused => refused
      rw [after.2, recordsSize_cons]
      omega
    · rintro stop t ⟨status, rfl, refused⟩
      exact ⟨status, rfl, by rw [refused]⟩

def savedBytes (engine : Engine Context Ref Value) (notebook : Notebook Context Ref) : List UInt8 :=
  documentHeader notebook.cells.length notebook.nextExecution (notebook.cells.flatMap (recordBytes engine notebook.context)) ++
    notebook.cells.flatMap (recordBytes engine notebook.context)

variable {notebook : Notebook Context Ref}

theorem savedBytes_drop : (savedBytes engine notebook).drop documentHeaderBytes =
    notebook.cells.flatMap (recordBytes engine notebook.context) := List.drop_left' (documentHeader_length _ _ _)

theorem savedBytes_length : (savedBytes engine notebook).length = encodedSize engine notebook := by
  rw [savedBytes, encodedSize, List.length_append, documentHeader_length, records_length]

theorem wp_readHeader_saved (count : notebook.cells.length ≤ maxCells) (fits : encodedSize engine notebook ≤ documentMaxBytes) :
    wp (readHeader (savedBytes engine notebook))
      (fun header _ => notebook.nextExecution ≠ 0 ∧ header = (notebook.cells.length, notebook.nextExecution))
      (fun stop _ => notebook.nextExecution = 0 ∧ stop = .refused .corruptDocument) () := by
  rw [← savedBytes_length] at fits
  unfold savedBytes at fits ⊢
  generalize notebook.cells.flatMap (recordBytes engine notebook.context) = records at fits ⊢
  generalize header' : documentHeader notebook.cells.length notebook.nextExecution records = header at fits ⊢
  have size : header.length = documentHeaderBytes := by rw [← header', documentHeader_length]
  have small : documentMaxBytes < 256 ^ 4 ∧ maxCells < 256 ^ 2 := by decide
  have fixed : header.take 8 = documentMagic ∧ field header 8 2 = documentVersion ∧
      field header 10 2 = documentHeaderBytes ∧ field header 18 2 = 0 ∧ field header 28 4 = 0 := by
    rw [← header']
    exact ⟨rfl, rfl, rfl, rfl, rfl⟩
  have words : field header 12 4 = wordOf (wordBytes 4 records.length) ∧
      field header 16 2 = wordOf (wordBytes 2 notebook.cells.length) ∧
      field header 20 4 = wordOf (wordBytes 4 notebook.nextExecution.toNat) ∧
      field header 24 4 = wordOf (wordBytes 4 (crc32Bytes records).toNat) := by
    rw [← header']
    exact ⟨rfl, rfl, rfl, rfl⟩
  have whole : (header ++ records).length = documentHeaderBytes + records.length := by rw [List.length_append, size]
  rw [wordOf_wordBytes (by omega), wordOf_wordBytes (by omega), wordOf_wordBytes notebook.nextExecution.toNat_lt,
    wordOf_wordBytes (crc32Bytes records).toNat_lt] at words
  obtain ⟨magic, version, bytes, zero, zero'⟩ := fixed
  obtain ⟨payload, cells, next, check⟩ := words
  unfold readHeader
  rw [if_neg (by omega)]
  simp only [wp_bind]
  refine wp_fetch_there (by rw [List.drop_zero, List.take_left' size]) size ?_
  rw [if_neg (by simp only [magic, version, bytes, zero, zero']; decide)]
  refine wp_ite (fun refused => ⟨?_, rfl⟩) fun accepted => ?_
  · rw [payload, cells, next] at refused
    exact UInt32.toNat_inj.mp (by simp only [UInt32.toNat_zero]; omega)
  · rw [payload, cells, next] at accepted
    simp only [wp_bind, payload]
    refine wp_fetch_there (by rw [List.drop_left' size, List.take_length]) rfl ?_
    rw [check, if_neg (fun differs => differs rfl), cells, next, UInt32.ofNat_toNat]
    exact ⟨fun none => accepted (.inr (.inr (congrArg UInt32.toNat none))), rfl⟩

def reopen (engine : Engine Context Ref Value) (validate : Context → Status) (created notebook : Notebook Context Ref) :
    Except Status (Notebook Context Ref) :=
  if notebook.nextExecution = 0 then .error .corruptDocument
  else
    match reloadCells engine notebook.context notebook.cells
        { created with nextExecution := notebook.nextExecution } with
    | .error status => .error status
    | .ok loaded =>
      if validate loaded.context = .ok then .ok { loaded with selected := 0, editing := false, dirty := false }
      else .error (validate loaded.context)

variable {created : Notebook Context Ref}

theorem reopen_reopened {validate : Context → Status} {other : Notebook Context Ref} (empty : created.cells = [])
    (reopened : reopen engine validate created notebook = .ok other) :
    other.nextExecution = notebook.nextExecution ∧ List.Forall₂ Cell.Reopened notebook.cells other.cells := by
  unfold reopen at reopened
  split_ifs at reopened
  split at reopened
  · cases reopened
  rename_i loaded reloaded
  split_ifs at reopened
  cases reopened
  obtain ⟨execution, added, cells, each⟩ := reloadCells_reopened reloaded
  rw [empty, List.nil_append] at cells
  exact ⟨execution, cells ▸ each⟩

theorem Sound.compact (sound : Sound notebook)
    (fits : encodedSize engine notebook ≤ documentMaxBytes) (member : cell ∈ notebook.cells) :
    cell.Compact engine notebook.context where
  primary := (sound.texts cell member).1
  secondary := (sound.texts cell member).2
  tree := (treeSize_le cell).trans <| (List.single_le_sum (fun _ _ => Nat.zero_le _) _ (List.mem_map_of_mem member)).trans <|
    (Nat.le_add_left _ _).trans fits
  owner := fun isOutput => by
    obtain ⟨index, there⟩ := List.mem_iff_getElem?.mp member
    have before := (List.getElem?_eq_some_iff.mp there).1
    have next := (sound.owners index cell there isOutput).1
    have count := sound.count
    have small : maxCells < noOwner := by decide
    omega

/-- The document of a notebook within the limit can be written, and its texts end where they are said to. -/
structure Savable (engine : Engine Context Ref Value) (notebook : Notebook Context Ref) : Prop where
  sound : Sound notebook
  fits : encodedSize engine notebook ≤ documentMaxBytes
  spelled : ∀ cell ∈ notebook.cells, cell.Spelled engine notebook.context

theorem Savable.serialize (savable : Savable engine notebook) {capacity : Nat} (room : encodedSize engine notebook ≤ capacity) :
    serialize engine notebook capacity = .ok (savedBytes engine notebook) :=
  serialize_eq savable.sound.texts savable.fits room

/-- The decoder opens the bytes of a notebook to what `reopen` says. -/
theorem deserialize_savedBytes (wide : documentMaxBytes < 2 ^ width) (savable : Savable engine notebook) {heap rest : Heap}
    (made : notebookCreate engine heap = (some created, rest)) (validate : Context → Status) :
    (∀ other, reopen engine validate created notebook = .ok other →
      (deserialize width engine validate (savedBytes engine notebook) heap).outNotebook = some other ∧
      (deserialize width engine validate (savedBytes engine notebook) heap).stop = none) ∧
    ∀ status, reopen engine validate created notebook = .error status →
      (deserialize width engine validate (savedBytes engine notebook) heap).outNotebook = none ∧
      (deserialize width engine validate (savedBytes engine notebook) heap).stop = some (.refused status) := by
  obtain ⟨sound, fits, spelled⟩ := savable
  have empty := (notebookCreate_blank made).1
  have size := @savedBytes_length _ _ _ engine notebook
  have header := wp_readHeader_saved sound.count fits
  unfold wp at header
  unfold deserialize
  rw [made]
  split at header
  swap
  · obtain ⟨none, rfl⟩ := header
    rename_i read
    rw [read, reopen, if_pos none]
    exact ⟨fun _ same => (by cases same), fun _ same => by cases same; exact ⟨rfl, rfl⟩⟩
  obtain ⟨some, rfl⟩ := header
  rename_i read
  rw [read]
  have body : wp (decodeBody width engine validate (savedBytes engine notebook) notebook.cells.length)
      (fun _ t => reopen engine validate created notebook =
        .ok { t.notebook with selected := 0, editing := false, dirty := false })
      (fun stop _ => ∃ status, stop = .refused status ∧ reopen engine validate created notebook = .error status)
      ⟨documentHeaderBytes, [], { created with nextExecution := notebook.nextExecution }⟩ := by
    unfold decodeBody reopen
    rw [if_neg some]
    simp only [wp_bind, wp_get]
    refine wp_mono (wp_decodeCells_saved sound (by omega) (List.nil_append notebook.cells).symm
      (fun cell member => ⟨sound.compact fits member, spelled cell member⟩) (congrArg (List.map Cell.kind) empty)
      savedBytes_drop) (fun _ t held => ?_) ?_
    · rw [if_neg (fun differs => differs (held.2.trans size.symm)), held.1]
      split
      · exact if_pos ‹_›
      · rename_i error
        exact ⟨_, rfl, if_neg error⟩
    · rintro _ _ ⟨status, rfl, refused⟩
      exact ⟨status, rfl, by rw [refused]⟩
  dsimp only
  unfold wp at body
  split at body
  · rename_i run
    rw [run, body]
    exact ⟨fun _ same => by cases same; exact ⟨rfl, rfl⟩, fun _ same => by cases same⟩
  · obtain ⟨status, rfl, refused⟩ := body
    rename_i run
    rw [run, refused]
    exact ⟨fun _ same => (by cases same), fun _ same => by cases same; exact ⟨rfl, rfl⟩⟩

/-- A saved notebook opens to its own cells, read again one after another. -/
theorem deserialize_saved (wide : documentMaxBytes < 2 ^ width) (savable : Savable engine notebook) {heap rest : Heap}
    (made : notebookCreate engine heap = (some created, rest)) (validate : Context → Status) :
    ∃ document, serialize engine notebook documentMaxBytes = .ok document ∧
      (deserialize width engine validate document heap).outNotebook = (reopen engine validate created notebook).toOption ∧
      (∀ status, reopen engine validate created notebook = .error status →
        (deserialize width engine validate document heap).stop = some (.refused status)) ∧
      ∀ other, reopen engine validate created notebook = .ok other →
        other.nextExecution = notebook.nextExecution ∧ List.Forall₂ Cell.Reopened notebook.cells other.cells := by
  obtain ⟨opened, refused⟩ := deserialize_savedBytes wide savable made validate
  refine ⟨savedBytes engine notebook, savable.serialize savable.fits, ?_, fun status failed => (refused status failed).2,
    fun _ => reopen_reopened (notebookCreate_blank made).1⟩
  cases result : reopen engine validate created notebook with
  | ok other => exact (opened other result).1
  | error status => exact (refused status result).1

theorem shortNotebook_savable : Savable listEngine shortNotebook where
  sound := (show Reached listEngine (fun _ => .ok) (Fitting listEngine) shortNotebook from
    .performed _ _ (.performed _ _ (.created ⟨fun _ => true, 0⟩ ⟨fun _ => true, 2⟩ _ rfl) (fun _ member => by cases member))
      (fun source member => List.mem_singleton.mp member ▸ shortSource_fits)).sound
  fits := by decide +kernel
  spelled := by
    have spelled : ∀ cell ∈ shortNotebook.cells, 0 ∉ cell.primary ∧ 0 ∉ cell.secondary ∧
        ∀ tree ∈ cell.expression.toList, 0 ∉ listEngine.write () tree := by decide +kernel
    exact fun cell member => ⟨(spelled cell member).1, (spelled cell member).2.1, fun tree there =>
      (spelled cell member).2.2 tree (Option.mem_toList.mpr there)⟩

/-- The tree of `{}-{}` cannot be read by this engine, and its cell is marked stale. -/
theorem shortNotebook_opens : ∃ document, serialize listEngine shortNotebook documentMaxBytes = .ok document ∧
    ((deserialize 32 listEngine (fun _ => .ok) document ⟨fun _ => true, 0⟩).outNotebook.map fun other =>
      other.cells.map fun cell => (cell.primary, cell.status, cell.stale)) =
        some [(chars "{}-{}", .parse, true), ([], .unsupported, false)] := by
  obtain ⟨document, saved, opened, _⟩ := deserialize_saved (by decide : documentMaxBytes < 2 ^ 32) shortNotebook_savable
    (rfl : notebookCreate listEngine ⟨fun _ => true, 0⟩ = _) fun _ => .ok
  refine ⟨document, saved, ?_⟩
  rw [opened]
  decide +kernel

theorem field_lt (bytes : List UInt8) (offset count : Nat) : field bytes offset count < 256 ^ count :=
  (wordOf_lt _).trans_le (Nat.pow_le_pow_right (by decide) (List.length_take_le _ _))

theorem unwrapped_of_wide (wide : 33 ≤ width) (buffer : List UInt8) : Unwrapped width buffer := by
  intro index _ _
  have primary := field_lt ((buffer.drop (recordOffset buffer index)).take documentRecordBytes) 10 2
  have secondary := field_lt ((buffer.drop (recordOffset buffer index)).take documentRecordBytes) 12 2
  have tree := field_lt ((buffer.drop (recordOffset buffer index)).take documentRecordBytes) 16 4
  have room : 2 ^ 33 ≤ 2 ^ width := Nat.pow_le_pow_right (by decide) wide
  unfold recordLength
  dsimp only
  omega

/-- Every document is refused for a reason or opens to an intact notebook. Nothing outside of it is read, and the
cursor moves forward, where `size_t` is wide or no record's lengths wrap. -/
theorem every_document_is_answered (wide : documentMaxBytes < 2 ^ width) (engine : Engine Context Ref Value)
    (validate : Context → Status) (buffer : List UInt8) (heap : Heap) :
    ((deserialize width engine validate buffer heap).outNotebook.isSome = true ↔
        (deserialize width engine validate buffer heap).stop = none) ∧
      (deserialize width engine validate buffer heap).stop ≠ some (.refused .ok) ∧
      (∀ notebook, (deserialize width engine validate buffer heap).outNotebook = some notebook →
        Intact engine notebook ∧ notebook.dirty = false) ∧
      (33 ≤ width ∨ Unwrapped width buffer → (deserialize width engine validate buffer heap).stop ≠ some .astray ∧
        Forward (deserialize width engine validate buffer heap).moves) := by
  have answers := deserialize_answers wide engine validate buffer heap
  refine ⟨answers.transactional, answers.reported, fun notebook opened => ?_, fun straight => answers.straight ?_⟩
  · exact ⟨(answers.sound notebook opened).1.intact engine, (answers.sound notebook opened).2⟩
  · exact straight.elim (fun wide => unwrapped_of_wide wide buffer) id

/-- A text of one byte and a tree of `2 ^ 32 - 1`: together they are taken for empty on the device. -/
def wrappingRecord : List UInt8 := [0, 0, 0, 0, 0, 0, 0, 0, 255, 255, 1, 0, 0, 0, 0, 0, 255, 255, 255, 255]

def wrappingDocument : List UInt8 := documentHeader 1 1 wrappingRecord ++ wrappingRecord

theorem every_document_is_answered_wrapping :
    (deserialize 64 listEngine (fun _ => .ok) wrappingDocument ⟨fun _ => true, 0⟩).stop ≠ some .astray :=
  ((every_document_is_answered (by decide) listEngine (fun _ => .ok) wrappingDocument _).2.2.2 (.inl (by decide))).1

example : (deserialize 32 listEngine (fun _ => .ok) wrappingDocument ⟨fun _ => true, 0⟩).stop = some .astray := by
  decide +kernel

end PhyNspire.Notebook

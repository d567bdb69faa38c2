import PhyNspire.Lib.Stateful
import PhyNspire.Notebook.Document
import PhyNspire.Notebook.Upkeep

/-!
The decoder builds sound notebooks. Its reads stay inside the document and its cursor only moves
forward as long as the three lengths of a record do not wrap `size_t`.
-/

namespace PhyNspire.Notebook

open PhyNspire.Platform PhyNspire.Eval PhyNspire.Lib.Stateful

variable {Context Ref Value : Type}

def Forward (moves : List (Nat × Nat)) : Prop := ∀ move ∈ moves, move.1 ≤ move.2

theorem Forward.cons {moves : List (Nat × Nat)} (forward : Forward moves) {start finish : Nat} (le : start ≤ finish) :
    Forward ((start, finish) :: moves) := by
  intro move member
  obtain rfl | member := List.mem_cons.mp member
  · exact le
  · exact forward move member

variable {σ : Type} {buffer : List UInt8} {offset count : Nat}

theorem wp_fetch {good : List UInt8 → σ → Prop}
    {bad : Stop → σ → Prop} {s : σ} (inside : offset + count ≤ buffer.length → good ((buffer.drop offset).take count) s)
    (empty : count = 0 → good [] s) (outside : count ≠ 0 → buffer.length < offset + count → bad .astray s) :
    wp (fetch buffer offset count) good bad s := by
  unfold fetch
  refine wp_ite (fun reads => ?_) fun out => ?_
  · rw [wp_pure]
    obtain none | within := reads
    · subst none
      exact empty rfl
    · exact inside within
  · obtain ⟨some, out⟩ := not_or.mp out
    exact outside some (not_le.mp out)

theorem wp_fetch_bytes {good : List UInt8 → σ → Prop}
    {bad : Stop → σ → Prop} {s : σ} (each : ∀ bytes : List UInt8, bytes.length ≤ count → good bytes s)
    (outside : count ≠ 0 → buffer.length < offset + count → bad .astray s) :
    wp (fetch buffer offset count) good bad s :=
  wp_fetch (fun _ => each _ (List.length_take_le _ _)) (fun _ => each [] (Nat.zero_le _)) outside

theorem cString_length (bytes : List UInt8) : (cString bytes).length ≤ bytes.length :=
  (List.takeWhile_prefix _).length_le

/-- The state apart from the engines' context. -/
def SameButContext (s t : Decoding Context Ref) : Prop :=
  ∃ context, t = { s with notebook := { s.notebook with context := context } }

theorem readCell_spec (engine : Engine Context Ref Value) (cell : Cell Ref) (text : Text) (s : Decoding Context Ref) :
    wp (readCell engine cell text) (fun other t => cell.SameText other ∧ SameButContext s t)
      (fun stop t => (stop ≠ .refused .ok ∧ stop ≠ .astray) ∧ SameButContext s t) s := by
  unfold readCell
  simp only [wp_bind, wp_get, wp_set]
  unfold Cell.reread
  by_cases degrades : degradesToStaleCell (engine.read s.notebook.context text).1 = true
  · rw [if_pos degrades]
    exact ⟨⟨rfl, rfl, rfl, rfl⟩, _, rfl⟩
  rw [if_neg degrades]
  by_cases isOk : (engine.read s.notebook.context text).1 = .ok
  · rw [if_pos isOk]
    exact ⟨⟨rfl, rfl, rfl, rfl⟩, _, rfl⟩
  · rw [if_neg isOk]
    exact ⟨⟨fun same => isOk (Stop.refused.inj same), Stop.noConfusion⟩, _, rfl⟩

theorem refusal_proper {status : Status} (error : status ≠ .ok) :
    Stop.refused status ≠ .refused .ok ∧ Stop.refused status ≠ .astray :=
  ⟨fun same => error (Stop.refused.inj same), Stop.noConfusion⟩

theorem corrupt_proper : Stop.refused .corruptDocument ≠ .refused .ok ∧ Stop.refused .corruptDocument ≠ .astray :=
  refusal_proper Status.noConfusion

theorem contains_of_last {size : Nat} (positive : size ≠ 0)
    (last : (buffer.drop (offset + size - 1)).take 1 = [0]) : (buffer.drop offset).contains 0 = true := by
  have member : (0 : UInt8) ∈ buffer.drop (offset + size - 1) :=
    List.mem_of_mem_take (last ▸ List.mem_cons_self : (0 : UInt8) ∈ _)
  rw [show offset + size - 1 = offset + (size - 1) by omega, ← List.drop_drop] at member
  exact List.contains_iff_mem.mpr (List.mem_of_mem_drop member)

theorem parseCellExpression_spec (engine : Engine Context Ref Value) (buffer : List UInt8) (cell : Cell Ref)
    (size : Nat) (s : Decoding Context Ref) :
    wp (parseCellExpression engine buffer cell size) (fun other t => cell.SameText other ∧ SameButContext s t)
      (fun stop t => (stop ≠ .refused .ok ∧ (s.cursor + size ≤ buffer.length → stop ≠ .astray)) ∧
        SameButContext s t) s := by
  have same : SameButContext s s := ⟨_, rfl⟩
  have relax {stop : Stop} (proper : stop ≠ .refused .ok ∧ stop ≠ .astray) :
      stop ≠ .refused .ok ∧ (s.cursor + size ≤ buffer.length → stop ≠ .astray) := ⟨proper.1, fun _ => proper.2⟩
  unfold parseCellExpression
  simp only [wp_bind, wp_get]
  refine wp_ite (fun _ => ?_) fun _ => ?_
  · refine wp_ite (fun _ => ⟨.refl cell, same⟩) fun _ => ?_
    exact wp_mono (readCell_spec engine cell _ s) (fun _ _ held => held) fun _ _ held => ⟨relax held.1, held.2⟩
  refine wp_ite (fun _ => ?_) fun some => ?_
  · refine wp_ite (fun _ => ?_) fun _ => ⟨.refl cell, same⟩
    simp only [wp_bind, wp_set]
    exact wp_ite (fun _ => ⟨.refl cell, _, rfl⟩) fun _ => ⟨relax corrupt_proper, _, rfl⟩
  · simp only [wp_bind]
    refine wp_fetch (fun _ => ?_) (fun none => by cases none) fun _ outside =>
      ⟨⟨Stop.noConfusion, fun inside => by omega⟩, same⟩
    refine wp_ite (fun _ => ⟨relax corrupt_proper, same⟩) fun last => ?_
    simp only [wp_bind]
    unfold fetchText
    rw [if_pos (contains_of_last some (not_not.mp last))]
    simp only [wp_pure]
    exact wp_mono (readCell_spec engine cell _ s) (fun _ _ held => held) fun _ _ held => ⟨relax held.1, held.2⟩

def Decoding.advanced (width count : Nat) (s : Decoding Context Ref) : Decoding Context Ref :=
  { s with
    cursor := (s.cursor + count) % 2 ^ width
    moves := (s.cursor, (s.cursor + count) % 2 ^ width) :: s.moves }

@[simp] theorem wp_advance (width count : Nat) (good : Unit → Decoding Context Ref → Prop)
    (bad : Stop → Decoding Context Ref → Prop) (s : Decoding Context Ref) :
    wp (advance width count) good bad s ↔ good () (s.advanced width count) := Iff.rfl

/-- The cursor has come to an offset without moving back. -/
def Reaches (s : Decoding Context Ref) (offset : Nat) : Prop := s.cursor = offset ∧ Forward s.moves

variable {width : Nat}

theorem Reaches.advanced {s : Decoding Context Ref} (reaches : Reaches s offset)
    (fits : offset + count < 2 ^ width) : Reaches (s.advanced width count) (offset + count) := by
  obtain ⟨rfl, forward⟩ := reaches
  have whole : (s.cursor + count) % 2 ^ width = s.cursor + count := Nat.mod_eq_of_lt fits
  exact ⟨whole, forward.cons (by rw [whole]; omega)⟩

def recordLength (buffer : List UInt8) (offset : Nat) : Nat :=
  let record := (buffer.drop offset).take documentRecordBytes
  field record 10 2 + field record 12 2 + field record 16 4

/-- A state in which the next record's lengths do not wrap. -/
structure Steady (width : Nat) (buffer : List UInt8) (s : Decoding Context Ref) : Prop where
  inside : s.cursor ≤ buffer.length
  forward : Forward s.moves
  unwrapped : s.cursor + documentRecordBytes ≤ buffer.length → recordLength buffer s.cursor < 2 ^ width

def Adds (notebook after : Notebook Context Ref) : Prop :=
  ∃ cell context, after = { notebook with context := context, cells := notebook.cells ++ [cell] } ∧
    cell.Terminated ∧ validCellShape notebook.cells cell = true

theorem decodeCell_spec (engine : Engine Context Ref Value)
    (small : buffer.length < 2 ^ width) (s : Decoding Context Ref) :
    wp (decodeCell width engine buffer)
      (fun _ t => Adds s.notebook t.notebook ∧ (Steady width buffer s →
        t.cursor = s.cursor + documentRecordBytes + recordLength buffer s.cursor ∧ t.cursor ≤ buffer.length ∧
          Forward t.moves))
      (fun stop t => stop ≠ .refused .ok ∧ (Steady width buffer s → stop ≠ .astray ∧ Forward t.moves)) s := by
  unfold decodeCell
  simp only [wp_bind, wp_get]
  refine wp_ite (fun _ => ⟨corrupt_proper.1, fun steady => ⟨corrupt_proper.2, steady.forward⟩⟩) fun room => ?_
  obtain ⟨inside, room⟩ := not_or.mp room
  simp only [wp_bind]
  refine wp_fetch (fun _ => ?_) (fun none => by cases none) fun _ outside => by omega
  simp only [wp_advance]
  have one (steady : Steady width buffer s) :
      Reaches (s.advanced width documentRecordBytes) (s.cursor + documentRecordBytes) :=
    Reaches.advanced ⟨rfl, steady.forward⟩ (by omega)
  split
  swap
  · exact ⟨corrupt_proper.1, fun steady => ⟨corrupt_proper.2, (one steady).2⟩⟩
  rename_i kind status _ _
  refine wp_ite (fun _ => ⟨corrupt_proper.1, fun steady => ⟨corrupt_proper.2, (one steady).2⟩⟩) fun checked => ?_
  simp only [not_or] at checked
  obtain ⟨_, _, short, short', fits⟩ := checked
  have within (steady : Steady width buffer s) :
      s.cursor + documentRecordBytes + recordLength buffer s.cursor ≤ buffer.length := by
    change ¬buffer.length - _ < recordLength buffer s.cursor % 2 ^ width at fits
    rw [(one steady).1, Nat.mod_eq_of_lt (steady.unwrapped (by omega))] at fits
    omega
  have lengths : recordLength buffer s.cursor =
      field ((buffer.drop s.cursor).take documentRecordBytes) 10 2 +
        field ((buffer.drop s.cursor).take documentRecordBytes) 12 2 +
          field ((buffer.drop s.cursor).take documentRecordBytes) 16 4 := rfl
  generalize field ((buffer.drop s.cursor).take documentRecordBytes) 10 2 = primary at lengths short ⊢
  generalize field ((buffer.drop s.cursor).take documentRecordBytes) 12 2 = secondary at lengths short' ⊢
  generalize field ((buffer.drop s.cursor).take documentRecordBytes) 16 4 = expression at lengths ⊢
  have kept : (s.advanced width documentRecordBytes).notebook = s.notebook := rfl
  generalize s.advanced width documentRecordBytes = first at one kept ⊢
  simp only [wp_bind]
  refine wp_fetch_bytes (fun heading headingLength => ?_) fun _ outside => ?_
  swap
  · refine ⟨Stop.noConfusion, fun steady => ?_⟩
    have := within steady
    have := (one steady).1
    omega
  have two (steady : Steady width buffer s) :
      Reaches (first.advanced width primary) (s.cursor + documentRecordBytes + primary) :=
    (one steady).advanced (by have := within steady; omega)
  simp only [wp_advance, wp_get]
  replace kept : (first.advanced width primary).notebook = s.notebook := kept
  generalize first.advanced width primary = second at two kept ⊢
  refine wp_fetch_bytes (fun detail detailLength => ?_) fun _ outside => ?_
  swap
  · refine ⟨Stop.noConfusion, fun steady => ?_⟩
    have := within steady
    have := (two steady).1
    omega
  have three (steady : Steady width buffer s) :
      Reaches (second.advanced width secondary) (s.cursor + documentRecordBytes + primary + secondary) :=
    (two steady).advanced (by have := within steady; omega)
  simp only [wp_advance, wp_get, wp_set]
  replace kept : (second.advanced width secondary).notebook = s.notebook := kept
  generalize second.advanced width secondary = third at three kept ⊢
  refine wp_mono (parseCellExpression_spec engine buffer _ expression third) (fun cell t held => ?_) fun stop t held => ?_
  swap
  · obtain ⟨⟨reported, straight⟩, context, rfl⟩ := held
    refine ⟨reported, fun steady => ⟨straight ?_, (three steady).2⟩⟩
    rw [(three steady).1]
    have := within steady
    omega
  obtain ⟨same, context, rfl⟩ := held
  have three' (steady : Steady width buffer s) :
      Reaches { third with notebook := { third.notebook with context := context } }
        (s.cursor + documentRecordBytes + primary + secondary) := three steady
  generalize ended : Decoding.advanced width expression
    { third with notebook := { third.notebook with context := context } } = fourth
  have four (steady : Steady width buffer s) :
      Reaches fourth (s.cursor + documentRecordBytes + recordLength buffer s.cursor) := by
    have room := within steady
    rw [lengths, ← Nat.add_assoc, ← Nat.add_assoc] at room ⊢
    exact ended ▸ (three' steady).advanced (by omega)
  replace kept : fourth.notebook = { s.notebook with context := context } := by rw [← ended, ← kept]; rfl
  rw [kept]
  refine wp_ite (fun shape => ⟨⟨cell, context, rfl, same.terminated ⟨?_, ?_⟩, shape⟩, fun steady => ?_⟩) fun _ =>
    ⟨corrupt_proper.1, fun steady => ⟨corrupt_proper.2, (four steady).2⟩⟩
  · exact ((cString_length heading).trans headingLength).trans_lt (not_le.mp short)
  · exact ((cString_length detail).trans detailLength).trans_lt (not_le.mp short')
  · exact ⟨(four steady).1, (four steady).1.trans_le (within steady), (four steady).2⟩

/-- The cells of a document: every text ends, and every output follows its input. -/
structure Placed (cells : List (Cell Ref)) : Prop where
  texts : ∀ cell ∈ cells, cell.Terminated
  owners : ∀ index cell, cells[index]? = some cell → cell.kind.isOutput = true →
    cell.ownerInput + 1 = index ∧ IsInput cells cell.ownerInput

theorem IsInput.append {cells : List (Cell Ref)} {index : Nat} (isInput : IsInput cells index) (more : List (Cell Ref)) :
    IsInput (cells ++ more) index := by
  obtain ⟨cell, there, kind⟩ := isInput
  exact ⟨cell, by rw [List.getElem?_append_left (List.getElem?_eq_some_iff.mp there).1, there], kind⟩

theorem Placed.append {cells : List (Cell Ref)} (placed : Placed cells) {cell : Cell Ref}
    (terminated : cell.Terminated) (shape : validCellShape cells cell = true) : Placed (cells ++ [cell]) := by
  refine ⟨fun other member => ?_, fun index other there isOutput => ?_⟩
  · obtain old | new := List.mem_append.mp member
    · exact placed.texts other old
    · exact List.mem_singleton.mp new ▸ terminated
  · by_cases early : index < cells.length
    · rw [List.getElem?_append_left early] at there
      obtain ⟨next, isInput⟩ := placed.owners index other there isOutput
      exact ⟨next, isInput.append _⟩
    · rw [List.getElem?_append_right (not_lt.mp early)] at there
      obtain ⟨here, rfl⟩ : index - cells.length = 0 ∧ other = cell := by
        cases position : index - cells.length with
        | zero =>
          rw [position] at there
          exact ⟨rfl, (Option.some_inj.mp there).symm⟩
        | succ position =>
          rw [position] at there
          cases there
      unfold validCellShape at shape
      rw [if_pos isOutput, Bool.and_eq_true, Bool.and_eq_true, decide_eq_true_eq, decide_eq_true_eq,
        Option.any_eq_true] at shape
      obtain ⟨⟨_, owner⟩, input, found, kind⟩ := shape
      have isInput : IsInput cells other.ownerInput := ⟨input, found, of_decide_eq_true kind⟩
      exact ⟨by omega, isInput.append _⟩

def recordOffset (buffer : List UInt8) : Nat → Nat
  | 0 => documentHeaderBytes
  | index + 1 =>
    recordOffset buffer index + documentRecordBytes + recordLength buffer (recordOffset buffer index)

/-- A state at the beginning of a record from which on the lengths of some records do not wrap. -/
structure Chained (width : Nat) (buffer : List UInt8) (index count : Nat) (s : Decoding Context Ref) : Prop where
  inside : s.cursor ≤ buffer.length
  reaches : Reaches s (recordOffset buffer index)
  unwrapped : ∀ later, index ≤ later → later < index + count →
    recordOffset buffer later + documentRecordBytes ≤ buffer.length →
      recordLength buffer (recordOffset buffer later) < 2 ^ width

theorem Chained.steady {index : Nat} {s : Decoding Context Ref}
    (chained : Chained width buffer index (count + 1) s) : Steady width buffer s := by
  refine ⟨chained.inside, chained.reaches.2, fun room => ?_⟩
  have unwrapped := chained.unwrapped index le_rfl (by omega)
  rw [← chained.reaches.1] at unwrapped
  exact unwrapped room

theorem decodeCells_spec (engine : Engine Context Ref Value)
    (small : buffer.length < 2 ^ width) (count index : Nat) (s : Decoding Context Ref) :
    wp (decodeCells width engine buffer count)
      (fun _ t => t.notebook.cells.length = s.notebook.cells.length + count ∧
        (Placed s.notebook.cells → Placed t.notebook.cells) ∧
        (Chained width buffer index count s → t.cursor ≤ buffer.length ∧ Forward t.moves))
      (fun stop t => stop ≠ .refused .ok ∧
        (Chained width buffer index count s → stop ≠ .astray ∧ Forward t.moves)) s := by
  induction count generalizing index s with
  | zero => exact ⟨rfl, id, fun chained => ⟨chained.inside, chained.reaches.2⟩⟩
  | succ count ih =>
    simp only [decodeCells, wp_bind]
    refine wp_mono (decodeCell_spec engine small s) (fun _ t held => ?_) fun _ _ held =>
      ⟨held.1, fun chained => held.2 chained.steady⟩
    obtain ⟨⟨cell, context, added, terminated, shape⟩, goesOn⟩ := held
    have next (chained : Chained width buffer index (count + 1) s) : Chained width buffer (index + 1) count t := by
      obtain ⟨cursor, inside, forward⟩ := goesOn chained.steady
      refine ⟨inside, ⟨?_, forward⟩, fun later le lt room => chained.unwrapped later (by omega) (by omega) room⟩
      rw [cursor, chained.reaches.1]
      rfl
    refine wp_mono (ih (index + 1) t) (fun _ u held => ?_) fun _ _ held =>
      ⟨held.1, fun chained => held.2 (next chained)⟩
    obtain ⟨length, placed, straight⟩ := held
    refine ⟨?_, fun held => placed ?_, fun chained => straight (next chained)⟩
    · rw [length, added, List.length_append, List.length_singleton]
      omega
    · rw [added]
      exact held.append terminated shape

def recordCount (buffer : List UInt8) : Nat := field (buffer.take documentHeaderBytes) 16 2

theorem readHeader_spec (buffer : List UInt8) (s : σ) :
    wp (readHeader buffer) (fun header t => t = s ∧ header.1 = recordCount buffer ∧ header.1 ≤ maxCells ∧
        documentHeaderBytes ≤ buffer.length ∧ buffer.length ≤ documentMaxBytes)
      (fun stop _ => stop ≠ .refused .ok ∧ stop ≠ .astray) s := by
  unfold readHeader
  refine wp_ite (fun _ => corrupt_proper) fun size => ?_
  obtain ⟨long, small⟩ := not_or.mp size
  simp only [wp_bind]
  refine wp_fetch (fun _ => ?_) (fun none => by cases none) fun _ outside => by omega
  rw [List.drop_zero]
  refine wp_ite (fun _ => corrupt_proper) fun _ => wp_ite (fun _ => corrupt_proper) fun checked => ?_
  simp only [not_or, not_not] at checked
  obtain ⟨payload, count, _⟩ := checked
  simp only [wp_bind]
  have whole : documentHeaderBytes + field (buffer.take documentHeaderBytes) 12 4 ≤ buffer.length := by
    rw [payload]
    omega
  refine wp_fetch_bytes (fun payload _ => ?_) fun _ outside => by omega
  exact wp_ite (fun _ => corrupt_proper) fun _ => ⟨rfl, rfl, not_lt.mp count, not_lt.mp long, not_lt.mp small⟩

/-- No record's lengths wrap `size_t`. -/
def Unwrapped (width : Nat) (buffer : List UInt8) : Prop :=
  ∀ index < recordCount buffer, recordOffset buffer index + documentRecordBytes ≤ buffer.length →
    recordLength buffer (recordOffset buffer index) < 2 ^ width

structure Answers (width : Nat) (buffer : List UInt8) (opened : Opened Context Ref) : Prop where
  transactional : opened.outNotebook.isSome = true ↔ opened.stop = none
  reported : opened.stop ≠ some (.refused .ok)
  sound : ∀ notebook, opened.outNotebook = some notebook → Sound notebook ∧ notebook.dirty = false
  straight : Unwrapped width buffer → opened.stop ≠ some .astray ∧ Forward opened.moves

theorem Answers.refusal (width : Nat) (buffer : List UInt8) {stop : Stop}
    (proper : stop ≠ .refused .ok ∧ stop ≠ .astray) :
    Answers width buffer (⟨some stop, none, []⟩ : Opened Context Ref) where
  transactional := ⟨fun set => (by cases set), fun none => (by cases none)⟩
  reported := fun same => proper.1 (Option.some_inj.mp same)
  sound := fun _ none => by cases none
  straight := fun _ => ⟨fun same => proper.2 (Option.some_inj.mp same), fun _ member => by cases member⟩

theorem decodeBody_spec (engine : Engine Context Ref Value) (validate : Context → Status)
    (small : buffer.length < 2 ^ width) (count : Nat) (s : Decoding Context Ref) :
    wp (decodeBody width engine validate buffer count)
      (fun _ t => t.notebook.cells.length = s.notebook.cells.length + count ∧
        (Placed s.notebook.cells → Placed t.notebook.cells) ∧
        (Chained width buffer 0 count s → t.cursor ≤ buffer.length ∧ Forward t.moves))
      (fun stop t => stop ≠ .refused .ok ∧
        (Chained width buffer 0 count s → stop ≠ .astray ∧ Forward t.moves)) s := by
  unfold decodeBody
  simp only [wp_bind, wp_get]
  refine wp_mono (decodeCells_spec engine small count 0 s) (fun _ t held => ?_) fun _ _ held => held
  refine wp_ite (fun _ => ⟨corrupt_proper.1, fun chained => ⟨corrupt_proper.2, (held.2.2 chained).2⟩⟩) fun _ => ?_
  split
  · exact held
  · rename_i error
    exact ⟨(refusal_proper error).1, fun chained => ⟨(refusal_proper error).2, (held.2.2 chained).2⟩⟩

theorem notebookCreate_blank {engine : Engine Context Ref Value} {heap rest : Heap} {created : Notebook Context Ref}
    (made : notebookCreate engine heap = (some created, rest)) : created.cells = [] ∧ created.selected = 0 ∧
      created.editing = false := by
  unfold notebookCreate createEngines at made
  split_ifs at made
  · obtain rfl := Option.some_inj.mp (congrArg Prod.fst made)
    exact ⟨rfl, rfl, rfl⟩
  · cases made
  · cases made

theorem deserialize_answers (wide : documentMaxBytes < 2 ^ width) (engine : Engine Context Ref Value)
    (validate : Context → Status) (buffer : List UInt8) (heap : Heap) :
    Answers width buffer (deserialize width engine validate buffer heap) := by
  unfold deserialize
  have header := readHeader_spec buffer ()
  unfold wp at header
  cases read : (readHeader buffer : EStateM Stop Unit (Nat × UInt32)) () with
  | error stop _ =>
    rw [read] at header
    exact .refusal _ _ header
  | ok checked unit =>
    rw [read] at header
    obtain ⟨_, counted, count, long, small⟩ := header
    cases made : notebookCreate engine heap with
    | mk created rest =>
      cases created with
      | none => exact .refusal _ _ (refusal_proper Status.noConfusion)
      | some created =>
        obtain ⟨cells, _, _⟩ := notebookCreate_blank made
        have body := decodeBody_spec engine validate (small.trans_lt wide) checked.1
          ⟨documentHeaderBytes, [], { created with nextExecution := checked.2 }⟩
        have chained (unwrapped : Unwrapped width buffer) : Chained width buffer 0 checked.1
            (⟨documentHeaderBytes, [], { created with nextExecution := checked.2 }⟩ : Decoding Context Ref) := by
          refine ⟨long, ⟨rfl, fun _ member => by cases member⟩, fun later _ lt => unwrapped later ?_⟩
          omega
        unfold wp at body
        dsimp only
        cases run : decodeBody width engine validate buffer checked.1
            ⟨documentHeaderBytes, [], { created with nextExecution := checked.2 }⟩ with
        | error stop final =>
          rw [run] at body
          obtain ⟨reported, straight⟩ := body
          refine ⟨⟨fun set => (by cases set), fun none => (by cases none)⟩, fun same => reported (Option.some_inj.mp same),
            fun _ none => (by cases none), fun unwrapped => ⟨fun same => ?_, (straight (chained unwrapped)).2⟩⟩
          exact (straight (chained unwrapped)).1 (Option.some_inj.mp same)
        | ok unit final =>
          rw [run] at body
          obtain ⟨length, placed, straight⟩ := body
          dsimp only at length placed
          rw [cells] at length placed
          have empty : Placed ([] : List (Cell Ref)) :=
            ⟨fun _ member => (by cases member), fun _ _ there => by cases there⟩
          refine ⟨⟨fun _ => rfl, fun _ => rfl⟩, fun none => (by cases none), fun notebook same => ?_,
            fun unwrapped => ⟨fun none => (by cases none), (straight (chained unwrapped)).2⟩⟩
          obtain rfl := Option.some_inj.mp same
          refine ⟨⟨?_, ?_, (placed empty).texts, (placed empty).owners, fun editing => by cases editing⟩, rfl⟩
          · dsimp only
            rw [length, List.length_nil]
            omega
          · obtain none | some := Nat.eq_zero_or_pos final.notebook.cells.length
            · exact Or.inr ⟨List.length_eq_zero_iff.mp none, rfl⟩
            · exact Or.inl some

end PhyNspire.Notebook

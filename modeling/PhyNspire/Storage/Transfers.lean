import Mathlib.Data.List.Infix
import PhyNspire.Storage.Ndless

/-!
What the transfers of the backend do to the disk, whichever of their operations fail: each
changes one file, and is believed only when that file is complete.
-/

namespace PhyNspire.Storage

open PhyNspire.Lib.Interrupts Program

def Operation.Only (path : FileName) : Operation → Prop
  | openWriting other => other = path
  | write other _ => other = path
  | closeWriting other => other = path
  | remove other => other = path
  | rename _ _ => False
  | _ => True

/-- The operation changes no file and no directory. -/
def Operation.Reads : Operation → Prop
  | opendir _ => True
  | closedir => True
  | openReading _ => True
  | read _ _ => True
  | nextByte _ => True
  | closeReading => True
  | _ => False

structure Beside (path : FileName) (earlier later : Machine) : Prop where
  files : ∀ name, name ≠ path → later.disk.files name = earlier.disk.files name
  notebooks : earlier.disk.notebooks = true → later.disk.notebooks = true
  log : ∀ event ∈ earlier.log, event ∈ later.log

structure Unchanged (earlier later : Machine) : Prop where
  disk : later.disk = earlier.disk
  log : ∀ event ∈ earlier.log, event ∈ later.log

theorem Beside.refl (path : FileName) (m : Machine) : Beside path m m :=
  ⟨fun _ _ => rfl, id, fun _ => id⟩

variable {path : FileName} {a b : Machine}

theorem Beside.trans {c : Machine} (first : Beside path a b) (second : Beside path b c) :
    Beside path a c where
  files := fun name other => (second.files name other).trans (first.files name other)
  notebooks := fun there => second.notebooks (first.notebooks there)
  log := fun event member => second.log event (first.log event member)

theorem Unchanged.refl (m : Machine) : Unchanged m m := ⟨rfl, fun _ => id⟩

theorem Unchanged.trans {c : Machine} (first : Unchanged a b) (second : Unchanged b c) : Unchanged a c where
  disk := second.disk.trans first.disk
  log := fun event member => second.log event (first.log event member)

theorem Unchanged.beside (same : Unchanged a b) : Beside path a b where
  files := fun name _ => by rw [same.disk]
  notebooks := fun there => by rw [same.disk]; exact there
  log := same.log

theorem perform_log (op : Operation) (fault : Fault) (m : Machine) :
    ∀ event ∈ m.log, event ∈ (perform op fault m).2.log :=
  fun _ member => List.mem_append_left _ member

theorem Disk.create_keeps {disk : Disk} {folder : Folder} (there : disk.notebooks = true) :
    (disk.create folder).notebooks = true := by
  cases folder with
  | parent => exact there
  | notebooks => exact (congrArg (· || disk.parent) there).trans (Bool.true_or _)

theorem openReading_content {fault : Fault} {m : Machine} (opened : (perform (.openReading path) fault m).1.ok = true) :
    m.disk.files path = some (perform (.openReading path) fault m).1.bytes := by
  cases content : m.disk.files path with
  | none => cases fault <;> simp [perform, Operation.working, Operation.failing, Operation.shortened, plain, content] at opened
  | some bytes =>
    cases fault <;> simp [perform, Operation.working, Operation.failing, Operation.shortened, plain, content] at opened ⊢

theorem chunkSize_pos : 0 < chunkSize := by decide

theorem read_answer (stream : Bytes) {count : Nat} (positive : 0 < count) (fault : Fault) (m : Machine) :
    ((perform (.read stream count) fault m).1.ok = true ∧
      (perform (.read stream count) fault m).1.bytes = stream.take count) ∨
    ((perform (.read stream count) fault m).1.ok = false ∧
      (perform (.read stream count) fault m).1.bytes.length < count) := by
  cases fault with
  | works => exact Or.inl ⟨rfl, rfl⟩
  | fails kept =>
    refine Or.inr ⟨rfl, ?_⟩
    simp only [perform, Operation.failing, List.length_take]
    omega
  | short kept =>
    refine Or.inr ⟨rfl, ?_⟩
    simp only [perform, Operation.shortened, Operation.failing, List.length_take]
    omega

theorem perform_beside {op : Operation} (only : op.Only path) (fault : Fault) (m : Machine) :
    Beside path m (perform op fault m).2 := by
  refine ⟨?_, ?_, perform_log op fault m⟩
  · intro name other
    cases op <;> cases fault <;>
      simp only [Operation.Only] at only <;>
      simp only [perform, Operation.working, Operation.failing, Operation.shortened, Disk.create_files]
    all_goals first
      | (split <;> first | exact Disk.put_other (only ▸ other) | rfl)
      | exact Disk.put_other (only ▸ other)
  · intro there
    cases op <;> cases fault <;>
      simp only [Operation.Only] at only <;>
      simp only [perform, Operation.working, Operation.failing, Operation.shortened, Disk.put_notebooks, there,
        if_true, Disk.create_keeps]

theorem perform_unchanged {op : Operation} (reads : op.Reads) (fault : Fault) (m : Machine) :
    Unchanged m (perform op fault m).2 := by
  refine ⟨?_, perform_log op fault m⟩
  cases op <;> cases fault <;> first | exact reads.elim | rfl

section

variable {allowed : Machine → Operation → Fault → Prop}

/-- Once the log holds what it holds now, nothing that matters to a copy fails any more. -/
def Reliable (allowed : Machine → Operation → Fault → Prop) (m : Machine) : Prop :=
  ∀ later op fault, (∀ event ∈ m.log, event ∈ later.log) → allowed later op fault →
    (∃ path, op = .remove path) ∨ fault = .works

variable {m : Machine} {op : Operation}

theorem Reliable.works {later : Machine} {fault : Fault} (reliable : Reliable allowed m)
    (grown : ∀ event ∈ m.log, event ∈ later.log) (admitted : allowed later op fault)
    (kept : ∀ path, op ≠ .remove path) : fault = .works := by
  obtain ⟨path, same⟩ | works := reliable later op fault grown admitted
  · exact absurd same (kept path)
  · exact works

theorem Reliable.grown {later : Machine} (reliable : Reliable allowed m)
    (log : ∀ event ∈ m.log, event ∈ later.log) : Reliable allowed later :=
  fun last op fault grown => reliable last op fault (fun event member => grown event (log event member))

variable {start : Machine}

theorem safe_reading {good : Answer → Machine → Prop} (reads : op.Reads) (so_far : Unchanged start m)
    (then_ : ∀ fault, allowed m op fault → Unchanged start (perform op fault m).2 →
      good (perform op fault m).1 (perform op fault m).2) :
    Safe perform allowed (Unchanged start) (call op) good m := by
  refine safe_call so_far ?_
  intro fault admitted
  have unchanged := so_far.trans (perform_unchanged reads fault m)
  exact ⟨unchanged, then_ fault admitted unchanged⟩

variable {path : FileName}

theorem safe_writing {good : Answer → Machine → Prop} (only : op.Only path) (so_far : Beside path start m)
    (then_ : ∀ fault, allowed m op fault → Beside path start (perform op fault m).2 →
      good (perform op fault m).1 (perform op fault m).2) :
    Safe perform allowed (Beside path start) (call op) good m := by
  refine safe_call so_far ?_
  intro fault admitted
  have beside := so_far.trans (perform_beside only fault m)
  exact ⟨beside, then_ fault admitted beside⟩

theorem matchChunks_safe (rounds : Nat) (stream expected : Bytes) (m : Machine)
    (so_far : Unchanged start m) (enough : expected.length ≤ rounds * chunkSize) :
    Safe perform allowed (Unchanged start) (matchChunks rounds stream expected)
      (fun result _ => result.1 = true → stream = expected ++ result.2) m := by
  induction rounds generalizing stream expected m with
  | zero =>
    have none : expected = [] := List.length_eq_zero_iff.mp (by omega)
    refine safe_pure so_far ?_
    intro _
    rw [none, List.nil_append]
  | succ rounds ih =>
    unfold matchChunks
    split_ifs with empty
    · refine safe_pure so_far ?_
      intro _
      rw [empty, List.nil_append]
    · refine safe_bind (safe_reading trivial so_far ?_)
      intro fault _ unchanged
      split_ifs with same
      · have fewer : (expected.drop (min expected.length chunkSize)).length ≤ rounds * chunkSize := by
          rw [List.length_drop]
          simp only [chunkSize] at enough ⊢
          omega
        refine safe_mono (ih (stream.drop (min expected.length chunkSize)) _ _ unchanged fewer) (fun _ => id) ?_
        intro result _ _ held matched
        have positive : 0 < expected.length := List.length_pos_of_ne_nil empty
        have split : stream.take (min expected.length chunkSize) = expected.take (min expected.length chunkSize) := by
          obtain ⟨_, whole⟩ | ⟨_, less⟩ := read_answer stream (Nat.lt_min.mpr ⟨positive, chunkSize_pos⟩) fault m
          · exact whole.symm.trans same
          · rw [same, List.length_take] at less
            omega
        calc stream = stream.take (min expected.length chunkSize) ++ stream.drop (min expected.length chunkSize) :=
              (List.take_append_drop _ _).symm
          _ = expected.take (min expected.length chunkSize) ++
              (expected.drop (min expected.length chunkSize) ++ result.2) := by rw [split, held matched]
          _ = expected ++ result.2 := by rw [← List.append_assoc, List.take_append_drop]
      · exact safe_pure unchanged (fun matched => nomatch matched)

theorem roundsFor_enough (length : Nat) : length ≤ roundsFor length * chunkSize := by
  simp only [roundsFor, chunkSize]
  omega

theorem streamEnds_safe (ok : Bool) (stream : Bytes) (so_far : Unchanged start m) :
    Safe perform allowed (Unchanged start) (streamEnds ok stream) (fun ended _ => ended = true → ok = true) m := by
  cases ok with
  | false => exact safe_pure so_far id
  | true =>
    refine safe_bind (safe_reading trivial so_far ?_)
    intro fault _ unchanged
    exact safe_pure unchanged (fun _ => rfl)

theorem fileMatchesBuffer_safe (path : FileName) (buffer : Bytes) (m : Machine) (so_far : Unchanged start m) :
    Safe perform allowed (Unchanged start) (fileMatchesBuffer path buffer)
      (fun matched _ => matched = true → ∃ rest, start.disk.files path = some (buffer ++ rest)) m := by
  refine safe_bind (safe_reading trivial so_far ?_)
  intro fault _ opened
  split_ifs with isOpen
  · have content := openReading_content isOpen
    rw [so_far.disk] at content
    refine safe_seq (matchChunks_safe _ _ buffer _ opened (roundsFor_enough _)) (fun _ => id) ?_
    intro result t unchanged matched
    refine safe_seq (streamEnds_safe result.1 result.2 unchanged) (fun _ => id) ?_
    intro ended u unchanged ending
    refine safe_bind (safe_reading trivial unchanged ?_)
    intro fault' _ unchanged
    refine safe_pure unchanged ?_
    intro both
    rw [Bool.and_eq_true] at both
    exact ⟨result.2, by rw [content, matched (ending both.1)]⟩
  · exact safe_pure opened (fun matched => nomatch matched)

theorem openWriting_content {fault : Fault} (opened : (perform (.openWriting path) fault m).1.ok = true) :
    (perform (.openWriting path) fault m).2.disk.files path = some [] := by
  cases fault with
  | fails kept => cases opened
  | works =>
    cases there : m.disk.notebooks with
    | false => simp only [perform, Operation.working, there, plain, Bool.false_eq_true, if_false] at opened
    | true => simp only [perform, Operation.working, there, if_true, Disk.put_same]
  | short kept => cases opened

theorem write_content {content : Bytes} (bytes : Bytes) (fault : Fault) (there : m.disk.files path = some content) :
    ∃ part, part <+: bytes ∧
      (perform (.write path bytes) fault m).2.disk.files path = some (content ++ part) := by
  cases fault with
  | works =>
    refine ⟨bytes, List.prefix_refl _, ?_⟩
    simp only [perform, Operation.working, Disk.put_same, there, Option.map_some]
  | fails kept =>
    refine ⟨bytes.take kept, List.take_prefix _ _, ?_⟩
    simp only [perform, Operation.failing, Disk.put_same, there, Option.map_some]
  | short kept =>
    refine ⟨bytes.take kept, List.take_prefix _ _, ?_⟩
    simp only [perform, Operation.shortened, Disk.put_same, there, Option.map_some]

theorem closeWriting_content {content : Bytes} (fault : Fault) (there : m.disk.files path = some content) :
    ∃ part, part <+: content ∧ (perform (.closeWriting path) fault m).2.disk.files path = some part := by
  cases fault with
  | works => exact ⟨content, List.prefix_refl _, there⟩
  | fails kept =>
    refine ⟨content.take kept, List.take_prefix _ _, ?_⟩
    simp only [perform, Operation.failing, Disk.put_same, there, Option.map_some]
  | short kept =>
    refine ⟨content.take kept, List.take_prefix _ _, ?_⟩
    simp only [perform, Operation.shortened, Disk.put_same, there, Option.map_some]

theorem writeTemporary_safe (path : FileName) (buffer : Bytes) (m : Machine) (so_far : Beside path start m) :
    Safe perform allowed (Beside path start) (writeTemporary path buffer)
      (fun status t => status = .ok → ∃ content, t.disk.files path = some content ∧ content <+: buffer) m := by
  refine safe_bind (safe_writing rfl so_far ?_)
  intro fault _ beside
  split_ifs with opened
  · have empty := openWriting_content opened
    refine safe_bind (safe_writing rfl beside ?_)
    intro fault' _ beside
    obtain ⟨part, inBuffer, written⟩ := write_content buffer fault' empty
    refine safe_bind (safe_writing rfl beside ?_)
    intro fault'' _ beside
    obtain ⟨final, inPart, closed⟩ := closeWriting_content fault'' written
    split_ifs with both
    · exact safe_pure beside (fun _ => ⟨final, closed, inPart.trans inBuffer⟩)
    · refine safe_bind (safe_writing rfl beside ?_)
      intro _ _ beside
      exact safe_pure beside (fun same => nomatch same)
  · exact safe_pure beside (fun same => nomatch same)

theorem writeVerified_safe (path : FileName) (buffer : Bytes) (m : Machine) (so_far : Beside path start m) :
    Safe perform allowed (Beside path start) (writeVerified path buffer)
      (fun status t => status = .ok → t.disk.files path = some buffer) m := by
  refine safe_seq (writeTemporary_safe path buffer m so_far) (fun _ => id) ?_
  intro status t beside written
  split_ifs with isOk
  · obtain ⟨content, there, inBuffer⟩ := written isOk
    refine safe_bind (safe_mono (fileMatchesBuffer_safe path buffer t (Unchanged.refl t))
      (fun u unchanged => beside.trans unchanged.beside) ?_)
    intro matched u unchanged complete
    have beside := beside.trans unchanged.beside
    split_ifs with isMatched
    · obtain ⟨rest, whole⟩ := complete isMatched
      -- the file is a beginning of the buffer and begins with the buffer
      have same : content = buffer := by
        rw [there, Option.some.injEq] at whole
        exact inBuffer.sublist.eq_of_length_le (by rw [whole, List.length_append]; omega)
      refine safe_pure beside ?_
      intro _
      rw [unchanged.disk, there, same]
    · refine safe_bind (safe_writing rfl beside ?_)
      intro _ _ beside
      exact safe_pure beside (fun same => nomatch same)
  · exact safe_pure beside (fun same => absurd same isOk)

theorem equalChunks_safe (rounds : Nat) (left right : Bytes) (m : Machine) (so_far : Unchanged start m) :
    Safe perform allowed (Unchanged start) (equalChunks rounds left right)
      (fun equal _ => (equal = true → left = right) ∧
        (Reliable allowed start → left.length < rounds * chunkSize → left = right → equal = true)) m := by
  induction rounds generalizing left right m with
  | zero =>
    refine safe_pure so_far ⟨nofun, ?_⟩
    intro _ few _
    omega
  | succ rounds ih =>
    refine safe_bind (safe_reading trivial so_far ?_)
    intro fault admitted unchanged
    refine safe_bind (safe_reading trivial unchanged ?_)
    intro fault' admitted' unchanged'
    have leftRead := read_answer left chunkSize_pos fault m
    have rightRead := read_answer right chunkSize_pos fault' (perform (.read left chunkSize) fault m).2
    have whole (reliable : Reliable allowed start) :
        (perform (.read left chunkSize) fault m).1 = ⟨true, left.take chunkSize⟩ ∧
        (perform (.read right chunkSize) fault' (perform (.read left chunkSize) fault m).2).1 =
          ⟨true, right.take chunkSize⟩ := by
      rw [reliable.works so_far.log admitted (fun _ => nofun), reliable.works unchanged.log admitted' (fun _ => nofun)]
      exact ⟨rfl, rfl⟩
    split_ifs with same last
    · refine safe_pure unchanged' ⟨?_, ?_⟩
      · intro both
        rw [Bool.and_eq_true] at both
        obtain ⟨_, leftAll⟩ | ⟨failed, _⟩ := leftRead
        · obtain ⟨_, rightAll⟩ | ⟨failed, _⟩ := rightRead
          · rw [leftAll] at same last
            rw [rightAll] at same
            have leftShort : left.length ≤ chunkSize := by rw [List.length_take] at last; omega
            have rightShort : right.length ≤ chunkSize := by
              rw [same, List.length_take] at last
              omega
            rwa [List.take_of_length_le leftShort, List.take_of_length_le rightShort] at same
          · exact absurd (both.2.symm.trans failed) Bool.noConfusion
        · exact absurd (both.1.symm.trans failed) Bool.noConfusion
      · intro reliable _ _
        rw [(whole reliable).1, (whole reliable).2]
        rfl
    · refine safe_mono (ih (left.drop chunkSize) (right.drop chunkSize) _ unchanged') (fun _ => id) ?_
      intro equal _ _ held
      refine ⟨?_, ?_⟩
      · intro isEqual
        obtain ⟨_, leftAll⟩ | ⟨_, less⟩ := leftRead
        · obtain ⟨_, rightAll⟩ | ⟨_, less⟩ := rightRead
          · rw [leftAll, rightAll] at same
            rw [← List.take_append_drop chunkSize left, same, held.1 isEqual, List.take_append_drop]
          · rw [← same] at less
            exact absurd less last
        · exact absurd less last
      · intro reliable few equals
        refine held.2 reliable ?_ (by rw [equals])
        rw [(whole reliable).1, List.length_take] at last
        rw [List.length_drop]
        simp only [chunkSize] at last few ⊢
        omega
    · refine safe_pure unchanged' ⟨nofun, ?_⟩
      intro reliable _ equals
      rw [(whole reliable).1, (whole reliable).2, equals] at same
      exact absurd rfl same

theorem closeReadingIf_reads (opened : Bool) (m : Machine) (so_far : Unchanged start m) :
    Safe perform allowed (Unchanged start) (closeReadingIf opened) (fun _ _ => True) m := by
  cases opened with
  | false => exact safe_pure so_far trivial
  | true =>
    refine safe_bind (safe_reading trivial so_far ?_)
    intro _ _ unchanged
    exact safe_pure unchanged trivial

/-- Files judged equal are equal, and equal files are judged so when no operation fails. -/
theorem filesEqual_safe (left right : FileName) (m : Machine) (so_far : Unchanged start m) :
    Safe perform allowed (Unchanged start) (filesEqual left right)
      (fun equal _ =>
        (equal = true → start.disk.files left = start.disk.files right ∧ (start.disk.files left).isSome = true) ∧
        (Reliable allowed start → start.disk.files left = start.disk.files right →
          (start.disk.files left).isSome = true → equal = true)) m := by
  refine safe_bind (safe_reading trivial so_far ?_)
  intro fault admitted unchanged
  refine safe_bind (safe_reading trivial unchanged ?_)
  intro fault' admitted' unchanged'
  split_ifs with opened
  · rw [Bool.and_eq_true] at opened
    have leftContent := openReading_content opened.1
    have rightContent := openReading_content opened.2
    rw [so_far.disk] at leftContent
    rw [unchanged.disk] at rightContent
    refine safe_seq (equalChunks_safe _ _ _ _ unchanged') (fun _ => id) ?_
    intro equal t unchangedT held
    refine safe_bind (safe_reading trivial unchangedT ?_)
    intro fault₁ admitted₁ unchanged₁
    refine safe_bind (safe_reading trivial unchanged₁ ?_)
    intro fault₂ admitted₂ unchanged₂
    refine safe_pure unchanged₂ ⟨?_, ?_⟩
    · intro all
      rw [Bool.and_eq_true, Bool.and_eq_true] at all
      rw [leftContent, rightContent, held.1 all.1.1]
      exact ⟨rfl, rfl⟩
    · intro reliable same _
      rw [leftContent, rightContent, Option.some.injEq] at same
      rw [held.2 reliable (Nat.lt_of_lt_of_le (Nat.lt_succ_self _) (by simp only [roundsFor, chunkSize]; omega)) same,
        reliable.works unchangedT.log admitted₁ (fun _ => nofun),
        reliable.works unchanged₁.log admitted₂ (fun _ => nofun)]
      rfl
  · refine safe_seq (closeReadingIf_reads _ _ unchanged') (fun _ => id) ?_
    intro _ t unchangedT _
    refine safe_seq (closeReadingIf_reads _ _ unchangedT) (fun _ => id) ?_
    intro _ u unchangedU _
    refine safe_pure unchangedU ⟨nofun, ?_⟩
    intro reliable same isThere
    refine absurd ?_ opened
    obtain rfl := reliable.works so_far.log admitted (fun _ => nofun)
    obtain rfl := reliable.works unchanged.log admitted' (fun _ => nofun)
    simp only [perform, Operation.working, so_far.disk, ← same, isThere, Bool.and_self]

variable {destination : FileName}

theorem writeSome_safe (bytes : Bytes) (m : Machine) (so_far : Beside destination start m) :
    Safe perform allowed (Beside destination start) (writeSome destination bytes)
      (fun written t => Reliable allowed start → ∀ content, m.disk.files destination = some content →
        written = true ∧ t.disk.files destination = some (content ++ bytes)) m := by
  unfold writeSome
  split_ifs with empty
  · refine safe_pure so_far ?_
    intro _ content there
    rw [empty, List.append_nil]
    exact ⟨rfl, there⟩
  · refine safe_bind (safe_writing rfl so_far ?_)
    intro fault admitted beside
    refine safe_pure beside ?_
    intro reliable content there
    rw [reliable.works so_far.log admitted (fun _ => nofun)]
    simp only [perform, Operation.working, there, plain, Option.isSome_some, Option.map_some, Disk.put_same, and_self]

/-- The end of a copy: nothing but the destination changed, and under no failure it is complete. -/
theorem copyChunks_safe (rounds : Nat) (stream : Bytes) (m : Machine) (so_far : Beside destination start m) :
    Safe perform allowed (Beside destination start) (copyChunks destination rounds stream)
      (fun copied t => Reliable allowed start → stream.length < rounds * chunkSize →
        ∀ content, m.disk.files destination = some content →
          copied = true ∧ t.disk.files destination = some (content ++ stream)) m := by
  induction rounds generalizing stream m with
  | zero =>
    refine safe_pure so_far ?_
    intro _ few
    omega
  | succ rounds ih =>
    refine safe_bind (safe_writing trivial so_far ?_)
    intro fault admitted beside
    have whole (reliable : Reliable allowed start) :
        (perform (.read stream chunkSize) fault m).1 = ⟨true, stream.take chunkSize⟩ := by
      rw [reliable.works so_far.log admitted (fun _ => nofun)]
      rfl
    have still : (perform (.read stream chunkSize) fault m).2.disk = m.disk := (perform_unchanged (show Operation.Reads (.read stream chunkSize) from trivial) fault m).disk
    refine safe_seq (writeSome_safe _ _ beside) (fun _ => id) ?_
    intro written t besideT appended
    split_ifs with isWritten last
    · refine safe_pure besideT ?_
      intro reliable _ content there
      rw [← still] at there
      obtain ⟨_, appended⟩ := appended reliable content there
      rw [whole reliable] at appended last ⊢
      rw [List.length_take] at last
      rw [List.take_of_length_le (by omega)] at appended
      exact ⟨rfl, appended⟩
    · refine safe_mono (ih (stream.drop chunkSize) t besideT) (fun _ => id) ?_
      intro copied u _ held reliable few content there
      rw [← still] at there
      obtain ⟨_, appended⟩ := appended reliable content there
      have fewer : (stream.drop chunkSize).length < rounds * chunkSize := by
        rw [whole reliable, List.length_take] at last
        rw [List.length_drop]
        simp only [chunkSize] at last few ⊢
        omega
      obtain ⟨isCopied, complete⟩ := held reliable fewer _ appended
      refine ⟨isCopied, ?_⟩
      rw [complete, whole reliable, List.append_assoc, List.take_append_drop]
    · refine safe_pure besideT ?_
      intro reliable _ content there
      rw [← still] at there
      exact absurd (appended reliable content there).1 isWritten

theorem verifyCopy_safe {source : FileName} (ok : Bool) (apart : source ≠ destination)
    (m : Machine) (so_far : Beside destination start m) :
    Safe perform allowed (Beside destination start) (verifyCopy ok source destination)
      (fun equal t =>
        (equal = true → t.disk.files destination = start.disk.files source ∧
          (start.disk.files source).isSome = true) ∧
        (Reliable allowed start → ok = true → m.disk.files destination = start.disk.files source →
          (start.disk.files source).isSome = true → equal = true)) m := by
  have sourceKept : m.disk.files source = start.disk.files source := so_far.files source apart
  cases ok with
  | false => exact safe_pure so_far ⟨nofun, fun _ isOk => nomatch isOk⟩
  | true =>
    refine safe_mono (filesEqual_safe source destination m (Unchanged.refl m))
      (fun t unchanged => so_far.trans unchanged.beside) ?_
    intro equal t unchanged held
    rw [sourceKept] at held
    refine ⟨?_, ?_⟩
    · intro isEqual
      rw [unchanged.disk]
      exact ⟨(held.1 isEqual).1.symm, (held.1 isEqual).2⟩
    · intro reliable _ same isThere
      exact held.2 (reliable.grown so_far.log) same.symm isThere

theorem closeReadingIf_safe (opened : Bool) (m : Machine) (so_far : Beside path start m) :
    Safe perform allowed (Beside path start) (closeReadingIf opened) (fun _ _ => True) m :=
  safe_mono (closeReadingIf_reads opened m (Unchanged.refl m))
    (fun _ unchanged => so_far.trans unchanged.beside) (fun _ _ _ => id)

theorem closeWritingIf_safe (opened : Bool) (m : Machine) (so_far : Beside path start m) :
    Safe perform allowed (Beside path start) (closeWritingIf opened path) (fun _ _ => True) m := by
  cases opened with
  | false => exact safe_pure so_far trivial
  | true =>
    refine safe_bind (safe_writing rfl so_far ?_)
    intro _ _ beside
    exact safe_pure beside trivial

/-- A verified copy is complete, and it is made when no operation fails. -/
theorem copyFileVerified_safe {source : FileName} (apart : source ≠ destination)
    (m : Machine) (so_far : Beside destination start m) :
    Safe perform allowed (Beside destination start) (copyFileVerified source destination)
      (fun copied t =>
        (copied = true → t.disk.files destination = start.disk.files source ∧
          (start.disk.files source).isSome = true) ∧
        (Reliable allowed start → start.disk.notebooks = true → (start.disk.files source).isSome = true →
          copied = true)) m := by
  refine safe_bind (safe_writing trivial so_far ?_)
  intro fault admitted beside
  refine safe_bind (safe_writing rfl beside ?_)
  intro fault' admitted' beside'
  have sourceKept : m.disk.files source = start.disk.files source := so_far.files source apart
  split_ifs with opened
  · rw [Bool.and_eq_true] at opened
    have content := openReading_content opened.1
    have empty := openWriting_content opened.2
    rw [sourceKept] at content
    refine safe_seq (copyChunks_safe _ _ _ beside') (fun _ => id) ?_
    intro copied t besideT complete
    refine safe_bind (safe_writing trivial besideT ?_)
    intro fault₁ admitted₁ beside₁
    refine safe_bind (safe_writing rfl beside₁ ?_)
    intro fault₂ admitted₂ beside₂
    refine safe_seq (verifyCopy_safe _ apart _ beside₂) (fun _ => id) ?_
    intro ok u besideU verified
    have closed (reliable : Reliable allowed start) (isThere : (start.disk.files source).isSome = true) :
        ok = true := by
      have few : (perform (.openReading source) fault m).1.bytes.length <
          roundsFor (perform (.openReading source) fault m).1.bytes.length * chunkSize := by
        simp only [roundsFor, chunkSize]
        omega
      obtain ⟨isCopied, whole⟩ := complete reliable few _ empty
      obtain rfl := reliable.works besideT.log admitted₁ (fun _ => nofun)
      obtain rfl := reliable.works beside₁.log admitted₂ (fun _ => nofun)
      exact verified.2 reliable (by rw [isCopied]; rfl) (whole.trans content.symm) isThere
    split_ifs with isOk
    · exact safe_pure besideU ⟨fun _ => verified.1 isOk, fun _ _ _ => rfl⟩
    · refine safe_bind (safe_writing rfl besideU ?_)
      intro _ _ besideV
      exact safe_pure besideV ⟨nofun, fun reliable _ isThere => absurd (closed reliable isThere) isOk⟩
  · refine safe_seq (closeReadingIf_safe _ _ beside') (fun _ => id) ?_
    intro _ t besideT _
    refine safe_seq (closeWritingIf_safe _ _ besideT) (fun _ => id) ?_
    intro _ u besideU _
    refine safe_bind (safe_writing rfl besideU ?_)
    intro _ _ besideV
    refine safe_pure besideV ⟨nofun, ?_⟩
    intro reliable folder isThere
    refine absurd ?_ opened
    obtain rfl := reliable.works so_far.log admitted (fun _ => nofun)
    obtain rfl := reliable.works beside.log admitted' (fun _ => nofun)
    have folder' : m.disk.notebooks = true := so_far.notebooks folder
    simp only [perform, Operation.working, sourceKept, isThere, folder', if_true, plain, Bool.and_self]

end

end PhyNspire.Storage

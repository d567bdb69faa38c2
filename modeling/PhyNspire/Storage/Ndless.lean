import PhyNspire.Lib.Interrupts
import PhyNspire.Platform
import PhyNspire.Storage.Names

/-!
The device's disk and the file operations of the save, each of which may fail. The notebook
directory is a map from names to bytes. A failed operation changes nothing but what it was
writing, of which it may leave any beginning; a failed close may likewise lose the end of what
had been written, so every disk that a stop can leave behind is the result of some failure.
What is written may also be cut short without a report, which is what the read-back is for.
-/

namespace PhyNspire.Storage

open PhyNspire.Lib.Interrupts

abbrev Bytes := List UInt8

/-- The two directories the backend creates. -/
inductive Folder where
  | parent
  | notebooks
deriving DecidableEq, Repr

structure Disk where
  parent : Bool
  notebooks : Bool
  files : FileName → Option Bytes

/-- An open stream is what it still has to deliver; a stream being written is its file. -/
inductive Operation where
  | opendir (folder : Folder)
  | closedir
  | mkdir (folder : Folder)
  | openReading (path : FileName)
  | openWriting (path : FileName)
  | read (stream : Bytes) (count : Nat)
  | nextByte (stream : Bytes)
  | write (path : FileName) (bytes : Bytes)
  | closeReading
  | closeWriting (path : FileName)
  | rename (source destination : FileName)
  | remove (path : FileName)
deriving DecidableEq, Repr

/-- How the world answers an operation. Of a failed transfer the first `kept` bytes arrive, and
a write or a close that falls `short` does not say so; any other operation just fails. -/
inductive Fault where
  | works
  | fails (kept : Nat)
  | short (kept : Nat)
deriving DecidableEq, Repr

/-- `ok` is the success of the call, `bytes` what a read delivers or a new stream will deliver. -/
structure Answer where
  ok : Bool
  bytes : Bytes
deriving DecidableEq, Repr

def Disk.put (disk : Disk) (path : FileName) (content : Option Bytes) : Disk :=
  { disk with files := fun name => if name = path then content else disk.files name }

@[simp] theorem Disk.put_same (disk : Disk) (path : FileName) (content : Option Bytes) :
    (disk.put path content).files path = content := if_pos rfl

theorem Disk.put_other {disk : Disk} {path name : FileName} {content : Option Bytes} (other : name ≠ path) :
    (disk.put path content).files name = disk.files name := if_neg other

@[simp] theorem Disk.put_notebooks (disk : Disk) (path : FileName) (content : Option Bytes) :
    (disk.put path content).notebooks = disk.notebooks := rfl

/-- An answer without data. -/
def plain (ok : Bool) : Answer := ⟨ok, []⟩

def Disk.holds (disk : Disk) : Folder → Bool
  | .parent => disk.parent
  | .notebooks => disk.notebooks

def Disk.create (disk : Disk) : Folder → Disk
  | .parent => { disk with parent := true }
  | .notebooks => { disk with notebooks := disk.notebooks || disk.parent }

@[simp] theorem Disk.create_files (disk : Disk) (folder : Folder) :
    (disk.create folder).files = disk.files := by
  cases folder <;> rfl

/-- What an operation that works does; it can still be refused, for want of a file. -/
def Operation.working (disk : Disk) : Operation → Answer × Disk
  | opendir folder => (plain (disk.holds folder), disk)
  | closedir => (plain true, disk)
  | mkdir folder => (plain ((disk.create folder).holds folder), disk.create folder)
  | openReading path => (⟨(disk.files path).isSome, (disk.files path).getD []⟩, disk)
  | openWriting path => if disk.notebooks then (plain true, disk.put path (some [])) else (plain false, disk)
  | read stream count => (⟨true, stream.take count⟩, disk)
  | nextByte stream => (⟨true, stream.take 1⟩, disk)
  | write path bytes => (plain (disk.files path).isSome, disk.put path ((disk.files path).map (· ++ bytes)))
  | closeReading => (plain true, disk)
  | closeWriting _ => (plain true, disk)
  | rename source destination =>
    if (disk.files source).isSome then
      (plain true, (disk.put source none).put destination (disk.files source))
    else (plain false, disk)
  | remove path => (plain (disk.files path).isSome, disk.put path none)

def Operation.failing (disk : Disk) (kept : Nat) : Operation → Answer × Disk
  | read stream count => (⟨false, stream.take (min kept (count - 1))⟩, disk)
  | write path bytes => (plain false, disk.put path ((disk.files path).map (· ++ bytes.take kept)))
  | closeWriting path => (plain false, disk.put path ((disk.files path).map (List.take kept)))
  | _ => (plain false, disk)

def Operation.shortened (disk : Disk) (kept : Nat) : Operation → Answer × Disk
  | write path bytes => (plain true, disk.put path ((disk.files path).map (· ++ bytes.take kept)))
  | closeWriting path => (plain true, disk.put path ((disk.files path).map (List.take kept)))
  | other => other.failing disk kept

/-- The disk, and what the running call has done with it. -/
structure Machine where
  disk : Disk
  log : List (Operation × Fault)

def perform (op : Operation) (fault : Fault) (machine : Machine) : Answer × Machine :=
  let effect := match fault with
    | .works => op.working machine.disk
    | .fails kept => op.failing machine.disk kept
    | .short kept => op.shortened machine.disk kept
  (effect.1, ⟨effect.2, machine.log ++ [(op, fault)]⟩)

abbrev Code := Program Operation Answer

abbrev call (op : Operation) : Code Answer := Program.call op

/-!
The Ndless storage backend. A save replaces a document by way of one temporary and one backup
file, both read back before they are trusted; a first save writes the document itself.
-/

open PhyNspire.Platform

def storagePathCapacity : Nat := 128

def notebookDirectory : FileName := leaf "/documents/phy-nspire/notebooks"

def documentMaxBytes : Nat := 128 * 1024

/-- Whether the path of a leaf fits; the leaf stands for its path from here on. -/
def makePath (name : FileName) : Option FileName :=
  if storagePathCapacity < notebookDirectory.length + 1 + name.length + 1 then none else some name

def directoryExists (folder : Folder) : Code Bool := do
  let directory ← call (.opendir folder)
  if directory.ok then do
    let _ ← call .closedir
    pure true
  else pure false

def makeUnlessPresent (folder : Folder) : Code Unit := do
  let present ← directoryExists folder
  if present then pure ()
  else do
    let _ ← call (.mkdir folder)
    pure ()

def ensureNotebookDirectory : Code Status := do
  makeUnlessPresent .parent
  makeUnlessPresent .notebooks
  let present ← directoryExists .notebooks
  pure (if present then .ok else .backend)

def writeTemporary (path : FileName) (buffer : Bytes) : Code Status := do
  let file ← call (.openWriting path)
  if file.ok then do
    let written ← call (.write path buffer)
    let closed ← call (.closeWriting path)
    if written.ok && closed.ok then pure .ok
    else do
      let _ ← call (.remove path)
      pure .backend
  else pure .backend

/-- The size of the stack buffers through which files are read. -/
def chunkSize : Nat := 256

def roundsFor (length : Nat) : Nat := length / chunkSize + 1

/-- The loop that compares a stream with a buffer; it returns what the stream has left. -/
def matchChunks : Nat → Bytes → Bytes → Code (Bool × Bytes)
  | 0, stream, _ => pure (true, stream)
  | rounds + 1, stream, expected =>
    if expected = [] then pure (true, stream)
    else do
      let count := min expected.length chunkSize
      let got ← call (.read stream count)
      if got.bytes = expected.take count then
        matchChunks rounds (stream.drop count) (expected.drop count)
      else pure (false, stream)

/-- `ok && fgetc(file) != EOF`. -/
def streamEnds (ok : Bool) (stream : Bytes) : Code Bool :=
  if ok then do
    let last ← call (.nextByte stream)
    pure (decide (last.bytes = []))
  else pure false

def fileMatchesBuffer (path : FileName) (buffer : Bytes) : Code Bool := do
  let file ← call (.openReading path)
  if file.ok then do
    let matched ← matchChunks (roundsFor buffer.length) file.bytes buffer
    let ended ← streamEnds matched.1 matched.2
    let closed ← call .closeReading
    pure (ended && closed.ok)
  else pure false

def writeVerified (path : FileName) (buffer : Bytes) : Code Status := do
  let status ← writeTemporary path buffer
  if status = .ok then do
    let matched ← fileMatchesBuffer path buffer
    if matched then pure .ok
    else do
      let _ ← call (.remove path)
      pure .backend
  else pure status

/-- The loop that compares two streams. -/
def equalChunks : Nat → Bytes → Bytes → Code Bool
  | 0, _, _ => pure false
  | rounds + 1, left, right => do
    let leftGot ← call (.read left chunkSize)
    let rightGot ← call (.read right chunkSize)
    if leftGot.bytes = rightGot.bytes then
      if leftGot.bytes.length < chunkSize then pure (leftGot.ok && rightGot.ok)
      else equalChunks rounds (left.drop chunkSize) (right.drop chunkSize)
    else pure false

def closeReadingIf (opened : Bool) : Code Unit :=
  if opened then do
    let _ ← call .closeReading
    pure ()
  else pure ()

def filesEqual (leftPath rightPath : FileName) : Code Bool := do
  let left ← call (.openReading leftPath)
  let right ← call (.openReading rightPath)
  if left.ok && right.ok then do
    let equal ← equalChunks (roundsFor left.bytes.length) left.bytes right.bytes
    let leftClose ← call .closeReading
    let rightClose ← call .closeReading
    pure (equal && leftClose.ok && rightClose.ok)
  else do
    closeReadingIf left.ok
    closeReadingIf right.ok
    pure false

/-- `fwrite` of a chunk, unless it is empty. -/
def writeSome (destination : FileName) (bytes : Bytes) : Code Bool :=
  if bytes = [] then pure true
  else do
    let written ← call (.write destination bytes)
    pure written.ok

def copyChunks (destination : FileName) : Nat → Bytes → Code Bool
  | 0, _ => pure false
  | rounds + 1, stream => do
    let got ← call (.read stream chunkSize)
    let written ← writeSome destination got.bytes
    if written then
      if got.bytes.length < chunkSize then pure got.ok
      else copyChunks destination rounds (stream.drop chunkSize)
    else pure false

def closeWritingIf (opened : Bool) (destination : FileName) : Code Unit :=
  if opened then do
    let _ ← call (.closeWriting destination)
    pure ()
  else pure ()

/-- `if (ok) ok = files_equal(source, destination)`. -/
def verifyCopy (ok : Bool) (source destination : FileName) : Code Bool :=
  if ok then filesEqual source destination else pure false

def copyFileVerified (source destination : FileName) : Code Bool := do
  let input ← call (.openReading source)
  let output ← call (.openWriting destination)
  if input.ok && output.ok then do
    let copied ← copyChunks destination (roundsFor input.bytes.length) input.bytes
    let inputClose ← call .closeReading
    let outputClose ← call (.closeWriting destination)
    let ok ← verifyCopy (copied && inputClose.ok && outputClose.ok) source destination
    if ok then pure true
    else do
      let _ ← call (.remove destination)
      pure false
  else do
    closeReadingIf input.ok
    closeWritingIf output.ok destination
    let _ ← call (.remove destination)
    pure false

def regularFileExists (path : FileName) : Code Bool := do
  let file ← call (.openReading path)
  if file.ok then do
    let _ ← call .closeReading
    pure true
  else pure false

def saveFirst (destination : FileName) (buffer : Bytes) : Code Status := do
  let status ← writeVerified destination buffer
  if status = .ok then pure .ok
  else do
    let _ ← call (.remove destination)
    pure status

/-- `rename(destination, backup)`, or else a copy. -/
def setAside (destination : FileName) : Code Bool := do
  let moved ← call (.rename destination backupName)
  if moved.ok then pure true else copyFileVerified destination backupName

/-- `rename(temporary, destination) == 0 && file_matches_buffer(...)`. -/
def moveInto (destination : FileName) (buffer : Bytes) : Code Bool := do
  let moved ← call (.rename temporaryName destination)
  if moved.ok then fileMatchesBuffer destination buffer else pure false

def install (destination : FileName) (buffer : Bytes) : Code Bool := do
  let installed ← moveInto destination buffer
  if installed then pure true
  else do
    let status ← writeVerified destination buffer
    pure (decide (status = .ok))

/-- The way back when the new document could not be installed. -/
def restore (destination : FileName) : Code Unit := do
  let _ ← call (.remove destination)
  let moved ← call (.rename backupName destination)
  if moved.ok then pure ()
  else do
    let restored ← copyFileVerified backupName destination
    if restored then do
      let _ ← call (.remove backupName)
      pure ()
    else pure ()

/-- The part of a replacement that follows a complete backup. -/
def exchange (destination : FileName) (buffer : Bytes) : Code Status := do
  let installed ← install destination buffer
  if installed then do
    let _ ← call (.remove temporaryName)
    let _ ← call (.remove backupName)
    pure .ok
  else do
    restore destination
    let _ ← call (.remove temporaryName)
    pure .backend

def saveOver (destination : FileName) (buffer : Bytes) : Code Status := do
  let _ ← call (.remove temporaryName)
  let _ ← call (.remove backupName)
  let status ← writeVerified temporaryName buffer
  if status = .ok then do
    let backupReady ← setAside destination
    if backupReady then exchange destination buffer
    else do
      let _ ← call (.remove temporaryName)
      pure .backend
  else pure status

/-- The save proper, once the arguments and the directory are in order. -/
def saveTo (destination : FileName) (buffer : Bytes) : Code Status := do
  let hadPrevious ← regularFileExists destination
  if hadPrevious then saveOver destination buffer else saveFirst destination buffer

/-- `phy_storage_write_notebook_atomic`; `none` is a NULL buffer. -/
def writeNotebookAtomic (name : FileName) : Option Bytes → Code Status
  | none => pure .invalidArgument
  | some buffer =>
    if storageNameValid name = false ∨ buffer.length = 0 then pure .invalidArgument
    else if documentMaxBytes < buffer.length then pure .termLimit
    else do
      let status ← ensureNotebookDirectory
      if status = .ok then
        match makePath name with
        | none => pure .termLimit
        | some destination => saveTo destination buffer
      else pure status

end PhyNspire.Storage

import PhyNspire.Notebook.Sessions
import PhyNspire.Storage.Names

/-!
The current notebook and its file name. What the storage layer and the allocator answer is not under
the program's control: every event of the application comes with answers of its own.
-/

namespace PhyNspire.App

open PhyNspire.Platform PhyNspire.Eval PhyNspire.Storage
open PhyNspire.Notebook hiding perform

variable {Context Ref Value : Type}

abbrev Failure := { status : Status // status ≠ .ok }

/-- The answers of the outside during one event: a catalog and a suggested name, the size of a document
(for a call without a buffer, which never succeeds: it sets the size or fails otherwise) and its bytes,
the status of a write, and one allocator for each transaction. -/
structure Outside where
  listing : Status × List FileName
  suggestion : Status × FileName
  readSize : Except Failure Nat
  read : Status × List UInt8
  write : Status
  newHeap : Heap
  openHeap : Heap
  saveHeap : Heap

/-- The engines, the checks of `phy_ir_validate`, and the width of `size_t`. -/
structure Machinery (Context Ref Value : Type) where
  engine : Engine Context Ref Value
  validate : Context → Status
  size : SizeT

structure Workspace (Context Ref : Type) where
  notebook : Notebook Context Ref
  filename : Option FileName

def copyFilename (workspace : Workspace Context Ref) (name : FileName) : Except Status (Workspace Context Ref) :=
  if storageNameValid name = false then .error .invalidArgument else .ok { workspace with filename := some name }

variable (machinery : Machinery Context Ref Value)

def workspaceNew (workspace : Workspace Context Ref) (outside : Outside) : Status × Workspace Context Ref :=
  match notebookCreate machinery.engine outside.newHeap with
  | (none, _) => (.outOfMemory, workspace)
  | (some replacement, _) => (.ok, ⟨markClean replacement, none⟩)

/-- `phy_workspace_save`; without a name the file is the current one. -/
def workspaceSave (workspace : Workspace Context Ref) (name : Option FileName) (outside : Outside) :
    Status × Workspace Context Ref :=
  match name.or workspace.filename with
  | none => (.invalidArgument, workspace)
  | some destination =>
    if storageNameValid destination = false then (.invalidArgument, workspace)
    else
      match documentRequiredSize machinery.engine workspace.notebook with
      | .error status => (status, workspace)
      | .ok size =>
        if outside.saveHeap.alloc.1 = false then (.outOfMemory, workspace)
        else
          match serialize machinery.engine workspace.notebook size with
          | .error status => (status, workspace)
          | .ok _ =>
            if outside.write ≠ .ok then (outside.write, workspace)
            else
              match copyFilename workspace destination with
              | .error status => (status, workspace)
              | .ok named => (.ok, { named with notebook := markClean named.notebook })

/-- `phy_workspace_open`: the document is first measured, and then read. -/
def workspaceOpen (workspace : Workspace Context Ref) (name : FileName) (outside : Outside) :
    Status × Workspace Context Ref :=
  if storageNameValid name = false then (.invalidArgument, workspace)
  else
    match outside.readSize with
    | .error failure => (failure.1, workspace)
    | .ok size =>
      if size = 0 then (.invalidArgument, workspace)
      else if outside.openHeap.alloc.1 = false then (.outOfMemory, workspace)
      else if outside.read.1 ≠ .ok then (outside.read.1, workspace)
      else
        let opened := deserialize machinery.size.bits machinery.engine machinery.validate outside.read.2
          outside.openHeap.alloc.2
        match opened.outNotebook, opened.stop with
        | some replacement, none =>
          match copyFilename workspace name with
          | .error status => (status, workspace)
          | .ok named => (.ok, { named with notebook := replacement })
        | _, some (.refused status) => (status, workspace)
        -- a decoder that has read outside of the document has no defined ending; it is taken as a refusal
        | _, _ => (.corruptDocument, workspace)

end PhyNspire.App

import Mathlib.Data.List.Basic

/-!
Names of notebook documents. A document is a leaf of one fixed directory; the two working
files of a save and the copies parked by the deploy tool live beside the documents and are
never names of their own.
-/

namespace PhyNspire.Storage

abbrev FileName := List UInt8

/-- The bytes of a character literal of the source. -/
def byteOf (c : Char) : UInt8 := UInt8.ofNat c.toNat

def leaf (literal : String) : FileName := literal.toList.map byteOf

def nameCapacity : Nat := 48

def temporaryName : FileName := leaf "phy-save-new.tns"

def backupName : FileName := leaf "phy-save-backup.tns"

def asciiLower (c : UInt8) : UInt8 :=
  if byteOf 'A' ≤ c ∧ c ≤ byteOf 'Z' then c + (byteOf 'a' - byteOf 'A') else c

def endsWithTns (name : FileName) : Bool :=
  let length := name.length
  decide (4 ≤ length) && name.getD (length - 4) 0 == byteOf '.' &&
    asciiLower (name.getD (length - 3) 0) == byteOf 't' &&
    asciiLower (name.getD (length - 2) 0) == byteOf 'n' &&
    asciiLower (name.getD (length - 1) 0) == byteOf 's'

def nameEqualFolded : FileName → FileName → Bool
  | left :: lefts, right :: rights => asciiLower left == asciiLower right && nameEqualFolded lefts rights
  | [], [] => true
  | _, _ => false

def endsWithFolded (name suffix : FileName) : Bool :=
  if name.length < suffix.length then false
  else nameEqualFolded (name.drop (name.length - suffix.length)) suffix

/-- The loop over the characters of a name: an allowed character, and no two dots in a row. -/
def charactersValid : FileName → Bool
  | [] => true
  | c :: rest =>
    let alpha := (byteOf 'A' ≤ c ∧ c ≤ byteOf 'Z') ∨ (byteOf 'a' ≤ c ∧ c ≤ byteOf 'z')
    let digit := byteOf '0' ≤ c ∧ c ≤ byteOf '9'
    decide (alpha ∨ digit ∨ c = byteOf ' ' ∨ c = byteOf '-' ∨ c = byteOf '_' ∨ c = byteOf '.') &&
      !decide (c = byteOf '.' ∧ rest.head? = some (byteOf '.')) && charactersValid rest

def storageNameValid (name : FileName) : Bool :=
  if name.length < 5 ∨ nameCapacity ≤ name.length ∨ name.head? = some (byteOf '.') ∨
      name.head? = some (byteOf ' ') ∨ name.getLast? = some (byteOf ' ') ∨ endsWithTns name = false then
    false
  else if nameEqualFolded name temporaryName || nameEqualFolded name backupName then false
  else if endsWithFolded name (leaf ".previous.tns") || endsWithFolded name (leaf ".upload.tns") then false
  else charactersValid name

theorem nameEqualFolded_self (name : FileName) : nameEqualFolded name name = true := by
  induction name with
  | nil => rfl
  | cons c rest ih => rw [nameEqualFolded, ih, beq_self_eq_true, Bool.and_self]

theorem storageNameValid_apart {name : FileName} (valid : storageNameValid name = true) :
    name ≠ temporaryName ∧ name ≠ backupName := by
  unfold storageNameValid at valid
  split_ifs at valid with shape working
  rw [Bool.or_eq_true, not_or] at working
  refine ⟨?_, ?_⟩
  · rintro rfl
    exact working.1 (nameEqualFolded_self _)
  · rintro rfl
    exact working.2 (nameEqualFolded_self _)

theorem storageNameValid_length {name : FileName} (valid : storageNameValid name = true) :
    name.length < nameCapacity := by
  unfold storageNameValid at valid
  split_ifs at valid with shape working
  rw [not_or, not_or] at shape
  exact Nat.lt_of_not_le shape.2.1

example : storageNameValid (leaf "notes.tns") = true := by decide
example : storageNameValid (leaf "PHY-SAVE-BACKUP.TNS") = false := by decide

end PhyNspire.Storage

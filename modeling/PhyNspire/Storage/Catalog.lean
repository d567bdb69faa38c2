import Mathlib.Data.Fintype.Pigeonhole
import Mathlib.Data.List.GetD
import PhyNspire.Storage.Ndless

/-!
The catalog of the notebook directory and the name that a first save proposes. The catalog keeps the
first sixteen valid names the directory delivers, in folded order; the proposal is the first numbered
name that is not in the catalog.
-/

namespace PhyNspire.Storage

open PhyNspire.Platform
open PhyNspire.Lib.Interrupts

def maxFiles : Nat := 16

def nameCompare : FileName → FileName → Int
  | left :: lefts, right :: rights =>
    if asciiLower left ≠ asciiLower right then (if asciiLower left < asciiLower right then -1 else 1)
    else nameCompare lefts rights
  | [], [] => 0
  | [], _ :: _ => -1
  | _ :: _, [] => 1

/-- `phy_storage_catalog`. -/
structure Catalog where
  entries : List FileName
  truncated : Bool
  within : entries.length ≤ maxFiles
deriving Repr

def Catalog.empty : Catalog := ⟨[], false, Nat.zero_le _⟩

/-- The loop that moves later entries out of the way. -/
def insertPosition (entries : List FileName) (name : FileName) : Nat → Nat
  | 0 => 0
  | position + 1 =>
    if nameCompare name (entries.getD position []) < 0 then insertPosition entries name position else position + 1

theorem insertPosition_le (entries : List FileName) (name : FileName) (count : Nat) :
    insertPosition entries name count ≤ count := by
  induction count with
  | zero => exact Nat.le_refl _
  | succ count ih =>
    unfold insertPosition
    split
    · exact ih.trans (Nat.le_succ count)
    · exact Nat.le_refl _

def catalogInsert (catalog : Catalog) (name : FileName) : Catalog :=
  if room : maxFiles ≤ catalog.entries.length then { catalog with truncated := true }
  else
    { catalog with
      entries := catalog.entries.insertIdx (insertPosition catalog.entries name catalog.entries.length) name
      within := by
        rw [List.length_insertIdx_of_le_length (insertPosition_le _ _ _)]
        exact Nat.not_le.mp room }

/-- The `readdir` loop. -/
def catalogOf (listing : List FileName) : Catalog :=
  listing.foldl (fun catalog name => if storageNameValid name then catalogInsert catalog name else catalog) .empty

structure Directory where
  names : List FileName
  distinct : names.Nodup

def listNotebooks (directory : Directory) : Code (Status × Catalog) := do
  let status ← ensureNotebookDirectory
  if status = .ok then do
    let opened ← call (.opendir .notebooks)
    if opened.ok then do
      let _ ← call .closedir
      pure (.ok, catalogOf directory.names)
    else pure (.backend, .empty)
  else pure (status, .empty)

def catalogContains (catalog : Catalog) (name : FileName) : Bool :=
  catalog.entries.any fun entry => nameEqualFolded entry name

def digitOf (number : Nat) : UInt8 := byteOf '0' + UInt8.ofNat (number % 10)

def formatSuggestion (number : Nat) : FileName :=
  leaf "Notebook-" ++ [digitOf (number / 100), digitOf (number / 10), digitOf number] ++ leaf ".tns"

def suggestFrom (catalog : Catalog) : Nat → Nat → Status × FileName
  | 0, _ => (.termLimit, [])
  | rounds + 1, number =>
    if catalogContains catalog (formatSuggestion number) then suggestFrom catalog rounds (number + 1)
    else (.ok, formatSuggestion number)

def storageSuggestName (catalog : Catalog) : Status × FileName := suggestFrom catalog 999 1

def workspaceSuggestName (directory : Directory) : Code (Status × FileName) := do
  let listed ← listNotebooks directory
  if listed.1 = .ok then pure (storageSuggestName listed.2) else pure (listed.1, [])

def folded (name : FileName) : FileName := name.map asciiLower

theorem nameEqualFolded_iff (left right : FileName) : nameEqualFolded left right = true ↔ folded left = folded right := by
  induction left generalizing right with
  | nil => cases right <;> simp [nameEqualFolded, folded]
  | cons c rest ih =>
    cases right with
    | nil => simp [nameEqualFolded, folded]
    | cons d others =>
      rw [nameEqualFolded, Bool.and_eq_true, beq_iff_eq, ih]
      simp [folded]

theorem nameCompare_neg_iff (left right : FileName) : nameCompare left right < 0 ↔ folded left < folded right := by
  induction left generalizing right with
  | nil => cases right <;> simp [nameCompare, folded]
  | cons c rest ih =>
    cases right with
    | nil => simp [nameCompare, folded]
    | cons d others =>
      rw [folded, folded, List.map_cons, List.map_cons, List.cons_lt_cons_iff]
      unfold nameCompare
      by_cases same : asciiLower c = asciiLower d
      · rw [if_neg (not_not.mpr same), ih, same]
        simp [folded]
      · rw [if_pos same]
        split
        · rename_i below
          simp [below]
        · rename_i notBelow
          simp [notBelow, same]

theorem nameCompare_nonpos_iff (left right : FileName) : nameCompare left right ≤ 0 ↔ folded left ≤ folded right := by
  induction left generalizing right with
  | nil => cases right <;> simp [nameCompare, folded]
  | cons c rest ih =>
    cases right with
    | nil => simp [nameCompare, folded]
    | cons d others =>
      rw [folded, folded, List.map_cons, List.map_cons, List.cons_le_cons_iff]
      unfold nameCompare
      by_cases same : asciiLower c = asciiLower d
      · rw [if_neg (not_not.mpr same), ih, same]
        simp [folded]
      · rw [if_pos same]
        split
        · rename_i below
          simp [below]
        · rename_i notBelow
          simp [notBelow, same]

def Ordered (entries : List FileName) : Prop := entries.Pairwise fun earlier later => nameCompare earlier later ≤ 0

theorem nameCompare_trans {first second third : FileName} (lower : nameCompare first second ≤ 0)
    (upper : nameCompare second third ≤ 0) : nameCompare first third ≤ 0 := by
  rw [nameCompare_nonpos_iff] at lower upper ⊢
  exact List.le_trans lower upper

theorem nameCompare_flip {first second : FileName} (above : ¬nameCompare first second < 0) :
    nameCompare second first ≤ 0 := by
  rw [nameCompare_neg_iff] at above
  rw [nameCompare_nonpos_iff]
  exact List.not_lt.mp above

theorem nameCompare_of_neg {first second : FileName} (below : nameCompare first second < 0) :
    nameCompare first second ≤ 0 := below.le

variable {entries : List FileName} {name : FileName}

theorem insertIdx_split {position : Nat} (inside : position ≤ entries.length) :
    entries.insertIdx position name = entries.take position ++ name :: entries.drop position := by
  induction position generalizing entries with
  | zero => rfl
  | succ position ih =>
    cases entries with
    | nil => cases inside
    | cons first rest =>
      rw [List.insertIdx_succ_cons, ih (Nat.le_of_succ_le_succ inside)]
      rfl

theorem insertPosition_later {count place : Nat} (after : insertPosition entries name count ≤ place) (below : place < count) :
    nameCompare name (entries.getD place []) < 0 := by
  induction count with
  | zero => cases below
  | succ count ih =>
    unfold insertPosition at after
    split at after
    · rename_i later
      obtain rfl | earlier := Nat.eq_or_lt_of_le (Nat.le_of_lt_succ below)
      · exact later
      · exact ih after earlier
    · omega

theorem insertPosition_earlier {count place : Nat} (here : insertPosition entries name count = place + 1) :
    ¬nameCompare name (entries.getD place []) < 0 := by
  induction count with
  | zero => cases here
  | succ count ih =>
    unfold insertPosition at here
    split at here
    · exact ih here
    · rename_i notLater
      obtain rfl := Nat.succ.inj here
      exact notLater

theorem ordered_insert (ordered : Ordered entries) :
    Ordered (entries.insertIdx (insertPosition entries name entries.length) name) := by
  have inside := insertPosition_le entries name entries.length
  generalize place_eq : insertPosition entries name entries.length = place at inside
  rw [insertIdx_split inside]
  have split : Ordered (entries.take place ++ entries.drop place) := by rwa [List.take_append_drop]
  obtain ⟨earlier, later, across⟩ := List.pairwise_append.mp split
  have above : ∀ entry ∈ entries.drop place, nameCompare name entry ≤ 0 := by
    intro entry member
    obtain ⟨offset, bound, rfl⟩ := List.mem_iff_getElem.mp member
    rw [List.length_drop] at bound
    rw [List.getElem_drop, ← List.getD_eq_getElem _ []]
    exact nameCompare_of_neg (insertPosition_later (place_eq.le.trans (Nat.le_add_right _ _)) (by omega))
  have under : ∀ entry ∈ entries.take place, nameCompare entry name ≤ 0 := by
    cases place with
    | zero => simp
    | succ place =>
      have last : nameCompare (entries.getD place []) name ≤ 0 := nameCompare_flip (insertPosition_earlier place_eq)
      intro entry member
      rw [List.take_succ_eq_append_getElem inside, List.mem_append, List.mem_singleton,
        ← List.getD_eq_getElem _ []] at member
      rcases member with before | here
      · have here : entries.getD place [] ∈ entries.take (place + 1) := by
          rw [List.take_succ_eq_append_getElem inside, List.getD_eq_getElem _ _ inside]
          exact List.mem_append_right _ List.mem_cons_self
        rw [List.take_succ_eq_append_getElem inside] at earlier
        have order := (List.pairwise_append.mp earlier).2.2 entry before _ List.mem_cons_self
        rw [← List.getD_eq_getElem _ []] at order
        exact nameCompare_trans order last
      · exact here ▸ last
  apply List.pairwise_append.mpr
  refine ⟨earlier, List.pairwise_cons.mpr ⟨above, later⟩, ?_⟩
  intro entry before other after
  rcases List.mem_cons.mp after with rfl | after
  · exact under entry before
  · exact across entry before other after

def inserted (catalog : Catalog) (names : List FileName) : Catalog := names.foldl catalogInsert catalog

theorem catalogOf_eq (listing : List FileName) : catalogOf listing = inserted .empty (listing.filter storageNameValid) := by
  rw [inserted, List.foldl_filter]
  rfl

theorem inserted_ordered {catalog : Catalog} (names : List FileName) (ordered : Ordered catalog.entries) :
    Ordered (inserted catalog names).entries := by
  induction names generalizing catalog with
  | nil => exact ordered
  | cons name rest ih =>
    apply ih
    unfold catalogInsert
    split
    · exact ordered
    · exact ordered_insert ordered

theorem inserted_perm (catalog : Catalog) (names : List FileName) :
    (inserted catalog names).entries.Perm (catalog.entries ++ names.take (maxFiles - catalog.entries.length)) := by
  induction names generalizing catalog with
  | nil => rw [List.take_nil, List.append_nil]; exact List.Perm.refl _
  | cons name rest ih =>
    apply (ih (catalogInsert catalog name)).trans
    unfold catalogInsert
    split
    · rename_i full
      rw [Nat.sub_eq_zero_of_le full, List.take_zero, List.take_zero]
    · rename_i room
      have inside := insertPosition_le catalog.entries name catalog.entries.length
      obtain ⟨more, room_eq⟩ := Nat.exists_eq_add_of_lt (Nat.not_le.mp room)
      have left : maxFiles - catalog.entries.length = more + 1 := by omega
      dsimp only
      rw [List.length_insertIdx_of_le_length inside, left, List.take_succ_cons, Nat.sub_add_eq, left, Nat.add_sub_cancel]
      apply ((List.perm_insertIdx name catalog.entries inside).append_right _).trans
      exact List.perm_middle.symm

theorem inserted_truncated (catalog : Catalog) (names : List FileName) :
    (inserted catalog names).truncated = true ↔
      catalog.truncated = true ∨ maxFiles < catalog.entries.length + names.length := by
  induction names generalizing catalog with
  | nil => simp [inserted, Nat.not_lt.mpr catalog.within]
  | cons name rest ih =>
    rw [inserted, List.foldl_cons, ← inserted, ih, List.length_cons]
    unfold catalogInsert
    split
    · rename_i full
      simp only [true_or, true_iff]
      right
      omega
    · dsimp only
      rw [List.length_insertIdx_of_le_length (insertPosition_le _ _ _), Nat.add_assoc, Nat.add_comm 1]

structure Tells (catalog : Catalog) (listing : List FileName) : Prop where
  ordered : Ordered catalog.entries
  valid : ∀ entry ∈ catalog.entries, storageNameValid entry = true
  present : ∀ entry ∈ catalog.entries, entry ∈ listing
  distinct : catalog.entries.Nodup
  truncated : catalog.truncated = true ↔ ∃ name ∈ listing, storageNameValid name = true ∧ name ∉ catalog.entries

def firstNames (listing : List FileName) : List FileName := (listing.filter storageNameValid).take maxFiles

theorem catalogOf_perm (listing : List FileName) : (catalogOf listing).entries.Perm (firstNames listing) := by
  rw [catalogOf_eq]
  exact inserted_perm .empty _

theorem mem_catalogOf {listing : List FileName} {name : FileName} :
    name ∈ (catalogOf listing).entries ↔ name ∈ firstNames listing := (catalogOf_perm listing).mem_iff

theorem catalogOf_tells (directory : Directory) : Tells (catalogOf directory.names) directory.names := by
  have sublist := List.take_sublist maxFiles (directory.names.filter storageNameValid)
  have distinct : (directory.names.filter storageNameValid).Nodup := directory.distinct.filter _
  have taken : ∀ entry ∈ (catalogOf directory.names).entries, entry ∈ directory.names.filter storageNameValid :=
    fun entry member => sublist.subset (mem_catalogOf.mp member)
  constructor
  · rw [catalogOf_eq]
    exact inserted_ordered _ List.Pairwise.nil
  · exact fun entry member => (List.mem_filter.mp (taken entry member)).2
  · exact fun entry member => (List.mem_filter.mp (taken entry member)).1
  · exact (catalogOf_perm _).nodup_iff.mpr (distinct.sublist sublist)
  · have full : (catalogOf directory.names).truncated = true ↔
        maxFiles < (directory.names.filter storageNameValid).length := by
      rw [catalogOf_eq, inserted_truncated]
      simp [Catalog.empty]
    rw [full]
    constructor
    · intro more
      have member := List.getElem_mem more
      refine ⟨_, (List.mem_filter.mp member).1, (List.mem_filter.mp member).2, ?_⟩
      intro listed
      rw [mem_catalogOf, firstNames] at listed
      obtain ⟨place, bound, same⟩ := List.mem_iff_getElem.mp listed
      rw [List.length_take] at bound
      rw [List.getElem_take] at same
      have equal := distinct.getElem_inj_iff.mp same
      omega
    · rintro ⟨name, member, valid, absent⟩
      by_contra few
      apply absent
      rw [mem_catalogOf, firstNames, List.take_of_length_le (Nat.le_of_not_lt few)]
      exact List.mem_filter.mpr ⟨member, valid⟩

example : (catalogOf [leaf "zeta.tns", leaf "notes.txt", leaf "Alpha.tns"]).entries = [leaf "Alpha.tns", leaf "zeta.tns"] := by
  decide

theorem digitOf_digit (number : Nat) :
    byteOf '0' ≤ digitOf number ∧ digitOf number ≤ byteOf '9' ∧ digitOf number ≠ byteOf '.' := by
  have all : ∀ value < 10, byteOf '0' ≤ byteOf '0' + UInt8.ofNat value ∧
      byteOf '0' + UInt8.ofNat value ≤ byteOf '9' ∧ byteOf '0' + UInt8.ofNat value ≠ byteOf '.' := by decide
  exact all _ (Nat.mod_lt number (by decide))

theorem charactersValid_digit (number : Nat) (rest : FileName) :
    charactersValid (digitOf number :: rest) = charactersValid rest := by
  obtain ⟨lower, upper, notDot⟩ := digitOf_digit number
  simp [charactersValid, lower, upper, notDot]

theorem storageNameValid_suggestion (number : Nat) : storageNameValid (formatSuggestion number) = true := by
  have characters : charactersValid (formatSuggestion number) = true := by
    have initial (first : UInt8) (rest : FileName) (notDot : first ≠ byteOf '.') (letter : charactersValid [first] = true) :
        charactersValid (first :: rest) = charactersValid rest := by
      simp only [charactersValid, notDot, false_and, decide_false, Bool.not_false, Bool.and_true] at letter ⊢
      rw [letter, Bool.true_and]
    have front : ∀ letters : FileName, (letters.all fun first => first != byteOf '.' && charactersValid [first]) = true →
        ∀ rest, charactersValid (letters ++ rest) = charactersValid rest := by
      intro letters good rest
      induction letters with
      | nil => rfl
      | cons first letters ih =>
        simp only [List.all_cons, Bool.and_eq_true, bne_iff_ne] at good
        rw [List.cons_append, initial first _ good.1.1 good.1.2]
        exact ih good.2
    rw [formatSuggestion, List.append_assoc, front _ (by decide), List.cons_append, List.cons_append, List.cons_append,
      List.nil_append, charactersValid_digit, charactersValid_digit, charactersValid_digit]
    decide
  unfold storageNameValid
  rw [if_neg, if_neg, if_neg, characters]
  · exact Bool.not_eq_true _ ▸ rfl
  · exact Bool.not_eq_true _ ▸ rfl
  · have long : (formatSuggestion number).length = 16 := rfl
    have head : (formatSuggestion number).head? = some (byteOf 'N') := rfl
    have last : (formatSuggestion number).getLast? = some (byteOf 's') := rfl
    have extension : endsWithTns (formatSuggestion number) = true := rfl
    rw [long, head, last, extension]
    decide

theorem digitOf_inj {first second : Nat} (same : asciiLower (digitOf first) = asciiLower (digitOf second)) :
    first % 10 = second % 10 := by
  have distinct : ∀ first < 10, ∀ second < 10, asciiLower (byteOf '0' + UInt8.ofNat first) =
      asciiLower (byteOf '0' + UInt8.ofNat second) → first = second := by decide
  exact distinct _ (Nat.mod_lt _ (by decide)) _ (Nat.mod_lt _ (by decide)) same

theorem folded_suggestion_inj {first second : Nat} (firstSmall : first < 1000) (secondSmall : second < 1000)
    (same : folded (formatSuggestion first) = folded (formatSuggestion second)) : first = second := by
  unfold folded formatSuggestion at same
  rw [List.map_append, List.map_append, List.map_append, List.map_append, List.append_left_inj, List.append_right_inj] at same
  simp only [List.map_cons, List.map_nil, List.cons.injEq, and_true] at same
  have hundreds := digitOf_inj same.1
  have tens := digitOf_inj same.2.1
  have ones := digitOf_inj same.2.2
  omega

theorem suggestFrom_free {catalog : Catalog} {rounds number target : Nat} (start : number ≤ target)
    (reached : target < number + rounds) (free : catalogContains catalog (formatSuggestion target) = false)
    (taken : ∀ earlier, number ≤ earlier → earlier < target → catalogContains catalog (formatSuggestion earlier) = true) :
    suggestFrom catalog rounds number = (.ok, formatSuggestion target) := by
  induction rounds generalizing number with
  | zero => omega
  | succ rounds ih =>
    unfold suggestFrom
    obtain rfl | later := Nat.eq_or_lt_of_le start
    · rw [free]
      rfl
    · rw [taken number (Nat.le_refl _) later]
      exact ih later (by omega) fun earlier after before => taken earlier (by omega) before

theorem catalogContains_iff {catalog : Catalog} {name : FileName} :
    catalogContains catalog name = true ↔ ∃ entry ∈ catalog.entries, folded entry = folded name := by
  simp [catalogContains, nameEqualFolded_iff]

theorem exists_free (catalog : Catalog) : ∃ number, 1 ≤ number ∧ number < 1000 ∧
    catalogContains catalog (formatSuggestion number) = false := by
  by_contra none
  push Not at none
  have taken (number : Fin (maxFiles + 1)) : ∃ place : Fin catalog.entries.length,
      folded catalog.entries[place] = folded (formatSuggestion (number.val + 1)) := by
    have small : number.val < maxFiles + 1 := number.isLt
    have held := none (number.val + 1) (by omega) (by unfold maxFiles at small; omega)
    obtain ⟨entry, member, same⟩ := catalogContains_iff.mp (eq_true_of_ne_false held)
    obtain ⟨place, bound, rfl⟩ := List.mem_iff_getElem.mp member
    exact ⟨⟨place, bound⟩, same⟩
  choose place same using taken
  have crowded : Fintype.card (Fin catalog.entries.length) < Fintype.card (Fin (maxFiles + 1)) := by
    rw [Fintype.card_fin, Fintype.card_fin]
    exact Nat.lt_succ_of_le catalog.within
  obtain ⟨first, second, apart, together⟩ := Fintype.exists_ne_map_eq_of_card_lt place crowded
  apply apart
  have firstSmall : first.val < maxFiles + 1 := first.isLt
  have secondSmall : second.val < maxFiles + 1 := second.isLt
  unfold maxFiles at firstSmall secondSmall
  have names := (same first).symm.trans (together ▸ same second)
  have numbers := folded_suggestion_inj (by omega) (by omega) names
  exact Fin.ext (by omega)

theorem storageSuggestName_eq (catalog : Catalog) : ∃ number, 1 ≤ number ∧ number < 1000 ∧
    storageSuggestName catalog = (.ok, formatSuggestion number) ∧
    catalogContains catalog (formatSuggestion number) = false ∧
    ∀ earlier, 1 ≤ earlier → earlier < number → catalogContains catalog (formatSuggestion earlier) = true := by
  classical
  have some := exists_free catalog
  have least := Nat.find_spec some
  have taken : ∀ earlier, 1 ≤ earlier → earlier < Nat.find some → catalogContains catalog (formatSuggestion earlier) = true := by
    intro earlier positive below
    by_contra free
    exact Nat.find_min some below ⟨positive, below.trans least.2.1, eq_false_of_ne_true free⟩
  exact ⟨Nat.find some, least.1, least.2.1, suggestFrom_free least.1 (by omega) least.2.2 taken, least.2.2, taken⟩

/-- The run of a program of the backend, under any answers of the world. -/
abbrev Ends {α : Type} (program : Code α) (faults : List Fault) (machine : Machine) (value : α) : Prop :=
  (program.ending perform faults machine).1 = some value

variable {α β : Type} {faults : List Fault} {machine : Machine}

theorem ends_of_safe {program : Code α} {good : α → Machine → Prop} {value : α}
    (safe : program.Safe perform (fun _ _ _ => True) (fun _ => True) good machine) (ends : Ends program faults machine value) :
    good value (program.ending perform faults machine).2 :=
  (Program.ending_good safe (Program.meets_of_all fun _ _ _ _ => trivial)).2 value ends

theorem safe_any (program : Code α) (machine : Machine) :
    program.Safe perform (fun _ _ _ => True) (fun _ => True) (fun _ _ => True) machine := by
  induction program generalizing machine with
  | done value => exact ⟨trivial, trivial⟩
  | perform op next ih => exact ⟨trivial, fun _ _ => ih _ _⟩

theorem safe_listNotebooks (directory : Directory) (machine : Machine) :
    (listNotebooks directory).Safe perform (fun _ _ _ => True) (fun _ => True)
      (fun listed _ => listed.1 = .ok → listed.2 = catalogOf directory.names) machine := by
  apply Program.safe_seq (safe_any ensureNotebookDirectory machine) (fun _ _ => trivial)
  intro status ready _ _
  by_cases fine : status = .ok
  · rw [if_pos fine]
    apply Program.safe_seq (safe_any (call (.opendir .notebooks)) ready) (fun _ _ => trivial)
    intro opened now _ _
    by_cases open_ : opened.ok
    · rw [if_pos open_]
      apply Program.safe_seq (safe_any (call .closedir) now) (fun _ _ => trivial)
      intro _ later _ _
      exact Program.safe_pure trivial fun _ => rfl
    · rw [if_neg open_]
      exact Program.safe_pure trivial fun wrong => by cases wrong
  · rw [if_neg fine]
    exact Program.safe_pure trivial fun wrong => absurd wrong fine

theorem safe_workspaceSuggestName (directory : Directory) (machine : Machine) :
    (workspaceSuggestName directory).Safe perform (fun _ _ _ => True) (fun _ => True)
      (fun proposed _ => proposed.1 = .ok → proposed = storageSuggestName (catalogOf directory.names)) machine := by
  apply Program.safe_seq (safe_listNotebooks directory machine) (fun _ _ => trivial)
  intro listed now _ told
  by_cases fine : listed.1 = .ok
  · rw [if_pos fine, told fine]
    exact Program.safe_pure trivial fun _ => rfl
  · rw [if_neg fine]
    exact Program.safe_pure trivial fun wrong => absurd wrong fine

/-- A disk with both directories. -/
def readyMachine : Machine := ⟨⟨true, true, fun _ => none⟩, []⟩

theorem workspaceSuggestName_works (directory : Directory) :
    Ends (workspaceSuggestName directory) (List.replicate 8 .works) readyMachine
      (storageSuggestName (catalogOf directory.names)) := rfl

/-- The name is valid, and no file of the directory bears it, in whatever case. -/
def Fresh (directory : Directory) (name : FileName) : Prop :=
  storageNameValid name = true ∧ ∀ file ∈ directory.names, nameEqualFolded file name = false

/-- No numbered notebook left out of the catalog is the first that the catalog leaves free. -/
def NumbersListed (directory : Directory) : Prop :=
  ∀ number, 1 ≤ number → number < 1000 →
    (∃ file ∈ directory.names, nameEqualFolded file (formatSuggestion number) = true) →
    (∀ file ∈ firstNames directory.names, nameEqualFolded file (formatSuggestion number) = false) →
    ∃ earlier, 1 ≤ earlier ∧ earlier < number ∧
      ∀ file ∈ firstNames directory.names, nameEqualFolded file (formatSuggestion earlier) = false

/-- Listings that succeed tell what the directory holds, and proposed names are fresh, whatever the disk answers. -/
def Dependable (directory : Directory) : Prop :=
  (∀ faults machine catalog, Ends (listNotebooks directory) faults machine (.ok, catalog) → Tells catalog directory.names) ∧
    ∀ faults machine name, Ends (workspaceSuggestName directory) faults machine (.ok, name) → Fresh directory name

theorem free_iff {listing : List FileName} {name : FileName} :
    catalogContains (catalogOf listing) name = false ↔ ∀ file ∈ firstNames listing, nameEqualFolded file name = false := by
  simp [catalogContains, mem_catalogOf]

theorem dependable_iff (directory : Directory) : Dependable directory ↔ NumbersListed directory := by
  obtain ⟨number, positive, small, proposal, free, taken⟩ := storageSuggestName_eq (catalogOf directory.names)
  constructor
  · intro ⟨_, fresh⟩ other otherPositive otherSmall ⟨file, member, same⟩ dropped
    have works := workspaceSuggestName_works directory
    rw [proposal] at works
    have absent := (fresh _ _ _ works).2
    refine ⟨number, positive, ?_, free_iff.mp free⟩
    by_contra notEarlier
    obtain rfl | later := Nat.eq_or_lt_of_le (Nat.le_of_not_lt notEarlier)
    · exact Bool.false_ne_true ((absent file member).symm.trans same)
    · exact Bool.false_ne_true ((free_iff.mpr dropped).symm.trans (taken other otherPositive later))
  · intro listed
    refine ⟨fun faults machine catalog ends => ?_, fun faults machine name ends => ?_⟩
    · have told : catalog = catalogOf directory.names := ends_of_safe (safe_listNotebooks directory machine) ends rfl
      rw [told]
      exact catalogOf_tells directory
    · have proposed : (Status.ok, name) = storageSuggestName (catalogOf directory.names) :=
        ends_of_safe (safe_workspaceSuggestName directory machine) ends rfl
      rw [proposal] at proposed
      obtain rfl : name = formatSuggestion number := congrArg Prod.snd proposed
      refine ⟨storageNameValid_suggestion number, fun file member => ?_⟩
      by_contra held
      obtain ⟨earlier, first, before, unused⟩ := listed number positive small
        ⟨file, member, eq_true_of_ne_false held⟩ (free_iff.mp free)
      exact Bool.false_ne_true ((free_iff.mpr unused).symm.trans (taken earlier first before))

/-- Sixteen notebooks come before the first numbered one. -/
def crowdedDirectory : Directory where
  names := ["a.tns", "b.tns", "c.tns", "d.tns", "e.tns", "f.tns", "g.tns", "h.tns", "i.tns", "j.tns", "k.tns", "l.tns",
    "m.tns", "n.tns", "o.tns", "p.tns", "Notebook-001.tns"].map leaf
  distinct := by decide

theorem crowded_not_dependable : ¬∀ directory, Dependable directory := by
  intro claim
  have proposal : storageSuggestName (catalogOf crowdedDirectory.names) = (.ok, leaf "Notebook-001.tns") := by decide
  have works := workspaceSuggestName_works crowdedDirectory
  rw [proposal] at works
  have absent := ((claim crowdedDirectory).2 _ _ _ works).2 (leaf "Notebook-001.tns") (by decide)
  exact absurd absent (by decide)

end PhyNspire.Storage

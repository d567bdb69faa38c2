import Mathlib.Algebra.BigOperators.Group.List.Basic
import Mathlib.Algebra.Order.Ring.Nat

/-!
Chained tables over an append-only array of records. A record carries the index of the
next one filed under its slot; a table holds the first index of every slot; index zero
ends a chain. New records go to the front of their chain, so a chain always lists the
indices of its slot in decreasing order, whatever order of growth produced it.
-/

namespace PhyNspire.Lib.Chains

/-- Following `next` from `start` visits `members` and then ends. -/
def Linked (next : Nat → Nat) : Nat → List Nat → Prop
  | start, [] => start = 0
  | start, member :: rest => start = member ∧ member ≠ 0 ∧ Linked next (next member) rest

/-- The indices from `1` below `count` that are filed under `slot`, latest first. -/
def members (slotOf : Nat → Nat) (slot : Nat) : Nat → List Nat
  | 0 => []
  | index + 1 =>
      if index ≠ 0 ∧ slotOf index = slot then index :: members slotOf slot index else members slotOf slot index

def Chained (slotOf next : Nat → Nat) (table : List Nat) (count : Nat) : Prop :=
  ∀ slot < table.length, Linked next (table.getD slot 0) (members slotOf slot count)

/-- The search along one chain; `turns` bounds its length. -/
def walk (next : Nat → Nat) (hit : Nat → Bool) : Nat → Nat → Option Nat
  | 0, _ => none
  | turns + 1, index => if index = 0 then none else if hit index then some index else walk next hit turns (next index)

/-- The checking walk over one chain: it stops at an index outside the array, after more steps
than there are records, or at a record that is not `filed` here. -/
def countChain (next : Nat → Nat) (filed : Nat → Bool) (count : Nat) : Nat → Nat → Nat → Option Nat
  | 0, _, _ => none
  | turns + 1, guard, index =>
      if index = 0 then some 0
      else if count ≤ index ∨ count < guard + 1 then none
      else if !filed index then none
      else (countChain next filed count turns (guard + 1) (next index)).map (· + 1)

section Members

variable {slotOf slotOf' next next' : Nat → Nat} {slot count index start turns : Nat} {table chain : List Nat}

theorem mem_members : index ∈ members slotOf slot count ↔ index ≠ 0 ∧ index < count ∧ slotOf index = slot := by
  induction count with
  | zero => simp [members]
  | succ count ih =>
    unfold members
    split
    · rename_i filed
      rw [List.mem_cons, ih]
      constructor
      · rintro (rfl | ⟨positive, below, same⟩)
        · exact ⟨filed.1, Nat.lt_succ_self _, filed.2⟩
        · exact ⟨positive, by omega, same⟩
      · rintro ⟨positive, below, same⟩
        rcases Nat.lt_succ_iff_lt_or_eq.mp below with inner | rfl
        · exact .inr ⟨positive, inner, same⟩
        · exact .inl rfl
    · rename_i other
      rw [ih]
      constructor
      · rintro ⟨positive, below, same⟩
        exact ⟨positive, by omega, same⟩
      · rintro ⟨positive, below, same⟩
        refine ⟨positive, ?_, same⟩
        rcases Nat.lt_succ_iff_lt_or_eq.mp below with inner | rfl
        · exact inner
        · exact absurd ⟨positive, same⟩ other

theorem length_members_le (slotOf : Nat → Nat) (slot count : Nat) : (members slotOf slot count).length ≤ count - 1 := by
  induction count with
  | zero => exact Nat.le_refl 0
  | succ count ih =>
    unfold members
    split
    · rename_i filed
      simp only [List.length_cons]
      omega
    · omega

theorem members_congr (agree : ∀ i < count, slotOf' i = slotOf i) :
    members slotOf' slot count = members slotOf slot count := by
  induction count with
  | zero => rfl
  | succ count ih =>
    unfold members
    rw [ih (fun i below => agree i (by omega)), agree count (Nat.lt_succ_self _)]

theorem Linked.congr (linked : Linked next start chain) (agree : ∀ i ∈ chain, next' i = next i) :
    Linked next' start chain := by
  induction chain generalizing start with
  | nil => exact linked
  | cons member rest ih =>
    obtain ⟨first, positive, tail⟩ := linked
    refine ⟨first, positive, ?_⟩
    rw [agree member List.mem_cons_self]
    exact ih tail (fun i inside => agree i (List.mem_cons_of_mem _ inside))

theorem Linked.walk_eq (linked : Linked next start chain) (hit : Nat → Bool) (enough : chain.length ≤ turns) :
    walk next hit turns start = chain.find? hit := by
  induction chain generalizing start turns with
  | nil =>
    cases turns with
    | zero => rfl
    | succ turns => simp only [walk, show start = 0 from linked, if_true, List.find?_nil]
  | cons member rest ih =>
    obtain ⟨rfl, positive, tail⟩ := linked
    cases turns with
    | zero => simp at enough
    | succ turns =>
      simp only [walk, if_neg positive, List.find?_cons]
      cases hit start with
      | true => rfl
      | false => exact ih tail (by simpa using enough)

theorem Linked.countChain_eq (filed : Nat → Bool) (guard : Nat) (linked : Linked next start chain)
    (inside : ∀ i ∈ chain, i < count ∧ filed i = true) (enough : chain.length < turns)
    (room : guard + chain.length ≤ count) :
    countChain next filed count turns guard start = some chain.length := by
  induction chain generalizing start turns guard with
  | nil =>
    cases turns with
    | zero => simp at enough
    | succ turns => simp only [countChain, show start = 0 from linked, if_true, List.length_nil]
  | cons member rest ih =>
    obtain ⟨rfl, positive, tail⟩ := linked
    cases turns with
    | zero => simp at enough
    | succ turns =>
      obtain ⟨below, held⟩ := inside start List.mem_cons_self
      rw [List.length_cons] at room enough
      unfold countChain
      rw [if_neg positive, if_neg (by omega), held]
      simp only [Bool.not_true, Bool.false_eq_true, if_false]
      rw [ih (guard + 1) tail (fun i member => inside i (List.mem_cons_of_mem _ member)) (by omega) (by omega)]
      rfl

theorem Chained.congr (chained : Chained slotOf next table count)
    (slots : ∀ i < count, slotOf' i = slotOf i) (nexts : ∀ i < count, next' i = next i) :
    Chained slotOf' next' table count := by
  intro slot inside
  rw [members_congr slots]
  exact (chained slot inside).congr (fun i member => nexts i (mem_members.mp member).2.1)

theorem Chained.insert (chained : Chained slotOf next table count) (positive : count ≠ 0)
    (slots : ∀ i < count, slotOf' i = slotOf i) (nexts : ∀ i < count, next' i = next i)
    (filed : slotOf' count = slot) (follows : next' count = table.getD slot 0) :
    Chained slotOf' next' (table.set slot count) (count + 1) := by
  intro other inside
  rw [List.length_set] at inside
  have earlier := chained.congr slots nexts other inside
  have read : (table.set slot count).getD other 0 = if slot = other then count else table.getD other 0 := by
    simp only [List.getD_eq_getElem?_getD, List.getElem?_set]
    split
    · rename_i same
      subst same
      simp [inside]
    · rfl
  rw [read]
  unfold members
  by_cases same : slot = other
  · subst same
    rw [if_pos rfl, if_pos ⟨positive, filed⟩]
    exact ⟨rfl, positive, follows ▸ earlier⟩
  · rw [if_neg same, if_neg (fun both => same (filed ▸ both.2))]
    exact earlier

theorem chained_empty (size : Nat) : Chained slotOf next (List.replicate size 0) 1 := by
  intro slot inside
  rw [List.length_replicate] at inside
  change Linked next ((List.replicate size 0).getD slot 0) []
  simp [Linked, List.getD_eq_getElem?_getD, inside]

theorem Chained.walk_some (chained : Chained slotOf next table count) (inside : slot < table.length)
    {hit : Nat → Bool} (found : walk next hit count (table.getD slot 0) = some index) :
    index ≠ 0 ∧ index < count ∧ slotOf index = slot ∧ hit index = true := by
  have bound := length_members_le slotOf slot count
  rw [(chained slot inside).walk_eq hit (by omega)] at found
  obtain ⟨positive, below, same⟩ := mem_members.mp (List.mem_of_find?_eq_some found)
  exact ⟨positive, below, same, List.find?_some found⟩

theorem Chained.walk_none (chained : Chained slotOf next table count) (inside : slot < table.length)
    {hit : Nat → Bool} (missed : walk next hit count (table.getD slot 0) = none)
    (positive : index ≠ 0) (below : index < count) (filed : slotOf index = slot) : hit index = false := by
  have bound := length_members_le slotOf slot count
  rw [(chained slot inside).walk_eq hit (by omega)] at missed
  have apart := List.find?_eq_none.mp missed index (mem_members.mpr ⟨positive, below, filed⟩)
  simpa using apart

theorem length_members_succ (positive : count ≠ 0) : (members slotOf slot (count + 1)).length =
    (members slotOf slot count).length + if slotOf count = slot then 1 else 0 := by
  rw [members]
  by_cases filed : slotOf count = slot
  · rw [if_pos ⟨positive, filed⟩, if_pos filed, List.length_cons]
  · rw [if_neg (fun both => filed both.2), if_neg filed, Nat.add_zero]

theorem sum_indicator (home size : Nat) :
    ((List.range size).map (fun slot => if home = slot then 1 else 0)).sum = if home < size then 1 else 0 := by
  induction size with
  | zero => rfl
  | succ size ih =>
    rw [List.range_succ, List.map_append, List.sum_append, ih]
    simp only [List.map_cons, List.map_nil, List.sum_cons, List.sum_nil]
    by_cases here : home = size
    · rw [if_pos here, if_neg (by omega), if_pos (by omega)]
      rfl
    · rw [if_neg here]
      by_cases below : home < size
      · rw [if_pos below, if_pos (by omega)]
        rfl
      · rw [if_neg below, if_neg (by omega)]
        rfl

theorem sum_members (size : Nat) (filed : ∀ i, i ≠ 0 → i < count → slotOf i < size) :
    ((List.range size).map (fun slot => (members slotOf slot count).length)).sum = count - 1 := by
  have none (n : Nat) (small : n ≤ 1) : ((List.range size).map (fun slot => (members slotOf slot n).length)).sum = 0 := by
    refine List.sum_eq_zero (fun length inside => ?_)
    obtain ⟨slot, _, rfl⟩ := List.mem_map.mp inside
    exact Nat.le_zero.mp (Nat.le_trans (length_members_le slotOf slot n) (by omega))
  induction count with
  | zero => exact none 0 (Nat.zero_le 1)
  | succ count ih =>
    by_cases apart : count = 0
    · rw [none _ (by omega), apart]
    · have earlier := ih (fun i positive below => filed i positive (by omega))
      simp only [length_members_succ apart, List.sum_map_add, earlier, sum_indicator,
        if_pos (filed count apart (Nat.lt_succ_self _))]
      omega

end Members

def countTable (next : Nat → Nat) (filed : Nat → Nat → Bool) (count : Nat) : Nat → List Nat → Option Nat
  | _, [] => some 0
  | slot, head :: rest => do
      let visited ← countChain next (filed slot) count (count + 1) 0 head
      let others ← countTable next filed count (slot + 1) rest
      pure (visited + others)

section Counting

variable {slotOf next : Nat → Nat} {filed : Nat → Nat → Bool} {count : Nat} {table : List Nat}

theorem Chained.countTable_eq (chained : Chained slotOf next table count)
    (checks : ∀ i, i ≠ 0 → i < count → filed (slotOf i) i = true)
    (homes : ∀ i, i ≠ 0 → i < count → slotOf i < table.length) :
    countTable next filed count 0 table = some (count - 1) := by
  have rows : ∀ (rest : List Nat) (first : Nat), first + rest.length = table.length →
      (∀ k < rest.length, rest.getD k 0 = table.getD (first + k) 0) →
      countTable next filed count first rest =
        some ((List.range rest.length).map (fun k => (members slotOf (first + k) count).length)).sum := by
    intro rest
    induction rest with
    | nil =>
      intro first _ _
      rfl
    | cons head rest ih =>
      intro first size agree
      rw [List.length_cons] at size
      have bound := length_members_le slotOf first count
      have linked := chained first (by omega)
      have start : head = table.getD first 0 := by simpa using agree 0 (by simp)
      have visited : countChain next (filed first) count (count + 1) 0 (table.getD first 0) =
          some (members slotOf first count).length :=
        linked.countChain_eq (filed first) 0 (fun i member => by
          obtain ⟨positive, below, same⟩ := mem_members.mp member
          exact ⟨below, same ▸ checks i positive below⟩) (by omega) (by omega)
      have others := ih (first + 1) (by omega) (fun k below => by
        have here := agree (k + 1) (by simpa using below)
        simpa [Nat.add_assoc, Nat.add_comm 1 k] using here)
      simp only [countTable, start, visited, others, Option.bind_eq_bind, Option.bind_some, Option.pure_def,
        List.length_cons, List.range_succ_eq_map, List.map_cons, List.map_map, List.sum_cons, Nat.add_zero]
      congr 3
      refine List.map_congr_left (fun k _ => ?_)
      simp only [Function.comp_apply, Nat.succ_eq_add_one]
      rw [Nat.add_assoc, Nat.add_comm 1 k]
  have all := rows table 0 (Nat.zero_add _) (fun k _ => by rw [Nat.zero_add])
  simp only [Nat.zero_add] at all
  rw [all, sum_members table.length homes]

end Counting

section Rebuilding

variable {α : Type} (slot next : α → Nat) (file : Nat → α → α)

/-- The loop of a rehash: records are filed again, in the order of their indices. -/
def relink : Nat → List α → List Nat → List α × List Nat
  | _, [], table => ([], table)
  | index, record :: rest, table =>
      let later := relink (index + 1) rest (table.set (slot record) index)
      (file (table.getD (slot record) 0) record :: later.1, later.2)

def slotAt (records : List α) (index : Nat) : Nat := (records[index]?.map slot).getD 0

def nextAt (records : List α) (index : Nat) : Nat := (records[index]?.map next).getD 0

variable {slot next file}

@[simp] theorem length_relink (index : Nat) (records : List α) (table : List Nat) :
    (relink slot file index records table).1.length = records.length := by
  induction records generalizing index table with
  | nil => rfl
  | cons record rest ih => simp only [relink, List.length_cons, ih]

@[simp] theorem length_relink_table (index : Nat) (records : List α) (table : List Nat) :
    (relink slot file index records table).2.length = table.length := by
  induction records generalizing index table with
  | nil => rfl
  | cons record rest ih => simp only [relink, ih, List.length_set]

theorem relink_eq_map {β : Type} {content : α → β} (keeps : ∀ link record, content (file link record) = content record)
    (index : Nat) (records : List α) (table : List Nat) :
    (relink slot file index records table).1.map content = records.map content := by
  induction records generalizing index table with
  | nil => rfl
  | cons record rest ih => simp only [relink, List.map_cons, keeps, ih]

theorem slotAt_append_left {done rest : List α} {index : Nat} (below : index < done.length) :
    slotAt slot (done ++ rest) index = slotAt slot done index := by
  unfold slotAt
  rw [List.getElem?_append_left below]

theorem nextAt_append_left {done rest : List α} {index : Nat} (below : index < done.length) :
    nextAt next (done ++ rest) index = nextAt next done index := by
  unfold nextAt
  rw [List.getElem?_append_left below]

theorem slotAt_congr {records records' : List α} (same : records'.map slot = records.map slot) :
    slotAt slot records' = slotAt slot records := by
  funext index
  simp only [slotAt, ← List.getElem?_map, same]

theorem nextAt_congr {records records' : List α} (same : records'.map next = records.map next) :
    nextAt next records' = nextAt next records := by
  funext index
  simp only [nextAt, ← List.getElem?_map, same]

theorem map_modify_eq {β : Type} {content : α → β} {change : α → α} (keeps : ∀ record, content (change record) = content record)
    (records : List α) (index : Nat) : (records.modify index change).map content = records.map content := by
  induction records generalizing index with
  | nil => cases index <;> rfl
  | cons record rest ih =>
    cases index with
    | zero => rw [List.modify_zero_cons, List.map_cons, List.map_cons, keeps]
    | succ index => rw [List.modify_succ_cons, List.map_cons, List.map_cons, ih]

theorem relink_chained (keeps : ∀ link record, slot (file link record) = slot record)
    (files : ∀ link record, next (file link record) = link) (done rest : List α) (table : List Nat)
    (positive : done.length ≠ 0) (chained : Chained (slotAt slot done) (nextAt next done) table done.length) :
    Chained (slotAt slot (done ++ (relink slot file done.length rest table).1))
      (nextAt next (done ++ (relink slot file done.length rest table).1))
      (relink slot file done.length rest table).2 (done.length + rest.length) := by
  induction rest generalizing done table with
  | nil => simpa only [relink, List.append_nil, List.length_nil, Nat.add_zero] using chained
  | cons record rest ih =>
    let filedRecord := file (table.getD (slot record) 0) record
    have stepped : Chained (slotAt slot (done ++ [filedRecord])) (nextAt next (done ++ [filedRecord]))
        (table.set (slot record) done.length) (done ++ [filedRecord]).length := by
      rw [List.length_append, List.length_singleton]
      refine chained.insert positive (fun i below => slotAt_append_left below)
        (fun i below => nextAt_append_left below) ?_ ?_
      · simp [slotAt, filedRecord, keeps]
      · simp [nextAt, filedRecord, files]
    have finished := ih (done ++ [filedRecord]) (table.set (slot record) done.length) (by simp) stepped
    rw [List.length_append, List.length_singleton] at finished
    simpa only [relink, List.append_assoc, List.singleton_append, List.length_cons, Nat.add_assoc,
      Nat.add_comm 1 rest.length, filedRecord] using finished

variable (slot file) in
/-- A rehash into a cleared table; record zero is a sentinel that is never filed. -/
def rehash (size : Nat) : List α → List α × List Nat
  | [] => ([], List.replicate size 0)
  | sentinel :: rest =>
      let filed := relink slot file 1 rest (List.replicate size 0)
      (sentinel :: filed.1, filed.2)

@[simp] theorem length_rehash (size : Nat) (records : List α) : (rehash slot file size records).1.length = records.length := by
  cases records with
  | nil => rfl
  | cons sentinel rest => simp [rehash]

@[simp] theorem length_rehash_table (size : Nat) (records : List α) : (rehash slot file size records).2.length = size := by
  cases records with
  | nil => simp [rehash]
  | cons sentinel rest => simp [rehash]

theorem rehash_eq_map {β : Type} {content : α → β} (keeps : ∀ link record, content (file link record) = content record)
    (size : Nat) (records : List α) : (rehash slot file size records).1.map content = records.map content := by
  cases records with
  | nil => rfl
  | cons sentinel rest => simp only [rehash, List.map_cons, relink_eq_map keeps]

theorem rehash_chained (keeps : ∀ link record, slot (file link record) = slot record)
    (files : ∀ link record, next (file link record) = link) (size : Nat) {records : List α} (some : records ≠ []) :
    Chained (slotAt slot (rehash slot file size records).1) (nextAt next (rehash slot file size records).1)
      (rehash slot file size records).2 records.length := by
  cases records with
  | nil => exact absurd rfl some
  | cons sentinel rest =>
    have filed := relink_chained keeps files [sentinel] rest (List.replicate size 0) (by simp) (chained_empty size)
    simpa only [rehash, List.length_cons, List.length_nil, Nat.zero_add, Nat.add_comm 1, List.singleton_append]
      using filed

end Rebuilding

end PhyNspire.Lib.Chains

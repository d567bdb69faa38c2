import Mathlib.Data.List.Nodup
import Mathlib.Algebra.BigOperators.Group.List.Basic
import Mathlib.Algebra.Order.Ring.Nat

/-!
A registry of live objects: a list of entries with distinct keys, most recently
registered first. A weight summed over the entries stands for whatever resource the
objects hold.
-/

namespace PhyNspire.Lib.Registry

variable {κ ν : Type} [DecidableEq κ]

abbrev Entries (κ ν : Type) := List (κ × ν)

def keys (entries : Entries κ ν) : List κ := entries.map Prod.fst

def find (key : κ) : Entries κ ν → Option ν
  | [] => none
  | entry :: rest => if entry.1 = key then some entry.2 else find key rest

def update (key : κ) (value : ν) (entries : Entries κ ν) : Entries κ ν :=
  entries.map fun entry => if entry.1 = key then (key, value) else entry

def remove (key : κ) (entries : Entries κ ν) : Entries κ ν :=
  entries.filter fun entry => entry.1 ≠ key

def weight (cost : ν → Nat) (entries : Entries κ ν) : Nat :=
  (entries.map fun entry => cost entry.2).sum

@[simp] theorem find_nil (key : κ) : find key ([] : Entries κ ν) = none := rfl

theorem find_cons (key : κ) (entry : κ × ν) (rest : Entries κ ν) :
    find key (entry :: rest) = if entry.1 = key then some entry.2 else find key rest := rfl

variable {key : κ} {entries : Entries κ ν}

theorem find_eq_none : find key entries = none ↔ key ∉ keys entries := by
  induction entries with
  | nil => simp [keys]
  | cons entry rest ih =>
    by_cases same : entry.1 = key
    · simp [find_cons, keys, same]
    · simp only [find_cons, if_neg same, ih, keys, List.map_cons, List.mem_cons, not_or]
      exact ⟨fun absent => ⟨fun equal => same equal.symm, absent⟩, fun absent => absent.2⟩

variable {value : ν}

theorem mem_of_find (found : find key entries = some value) : (key, value) ∈ entries := by
  induction entries with
  | nil => simp at found
  | cons entry rest ih =>
    by_cases same : entry.1 = key
    · simp only [find_cons, if_pos same, Option.some.injEq] at found
      subst same found
      exact List.mem_cons_self
    · simp only [find_cons, if_neg same] at found
      exact List.mem_cons_of_mem _ (ih found)

theorem find_of_mem {entry : κ × ν} (distinct : (keys entries).Nodup)
    (member : entry ∈ entries) : find entry.1 entries = some entry.2 := by
  induction entries with
  | nil => simp at member
  | cons first rest ih =>
    simp only [keys, List.map_cons, List.nodup_cons] at distinct
    rcases List.mem_cons.mp member with rfl | later
    · simp [find_cons]
    · have different : first.1 ≠ entry.1 :=
        fun same => distinct.1 (same ▸ List.mem_map_of_mem later)
      simp only [find_cons, if_neg different]
      exact ih distinct.2 later

@[simp] theorem keys_update (key : κ) (value : ν) (entries : Entries κ ν) :
    keys (update key value entries) = keys entries := by
  unfold keys update
  rw [List.map_map]
  apply List.map_congr_left
  intro entry _
  by_cases same : entry.1 = key <;> simp [same]

@[simp] theorem length_update (key : κ) (value : ν) (entries : Entries κ ν) :
    (update key value entries).length = entries.length := List.length_map _

theorem find_update_self {old : ν}
    (found : find key entries = some old) : find key (update key value entries) = some value := by
  induction entries with
  | nil => simp at found
  | cons entry rest ih =>
    by_cases same : entry.1 = key
    · simp [update, find_cons, same]
    · simp only [find_cons, if_neg same] at found
      simpa [update, find_cons, same] using ih found

theorem find_update_of_ne {other : κ} (different : other ≠ key) (value : ν) (entries : Entries κ ν) :
    find other (update key value entries) = find other entries := by
  induction entries with
  | nil => rfl
  | cons entry rest ih =>
    by_cases same : entry.1 = key
    · have unequal : ¬key = other := fun equal => different equal.symm
      simp only [update, List.map_cons, if_pos same, find_cons, if_neg unequal,
        if_neg (same ▸ unequal : ¬entry.1 = other)]
      exact ih
    · simp only [update, List.map_cons, if_neg same, find_cons]
      by_cases here : entry.1 = other
      · simp [here]
      · simp only [if_neg here]
        exact ih

theorem update_of_find_none (absent : find key entries = none) (value : ν) :
    update key value entries = entries := by
  unfold update
  conv_rhs => rw [← List.map_id entries]
  apply List.map_congr_left
  intro entry member
  have different : entry.1 ≠ key := by
    rintro rfl
    exact find_eq_none.mp absent (List.mem_map_of_mem member)
  simp [different]

theorem update_find (distinct : (keys entries).Nodup)
    (found : find key entries = some value) : update key value entries = entries := by
  unfold update
  conv_rhs => rw [← List.map_id entries]
  apply List.map_congr_left
  intro entry member
  by_cases same : entry.1 = key
  · have here := find_of_mem distinct member
    rw [same, found, Option.some.injEq] at here
    simp [← same, here]
  · simp [same]

theorem weight_update (cost : ν → Nat) {old : ν}
    (distinct : (keys entries).Nodup) (found : find key entries = some old) (value : ν) :
    weight cost (update key value entries) + cost old = weight cost entries + cost value := by
  induction entries with
  | nil => simp at found
  | cons entry rest ih =>
    simp only [keys, List.map_cons, List.nodup_cons] at distinct
    by_cases same : entry.1 = key
    · simp only [find_cons, if_pos same, Option.some.injEq] at found
      subst found
      have untouched : update key value rest = rest := by
        unfold update
        conv_rhs => rw [← List.map_id rest]
        apply List.map_congr_left
        intro later member
        have different : later.1 ≠ key :=
          fun equal => distinct.1 (same.trans equal.symm ▸ List.mem_map_of_mem member)
        simp [different]
      have split : update key value (entry :: rest) = (key, value) :: update key value rest := by
        simp [update, same]
      rw [split, untouched]
      simp only [weight, List.map_cons, List.sum_cons]
      omega
    · simp only [find_cons, if_neg same] at found
      have split : update key value (entry :: rest) = entry :: update key value rest := by
        simp [update, same]
      have tail := ih distinct.2 found
      rw [split]
      simp only [weight, List.map_cons, List.sum_cons] at tail ⊢
      omega

theorem keys_remove (key : κ) (entries : Entries κ ν) :
    keys (remove key entries) = (keys entries).filter (· ≠ key) := by
  unfold keys remove
  rw [List.filter_map]
  rfl

theorem find_remove_self (key : κ) (entries : Entries κ ν) : find key (remove key entries) = none := by
  rw [find_eq_none, keys_remove]
  simp

theorem find_remove_of_ne {other : κ} (different : other ≠ key) (entries : Entries κ ν) :
    find other (remove key entries) = find other entries := by
  induction entries with
  | nil => rfl
  | cons entry rest ih =>
    by_cases same : entry.1 = key
    · have unequal : ¬entry.1 = other := fun equal => different (equal.symm.trans same)
      rw [find_cons, if_neg unequal, ← ih]
      simp [remove, same]
    · simp only [remove, List.filter_cons, same, ne_eq, not_false_eq_true, decide_true, ↓reduceIte,
        find_cons]
      by_cases here : entry.1 = other
      · simp [here]
      · simp only [if_neg here]
        exact ih

theorem remove_of_not_mem (absent : key ∉ keys entries) :
    remove key entries = entries := by
  apply List.filter_eq_self.mpr
  intro entry member
  have different : entry.1 ≠ key := by
    rintro rfl
    exact absent (List.mem_map_of_mem member)
  simpa using different

theorem weight_remove (cost : ν → Nat) (distinct : (keys entries).Nodup) (found : find key entries = some value) :
    weight cost (remove key entries) + cost value = weight cost entries ∧
      (remove key entries).length + 1 = entries.length := by
  induction entries with
  | nil => simp at found
  | cons entry rest ih =>
    simp only [keys, List.map_cons, List.nodup_cons] at distinct
    by_cases same : entry.1 = key
    · simp only [find_cons, if_pos same, Option.some.injEq] at found
      subst found
      have gone : remove key (entry :: rest) = rest := by
        have later : remove key rest = rest := remove_of_not_mem (fun member => distinct.1 (same ▸ member))
        simpa [remove, same] using later
      rw [gone]
      constructor
      · simp only [weight, List.map_cons, List.sum_cons]
        exact Nat.add_comm _ _
      · rfl
    · simp only [find_cons, if_neg same] at found
      have kept : remove key (entry :: rest) = entry :: remove key rest := by
        simp [remove, same]
      obtain ⟨tail, count⟩ := ih distinct.2 found
      rw [kept]
      simp only [weight, List.map_cons, List.sum_cons, List.length_cons] at tail count ⊢
      omega

theorem le_weight (cost : ν → Nat) (distinct : (keys entries).Nodup) (found : find key entries = some value) :
    cost value ≤ weight cost entries := by
  have removed := (weight_remove cost distinct found).1
  omega

end PhyNspire.Lib.Registry

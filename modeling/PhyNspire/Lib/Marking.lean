import Mathlib.Data.List.Range
import Mathlib.Data.Finset.Image

/-!
Marking over numbered slots whose references point to lower slots, and the order-preserving
renumbering of what was marked. One pass from the highest slot down finds the whole closure.
-/

namespace PhyNspire.Lib.Marking

variable (refers : Nat → Nat → Bool)

/-- One pass over the slots below `n`, highest first; a marked slot marks what it refers to. -/
def propagate : Nat → (Nat → Bool) → (Nat → Bool)
  | 0, marked => marked
  | i + 1, marked =>
    if marked i then propagate i (fun slot => marked slot || (decide (slot < i) && refers i slot))
    else propagate i marked

def Reached (marked : Nat → Bool) (slot : Nat) : Prop :=
  ∃ root, marked root = true ∧ Relation.ReflTransGen (fun i j => refers i j = true) root slot

variable {refers}

theorem propagate_above {n slot : Nat} {marked : Nat → Bool} (above : n ≤ slot) :
    propagate refers n marked slot = marked slot := by
  induction n generalizing marked with
  | zero => rfl
  | succ i ih =>
    rw [propagate]
    split_ifs
    · rw [ih (by omega)]
      simp only [decide_eq_false (show ¬slot < i by omega), Bool.false_and, Bool.or_false]
    · exact ih (by omega)

theorem propagate_keeps {n slot : Nat} {marked : Nat → Bool} (isMarked : marked slot = true) :
    propagate refers n marked slot = true := by
  induction n generalizing marked with
  | zero => exact isMarked
  | succ i ih =>
    rw [propagate]
    split_ifs
    · exact ih (by rw [isMarked, Bool.true_or])
    · exact ih isMarked

theorem propagate_sound {n slot : Nat} {marked : Nat → Bool} (isMarked : propagate refers n marked slot = true) :
    Reached refers marked slot := by
  induction n generalizing marked with
  | zero => exact ⟨slot, isMarked, Relation.ReflTransGen.refl⟩
  | succ i ih =>
    rw [propagate] at isMarked
    split_ifs at isMarked with active
    · obtain ⟨root, start, path⟩ := ih isMarked
      rw [Bool.or_eq_true, Bool.and_eq_true] at start
      obtain start | ⟨_, edge⟩ := start
      · exact ⟨root, start, path⟩
      · exact ⟨i, active, path.head edge⟩
    · exact ih isMarked

theorem propagate_closed {n i j : Nat} {marked : Nat → Bool} (down : ∀ i j, refers i j = true → j < i)
    (below : i < n) (isMarked : propagate refers n marked i = true) (edge : refers i j = true) :
    propagate refers n marked j = true := by
  induction n generalizing marked with
  | zero => omega
  | succ top ih =>
    rw [propagate] at isMarked ⊢
    obtain rfl | lower := Nat.lt_succ_iff_lt_or_eq.mp below |>.symm
    · split_ifs at isMarked ⊢ with active
      · refine propagate_keeps ?_
        rw [decide_eq_true (down i j edge), edge, Bool.and_self, Bool.or_true]
      · rw [propagate_above le_rfl] at isMarked
        exact absurd isMarked active
    · split_ifs at isMarked ⊢
      · exact ih lower isMarked
      · exact ih lower isMarked

theorem propagate_iff {n slot : Nat} {marked : Nat → Bool} (down : ∀ i j, refers i j = true → j < i)
    (inside : ∀ i, marked i = true → i < n) :
    propagate refers n marked slot = true ↔ Reached refers marked slot := by
  refine ⟨propagate_sound, ?_⟩
  rintro ⟨root, start, path⟩
  have reached : propagate refers n marked slot = true ∧ slot < n := by
    induction path with
    | refl => exact ⟨propagate_keeps start, inside root start⟩
    | tail _ edge ih => exact ⟨propagate_closed down ih.2 ih.1 edge, (down _ _ edge).trans ih.2⟩
  exact reached.1

section

variable {α : Type} (marked : Nat → Bool)

/-- The number a slot gets when only marked slots are kept. -/
def rank (slot : Nat) : Nat := (List.range slot).countP marked

def kept (entries : List α) : List α := (entries.zipIdx.filter fun entry => marked entry.2).map Prod.fst

theorem rank_succ (slot : Nat) : rank marked (slot + 1) = rank marked slot + if marked slot then 1 else 0 := by
  rw [rank, List.range_succ, List.countP_append, List.countP_singleton]
  rfl

theorem rank_mono {low high : Nat} (le : low ≤ high) : rank marked low ≤ rank marked high := by
  induction le with
  | refl => exact le_rfl
  | step _ ih =>
    rw [rank_succ]
    omega

theorem rank_lt {low high : Nat} (lt : low < high) (isMarked : marked low = true) :
    rank marked low < rank marked high := by
  have next : rank marked (low + 1) = rank marked low + 1 := by rw [rank_succ, if_pos isMarked]
  have := rank_mono marked (show low + 1 ≤ high from lt)
  omega

theorem rank_injective {first second : Nat} (isMarked : marked first = true) (isMarked' : marked second = true)
    (same : rank marked first = rank marked second) : first = second := by
  rcases Nat.lt_trichotomy first second with lt | eq | gt
  · have := rank_lt marked lt isMarked
    omega
  · exact eq
  · have := rank_lt marked gt isMarked'
    omega

theorem kept_none (entries : List α) : kept (fun _ => false) entries = [] := by
  unfold kept
  rw [List.filter_eq_nil_iff.mpr (fun _ _ => Bool.false_ne_true)]
  rfl

theorem kept_all (entries : List α) : kept (fun _ => true) entries = entries := by
  unfold kept
  rw [List.filter_eq_self.mpr (fun _ _ => rfl), List.zipIdx_map_fst]

theorem kept_append (entries : List α) (last : α) :
    kept marked (entries ++ [last]) = kept marked entries ++ if marked entries.length then [last] else [] := by
  unfold kept
  rw [List.zipIdx_append, List.filter_append, List.map_append]
  congr 1
  simp only [List.zipIdx_singleton, Nat.zero_add, List.filter_cons, List.filter_nil]
  split_ifs <;> rfl

theorem kept_length (entries : List α) : (kept marked entries).length = rank marked entries.length := by
  induction entries using List.reverseRecOn with
  | nil => rfl
  | append_singleton entries last ih =>
    rw [kept_append, List.length_append, ih, List.length_append, List.length_singleton, rank_succ]
    split_ifs <;> rfl

theorem kept_sublist (entries : List α) : (kept marked entries).Sublist entries := by
  have zipped : (entries.zipIdx.filter fun entry => marked entry.2).Sublist entries.zipIdx := List.filter_sublist
  have := zipped.map Prod.fst
  rwa [List.zipIdx_map_fst] at this

theorem kept_get {entries : List α} {slot : Nat} {entry : α} (there : entries[slot]? = some entry)
    (isMarked : marked slot = true) : (kept marked entries)[rank marked slot]? = some entry := by
  induction entries using List.reverseRecOn with
  | nil => cases there
  | append_singleton entries last ih =>
    rw [kept_append]
    rcases Nat.lt_or_ge slot entries.length with inside | outside
    · rw [List.getElem?_append_left inside] at there
      rw [List.getElem?_append_left (by rw [kept_length]; exact rank_lt marked inside isMarked)]
      exact ih there
    · rw [List.getElem?_append_right outside] at there
      obtain same : slot = entries.length := by
        by_contra other
        have : 1 ≤ slot - entries.length := by omega
        rw [List.getElem?_eq_none (by simpa using this)] at there
        cases there
      subst same
      rw [Nat.sub_self] at there
      rw [← kept_length, List.getElem?_append_right le_rfl, Nat.sub_self, if_pos isMarked]
      exact there

theorem kept_origin {entries : List α} {number : Nat} {entry : α} (there : (kept marked entries)[number]? = some entry) :
    ∃ slot, entries[slot]? = some entry ∧ marked slot = true ∧ rank marked slot = number := by
  induction entries using List.reverseRecOn with
  | nil => cases there
  | append_singleton entries last ih =>
    rw [kept_append] at there
    rcases Nat.lt_or_ge number (kept marked entries).length with inside | outside
    · rw [List.getElem?_append_left inside] at there
      obtain ⟨slot, found, isMarked, same⟩ := ih there
      have low : slot < entries.length := (List.getElem?_eq_some_iff.mp found).1
      exact ⟨slot, by rw [List.getElem?_append_left low]; exact found, isMarked, same⟩
    · rw [List.getElem?_append_right outside] at there
      split_ifs at there with isMarked
      · have number_eq : number = (kept marked entries).length := by
          by_contra other
          have : 1 ≤ number - (kept marked entries).length := by omega
          rw [List.getElem?_eq_none (by simpa using this)] at there
          cases there
        subst number_eq
        rw [Nat.sub_self] at there
        refine ⟨entries.length, ?_, isMarked, (kept_length marked entries).symm⟩
        rw [List.getElem?_append_right le_rfl, Nat.sub_self]
        exact there
      · cases there

theorem rank_le (slot : Nat) : rank marked slot ≤ slot := by
  have le := List.countP_le_length (p := marked) (l := List.range slot)
  rwa [List.length_range] at le

theorem kept_forall₂ {β : Type} {related : α → β → Prop} {left : List α} {right : List β}
    (aligned : List.Forall₂ related left right) : List.Forall₂ related (kept marked left) (kept marked right) := by
  rw [List.forall₂_iff_get] at aligned ⊢
  obtain ⟨length, pairs⟩ := aligned
  refine ⟨by rw [kept_length, kept_length, length], ?_⟩
  intro number below below'
  obtain ⟨slot, found, isMarked, same⟩ := kept_origin marked (List.getElem?_eq_getElem below)
  obtain ⟨slot', found', isMarked', same'⟩ := kept_origin marked (List.getElem?_eq_getElem below')
  obtain rfl := rank_injective marked isMarked isMarked' (same.trans same'.symm)
  obtain ⟨inside, first⟩ := List.getElem?_eq_some_iff.mp found
  obtain ⟨inside', second⟩ := List.getElem?_eq_some_iff.mp found'
  have pair := pairs slot inside inside'
  simp only [List.get_eq_getElem] at pair ⊢
  rwa [first, second] at pair

end

end PhyNspire.Lib.Marking

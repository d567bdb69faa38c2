import Mathlib.Logic.Equiv.Basic
import Mathlib.Tactic.Common

/-!
In-place heapsort of a list of values, as a bottom-up heap followed by extractions.
The comparison is a parameter; the result is always a permutation of the input, and it
is sorted as soon as the comparison decides a total preorder.
-/

namespace PhyNspire.Lib.Heapsort

variable {α : Type} [Inhabited α]

def valueAt (values : List α) (index : Nat) : α := values.getD index default

def exchange (values : List α) (i j : Nat) : List α :=
  (values.set i (valueAt values j)).set j (valueAt values i)

/-- The root or whichever of its children below `count` is above it and its sibling. -/
def largestOf (above : α → α → Bool) (values : List α) (count root : Nat) : Nat :=
  let left := 2 * root + 1
  let right := left + 1
  let largest := if left < count ∧ above (valueAt values left) (valueAt values root) then left else root
  if right < count ∧ above (valueAt values right) (valueAt values largest) then right else largest

/-- Each turn moves the hole to one of its children, so `count` turns are enough. -/
def siftDown (above : α → α → Bool) (count : Nat) : Nat → List α → Nat → List α
  | 0, values, _ => values
  | turns + 1, values, root =>
      let largest := largestOf above values count root
      if largest = root then values
      else siftDown above count turns (exchange values root largest) largest

/-- The loop `for (i = parents; i > 0; i--) sift_down(i - 1)`. -/
def heapify (above : α → α → Bool) (count : Nat) : Nat → List α → List α
  | 0, values => values
  | root + 1, values => heapify above count root (siftDown above count count values root)

/-- The loop `for (end = last; end > 0; end--)` that moves the maximum behind the heap. -/
def extractAll (above : α → α → Bool) : Nat → List α → List α
  | 0, values => values
  | last + 1, values => extractAll above last (siftDown above (last + 1) (last + 1) (exchange values 0 (last + 1)) 0)

def heapsort (above : α → α → Bool) (values : List α) : List α :=
  if values.length < 2 then values
  else extractAll above (values.length - 1) (heapify above values.length (values.length / 2) values)

section Positions

variable {values : List α} {i j k count root turns : Nat} {above : α → α → Bool}

theorem valueAt_of_lt (inside : i < values.length) : valueAt values i = values[i] := by
  simp only [valueAt, List.getD_eq_getElem?_getD, List.getElem?_eq_getElem inside, Option.getD_some]

@[simp] theorem length_exchange : (exchange values i j).length = values.length := by
  simp only [exchange, List.length_set]

theorem exchange_perm (first : i < values.length) (second : j < values.length) :
    (exchange values i j).Perm values := by
  unfold exchange
  rw [valueAt_of_lt first, valueAt_of_lt second]
  exact List.set_set_perm first second

theorem valueAt_exchange (first : i < values.length) (second : j < values.length) (k : Nat) :
    valueAt (exchange values i j) k = valueAt values (Equiv.swap i j k) := by
  rw [Equiv.swap_apply_def]
  simp only [exchange, valueAt, List.getD_eq_getElem?_getD, List.getElem?_set, List.length_set]
  by_cases last : j = k
  · subst last
    by_cases same : j = i
    · subst same
      simp [first]
    · simp [second, same]
  · by_cases head : i = k
    · subst head
      simp [first, last]
    · simp [last, head, Ne.symm last, Ne.symm head]

theorem largestOf_cases (above : α → α → Bool) (values : List α) (count root : Nat) :
    largestOf above values count root = root ∨
      ((largestOf above values count root = 2 * root + 1 ∨ largestOf above values count root = 2 * root + 2) ∧
        largestOf above values count root < count) := by
  unfold largestOf
  dsimp only
  split_ifs <;> omega

@[simp] theorem length_siftDown : (siftDown above count turns values root).length = values.length := by
  induction turns generalizing values root with
  | zero => rfl
  | succ turns ih =>
    unfold siftDown
    dsimp only
    split
    · rfl
    · rw [ih, length_exchange]

theorem siftDown_perm (inside : count ≤ values.length) (start : root < count) :
    (siftDown above count turns values root).Perm values := by
  induction turns generalizing values root with
  | zero => exact List.Perm.refl _
  | succ turns ih =>
    unfold siftDown
    dsimp only
    split
    · exact List.Perm.refl _
    · rename_i moved
      have below : largestOf above values count root < count := by
        rcases largestOf_cases above values count root with stay | ⟨_, below⟩
        · exact absurd stay moved
        · exact below
      exact (ih (by rwa [length_exchange]) below).trans (exchange_perm (by omega) (by omega))

theorem heapify_perm (inside : count ≤ values.length) (parents : root ≤ count) :
    (heapify above count root values).Perm values := by
  induction root generalizing values with
  | zero => exact List.Perm.refl _
  | succ root ih =>
    exact (ih (by rwa [length_siftDown]) (by omega)).trans (siftDown_perm inside (by omega))

theorem extractAll_perm {last : Nat} (inside : last < values.length) : (extractAll above last values).Perm values := by
  induction last generalizing values with
  | zero => exact List.Perm.refl _
  | succ last ih =>
    have rest : (extractAll above (last + 1) values).Perm _ := ih (by rw [length_siftDown, length_exchange]; omega)
    exact rest.trans ((siftDown_perm (by rw [length_exchange]; omega) (by omega)).trans (exchange_perm (by omega) inside))

theorem heapsort_perm (above : α → α → Bool) (values : List α) : (heapsort above values).Perm values := by
  unfold heapsort
  split
  · exact List.Perm.refl _
  · have halves : (heapify above values.length (values.length / 2) values).Perm values :=
      heapify_perm (Nat.le_refl values.length) (Nat.div_le_self values.length 2)
    exact (extractAll_perm (by rw [halves.length_eq]; omega)).trans halves

/-- Sifting moves values about below `count` and nowhere else. -/
theorem siftDown_inside (above : α → α → Bool) (turns : Nat) (inside : count ≤ values.length) (start : root < count) :
    (∀ k < count, ∃ m < count, valueAt (siftDown above count turns values root) k = valueAt values m) ∧
      ∀ k, count ≤ k → valueAt (siftDown above count turns values root) k = valueAt values k := by
  induction turns generalizing values root with
  | zero => exact ⟨fun k below => ⟨k, below, rfl⟩, fun _ _ => rfl⟩
  | succ turns ih =>
    unfold siftDown
    dsimp only
    split
    · exact ⟨fun k below => ⟨k, below, rfl⟩, fun _ _ => rfl⟩
    · rename_i moved
      have below : largestOf above values count root < count := by
        rcases largestOf_cases above values count root with stay | ⟨_, below⟩
        · exact absurd stay moved
        · exact below
      have read := valueAt_exchange (show root < values.length by omega)
        (show largestOf above values count root < values.length by omega)
      have inside' : count ≤ (exchange values root (largestOf above values count root)).length := by
        rwa [length_exchange]
      obtain ⟨moves, stays⟩ := ih inside' below
      constructor
      · intro k inner
        obtain ⟨m, bound, same⟩ := moves k inner
        refine ⟨Equiv.swap root (largestOf above values count root) m, ?_, same.trans (read m)⟩
        rw [Equiv.swap_apply_def]
        split_ifs <;> omega
      · intro k outer
        rw [stays k outer, read k, Equiv.swap_apply_of_ne_of_ne (by omega) (by omega)]

end Positions

section Order

variable {le : α → α → Prop} {above : α → α → Bool} {values : List α} {lo count root turns : Nat}

/-- `child` hangs below `parent` in the heap's numbering. -/
def Child (parent child : Nat) : Prop := child = 2 * parent + 1 ∨ child = 2 * parent + 2

/-- Parents from `lo` on dominate their children below `count`. -/
def HeapFrom (le : α → α → Prop) (values : List α) (lo count : Nat) : Prop :=
  ∀ p c, lo ≤ p → c < count → Child p c → le (valueAt values c) (valueAt values p)

/-- Only the value at `hole` may be out of order, and then only towards its children. -/
structure HeapExcept (le : α → α → Prop) (values : List α) (lo count hole : Nat) : Prop where
  ordered : ∀ p c, lo ≤ p → c < count → Child p c → p ≠ hole → le (valueAt values c) (valueAt values p)
  across : ∀ p c, lo ≤ p → c < count → Child p hole → Child hole c → le (valueAt values c) (valueAt values p)

variable (total : ∀ x y, le x y ∨ le y x) (transitive : ∀ x y z, le x y → le y z → le x z)
variable (decides : ∀ x y, above x y = true ↔ ¬le x y)

include total transitive decides in
theorem le_largestOf {c : Nat} (inside : c < count) (child : Child root c ∨ c = root) :
    le (valueAt values c) (valueAt values (largestOf above values count root)) := by
  have reflexive : ∀ x, le x x := fun x => (total x x).elim id id
  have beaten : ∀ {x y}, above x y = true → le y x := fun {x y} up =>
    (total x y).elim (fun le => absurd le ((decides x y).mp up)) id
  have kept : ∀ {x y}, ¬above x y = true → le x y := fun {x y} down =>
    not_not.mp (fun not => down ((decides x y).mpr not))
  unfold largestOf
  dsimp only
  split_ifs with first second second
  · obtain (rfl | rfl) | rfl := child
    · exact beaten second.2
    · exact reflexive _
    · exact transitive _ _ _ (beaten first.2) (beaten second.2)
  · obtain (rfl | rfl) | rfl := child
    · exact reflexive _
    · exact kept (fun up => second ⟨inside, up⟩)
    · exact beaten first.2
  · obtain (rfl | rfl) | rfl := child
    · exact transitive _ _ _ (kept (fun up => first ⟨inside, up⟩)) (beaten second.2)
    · exact reflexive _
    · exact beaten second.2
  · obtain (rfl | rfl) | rfl := child
    · exact kept (fun up => first ⟨inside, up⟩)
    · exact kept (fun up => second ⟨inside, up⟩)
    · exact reflexive _

include total transitive decides in
theorem siftDown_heap (inside : count ≤ values.length) (start : root < count) (low : lo ≤ root)
    (enough : count ≤ turns + root) (hole : HeapExcept le values lo count root) :
    HeapFrom le (siftDown above count turns values root) lo count := by
  induction turns generalizing values root with
  | zero => omega
  | succ turns ih =>
    have best := fun c => @le_largestOf _ _ le above values count root total transitive decides c
    unfold siftDown
    dsimp only
    split
    · rename_i stay
      intro p c above' below child
      by_cases same : p = root
      · subst same
        simpa only [stay] using best c below (.inl child)
      · exact hole.ordered p c above' below child same
    · rename_i moved
      generalize target : largestOf above values count root = largest at moved best ⊢
      obtain ⟨down, below⟩ : Child root largest ∧ largest < count := by
        rcases largestOf_cases above values count root with stay | ⟨down, below⟩
        · exact absurd (target ▸ stay) moved
        · exact ⟨target ▸ down, target ▸ below⟩
      have deeper : root < largest := by rcases down with rfl | rfl <;> omega
      have read := valueAt_exchange (show root < values.length by omega) (show largest < values.length by omega)
      refine ih (by rwa [length_exchange]) below (by omega) (by omega) ?_
      constructor
      · intro p c high inner child apart
        rw [read, read]
        have notHead : p ≠ largest := apart
        by_cases atRoot : p = root
        · subst atRoot
          rw [Equiv.swap_apply_left]
          by_cases same : c = largest
          · subst same
            rw [Equiv.swap_apply_right]
            exact best p (by omega) (.inr rfl)
          · rw [Equiv.swap_apply_of_ne_of_ne (by rcases child with rfl | rfl <;> omega) same]
            exact best c inner (.inl child)
        · rw [Equiv.swap_apply_of_ne_of_ne atRoot notHead]
          by_cases same : c = root
          · subst same
            rw [Equiv.swap_apply_left]
            exact hole.across p largest high below child down
          · have other : c ≠ largest := by
              rcases child with rfl | rfl <;> rcases down with rfl | rfl <;> omega
            rw [Equiv.swap_apply_of_ne_of_ne same other]
            exact hole.ordered p c high inner child atRoot
      · intro p c high inner parent child
        have atRoot : p = root := by
          rcases parent with eq | eq <;> rcases down with eq' | eq' <;> omega
        subst atRoot
        rw [read, read, Equiv.swap_apply_left,
          Equiv.swap_apply_of_ne_of_ne (by rcases child with rfl | rfl <;> omega)
            (by rcases child with rfl | rfl <;> omega)]
        exact hole.ordered largest c (by omega) inner child (by omega)

include total transitive decides in
theorem heapify_heap (inside : count ≤ values.length) (parents : lo < count)
    (heap : HeapFrom le values lo count) :
    HeapFrom le (heapify above count lo values) 0 count ∧
      (heapify above count lo values).Perm values := by
  induction lo generalizing values with
  | zero => exact ⟨heap, List.Perm.refl _⟩
  | succ root ih =>
    have sifted : HeapFrom le (siftDown above count count values root) root count := by
      refine siftDown_heap total transitive decides inside (by omega) (Nat.le_refl _) (by omega) ?_
      constructor
      · intro p c low inner child apart
        exact heap p c (by omega) inner child
      · intro p c low inner parent child
        rcases parent with eq | eq <;> omega
    obtain ⟨done, perm⟩ := ih (by rwa [length_siftDown]) (by omega) sifted
    exact ⟨done, perm.trans (siftDown_perm inside (by omega))⟩

include total transitive in
theorem HeapFrom.le_top (heap : HeapFrom le values 0 count) (k : Nat) (below : k < count) :
    le (valueAt values k) (valueAt values 0) := by
  induction k using Nat.strongRecOn with
  | ind k ih =>
    rcases Nat.eq_zero_or_pos k with rfl | positive
    · exact (total _ _).elim id id
    · have parent := heap ((k - 1) / 2) k (Nat.zero_le _) below (by unfold Child; omega)
      exact transitive _ _ _ parent (ih ((k - 1) / 2) (by omega) (by omega))

include total transitive decides in
theorem extractAll_sorted {last : Nat} (inside : last < values.length)
    (heap : HeapFrom le values 0 (last + 1))
    (done : ∀ i j, last < j → i ≤ j → j < values.length → le (valueAt values i) (valueAt values j)) :
    (∀ i j, i ≤ j → j < values.length →
        le (valueAt (extractAll above last values) i) (valueAt (extractAll above last values) j)) ∧
      (extractAll above last values).Perm values := by
  induction last generalizing values with
  | zero =>
    refine ⟨fun i j order bound => ?_, List.Perm.refl _⟩
    rcases Nat.eq_zero_or_pos j with rfl | positive
    · obtain rfl : i = 0 := by omega
      exact (total _ _).elim id id
    · exact done i j positive order bound
  | succ last ih =>
    have read := valueAt_exchange (show 0 < values.length by omega) inside
    have size : last + 1 ≤ (exchange values 0 (last + 1)).length := by
      rw [length_exchange]
      omega
    have hole : HeapExcept le (exchange values 0 (last + 1)) 0 (last + 1) 0 := by
      constructor
      · intro p c low inner child apart
        have deeper : p < c := by rcases child with rfl | rfl <;> omega
        rw [read, read, Equiv.swap_apply_of_ne_of_ne apart (by omega),
          Equiv.swap_apply_of_ne_of_ne (by omega) (by omega)]
        exact heap p c low (by omega) child
      · intro p c low inner parent child
        rcases parent with eq | eq <;> omega
    have sifted : HeapFrom le (siftDown above (last + 1) (last + 1) (exchange values 0 (last + 1)) 0) 0 (last + 1) :=
      siftDown_heap total transitive decides size (Nat.succ_pos last) (Nat.le_refl _) (by omega) hole
    obtain ⟨moves, stays⟩ := siftDown_inside above (last + 1) size (Nat.succ_pos last)
    have ordered : ∀ i j, last < j → i ≤ j → j < values.length →
        le (valueAt (siftDown above (last + 1) (last + 1) (exchange values 0 (last + 1)) 0) i)
          (valueAt (siftDown above (last + 1) (last + 1) (exchange values 0 (last + 1)) 0) j) := by
      intro i j high order bound
      obtain ⟨m, near, same⟩ : ∃ m, (m ≤ last + 1 ∨ m = i) ∧
          valueAt (siftDown above (last + 1) (last + 1) (exchange values 0 (last + 1)) 0) i = valueAt values m := by
        by_cases inner : i < last + 1
        · obtain ⟨m, below, same⟩ := moves i inner
          refine ⟨Equiv.swap 0 (last + 1) m, .inl ?_, same.trans (read m)⟩
          rw [Equiv.swap_apply_def]
          split_ifs <;> omega
        · refine ⟨Equiv.swap 0 (last + 1) i, ?_, (stays i (by omega)).trans (read i)⟩
          rw [Equiv.swap_apply_def]
          split_ifs <;> omega
      rw [same, stays j (by omega), read j]
      by_cases top : j = last + 1
      · subst top
        rw [Equiv.swap_apply_right]
        exact heap.le_top total transitive m (by omega)
      · rw [Equiv.swap_apply_of_ne_of_ne (by omega) top]
        exact done m j (by omega) (by omega) bound
    obtain ⟨sorted, perm⟩ := ih (by rw [length_siftDown, length_exchange]; omega) sifted
      (by simpa only [length_siftDown, length_exchange] using ordered)
    refine ⟨by simpa only [extractAll, length_siftDown, length_exchange] using sorted, perm.trans ?_⟩
    exact (siftDown_perm size (Nat.succ_pos last)).trans
      (exchange_perm (by omega) inside)

include total transitive decides in
theorem heapsort_sorted (values : List α) :
    (heapsort above values).Pairwise le ∧ (heapsort above values).Perm values := by
  unfold heapsort
  split
  · rename_i short
    refine ⟨?_, List.Perm.refl _⟩
    match values, short with
    | [], _ => exact List.Pairwise.nil
    | [x], _ => exact List.pairwise_singleton le x
  · rename_i long
    have leaves : HeapFrom le values (values.length / 2) values.length := by
      intro p c low inner child
      rcases child with eq | eq <;> omega
    obtain ⟨heap, perm⟩ := heapify_heap total transitive decides (Nat.le_refl _) (by omega) leaves
    have size := perm.length_eq
    have range : values.length - 1 + 1 = values.length := by omega
    have inside : values.length - 1 < (heapify above values.length (values.length / 2) values).length := by omega
    obtain ⟨sorted, perm'⟩ := extractAll_sorted total transitive decides inside (by rwa [range])
      (by intro i j; omega)
    refine ⟨?_, perm'.trans perm⟩
    have size' := perm'.length_eq
    rw [List.pairwise_iff_getElem]
    intro i j first second order
    have held := sorted i j (Nat.le_of_lt order) (by omega)
    rwa [valueAt_of_lt first, valueAt_of_lt second] at held

end Order

end PhyNspire.Lib.Heapsort

import Mathlib.Data.List.Induction
import Mathlib.Algebra.Order.Group.Nat

/-!
Labelled ordered trees and their maximally shared storage. A store is a growing list of
entries; an entry names its children by their one-based positions, and every child stands
before its parent. The trees of a store are read off from left to right, so an entry keeps
its tree when the store grows, and a store without duplicate entries holds every tree at
most once.
-/

namespace PhyNspire.Lib.Trees

inductive Rose (κ : Type) where
  | node (label : κ) (children : List (Rose κ))

structure Entry (κ : Type) where
  label : κ
  children : List Nat
deriving DecidableEq

namespace Rose

variable {κ β : Type}

def label : Rose κ → κ
  | .node label _ => label

def children : Rose κ → List (Rose κ)
  | .node _ children => children

@[simp] theorem label_node (label : κ) (children : List (Rose κ)) : (node label children).label = label := rfl

@[simp] theorem children_node (label : κ) (children : List (Rose κ)) : (node label children).children = children := rfl

mutual
def fold (algebra : κ → List β → β) : Rose κ → β
  | .node label children => algebra label (foldAll algebra children)

def foldAll (algebra : κ → List β → β) : List (Rose κ) → List β
  | [] => []
  | first :: rest => fold algebra first :: foldAll algebra rest
end

theorem foldAll_eq_map (algebra : κ → List β → β) (children : List (Rose κ)) :
    foldAll algebra children = children.map (fold algebra) := by
  induction children with
  | nil => rfl
  | cons first rest ih => rw [foldAll, ih, List.map_cons]

theorem fold_node (algebra : κ → List β → β) (label : κ) (children : List (Rose κ)) :
    fold algebra (.node label children) = algebra label (children.map (fold algebra)) := by
  rw [fold, foldAll_eq_map]

mutual
def decEq [DecidableEq κ] : (left right : Rose κ) → Decidable (left = right)
  | .node label children, .node label' children' =>
      if same : label = label' then
        match decEqAll children children' with
        | isTrue same' => isTrue (same ▸ same' ▸ rfl)
        | isFalse apart => isFalse (fun eq => apart (Rose.node.inj eq).2)
      else isFalse (fun eq => same (Rose.node.inj eq).1)

def decEqAll [DecidableEq κ] : (left right : List (Rose κ)) → Decidable (left = right)
  | [], [] => isTrue rfl
  | [], _ :: _ => isFalse (fun eq => nomatch eq)
  | _ :: _, [] => isFalse (fun eq => nomatch eq)
  | first :: rest, first' :: rest' =>
      match decEq first first', decEqAll rest rest' with
      | isTrue same, isTrue same' => isTrue (same ▸ same' ▸ rfl)
      | isFalse apart, _ => isFalse (fun eq => apart (List.cons.inj eq).1)
      | _, isFalse apart => isFalse (fun eq => apart (List.cons.inj eq).2)
end

instance [DecidableEq κ] : DecidableEq (Rose κ) := decEq

def height : Rose κ → Nat := fold (fun _ heights => heights.foldl max 0 + 1)

theorem foldl_max_le {heights : List Nat} {start bound : Nat} (low : start ≤ bound)
    (all : ∀ h ∈ heights, h ≤ bound) : heights.foldl max start ≤ bound := by
  induction heights generalizing start with
  | nil => exact low
  | cons first rest ih =>
    exact ih (max_le low (all first List.mem_cons_self)) (fun h inside => all h (List.mem_cons_of_mem _ inside))

theorem le_foldl_max (heights : List Nat) (start : Nat) :
    start ≤ heights.foldl max start ∧ ∀ h ∈ heights, h ≤ heights.foldl max start := by
  induction heights generalizing start with
  | nil => exact ⟨le_rfl, fun _ inside => absurd inside List.not_mem_nil⟩
  | cons first rest ih =>
    obtain ⟨low, all⟩ := ih (max start first)
    refine ⟨le_trans (le_max_left _ _) low, ?_⟩
    intro h inside
    rcases List.mem_cons.mp inside with rfl | later
    · exact le_trans (le_max_right _ _) low
    · exact all h later

theorem height_node (label : κ) (children : List (Rose κ)) :
    (node label children).height = (children.map height).foldl max 0 + 1 := fold_node _ _ _

theorem height_lt {label : κ} {children : List (Rose κ)} {child : Rose κ} (inside : child ∈ children) :
    child.height < (node label children).height := by
  rw [height_node]
  exact Nat.lt_succ_of_le ((le_foldl_max _ 0).2 _ (List.mem_map_of_mem inside))

theorem induct {motive : Rose κ → Prop}
    (node : ∀ label children, (∀ child ∈ children, motive child) → motive (.node label children))
    (tree : Rose κ) : motive tree := by
  induction size : tree.height using Nat.strongRecOn generalizing tree with
  | ind height ih =>
    match tree, size with
    | .node label children, size =>
      exact node label children (fun child inside => ih child.height (size ▸ height_lt inside) child rfl)

end Rose

section Ordering

variable {κ : Type} (order : κ → κ → Ordering)

def compareUpTo : Nat → Rose κ → Rose κ → Ordering
  | 0, _, _ => .eq
  | height + 1, left, right =>
      (order left.label right.label).then
        ((compare left.children.length right.children.length).then
          (List.compareLex (compareUpTo height) left.children right.children))

theorem compareUpTo_succ (height : Nat) : compareUpTo order (height + 1) =
    compareLex (fun left right => order left.label right.label)
      (compareLex (fun left right => compare left.children.length right.children.length)
        (fun left right => List.compareLex (compareUpTo order height) left.children right.children)) := rfl

variable {order}

theorem transCmp_on {α β : Type} {part : α → β} {cmp : β → β → Ordering} [Std.TransCmp cmp] :
    Std.TransCmp (fun x y => cmp (part x) (part y)) where
  eq_swap := Std.OrientedCmp.eq_swap
  isLE_trans := Std.TransCmp.isLE_trans

instance compareUpTo_trans [Std.TransCmp order] (height : Nat) : Std.TransCmp (compareUpTo order height) := by
  induction height with
  | zero => exact { eq_swap := rfl, isLE_trans := fun _ _ => rfl }
  | succ height ih =>
    rw [compareUpTo_succ]
    have labels : Std.TransCmp (fun left right : Rose κ => order left.label right.label) := transCmp_on
    have counts : Std.TransCmp (fun left right : Rose κ =>
        compare left.children.length right.children.length) := transCmp_on
    have parts : Std.TransCmp (fun left right : Rose κ =>
        List.compareLex (compareUpTo order height) left.children right.children) := transCmp_on
    infer_instance

theorem eq_of_compareLex_eq {α : Type} {cmp : α → α → Ordering} {left right : List α}
    (each : ∀ x ∈ left, ∀ y ∈ right, cmp x y = .eq → x = y) (same : List.compareLex cmp left right = .eq) :
    left = right := by
  induction left generalizing right with
  | nil =>
    cases right with
    | nil => rfl
    | cons _ _ => cases same
  | cons x left ih =>
    cases right with
    | nil => cases same
    | cons y right =>
      rw [List.compareLex_cons_cons, Ordering.then_eq_eq] at same
      rw [each x List.mem_cons_self y List.mem_cons_self same.1,
        ih (fun x inside y inside' => each x (List.mem_cons_of_mem _ inside) y (List.mem_cons_of_mem _ inside')) same.2]

theorem eq_of_compareUpTo_eq [Std.LawfulEqCmp order] {height : Nat} {left right : Rose κ}
    (low : left.height ≤ height) (same : compareUpTo order height left right = .eq) : left = right := by
  induction height generalizing left right with
  | zero =>
    match left, low with
    | .node label children, low => rw [Rose.height_node] at low; omega
  | succ height ih =>
    match left, right, low, same with
    | .node label children, .node label' children', low, same =>
      simp only [compareUpTo, Ordering.then_eq_eq, Rose.label_node, Rose.children_node] at same
      obtain ⟨labels, _, parts⟩ := same
      have lower : ∀ x ∈ children, x.height ≤ height := by
        intro x inside
        have above : x.height < (Rose.node label children).height := Rose.height_lt inside
        omega
      rw [Std.LawfulEqCmp.eq_of_compare labels,
        eq_of_compareLex_eq (fun x inside _ _ alike => ih (lower x inside) alike) parts]

theorem compareLex_congr {α : Type} {cmp cmp' : α → α → Ordering} {left right : List α}
    (agree : ∀ x ∈ left, ∀ y, cmp' x y = cmp x y) : List.compareLex cmp' left right = List.compareLex cmp left right := by
  induction left generalizing right with
  | nil => cases right <;> rfl
  | cons x left ih =>
    cases right with
    | nil => rfl
    | cons y right =>
      rw [List.compareLex_cons_cons, List.compareLex_cons_cons, agree x List.mem_cons_self,
        ih (fun x inside => agree x (List.mem_cons_of_mem _ inside))]

theorem compareLex_take {α : Type} (cmp : α → α → Ordering) (left right : List α) :
    (List.compareLex cmp (left.take (min left.length right.length)) (right.take (min left.length right.length))).then
      (compare left.length right.length) = List.compareLex cmp left right := by
  induction left generalizing right with
  | nil => cases right <;> rfl
  | cons x left ih =>
    cases right with
    | nil => rfl
    | cons y right =>
      have lengths : compare (x :: left).length (y :: right).length = compare left.length right.length := by
        rw [List.length_cons, List.length_cons, Nat.compare_eq_ite_lt, Nat.compare_eq_ite_lt]
        simp
      rw [lengths, List.length_cons, List.length_cons, Nat.add_min_add_right, List.take_succ_cons, List.take_succ_cons,
        List.compareLex_cons_cons, List.compareLex_cons_cons, Ordering.then_assoc, ih]

theorem compareUpTo_of_height_le {height depth : Nat} {left : Rose κ} (right : Rose κ) (low : left.height ≤ height)
    (deeper : height ≤ depth) : compareUpTo order depth left right = compareUpTo order height left right := by
  induction height generalizing depth left right with
  | zero =>
    match left, low with
    | .node label children, low => rw [Rose.height_node] at low; omega
  | succ height ih =>
    match left, low, depth, deeper with
    | .node label children, low, depth + 1, deeper =>
      have lower : ∀ x ∈ children, x.height ≤ height := by
        intro x inside
        have above : x.height < (Rose.node label children).height := Rose.height_lt inside
        omega
      simp only [compareUpTo, Rose.children_node]
      rw [compareLex_congr (fun x inside y => ih y (lower x inside) (by omega))]

variable (order) in
def compareTrees (left right : Rose κ) : Ordering := compareUpTo order (max left.height right.height) left right

theorem compareUpTo_eq {depth : Nat} {left right : Rose κ} (deep : left.height ≤ depth) :
    compareUpTo order depth left right = compareTrees order left right := by
  unfold compareTrees
  rw [compareUpTo_of_height_le right (Nat.le_refl _) deep,
    compareUpTo_of_height_le right (Nat.le_refl _) (Nat.le_max_left _ _)]

instance [Std.TransCmp order] : Std.TransCmp (compareTrees order) where
  eq_swap := by
    intro a b
    unfold compareTrees
    rw [Nat.max_comm b.height]
    exact Std.OrientedCmp.eq_swap
  isLE_trans := by
    intro a b c
    rw [← compareUpTo_eq (Nat.le_max_left a.height b.height), ← compareUpTo_eq (Nat.le_max_right a.height b.height),
      ← compareUpTo_eq (Nat.le_max_left a.height b.height)]
    exact Std.TransCmp.isLE_trans

instance [Std.TransCmp order] [Std.LawfulEqCmp order] : Std.LawfulEqCmp (compareTrees order) where
  compare_self := Std.ReflCmp.compare_self
  eq_of_compare := fun same => eq_of_compareUpTo_eq (Nat.le_max_left _ _) same

end Ordering

section Stores

variable {κ : Type}

/-- The tree at a one-based position; position zero is no tree's. -/
def lookup (trees : List (Rose κ)) (ref : Nat) : Option (Rose κ) :=
  if ref = 0 then none else trees[ref - 1]?

def grow (trees : List (Rose κ)) (entry : Entry κ) : List (Rose κ) :=
  trees ++ [.node entry.label (entry.children.filterMap (lookup trees))]

def trees (entries : List (Entry κ)) : List (Rose κ) := entries.foldl grow []

def treeAt (entries : List (Entry κ)) (ref : Nat) : Option (Rose κ) := lookup (trees entries) ref

def entryAt (entries : List (Entry κ)) (ref : Nat) : Option (Entry κ) :=
  if ref = 0 then none else entries[ref - 1]?

def Live (entries : List (Entry κ)) (ref : Nat) : Prop := ref ≠ 0 ∧ ref ≤ entries.length

def Backward (entries : List (Entry κ)) : Prop :=
  ∀ ref entry, entryAt entries ref = some entry → ∀ child ∈ entry.children, child ≠ 0 ∧ child < ref

variable {entries later : List (Entry κ)} {entry : Entry κ} {ref ref' : Nat} {tree : Rose κ}

@[simp] theorem trees_append_singleton (entries : List (Entry κ)) (entry : Entry κ) :
    trees (entries ++ [entry]) =
      trees entries ++ [.node entry.label (entry.children.filterMap (treeAt entries))] := by
  simp only [trees, List.foldl_append, List.foldl_cons, List.foldl_nil, grow]
  rfl

@[simp] theorem length_trees (entries : List (Entry κ)) : (trees entries).length = entries.length := by
  induction entries using List.reverseRecOn with
  | nil => rfl
  | append_singleton entries entry ih => simp [ih]

theorem trees_prefix (entries later : List (Entry κ)) : trees entries <+: trees (entries ++ later) := by
  induction later using List.reverseRecOn with
  | nil =>
    simp only [List.append_nil, List.prefix_refl]
  | append_singleton later entry ih =>
    rw [← List.append_assoc, trees_append_singleton]
    exact ih.trans (List.prefix_append _ _)

theorem treeAt_eq_some_iff_live : (∃ tree, treeAt entries ref = some tree) ↔ Live entries ref := by
  unfold treeAt lookup Live
  by_cases zero : ref = 0
  · simp [zero]
  · simp only [ne_eq, zero, not_false_eq_true, true_and, if_false]
    rw [← Option.isSome_iff_exists, isSome_getElem?, length_trees]
    omega

theorem Live.exists_tree (live : Live entries ref) : ∃ tree, treeAt entries ref = some tree :=
  treeAt_eq_some_iff_live.mpr live

theorem live_of_treeAt (held : treeAt entries ref = some tree) : Live entries ref :=
  treeAt_eq_some_iff_live.mp ⟨tree, held⟩

theorem live_iff_entryAt : Live entries ref ↔ ∃ entry, entryAt entries ref = some entry := by
  unfold entryAt Live
  by_cases zero : ref = 0
  · simp [zero]
  · simp only [ne_eq, zero, not_false_eq_true, true_and, if_false]
    rw [← Option.isSome_iff_exists, isSome_getElem?]
    omega

theorem Live.append (live : Live entries ref) : Live (entries ++ later) ref :=
  ⟨live.1, by rw [List.length_append]; exact Nat.le_add_right_of_le live.2⟩

theorem entryAt_append (live : Live entries ref) : entryAt (entries ++ later) ref = entryAt entries ref := by
  unfold entryAt
  rw [List.getElem?_append_left (by have := live.1; have := live.2; omega)]

theorem treeAt_append (live : Live entries ref) : treeAt (entries ++ later) ref = treeAt entries ref := by
  unfold treeAt lookup
  obtain ⟨added, grown⟩ := trees_prefix entries later
  have inside : ref - 1 < (trees entries).length := by
    rw [length_trees]
    have := live.1
    have := live.2
    omega
  rw [← grown, List.getElem?_append_left inside]

theorem entryAt_last : entryAt (entries ++ [entry]) (entries.length + 1) = some entry := by
  simp [entryAt]

theorem Backward.of_append (backward : Backward (entries ++ later)) : Backward entries := by
  intro ref entry held
  have live := live_iff_entryAt.mpr ⟨entry, held⟩
  exact backward ref entry ((entryAt_append live).trans held)

theorem Backward.append (backward : Backward entries) (inside : ∀ child ∈ entry.children, Live entries child) :
    Backward (entries ++ [entry]) := by
  intro ref other held child member
  by_cases old : Live entries ref
  · exact backward ref other ((entryAt_append old).symm.trans held) child member
  · have live := live_iff_entryAt.mpr ⟨other, held⟩
    have top : ref = entries.length + 1 := by
      have bound := live.2
      rw [List.length_append, List.length_singleton] at bound
      by_contra apart
      exact old ⟨live.1, by omega⟩
    subst top
    rw [entryAt_last] at held
    obtain rfl := Option.some.inj held
    exact ⟨(inside child member).1, Nat.lt_succ_of_le (inside child member).2⟩

theorem filterMap_congr_treeAt {children : List Nat} (inside : ∀ child ∈ children, Live entries child) :
    children.filterMap (treeAt (entries ++ later)) = children.filterMap (treeAt entries) := by
  induction children with
  | nil => rfl
  | cons child rest ih =>
    rw [List.filterMap_cons, List.filterMap_cons, treeAt_append (inside child List.mem_cons_self),
      ih (fun c member => inside c (List.mem_cons_of_mem _ member))]

theorem treeAt_of_entryAt (backward : Backward entries) (held : entryAt entries ref = some entry) :
    treeAt entries ref = some (.node entry.label (entry.children.filterMap (treeAt entries))) := by
  induction entries using List.reverseRecOn with
  | nil => simp [entryAt] at held
  | append_singleton entries last ih =>
    by_cases old : Live entries ref
    · rw [entryAt_append old] at held
      rw [treeAt_append old, ih backward.of_append held]
      congr 2
      refine (filterMap_congr_treeAt (fun child member => ?_)).symm
      obtain ⟨positive, below⟩ := backward.of_append ref entry held child member
      exact ⟨positive, by have := old.2; omega⟩
    · have live := live_iff_entryAt.mpr ⟨entry, held⟩
      have top : ref = entries.length + 1 := by
        have bound := live.2
        rw [List.length_append, List.length_singleton] at bound
        by_contra apart
        exact old ⟨live.1, by omega⟩
      subst top
      have children := backward (entries.length + 1) entry held
      rw [entryAt_last] at held
      obtain rfl := Option.some.inj held
      rw [filterMap_congr_treeAt (fun child member => ⟨(children child member).1, Nat.lt_succ_iff.mp (children child member).2⟩)]
      simp [treeAt, lookup]

theorem entryAt_injective (nodup : entries.Nodup) (first : entryAt entries ref = some entry)
    (second : entryAt entries ref' = some entry) : ref = ref' := by
  have positive := (live_iff_entryAt.mpr ⟨entry, first⟩).1
  have positive' := (live_iff_entryAt.mpr ⟨entry, second⟩).1
  rw [entryAt, if_neg positive] at first
  rw [entryAt, if_neg positive'] at second
  have position := (List.getElem?_inj (List.getElem?_eq_some_iff.mp first).1 nodup).mp (first.trans second.symm)
  omega

theorem filterMap_treeAt_injective {children children' : List Nat} (bound : Nat)
    (unique : ∀ ref < bound, ∀ ref' tree, treeAt entries ref = some tree → treeAt entries ref' = some tree → ref = ref')
    (inside : ∀ child ∈ children, Live entries child ∧ child < bound) (inside' : ∀ child ∈ children', Live entries child)
    (same : children.filterMap (treeAt entries) = children'.filterMap (treeAt entries)) : children = children' := by
  induction children generalizing children' with
  | nil =>
    cases children' with
    | nil => rfl
    | cons child rest =>
      obtain ⟨tree, held⟩ := (inside' child List.mem_cons_self).exists_tree
      rw [List.filterMap_nil, List.filterMap_cons_some held] at same
      cases same
  | cons child rest ih =>
    obtain ⟨tree, held⟩ := (inside child List.mem_cons_self).1.exists_tree
    rw [List.filterMap_cons_some held] at same
    cases children' with
    | nil => cases same
    | cons child' rest' =>
      obtain ⟨tree', held'⟩ := (inside' child' List.mem_cons_self).exists_tree
      rw [List.filterMap_cons_some held'] at same
      obtain ⟨rfl, tails⟩ := List.cons.inj same
      rw [unique child (inside child List.mem_cons_self).2 child' tree held held',
        ih (fun c member => inside c (List.mem_cons_of_mem _ member))
          (fun c member => inside' c (List.mem_cons_of_mem _ member)) tails]

theorem treeAt_injective (backward : Backward entries) (nodup : entries.Nodup)
    (first : treeAt entries ref = some tree) (second : treeAt entries ref' = some tree) : ref = ref' := by
  induction ref using Nat.strongRecOn generalizing ref' tree with
  | ind ref ih =>
    obtain ⟨entry, held⟩ := live_iff_entryAt.mp (live_of_treeAt first)
    obtain ⟨entry', held'⟩ := live_iff_entryAt.mp (live_of_treeAt second)
    rw [treeAt_of_entryAt backward held] at first
    rw [treeAt_of_entryAt backward held'] at second
    obtain ⟨labels, parts⟩ := Rose.node.inj (Option.some.inj (first.trans second.symm))
    have children : entry.children = entry'.children := by
      refine filterMap_treeAt_injective ref (fun child below child' tree' => ih child below) ?_ ?_ parts
      · intro child member
        obtain ⟨positive, below⟩ := backward ref entry held child member
        exact ⟨⟨positive, by have := (live_iff_entryAt.mpr ⟨entry, held⟩).2; omega⟩, below⟩
      · intro child member
        obtain ⟨positive, below⟩ := backward ref' entry' held' child member
        exact ⟨positive, by have := (live_iff_entryAt.mpr ⟨entry', held'⟩).2; omega⟩
    have same : entry = entry' := by
      cases entry
      cases entry'
      simp_all
    subst same
    exact entryAt_injective nodup held held'

theorem height_le_of_treeAt (backward : Backward entries) (held : treeAt entries ref = some tree) :
    tree.height ≤ ref := by
  induction ref using Nat.strongRecOn generalizing tree with
  | ind ref ih =>
    obtain ⟨entry, stored⟩ := live_iff_entryAt.mp (live_of_treeAt held)
    rw [treeAt_of_entryAt backward stored] at held
    obtain rfl := Option.some.inj held
    rw [Rose.height_node]
    have positive := (live_iff_entryAt.mpr ⟨entry, stored⟩).1
    suffices bound : ∀ h ∈ (entry.children.filterMap (treeAt entries)).map Rose.height, h ≤ ref - 1 by
      have := Rose.foldl_max_le (Nat.zero_le _) bound
      omega
    intro h member
    obtain ⟨child, inside, rfl⟩ := List.mem_map.mp member
    obtain ⟨position, listed, found⟩ := List.mem_filterMap.mp inside
    have below := (backward ref entry stored position listed).2
    have := ih position below found
    omega

end Stores

end PhyNspire.Lib.Trees

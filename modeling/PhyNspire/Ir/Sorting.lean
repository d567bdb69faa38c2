import PhyNspire.Ir.Ordering
import PhyNspire.Ir.Sums

/-!
`phy_ir_sort_refs` sorts the refs by the expressions that they stand for. Refs of no node
come first, so the comparator is total on every array of refs.
-/

namespace PhyNspire.Ir.Sorting
open Lib Lib.Trees Expressions Context Order Ordering Layout Sums

variable {pools : Pools} {graph : Graph}

def RefLe (graph : Graph) (a b : Nat) : Prop :=
  match treeAt graph.entries a, treeAt graph.entries b with
  | none, _ => True
  | some _, none => False
  | some x, some y => (compareExprs x y).isLE

theorem refLe_total (a b : Nat) : RefLe graph a b ∨ RefLe graph b a := by
  unfold RefLe
  cases treeAt graph.entries a with
  | none => exact .inl trivial
  | some x =>
    cases treeAt graph.entries b with
    | none => exact .inr trivial
    | some y =>
      dsimp only
      rw [compareExprs_swap x y]
      cases compareExprs x y <;> simp

theorem refLe_trans (a b c : Nat) (first : RefLe graph a b) (second : RefLe graph b c) : RefLe graph a c := by
  unfold RefLe at *
  cases left : treeAt graph.entries a with
  | none => trivial
  | some x =>
    cases middle : treeAt graph.entries b with
    | none =>
      rw [left, middle] at first
      exact first.elim
    | some y =>
      cases right : treeAt graph.entries c with
      | none =>
        rw [middle, right] at second
        exact second.elim
      | some z =>
        rw [left, middle] at first
        rw [middle, right] at second
        exact Std.TransCmp.isLE_trans first second

theorem nodeAt_eq_none_iff (sound : Sound pools graph) (ref : Nat) :
    nodeAt pools ref = none ↔ treeAt graph.entries ref = none := by
  constructor
  · intro missing
    cases held : treeAt graph.entries ref with
    | none => rfl
    | some tree =>
      obtain ⟨entry, stored⟩ := live_iff_entryAt.mp (live_of_treeAt held)
      obtain ⟨node, listed, _⟩ := sound.nodes.nodeAt_entry stored
      rw [missing] at listed
      cases listed
  · intro missing
    cases held : nodeAt pools ref with
    | none => rfl
    | some node =>
      obtain ⟨entry, stored, _⟩ := sound.nodes.entryAt_node held
      obtain ⟨tree, found⟩ := (live_iff_entryAt.mpr ⟨entry, stored⟩).exists_tree
      rw [missing] at found
      cases found

theorem nodeAt_of_treeAt (sound : Sound pools graph) {ref : Nat} {tree : Expr} (held : treeAt graph.entries ref = some tree) :
    ∃ node, nodeAt pools ref = some node := by
  obtain ⟨entry, stored⟩ := live_iff_entryAt.mp (live_of_treeAt held)
  obtain ⟨node, listed, _⟩ := sound.nodes.nodeAt_entry stored
  exact ⟨node, listed⟩

theorem irCompare_gt_iff (sound : Sound pools graph) (a b : Nat) :
    decide (irCompare pools a b = .gt) = true ↔ ¬RefLe graph a b := by
  rw [decide_eq_true_eq]
  unfold RefLe
  cases left : treeAt graph.entries a with
  | none =>
    have missing := (nodeAt_eq_none_iff sound a).mpr left
    simp only [not_true_eq_false, iff_false]
    unfold irCompare
    cases pools.nodes.length with
    | zero => simp [irCompareUpTo]
    | succ depth =>
      rw [irCompareUpTo, missing]
      cases nodeAt pools b <;> split <;> simp
  | some x =>
    cases right : treeAt graph.entries b with
    | none =>
      have missing := (nodeAt_eq_none_iff sound b).mpr right
      obtain ⟨node, listed⟩ := nodeAt_of_treeAt sound left
      have apart : a ≠ b := by
        rintro rfl
        rw [left] at right
        cases right
      simp only [not_false_eq_true, iff_true]
      rw [irCompare, sound.nodes.count, irCompareUpTo, if_neg apart, listed, missing]
    | some y =>
      rw [irCompare_spec sound left right]
      cases order : compareExprs x y <;> simp [order]

theorem irSortRefs_spec (sound : Sound pools graph) (refs : List Nat) :
    (irSortRefs pools refs).Pairwise (RefLe graph) ∧ (irSortRefs pools refs).Perm refs :=
  Heapsort.heapsort_sorted refLe_total refLe_trans (irCompare_gt_iff sound) refs

theorem filterMap_irSortRefs (sound : Sound pools graph) (refs : List Nat) :
    (irSortRefs pools refs).filterMap (treeAt graph.entries) = sortExprs (refs.filterMap (treeAt graph.entries)) := by
  obtain ⟨sorted, perm⟩ := irSortRefs_spec sound refs
  refine (sortExprs_eq ?_ (perm.filterMap _)).symm
  refine List.Pairwise.filterMap _ (fun a b held x first y second => ?_) sorted
  rw [RefLe] at held
  rw [first, second] at held
  exact held

end PhyNspire.Ir.Sorting

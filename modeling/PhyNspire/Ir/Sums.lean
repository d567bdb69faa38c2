import PhyNspire.Ir.Layout

/-!
Runs of an associative kind as expressions: an operand of the kind is absorbed into the
run, the run of a commutative kind is sorted, and a run of one expression is that
expression. Grouping and, for a commutative kind, order do not matter.
-/

namespace PhyNspire.Ir.Sums
open Lib Lib.Trees Expressions Layout

def contribution (label : Label) (operand : Expr) : List Expr :=
  if operand.label = label then operand.children else [operand]

def sortExprs (exprs : List Expr) : List Expr := exprs.mergeSort fun left right => (compareExprs left right).isLE

def arrange (label : Label) (run : List Expr) : List Expr := if label.kind.commutative then sortExprs run else run

def pack (label : Label) (run : List Expr) : Expr :=
  match run with
  | [single] => single
  | _ => .node label run

/-- The expression of a call over `operands`. -/
def nary (label : Label) (operands : List Expr) : Expr := pack label (arrange label (operands.flatMap (contribution label)))

def Alike (label : Label) (first second : List Expr) : Prop :=
  if label.kind.commutative then first.Perm second else first = second

def Settled (label : Label) (operand : Expr) : Prop :=
  operand.label = label → 2 ≤ operand.children.length ∧ (∀ child ∈ operand.children, child.label ≠ label) ∧
    (label.kind.commutative = true → SortedExprs operand.children)

section

variable {label : Label} {operand : Expr} {operands first second run : List Expr}

theorem compareExprs_swap (a b : Expr) : compareExprs b a = (compareExprs a b).swap := Std.OrientedCmp.eq_swap

theorem sortExprs_perm (exprs : List Expr) : (sortExprs exprs).Perm exprs := List.mergeSort_perm _ _

theorem sorted_sortExprs (exprs : List Expr) : SortedExprs (sortExprs exprs) := by
  refine List.pairwise_mergeSort ?_ ?_ exprs
  · intro a b c first second
    exact Std.TransCmp.isLE_trans first second
  · intro a b
    rw [compareExprs_swap a b]
    cases compareExprs a b <;> rfl

theorem sorted_unique (perm : first.Perm second) (sorted : SortedExprs first) (sorted' : SortedExprs second) :
    first = second := by
  refine List.Perm.eq_of_pairwise (fun a b _ _ low high => ?_) sorted sorted' perm
  rw [compareExprs_swap a b] at high
  have equal : compareExprs a b = .eq := by
    cases order : compareExprs a b <;> simp [order] at low high ⊢
  exact Std.LawfulEqCmp.eq_of_compare equal

theorem sortExprs_congr (perm : first.Perm second) : sortExprs first = sortExprs second :=
  sorted_unique (((sortExprs_perm first).trans perm).trans (sortExprs_perm second).symm) (sorted_sortExprs first)
    (sorted_sortExprs second)

theorem sortExprs_eq (sorted : SortedExprs run) (perm : run.Perm first) : sortExprs first = run :=
  sorted_unique ((sortExprs_perm first).trans perm.symm) (sorted_sortExprs first) sorted

theorem arrange_congr (alike : Alike label first second) : arrange label first = arrange label second := by
  unfold Alike at alike
  unfold arrange
  split at alike
  · rename_i commutes
    rw [if_pos commutes, if_pos commutes, sortExprs_congr alike]
  · rw [alike]

theorem arrange_alike (label : Label) (run : List Expr) : Alike label (arrange label run) run := by
  unfold Alike arrange
  by_cases commutes : label.kind.commutative
  · rw [if_pos commutes, if_pos commutes]
    exact sortExprs_perm run
  · rw [if_neg commutes, if_neg commutes]

theorem Alike.perm (alike : Alike label first second) : first.Perm second := by
  unfold Alike at alike
  split at alike
  · exact alike
  · exact alike ▸ List.Perm.refl _

theorem contribution_ne (settled : Settled label operand) : ∀ part ∈ contribution label operand, part.label ≠ label := by
  intro part inside
  unfold contribution at inside
  split at inside
  · rename_i absorbed
    exact (settled absorbed).2.1 part inside
  · rename_i kept
    rwa [List.mem_singleton.mp inside]

theorem contribution_ne_nil (settled : Settled label operand) : contribution label operand ≠ [] := by
  unfold contribution
  split
  · rename_i absorbed
    intro empty
    have long := (settled absorbed).1
    rw [empty] at long
    exact absurd long (by decide)
  · exact List.cons_ne_nil _ _

theorem contribution_pack (some : run ≠ []) (apart : ∀ part ∈ run, part.label ≠ label) :
    contribution label (pack label run) = run := by
  unfold pack
  split
  · rename_i single
    rw [contribution, if_neg (apart single List.mem_cons_self)]
  · rw [contribution, Rose.label_node, if_pos rfl, Rose.children_node]

theorem flatMap_contribution_ne (settled : ∀ operand ∈ operands, Settled label operand) :
    ∀ part ∈ operands.flatMap (contribution label), part.label ≠ label := by
  intro part inside
  obtain ⟨operand, listed, held⟩ := List.mem_flatMap.mp inside
  exact contribution_ne (settled operand listed) part held

theorem flatMap_contribution_ne_nil (some : operands ≠ []) (settled : ∀ operand ∈ operands, Settled label operand) :
    operands.flatMap (contribution label) ≠ [] := by
  obtain ⟨operand, rest, rfl⟩ := List.exists_cons_of_ne_nil some
  rw [List.flatMap_cons]
  intro empty
  exact contribution_ne_nil (settled operand List.mem_cons_self) (List.append_eq_nil_iff.mp empty).1

theorem arrange_ne (apart : ∀ part ∈ run, part.label ≠ label) : ∀ part ∈ arrange label run, part.label ≠ label := by
  intro part inside
  exact apart part ((arrange_alike label run).perm.mem_iff.mp inside)

theorem arrange_ne_nil (some : run ≠ []) : arrange label run ≠ [] := by
  intro empty
  have perm := (arrange_alike label run).perm
  rw [empty] at perm
  exact some perm.nil_eq.symm

theorem arrange_sorted (run : List Expr) (commutes : label.kind.commutative = true) : SortedExprs (arrange label run) := by
  rw [arrange, if_pos commutes]
  exact sorted_sortExprs run

theorem contribution_nary (some : operands ≠ []) (settled : ∀ operand ∈ operands, Settled label operand) :
    Alike label (contribution label (nary label operands)) (operands.flatMap (contribution label)) := by
  rw [nary, contribution_pack (arrange_ne_nil (flatMap_contribution_ne_nil some settled))
    (arrange_ne (flatMap_contribution_ne settled))]
  exact arrange_alike _ _

theorem nary_congr (alike : Alike label (first.flatMap (contribution label)) (second.flatMap (contribution label))) :
    nary label first = nary label second := by
  rw [nary, nary, arrange_congr alike]

theorem nary_singleton (settled : Settled label operand) : nary label [operand] = operand := by
  rw [nary, List.flatMap_singleton]
  unfold contribution
  split
  · rename_i absorbed
    obtain ⟨long, _, sorted⟩ := settled absorbed
    have kept : arrange label operand.children = operand.children := by
      unfold arrange
      split
      · rename_i commutes
        exact sortExprs_eq (sorted commutes) (List.Perm.refl _)
      · rfl
    rw [kept]
    match operand, absorbed, long with
    | .node _ (_ :: _ :: _), rfl, _ => rfl
  · unfold arrange
    split
    · rw [sortExprs_eq (List.pairwise_singleton _ _) (List.Perm.refl _)]
      rfl
    · rfl

end

end PhyNspire.Ir.Sums

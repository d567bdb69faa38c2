import PhyNspire.Ir.Runs

/-!
Sums and products do not see how their operands were grouped: nested calls of one builder
over any arrangement of the same operands end at one ref.
-/

namespace PhyNspire.Ir.Bracketings
open Lib Lib.Stateful Lib.Trees Expressions Context Order Builders Layout Sums Construction Denotation Calls Runs
open Sorting

inductive Bracketing where
  | operand (ref : Nat)
  | call (parts : List Bracketing)

namespace Bracketing

mutual
def leaves : Bracketing → List Nat
  | operand ref => [ref]
  | call parts => leavesAll parts

def leavesAll : List Bracketing → List Nat
  | [] => []
  | part :: rest => leaves part ++ leavesAll rest
end

mutual
/-- The calls, innermost first and from left to right. -/
def run (builder : List Nat → IrM Nat) : Bracketing → IrM Nat
  | operand ref => pure ref
  | call parts => do
      let refs ← runAll builder parts
      builder refs

def runAll (builder : List Nat → IrM Nat) : List Bracketing → IrM (List Nat)
  | [] => pure []
  | part :: rest => do
      let ref ← run builder part
      let refs ← runAll builder rest
      pure (ref :: refs)
end

end Bracketing

section

variable {s t u v : IrContext} {graph graph' : Graph} {label : Label} {ref ref' : Nat}

def partsOf (label : Label) (exprs : List Expr) : List Expr := exprs.flatMap (contribution label)

/-- What a bracketing has come to: an operand of the kind that contributes what its leaves do. -/
structure Gathered (graph : Graph) (label : Label) (leaves : List Nat) (graph' : Graph) (ref : Nat) : Prop where
  tree : ∃ expr, treeAt graph'.entries ref = some expr ∧
    (contribution label expr).Perm (partsOf label (treesOf graph leaves))

structure GatheredAll (graph : Graph) (label : Label) (leaves : List Nat) (graph' : Graph) (refs : List Nat) : Prop where
  live : AllLive graph' refs
  parts : (partsOf label (treesOf graph' refs)).Perm (partsOf label (treesOf graph leaves))

theorem settled_of_treesOf (sound : Sound s.pools graph) (associative : Associative label) {refs : List Nat} :
    ∀ operand ∈ treesOf graph refs, Settled label operand := fun operand inside =>
  associative.settled (shaped_of_mem_treesOf sound.wellFormed operand inside)

theorem treesOf_grows (grows : Grows graph graph') {refs : List Nat} (live : AllLive graph refs) :
    treesOf graph' refs = treesOf graph refs := Grows.trees grows live

theorem treesOf_append (graph : Graph) (first second : List Nat) :
    treesOf graph (first ++ second) = treesOf graph first ++ treesOf graph second := List.filterMap_append

theorem partsOf_append (label : Label) (first second : List Expr) :
    partsOf label (first ++ second) = partsOf label first ++ partsOf label second := List.flatMap_append

open Bracketing in
mutual
theorem run_spec {s : IrContext} {graph : Graph} (sound : Sound s.pools graph) (associative : Associative label) (bracketing : Bracketing)
    (live : AllLive graph bracketing.leaves) :
    wp (bracketing.run (makeNary label.kind)) (fun ref t => ∃ graph', Published s t graph graph' ∧
      Gathered graph label bracketing.leaves graph' ref) (fun _ _ => True) s := by
  match bracketing with
  | .operand ref =>
    obtain ⟨expr, held⟩ := (live ref (List.mem_singleton_self ref)).exists_tree
    have alone : treesOf graph [ref] = [expr] := List.filterMap_cons_some held
    refine ⟨graph, .of_kept sound (.refl s), ⟨expr, held, ?_⟩⟩
    rw [Bracketing.leaves, alone, partsOf, List.flatMap_singleton]
  | .call parts =>
    rw [Bracketing.run]
    simp only [wp_bind]
    refine wp_mono (runAll_spec sound associative parts live) (fun refs t held => ?_) (fun _ _ _ => trivial)
    obtain ⟨graph', published, gathered⟩ := held
    refine wp_mono (makeNary_makes published.sound associative refs) (fun ref u made => ?_) (fun _ _ _ => trivial)
    obtain ⟨filled, alive, graph'', published', _, tree⟩ := made
    refine ⟨graph'', Published.trans published published', ⟨_, tree, ?_⟩⟩
    have trees : treesOf graph' refs ≠ [] := by
      intro empty
      have size := length_treesOf alive
      rw [empty] at size
      exact filled (List.length_eq_zero_iff.mp size.symm)
    exact (contribution_nary trees (settled_of_treesOf published.sound associative)).perm.trans gathered.parts

theorem runAll_spec {s : IrContext} {graph : Graph} (sound : Sound s.pools graph) (associative : Associative label) (parts : List Bracketing)
    (live : AllLive graph (leavesAll parts)) :
    wp (runAll (makeNary label.kind) parts) (fun refs t => ∃ graph', Published s t graph graph' ∧
      GatheredAll graph label (leavesAll parts) graph' refs) (fun _ _ => True) s := by
  match parts with
  | [] => exact ⟨graph, .of_kept sound (.refl s), ⟨fun _ inside => absurd inside List.not_mem_nil, List.Perm.refl _⟩⟩
  | part :: rest =>
    rw [leavesAll] at live
    have first : AllLive graph part.leaves := fun ref inside => live ref (List.mem_append_left _ inside)
    have later : AllLive graph (leavesAll rest) := fun ref inside => live ref (List.mem_append_right _ inside)
    rw [runAll]
    simp only [wp_bind, wp_pure]
    refine wp_mono (run_spec sound associative part first) (fun ref t held => ?_) (fun _ _ _ => trivial)
    obtain ⟨graph', published, ⟨expr, tree, gathered⟩⟩ := held
    have later' : AllLive graph' (leavesAll rest) := fun ref inside => Grows.live published.grows (later ref inside)
    refine wp_mono (runAll_spec published.sound associative rest later') (fun refs u held => ?_) (fun _ _ _ => trivial)
    obtain ⟨graph'', published', ⟨alive, parts⟩⟩ := held
    have tree' := Grows.treeAt_some published'.grows tree
    refine ⟨graph'', Published.trans published published', ⟨?_, ?_⟩⟩
    · intro other inside
      rcases List.mem_cons.mp inside with rfl | inside
      · exact live_of_treeAt tree'
      · exact alive other inside
    · have cut : treesOf graph'' (ref :: refs) = expr :: treesOf graph'' refs := List.filterMap_cons_some tree'
      rw [cut, leavesAll, treesOf_append, partsOf_append, partsOf, List.flatMap_cons]
      rw [treesOf_grows published.grows later] at parts
      exact gathered.append parts
end

theorem eq_of_contribution {x y : Expr} (commutes : label.kind.commutative = true) (first : Settled label x)
    (second : Settled label y) (same : (contribution label x).Perm (contribution label y)) : x = y := by
  rw [← nary_singleton first, ← nary_singleton second]
  refine nary_congr ?_
  rw [Alike, if_pos commutes, List.flatMap_singleton, List.flatMap_singleton]
  exact same

theorem Bracketing.run_unique (sound : Sound s.pools graph) (associative : Associative label)
    (commutes : label.kind.commutative = true) {first second : Bracketing} (live : AllLive graph first.leaves)
    (perm : first.leaves.Perm second.leaves) (ran : first.run (makeNary label.kind) s = .ok ref t)
    (later : Reaches t u) (ran' : second.run (makeNary label.kind) u = .ok ref' v) : ref' = ref := by
  obtain ⟨graph', published, ⟨x, tree, parts⟩⟩ := (wp_of_ok ran).mp (run_spec sound associative first live)
  obtain ⟨middle, published'⟩ := (later.progress published.sound).published published.sound
  have grown := Published.trans published published'
  have live' : AllLive middle second.leaves := fun ref inside =>
    Grows.live grown.grows (live ref (perm.mem_iff.mpr inside))
  obtain ⟨final, published'', ⟨y, tree', parts'⟩⟩ :=
    (wp_of_ok ran').mp (run_spec published'.sound associative second live')
  have held := Grows.treeAt_some (Published.trans published' published'').grows tree
  have settled {ref : Nat} {expr : Expr} (held : treeAt final.entries ref = some expr) : Settled label expr :=
    associative.settled (shaped_of_treeAt published''.sound.wellFormed held)
  have leaves : treesOf middle second.leaves = treesOf graph second.leaves :=
    treesOf_grows grown.grows fun ref inside => live ref (perm.mem_iff.mpr inside)
  have same : (contribution label x).Perm (contribution label y) := by
    refine parts.trans (List.Perm.trans ?_ parts'.symm)
    rw [leaves]
    exact (perm.filterMap _).flatMap_right _
  obtain rfl := eq_of_contribution commutes (settled held) (settled tree') same
  exact exprAt_injective published''.sound tree' held

/-- `phy_ir_add` and `phy_ir_mul`. -/
def Commutative (builder : List Nat → IrM Nat) (kind : Kind) : Prop :=
  builder = irAdd ∧ kind = .add ∨ builder = irMul ∧ kind = .mul

theorem Commutative.spec {builder : List Nat → IrM Nat} {kind : Kind} (commutative : Commutative builder kind) :
    ∃ label : Label, Associative label ∧ label.kind = kind ∧ kind.commutative = true ∧ builder = makeNary kind := by
  rcases commutative with ⟨rfl, rfl⟩ | ⟨rfl, rfl⟩
  · exact ⟨.add, .inl rfl, rfl, rfl, rfl⟩
  · exact ⟨.mul, .inr (.inl rfl), rfl, rfl, rfl⟩

theorem makeNary_single (kind : Kind) {operands : List Nat} {single : Nat} (associative : kind.associative = true)
    (flat : operands.flatMap (stageOperand s.pools kind) = [single]) (ran : makeNary kind operands s = .ok ref t) :
    ref = single := by
  have held : wp (makeNary kind operands) (fun ref _ => ref = single) (fun _ _ => True) s := by
    unfold makeNary
    apply wp_ite
    · intro _
      exact wp_refuse _ (fun _ _ => trivial)
    intro _
    simp only [wp_bind, wp_get]
    split
    · exact wp_refuse _ (fun _ _ => trivial)
    apply wp_ite
    · intro _
      exact wp_refuse _ (fun _ _ => trivial)
    intro _
    simp only [wp_bind]
    refine wp_mono (reserve_spec _ _) (fun _ _ _ => ?_) (fun _ _ _ => trivial)
    have sorted : irSortRefs s.pools [single] = [single] := rfl
    rw [flat, sorted, ite_self]
    simp only [associative, if_true, wp_pure]
  exact (wp_of_ok ran).mp held

/-- Sums and products of a run: every bracketing of every permutation of live operands ends at
the same ref, whatever happens in between, and a single flattened operand is returned itself. -/
theorem nary_order_and_grouping {builder : List Nat → IrM Nat} {kind : Kind} (commutative : Commutative builder kind)
    (reachable : Reachable s) :
    (∀ (first second : Bracketing) t u v ref ref', (∀ leaf ∈ first.leaves, nodeAt s.pools leaf ≠ none) →
      first.leaves.Perm second.leaves → first.run builder s = .ok ref t → Reaches t u →
      second.run builder u = .ok ref' v → ref' = ref) ∧
    (∀ operands single t ref, operands.flatMap (stageOperand s.pools kind) = [single] →
      builder operands s = .ok ref t → ref = single) ∧
    ∀ operand t ref, nodeAt s.pools operand ≠ none → builder [operand] s = .ok ref t → ref = operand := by
  obtain ⟨label, associative, rfl, commutes, rfl⟩ := commutative.spec
  have sound := reachable.sound
  have live {ref : Nat} (there : nodeAt s.pools ref ≠ none) : Live (graphOf s.pools).entries ref := by
    obtain ⟨node, listed⟩ := Option.ne_none_iff_exists'.mp there
    exact live_of_nodeAt sound listed
  refine ⟨?_, ?_, ?_⟩
  · intro first second t u v ref ref' there perm ran later ran'
    exact Bracketing.run_unique sound associative commutes (fun leaf inside => live (there leaf inside)) perm ran later ran'
  · intro operands single t ref flat ran
    exact makeNary_single label.kind associative.spec.2.2.2 flat ran
  · intro operand t ref there ran
    obtain ⟨_, _, graph', published, _, tree⟩ := (wp_of_ok ran).mp (makeNary_makes sound associative [operand])
    obtain ⟨expr, held⟩ := (live there).exists_tree
    have alone : treesOf (graphOf s.pools) [operand] = [expr] := List.filterMap_cons_some held
    rw [alone, nary_singleton (associative.settled (shaped_of_treeAt sound.wellFormed held))] at tree
    exact exprAt_injective published.sound tree (Grows.treeAt_some published.grows held)

/-- `(x + 2) + (-3/2)`, then `-3/2 + (2 + x)` in one call. -/
def regrouping : IrM (Nat × Nat) := do
  let ref ← Bracketing.run irAdd (.call [.call [.operand 1, .operand 2], .operand 5])
  let ref' ← Bracketing.run irAdd (.call [.operand 5, .operand 2, .operand 1])
  pure (ref, ref')

theorem nary_regrouped : ∃ s, shortContext = some s ∧ ∃ refs t, regrouping s = .ok refs t ∧ refs.2 = refs.1 := by
  obtain ⟨s, ended⟩ := Option.isSome_iff_exists.mp (by decide +kernel : shortContext.isSome = true)
  have runs : (shortContext.map fun s => (valueOf regrouping s).isSome) = some true := by decide +kernel
  have live : (shortContext.map fun s => [1, 2, 5].all fun leaf => decide (nodeAt s.pools leaf ≠ none)) = some true := by
    decide +kernel
  rw [ended, Option.map_some, Option.some.injEq] at runs live
  obtain ⟨grouped, _⟩ := nary_order_and_grouping (.inl ⟨rfl, rfl⟩) (reachable_of_contextOf ended)
  refine ⟨s, ended, ?_⟩
  have held : wp regrouping (fun refs _ => refs.2 = refs.1) (fun _ _ => True) s := by
    unfold regrouping
    simp only [wp_bind, wp_pure]
    refine wp_of_run (fun ref t first => wp_of_run (fun ref' u second => ?_) (fun _ _ _ => trivial)) (fun _ _ _ => trivial)
    have alive (leaf : Nat) (inside : leaf ∈ [1, 2, 5]) : nodeAt s.pools leaf ≠ none :=
      of_decide_eq_true (List.all_eq_true.mp live leaf inside)
    exact grouped (.call [.call [.operand 1, .operand 2], .operand 5]) (.call [.operand 5, .operand 2, .operand 1])
      t t u ref ref' alive (by decide) first .refl second
  exact wp_value held runs

end

end PhyNspire.Ir.Bracketings

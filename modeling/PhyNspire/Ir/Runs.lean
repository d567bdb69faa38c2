import PhyNspire.Ir.Calls
import PhyNspire.Ir.Validity

/-!
Whole runs of a context: every call, declaration and read, in any order and with any of
them failing. What holds after every step, and what every step leaves alone.
-/

namespace PhyNspire.Ir.Runs
open Platform Lib Lib.Stateful Lib.Chains Lib.Trees Expressions Context Symbols Nodes Order Builders Validation Reader
open Layout Sums Construction Denotation Calls Validity Ordering Sorting

inductive IrOperation where
  | build (call : IrCall)
  | declare (declaration : IrDeclaration)
  | read (text : List UInt8)
  | readDeclarations (text : List UInt8)
  | clearError
deriving DecidableEq, Repr

/-- The context that a call leaves, however it ends. -/
def after {α : Type} (program : IrM α) (context : IrContext) : IrContext :=
  match program context with
  | .ok _ context => context
  | .error _ context => context

def IrOperation.step : IrOperation → IrContext → IrContext
  | build call, context => after call.run context
  | declare declaration, context => after declaration.run context
  | read text, context => (irRead context text).2
  | readDeclarations text, context => (irReadDeclarations context text).2
  | clearError, context => irClearError context

/-- The contexts that operations lead to from `context`. -/
inductive Reaches (context : IrContext) : IrContext → Prop where
  | refl : Reaches context context
  | step {reached : IrContext} (before : Reaches context reached) (operation : IrOperation) :
      Reaches context (operation.step reached)

def Reachable (context : IrContext) : Prop :=
  ∃ limits heap created heap', irContextCreate limits heap = (some created, heap') ∧ Reaches created context

section

variable {s t : IrContext} {graph : Graph}

def freshPools : Pools where
  nodes := [.null]
  children := []
  rationals := []
  bigExacts := []
  exactText := []
  symbols := [.null]
  strings := []
  symmetries := [.null]
  nodeBuckets := List.replicate 256 0
  symbolBuckets := List.replicate 128 0

theorem openPools_spec (blank : s.pools = ⟨[], [], [], [], [], [], [], [], [], []⟩) :
    wp openPools (fun _ t => t.pools = freshPools ∧ t.limits = s.limits) (fun _ _ => True) s := by
  unfold openPools pushNode pushSymbol pushSymmetry bucketsInit setCapacity changePools
  simp only [wp_bind, wp_get, wp_modify, wp_pure]
  refine wp_mono (reserve_spec _ _) (fun _ t first => ?_) (fun _ _ _ => trivial)
  refine wp_mono (reserve_spec _ _) (fun _ u second => ?_) (fun _ _ _ => trivial)
  refine wp_mono (reserve_spec _ _) (fun _ v third => ?_) (fun _ _ _ => trivial)
  refine wp_mono (poolReserve_spec _ _ _) (fun _ w fourth => ?_) (fun _ _ _ => trivial)
  refine wp_mono (poolReserve_spec _ _ _) (fun _ x fifth => ?_) (fun _ _ _ => trivial)
  refine ⟨?_, ?_⟩
  · simp only [fifth.pools, fourth.pools, third.pools, second.pools, first.pools, blank]
    rfl
  · simp only [fifth.limits, fourth.limits, third.limits, second.limits, first.limits]

def emptyGraph : Graph := ⟨[], []⟩

theorem freshPools_sound : Sound freshPools emptyGraph where
  symbols :=
    { distinct := List.nodup_nil
      spelled := fun _ inside => absurd inside List.not_mem_nil
      strings := rfl
      count := rfl
      record := fun i name found => nomatch found
      buckets := by rw [freshPools, List.length_replicate]; decide
      chained := chained_empty 128 }
  nodes :=
    { children := rfl
      rationals := rfl
      exactText := rfl
      bigExacts := rfl
      count := rfl
      node := fun i entry found => nomatch found
      buckets := by rw [freshPools, List.length_replicate]; decide
      chained := chained_empty 256 }
  symmetries :=
    { sentinel := List.cons_ne_nil _ _
      owned := ⟨fun _ => 1, chained_empty 1, fun i positive below => absurd (Nat.lt_one_iff.mp below) positive⟩ }
  wellFormed :=
    { distinct := List.nodup_nil
      backward := fun ref entry found => absurd found (by unfold entryAt; split <;> simp [emptyGraph])
      shaped := fun ref entry found => absurd found (by unfold entryAt; split <;> simp [emptyGraph]) }

theorem irContextCreate_sound {limits : Option IrLimits} {heap heap' : Platform.Heap}
    (created : irContextCreate limits heap = (some s, heap')) : Sound s.pools emptyGraph := by
  unfold irContextCreate at created
  split at created
  · cases created
  dsimp only at created
  split at created
  · split at created
    · rename_i value context run
      have held := (wp_of_ok run).mp (openPools_spec rfl)
      obtain rfl : context = s := by
        cases created
        rfl
      rw [held.1]
      exact freshPools_sound
    · cases created
  · cases created

theorem after_spec {α : Type} (good : IrContext → Prop) {program : IrM α}
    (held : wp program (fun _ t => good t) (fun _ t => good t) s) : good (after program s) := by
  unfold wp at held
  unfold after
  split <;> rename_i run <;> rw [run] at held <;> exact held

theorem IrOperation.step_progress (sound : Sound s.pools graph) (operation : IrOperation) :
    Progress s (operation.step s) := by
  cases operation with
  | build call =>
    refine after_spec (Progress s) ?_
    have held := call.run_spec sound
    unfold wp at held ⊢
    split <;> rename_i run <;> rw [run] at held
    · exact .call (.refl s) call run (.refl _)
    · exact .still held
  | declare declaration =>
    refine after_spec (Progress s) ?_
    have held := declaration.run_spec sound
    unfold wp at held ⊢
    split <;> rename_i run <;> rw [run] at held
    · rename_i status t
      by_cases accepted : status = .ok
      · rw [accepted] at run
        exact .declare (.refl s) declaration run (.refl _)
      · exact .still (held.2.2 accepted)
    · exact held.elim
  | read text => exact irRead_progress sound text
  | readDeclarations text => exact irReadDeclarations_progress sound text
  | clearError => exact .still ⟨rfl, rfl⟩

theorem Reaches.progress (sound : Sound s.pools graph) (reaches : Reaches s t) : Progress s t := by
  induction reaches with
  | refl => exact .refl s
  | step before operation ih =>
    obtain ⟨graph', published⟩ := ih.published sound
    exact ih.trans (operation.step_progress published.sound)

theorem Reachable.sound (reachable : Reachable s) : Sound s.pools (graphOf s.pools) := by
  obtain ⟨limits, heap, created, heap', made, reaches⟩ := reachable
  have start := irContextCreate_sound made
  obtain ⟨graph, published⟩ := (reaches.progress start).published start
  rw [graphOf_eq published.sound]
  exact published.sound

def contextOf (limits : Option IrLimits) (heap : Platform.Heap) (operations : List IrOperation) : Option IrContext :=
  (irContextCreate limits heap).1.map fun created =>
    operations.foldl (fun context operation => operation.step context) created

theorem reaches_foldl (operations : List IrOperation) (before : Reaches s t) :
    Reaches s (operations.foldl (fun context operation => operation.step context) t) := by
  induction operations generalizing t with
  | nil => exact before
  | cons operation rest ih => exact ih (before.step operation)

theorem reachable_of_contextOf {limits : Option IrLimits} {heap : Platform.Heap} {operations : List IrOperation}
    (ended : contextOf limits heap operations = some s) : Reachable s := by
  obtain ⟨created, made, rfl⟩ := Option.map_eq_some_iff.mp ended
  exact ⟨limits, heap, created, _, Prod.ext made rfl, reaches_foldl operations .refl⟩

/-- A run that builds `x + 2`, a numeral beyond 64 bits, a fraction and a nested sum, that is
refused an empty sum, and that reads a text. -/
def shortRun : List IrOperation :=
  [.build (.internN [120]), .build (.symbolRef 1), .build (.integer 2), .build (.add [2, 1]), .build (.add []),
    .build (.integerTextN (ascii "99999999999999999999")), .build (.rational 6 (-4)), .build (.add [3, 1]),
    .read (ascii "(+ 2 x 2)")]

def shortContext : Option IrContext := contextOf none ⟨fun _ => true, 0⟩ shortRun

variable {a b ref : Nat} {node : Node}

theorem exprAt_injective (sound : Sound s.pools graph) {expr : Expr} (first : treeAt graph.entries a = some expr)
    (second : treeAt graph.entries b = some expr) : a = b :=
  treeAt_injective sound.wellFormed.backward sound.wellFormed.distinct first second

theorem entryAt_of_nodeAt (sound : Sound s.pools graph) (listed : nodeAt s.pools ref = some node) :
    entryAt graph.entries ref = some (entryOf s.pools ref node) := by
  obtain ⟨entry, stored, _⟩ := sound.nodes.entryAt_node listed
  obtain ⟨node', listed', same⟩ := entryOf_of_entryAt sound stored
  obtain rfl := Option.some.inj (listed.symm.trans listed')
  rw [stored, same]

theorem associative_shaped {label : Label} {children : List Expr} (shaped : Shaped label children)
    (associative : label.kind.associative = true) :
    (∀ child ∈ children, child.label ≠ label) ∧ (label.kind.commutative = true → SortedExprs children) := by
  cases label with
  | exact q =>
    rw [kind_exact] at associative
    split at associative <;> cases associative
  | add => exact ⟨shaped.1.2, fun _ => shaped.2⟩
  | mul => exact ⟨shaped.1.2, fun _ => shaped.2⟩
  | ncmul => exact ⟨shaped.2, fun commutes => nomatch commutes⟩
  | wedge => exact ⟨shaped.2, fun commutes => nomatch commutes⟩
  | _ => cases associative

theorem associative_of_kind {label : Label} (associative : label.kind.associative = true) : Associative label := by
  cases label with
  | exact q =>
    rw [kind_exact] at associative
    split at associative <;> cases associative
  | add => exact .inl rfl
  | mul => exact .inr (.inl rfl)
  | ncmul => exact .inr (.inr (.inl rfl))
  | wedge => exact .inr (.inr (.inr rfl))
  | _ => cases associative

theorem children_apart (sound : Sound s.pools graph) (listed : nodeAt s.pools ref = some node)
    (associative : node.kind.associative = true) : ∀ child ∈ childrenOf s.pools node, kindOf s.pools child ≠ node.kind := by
  obtain ⟨expr, held⟩ := (live_of_nodeAt sound listed).exists_tree
  obtain ⟨_, _, kind, _, children, live⟩ := node_of_tree sound listed held
  rw [kind] at associative
  have apart := (associative_shaped (shaped_of_treeAt sound.wellFormed held) associative).1
  intro child inside same
  obtain ⟨tree, found⟩ := (live child inside).exists_tree
  rw [kindOf_treeAt sound found, kind] at same
  refine apart tree ?_ ((associative_of_kind associative).kind_eq_iff.mp same)
  rw [← children]
  exact List.mem_filterMap.mpr ⟨child, inside, found⟩

theorem irCompare_ne_gt (sound : Sound s.pools graph) {x y : Expr} (first : treeAt graph.entries a = some x)
    (second : treeAt graph.entries b = some y) (sorted : (compareExprs x y).isLE) : irCompare s.pools a b ≠ .gt := by
  rw [irCompare_spec sound first second]
  cases order : compareExprs x y <;> simp [order] at sorted ⊢

theorem pairwise_of_filterMap {α β : Type} {read : α → Option β} {rel : β → β → Prop} {rel' : α → α → Prop} {items : List α}
    (reads : ∀ item ∈ items, ∃ value, read item = some value) (sorted : (items.filterMap read).Pairwise rel)
    (lifts : ∀ a b x y, read a = some x → read b = some y → rel x y → rel' a b) : items.Pairwise rel' := by
  rw [List.pairwise_filterMap] at sorted
  refine sorted.imp_of_mem (fun {a b} first second held => ?_)
  obtain ⟨x, readA⟩ := reads a first
  obtain ⟨y, readB⟩ := reads b second
  exact lifts a b x y readA readB (held x readA y readB)

theorem children_sorted (sound : Sound s.pools graph) (listed : nodeAt s.pools ref = some node)
    (commutes : node.kind.commutative = true) :
    (childrenOf s.pools node).Pairwise fun left right => irCompare s.pools left right ≠ .gt := by
  obtain ⟨expr, held⟩ := (live_of_nodeAt sound listed).exists_tree
  obtain ⟨_, _, kind, _, children, live⟩ := node_of_tree sound listed held
  rw [kind] at commutes
  have associative : expr.label.kind.associative = true := by
    cases label : expr.label.kind <;> rw [label] at commutes <;> first | rfl | cases commutes
  have sorted := (associative_shaped (shaped_of_treeAt sound.wellFormed held) associative).2 commutes
  rw [← children] at sorted
  exact pairwise_of_filterMap (fun child inside => (live child inside).exists_tree) sorted
    (fun a b x y first second => irCompare_ne_gt sound first second)

theorem exact_node (sound : Sound s.pools graph) (listed : nodeAt s.pools ref = some node)
    (kind : node.kind = .integer ∨ node.kind = .rational) :
    ∃ q, exactAt s.pools ref = some q ∧ treeAt graph.entries ref = some (.node (.exact q) []) ∧
      (node.kind = .integer ↔ q.den = 1) ∧ (node.aux = exactBig ↔ ¬Inline q) ∧
      (Inline q → exactFraction s.pools node = (Int64.ofInt q.num, Int64.ofInt q.den)) := by
  obtain ⟨entry, stored, reads, _⟩ := sound.nodes.entryAt_node listed
  obtain ⟨label, children⟩ := entry
  have labelled : label.kind = .integer ∨ label.kind = .rational := by
    have same : node.kind = label.kind := reads.kind
    rwa [← same]
  obtain ⟨q, rfl⟩ := exact_of_kind labelled
  obtain rfl : children = [] := leaf_of_entryAt sound.wellFormed stored q rfl
  have nodeKind : node.kind = if q.den = 1 then .integer else .rational := reads.kind
  have aux : node.aux = if Inline q then 0 else exactBig := reads.aux.trans (nodeAux_exact q)
  refine ⟨q, exactAt_of_reads listed reads, ?_, ?_, ?_, fun inline => exactFraction_of_reads inline reads⟩
  · rw [treeAt_of_entryAt sound.wellFormed.backward stored]
    rfl
  · rw [nodeKind]
    by_cases integral : q.den = 1 <;> simp [integral]
  · rw [aux]
    by_cases inline : Inline q <;> simp [inline, exactBig]

theorem tree_of_exactAt (sound : Sound s.pools graph) {q : ℚ} (value : exactAt s.pools ref = some q) :
    treeAt graph.entries ref = some (.node (.exact q) []) := by
  cases listed : nodeAt s.pools ref with
  | none => simp [exactAt, exactDecimalView, listed] at value
  | some node =>
    by_cases kind : node.kind = .integer ∨ node.kind = .rational
    · obtain ⟨q', value', held, _⟩ := exact_node sound listed kind
      obtain rfl := Option.some.inj (value.symm.trans value')
      exact held
    · rw [exactAt_of_not_exact listed (not_or.mp kind)] at value
      cases value

/-- Two published refs are equal exactly when they stand for the same expression, runs of the
associative kinds are flat and those of the commutative kinds sorted, and an exact number has
one node, whose form its value decides. -/
theorem one_node_per_expression (reachable : Reachable s) :
    (∀ a b x y, nodeAt s.pools a = some x → nodeAt s.pools b = some y →
      (a = b ↔ entryOf s.pools a x = entryOf s.pools b y) ∧ (a = b ↔ exprAt s.pools a = exprAt s.pools b)) ∧
    (∀ ref node, nodeAt s.pools ref = some node → node.kind.associative = true →
      ∀ child ∈ childrenOf s.pools node, kindOf s.pools child ≠ node.kind) ∧
    (∀ ref node, nodeAt s.pools ref = some node → node.kind.commutative = true →
      (childrenOf s.pools node).Pairwise fun left right => irCompare s.pools left right ≠ .gt) ∧
    ∀ ref node, nodeAt s.pools ref = some node → node.kind = .integer ∨ node.kind = .rational →
      ∃ q, exactAt s.pools ref = some q ∧ (node.kind = .integer ↔ q.den = 1) ∧ (node.aux = exactBig ↔ ¬Inline q) ∧
        (Inline q → exactFraction s.pools node = (Int64.ofInt q.num, Int64.ofInt q.den)) ∧
        ∀ other, exactAt s.pools other = some q → other = ref := by
  have sound := reachable.sound
  refine ⟨fun a b x y listed listed' => ⟨⟨?_, ?_⟩, ⟨?_, ?_⟩⟩, fun ref node listed => children_apart sound listed,
    fun ref node listed => children_sorted sound listed, fun ref node listed kind => ?_⟩
  · rintro rfl
    rw [Option.some.inj (listed.symm.trans listed')]
  · intro same
    have second := entryAt_of_nodeAt sound listed'
    rw [← same] at second
    exact entryAt_injective sound.wellFormed.distinct (entryAt_of_nodeAt sound listed) second
  · rintro rfl
    rfl
  · intro same
    obtain ⟨expr, held⟩ := (live_of_nodeAt sound listed).exists_tree
    have first : exprAt s.pools a = some expr := held
    exact exprAt_injective sound held (same.symm.trans first)
  · obtain ⟨q, value, held, integral, promoted, fraction⟩ := exact_node sound listed kind
    exact ⟨q, value, integral, promoted, fraction, fun other value' =>
      exprAt_injective sound (tree_of_exactAt sound value') held⟩

/-- In the short run minus three halves has the fifth node and no other. -/
theorem one_node_per_fraction : ∃ s, shortContext = some s ∧ exactAt s.pools 5 = some (-3 / 2) ∧
    ∀ other, exactAt s.pools other = some (-3 / 2) → other = 5 := by
  obtain ⟨s, ended⟩ := Option.isSome_iff_exists.mp (by decide +kernel : shortContext.isSome = true)
  have value : (shortContext.bind fun s => exactAt s.pools 5) = some (-3 / 2) := by decide +kernel
  have kind : (shortContext.bind fun s => (nodeAt s.pools 5).map Node.kind) = some .rational := by decide +kernel
  rw [ended, Option.bind_some] at value kind
  obtain ⟨node, listed, rational⟩ := Option.map_eq_some_iff.mp kind
  obtain ⟨q, value', _, _, _, unique⟩ :=
    (one_node_per_expression (reachable_of_contextOf ended)).2.2.2 5 node listed (.inr rational)
  obtain rfl := Option.some.inj (value.symm.trans value')
  exact ⟨s, ended, value, unique⟩

/-- A strict total order on the published refs that agrees with the numbers, and a hash, both
of them functions of the expressions alone. -/
theorem irCompare_total_order (reachable : Reachable s) :
    (∀ a b, nodeAt s.pools a ≠ none → nodeAt s.pools b ≠ none → (irCompare s.pools a b = .eq ↔ a = b)) ∧
    (∀ a b, nodeAt s.pools a ≠ none → nodeAt s.pools b ≠ none →
      irCompare s.pools a b = (irCompare s.pools b a).swap) ∧
    (∀ a b c, nodeAt s.pools a ≠ none → nodeAt s.pools b ≠ none → nodeAt s.pools c ≠ none →
      irCompare s.pools a b = .lt → irCompare s.pools b c = .lt → irCompare s.pools a c = .lt) ∧
    (∀ a b x y p q, nodeAt s.pools a = some x → nodeAt s.pools b = some y → x.aux ≠ exactBig → y.aux ≠ exactBig →
      exactAt s.pools a = some p → exactAt s.pools b = some q → irCompare s.pools a b = compare p q) ∧
    (∀ an ad bn bd : Int64, 0 < ad.toInt → 0 < bd.toInt →
      compareExact an ad bn bd = compare ((an.toInt : ℚ) / ad.toInt) ((bn.toInt : ℚ) / bd.toInt)) ∧
    ∀ t, Reachable t → ∀ a b a' b', nodeAt s.pools a ≠ none → nodeAt s.pools b ≠ none →
      exprAt s.pools a = exprAt t.pools a' → exprAt s.pools b = exprAt t.pools b' →
      irCompare s.pools a b = irCompare t.pools a' b' ∧ irHash s.pools a = irHash t.pools a' := by
  have sound := reachable.sound
  have tree (ref : Nat) (there : nodeAt s.pools ref ≠ none) : ∃ expr, treeAt (graphOf s.pools).entries ref = some expr := by
    obtain ⟨node, listed⟩ := Option.ne_none_iff_exists'.mp there
    exact (live_of_nodeAt sound listed).exists_tree
  refine ⟨?_, ?_, ?_, ?_, fun an ad bn bd first second => ?_, ?_⟩
  · intro a b first second
    obtain ⟨x, left⟩ := tree a first
    obtain ⟨y, right⟩ := tree b second
    rw [irCompare_spec sound left right, Std.LawfulEqCmp.compare_eq_iff_eq]
    constructor
    · rintro rfl
      exact exprAt_injective sound left right
    · rintro rfl
      exact Option.some.inj (left.symm.trans right)
  · intro a b first second
    obtain ⟨x, left⟩ := tree a first
    obtain ⟨y, right⟩ := tree b second
    rw [irCompare_spec sound left right, irCompare_spec sound right left]
    exact compareExprs_swap y x
  · intro a b c first second third
    obtain ⟨x, left⟩ := tree a first
    obtain ⟨y, middle⟩ := tree b second
    obtain ⟨z, right⟩ := tree c third
    rw [irCompare_spec sound left middle, irCompare_spec sound middle right, irCompare_spec sound left right]
    exact Std.TransCmp.lt_trans
  · intro a b x y p q listed listed' small small' value value'
    have inline {ref : Nat} {node : Node} {q : ℚ} (listed : nodeAt s.pools ref = some node) (small : node.aux ≠ exactBig)
        (value : exactAt s.pools ref = some q) : Inline q := by
      by_cases kind : node.kind = .integer ∨ node.kind = .rational
      · obtain ⟨q', value', _, _, promoted, _⟩ := exact_node sound listed kind
        obtain rfl := Option.some.inj (value.symm.trans value')
        exact not_not.mp fun big => small (promoted.mpr big)
      · rw [exactAt_of_not_exact listed (not_or.mp kind)] at value
        cases value
    rw [irCompare_spec sound (tree_of_exactAt sound value) (tree_of_exactAt sound value'), compareExprs_exact,
      numberOrder_inline (inline listed small value) (inline listed' small' value')]
  · rw [compareExact_cross first second, compare_div first second]
  · intro t reachable' a b a' b' first second same same'
    have sound' := reachable'.sound
    obtain ⟨x, left⟩ := tree a first
    obtain ⟨y, right⟩ := tree b second
    have left' : treeAt (graphOf t.pools).entries a' = some x := same.symm.trans left
    have right' : treeAt (graphOf t.pools).entries b' = some y := same'.symm.trans right
    obtain ⟨node, listed⟩ := nodeAt_of_treeAt sound left
    obtain ⟨node', listed'⟩ := nodeAt_of_treeAt sound' left'
    refine ⟨?_, ?_⟩
    · rw [irCompare_spec sound left right, irCompare_spec sound' left' right']
    · rw [irHash, irHash, listed, listed', Option.map_some, Option.map_some, (node_of_tree sound listed left).1,
        (node_of_tree sound' listed' left').1]

theorem irCompare_fraction_sum : ∃ s, shortContext = some s ∧ irCompare s.pools 5 3 = .lt ∧
    irCompare s.pools 3 5 = .gt ∧ 5 ≠ 3 := by
  obtain ⟨s, ended⟩ := Option.isSome_iff_exists.mp (by decide +kernel : shortContext.isSome = true)
  have order : (shortContext.map fun s => irCompare s.pools 5 3) = some .lt := by decide +kernel
  have first : (shortContext.map fun s => decide (nodeAt s.pools 5 = none)) = some false := by decide +kernel
  have second : (shortContext.map fun s => decide (nodeAt s.pools 3 = none)) = some false := by decide +kernel
  rw [ended, Option.map_some, Option.some.injEq] at order first second
  obtain ⟨equal, swap, _⟩ := irCompare_total_order (reachable_of_contextOf ended)
  refine ⟨s, ended, order, ?_, ?_⟩
  · rw [swap 3 5 (of_decide_eq_false second) (of_decide_eq_false first), order]
    rfl
  · intro same
    rw [(equal 5 3 (of_decide_eq_false first) (of_decide_eq_false second)).mpr same] at order
    cases order

/-- The validator accepts every context of a run. A call that fails and a declaration that is
refused leave the pools alone, and a read has moved them only by calls that succeeded. -/
theorem run_transactional (reachable : Reachable s) :
    irValidate s.pools = .ok ∧
    (∀ (call : IrCall) stop t, call.run s = .error stop t → t.pools = s.pools) ∧
    (∀ (declaration : IrDeclaration) status t, declaration.run s = .ok status t → status ≠ .ok → t.pools = s.pools) ∧
    (∀ text, Progress s (irRead s text).2) ∧ ∀ text, Progress s (irReadDeclarations s text).2 := by
  have sound := reachable.sound
  refine ⟨irValidate_of_sound sound, ?_, ?_, irRead_progress sound, irReadDeclarations_progress sound⟩
  · intro call stop t run
    have held := call.run_spec sound
    rw [wp_of_error run] at held
    exact held.pools
  · intro declaration status t run refused
    have held := declaration.run_spec sound
    rw [wp_of_ok run] at held
    exact (held.2.2 refused).pools

/-- The short run ends in a context that the validator accepts and that an empty product leaves alone. -/
theorem run_transactional_short : ∃ s, shortContext = some s ∧ irValidate s.pools = .ok ∧
    ∀ stop t, irMul [] s = .error stop t → t.pools = s.pools := by
  obtain ⟨s, ended⟩ := Option.isSome_iff_exists.mp (by decide +kernel : shortContext.isSome = true)
  obtain ⟨valid, keeps, _⟩ := run_transactional (reachable_of_contextOf ended)
  exact ⟨s, ended, valid, keeps (.mul [])⟩

/-- A reference keeps its expression, its hash and its place in the order through every later run, and what is built
to the same expression later is the same reference. -/
theorem references_persist (reachable : Reachable s) (later : Reaches s t) :
    t.limits = s.limits ∧
    (∀ a, nodeAt s.pools a ≠ none → nodeAt t.pools a ≠ none ∧ exprAt t.pools a = exprAt s.pools a ∧
      irHash t.pools a = irHash s.pools a ∧
        ∀ b, nodeAt s.pools b ≠ none → irCompare t.pools a b = irCompare s.pools a b) ∧
    ∀ a b, nodeAt s.pools a ≠ none → exprAt t.pools b = exprAt s.pools a → b = a := by
  have sound := reachable.sound
  obtain ⟨graph, published⟩ := (later.progress sound).published sound
  rw [← graphOf_eq published.sound] at published
  have sound' := published.sound
  have tree {ref : Nat} (there : nodeAt s.pools ref ≠ none) : ∃ expr, treeAt (graphOf s.pools).entries ref = some expr ∧
      treeAt (graphOf t.pools).entries ref = some expr := by
    obtain ⟨node, listed⟩ := Option.ne_none_iff_exists'.mp there
    obtain ⟨expr, held⟩ := (live_of_nodeAt sound listed).exists_tree
    exact ⟨expr, held, Grows.treeAt_some published.grows held⟩
  refine ⟨published.limits, fun a there => ?_, fun a b there same => ?_⟩
  · obtain ⟨x, left, left'⟩ := tree there
    obtain ⟨node, listed⟩ := nodeAt_of_treeAt sound left
    obtain ⟨node', listed'⟩ := nodeAt_of_treeAt sound' left'
    refine ⟨Option.ne_none_iff_exists'.mpr ⟨node', listed'⟩, left'.trans left.symm, ?_, fun b there' => ?_⟩
    · rw [irHash, irHash, listed, listed', Option.map_some, Option.map_some, (node_of_tree sound listed left).1,
        (node_of_tree sound' listed' left').1]
    · obtain ⟨y, right, right'⟩ := tree there'
      rw [irCompare_spec sound left right, irCompare_spec sound' left' right']
  · obtain ⟨x, left, left'⟩ := tree there
    exact exprAt_injective sound' (same.trans left) left'

/-- The sum that the fourth call of the short run builds is the same at its end. -/
theorem references_persist_short : ∃ s t, contextOf none ⟨fun _ => true, 0⟩ (shortRun.take 4) = some s ∧
    shortContext = some t ∧ exprAt t.pools 3 = exprAt s.pools 3 := by
  obtain ⟨s, began⟩ := Option.isSome_iff_exists.mp
    (by decide +kernel : (contextOf none ⟨fun _ => true, 0⟩ (shortRun.take 4)).isSome = true)
  have there : ((contextOf none ⟨fun _ => true, 0⟩ (shortRun.take 4)).map fun s => decide (nodeAt s.pools 3 = none)) =
      some false := by decide +kernel
  rw [began, Option.map_some, Option.some.injEq] at there
  have later := reaches_foldl (s := s) (shortRun.drop 4) .refl
  refine ⟨s, _, began, ?_, ((references_persist (reachable_of_contextOf began) later).2.1 3 (of_decide_eq_false there)).2.1⟩
  unfold contextOf at began
  obtain ⟨created, made, rfl⟩ := Option.map_eq_some_iff.mp began
  unfold shortContext contextOf
  rw [made, Option.map_some, ← List.foldl_append, List.take_append_drop]

end

end PhyNspire.Ir.Runs

import PhyNspire.Cas.DiffSound

/-!
Runs of the scalar layer. Whatever calls have been made, the memo table tells the truth, and so
substituting is evaluating at updated values and differentiating is the formal derivation.
-/

namespace PhyNspire.Cas.Core
open Platform Lib Lib.Stateful Ir.Expressions
open Values Reading

def EntryTrue (epoch : UInt32) (replacements : List CasRule) (entry : MemoEntry) : Prop :=
  match entry.tag with
  | .simplify => SimplifiesTo entry.a entry.r0
  | .subst => ∀ n, entry.b = .epoch n → n ≤ epoch ∧ (n = epoch → SubstitutesTo replacements entry.a entry.r0)
  | .depends => ∀ var, entry.b = .ref var → decide (entry.r0 ≠ zero) = dependsOn var entry.a
  | .diff => ∀ x, entry.b = .ref (symbolNode x) → DiffTo x entry.a entry.r0
  | _ => True

def truthAt (epoch : UInt32) (replacements : List CasRule) : Truth := ⟨EntryTrue epoch replacements, epoch⟩

section Promises

variable (epoch : UInt32) (replacements : List CasRule)

theorem truthAt_simplifies : (truthAt epoch replacements).Simplifies where
  read entry holds tag := by
    change EntryTrue epoch replacements entry at holds
    unfold EntryTrue at holds
    rw [tag] at holds
    exact holds
  write _ _ simplified := simplified

theorem truthAt_substitutes : (truthAt epoch replacements).Substitutes replacements where
  read entry holds tag second := by
    change EntryTrue epoch replacements entry at holds
    unfold EntryTrue at holds
    rw [tag] at holds
    exact (holds epoch second).2 rfl
  write expr result substituted := by
    intro n same
    cases same
    exact ⟨UInt32.le_refl _, fun _ => substituted⟩

theorem truthAt_depends : (truthAt epoch replacements).Depends where
  read var entry holds tag second := by
    change EntryTrue epoch replacements entry at holds
    unfold EntryTrue at holds
    rw [tag] at holds
    exact holds var second
  write var expr := by
    intro var' same
    cases same
    cases dependsOn var expr <;> rfl

theorem truthAt_differentiates : (truthAt epoch replacements).Differentiates where
  read x entry holds tag second := by
    change EntryTrue epoch replacements entry at holds
    unfold EntryTrue at holds
    rw [tag] at holds
    exact holds x second
  write x expr result derivative := by
    intro x' same
    cases same
    exact derivative

theorem truthAt_faithful (rules : Name → List Expr → Rule) (depth : Nat) :
    (calls rules depth).Faithful (truthAt epoch replacements) :=
  calls_faithful rules (truthAt_simplifies epoch replacements) depth

end Promises

theorem epoch_next {epoch n : UInt32} (noWrap : epoch + 1 ≠ 0) (old : n ≤ epoch) : n ≤ epoch + 1 ∧ n ≠ epoch + 1 := by
  have next : (epoch + 1).toNat = epoch.toNat + 1 := by
    rw [UInt32.toNat_add, UInt32.toNat_one]
    apply Nat.mod_eq_of_lt
    by_contra big
    apply noWrap
    apply UInt32.toNat_inj.mp
    rw [UInt32.toNat_add, UInt32.toNat_one, UInt32.toNat_zero]
    have small := epoch.toNat_lt
    omega
  have below : n.toNat ≤ epoch.toNat := UInt32.le_iff_toNat_le.mp old
  refine ⟨UInt32.le_iff_toNat_le.mpr (by omega), fun same => ?_⟩
  rw [same] at below
  omega

variable {s : CasState}

theorem trusted_nextEpoch {epoch : UInt32} {old : List CasRule} (new : List CasRule)
    (trusted : Trusted (truthAt epoch old) s) :
    Trusted (truthAt (nextEpoch s).substEpoch new) (nextEpoch s) := by
  unfold nextEpoch
  split
  · exact ⟨rfl, fun _ inside => absurd inside List.not_mem_nil⟩
  · rename_i noWrap
    refine ⟨rfl, fun entry inside => ?_⟩
    have holds : EntryTrue epoch old entry := trusted.entries entry inside
    have here : s.substEpoch = epoch := trusted.epoch
    change EntryTrue (s.substEpoch + 1) new entry
    unfold EntryTrue at holds ⊢
    rw [here] at noWrap ⊢
    split
    · rename_i tag
      rwa [tag] at holds
    · rename_i tag
      rw [tag] at holds
      intro n second
      obtain ⟨later, other⟩ := epoch_next noWrap (holds n second).1
      exact ⟨later, fun same => absurd same other⟩
    · rename_i tag
      rwa [tag] at holds
    · rename_i tag
      rwa [tag] at holds
    · trivial

def TableTrue (s : CasState) : Prop := ∃ replacements, Trusted (truthAt s.substEpoch replacements) s

variable (rules : Name → List Expr → Rule)

/-- What the layers above may ask of the scalar layer. The other layers leave their own entries. -/
inductive Call where
  | begin
  | simplify (depth : Nat) (expr : Expr)
  | add (depth : Nat) (operands : List Expr)
  | mul (depth : Nat) (operands : List Expr)
  | pow (depth : Nat) (base exponent : Expr)
  | substitute (depth : Nat) (replacements : List CasRule) (expr : Expr)
  | mayDepend (var expr : Expr)
  | diff (depth : Nat) (x : Name) (expr : Expr)
  | keep (entry : MemoEntry) (other : entry.tag ∉ [Memo.simplify, .subst, .depends, .diff])
  | clear

def Call.run : Call → CasM Unit
  | begin => casBegin
  | simplify depth expr => discard ((calls rules depth).simplifyNode expr)
  | add depth operands => discard ((calls rules depth).addNode operands)
  | mul depth operands => discard ((calls rules depth).mulNode operands)
  | pow depth base exponent => discard ((calls rules depth).powNode base exponent)
  | substitute depth replacements expr => discard (substituteNode (calls rules depth) rules replacements expr)
  | mayDepend var expr => discard (Core.mayDepend var expr)
  | diff depth x expr => discard (diffNode (calls rules depth) rules (symbolNode x) expr)
  | keep entry _ => cachePut entry
  | clear => modify cacheClear

/-- Where a run ends, whether or not it returns. -/
def after {α : Type} (program : CasM α) (s : CasState) : CasState :=
  match program s with
  | .ok _ t => t
  | .error _ t => t

/-- The states of a layer: created, between calls, and while the context around it changes. -/
inductive Reached : CasState → Prop where
  | created (s : CasState) (empty : s.slots = []) (epoch : s.substEpoch = 0) : Reached s
  | called {s : CasState} (reached : Reached s) (call : Call) : Reached (after (call.run rules) s)
  | around {s t : CasState} (reached : Reached s) (slots : t.slots = s.slots) (epoch : t.substEpoch = s.substEpoch) :
      Reached t

variable {α : Type} {program : CasM α}

theorem wp_after {good : CasState → Prop}
    (held : wp program (fun _ t => good t) (fun _ t => good t) s) : good (after program s) := by
  unfold wp at held
  unfold after
  cases run : program s with
  | ok value t =>
    rw [run] at held
    exact held
  | error stop t =>
    rw [run] at held
    exact held

theorem Meets.after {truth : Truth} {good : α → Prop} (meets : Meets truth program good)
    (trusted : Trusted truth s) : Trusted truth (after program s) :=
  wp_after (wp_good (meets s trusted) (fun _ _ held => held.2))

theorem TableTrue.of_trusted {t : CasState} {replacements : List CasRule}
    (trusted : Trusted (truthAt s.substEpoch replacements) t) : TableTrue t :=
  ⟨replacements, (show t.substEpoch = s.substEpoch from trusted.epoch) ▸ trusted⟩

theorem meets_casBegin {truth : Truth} : Meets truth casBegin fun _ => True :=
  fun _ trusted => ⟨trivial, trusted.of_slots rfl (fun _ inside => inside)⟩

variable {depth : Nat} {expr : Expr}

theorem wp_substituteNode {replacements : List CasRule} (before : TableTrue s) :
    wp (substituteNode (calls rules depth) rules replacements expr)
      (fun r t => (SymbolRules replacements → ∀ any : AnyReading,
        (any.reading.updated replacements).Carries any.reading expr r) ∧ TableTrue t) (fun _ t => TableTrue t) s := by
  obtain ⟨old, trusted⟩ := before
  have faithful := truthAt_faithful s.substEpoch old rules depth
  unfold substituteNode
  rw [wp_bind]
  apply wp_mono (faithful.simplifies expr s trusted) _ (fun _ t held => .of_trusted held)
  intro reduced t simplified
  rw [wp_bind, wp_modify]
  have fresh := trusted_nextEpoch replacements simplified.2
  have walk : Meets (truthAt (nextEpoch t).substEpoch replacements) (substituteWalk (calls rules depth) rules replacements reduced)
      fun r => SubstitutesTo replacements reduced r :=
    meets_substituteWalk (truthAt_faithful _ _ rules depth) (truthAt_substitutes _ _) reduced
  apply wp_mono (walk _ fresh) _ (fun _ u held => .of_trusted held)
  intro r u substituted
  refine ⟨fun symbols any p known => ?_, .of_trusted substituted.2⟩
  -- the simplified expression has the value at the updated reading
  exact (substituted.1 symbols any).1 p (simplified.1.keeps ⟨any.K, any.reading.updated replacements⟩ p known)

theorem call_keeps (call : Call) (before : TableTrue s) : TableTrue (after (call.run rules) s) := by
  obtain ⟨old, trusted⟩ := before
  have plain {α : Type} {program : CasM α} {good : α → Prop} (meets : Meets (truthAt s.substEpoch old) program good) :
      TableTrue (after (discard program) s) :=
    .of_trusted ((meets.seq fun _ => meets_pure trivial : Meets _ (program >>= fun _ => pure ()) fun _ => True).after trusted)
  have faithful (depth : Nat) := truthAt_faithful s.substEpoch old rules depth
  cases call with
  | begin => exact .of_trusted (meets_casBegin.after trusted)
  | simplify depth expr => exact plain ((faithful depth).simplifies expr)
  | add depth operands => exact plain (trusts_add (faithful depth) operands)
  | mul depth operands => exact plain (trusts_mul (faithful depth) operands)
  | pow depth base exponent => exact plain (trusts_pow (faithful depth) base exponent)
  | substitute depth replacements expr =>
    apply wp_after
    change wp (substituteNode (calls rules depth) rules replacements expr >>= fun _ => pure ()) _ _ s
    exact wp_then (wp_substituteNode rules ⟨old, trusted⟩) fun _ _ held => held.2
  | mayDepend var expr => exact plain (meets_mayDepend (truthAt_depends _ _) var expr)
  | diff depth x expr =>
    exact plain (meets_diffNode (x := x) (faithful depth) (truthAt_depends _ _) (truthAt_differentiates _ _) expr)
  | keep entry other =>
    have promise : EntryTrue s.substEpoch old entry := by
      unfold EntryTrue
      split
      · rename_i tag
        exact absurd (by simp [tag]) other
      · rename_i tag
        exact absurd (by simp [tag]) other
      · rename_i tag
        exact absurd (by simp [tag]) other
      · rename_i tag
        exact absurd (by simp [tag]) other
      · trivial
    have kept : Meets (truthAt s.substEpoch old) (cachePut entry) fun _ => True := meets_cachePut promise
    exact .of_trusted (kept.after trusted)
  | clear => exact .of_trusted trusted.cleared

theorem reached_tableTrue (reached : Reached rules s) : TableTrue s := by
  induction reached with
  | created s empty epoch =>
    refine ⟨[], rfl, fun entry inside => ?_⟩
    rw [empty] at inside
    cases inside
  | called _ call ih => exact call_keeps rules call ih
  | around _ slots epoch ih =>
    obtain ⟨old, trusted⟩ := ih
    exact .of_trusted (trusted.of_slots epoch (fun entry inside => slots ▸ inside))

theorem good_of_valueOf {good : α → CasState → Prop} {bad : Option Status → CasState → Prop}
    {value : α} (held : wp program good bad s) (returned : valueOf program s = some value) :
    ∃ t, good value t := by
  obtain ⟨value', t, run, kept⟩ := wp_value held (by rw [returned]; rfl)
  unfold valueOf at returned
  rw [run] at returned
  cases returned
  exact ⟨t, kept⟩

/-- A rational value for every symbol but the imaginary unit, and no fractional powers. -/
def assignment (ρ : Name → ℚ) : Reading ℚ :=
  { Branch.integral ℚ with
    symbol := fun name => if name = unitName then none else some (ρ name)
    unit_square := fun known => by
      rw [if_pos rfl] at known
      cases known }

def assigned (ρ : Name → ℚ) : AnyReading := ⟨ℚ, assignment ρ⟩

theorem updated_swap {x y : Name} (first : x ≠ unitName) (second : y ≠ unitName) (ρ : Name → ℚ) :
    (assignment ρ).updated [⟨symbolNode x, symbolNode y⟩, ⟨symbolNode y, symbolNode x⟩] = assignment (ρ ∘ Equiv.swap x y) := by
  have symbols : ((assignment ρ).updated [⟨symbolNode x, symbolNode y⟩, ⟨symbolNode y, symbolNode x⟩]).symbol =
      (assignment (ρ ∘ Equiv.swap x y)).symbol := by
    funext name
    have distinct {a b : Name} : (symbolNode a = symbolNode b) ↔ a = b := by
      simp [symbolNode]
    by_cases isFirst : name = x
    · subst isFirst
      simp [Reading.updated, ruleFor, assignment, first, second]
    · by_cases isSecond : name = y
      · subst isSecond
        have other : x ≠ name := fun same => isFirst same.symm
        simp [Reading.updated, ruleFor, assignment, first, second, distinct, other]
      · have notFirst : x ≠ name := fun same => isFirst same.symm
        have notSecond : y ≠ name := fun same => isSecond same.symm
        simp [Reading.updated, ruleFor, assignment, distinct, notFirst, notSecond,
          Equiv.swap_apply_of_ne_of_ne isFirst isSecond]
  exact ext_symbol rfl symbols

theorem wp_casSubstitute {replacements : List CasRule} (before : TableTrue s) :
    wp (casSubstitute rules replacements depth expr)
      (fun r t => (SymbolRules replacements → ∀ any : AnyReading,
        (any.reading.updated replacements).Carries any.reading expr r) ∧ TableTrue t) (fun _ t => TableTrue t) s := by
  unfold casSubstitute
  obtain ⟨old, trusted⟩ := before
  rw [wp_bind]
  apply wp_mono (meets_casBegin s trusted) _ (fun _ _ held => .of_trusted held)
  intro _ t started
  exact wp_substituteNode rules (.of_trusted started.2)

/-- Substituting for symbols is evaluating at the values of the replacements, all at once. -/
theorem substitution_lemma {s : CasState} (reached : Reached rules s) {replacements : List CasRule}
    (symbols : SymbolRules replacements) {depth : Nat} {expr result : Expr}
    (returned : valueOf (casSubstitute rules replacements depth expr) s = some result) :
    (∀ (ρ : Name → ℚ) value, ((assignment ρ).updated replacements).eval expr = some value →
      (assignment ρ).eval result = some value) ∧
    ∀ x y, x ≠ unitName → y ≠ unitName →
      replacements = [⟨symbolNode x, symbolNode y⟩, ⟨symbolNode y, symbolNode x⟩] → ∀ (ρ : Name → ℚ) value,
        (assignment (ρ ∘ Equiv.swap x y)).eval expr = some value → (assignment ρ).eval result = some value := by
  obtain ⟨_, carries, _⟩ := good_of_valueOf (wp_casSubstitute rules (reached_tableTrue rules reached)) returned
  have simultaneous (ρ : Name → ℚ) : ∀ value, ((assignment ρ).updated replacements).eval expr = some value →
      (assignment ρ).eval result = some value := carries symbols (assigned ρ)
  refine ⟨simultaneous, fun x y first second swap ρ value known => ?_⟩
  subst swap
  apply simultaneous ρ value
  rwa [updated_swap first second]

theorem wp_casDiff {var : Expr} (before : TableTrue s) :
    wp (casDiff rules depth expr var) (fun r _ => ∃ x, var = symbolNode x ∧ s.constant x = false ∧
      ∃ reduced, SimplifiesTo expr reduced ∧ DiffTo x reduced r) (fun _ _ => True) s := by
  obtain ⟨old, trusted⟩ := before
  have faithful := truthAt_faithful s.substEpoch old rules depth
  unfold casDiff casBegin
  rw [wp_bind, wp_modify]
  have started : Trusted (truthAt s.substEpoch old) { s with steps := 0 } := trusted.of_slots rfl (fun _ inside => inside)
  split
  · trivial
  · rename_i x known
    have variable_ : var = symbolNode x := by
      unfold variableName at known
      split at known
      · cases known
        rfl
      · cases known
    rw [wp_bind, wp_get]
    apply wp_ite
    · intro _
      trivial
    · intro free
      rw [wp_bind]
      apply wp_mono (faithful.simplifies expr _ started) _ (fun _ _ _ => trivial)
      intro reduced t simplified
      have walk : Meets (truthAt s.substEpoch old) (diffNode (calls rules depth) rules (symbolNode x) reduced) (DiffTo x reduced) :=
        meets_diffNode faithful (truthAt_depends _ _) (truthAt_differentiates _ _) reduced
      rw [variable_]
      apply wp_mono (walk t simplified.2) _ (fun _ _ _ => trivial)
      intro r u derivative
      exact ⟨x, rfl, Bool.eq_false_iff.mpr free, reduced, simplified.1, derivative.1⟩

/-- `phy_cas_create` with the default limits, in a context that grants every request. -/
def casCreate : CasState where
  slots := []
  cacheLive := 0
  steps := 0
  maxSteps := 200000
  substEpoch := 0
  constant name := decide (name = unitName)
  refOf _ := 0
  answers _ := none
  asked := 0

def noRules (_ : Name) (_ : List Expr) : Rule := .unmatched

theorem reached_casCreate : Reached noRules casCreate := .created _ rfl rfl

theorem substitution_lemma_square :
    valueOf (casSubstitute noRules [⟨symbolNode [120], symbolNode [121]⟩, ⟨symbolNode [121], symbolNode [120]⟩] 8
      (.node .pow [symbolNode [120], exactNode 2])) casCreate = some (.node .pow [symbolNode [121], exactNode 2]) ∧
    ∀ (ρ : Name → ℚ) value, (assignment (ρ ∘ Equiv.swap [120] [121])).eval (.node .pow [symbolNode [120], exactNode 2]) = some value →
      (assignment ρ).eval (.node .pow [symbolNode [121], exactNode 2]) = some value := by
  have returned : valueOf (casSubstitute noRules [⟨symbolNode [120], symbolNode [121]⟩, ⟨symbolNode [121], symbolNode [120]⟩] 8
      (.node .pow [symbolNode [120], exactNode 2])) casCreate = some (.node .pow [symbolNode [121], exactNode 2]) := by
    decide +kernel
  have symbols : SymbolRules [⟨symbolNode [120], symbolNode [121]⟩, ⟨symbolNode [121], symbolNode [120]⟩] := by
    intro rule inside
    rcases List.mem_cons.mp inside with rfl | inside
    · exact ⟨_, rfl⟩
    · exact ⟨[121], by rw [List.mem_singleton.mp inside]⟩
  exact ⟨returned, (substitution_lemma noRules reached_casCreate symbols returned).2 [120] [121] (by decide) (by decide) rfl⟩

/-- Every symbol, also the imaginary unit, with the value two. -/
def allTwo : Values ℚ := { Branch.integral ℚ with symbol := fun _ => some 2 }

/-- The square of the imaginary unit is not the square of a symbol's value. -/
theorem substitution_lemma_imaginary :
    Reached noRules casCreate ∧ SymbolRules [] ∧
    valueOf (casSubstitute noRules [] 8 (.node .mul [constantI, constantI])) casCreate = some minusOne ∧
    allTwo.eval (.node .mul [constantI, constantI]) = some 4 ∧ allTwo.eval minusOne = some (-1) := by
  refine ⟨reached_casCreate, fun _ absent => absurd absent List.not_mem_nil, by decide +kernel, ?_, ?_⟩
  · unfold eval evalAll evalAll evalAll constantI
    rw [eval_symbol]
    norm_num [allTwo]
  · rw [minusOne, eval_exact]
    norm_num

def tensorT : Expr := .node (.tensor [84]) [.node (.index [97] .upper none) []]

end PhyNspire.Cas.Core

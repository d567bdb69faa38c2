import PhyNspire.Cas.SimplifySound

/-!
Substitution. The rules are matched against the subtrees of the simplified expression before the walk
descends, so they act at once; what is rebuilt above them is worth what the expression is worth where
every replaced symbol has the value of its replacement.
-/

namespace PhyNspire.Cas.Core
open Lib Lib.Trees Ir.Expressions
open Values Reading

structure CasRule where
  fromExpr : Expr
  toExpr : Expr

def ruleFor (replacements : List CasRule) (expr : Expr) : Option Expr :=
  (replacements.find? fun rule => decide (rule.fromExpr = expr)).map CasRule.toExpr

variable (self : Calls) (rules : Name → List Expr → Rule) (replacements : List CasRule)

mutual
def substituteWalk : Expr → CasM Expr
  | .node label children =>
      match ruleFor replacements (.node label children) with
      | some result => pure result
      | none => do
          let cas ← get
          match ← cacheGet .subst (.node label children) (.epoch cas.substEpoch) with
          | some entry => pure entry.r0
          | none => do
              step
              if label.atom then do
                cachePut ⟨.subst, .node label children, .epoch cas.substEpoch, .node label children, none⟩
                pure (.node label children)
              else do
                request
                let operands ← substituteEach children
                let result ← rebuildAt self rules label operands
                cachePut ⟨.subst, .node label children, .epoch cas.substEpoch, result, none⟩
                pure result

def substituteEach : List Expr → CasM (List Expr)
  | [] => pure []
  | child :: rest => do
      let child ← substituteWalk child
      let rest ← substituteEach rest
      pure (child :: rest)
end

/-- A fresh epoch; the table is emptied when the counter wraps. -/
def nextEpoch (cas : CasState) : CasState :=
  if cas.substEpoch + 1 = 0 then { cacheClear cas with substEpoch := 1 } else { cas with substEpoch := cas.substEpoch + 1 }

def substituteNode (expr : Expr) : CasM Expr := do
  let reduced ← self.simplifyNode expr
  modify nextEpoch
  substituteWalk self rules replacements reduced

def casSubstitute (depth : Nat) (expr : Expr) : CasM Expr := do
  casBegin
  substituteNode (calls rules depth) rules replacements expr

def SymbolRules : Prop := ∀ rule ∈ replacements, ∃ name, rule.fromExpr = symbolNode name

def Reading.updated {K : Type} [Field K] [DecidableEq K] (reading : Reading K) : Reading K where
  toBranch := reading.toBranch
  symbol name :=
    match ruleFor replacements (symbolNode name) with
    | some target => if name = unitName then none else reading.eval target
    | none => reading.symbol name
  unit_square := by
    intro i known
    split at known
    · rw [if_pos rfl] at known
      cases known
    · exact reading.unit_square known

def SubstitutesTo (expr result : Expr) : Prop := SymbolRules replacements →
  ∀ any : AnyReading, Replaces (any.reading.updated replacements) any.reading expr result

structure Truth.Substitutes (truth : Truth) : Prop where
  read : ∀ entry, truth.holds entry → entry.tag = .subst → entry.b = .epoch truth.epoch →
    SubstitutesTo replacements entry.a entry.r0
  write : ∀ expr result, SubstitutesTo replacements expr result →
    truth.holds ⟨.subst, expr, .epoch truth.epoch, result, none⟩

variable {self rules replacements} {truth : Truth}

theorem ruleFor_some {expr target : Expr} (found : ruleFor replacements expr = some target) :
    ∃ rule ∈ replacements, rule.fromExpr = expr ∧ rule.toExpr = target := by
  obtain ⟨rule, first, same⟩ := Option.map_eq_some_iff.mp found
  have matched := List.find?_some first
  rw [decide_eq_true_eq] at matched
  exact ⟨rule, List.mem_of_find?_eq_some first, matched, same⟩

theorem substitutesTo_rule {expr target : Expr} (found : ruleFor replacements expr = some target) :
    SubstitutesTo replacements expr target := by
  intro symbols any
  obtain ⟨rule, inside, rfl, rfl⟩ := ruleFor_some found
  obtain ⟨name, symbol⟩ := symbols rule inside
  rw [symbol] at found ⊢
  constructor
  · intro p known
    rw [eval_symbol] at known
    simp only [Reading.updated, found] at known
    split at known
    · cases known
    · exact known
  · intro q same
    cases same

theorem substitutesTo_atom {label : Label} {children : List Expr} (atom : label.atom = true)
    (unmatched : ruleFor replacements (.node label children) = none) :
    SubstitutesTo replacements (.node label children) (.node label children) := by
  intro _ any
  refine ⟨fun p known => ?_, fun _ same => same⟩
  rcases eval_some known with ⟨q, rfl, rfl, rfl⟩ | ⟨name, rfl, rfl, symbol⟩ | ⟨rfl | rfl, _⟩ | ⟨_, _, _, rfl, _⟩
  · exact eval_exact q
  · rw [show Rose.node (Label.symbol name) [] = symbolNode name from rfl] at unmatched ⊢
    simp only [Reading.updated, unmatched] at symbol
    rw [eval_symbol, symbol]
  · cases atom
  · cases atom
  · cases atom

theorem meets_get : Meets truth (get : CasM CasState) fun cas => cas.substEpoch = truth.epoch :=
  fun _ trusted => ⟨trusted.epoch, trusted⟩

theorem meets_substituteEach (children : List Expr) (each : ∀ child ∈ children,
      Meets truth (substituteWalk self rules replacements child) fun r => SubstitutesTo replacements child r) :
    Meets truth (substituteEach self rules replacements children) fun results =>
      List.Forall₂ (SubstitutesTo replacements) children results := by
  induction children with
  | nil => exact meets_pure .nil
  | cons child rest ih =>
    apply (each child List.mem_cons_self).bind
    intro result substituted
    apply (ih fun child inside => each child (List.mem_cons_of_mem _ inside)).bind
    intro results later
    exact meets_pure (.cons substituted later)

/-- The walk answers, from the table or from the operands, with a substituted form. -/
theorem meets_substituteWalk (faithful : self.Faithful truth) (substitutes : truth.Substitutes replacements) (expr : Expr) :
    Meets truth (substituteWalk self rules replacements expr) fun r => SubstitutesTo replacements expr r := by
  induction expr using Rose.induct with
  | node label children ih =>
    unfold substituteWalk
    split
    · rename_i target found
      exact meets_pure (substitutesTo_rule found)
    · rename_i unmatched
      apply meets_get.bind
      intro cas epoch
      rw [epoch]
      apply (meets_cacheGet _ _ _).bind
      intro found keys
      split
      · rename_i entry
        obtain ⟨holds, tag, same, second⟩ := keys entry rfl
        exact meets_pure (same ▸ substitutes.read entry holds tag second)
      · apply meets_step.seq
        intro _
        apply meets_ite
        · intro atom
          have stays := substitutesTo_atom atom unmatched
          apply (meets_cachePut (substitutes.write _ _ stays)).seq
          intro _
          exact meets_pure stays
        · intro node
          apply meets_request.seq
          intro _
          apply (meets_substituteEach children ih).bind
          intro results each
          have rebuilt : Meets truth (rebuildAt self rules label results) fun r =>
              SubstitutesTo replacements (.node label children) r := by
            have trusted := (meets_rebuildAt rules faithful rationals label results).trivial
            apply (Meets.all trusted fun any => meets_rebuildAt rules faithful any label results).mono
            intro r keeps symbols any
            refine ⟨?_, fun q same => ?_⟩
            · have operands : List.Forall₂ (Replaces (any.reading.updated replacements) any.reading) children results :=
                each.imp fun _ _ substituted => substituted symbols any
              have below : (any.reading.updated replacements).Carries any.reading (.node label children) (.node label results) :=
                carries_replaced rfl (Bool.eq_false_iff.mpr node) operands
              intro p known
              exact keeps any p (below p known)
            · have exact : label = .exact q := congrArg Rose.label same
              rw [exact] at node
              exact absurd rfl node
          apply rebuilt.bind
          intro result substituted
          apply (meets_cachePut (substitutes.write _ result substituted)).seq
          intro _
          exact meets_pure substituted

end PhyNspire.Cas.Core

import PhyNspire.Cas.PowerWorth

/-!
Simplification keeps values. Under every reading that gives an expression a value, what the walk
answers has the same one; the answers left in the memo table promise as much.
-/

namespace PhyNspire.Cas.Core
open Lib Lib.Trees Ir.Expressions Num
open Values Reading

structure AnyReading where
  K : Type
  [field : Field K]
  [decides : DecidableEq K]
  [charZero : CharZero K]
  reading : Reading K

attribute [instance] AnyReading.field AnyReading.decides AnyReading.charZero

/-- The rational numbers, without fractional powers and without symbols. -/
def rationals : AnyReading where
  K := ℚ
  reading :=
    { Branch.integral ℚ with
      symbol := fun _ => none
      unit_square := fun absent => by cases absent }

structure SimplifiesTo (expr result : Expr) : Prop where
  keeps : ∀ any : AnyReading, any.reading.Keeps expr result
  exact : ∀ q, expr = exactNode q → result = exactNode q

structure Truth.Simplifies (truth : Truth) : Prop where
  read : ∀ entry, truth.holds entry → entry.tag = .simplify → SimplifiesTo entry.a entry.r0
  write : ∀ expr result, SimplifiesTo expr result → truth.holds ⟨.simplify, expr, .null, result, none⟩

/-- The functions that call one another answer with what they were asked for. -/
structure Calls.Faithful (inner : Calls) (truth : Truth) : Prop where
  sound : ∀ any : AnyReading, inner.Sound truth any.reading
  simplifies : ∀ expr, Meets truth (inner.simplifyNode expr) fun r => SimplifiesTo expr r

variable {truth : Truth} {self : Calls}

section Children

variable {K : Type} [Field K] [DecidableEq K] {reading : Reading K}

theorem eval_of_child {label : Label} {children : List Expr} {child : Expr} {p : K} (inside : child ∈ children)
    (known : reading.eval (.node label children) = some p) : ∃ v, reading.eval child = some v := by
  rcases eval_some known with ⟨_, _, rfl, _⟩ | ⟨_, _, rfl, _⟩ | ⟨_, values, operands, _⟩ | ⟨base, q, u, _, rfl, worth, _⟩
  · cases inside
  · cases inside
  · exact eval_of_mem operands inside
  · rcases List.mem_cons.mp inside with rfl | later
    · exact ⟨u, worth⟩
    · exact ⟨q, List.mem_singleton.mp later ▸ eval_exact q⟩

/-- An operand may give way to another with the same value; a number stays that number. -/
def Replaces (before after : Reading K) (child result : Expr) : Prop :=
  before.Carries after child result ∧ ∀ q, child = exactNode q → result = exactNode q

variable {before : Reading K} {label : Label} {children results : List Expr}

theorem evalAll_replaced (each : List.Forall₂ (Replaces before reading) children results) {values : List K}
    (known : before.evalAll children = some values) : reading.evalAll results = some values := by
  induction each generalizing values with
  | nil => simpa using known
  | cons head _ ih =>
    obtain ⟨value, rest, here, later, rfl⟩ := evalAll_cons_some.mp known
    exact evalAll_cons_some.mpr ⟨value, rest, head.1 value here, ih later, rfl⟩

theorem carries_replaced (raises : before.toBranch = reading.toBranch) (node : label.atom = false)
    (each : List.Forall₂ (Replaces before reading) children results) :
    before.Carries reading (.node label children) (.node label results) := by
  intro p known
  rcases eval_some known with ⟨_, rfl, _⟩ | ⟨_, rfl, _⟩ | ⟨foldable, values, operands, rfl⟩ |
    ⟨base, q, u, rfl, rfl, worth, raised⟩
  · cases node
  · cases node
  · rw [eval_foldable foldable, evalAll_replaced each operands, Option.map_some]
  · obtain ⟨result, rest, head, tail, rfl⟩ := List.forall₂_cons_left_iff.mp each
    obtain ⟨exponent, rest, last, nothing, rfl⟩ := List.forall₂_cons_left_iff.mp tail
    cases nothing
    rw [last.2 q rfl, eval_pow, head.1 u worth, Option.bind_some]
    rwa [raises] at raised

end Children

/-- What the operands of a walk have become: simplified forms, or the error value of one of them. -/
def ChildrenTo (children : List Expr) : Except Expr (List Expr) → Prop
  | .ok results => List.Forall₂ SimplifiesTo children results
  | .error failed => isError failed = true ∧ ∃ child ∈ children, SimplifiesTo child failed

theorem SimplifiesTo.replaces {expr result : Expr} (simplifies : SimplifiesTo expr result) (any : AnyReading) :
    Replaces any.reading any.reading expr result := ⟨simplifies.keeps any, simplifies.exact⟩

theorem meets_simplifyChildren (faithful : self.Faithful truth) (children : List Expr) :
    Meets truth (simplifyChildren self children) (ChildrenTo children) := by
  induction children with
  | nil => exact meets_pure .nil
  | cons child rest ih =>
    apply (faithful.simplifies child).bind
    intro result simplified
    apply meets_ite
    · intro failed
      exact meets_pure ⟨failed, child, List.mem_cons_self, simplified⟩
    · intro _
      apply ih.bind
      intro out forms
      match out, forms with
      | .ok results, forms => exact meets_pure (.cons simplified forms)
      | .error failed, ⟨isFailed, child', inside, simplified'⟩ =>
        exact meets_pure ⟨isFailed, child', List.mem_cons_of_mem _ inside, simplified'⟩

theorem keeps_failed (any : AnyReading) {label : Label} {children : List Expr} {failed result : Expr}
    (isFailed : isError failed = true) (child : ∃ child ∈ children, SimplifiesTo child failed) :
    any.reading.Keeps (.node label children) result := by
  obtain ⟨child, inside, simplified⟩ := child
  intro p known
  obtain ⟨v, worth⟩ := eval_of_child inside known
  have failedWorth := simplified.keeps any v worth
  rw [eval_error isFailed] at failedWorth
  cases failedWorth

variable (rules : Name → List Expr → Rule)

theorem meets_rule {K : Type} [Field K] [DecidableEq K] {reading : Reading K} (sound : self.Sound truth reading)
    (simplifies : ∀ expr, Meets truth (self.simplifyNode expr) fun _ => True) (rule : Rule) :
    Meets truth (rule.run self) fun _ => True := by
  induction rule with
  | unmatched => exact meets_pure trivial
  | answer result => exact meets_pure trivial
  | refuse status => exact meets_refuse status
  | request next ih => exact meets_request.seq fun _ => ih
  | simplify expr next ih => exact (simplifies expr).seq fun result => ih result
  | add terms next ih => exact (sound.add terms).seq fun result => ih result
  | mul factors next ih => exact (sound.mul factors).seq fun result => ih result
  | pow base exponent next ih => exact (sound.pow base exponent).seq fun result => ih result

theorem meets_rebuildAt (faithful : self.Faithful truth) (any : AnyReading) (label : Label) (children : List Expr) :
    Meets truth (rebuildAt self rules label children) fun r => any.reading.Keeps (.node label children) r := by
  have itself : ∀ label children, Meets truth (irNode label children) fun r =>
      any.reading.Keeps (.node label children) r := fun label children =>
    (meets_irNode label children).mono fun r same => same ▸ Keeps.refl _
  have noncommuting : ∀ {label}, ¬Foldable label → label ≠ .pow → (∀ q, label ≠ .exact q) → (∀ name, label ≠ .symbol name) →
      ∀ r, any.reading.Keeps (.node label children) r := by
    intro label notFoldable notPow notExact notSymbol r p known
    rcases eval_some known with ⟨q, same, _⟩ | ⟨name, same, _⟩ | ⟨foldable, _⟩ | ⟨_, _, _, same, _⟩
    · exact absurd same (notExact q)
    · exact absurd same (notSymbol name)
    · exact absurd foldable notFoldable
    · exact absurd same notPow
  unfold rebuildAt
  split
  · exact meets_addAt any.reading children
  · exact meets_mulAt (faithful.sound any) children
  · split
    · exact meets_powNode (faithful.sound any) _ _
    · exact meets_refuse _
  · rename_i head
    apply (meets_rule (faithful.sound any) (fun expr => (faithful.simplifies expr).trivial) _).seq
    intro found
    split
    · exact meets_pure (Keeps.of_none (eval_function head children))
    · exact itself _ _
  · exact (meets_irNary _ _).mono fun r _ => noncommuting (by simp [Foldable]) (by simp) (by simp) (by simp) r
  · exact (meets_irNary _ _).mono fun r _ => noncommuting (by simp [Foldable]) (by simp) (by simp) (by simp) r
  · exact itself _ _
  · exact itself _ _
  · exact itself _ _
  · exact itself _ _
  · exact meets_refuse _

theorem SimplifiesTo.refl (expr : Expr) : SimplifiesTo expr expr := ⟨fun _ => Keeps.refl _, fun _ same => same⟩

theorem meets_rebuilt (faithful : self.Faithful truth) (any : AnyReading) {label : Label} {children : List Expr}
    (node : label.atom = false) {out : Except Expr (List Expr)} (forms : ChildrenTo children out) :
    Meets truth (rebuilt self rules label out) fun r => any.reading.Keeps (.node label children) r := by
  match out, forms with
  | .error failed, forms => exact meets_pure (keeps_failed any forms.1 forms.2)
  | .ok results, forms =>
    apply (meets_rebuildAt rules faithful any label results).mono
    intro r kept
    exact Keeps.trans (carries_replaced rfl node (forms.imp fun _ _ simplified => simplified.replaces any)) kept

theorem meets_rebuilt_trivial (faithful : self.Faithful truth) (label : Label) (out : Except Expr (List Expr)) :
    Meets truth (rebuilt self rules label out) fun _ => True := by
  match out with
  | .error failed => exact meets_pure trivial
  | .ok results => exact (meets_rebuildAt rules faithful rationals label results).trivial

/-- `phy_cas_simplify_node` answers with a simplified form, from the table or from its operands. -/
theorem meets_simplifyNode (faithful : self.Faithful truth) (simplifies : truth.Simplifies) (expr : Expr) :
    Meets truth (simplifyNode self rules expr) fun r => SimplifiesTo expr r := by
  apply (meets_cacheGet _ _ _).bind
  intro found keys
  split
  · rename_i entry
    obtain ⟨holds, tag, same, _⟩ := keys entry rfl
    exact meets_pure (same ▸ simplifies.read entry holds tag)
  · apply meets_step.seq
    intro _
    apply meets_ite
    · intro _
      apply (meets_cachePut (simplifies.write expr expr (.refl expr))).seq
      intro _
      exact meets_pure (.refl expr)
    · intro node
      obtain ⟨label, children⟩ := expr
      apply meets_request.seq
      intro _
      apply (meets_simplifyChildren faithful children).bind
      intro out forms
      have node : label.atom = false := Bool.eq_false_iff.mpr node
      have kept : Meets truth (rebuilt self rules label out) fun r => SimplifiesTo (.node label children) r := by
        apply (Meets.all (meets_rebuilt_trivial rules faithful label out) fun any =>
          meets_rebuilt rules faithful any node forms).mono
        intro r keeps
        refine ⟨keeps, fun q same => ?_⟩
        have exact : label = .exact q := congrArg Rose.label same
        rw [exact] at node
        cases node
      apply kept.bind
      intro result simplified
      apply (meets_cachePut (simplifies.write _ result simplified)).seq
      intro _
      exact meets_pure simplified

theorem meets_stagedOperation {label : Label} (faithful : self.Faithful truth) (any : AnyReading) (node : label.atom = false)
    {operation : List Expr → CasM Expr} (operates : ∀ operands, Meets truth (operation operands) fun r =>
      any.reading.Keeps (.node label operands) r) (operands : List Expr) :
    Meets truth (stagedOperation self operation operands) fun r => any.reading.Keeps (.node label operands) r := by
  apply meets_request.seq
  intro _
  apply (meets_simplifyChildren faithful operands).bind
  intro out forms
  match out, forms with
  | .error failed, forms => exact meets_pure (keeps_failed any forms.1 forms.2)
  | .ok results, forms =>
    apply (operates results).mono
    intro r kept
    exact Keeps.trans (carries_replaced rfl node (forms.imp fun _ _ simplified => simplified.replaces any)) kept

theorem meets_simplifyChildren_exact (faithful : self.Faithful truth) (numbers : List ℚ) :
    Meets truth (simplifyChildren self (numbers.map exactNode)) fun out => out = .ok (numbers.map exactNode) := by
  induction numbers with
  | nil => exact meets_pure rfl
  | cons q rest ih =>
    apply (faithful.simplifies _).bind
    intro first simplified
    rw [simplified.exact q rfl]
    apply meets_ite
    · intro failed
      cases failed
    · intro _
      apply ih.bind
      rintro _ rfl
      exact meets_pure rfl

theorem meets_stagedOperation_exact (faithful : self.Faithful truth) {operation : List Expr → CasM Expr} {p q : ℚ}
    {result : Expr} (operates : Meets truth (operation [exactNode p, exactNode q]) fun r => r = result) :
    Meets truth (stagedOperation self operation [exactNode p, exactNode q]) fun r => r = result := by
  apply meets_request.seq
  intro _
  apply (meets_simplifyChildren_exact faithful [p, q]).bind
  rintro _ rfl
  exact operates

theorem faithful_cutOff : Calls.cutOff.Faithful truth :=
  ⟨fun _ => ⟨fun _ => meets_throw _, fun _ => meets_throw _, fun _ _ => meets_throw _, fun _ _ => meets_throw _,
    fun _ _ => meets_throw _, fun _ _ _ => meets_throw _⟩, fun _ => meets_throw _⟩

theorem calls_faithful (simplifies : truth.Simplifies) (depth : Nat) : (calls rules depth).Faithful truth := by
  induction depth with
  | zero => exact faithful_cutOff
  | succ depth ih =>
    refine ⟨fun any => ?_, fun expr => meets_simplifyNode rules ih simplifies expr⟩
    have sound := ih.sound any
    constructor
    · exact fun terms => meets_stagedOperation ih any rfl (meets_addAt any.reading) terms
    · exact fun factors => meets_stagedOperation ih any rfl (meets_mulAt sound) factors
    · exact fun base exponent => meets_powNode sound base exponent
    · exact fun p q => meets_stagedOperation_exact ih (meets_addAt_exact p q)
    · exact fun p q => meets_stagedOperation_exact ih (meets_mulAt_exact _ p q)
    · exact fun base v known => meets_powNode_zero _ known

end PhyNspire.Cas.Core

import Mathlib.RingTheory.Derivation.Lie
import PhyNspire.Cas.Differentiate

/-!
The value of a derivative. In a field with a derivation that takes the variable to one and every other
symbol to zero, the rules of diff.c compute the derivation.
-/

namespace PhyNspire.Cas.Core
open Lib Lib.Trees Ir.Expressions
open Values Reading

mutual
/-- An expression mentions the variable, or has a part whose dependence is not visible. -/
def dependsOn (var : Expr) : Expr → Bool
  | .node label children =>
      decide (Rose.node label children = var) || kindIsOpaque label || bareCall label children || dependsOnAny var children

def dependsOnAny (var : Expr) : List Expr → Bool
  | [] => false
  | child :: rest => dependsOn var child || dependsOnAny var rest
end

theorem dependsOnAny_eq_false {var : Expr} {children : List Expr} (absent : dependsOnAny var children = false) :
    ∀ child ∈ children, dependsOn var child = false := by
  induction children with
  | nil => exact fun child inside => absurd inside List.not_mem_nil
  | cons first rest ih =>
    unfold dependsOnAny at absent
    obtain ⟨here, later⟩ := Bool.or_eq_false_iff.mp absent
    intro child inside
    rcases List.mem_cons.mp inside with rfl | inner
    · exact here
    · exact ih later child inner

structure Truth.Depends (truth : Truth) : Prop where
  read : ∀ var entry, truth.holds entry → entry.tag = .depends → entry.b = .ref var →
    decide (entry.r0 ≠ zero) = dependsOn var entry.a
  write : ∀ var expr, truth.holds ⟨.depends, expr, .ref var, if dependsOn var expr then one else zero, none⟩

variable {truth : Truth}

theorem meets_mayDependAny {var : Expr} (children : List Expr)
    (each : ∀ child ∈ children, Meets truth (mayDepend var child) fun b => b = dependsOn var child) :
    Meets truth (mayDependAny var children) fun b => b = dependsOnAny var children := by
  induction children with
  | nil => exact meets_pure rfl
  | cons child rest ih =>
    apply (each child List.mem_cons_self).bind
    intro depends same
    unfold dependsOnAny
    rw [← same]
    apply meets_ite
    · intro yes
      exact meets_pure (by rw [yes, Bool.true_or])
    · intro no
      apply (ih fun child inside => each child (List.mem_cons_of_mem _ inside)).mono
      intro b same'
      rw [Bool.eq_false_iff.mpr no, Bool.false_or, same']

/-- `phy_cas_may_depend` answers false exactly when the dependence is visible and absent. -/
theorem meets_mayDepend (depends : truth.Depends) (var expr : Expr) :
    Meets truth (mayDepend var expr) fun b => b = dependsOn var expr := by
  induction expr using Rose.induct with
  | node label children ih =>
    apply meets_ite
    · intro same
      exact meets_pure (by rw [dependsOn, decide_eq_true same, Bool.true_or, Bool.true_or, Bool.true_or])
    · intro other
      apply (meets_cacheGet _ _ _).bind
      intro found keys
      split
      · rename_i entry
        obtain ⟨holds, tag, same, second⟩ := keys entry rfl
        exact meets_pure (same ▸ depends.read var entry holds tag second)
      · apply meets_step.seq
        intro _
        have written := depends.write var (.node label children)
        rw [dependsOn, decide_eq_false other, Bool.false_or] at written ⊢
        apply meets_ite
        · intro hidden
          rw [hidden, Bool.true_or] at written ⊢
          apply (meets_cachePut written).seq
          intro _
          exact meets_pure rfl
        · intro visible
          rw [Bool.eq_false_iff.mpr visible, Bool.false_or] at written ⊢
          apply (meets_mayDependAny children ih).bind
          rintro _ rfl
          apply (meets_cachePut written).seq
          intro _
          exact meets_pure rfl

section Derivations

variable {K : Type} [Field K] [CharZero K] {δ : Derivation ℚ K K}

theorem derivation_rat (q : ℚ) : δ (q : K) = 0 := by
  rw [← eq_ratCast (algebraMap ℚ K) q]
  exact δ.map_algebraMap q

theorem derivation_pow (v : K) {n : Nat} (some : v ≠ 0) : δ (v ^ n) = n * (v ^ n * v⁻¹) * δ v := by
  rw [δ.leibniz_pow]
  cases n with
  | zero => simp
  | succ n =>
    rw [Nat.add_sub_cancel, nsmul_eq_mul, smul_eq_mul, pow_succ, mul_assoc (v ^ n), mul_inv_cancel₀ some, mul_one]
    ring

theorem derivation_zpow (v : K) (k : Int) (some : v ≠ 0) : δ (v ^ k) = k * (v ^ k * v⁻¹) * δ v := by
  obtain ⟨n, rfl | rfl⟩ := k.eq_nat_or_neg
  · rw [zpow_natCast, derivation_pow v some]
    push_cast
    ring
  · have power : v ^ n ≠ 0 := pow_ne_zero n some
    rw [zpow_neg, zpow_natCast, δ.leibniz_inv, derivation_pow v some, smul_eq_mul]
    push_cast
    field_simp

theorem derivation_combine {label : Label} (foldable : Foldable label) {values : List K} (zero : ∀ v ∈ values, δ v = 0) :
    δ (combine label values) = 0 := by
  induction values with
  | nil =>
    rcases foldable with rfl | rfl
    · rw [combine_add, List.sum_nil, map_zero]
    · rw [combine_mul, List.prod_nil, δ.map_one_eq_zero]
  | cons v rest ih =>
    have first := zero v List.mem_cons_self
    have later := ih fun w inside => zero w (List.mem_cons_of_mem _ inside)
    rw [combine_cons]
    rcases foldable with rfl | rfl
    · rw [combine_add, List.sum_pair, map_add, first, later, add_zero]
    · rw [combine_mul, List.prod_pair, δ.leibniz, first, later, smul_zero, smul_zero, add_zero]

variable [DecidableEq K] {reading : Reading K} {x : Name}

structure Reading.Partial (reading : Reading K) (x : Name) (δ : Derivation ℚ K K) : Prop where
  variable_ : ∀ v, reading.symbol x = some v → δ v = 1
  others : ∀ name v, name ≠ x → reading.symbol name = some v → δ v = 0

theorem derivation_raise {u p : K} {q : ℚ} (raised : reading.raise u q = some p) (some : u ≠ 0) :
    δ p = q * (p * u⁻¹) * δ u := by
  have whole : reading.raise p ((q.den : Int) : ℚ) = .some (p ^ (q.den : Int)) :=
    raise_of_int (.inr (by exact_mod_cast q.den_pos))
  have numerator : reading.raise u (q.num : ℚ) = .some (p ^ (q.den : Int)) := by
    have power := raise_mul raised whole
    rwa [Int.cast_natCast, Rat.mul_den_eq_num] at power
  have powers := raise_int numerator
  have nonzero : p ≠ 0 := by
    rintro rfl
    rw [zero_zpow _ (by exact_mod_cast q.den_pos.ne')] at powers
    exact zpow_ne_zero _ some powers.symm
  have derived : δ (p ^ (q.den : Int)) = δ (u ^ q.num) := congrArg δ powers
  rw [derivation_zpow p _ nonzero, derivation_zpow u _ some, powers] at derived
  have positive : ((q.den : Int) : K) ≠ 0 := by exact_mod_cast q.den_pos.ne'
  have top : u ^ q.num ≠ 0 := zpow_ne_zero _ some
  have ratio : (q : K) = (q.num : K) / ((q.den : Int) : K) := by
    rw [Int.cast_natCast]
    exact Rat.cast_def q
  rw [ratio]
  field_simp at derived ⊢
  linear_combination derived

theorem derivation_zero (free : Expr → Prop) (inner : ∀ {label children}, free (.node label children) → ∀ child ∈ children, free child)
    (zero : ∀ name v, free (symbolNode name) → reading.symbol name = some v → δ v = 0) (expr : Expr) :
    ∀ {v}, free expr → reading.eval expr = some v → δ v = 0 := by
  induction expr using Rose.induct with
  | node label children ih =>
    intro v held known
    have each := inner held
    rcases eval_some known with ⟨q, rfl, rfl, rfl⟩ | ⟨name, rfl, rfl, symbol⟩ | ⟨foldable, values, operands, rfl⟩ |
      ⟨base, q, u, rfl, rfl, worth, raised⟩
    · exact derivation_rat q
    · exact zero name v held symbol
    · exact derivation_combine foldable (forall_values operands fun child inside v => ih child inside (each child inside))
    · have still : δ u = 0 := ih base List.mem_cons_self (each base List.mem_cons_self) worth
      by_cases zero : u = 0
      · rw [zero] at raised
        rw [(raise_zero_base raised).2.2, map_zero]
      · rw [derivation_raise raised zero, still, mul_zero]

theorem derivation_absent (derives : reading.Partial x δ) {expr : Expr} {v : K}
    (absent : dependsOn (symbolNode x) expr = false) (known : reading.eval expr = some v) : δ v = 0 := by
  refine derivation_zero (fun e => dependsOn (symbolNode x) e = false) (fun held child inside => ?_)
    (fun name v held symbol => ?_) expr absent known
  · unfold dependsOn at held
    exact dependsOnAny_eq_false (Bool.or_eq_false_iff.mp held).2 child inside
  · apply derives.others name v _ symbol
    rintro rfl
    unfold symbolNode dependsOn at held
    rw [decide_eq_true rfl] at held
    cases held

theorem partial_comm {y : Name} {δ' : Derivation ℚ K K} (derives : reading.Partial x δ) (derives' : reading.Partial y δ')
    {expr : Expr} {v : K} (known : reading.eval expr = some v) : δ' (δ v) = δ (δ' v) := by
  have constant {z : Name} {ε : Derivation ℚ K K} (derives : reading.Partial z ε) {name : Name} {v : K}
      (symbol : reading.symbol name = some v) : ε v = 1 ∨ ε v = 0 := by
    by_cases same : name = z
    · exact .inl (derives.variable_ v (same ▸ symbol))
    · exact .inr (derives.others name v same symbol)
  have still {ε : Derivation ℚ K K} {w : K} (known : w = 1 ∨ w = 0) : ε w = 0 := by
    rcases known with rfl | rfl
    · exact ε.map_one_eq_zero
    · exact map_zero ε
  have bracket : ⁅δ', δ⁆ v = 0 := by
    refine derivation_zero (fun _ => True) (fun _ _ _ => trivial) (fun name v _ symbol => ?_) expr trivial known
    rw [Derivation.commutator_apply, still (constant derives symbol), still (constant derives' symbol), sub_zero]
  rw [Derivation.commutator_apply] at bracket
  exact sub_eq_zero.mp bracket

end Derivations

end PhyNspire.Cas.Core

/-!
Differentiation is the formal derivation. The walk answers with the derivative of the value, with the
exact zero where no dependence is visible or hidden, and with the unevaluated derivative of what hides
its dependence.
-/

namespace PhyNspire.Cas.Core
open Lib Lib.Trees Ir.Expressions
open Values Reading

/-- The root of an expression hides on what it depends. -/
def hiddenRoot : Expr → Bool
  | .node label children => kindIsOpaque label || (isFunction label && (knownFunction label children).isNone)

def DerivativeOf (x : Name) (any : AnyReading) (expr result : Expr) : Prop :=
  ∀ δ : Derivation ℚ any.K any.K, any.reading.Partial x δ → ∀ v, any.reading.eval expr = some v →
    any.reading.eval result = some (δ v)

/-- What differentiating an expression may answer. -/
structure DiffTo (x : Name) (expr result : Expr) : Prop where
  value : ∀ any, DerivativeOf x any expr result
  absent : dependsOn (symbolNode x) expr = false → isError expr = false → result = zero
  hidden : hiddenRoot expr = true → dependsOn (symbolNode x) expr = true → result = deferred (symbolNode x) expr

/-- The derivatives in the memo table are derivatives. -/
structure Truth.Differentiates (truth : Truth) : Prop where
  read : ∀ x entry, truth.holds entry → entry.tag = .diff → entry.b = .ref (symbolNode x) → DiffTo x entry.a entry.r0
  write : ∀ x expr result, DiffTo x expr result → truth.holds ⟨.diff, expr, .ref (symbolNode x), result, none⟩

variable {truth : Truth} {self : Calls} {rules : Name → List Expr → Rule} {x : Name}

section Outer

variable (rules) (faithful : self.Faithful truth)

include faithful

theorem trusts_add (terms : List Expr) : Meets truth (self.addNode terms) fun _ => True :=
  ((faithful.sound rationals).add terms).trivial

theorem trusts_mul (factors : List Expr) : Meets truth (self.mulNode factors) fun _ => True :=
  ((faithful.sound rationals).mul factors).trivial

theorem trusts_pow (base exponent : Expr) : Meets truth (self.powNode base exponent) fun _ => True :=
  ((faithful.sound rationals).pow base exponent).trivial

theorem trusts_neg (value : Expr) : Meets truth (negNode self value) fun _ => True := trusts_mul faithful _

theorem trusts_rebuild (label : Label) (children : List Expr) :
    Meets truth (rebuildAt self rules label children) fun _ => True :=
  (meets_rebuildAt rules faithful rationals label children).trivial

theorem trusts_unaryCall (function : CasFunction) (argument : Expr) :
    Meets truth (unaryCall self rules function argument) fun _ => True :=
  meets_request.seq fun _ => trusts_rebuild rules faithful _ _

omit faithful in
theorem trusts_number (q : ℚ) : Meets truth (irNode (.exact q) []) fun _ => True := (meets_irNode _ _).trivial

theorem trusts_negateWhen (needed : Bool) (expr : Expr) : Meets truth (negateWhen self needed expr) fun _ => True :=
  meets_ite (fun _ => trusts_neg faithful expr) (fun _ => meets_pure trivial)

theorem trusts_inverseSquare (function : CasFunction) (argument : Expr) :
    Meets truth (inverseSquare self rules function argument) fun _ => True :=
  (trusts_rebuild rules faithful _ _).seq fun _ => (trusts_number _).seq fun _ => trusts_pow faithful _ _

theorem trusts_acoshDenominator (argument : Expr) : Meets truth (acoshDenominator self argument) fun _ => True :=
  (trusts_add faithful _).seq fun _ => (trusts_add faithful _).seq fun _ => (trusts_number _).seq fun _ =>
    (trusts_pow faithful _ _).seq fun _ => (trusts_pow faithful _ _).seq fun _ => trusts_mul faithful _

theorem trusts_inverseDenominator (function : CasFunction) (argument square : Expr) :
    Meets truth (inverseDenominator self function argument square) fun _ => True := by
  apply meets_ite
  · intro _
    exact trusts_acoshDenominator faithful argument
  · intro _
    have squares : Meets truth (squareDenominator self function square) fun _ => True :=
      meets_ite (fun _ => trusts_add faithful _) (fun _ => (trusts_neg faithful _).seq fun _ => trusts_add faithful _)
    apply squares.seq
    intro denominator
    exact meets_ite (fun _ => (trusts_number _).seq fun _ => trusts_pow faithful _ _) (fun _ => meets_pure trivial)

theorem trusts_inverseOuter (function : CasFunction) (argument : Expr) :
    Meets truth (inverseOuter self function argument) fun _ => True :=
  (trusts_number _).seq fun _ => (trusts_pow faithful _ _).seq fun _ =>
    (trusts_inverseDenominator faithful _ _ _).seq fun _ => (trusts_pow faithful _ _).seq fun _ =>
      trusts_negateWhen faithful _ _

theorem trusts_errorOuter (function : CasFunction) (argument : Expr) :
    Meets truth (errorOuter self rules function argument) fun _ => True :=
  (trusts_number _).seq fun _ => (trusts_pow faithful _ _).seq fun _ => (trusts_neg faithful _).seq fun _ =>
    (trusts_unaryCall rules faithful _ _).seq fun _ => (trusts_number _).seq fun _ =>
      (trusts_pow faithful _ _).seq fun _ => (trusts_mul faithful _).seq fun _ => trusts_negateWhen faithful _ _

theorem trusts_outerDerivative (function : CasFunction) (argument : Expr) :
    Meets truth (outerDerivative self rules function argument) fun _ => True := by
  apply meets_request.seq
  intro _
  cases function with
  | sin | exp | sinh | cosh => exact trusts_rebuild rules faithful _ _
  | cos => exact (trusts_rebuild rules faithful _ _).seq fun _ => trusts_neg faithful _
  | tan | tanh => exact trusts_inverseSquare rules faithful _ _
  | log => exact trusts_pow faithful _ _
  | asin | acos | atan | asinh | acosh | atanh => exact trusts_inverseOuter faithful _ _
  | gamma =>
    exact (trusts_unaryCall rules faithful _ _).seq fun _ => (trusts_unaryCall rules faithful _ _).seq fun _ =>
      trusts_mul faithful _
  | loggamma => exact trusts_unaryCall rules faithful _ _
  | erf | erfc => exact trusts_errorOuter rules faithful _ _
  | factorial =>
    exact (trusts_add faithful _).seq fun _ => (trusts_unaryCall rules faithful _ _).seq fun _ =>
      (trusts_unaryCall rules faithful _ _).seq fun _ => trusts_mul faithful _
  | pochhammer | binomial | bernoulli | harmonic | digamma => exact meets_refuse _

end Outer

section Rules

variable {any : AnyReading} {δ : Derivation ℚ any.K any.K}

theorem eval_derivatives {children terms : List Expr} (each : List.Forall₂ (DiffTo x) children terms)
    (derives : any.reading.Partial x δ) {v : any.K} (known : any.reading.eval (.node .add children) = some v) :
    any.reading.eval (.node .add terms) = some (δ v) := by
  induction each generalizing v with
  | nil =>
    rw [eval_nil (.inl rfl)] at known ⊢
    cases known
    rw [combine_add, List.sum_nil, map_zero]
  | cons head _ ih =>
    obtain ⟨u, w, here, later, rfl⟩ := (eval_cons (.inl rfl)).mp known
    refine (eval_cons (.inl rfl)).mpr ⟨δ u, δ w, head.value any δ derives u here, ih later, ?_⟩
    rw [combine_add, combine_add, List.sum_pair, List.sum_pair, map_add]

theorem meets_diffEach (children : List Expr)
    (each : ∀ child ∈ children, Meets truth (diffNode self rules (symbolNode x) child) (DiffTo x child)) :
    Meets truth (diffEach self rules (symbolNode x) children) (List.Forall₂ (DiffTo x) children) := by
  induction children with
  | nil => exact meets_pure .nil
  | cons child rest ih =>
    apply (each child List.mem_cons_self).bind
    intro term derivative
    apply (ih fun child inside => each child (List.mem_cons_of_mem _ inside)).bind
    intro terms later
    exact meets_pure (.cons derivative later)

/-- The terms of the product rule: behind the factors that are already passed, the rest is derived. -/
def ProductRule (x : Name) (before rest terms : List Expr) : Prop :=
  ∀ (any : AnyReading) (δ : Derivation ℚ any.K any.K), any.reading.Partial x δ → ∀ b r,
    any.reading.eval (.node .mul before) = some b → any.reading.eval (.node .mul rest) = some r →
      any.reading.eval (.node .add terms) = some (b * δ r)

theorem meets_diffFactors (faithful : self.Faithful truth) (factors : List Expr)
    (each : ∀ child ∈ factors, Meets truth (diffNode self rules (symbolNode x) child) (DiffTo x child)) (before : List Expr) :
    Meets truth (diffFactors self rules (symbolNode x) before factors) (ProductRule x before factors) := by
  induction factors generalizing before with
  | nil =>
    apply meets_pure
    intro any δ derives b r front rest
    rw [eval_nil (.inr rfl)] at rest
    cases rest
    rw [eval_nil (.inl rfl), combine_mul, List.prod_nil, δ.map_one_eq_zero, mul_zero, combine_add, List.sum_nil]
  | cons factor rest ih =>
    apply (each factor List.mem_cons_self).bind
    intro entry derivative
    have product : Meets truth (mulAt self (before ++ entry :: rest)) fun term => ∀ any : AnyReading,
        any.reading.Keeps (.node .mul (before ++ entry :: rest)) term :=
      Meets.all (meets_mulAt (faithful.sound rationals) _).trivial fun any => meets_mulAt (faithful.sound any) _
    apply product.bind
    intro term worth
    apply (ih (fun child inside => each child (List.mem_cons_of_mem _ inside)) (before ++ [factor])).bind
    intro terms later
    apply meets_pure
    intro any δ derives b r front whole
    obtain ⟨u, w, here, others, rfl⟩ := (eval_cons (.inr rfl)).mp whole
    have passed : any.reading.eval (.node .mul (before ++ [factor])) = some (b * u) :=
      (eval_append (.inr rfl)).mpr ⟨b, u, front, (eval_single (.inr rfl) factor).trans here, by
        rw [combine_mul, List.prod_pair]⟩
    have first : any.reading.eval term = some (b * (δ u * w)) := by
      apply worth any
      refine (eval_append (.inr rfl)).mpr ⟨b, δ u * w, front, ?_, by rw [combine_mul, List.prod_pair]⟩
      exact (eval_cons (.inr rfl)).mpr ⟨δ u, w, derivative.value any δ derives u here, others, by
        rw [combine_mul, List.prod_pair]⟩
    refine (eval_cons (.inl rfl)).mpr ⟨_, _, first, later any δ derives (b * u) w passed others, ?_⟩
    rw [combine_add, combine_mul, List.sum_pair, List.prod_pair, δ.leibniz, smul_eq_mul, smul_eq_mul]
    ring

end Rules

/-- The power with the exponent lowered by one, as the power rule uses it. -/
theorem meets_lowered (faithful : self.Faithful truth) (base : Expr) (q : ℚ) :
    Meets truth (self.powNode base (exactNode (q + -1))) fun r => ∀ (any : AnyReading) (u p : any.K),
      any.reading.eval base = some u → any.reading.raise u q = some p →
        ∃ w, any.reading.eval r = some w ∧ ∀ δ : Derivation ℚ any.K any.K, δ p = q * w * δ u := by
  apply Meets.all (trusts_pow faithful _ _)
  intro any
  by_cases valued : ∃ u, any.reading.eval base = some u
  · obtain ⟨u, worth⟩ := valued
    by_cases linear : u = 0 ∧ q = 1
    · obtain ⟨rfl, rfl⟩ := linear
      rw [show (1 + -1 : ℚ) = 0 from by ring]
      apply ((faithful.sound any).powZero base 0 worth).mono
      rintro _ rfl u p worth' raised
      rw [worth] at worth'
      cases worth'
      refine ⟨1, by rw [one, eval_exact, Rat.cast_one], fun δ => ?_⟩
      rw [(raise_zero_base raised).2.2, map_zero, mul_zero]
    · apply ((faithful.sound any).pow base _).mono
      intro r kept u' p worth' raised
      rw [worth] at worth'
      cases worth'
      by_cases zero : u = 0
      · subst zero
        obtain ⟨whole, positive, rfl⟩ := raise_zero_base raised
        have integer : q = ((q.num : Int) : ℚ) := (Rat.coe_int_num_of_den_eq_one whole).symm
        have two : 1 < q.num := by
          rcases (Int.add_one_le_of_lt positive).lt_or_eq with more | exact
          · omega
          · refine absurd ⟨rfl, ?_⟩ linear
            rw [integer, ← exact]
            norm_num
        have lowered : any.reading.raise (0 : any.K) (q + -1) = some 0 := by
          have power := any.reading.raise_of_int (u := (0 : any.K)) (k := q.num - 1) (.inr (by omega))
          rw [zero_zpow _ (by omega)] at power
          rw [integer]
          rw [show ((q.num : Int) : ℚ) + -1 = ((q.num - 1 : Int) : ℚ) by push_cast; ring]
          exact power
        refine ⟨0, kept 0 ?_, fun δ => ?_⟩
        · rw [eval_pow, worth, Option.bind_some, lowered]
        · rw [map_zero, mul_zero]
      · have inverse : any.reading.raise u (-1) = some u⁻¹ := any.reading.raise_neg zero (raise_one_exponent u)
        refine ⟨p * u⁻¹, kept _ ?_, fun δ => derivation_raise raised zero⟩
        rw [eval_pow, worth, Option.bind_some]
        exact any.reading.raise_add raised inverse
  · apply (trusts_pow faithful _ _).mono
    intro r _ u p worth
    exact absurd ⟨u, worth⟩ valued

theorem dependsOn_exact (q : ℚ) : dependsOn (symbolNode x) (exactNode q) = false := by
  unfold exactNode dependsOn dependsOnAny
  rfl

theorem meets_diffPower (faithful : self.Faithful truth) (depends : truth.Depends) (children : List Expr)
    (each : ∀ child ∈ children, Meets truth (diffNode self rules (symbolNode x) child) (DiffTo x child)) :
    Meets truth (diffPower self rules (symbolNode x) (.node .pow children) children) fun r => ∀ any,
      DerivativeOf x any (.node .pow children) r := by
  unfold diffPower
  split
  · rename_i base exponent
    apply (meets_mayDepend depends (symbolNode x) exponent).bind
    rintro _ rfl
    apply meets_ite
    · intro varies
      -- no value: the exponent is not a number
      have worthless : ∀ r any, DerivativeOf x any (.node .pow [base, exponent]) r := by
        intro r any δ _ v known
        obtain ⟨_, q, _, rfl, _⟩ := eval_pow_some known
        rw [dependsOn_exact] at varies
        cases varies
      apply (meets_mayDepend depends (symbolNode x) base).seq
      intro baseVaries
      apply meets_request.seq
      intro _
      apply (each exponent (by simp)).seq
      intro exponentDerivative
      apply meets_request.seq
      intro _
      apply (trusts_rebuild rules faithful _ _).seq
      intro logarithm
      apply (trusts_mul faithful _).seq
      intro first
      apply meets_ite
      · intro _
        apply (each base (by simp)).seq
        intro derivative
        apply (trusts_pow faithful _ _).seq
        intro inverse
        apply (trusts_mul faithful _).seq
        intro second
        apply (meets_addAt rationals.reading _).seq
        intro inner
        exact (trusts_mul faithful _).mono fun r _ => worthless r
      · intro _
        apply (meets_addAt rationals.reading _).seq
        intro inner
        exact (trusts_mul faithful _).mono fun r _ => worthless r
    · intro _
      by_cases rational : ∃ q, exponent = exactNode q
      · obtain ⟨q, rfl⟩ := rational
        apply ((faithful.sound rationals).addExact q (-1)).bind
        rintro _ rfl
        apply (meets_lowered faithful base q).bind
        intro reduced lowered
        apply (each base (by simp)).bind
        intro derivative inner
        have product : Meets truth (self.mulNode [exactNode q, reduced, derivative]) fun r => ∀ any : AnyReading,
            any.reading.Keeps (.node .mul [exactNode q, reduced, derivative]) r :=
          Meets.all (trusts_mul faithful _) fun any => (faithful.sound any).mul _
        apply product.mono
        intro r kept any δ derives v known
        rw [eval_pow] at known
        obtain ⟨u, worth, raised⟩ := Option.bind_eq_some_iff.mp known
        obtain ⟨w, worth', rule⟩ := lowered any u v worth raised
        apply kept any
        rw [rule δ]
        simp [evalAll_cons, worth', inner.value any δ derives u worth, mul_assoc]
      · apply (trusts_add faithful _).seq
        intro lowered
        apply (trusts_pow faithful _ _).seq
        intro reduced
        apply (each base (by simp)).seq
        intro derivative
        apply (trusts_mul faithful _).mono
        intro r _ any δ _ v known
        obtain ⟨_, q, _, same, _⟩ := eval_pow_some known
        exact absurd ⟨q, same⟩ rational
  · exact meets_refuse _

theorem meets_defer (var expr : Expr) : Meets truth (defer var expr) fun r => r = deferred var expr :=
  meets_request.seq fun _ => meets_pure rfl

structure RuleTo (x : Name) (label : Label) (children : List Expr) (result : Expr) : Prop where
  value : ∀ any, DerivativeOf x any (.node label children) result
  hidden : hiddenRoot (.node label children) = true → result = deferred (symbolNode x) (.node label children)

theorem ruleTo_valueless {label : Label} {children : List Expr} (node : label.atom = false) (notFoldable : ¬Foldable label)
    (notPow : label ≠ .pow) {result : Expr}
    (hidden : hiddenRoot (.node label children) = true → result = deferred (symbolNode x) (.node label children)) :
    RuleTo x label children result := by
  refine ⟨fun any δ _ v known => ?_, hidden⟩
  rcases eval_some known with ⟨_, rfl, _⟩ | ⟨_, rfl, _⟩ | ⟨foldable, _⟩ | ⟨_, _, _, same, _⟩
  · cases node
  · cases node
  · exact absurd foldable notFoldable
  · exact absurd same notPow

theorem meets_diffRule (faithful : self.Faithful truth) (depends : truth.Depends) {label : Label} (children : List Expr)
    (other : Rose.node label children ≠ symbolNode x) (varies : dependsOn (symbolNode x) (.node label children) = true)
    (each : ∀ child ∈ children, Meets truth (diffNode self rules (symbolNode x) child) (DiffTo x child)) :
    Meets truth (diffRule self rules (symbolNode x) label children (diffEach self rules (symbolNode x) children)
      (diffFactors self rules (symbolNode x) [] children)
      (diffPower self rules (symbolNode x) (.node label children) children)
      (fun function => diffCall self rules (symbolNode x) function children)) (RuleTo x label children) := by
  unfold diffRule
  split
  · apply meets_request.seq
    intro _
    apply (meets_diffEach children each).bind
    intro terms derivatives
    have sum : Meets truth (addAt terms) fun r => ∀ any : AnyReading, any.reading.Keeps (.node .add terms) r :=
      Meets.all (meets_addAt rationals.reading terms).trivial fun any => meets_addAt any.reading terms
    apply sum.mono
    intro r kept
    refine ⟨fun any δ derives v known => kept any _ (eval_derivatives derivatives derives known), fun hidden => ?_⟩
    cases hidden
  · apply meets_request.seq
    intro _
    apply meets_request.seq
    intro _
    apply (meets_diffFactors faithful children each []).bind
    intro terms product
    have sum : Meets truth (addAt terms) fun r => ∀ any : AnyReading, any.reading.Keeps (.node .add terms) r :=
      Meets.all (meets_addAt rationals.reading terms).trivial fun any => meets_addAt any.reading terms
    apply sum.mono
    intro r kept
    refine ⟨fun any δ derives v known => kept any _ ?_, fun hidden => ?_⟩
    · have whole := product any δ derives 1 v (by rw [eval_nil (.inr rfl), combine_mul, List.prod_nil]) known
      rwa [one_mul] at whole
    · cases hidden
  · apply (meets_diffPower faithful depends children each).mono
    intro r value
    refine ⟨value, fun hidden => ?_⟩
    cases hidden
  · apply meets_request.seq
    intro _
    apply (meets_diffEach children each).seq
    intro sides
    apply (trusts_rebuild rules faithful _ _).mono
    intro r _
    exact ruleTo_valueless rfl (by simp [Foldable]) (by simp) fun hidden => by cases hidden
  · rename_i head
    split
    · apply (meets_defer _ _).mono
      intro r same
      exact ruleTo_valueless rfl (by simp [Foldable]) (by simp) fun _ => same
    · rename_i function known
      have visible : hiddenRoot (.node (.function head) children) = false := by
        simp [hiddenRoot, kindIsOpaque, known]
      have call : Meets truth (diffCall self rules (symbolNode x) function children) fun _ => True := by
        unfold diffCall
        split
        · apply (trusts_outerDerivative rules faithful _ _).seq
          intro outer
          apply (each _ List.mem_cons_self).seq
          intro inner
          exact trusts_mul faithful _
        · exact meets_refuse _
      apply call.mono
      intro r _
      exact ruleTo_valueless rfl (by simp [Foldable]) (by simp) fun hidden => by
        rw [visible] at hidden
        cases hidden
  · rename_i notAdd notMul notPow notEquation notFunction
    apply (meets_defer _ _).mono
    intro r same
    refine ⟨fun any δ _ v known => ?_, fun _ => same⟩
    rcases eval_some known with ⟨q, rfl, rfl, _⟩ | ⟨name, rfl, rfl, _⟩ | ⟨rfl | rfl, _⟩ | ⟨_, _, _, rfl, _⟩
    · rw [show Rose.node (Label.exact q) [] = exactNode q from rfl, dependsOn_exact] at varies
      cases varies
    · unfold dependsOn dependsOnAny at varies
      rw [decide_eq_false other] at varies
      cases varies
    · exact absurd rfl notAdd
    · exact absurd rfl notMul
    · exact absurd rfl notPow

/-- `phy_cas_diff_node` answers with the derivative. -/
theorem meets_diffNode (faithful : self.Faithful truth) (depends : truth.Depends) (differentiates : truth.Differentiates)
    (expr : Expr) : Meets truth (diffNode self rules (symbolNode x) expr) (DiffTo x expr) := by
  induction expr using Rose.induct with
  | node label children ih =>
    unfold diffNode
    apply meets_ite
    · intro variable_
      apply meets_pure
      rw [variable_]
      refine ⟨fun any δ derives v known => ?_, fun absent => ?_, fun hidden => ?_⟩
      · rw [eval_symbol] at known
        rw [derives.variable_ v known, one, eval_exact, Rat.cast_one]
      · unfold symbolNode dependsOn at absent
        rw [decide_eq_true rfl] at absent
        cases absent
      · cases hidden
    · intro other
      apply (meets_cacheGet _ _ _).bind
      intro found keys
      split
      · rename_i entry
        obtain ⟨holds, tag, same, second⟩ := keys entry rfl
        exact meets_pure (same ▸ differentiates.read x entry holds tag second)
      · apply meets_step.seq
        intro _
        apply meets_ite
        · intro failed
          have stays : DiffTo x (.node label children) (.node label children) := by
            refine ⟨fun any δ _ v known => ?_, fun _ notError => ?_, fun hidden => ?_⟩
            · rw [eval_error failed] at known
              cases known
            · rw [failed] at notError
              cases notError
            · unfold isError at failed
              split at failed
              · rename_i same
                cases same
                cases hidden
              · cases failed
          apply (meets_cachePut (differentiates.write x _ _ stays)).seq
          intro _
          exact meets_pure stays
        · intro _
          apply (meets_mayDepend depends (symbolNode x) _).bind
          rintro _ rfl
          apply meets_ite
          · intro varies
            apply (meets_diffRule faithful depends children other varies ih).bind
            intro result rule
            have derivative : DiffTo x (.node label children) result := by
              refine ⟨rule.value, fun absent => ?_, fun hidden _ => rule.hidden hidden⟩
              rw [varies] at absent
              cases absent
            apply (meets_cachePut (differentiates.write x _ _ derivative)).seq
            intro _
            exact meets_pure derivative
          · intro absent
            have constant : DiffTo x (.node label children) zero := by
              refine ⟨fun any δ derives v known => ?_, fun _ _ => rfl, fun _ varies => absurd varies absent⟩
              rw [derivation_absent derives (Bool.eq_false_iff.mpr absent) known, zero, eval_exact, Rat.cast_zero]
            apply (meets_cachePut (differentiates.write x _ _ constant)).seq
            intro _
            exact meets_pure constant

end PhyNspire.Cas.Core

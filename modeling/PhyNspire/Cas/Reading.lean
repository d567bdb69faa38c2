import PhyNspire.Cas.Simplify

/-!
What an expression is worth. Numbers, symbols, sums, products and powers with rational exponents
have values in a field; division by zero, zero to the zero and a fractional power of zero have none.
-/

namespace PhyNspire.Cas.Core
open Lib Ir.Expressions Ir.Sums

section Combining

variable {K : Type} [Field K]

namespace Reading

def combine (label : Label) (values : List K) : K := if label = .add then values.sum else values.prod

@[simp] theorem combine_add (values : List K) : combine .add values = values.sum := if_pos rfl

@[simp] theorem combine_mul (values : List K) : combine .mul values = values.prod := if_neg (by simp)

theorem combine_append (label : Label) (values values' : List K) : combine label (values ++ values') =
    combine label [combine label values, combine label values'] := by
  unfold combine
  split
  · rw [List.sum_append, List.sum_cons, List.sum_cons, List.sum_nil, add_zero]
  · rw [List.prod_append, List.prod_cons, List.prod_cons, List.prod_nil, mul_one]

theorem combine_cons (label : Label) (value : K) (values : List K) : combine label (value :: values) =
    combine label [value, combine label values] := by
  unfold combine
  split
  · rw [List.sum_cons, List.sum_cons, List.sum_cons, List.sum_nil, add_zero]
  · rw [List.prod_cons, List.prod_cons, List.prod_cons, List.prod_nil, mul_one]

theorem combine_cons_cons (label : Label) (first second : K) (values : List K) :
    combine label (first :: second :: values) = combine label (combine label [first, second] :: values) := by
  rw [combine_cons _ (combine label [first, second])]
  exact combine_append label [first, second] values

theorem combine_singleton (label : Label) (value : K) : combine label [value] = value := by
  unfold combine
  split
  · exact List.sum_singleton
  · exact List.prod_singleton

theorem combine_perm (label : Label) {values values' : List K} (perm : values.Perm values') :
    combine label values = combine label values' := by
  unfold combine
  split
  · exact perm.sum_eq
  · exact perm.prod_eq

end Reading

end Combining

/-- A power with a rational exponent; the fractional ones are given. -/
def raiseBy {K : Type} [Field K] [DecidableEq K] (root : K → ℚ → Option K) (u : K) (q : ℚ) : Option K :=
  if q.den = 1 then
    if u = 0 ∧ q.num ≤ 0 then none else some (u ^ q.num)
  else root u q

structure Branch (K : Type) [Field K] [DecidableEq K] where
  root : K → ℚ → Option K
  root_zero : ∀ q, root 0 q = none
  root_one : ∀ {q p}, root 1 q = some p → p = 1
  raise_add : ∀ {u a b p r}, raiseBy root u a = some p → raiseBy root u b = some r → raiseBy root u (a + b) = some (p * r)
  raise_neg : ∀ {u a p}, u ≠ 0 → raiseBy root u a = some p → raiseBy root u (-a) = some p⁻¹
  /-- The root of a positive square is positive, and comes out of a product. -/
  raise_half : ∀ {c r : ℚ} {p}, 0 < c → 0 < r → raiseBy root ((c ^ 2 * r : ℚ) : K) (1 / 2) = some p →
    ∃ t, raiseBy root (r : K) (1 / 2) = some t ∧ p = c * t

structure Values (K : Type) [Field K] [DecidableEq K] extends Branch K where
  symbol : Name → Option K

/-- The imaginary unit is a square root of minus one, or has no value. -/
structure Reading (K : Type) [Field K] [DecidableEq K] extends Values K where
  unit_square : ∀ {i}, symbol unitName = some i → i * i = -1

variable {K : Type} [Field K] [DecidableEq K]

def Branch.raise (branch : Branch K) (u : K) (q : ℚ) : Option K := raiseBy branch.root u q

/-- Without fractional powers. -/
def Branch.integral (K : Type) [Field K] [DecidableEq K] : Branch K :=
  have whole {u : K} {q : ℚ} {p : K} (raised : raiseBy (fun _ _ => none) u q = some p) :
      q.den = 1 ∧ (u = 0 → 0 < q.num) ∧ p = u ^ q.num := by
    unfold raiseBy at raised
    split at raised
    · rename_i integer
      split at raised
      · cases raised
      · rename_i defined
        exact ⟨integer, fun zero => not_le.mp fun negative => defined ⟨zero, negative⟩, (Option.some.inj raised).symm⟩
    · cases raised
  have power {u : K} {k : Int} (defined : u = 0 → 0 < k) : raiseBy (fun _ _ => none) u k = some (u ^ k) := by
    unfold raiseBy
    rw [if_pos (Rat.den_intCast k), Rat.num_intCast, if_neg]
    exact fun undefined => not_lt.mpr undefined.2 (defined undefined.1)
  { root := fun _ _ => none
    root_zero := fun _ => rfl
    root_one := fun absent => by cases absent
    raise_add := by
      intro u a b p r first second
      obtain ⟨integer, defined, rfl⟩ := whole first
      obtain ⟨integer', defined', rfl⟩ := whole second
      rw [← Rat.coe_int_num_of_den_eq_one integer, ← Rat.coe_int_num_of_den_eq_one integer', ← Int.cast_add,
        power fun zero => add_pos (defined zero) (defined' zero), Rat.num_intCast, Rat.num_intCast]
      by_cases zero : u = 0
      · rw [zero, zero_zpow _ (defined zero).ne', zero_zpow _ (add_pos (defined zero) (defined' zero)).ne', zero_mul]
      · rw [zpow_add₀ zero]
    raise_neg := by
      intro u a p nonzero raised
      obtain ⟨integer, _, rfl⟩ := whole raised
      rw [← Rat.coe_int_num_of_den_eq_one integer, ← Int.cast_neg, power fun zero => absurd zero nonzero,
        Rat.num_intCast, zpow_neg]
    raise_half := by
      intro c r p _ _ raised
      exact absurd (whole raised).1 (by decide +kernel) }

namespace Values

mutual
def eval (values : Values K) : Expr → Option K
  | .node (.exact q) [] => some q
  | .node (.symbol name) [] => values.symbol name
  | .node .add children => (evalAll values children).map List.sum
  | .node .mul children => (evalAll values children).map List.prod
  | .node .pow [base, .node (.exact q) []] => (eval values base).bind fun u => values.raise u q
  | _ => none

def evalAll (values : Values K) : List Expr → Option (List K)
  | [] => some []
  | first :: rest => (eval values first).bind fun value => (evalAll values rest).map (value :: ·)
end

variable {values : Values K}

@[simp] theorem eval_exact (q : ℚ) : values.eval (exactNode q) = some (q : K) := by
  unfold exactNode
  unfold eval
  rfl

@[simp] theorem eval_symbol (name : Name) : values.eval (symbolNode name) = values.symbol name := by
  unfold symbolNode
  unfold eval
  rfl

end Values

namespace Reading
open Values

theorem ext_symbol {first second : Reading K} (branch : first.toBranch = second.toBranch)
    (symbol : first.symbol = second.symbol) : first = second := by
  obtain ⟨⟨one, symbols⟩, square⟩ := first
  obtain ⟨⟨two, symbols'⟩, square'⟩ := second
  cases branch
  cases symbol
  rfl

/-- A result is worth under one reading what an expression is worth under another, where that has a value. -/
def Carries (before after : Reading K) (expr result : Expr) : Prop :=
  ∀ value, before.eval expr = some value → after.eval result = some value

variable {reading : Reading K} {u v p : K} {q a b : ℚ} {exprs : List Expr} {values : List K}

theorem eval_exact_cons {first : Expr} {rest : List Expr} : reading.eval (.node (.exact q) (first :: rest)) = none := by
  unfold eval
  rfl

@[simp] theorem eval_add (children : List Expr) :
    reading.eval (.node .add children) = (reading.evalAll children).map List.sum := by
  rw [eval]

@[simp] theorem eval_mul (children : List Expr) :
    reading.eval (.node .mul children) = (reading.evalAll children).map List.prod := by
  rw [eval]

@[simp] theorem eval_pow (base : Expr) (q : ℚ) :
    reading.eval (.node .pow [base, exactNode q]) = (reading.eval base).bind fun u => reading.raise u q := by
  rw [exactNode, eval]

@[simp] theorem eval_function (head : Name) (children : List Expr) : reading.eval (.node (.function head) children) = none := by
  unfold eval
  rfl

@[simp] theorem evalAll_nil : reading.evalAll [] = some [] := by
  unfold evalAll
  rfl

theorem evalAll_cons (first : Expr) (rest : List Expr) :
    reading.evalAll (first :: rest) = (reading.eval first).bind fun value => (reading.evalAll rest).map (value :: ·) := by
  rw [evalAll]

theorem evalAll_cons_some {first : Expr} {rest : List Expr} :
    reading.evalAll (first :: rest) = some values ↔
      ∃ value rest', reading.eval first = some value ∧ reading.evalAll rest = some rest' ∧ values = value :: rest' := by
  rw [evalAll_cons, Option.bind_eq_some_iff]
  constructor
  · rintro ⟨value, known, mapped⟩
    obtain ⟨rest', known', rfl⟩ := Option.map_eq_some_iff.mp mapped
    exact ⟨value, rest', known, known', rfl⟩
  · rintro ⟨value, rest', known, known', rfl⟩
    exact ⟨value, known, by rw [known', Option.map_some]⟩

theorem forall_values {good : K → Prop} (known : reading.evalAll exprs = some values)
    (each : ∀ expr ∈ exprs, ∀ v, reading.eval expr = some v → good v) : ∀ v ∈ values, good v := by
  induction exprs generalizing values with
  | nil =>
    rw [evalAll_nil] at known
    cases known
    exact fun v inside => absurd inside List.not_mem_nil
  | cons first rest ih =>
    obtain ⟨value, rest', here, later, rfl⟩ := evalAll_cons_some.mp known
    intro v inside
    rcases List.mem_cons.mp inside with rfl | inner
    · exact each first List.mem_cons_self v here
    · exact ih later (fun expr inside => each expr (List.mem_cons_of_mem _ inside)) v inner

theorem evalAll_perm {first second : List Expr} (perm : first.Perm second) (known : reading.evalAll first = some values) :
    ∃ values', reading.evalAll second = some values' ∧ values.Perm values' := by
  induction perm generalizing values with
  | nil => exact ⟨values, known, .refl _⟩
  | cons expr _ ih =>
    obtain ⟨value, rest, here, later, rfl⟩ := evalAll_cons_some.mp known
    obtain ⟨values', known', perm'⟩ := ih later
    exact ⟨_, evalAll_cons_some.mpr ⟨value, values', here, known', rfl⟩, perm'.cons value⟩
  | swap x y rest =>
    obtain ⟨value, rest', here, later, rfl⟩ := evalAll_cons_some.mp known
    obtain ⟨value', rest'', here', later', rfl⟩ := evalAll_cons_some.mp later
    refine ⟨_, evalAll_cons_some.mpr ⟨value', _, here', evalAll_cons_some.mpr ⟨value, _, here, later', rfl⟩, rfl⟩, ?_⟩
    exact List.Perm.swap _ _ _
  | trans _ _ ih ih' =>
    obtain ⟨values', known', perm'⟩ := ih known
    obtain ⟨values'', known'', perm''⟩ := ih' known'
    exact ⟨values'', known'', perm'.trans perm''⟩

theorem eval_pow_some {base exponent : Expr} (known : reading.eval (.node .pow [base, exponent]) = some p) :
    ∃ u q, reading.eval base = some u ∧ exponent = exactNode q ∧ reading.raise u q = some p := by
  unfold eval at known
  split at known
  · rename_i shape
    cases shape
  · rename_i shape
    cases shape
  · rename_i shape
    cases shape
  · rename_i shape
    cases shape
  · rename_i inner q shape
    cases shape
    obtain ⟨u, worth, raised⟩ := Option.bind_eq_some_iff.mp known
    exact ⟨u, q, worth, rfl, raised⟩
  · cases known

theorem raise_int {k : Int} (raised : reading.raise u k = some p) : p = u ^ k := by
  unfold Branch.raise raiseBy at raised
  rw [if_pos (Rat.den_intCast k), Rat.num_intCast] at raised
  split at raised
  · cases raised
  · exact (Option.some.inj raised).symm

theorem raise_of_int {k : Int} (defined : u ≠ 0 ∨ 0 < k) : reading.raise u k = some (u ^ k) := by
  unfold Branch.raise raiseBy
  rw [if_pos (Rat.den_intCast k), Rat.num_intCast, if_neg]
  intro undefined
  rcases defined with nonzero | positive
  · exact nonzero undefined.1
  · exact not_lt.mpr undefined.2 positive

theorem defined_of_raise {k : Int} (raised : reading.raise u k = some p) : u ≠ 0 ∨ 0 < k := by
  unfold Branch.raise raiseBy at raised
  rw [if_pos (Rat.den_intCast k), Rat.num_intCast] at raised
  split at raised
  · cases raised
  · rename_i defined
    by_cases zero : u = 0
    · exact .inr (not_le.mp fun negative => defined ⟨zero, negative⟩)
    · exact .inl zero

theorem raise_zero_base (raised : reading.raise 0 q = some p) : q.den = 1 ∧ 0 < q.num ∧ p = 0 := by
  unfold Branch.raise raiseBy at raised
  split at raised
  · rename_i whole
    split at raised
    · cases raised
    · rename_i defined
      have positive : 0 < q.num := by
        by_contra negative
        exact defined ⟨rfl, not_lt.mp negative⟩
      rw [← Option.some.inj raised]
      exact ⟨whole, positive, zero_zpow _ positive.ne'⟩
  · rw [reading.root_zero] at raised
    cases raised

theorem raise_one_base (raised : reading.raise 1 q = some p) : p = 1 := by
  unfold Branch.raise raiseBy at raised
  split at raised
  · split at raised
    · cases raised
    · rw [← Option.some.inj raised, one_zpow]
  · exact reading.root_one raised

theorem raise_zero_exponent (nonzero : u ≠ 0) : reading.raise u 0 = some 1 := by
  have power := reading.raise_of_int (k := 0) (.inl nonzero)
  rwa [Int.cast_zero, zpow_zero] at power

theorem raise_one_exponent (u : K) : reading.raise u 1 = some u := by
  have power := reading.raise_of_int (u := u) (k := 1) (.inr one_pos)
  rwa [Int.cast_one, zpow_one] at power

theorem raise_mul_nat (raised : reading.raise u a = some v) (n : Nat) :
    reading.raise u (a * (n + 1 : Nat)) = some (v ^ (n + 1)) := by
  induction n with
  | zero => simpa using raised
  | succ n ih =>
    have step := reading.raise_add ih raised
    rw [pow_succ]
    rwa [show a * ((n + 1 + 1 : Nat) : ℚ) = a * ((n + 1 : Nat) : ℚ) + a by push_cast; ring]

theorem raise_mul {k : Int} (inner : reading.raise u a = some v) (outer : reading.raise v k = some p) :
    reading.raise u (a * k) = some p := by
  have defined := defined_of_raise outer
  obtain rfl := raise_int outer
  rcases lt_trichotomy k 0 with negative | rfl | positive
  · have nonzero : v ≠ 0 := defined.resolve_right negative.not_gt
    obtain ⟨n, rfl⟩ : ∃ n : Nat, k = -(n + 1 : Nat) := ⟨(-k - 1).toNat, by omega⟩
    have base : u ≠ 0 := by
      rintro rfl
      exact nonzero (raise_zero_base inner).2.2
    have power := reading.raise_neg base (reading.raise_mul_nat inner n)
    rw [zpow_neg, zpow_natCast]
    rwa [show a * ((-(n + 1 : Nat) : Int) : ℚ) = -(a * ((n + 1 : Nat) : ℚ)) by push_cast; ring]
  · have nonzero : v ≠ 0 := defined.resolve_right (lt_irrefl 0)
    have base : u ≠ 0 := by
      rintro rfl
      exact nonzero (raise_zero_base inner).2.2
    rw [Int.cast_zero, mul_zero, zpow_zero]
    exact raise_zero_exponent base
  · obtain ⟨n, rfl⟩ : ∃ n : Nat, k = (n + 1 : Nat) := ⟨(k - 1).toNat, by omega⟩
    have power := reading.raise_mul_nat inner n
    rw [zpow_natCast]
    exact_mod_cast power

def Foldable (label : Label) : Prop := label = .add ∨ label = .mul

theorem eval_foldable {label : Label} (foldable : Foldable label) (children : List Expr) :
    reading.eval (.node label children) = (reading.evalAll children).map (combine label) := by
  rcases foldable with rfl | rfl
  · exact eval_add children
  · exact eval_mul children

/-- What has a value: a number, a symbol, a sum or a product, or a power with a rational exponent. -/
theorem eval_some {label : Label} {children : List Expr} (known : reading.eval (.node label children) = some p) :
    (∃ q, label = .exact q ∧ children = [] ∧ p = q) ∨
    (∃ name, label = .symbol name ∧ children = [] ∧ reading.symbol name = some p) ∨
    (Foldable label ∧ ∃ values, reading.evalAll children = some values ∧ p = combine label values) ∨
    (∃ base q u, label = .pow ∧ children = [base, exactNode q] ∧ reading.eval base = some u ∧ reading.raise u q = some p) := by
  unfold eval at known
  split at known
  · rename_i q shape
    cases shape
    exact .inl ⟨q, rfl, rfl, (Option.some.inj known).symm⟩
  · rename_i name shape
    cases shape
    exact .inr (.inl ⟨name, rfl, rfl, known⟩)
  · rename_i terms shape
    cases shape
    obtain ⟨values, operands, rfl⟩ := Option.map_eq_some_iff.mp known
    exact .inr (.inr (.inl ⟨.inl rfl, values, operands, (combine_add values).symm⟩))
  · rename_i factors shape
    cases shape
    obtain ⟨values, operands, rfl⟩ := Option.map_eq_some_iff.mp known
    exact .inr (.inr (.inl ⟨.inr rfl, values, operands, (combine_mul values).symm⟩))
  · rename_i base q shape
    cases shape
    obtain ⟨u, worth, raised⟩ := Option.bind_eq_some_iff.mp known
    exact .inr (.inr (.inr ⟨base, q, u, rfl, rfl, worth, raised⟩))
  · cases known

theorem eval_cons {label : Label} (foldable : Foldable label) {first : Expr} :
    reading.eval (.node label (first :: exprs)) = some p ↔
      ∃ u v, reading.eval first = some u ∧ reading.eval (.node label exprs) = some v ∧ p = combine label [u, v] := by
  rw [eval_foldable foldable, eval_foldable foldable]
  constructor
  · intro known
    obtain ⟨values, operands, rfl⟩ := Option.map_eq_some_iff.mp known
    obtain ⟨u, rest, here, later, rfl⟩ := evalAll_cons_some.mp operands
    exact ⟨u, _, here, Option.map_eq_some_iff.mpr ⟨rest, later, rfl⟩, combine_cons label u rest⟩
  · intro parts
    obtain ⟨u, v, here, whole, rfl⟩ := parts
    obtain ⟨rest, later, rfl⟩ := Option.map_eq_some_iff.mp whole
    exact Option.map_eq_some_iff.mpr ⟨_, evalAll_cons_some.mpr ⟨u, rest, here, later, rfl⟩, combine_cons label u rest⟩

theorem eval_nil {label : Label} (foldable : Foldable label) : reading.eval (.node label []) = some (combine label []) := by
  rw [eval_foldable foldable, evalAll_nil, Option.map_some]

theorem eval_single {label : Label} (foldable : Foldable label) (expr : Expr) :
    reading.eval (.node label [expr]) = reading.eval expr := by
  rw [eval_foldable foldable, evalAll_cons, evalAll_nil]
  cases reading.eval expr with
  | none => rfl
  | some value => rw [Option.bind_some, Option.map_some, Option.map_some, combine_singleton]

abbrev Keeps (reading : Reading K) (expr result : Expr) : Prop := reading.Carries reading expr result

variable {label : Label} {first second third : Expr} {exprs' : List Expr}

theorem Keeps.refl (expr : Expr) : reading.Keeps expr expr := fun _ known => known

theorem Keeps.trans (one : reading.Keeps first second) (two : reading.Keeps second third) : reading.Keeps first third :=
  fun p known => two p (one p known)

theorem Keeps.of_none (absent : reading.eval first = none) : reading.Keeps first second := fun p known => by
  rw [absent] at known
  cases known

theorem keeps_perm (foldable : Foldable label) (perm : exprs.Perm exprs') :
    reading.Keeps (.node label exprs) (.node label exprs') := by
  intro p known
  rw [eval_foldable foldable] at known ⊢
  obtain ⟨values, operands, rfl⟩ := Option.map_eq_some_iff.mp known
  obtain ⟨values', operands', moved⟩ := evalAll_perm perm operands
  rw [operands', Option.map_some, combine_perm label moved]

theorem keeps_tail (foldable : Foldable label) (rest : reading.Keeps (.node label exprs) (.node label exprs')) :
    reading.Keeps (.node label (first :: exprs)) (.node label (first :: exprs')) := by
  intro p known
  obtain ⟨u, v, here, later, same⟩ := (eval_cons foldable).mp known
  exact (eval_cons foldable).mpr ⟨u, v, here, rest v later, same⟩

theorem keeps_head (foldable : Foldable label) (head : reading.Keeps first second) :
    reading.Keeps (.node label (first :: exprs)) (.node label (second :: exprs)) := by
  intro p known
  obtain ⟨u, v, here, later, same⟩ := (eval_cons foldable).mp known
  exact (eval_cons foldable).mpr ⟨u, v, head u here, later, same⟩

theorem keeps_join (foldable : Foldable label) (join : reading.Keeps (.node label [first, second]) third) :
    reading.Keeps (.node label (first :: second :: exprs)) (.node label (third :: exprs)) := by
  intro p known
  obtain ⟨u, w, here, later, rfl⟩ := (eval_cons foldable).mp known
  obtain ⟨v, rest, there, last, rfl⟩ := (eval_cons foldable).mp later
  have pair : reading.eval (.node label [first, second]) = some (combine label [u, v]) := by
    rw [eval_foldable foldable, evalAll_cons, evalAll_cons, evalAll_nil, here, there]
    rfl
  refine (eval_cons foldable).mpr ⟨_, rest, join _ pair, last, ?_⟩
  rw [← combine_cons, ← combine_cons_cons, combine_cons label u]

theorem eval_append (foldable : Foldable label) : reading.eval (.node label (exprs ++ exprs')) = some p ↔
    ∃ u v, reading.eval (.node label exprs) = some u ∧ reading.eval (.node label exprs') = some v ∧
      p = combine label [u, v] := by
  induction exprs generalizing p with
  | nil =>
    have neutral (v : K) : combine label [combine label [], v] = v := by
      rw [← combine_singleton label v, ← combine_append, List.nil_append]
    rw [List.nil_append, eval_nil foldable]
    constructor
    · intro known
      exact ⟨_, p, rfl, known, (neutral p).symm⟩
    · intro parts
      obtain ⟨u, v, empty, known, rfl⟩ := parts
      cases empty
      rw [known, neutral]
  | cons first rest ih =>
    have assoc (a b c : K) : combine label [a, combine label [b, c]] = combine label [combine label [a, b], c] := by
      rw [← combine_cons_cons, ← combine_cons]
    rw [List.cons_append, eval_cons foldable]
    constructor
    · intro parts
      obtain ⟨a, w, here, later, rfl⟩ := parts
      obtain ⟨b, c, middle, last, rfl⟩ := ih.mp later
      exact ⟨_, c, (eval_cons foldable).mpr ⟨a, b, here, middle, rfl⟩, last, assoc a b c⟩
    · intro parts
      obtain ⟨u, c, front, last, rfl⟩ := parts
      obtain ⟨a, b, here, middle, rfl⟩ := (eval_cons foldable).mp front
      exact ⟨a, _, here, ih.mpr ⟨b, c, middle, last, rfl⟩, (assoc a b c).symm⟩

theorem keeps_flat (foldable : Foldable label) (exprs : List Expr) :
    reading.Keeps (.node label exprs) (.node label (exprs.flatMap (contribution label))) := by
  induction exprs with
  | nil => exact .refl _
  | cons first rest ih =>
    intro p known
    obtain ⟨u, v, here, later, same⟩ := (eval_cons foldable).mp known
    rw [List.flatMap_cons, eval_append foldable]
    refine ⟨u, v, ?_, ih v later, same⟩
    unfold contribution
    split
    · rename_i absorbed
      obtain ⟨other, children⟩ := first
      change other = label at absorbed
      rwa [absorbed] at here
    · rwa [eval_single foldable]

theorem keeps_pack (foldable : Foldable label) (exprs : List Expr) : reading.Keeps (.node label exprs) (pack label exprs) := by
  unfold pack
  split
  · intro p known
    rwa [eval_single foldable] at known
  · exact .refl _

theorem keeps_nary (foldable : Foldable label) (exprs : List Expr) :
    reading.Keeps (.node label exprs) (nary label exprs) := by
  have perm : (exprs.flatMap (contribution label)).Perm (arrange label (exprs.flatMap (contribution label))) := by
    unfold arrange
    split
    · exact (sortExprs_perm _).symm
    · exact .refl _
  exact (keeps_flat foldable exprs).trans ((keeps_perm foldable perm).trans (keeps_pack foldable _))

end Reading

end PhyNspire.Cas.Core

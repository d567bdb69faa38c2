import PhyNspire.Cas.PolyContainers

/-!
Reading an expression into a container and writing it back. What is read denotes the
expression's polynomial; what is written is read as the same container unless the imaginary
unit is among the variables and occurs with a higher power, which the node constructors fold
into a number.
-/

namespace PhyNspire.Cas.SparsePoly
open Platform Lib.Stateful Ir.Expressions PhyNspire.Exact MvPolynomial

section
variable {State : Type} {engine : Engine State} (exact : engine.Exact)

include exact

mutual
theorem contained_polyFromIrNode (symbols : List Name) (expression : Expr) (s : State) :
    wp (polyFromIrNode engine symbols expression) (fun result _ => Contained symbols.length result) (fun _ _ => True) s := by
  have zeros : ∀ power ∈ zeroExponent symbols.length, power ≤ sparseMaxDegree := by
    intro power inside
    rw [(List.mem_replicate.mp inside).2]
    exact Nat.zero_le _
  unfold polyFromIrNode
  split
  · exact contained_insertTerm exact length_zeroExponent zeros .nil
  · split
    · exact trivial
    · rename_i position _
      apply contained_insertTerm exact (by rw [List.length_set, length_zeroExponent]) _ .nil
      intro power inside
      rcases List.mem_or_eq_of_mem_set inside with old | rfl
      · exact zeros power old
      · decide
  · rename_i base exponent
    split
    · exact trivial
    · apply wp_ite
      · exact fun _ => trivial
      intro _
      apply wp_ite
      · exact fun _ => trivial
      intro _
      apply wp_then (contained_polyFromIrNode symbols base s)
      exact fun result t known => contained_polyPower exact _ known
  · rename_i children
    exact contained_sumFromIr symbols children [] .nil s
  · rename_i children
    apply wp_then (contained_one exact)
    exact fun one t first => contained_productFromIr symbols children one first t
  · exact trivial

theorem contained_sumFromIr (symbols : List Name) (children : List Expr) (accumulated : Poly)
    (contained : Contained symbols.length accumulated) (s : State) :
    wp (sumFromIr engine symbols children accumulated) (fun result _ => Contained symbols.length result) (fun _ _ => True) s := by
  cases children with
  | nil =>
    unfold sumFromIr
    exact contained
  | cons child rest =>
    unfold sumFromIr
    apply wp_then (contained_polyFromIrNode symbols child s)
    intro operand t read
    apply wp_then (contained_polyAdd exact contained read)
    exact fun sum t added => contained_sumFromIr symbols rest sum added t

theorem contained_productFromIr (symbols : List Name) (children : List Expr) (accumulated : Poly)
    (contained : Contained symbols.length accumulated) (s : State) :
    wp (productFromIr engine symbols children accumulated) (fun result _ => Contained symbols.length result)
      (fun _ _ => True) s := by
  cases children with
  | nil =>
    unfold productFromIr
    exact contained
  | cons child rest =>
    unfold productFromIr
    apply wp_then (contained_polyFromIrNode symbols child s)
    intro operand t read
    apply wp_then (contained_polyMultiply exact contained read)
    exact fun product t multiplied => contained_productFromIr symbols rest product multiplied t
end

theorem holds_polyFromIrNode (symbols : List Name) (expression : Expr) (s : State) :
    wp (polyFromIrNode engine symbols expression) (fun result _ => ∃ p, denote symbols expression = some p ∧
      Holds symbols.length p result) (fun _ _ => True) s := by
  apply wp_mono (wp_and (wp_polyFromIrNode exact symbols expression s) (contained_polyFromIrNode exact symbols expression s)) _
    (fun _ _ _ => trivial)
  rintro result t ⟨⟨p, known, represents⟩, contained⟩
  exact ⟨p, known, contained, represents.2⟩

end

mutual
def unitDegree : Expr → Nat
  | .node (.symbol name) _ => if name = imaginaryUnit then 1 else 0
  | .node .pow [base, .node (.exact q) _] => q.num.toNat * unitDegree base
  | .node .add children => (unitDegrees children).foldr max 0
  | .node .mul children => (unitDegrees children).sum
  | _ => 0

def unitDegrees : List Expr → List Nat
  | [] => []
  | first :: rest => unitDegree first :: unitDegrees rest
end

/-- The powers of the imaginary unit in `phy_cas_pow_node`. -/
def foldedPower (k : Nat) : Expr :=
  if k % 4 = 0 then .node (.exact 1) []
  else if k % 4 = 1 then symbolNode imaginaryUnit
  else if k % 4 = 2 then .node (.exact (-1)) []
  else .node .mul [.node (.exact (-1)) [], symbolNode imaginaryUnit]

/-- The node constructors fold the powers of the imaginary unit, and keep values in which it is
not multiplied by itself. -/
structure Engine.Folds {State : Type} (engine : Engine State) : Prop where
  unit : ∀ k : Nat, Yields (engine.powNode (symbolNode imaginaryUnit) (.node (.exact k) [])) (foldedPower k)
  pow : ∀ symbols name p (k : Nat) s, name ≠ imaginaryUnit → denote symbols (symbolNode name) = some p →
    wp (engine.powNode (symbolNode name) (.node (.exact k) []))
      (fun result _ => denote symbols result = some (p ^ k) ∧ unitDegree result = 0) (fun _ _ => True) s
  mul : ∀ symbols factors ps s, (unitDegrees factors).sum ≤ 1 → denoteAll symbols factors = some ps →
    wp (engine.mulNode factors) (fun result _ => denote symbols result = some ps.prod ∧ unitDegree result ≤ 1)
      (fun _ _ => True) s
  add : ∀ symbols terms ps s, (∀ degree ∈ unitDegrees terms, degree ≤ 1) → denoteAll symbols terms = some ps →
    wp (engine.addNode terms) (fun result _ => denote symbols result = some ps.sum) (fun _ _ => True) s

/-- Writing a container and reading what was written. -/
def roundTrip {State : Type} (engine : Engine State) (symbols : List Name) (poly : Poly) : EStateM Status State Poly := do
  let expression ← polyToIr engine symbols poly
  polyFromIrNode engine symbols expression

variable {symbols : List Name}

noncomputable def symbolValue (symbols : List Name) (name : Name) : MvPolynomial (Fin symbols.length) ℚ :=
  if known : symbols.idxOf name < symbols.length then X ⟨symbols.idxOf name, known⟩ else 0

noncomputable def writtenPower (symbols : List Name) (name : Name) (power : Nat) : MvPolynomial (Fin symbols.length) ℚ :=
  if name = imaginaryUnit then
    if power % 4 = 0 then 1
    else if power % 4 = 1 then symbolValue symbols name
    else if power % 4 = 2 then C (-1)
    else C (-1) * symbolValue symbols name
  else symbolValue symbols name ^ power

noncomputable def writtenPowers (symbols : List Name) : List Name → List Nat → MvPolynomial (Fin symbols.length) ℚ
  | name :: names, power :: powers => writtenPower symbols name power * writtenPowers symbols names powers
  | _, _ => 1

noncomputable def written (symbols : List Name) (poly : Poly) : MvPolynomial (Fin symbols.length) ℚ :=
  (poly.map fun term => C term.coefficient * writtenPowers symbols symbols term.exponent).sum

theorem symbolValue_eq {name : Name} (known : symbols.idxOf name < symbols.length) :
    symbolValue symbols name = X ⟨symbols.idxOf name, known⟩ := dif_pos known

theorem denote_symbolNode {name : Name} (known : symbols.idxOf name < symbols.length) :
    denote symbols (symbolNode name) = some (symbolValue symbols name) := by
  rw [symbolNode, denote_symbol known, symbolValue_eq known]

theorem denote_foldedPower (known : symbols.idxOf imaginaryUnit < symbols.length) (k : Nat) :
    denote symbols (foldedPower k) = some (writtenPower symbols imaginaryUnit k) ∧ unitDegree (foldedPower k) ≤ 1 := by
  have unit := denote_symbolNode known
  unfold foldedPower writtenPower
  rw [if_pos rfl]
  split
  · exact ⟨by rw [denote_exact, C_1], Nat.zero_le _⟩
  split
  · exact ⟨unit, le_of_eq (by rw [symbolNode, unitDegree, if_pos rfl])⟩
  split
  · exact ⟨denote_exact _ _, Nat.zero_le _⟩
  · constructor
    · rw [denote, denoteAll_cons (denote_exact (-1) []) (denoteAll_cons unit denoteAll_nil)]
      simp
    · rw [unitDegree, unitDegrees, unitDegrees, unitDegrees, symbolNode, unitDegree, if_pos rfl]
      exact le_of_eq rfl

theorem unitDegrees_append (first second : List Expr) : unitDegrees (first ++ second) = unitDegrees first ++ unitDegrees second := by
  induction first with
  | nil => rfl
  | cons head rest ih => rw [List.cons_append, unitDegrees, ih, unitDegrees, List.cons_append]

theorem writtenPower_zero (name : Name) : writtenPower symbols name 0 = 1 := by
  unfold writtenPower
  split
  · rfl
  · exact pow_zero _

theorem writtenPower_one (name : Name) : writtenPower symbols name 1 = symbolValue symbols name := by
  unfold writtenPower
  split
  · rfl
  · exact pow_one _

section
variable {State : Type} {engine : Engine State} (folds : engine.Folds) {s : State}

include folds

theorem wp_powerFactor_folds {name : Name} (known : symbols.idxOf name < symbols.length) (power : Nat) :
    wp (powerFactor engine name power) (fun result _ => denote symbols result = some (writtenPower symbols name power) ∧
      unitDegree result ≤ if name = imaginaryUnit then 1 else 0) (fun _ _ => True) s := by
  unfold powerFactor
  apply wp_ite
  · intro _
    by_cases unit : name = imaginaryUnit
    · subst unit
      rw [if_pos rfl]
      apply (folds.unit power).use
      exact fun _ => denote_foldedPower known power
    · apply wp_good (folds.pow symbols name _ power s unit (denote_symbolNode known))
      rintro result t ⟨value, none⟩
      rw [none]
      refine ⟨?_, Nat.zero_le _⟩
      rw [value, writtenPower, if_neg unit]
  · intro once
    rw [not_not.mp once, writtenPower_one]
    refine ⟨denote_symbolNode known, ?_⟩
    rw [unitDegree]

theorem wp_termFactors_folds (distinct : symbols.Nodup) {names : List Name} {k : Nat} (rest : symbols.drop k = names)
    (powers : List Nat) : wp (termFactors engine names powers)
      (fun result _ => ∃ ps, denoteAll symbols result = some ps ∧ ps.prod = writtenPowers symbols names powers ∧
        (unitDegrees result).sum ≤ if imaginaryUnit ∈ names then 1 else 0) (fun _ _ => True) s := by
  induction names generalizing k powers s with
  | nil =>
    unfold termFactors
    exact ⟨[], denoteAll_nil, rfl, Nat.zero_le _⟩
  | cons name names ih =>
    cases powers with
    | nil =>
      unfold termFactors
      exact ⟨[], denoteAll_nil, rfl, Nat.zero_le _⟩
    | cons power powers =>
      have inside : k < symbols.length := by
        by_contra outside
        rw [List.drop_eq_nil_of_le (not_lt.mp outside)] at rest
        cases rest
      have apart : (name :: names).Nodup := rest ▸ distinct.sublist (List.drop_sublist k symbols)
      rw [List.drop_eq_getElem_cons inside] at rest
      obtain ⟨rfl, later⟩ := List.cons.inj rest
      have known : symbols.idxOf symbols[k] < symbols.length := by rwa [distinct.idxOf_getElem k inside]
      have later := fun t => ih later powers (s := t)
      unfold termFactors
      apply wp_ite
      · rintro rfl
        apply wp_good (later s)
        rintro factors t ⟨ps, value, product, degree⟩
        refine ⟨ps, value, by rw [product, writtenPowers, writtenPower_zero, one_mul], degree.trans ?_⟩
        split
        · rename_i member
          rw [if_pos (List.mem_cons_of_mem _ member)]
        · exact Nat.zero_le _
      intro _
      apply wp_then (wp_powerFactor_folds folds known power)
      rintro factor t ⟨first, single⟩
      apply wp_then (later t)
      rintro factors u ⟨ps, value, product, degree⟩
      refine ⟨_, denoteAll_cons first value, by rw [List.prod_cons, product, writtenPowers], ?_⟩
      rw [unitDegrees, List.sum_cons]
      by_cases unit : symbols[k] = imaginaryUnit
      · have absent : imaginaryUnit ∉ names := unit ▸ (List.nodup_cons.mp apart).1
        rw [if_pos unit] at single
        rw [if_neg absent] at degree
        rw [if_pos (unit ▸ List.mem_cons_self)]
        omega
      · rw [if_neg unit] at single
        have same : imaginaryUnit ∈ symbols[k] :: names ↔ imaginaryUnit ∈ names := by
          rw [List.mem_cons]
          exact or_iff_right fun equal => unit equal.symm
        simp only [same]
        omega

theorem wp_termToIr_folds (distinct : symbols.Nodup) (term : Term) : wp (termToIr engine symbols term)
    (fun result _ => denote symbols result = some (C term.coefficient * writtenPowers symbols symbols term.exponent) ∧
      unitDegree result ≤ 1) (fun _ _ => True) s := by
  unfold termToIr
  apply wp_then (wp_termFactors_folds folds distinct (k := 0) List.drop_zero term.exponent)
  rintro factors t ⟨ps, known, value, degree⟩
  have single : (unitDegrees factors).sum ≤ 1 := degree.trans (by split <;> omega)
  apply wp_ite
  · intro _
    have scaled := folds.mul symbols (factors ++ [.node (.exact term.coefficient) []]) _ t
      (by rw [unitDegrees_append, List.sum_append]; exact single)
      (denoteAll_append known (denoteAll_cons (denote_exact term.coefficient []) denoteAll_nil))
    apply wp_good scaled
    rintro result u ⟨multiplied, low⟩
    refine ⟨?_, low⟩
    rw [multiplied, List.prod_append, value, List.prod_singleton, mul_comm]
  · intro plain
    apply wp_good (folds.mul symbols _ _ t single known)
    rintro result u ⟨multiplied, low⟩
    have one : term.coefficient = 1 := not_not.mp fun other => plain (.inr other)
    refine ⟨?_, low⟩
    rw [multiplied, value, one, C_1, one_mul]

theorem wp_expressions_folds (distinct : symbols.Nodup) (poly : Poly) : wp (polyToIr.expressions engine symbols poly)
    (fun result _ => denoteAll symbols result =
        some (poly.map fun term => C term.coefficient * writtenPowers symbols symbols term.exponent) ∧
      ∀ degree ∈ unitDegrees result, degree ≤ 1) (fun _ _ => True) s := by
  induction poly generalizing s with
  | nil => exact ⟨denoteAll_nil, fun degree inside => (List.not_mem_nil inside).elim⟩
  | cons first rest ih =>
    unfold polyToIr.expressions
    apply wp_then (wp_termToIr_folds folds distinct first)
    rintro expression t ⟨known, low⟩
    apply wp_then ih
    rintro result u ⟨known', low'⟩
    refine ⟨denoteAll_cons known known', fun degree inside => ?_⟩
    rw [unitDegrees] at inside
    rcases List.mem_cons.mp inside with rfl | later
    · exact low
    · exact low' degree later

theorem wp_polyToIr_folds (distinct : symbols.Nodup) (poly : Poly) :
    wp (polyToIr engine symbols poly) (fun result _ => denote symbols result = some (written symbols poly)) (fun _ _ => True) s := by
  unfold polyToIr
  apply wp_then (wp_expressions_folds folds distinct poly)
  rintro terms t ⟨known, low⟩
  exact folds.add symbols terms _ t low known

theorem wp_roundTrip (exact : engine.Exact) (distinct : symbols.Nodup) (poly : Poly) : wp (roundTrip engine symbols poly)
    (fun again _ => Holds symbols.length (written symbols poly) again) (fun _ _ => True) s := by
  unfold roundTrip
  apply wp_then (wp_polyToIr_folds folds distinct poly)
  intro expression t known
  apply wp_good (holds_polyFromIrNode exact symbols expression t)
  rintro again u ⟨p, denoted, holds⟩
  obtain rfl := Option.some.inj (known.symm.trans denoted)
  exact holds

end

/-- A variable that is the imaginary unit occurs at most once in each term. -/
def SingleUnit (symbols : List Name) (p : MvPolynomial (Fin symbols.length) ℚ) : Prop :=
  ∀ i : Fin symbols.length, symbols[i] = imaginaryUnit → degreeOf i p ≤ 1

theorem writtenPower_of_single {name : Name} {power : Nat} (single : name = imaginaryUnit → power ≤ 1) :
    writtenPower symbols name power = symbolValue symbols name ^ power := by
  by_cases unit : name = imaginaryUnit
  · rcases Nat.le_one_iff_eq_zero_or_eq_one.mp (single unit) with rfl | rfl
    · rw [writtenPower_zero, pow_zero]
    · rw [writtenPower_one, pow_one]
  · rw [writtenPower, if_neg unit]

theorem writtenPowers_of_single (distinct : symbols.Nodup) {names : List Name} {k : Nat} (rest : symbols.drop k = names)
    (powers : List Nat) (sized : powers.length = names.length)
    (single : ∀ i (inside : i < names.length), names[i] = imaginaryUnit → powers.getD i 0 ≤ 1) :
    writtenPowers symbols names powers = monomial (toExponent symbols.length (List.replicate k 0 ++ powers)) 1 := by
  induction names generalizing k powers with
  | nil =>
    have none : powers = [] := List.length_eq_zero_iff.mp sized
    have zero : toExponent symbols.length (List.replicate k 0 ++ powers) = 0 := by
      ext i
      rw [none, List.append_nil, toExponent_apply, List.getD_eq_getElem?_getD, List.getElem?_replicate]
      split <;> rfl
    rw [zero]
    rfl
  | cons name names ih =>
    cases powers with
    | nil => cases sized
    | cons power powers =>
      have inside : k < symbols.length := by
        by_contra outside
        rw [List.drop_eq_nil_of_le (not_lt.mp outside)] at rest
        cases rest
      rw [List.drop_eq_getElem_cons inside] at rest
      obtain ⟨rfl, later⟩ := List.cons.inj rest
      have place : symbols.idxOf symbols[k] = k := distinct.idxOf_getElem k inside
      have value : symbolValue symbols symbols[k] = X ⟨k, inside⟩ := by
        rw [symbolValue_eq (place.symm ▸ inside)]
        simp only [place]
      have first : writtenPower symbols symbols[k] power = symbolValue symbols symbols[k] ^ power :=
        writtenPower_of_single fun unit => single 0 (Nat.succ_pos _) unit
      rw [toExponent_from inside, writtenPowers, first, value,
        ih later powers (Nat.succ.inj sized) fun i below unit => single (i + 1) (Nat.succ_lt_succ below) unit,
        X_pow_eq_monomial, monomial_mul, one_mul]

theorem written_of_single (distinct : symbols.Nodup) {poly : Poly} (sorted : Sorted symbols.length poly)
    (single : SingleUnit symbols (toPolynomial symbols.length poly)) : written symbols poly = toPolynomial symbols.length poly := by
  have terms : ∀ term ∈ poly,
      C term.coefficient * writtenPowers symbols symbols term.exponent = toMonomial symbols.length term := by
    intro term inside
    have powers := writtenPowers_of_single distinct (k := 0) List.drop_zero term.exponent (sorted.sized term inside) fun i below unit => by
      have support : toExponent symbols.length term.exponent ∈ (toPolynomial symbols.length poly).support := by
        rw [mem_support_iff, coeff_of_mem sorted inside]
        exact sorted.nonzero term inside
      exact degreeOf_le_iff.mp (single ⟨i, below⟩ unit) _ support
    rw [powers, C_mul_monomial, mul_one]
    rfl
  rw [written, toPolynomial, List.map_congr_left terms]

theorem degreeOf_writtenPower (distinct : symbols.Nodup) {i : Fin symbols.length} (unit : symbols[i] = imaginaryUnit) {k : Nat}
    (inside : k < symbols.length) (power : Nat) :
    degreeOf i (writtenPower symbols symbols[k] power) ≤ if symbols[k] = imaginaryUnit then 1 else 0 := by
  have place : symbols.idxOf symbols[k] = k := distinct.idxOf_getElem k inside
  have value : symbolValue symbols symbols[k] = X ⟨k, inside⟩ := by
    rw [symbolValue_eq (place.symm ▸ inside)]
    simp only [place]
  have once : degreeOf i (symbolValue symbols symbols[k]) ≤ 1 := by
    rw [value, degreeOf_X]
    split <;> omega
  unfold writtenPower
  by_cases here : symbols[k] = imaginaryUnit
  · rw [if_pos here, if_pos here]
    split
    · exact (degreeOf_one i).le.trans (Nat.zero_le _)
    split
    · exact once
    split
    · exact (degreeOf_C _ i).le.trans (Nat.zero_le _)
    · have product := degreeOf_mul_le i (C (-1)) (symbolValue symbols symbols[k])
      rw [degreeOf_C, zero_add] at product
      exact product.trans once
  · rw [if_neg here, if_neg here, value]
    have other : i ≠ ⟨k, inside⟩ := by
      rintro rfl
      exact here unit
    have power := degreeOf_pow_le i (X ⟨k, inside⟩ : MvPolynomial (Fin symbols.length) ℚ) power
    rwa [degreeOf_X_of_ne other, mul_zero] at power

theorem degreeOf_writtenPowers (distinct : symbols.Nodup) {i : Fin symbols.length} (unit : symbols[i] = imaginaryUnit)
    {names : List Name} {k : Nat} (rest : symbols.drop k = names) (powers : List Nat) :
    degreeOf i (writtenPowers symbols names powers) ≤ if imaginaryUnit ∈ names then 1 else 0 := by
  induction names generalizing k powers with
  | nil => exact (degreeOf_one i).le
  | cons name names ih =>
    cases powers with
    | nil => exact (degreeOf_one i).le.trans (Nat.zero_le _)
    | cons power powers =>
      have inside : k < symbols.length := by
        by_contra outside
        rw [List.drop_eq_nil_of_le (not_lt.mp outside)] at rest
        cases rest
      have apart : (name :: names).Nodup := rest ▸ distinct.sublist (List.drop_sublist k symbols)
      rw [List.drop_eq_getElem_cons inside] at rest
      obtain ⟨rfl, later⟩ := List.cons.inj rest
      have first := degreeOf_writtenPower distinct unit inside power
      have second := ih later powers
      have product := degreeOf_mul_le i (writtenPower symbols symbols[k] power) (writtenPowers symbols names powers)
      rw [writtenPowers]
      apply product.trans
      by_cases here : symbols[k] = imaginaryUnit
      · have absent : imaginaryUnit ∉ names := here ▸ (List.nodup_cons.mp apart).1
        rw [if_pos here] at first
        rw [if_neg absent] at second
        rw [if_pos (here ▸ List.mem_cons_self)]
        omega
      · rw [if_neg here] at first
        have same : imaginaryUnit ∈ symbols[k] :: names ↔ imaginaryUnit ∈ names := by
          rw [List.mem_cons]
          exact or_iff_right fun equal => here equal.symm
        simp only [same]
        omega

theorem single_written (distinct : symbols.Nodup) (poly : Poly) : SingleUnit symbols (written symbols poly) := by
  intro i unit
  induction poly with
  | nil => exact (degreeOf_zero i).le.trans (Nat.zero_le _)
  | cons first rest ih =>
    have powers := degreeOf_writtenPowers distinct unit (k := 0) List.drop_zero first.exponent
    have member : imaginaryUnit ∈ symbols := unit ▸ List.getElem_mem i.isLt
    rw [if_pos member] at powers
    have product := degreeOf_mul_le i (C first.coefficient) (writtenPowers symbols symbols first.exponent)
    rw [degreeOf_C, zero_add] at product
    exact (degreeOf_add_le i _ _).trans (max_le (product.trans powers) ih)

theorem written_eq_iff (distinct : symbols.Nodup) {poly : Poly} (sorted : Sorted symbols.length poly) :
    toPolynomial symbols.length poly = written symbols poly ↔ SingleUnit symbols (toPolynomial symbols.length poly) := by
  constructor
  · intro same
    rw [same]
    exact single_written distinct poly
  · exact fun single => (written_of_single distinct sorted single).symm

/-- Containers keep their invariant under every operation, what is read denotes the polynomial of its expression, so that
equal containers stand for equal polynomials, and a container survives being written and read just when the imaginary
unit occurs with no higher power. -/
theorem containers_exact {State : Type} {engine : Engine State} (exact : engine.Exact) (folds : engine.Folds) :
    (∀ n, FillsContainers engine n) ∧ ∀ symbols : List Name, symbols.Nodup → ∀ expression s,
      wp (polyFromIrNode engine symbols expression) (fun poly _ => ∃ p, denote symbols expression = some p ∧
        Holds symbols.length p poly ∧
        (∀ other t, wp (polyFromIrNode engine symbols other) (fun poly' _ => polyEqual poly poly' = true ↔
          denote symbols expression = denote symbols other) (fun _ _ => True) t) ∧
        ∀ t, wp (roundTrip engine symbols poly) (fun again _ => polyEqual poly again = true ↔ SingleUnit symbols p)
          (fun _ _ => True) t) (fun _ _ => True) s := by
  refine ⟨fillsContainers exact, fun symbols distinct expression s => ?_⟩
  apply wp_good (holds_polyFromIrNode exact symbols expression s)
  rintro poly t ⟨p, denoted, holds⟩
  refine ⟨p, denoted, holds, fun other t => ?_, fun t => ?_⟩
  · apply wp_good (holds_polyFromIrNode exact symbols other t)
    rintro poly' u ⟨q, denoted', holds'⟩
    rw [holds.represents.polyEqual_iff holds'.represents, denoted, denoted', Option.some.injEq]
  · apply wp_good (wp_roundTrip folds exact distinct poly)
    intro again u kept
    rw [holds.represents.polyEqual_iff kept.represents, ← holds.2]
    exact written_eq_iff distinct holds.1.sorted

def foldingPow (base exponent : Expr) : Expr :=
  match exponent with
  | .node (.exact q) _ => if base = symbolNode imaginaryUnit then foldedPower q.num.toNat else .node .pow [base, exponent]
  | _ => .node .pow [base, exponent]

def folding : Engine Unit := { plain with powNode := fun base exponent => pure (foldingPow base exponent) }

theorem folding_exact : folding.Exact := ⟨plain_exact.add, plain_exact.sub, plain_exact.mul, plain_exact.div⟩

theorem folding_folds : folding.Folds where
  unit k s := by
    change foldingPow (symbolNode imaginaryUnit) (.node (.exact k) []) = foldedPower k
    rw [foldingPow, if_pos rfl, Rat.num_natCast, Int.toNat_natCast]
  pow symbols name p k s other value := by
    have apart : symbolNode name ≠ symbolNode imaginaryUnit := by
      intro same
      cases same
      exact other rfl
    change denote symbols (foldingPow _ _) = _ ∧ unitDegree (foldingPow _ _) = 0
    rw [foldingPow, if_neg apart]
    constructor
    · rw [denote, if_pos ⟨Rat.den_natCast k, by rw [Rat.num_natCast]; exact Int.natCast_nonneg k⟩, value, Rat.num_natCast]
      rfl
    · rw [unitDegree, symbolNode, unitDegree, if_neg other, mul_zero]
  mul symbols factors ps s low values := by
    have degree : wp (folding.mulNode factors) (fun result _ => unitDegree result ≤ 1) (fun _ _ => True) s := by
      change unitDegree (if _ then _ else _) ≤ 1
      split
      · rename_i single
        obtain ⟨factor, rfl⟩ := List.length_eq_one_iff.mp single
        rw [unitDegrees, unitDegrees, List.sum_singleton] at low
        exact low
      · rw [unitDegree]
        exact low
    exact wp_mono (wp_and (plain_mul values s) degree) (fun _ _ both => both) (fun _ _ _ => trivial)
  add symbols terms ps s _ values := plain_add values s

/-- `I*x + x^2` in `I` and `x` -/
theorem containers_exact_of_linear : (∀ n, FillsContainers folding n) ∧
    ∃ poly, polyFromIrNode folding [imaginaryUnit, [120]]
      (.node .add [.node .mul [symbolNode imaginaryUnit, symbolNode [120]], .node .pow [symbolNode [120], .node (.exact 2) []]]) () =
        .ok poly () ∧ ∃ again, roundTrip folding [imaginaryUnit, [120]] poly () = .ok again () ∧ polyEqual poly again = true ∧
      ∃ p, Holds 2 p poly ∧ (polyEqual poly again = true ↔ SingleUnit [imaginaryUnit, [120]] p) := by
  obtain ⟨fills, reads⟩ := containers_exact folding_exact folding_folds
  refine ⟨fills, ?_⟩
  obtain ⟨poly, t, run, p, -, holds, -, kept⟩ := wp_returns (reads [imaginaryUnit, [120]] (by decide)
    (.node .add [.node .mul [symbolNode imaginaryUnit, symbolNode [120]], .node .pow [symbolNode [120], .node (.exact 2) []]]) ())
    (by decide +kernel)
  have known : valueOf (polyFromIrNode folding [imaginaryUnit, [120]]
      (.node .add [.node .mul [symbolNode imaginaryUnit, symbolNode [120]], .node .pow [symbolNode [120], .node (.exact 2) []]])) () =
        some [⟨1, [1, 1]⟩, ⟨1, [0, 2]⟩] := by decide +kernel
  rw [valueOf, run] at known
  obtain rfl := Option.some.inj known
  obtain ⟨again, u, run', same⟩ := wp_returns (kept ()) (by decide +kernel)
  have known' : valueOf (roundTrip folding [imaginaryUnit, [120]] [⟨1, [1, 1]⟩, ⟨1, [0, 2]⟩]) () =
      some [⟨1, [1, 1]⟩, ⟨1, [0, 2]⟩] := by decide +kernel
  rw [valueOf, run'] at known'
  obtain rfl := Option.some.inj known'
  exact ⟨_, run, _, run', by decide +kernel, p, holds, same⟩

/-- The square of the imaginary unit, read as a polynomial in it, is written as `-1`. -/
theorem containers_imaginary : ∃ poly again, valueOf (polyFromIrNode folding [imaginaryUnit]
      (.node .mul [symbolNode imaginaryUnit, symbolNode imaginaryUnit])) () = some poly ∧
    valueOf (roundTrip folding [imaginaryUnit] poly) () = some again ∧ polyEqual poly again = false :=
  ⟨[⟨1, [2]⟩], [⟨-1, [0]⟩], by decide +kernel, by decide +kernel, by decide +kernel⟩

end PhyNspire.Cas.SparsePoly

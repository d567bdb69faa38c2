import PhyNspire.Cas.SparseArithmetic

/-!
Expressions that are polynomials in given symbols. The reader of sparse_poly.c accepts an
expression only with its value; what it writes has the value of the polynomial, when the node
constructors of the engine keep values.
-/

namespace PhyNspire.Cas.SparsePoly
open Lib.Stateful Ir.Expressions PhyNspire.Exact MvPolynomial

mutual
/-- The polynomial that an expression stands for: numbers, the symbols, sums, products and natural powers. -/
noncomputable def denote (symbols : List Name) : Expr → Option (MvPolynomial (Fin symbols.length) ℚ)
  | .node (.exact q) _ => some (C q)
  | .node (.symbol name) _ => if known : symbols.idxOf name < symbols.length then some (X ⟨symbols.idxOf name, known⟩) else none
  | .node .pow [base, .node (.exact q) _] =>
      if q.den = 1 ∧ 0 ≤ q.num then (denote symbols base).map (· ^ q.num.toNat) else none
  | .node .add children => (denoteAll symbols children).map List.sum
  | .node .mul children => (denoteAll symbols children).map List.prod
  | _ => none

noncomputable def denoteAll (symbols : List Name) : List Expr → Option (List (MvPolynomial (Fin symbols.length) ℚ))
  | [] => some []
  | first :: rest => do
      let value ← denote symbols first
      let values ← denoteAll symbols rest
      pure (value :: values)
end

/-- The name of `constant_i`, which the node constructors compute with. -/
def imaginaryUnit : Name := [73]

/-- The node constructors of the engine keep values; the powers of the imaginary unit are numbers to them. -/
structure Engine.Keeps {State : Type} (engine : Engine State) : Prop where
  pow : ∀ symbols name p (k : Nat) s, imaginaryUnit ∉ symbols → denote symbols (.node (.symbol name) []) = some p →
    wp (engine.powNode (.node (.symbol name) []) (.node (.exact k) [])) (fun result _ => denote symbols result = some (p ^ k))
      (fun _ _ => True) s
  mul : ∀ symbols factors ps s, imaginaryUnit ∉ symbols → denoteAll symbols factors = some ps →
    wp (engine.mulNode factors) (fun result _ => denote symbols result = some ps.prod) (fun _ _ => True) s
  add : ∀ symbols terms ps s, imaginaryUnit ∉ symbols → denoteAll symbols terms = some ps →
    wp (engine.addNode terms) (fun result _ => denote symbols result = some ps.sum) (fun _ _ => True) s
  function : ∀ head children, Yields (engine.functionNode head children) (.node (.function head) children)

variable {symbols : List Name}

@[simp] theorem denoteAll_nil : denoteAll symbols [] = some [] := by
  unfold denoteAll
  rfl

theorem denoteAll_cons {first : Expr} {rest : List Expr} {p : MvPolynomial (Fin symbols.length) ℚ}
    {ps : List (MvPolynomial (Fin symbols.length) ℚ)} (value : denote symbols first = some p)
    (values : denoteAll symbols rest = some ps) : denoteAll symbols (first :: rest) = some (p :: ps) := by
  rw [denoteAll, value, values]
  rfl

theorem denoteAll_append {first second : List Expr} {ps qs : List (MvPolynomial (Fin symbols.length) ℚ)}
    (values : denoteAll symbols first = some ps) (values' : denoteAll symbols second = some qs) :
    denoteAll symbols (first ++ second) = some (ps ++ qs) := by
  induction first generalizing ps with
  | nil =>
    rw [denoteAll_nil] at values
    cases values
    exact values'
  | cons head rest ih =>
    rw [denoteAll] at values
    cases known : denote symbols head with
    | none => rw [known] at values; cases values
    | some p =>
      cases known' : denoteAll symbols rest with
      | none => rw [known, known'] at values; cases values
      | some ps =>
        rw [known, known'] at values
        cases values
        exact denoteAll_cons known (ih known')

@[simp] theorem denote_exact (q : ℚ) (children : List Expr) : denote symbols (.node (.exact q) children) = some (C q) := by
  unfold denote
  rfl

theorem denote_symbol {name : Name} (known : symbols.idxOf name < symbols.length) (children : List Expr) :
    denote symbols (.node (.symbol name) children) = some (X ⟨symbols.idxOf name, known⟩) := by
  unfold denote
  rw [dif_pos known]

section
variable {State : Type} {engine : Engine State} (exact : engine.Exact) {s : State}

theorem variablePosition_eq {name : Name} {position : Nat} (found : variablePosition symbols name = some position) :
    symbols.idxOf name = position ∧ position < symbols.length := by
  unfold variablePosition at found
  have place := List.findIdx?_eq_some_iff_findIdx_eq.mp found
  refine ⟨?_, place.1⟩
  rw [List.idxOf, ← place.2]
  congr 1
  funext other
  exact Bool.beq_eq_decide_eq other name

theorem toExponent_single {n position : Nat} (inside : position < n) :
    toExponent n ((zeroExponent n).set position 1) = Finsupp.single ⟨position, inside⟩ 1 := by
  ext i
  rw [toExponent_apply, Finsupp.single_apply, List.getD_eq_getElem?_getD, List.getElem?_set, zeroExponent,
    List.length_replicate]
  by_cases same : position = i
  · simp [same]
  · have apart : (⟨position, inside⟩ : Fin n) ≠ i := fun equal => same (congrArg Fin.val equal)
    rw [if_neg same, if_neg apart]
    simp

theorem integerValue_eq {exponent : Expr} {k : Int} (value : integerValue exponent = some k) :
    ∃ q children, exponent = .node (.exact q) children ∧ q.den = 1 ∧ q.num = k := by
  unfold integerValue at value
  split at value
  · rename_i q children
    split at value
    · rename_i fits
      exact ⟨q, children, rfl, fits.1, Option.some.inj value⟩
    · cases value
  · cases value

include exact

mutual
theorem wp_polyFromIrNode (symbols : List Name) (expression : Expr) (s : State) :
    wp (polyFromIrNode engine symbols expression) (fun result _ => ∃ p, denote symbols expression = some p ∧
      Represents symbols.length p result) (fun _ _ => True) s := by
  unfold polyFromIrNode
  split
  · rename_i q children
    apply wp_good (wp_insertTerm exact length_zeroExponent .nil)
    rintro result t ⟨-, inserted⟩
    rw [toPolynomial_nil, zero_add, toExponent_zero] at inserted
    exact ⟨C q, denote_exact q children, inserted⟩
  · rename_i name children
    split
    · exact trivial
    · rename_i position found
      obtain ⟨place, inside⟩ := variablePosition_eq found
      apply wp_good (wp_insertTerm exact (by rw [List.length_set, length_zeroExponent]) .nil)
      rintro result t ⟨-, inserted⟩
      rw [toPolynomial_nil, zero_add, toExponent_single inside] at inserted
      refine ⟨X ⟨position, inside⟩, ?_, inserted⟩
      rw [denote_symbol (place ▸ inside)]
      simp only [place]
  · rename_i base exponent
    split
    · exact trivial
    · rename_i k value
      obtain ⟨q, children, rfl, whole, rfl⟩ := integerValue_eq value
      apply wp_ite
      · exact fun _ => trivial
      intro nonneg
      apply wp_ite
      · exact fun _ => trivial
      intro small
      apply wp_then (wp_polyFromIrNode symbols base s)
      rintro result t ⟨p, known, represents⟩
      apply wp_good (wp_polyPower exact represents (by omega))
      intro power t raised
      refine ⟨p ^ q.num.toNat, ?_, raised⟩
      rw [denote, if_pos ⟨whole, not_lt.mp nonneg⟩, known]
      rfl
  · rename_i children
    apply wp_good (wp_sumFromIr symbols children [] 0 represents_nil s)
    rintro result t ⟨ps, known, represents⟩
    rw [zero_add] at represents
    refine ⟨ps.sum, ?_, represents⟩
    rw [denote, known]
    rfl
  · rename_i children
    apply wp_then (wp_one exact)
    intro one t first
    apply wp_good (wp_productFromIr symbols children one 1 first t)
    rintro result t ⟨ps, known, represents⟩
    rw [one_mul] at represents
    refine ⟨ps.prod, ?_, represents⟩
    rw [denote, known]
    rfl
  · exact trivial

theorem wp_sumFromIr (symbols : List Name) (children : List Expr) (accumulated : Poly)
    (value : MvPolynomial (Fin symbols.length) ℚ) (represents : Represents symbols.length value accumulated) (s : State) :
    wp (sumFromIr engine symbols children accumulated) (fun result _ => ∃ ps, denoteAll symbols children = some ps ∧
      Represents symbols.length (value + ps.sum) result) (fun _ _ => True) s := by
  cases children with
  | nil =>
    unfold sumFromIr
    exact ⟨[], denoteAll_nil, by rwa [List.sum_nil, add_zero]⟩
  | cons child rest =>
    unfold sumFromIr
    apply wp_then (wp_polyFromIrNode symbols child s)
    rintro operand t ⟨p, known, read⟩
    apply wp_then (wp_polyAdd exact represents read)
    intro sum t added
    apply wp_good (wp_sumFromIr symbols rest sum (value + p) added t)
    rintro result t ⟨ps, known', represents⟩
    refine ⟨p :: ps, denoteAll_cons known known', ?_⟩
    rwa [List.sum_cons, ← add_assoc]

theorem wp_productFromIr (symbols : List Name) (children : List Expr) (accumulated : Poly)
    (value : MvPolynomial (Fin symbols.length) ℚ) (represents : Represents symbols.length value accumulated) (s : State) :
    wp (productFromIr engine symbols children accumulated) (fun result _ => ∃ ps, denoteAll symbols children = some ps ∧
      Represents symbols.length (value * ps.prod) result) (fun _ _ => True) s := by
  cases children with
  | nil =>
    unfold productFromIr
    exact ⟨[], denoteAll_nil, by rwa [List.prod_nil, mul_one]⟩
  | cons child rest =>
    unfold productFromIr
    apply wp_then (wp_polyFromIrNode symbols child s)
    rintro operand t ⟨p, known, read⟩
    apply wp_then (wp_polyMultiply exact represents read)
    intro product t multiplied
    apply wp_good (wp_productFromIr symbols rest product (value * p) multiplied t)
    rintro result t ⟨ps, known', represents⟩
    refine ⟨p :: ps, denoteAll_cons known known', ?_⟩
    rwa [List.prod_cons, ← mul_assoc]
end

end

section
variable {State : Type} {engine : Engine State} (keeps : engine.Keeps) (indeterminate : imaginaryUnit ∉ symbols) {s : State}

theorem toExponent_from {n k power : Nat} {powers : List Nat} (inside : k < n) :
    toExponent n (List.replicate k 0 ++ power :: powers) =
      Finsupp.single ⟨k, inside⟩ power + toExponent n (List.replicate (k + 1) 0 ++ powers) := by
  ext i
  rw [Finsupp.add_apply, toExponent_apply, toExponent_apply, Finsupp.single_apply, List.getD_eq_getElem?_getD,
    List.getD_eq_getElem?_getD]
  rcases Nat.lt_trichotomy i k with before | same | after
  · rw [if_neg fun equal => before.ne' (congrArg Fin.val equal), List.getElem?_append_left (by simpa using before),
      List.getElem?_append_left (by simp; omega), List.getElem?_replicate, List.getElem?_replicate, if_pos before,
      if_pos (Nat.lt_succ_of_lt before), zero_add]
  · have equal : (⟨k, inside⟩ : Fin n) = i := Fin.ext same.symm
    rw [if_pos equal, List.getElem?_append_right (by simp [same]), List.getElem?_append_left (by simp [same]),
      List.getElem?_replicate, if_pos (by omega)]
    simp [same]
  · rw [if_neg fun equal => after.ne (congrArg Fin.val equal), List.getElem?_append_right (by simp; omega),
      List.getElem?_append_right (by simp; omega), List.length_replicate, List.length_replicate]
    obtain ⟨d, distance⟩ := Nat.exists_eq_add_of_lt after
    rw [show (i : Nat) - k = d + 1 by omega, show (i : Nat) - (k + 1) = d by omega, List.getElem?_cons_succ, zero_add]

include keeps indeterminate

theorem wp_powerFactor {name : Name} (known : symbols.idxOf name < symbols.length) (power : Nat) :
    wp (powerFactor engine name power)
      (fun result _ => denote symbols result = some (X ⟨symbols.idxOf name, known⟩ ^ power)) (fun _ _ => True) s := by
  unfold powerFactor
  apply wp_ite
  · exact fun _ => keeps.pow symbols _ _ power s indeterminate (denote_symbol known [])
  · intro once
    rw [not_not.mp once, pow_one]
    exact denote_symbol known []

theorem wp_termFactors (distinct : symbols.Nodup) {names : List Name} {k : Nat} (rest : symbols.drop k = names)
    (powers : List Nat) (sized : powers.length = names.length) : wp (termFactors engine names powers)
      (fun result _ => ∃ ps, denoteAll symbols result = some ps ∧
        ps.prod = monomial (toExponent symbols.length (List.replicate k 0 ++ powers)) 1) (fun _ _ => True) s := by
  induction names generalizing k powers s with
  | nil =>
    have none : powers = [] := List.length_eq_zero_iff.mp sized
    unfold termFactors
    refine ⟨[], denoteAll_nil, ?_⟩
    have zero : toExponent symbols.length (List.replicate k 0 ++ powers) = 0 := by
      ext i
      rw [none, List.append_nil, toExponent_apply, List.getD_eq_getElem?_getD, List.getElem?_replicate]
      split <;> rfl
    rw [zero]
    rfl
  | cons name names ih =>
    cases powers with
    | nil => cases sized
    | cons power powers =>
      have inside : k < symbols.length := by
        by_contra outside
        rw [List.drop_eq_nil_of_le (not_lt.mp outside)] at rest
        cases rest
      rw [List.drop_eq_getElem_cons inside] at rest
      obtain ⟨rfl, later⟩ := List.cons.inj rest
      have place : symbols.idxOf symbols[k] = k := distinct.idxOf_getElem k inside
      have later := fun t => ih later powers (Nat.succ.inj sized) (s := t)
      rw [toExponent_from inside]
      unfold termFactors
      apply wp_ite
      · rintro rfl
        rw [Finsupp.single_zero, zero_add]
        exact later s
      intro _
      apply wp_then (wp_powerFactor keeps indeterminate (place.symm ▸ inside) power)
      intro factor t first
      apply wp_then (later t)
      rintro factors u ⟨ps, known, value⟩
      refine ⟨_, denoteAll_cons first known, ?_⟩
      simp only [place]
      rw [List.prod_cons, value, X_pow_eq_monomial, monomial_mul, one_mul]

theorem wp_termToIr (distinct : symbols.Nodup) {term : Term} (sized : term.exponent.length = symbols.length) :
    wp (termToIr engine symbols term)
      (fun result _ => denote symbols result = some (toMonomial symbols.length term)) (fun _ _ => True) s := by
  unfold termToIr
  apply wp_then (wp_termFactors keeps indeterminate distinct (k := 0) rfl term.exponent sized)
  rintro factors t ⟨ps, known, value⟩
  rw [List.replicate_zero, List.nil_append] at value
  apply wp_ite
  · intro _
    apply wp_good (keeps.mul symbols _ _ t indeterminate (denoteAll_append known (denoteAll_cons (denote_exact term.coefficient [])
      denoteAll_nil)))
    intro result u multiplied
    rw [multiplied, List.prod_append, value, List.prod_singleton, mul_comm, C_mul_monomial, mul_one]
    rfl
  · intro plain
    apply wp_good (keeps.mul symbols _ _ t indeterminate known)
    intro result u multiplied
    have one : term.coefficient = 1 := not_not.mp fun other => plain (.inr other)
    rw [multiplied, value, toMonomial, one]

theorem wp_expressions (distinct : symbols.Nodup) {poly : Poly}
    (sized : ∀ term ∈ poly, term.exponent.length = symbols.length) : wp (polyToIr.expressions engine symbols poly)
      (fun result _ => denoteAll symbols result = some (poly.map (toMonomial symbols.length))) (fun _ _ => True) s := by
  induction poly generalizing s with
  | nil => exact denoteAll_nil
  | cons first rest ih =>
    unfold polyToIr.expressions
    apply wp_then (wp_termToIr keeps indeterminate distinct (sized first List.mem_cons_self))
    intro expression t known
    apply wp_then (ih fun term inside => sized term (List.mem_cons_of_mem _ inside))
    intro result u known'
    exact denoteAll_cons known known'

theorem wp_polyToIr (distinct : symbols.Nodup) {poly : Poly} (sorted : Sorted symbols.length poly) :
    wp (polyToIr engine symbols poly)
      (fun result _ => denote symbols result = some (toPolynomial symbols.length poly)) (fun _ _ => True) s := by
  unfold polyToIr
  apply wp_then (wp_expressions keeps indeterminate distinct sorted.sized)
  intro terms t known
  exact keeps.add symbols terms _ t indeterminate known

theorem wp_publish (distinct : symbols.Nodup) {basis : List Poly} (sorted : ∀ poly ∈ basis, Sorted symbols.length poly) :
    wp (sparseGroebnerBasis.publish engine symbols basis)
      (fun result _ => denoteAll symbols result = some (basis.map (toPolynomial symbols.length))) (fun _ _ => True) s := by
  induction basis generalizing s with
  | nil => exact denoteAll_nil
  | cons first rest ih =>
    unfold sparseGroebnerBasis.publish
    apply wp_then (wp_polyToIr keeps indeterminate distinct (sorted first List.mem_cons_self))
    intro expression t known
    apply wp_then (ih fun poly inside => sorted poly (List.mem_cons_of_mem _ inside))
    intro result u known'
    exact denoteAll_cons known known'

end

end PhyNspire.Cas.SparsePoly

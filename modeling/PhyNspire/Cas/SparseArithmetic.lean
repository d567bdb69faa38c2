import PhyNspire.Cas.SparsePoly
import PhyNspire.Exact.Kernel
import Mathlib.RingTheory.MvPolynomial.MonomialOrder

/-!
What the arithmetic of sparse polynomials computes. A list of terms denotes a polynomial in
`n` variables; a sorted list has its leading term first. Every operation returns a sorted
list for the value that it stands for, or stops.
-/

namespace PhyNspire.Cas.SparsePoly
open Lib.Stateful PhyNspire.Exact MvPolynomial

variable {n : Nat}

/-- The lexicographic order with the first variable highest. -/
noncomputable abbrev lexOrder (n : Nat) : MonomialOrder (Fin n) := MonomialOrder.lex

/-- The exponents of a term as a monomial in `n` variables. -/
noncomputable def toExponent (n : Nat) (exponent : List Nat) : Fin n →₀ Nat :=
  Finsupp.equivFunOnFinite.symm fun i => exponent.getD i 0

noncomputable def toMonomial (n : Nat) (term : Term) : MvPolynomial (Fin n) ℚ :=
  monomial (toExponent n term.exponent) term.coefficient

noncomputable def toPolynomial (n : Nat) (poly : Poly) : MvPolynomial (Fin n) ℚ := (poly.map (toMonomial n)).sum

@[simp] theorem toExponent_apply (exponent : List Nat) (i : Fin n) : toExponent n exponent i = exponent.getD i 0 := rfl

@[simp] theorem toPolynomial_nil : toPolynomial n [] = 0 := rfl

@[simp] theorem toPolynomial_cons (term : Term) (rest : Poly) :
    toPolynomial n (term :: rest) = toMonomial n term + toPolynomial n rest := by
  rw [toPolynomial, List.map_cons, List.sum_cons]
  rfl

theorem toExponent_injective {left right : List Nat} (sized : left.length = n) (sized' : right.length = n)
    (same : toExponent n left = toExponent n right) : left = right := by
  apply List.ext_getElem (sized.trans sized'.symm)
  intro i inside inside'
  have place := DFunLike.congr_fun same (⟨i, sized ▸ inside⟩ : Fin n)
  simpa [List.getD_eq_getElem?_getD, List.getElem?_eq_getElem inside, List.getElem?_eq_getElem inside'] using place

theorem monomialCompare_swap (left right : List Nat) : monomialCompare right left = (monomialCompare left right).swap := by
  induction left generalizing right with
  | nil => cases right <;> rfl
  | cons first rest ih =>
    cases right with
    | nil => rfl
    | cons first' rest' =>
      unfold monomialCompare
      by_cases same : first = first'
      · rw [if_neg (not_not.mpr same), if_neg (not_not.mpr same.symm), ih]
      · rw [if_pos same, if_pos (Ne.symm same), Nat.compare_swap]

theorem eq_of_monomialCompare {left right : List Nat} (sized : left.length = right.length)
    (same : monomialCompare left right = .eq) : left = right := by
  induction left generalizing right with
  | nil => exact (List.length_eq_zero_iff.mp sized.symm).symm
  | cons first rest ih =>
    cases right with
    | nil => cases sized
    | cons first' rest' =>
      unfold monomialCompare at same
      by_cases equal : first = first'
      · rw [if_neg (not_not.mpr equal)] at same
        rw [equal, ih (Nat.succ.inj sized) same]
      · rw [if_pos equal] at same
        exact absurd (Nat.compare_eq_eq.mp same) equal

theorem lt_of_monomialCompare {left right : List Nat} (sized : left.length = right.length)
    (less : monomialCompare left right = .lt) :
    ∃ i < left.length, (∀ j < i, left.getD j 0 = right.getD j 0) ∧ left.getD i 0 < right.getD i 0 := by
  induction left generalizing right with
  | nil => cases right <;> cases less
  | cons first rest ih =>
    cases right with
    | nil => cases sized
    | cons first' rest' =>
      unfold monomialCompare at less
      by_cases equal : first = first'
      · rw [if_neg (not_not.mpr equal)] at less
        obtain ⟨i, inside, before, place⟩ := ih (Nat.succ.inj sized) less
        refine ⟨i + 1, Nat.succ_lt_succ inside, fun j below => ?_, place⟩
        cases j with
        | zero => exact equal
        | succ j => exact before j (Nat.lt_of_succ_lt_succ below)
      · rw [if_pos equal] at less
        exact ⟨0, Nat.succ_pos _, fun j below => absurd below (Nat.not_lt_zero j), Nat.compare_eq_lt.mp less⟩

theorem toSyn_lt {left right : List Nat} (sized : left.length = n) (sized' : right.length = n)
    (less : monomialCompare left right = .lt) :
    (lexOrder n).toSyn (toExponent n left) < (lexOrder n).toSyn (toExponent n right) := by
  obtain ⟨i, inside, before, place⟩ := lt_of_monomialCompare (sized.trans sized'.symm) less
  apply MonomialOrder.lex_lt_iff.mpr
  apply Finsupp.Lex.lt_iff.mpr
  exact ⟨⟨i, sized ▸ inside⟩, fun j below => before j below, place⟩

theorem monomialCompare_trans {left middle right : List Nat} (sized : left.length = n) (sized' : middle.length = n)
    (sized'' : right.length = n) (first : monomialCompare left middle = .lt) (second : monomialCompare middle right = .lt) :
    monomialCompare left right = .lt := by
  have less := (toSyn_lt sized sized' first).trans (toSyn_lt sized' sized'' second)
  cases compared : monomialCompare left right with
  | lt => rfl
  | eq => exact absurd less (by rw [eq_of_monomialCompare (sized.trans sized''.symm) compared]; exact lt_irrefl _)
  | gt =>
    have greater : monomialCompare right left = .lt := by rw [monomialCompare_swap, compared]; rfl
    exact absurd less (toSyn_lt sized'' sized greater).not_gt

/-- Every term has one exponent for every variable and a coefficient that is not zero, and the
terms stand in strictly decreasing order. -/
structure Sorted (n : Nat) (poly : Poly) : Prop where
  sized : ∀ term ∈ poly, term.exponent.length = n
  nonzero : ∀ term ∈ poly, term.coefficient ≠ 0
  ordered : poly.Pairwise fun first second => monomialCompare second.exponent first.exponent = .lt

namespace Sorted

theorem nil : Sorted n [] := ⟨by simp, by simp, .nil⟩

variable {term first : Term} {rest poly : Poly}

theorem tail (sorted : Sorted n (first :: rest)) : Sorted n rest :=
  ⟨fun term inside => sorted.sized term (List.mem_cons_of_mem _ inside),
    fun term inside => sorted.nonzero term (List.mem_cons_of_mem _ inside), sorted.ordered.of_cons⟩

theorem cons (sized : first.exponent.length = n) (nonzero : first.coefficient ≠ 0) (sorted : Sorted n rest)
    (above : ∀ term ∈ rest, monomialCompare term.exponent first.exponent = .lt) : Sorted n (first :: rest) := by
  refine ⟨fun term inside => ?_, fun term inside => ?_, List.pairwise_cons.mpr ⟨above, sorted.ordered⟩⟩
  · rcases List.mem_cons.mp inside with rfl | later
    · exact sized
    · exact sorted.sized term later
  · rcases List.mem_cons.mp inside with rfl | later
    · exact nonzero
    · exact sorted.nonzero term later

theorem above (sorted : Sorted n (first :: rest)) : ∀ term ∈ rest, monomialCompare term.exponent first.exponent = .lt :=
  (List.pairwise_cons.mp sorted.ordered).1

theorem toSyn_above (sorted : Sorted n (first :: rest)) (inside : term ∈ rest) :
    (lexOrder n).toSyn (toExponent n term.exponent) < (lexOrder n).toSyn (toExponent n first.exponent) :=
  toSyn_lt (sorted.sized term (List.mem_cons_of_mem _ inside)) (sorted.sized first List.mem_cons_self)
    (sorted.above term inside)

end Sorted

theorem coeff_toPolynomial_of_apart {poly : Poly} {e : Fin n →₀ Nat} (apart : ∀ term ∈ poly, toExponent n term.exponent ≠ e) :
    coeff e (toPolynomial n poly) = 0 := by
  induction poly with
  | nil => rfl
  | cons first rest ih =>
    rw [toPolynomial_cons, coeff_add, toMonomial, coeff_monomial, if_neg (apart first List.mem_cons_self),
      ih fun term inside => apart term (List.mem_cons_of_mem _ inside), add_zero]

theorem coeff_leading {first : Term} {rest : Poly} (sorted : Sorted n (first :: rest)) :
    coeff (toExponent n first.exponent) (toPolynomial n (first :: rest)) = first.coefficient := by
  rw [toPolynomial_cons, coeff_add, toMonomial, coeff_monomial, if_pos rfl, coeff_toPolynomial_of_apart, add_zero]
  intro term inside same
  exact (sorted.toSyn_above inside).ne (congrArg _ same)

theorem toPolynomial_ne_zero {first : Term} {rest : Poly} (sorted : Sorted n (first :: rest)) :
    toPolynomial n (first :: rest) ≠ 0 := by
  intro zero
  have top := coeff_leading sorted
  rw [zero, coeff_zero] at top
  exact sorted.nonzero first List.mem_cons_self top.symm

theorem toPolynomial_eq_zero_iff {poly : Poly} (sorted : Sorted n poly) : toPolynomial n poly = 0 ↔ poly = [] := by
  cases poly with
  | nil => simp
  | cons first rest => simp [-toPolynomial_cons, toPolynomial_ne_zero sorted]

theorem degree_leading {first : Term} {rest : Poly} (sorted : Sorted n (first :: rest)) :
    (lexOrder n).degree (toPolynomial n (first :: rest)) = toExponent n first.exponent := by
  apply (lexOrder n).toSyn.injective
  apply le_antisymm
  · by_contra late
    have nonzero := (lexOrder n).coeff_degree_ne_zero_iff.mpr (toPolynomial_ne_zero sorted)
    apply nonzero
    apply coeff_toPolynomial_of_apart
    intro term inside same
    apply late
    rw [← same]
    rcases List.mem_cons.mp inside with rfl | later
    · exact le_rfl
    · exact (sorted.toSyn_above later).le
  · apply (lexOrder n).le_degree
    rw [mem_support_iff, coeff_leading sorted]
    exact sorted.nonzero first List.mem_cons_self

theorem leadingCoeff_leading {first : Term} {rest : Poly} (sorted : Sorted n (first :: rest)) :
    (lexOrder n).leadingCoeff (toPolynomial n (first :: rest)) = first.coefficient := by
  rw [MonomialOrder.leadingCoeff, degree_leading sorted, coeff_leading sorted]

theorem toExponent_zipWith {f : Nat → Nat → Nat} (zero : f 0 0 = 0) {left right : List Nat} (sized : left.length = n)
    (sized' : right.length = n) (i : Fin n) :
    toExponent n (List.zipWith f left right) i = f (toExponent n left i) (toExponent n right i) := by
  have first : i.val < left.length := sized ▸ i.isLt
  have second : i.val < right.length := sized' ▸ i.isLt
  simp [List.getD_eq_getElem?_getD, first, second]

theorem toExponent_add {left right : List Nat} (sized : left.length = n) (sized' : right.length = n) :
    toExponent n (List.zipWith (· + ·) left right) = toExponent n left + toExponent n right :=
  Finsupp.ext (toExponent_zipWith rfl sized sized')

theorem toExponent_sub {left right : List Nat} (sized : left.length = n) (sized' : right.length = n) :
    toExponent n (List.zipWith (· - ·) left right) = toExponent n left - toExponent n right :=
  Finsupp.ext (toExponent_zipWith rfl sized sized')

theorem toExponent_max {left right : List Nat} (sized : left.length = n) (sized' : right.length = n) :
    toExponent n (List.zipWith max left right) = toExponent n left ⊔ toExponent n right :=
  Finsupp.ext (toExponent_zipWith rfl sized sized')

theorem length_zipWith {f : Nat → Nat → Nat} {left right : List Nat} (sized : left.length = n) (sized' : right.length = n) :
    (List.zipWith f left right).length = n := by
  rw [List.length_zipWith, sized, sized', min_self]

theorem toExponent_zero : toExponent n (zeroExponent n) = 0 := by
  ext i
  simp [zeroExponent, List.getD_eq_getElem?_getD]

theorem length_zeroExponent : (zeroExponent n).length = n := List.length_replicate

theorem monomialDivides_iff {divisor dividend : List Nat} (sized : divisor.length = n) (sized' : dividend.length = n) :
    monomialDivides divisor dividend = true ↔ toExponent n divisor ≤ toExponent n dividend := by
  have places : monomialDivides divisor dividend = true ↔ ∀ i < divisor.length, divisor.getD i 0 ≤ dividend.getD i 0 := by
    have same : divisor.length = dividend.length := sized.trans sized'.symm
    clear sized sized'
    induction divisor generalizing dividend with
    | nil => simp [monomialDivides]
    | cons first rest ih =>
      cases dividend with
      | nil => cases same
      | cons first' rest' =>
        rw [monomialDivides, Bool.and_eq_true, decide_eq_true_eq]
        have step := ih (Nat.succ.inj same)
        constructor
        · rintro ⟨head, later⟩ i inside
          cases i with
          | zero => exact head
          | succ i => exact step.mp later i (Nat.lt_of_succ_lt_succ inside)
        · exact fun all => ⟨all 0 (Nat.succ_pos _), step.mpr fun i inside => all (i + 1) (Nat.succ_lt_succ inside)⟩
  rw [places, sized, Finsupp.le_def]
  exact ⟨fun all i => all i i.isLt, fun all i inside => all ⟨i, inside⟩⟩

structure Engine.Exact {State : Type} (engine : Engine State) : Prop where
  add (p q : ℚ) : Yields (engine.exactAdd p q) (p + q)
  sub (p q : ℚ) : Yields (engine.exactSub p q) (p - q)
  mul (p q : ℚ) : Yields (engine.exactMul p q) (p * q)
  div (p q : ℚ) (s : State) : wp (engine.exactDiv p q) (fun result _ => q ≠ 0 ∧ result = p / q) (fun _ _ => True) s

def Represents (n : Nat) (value : MvPolynomial (Fin n) ℚ) (poly : Poly) : Prop :=
  Sorted n poly ∧ toPolynomial n poly = value

theorem represents_nil : Represents n 0 [] := ⟨.nil, rfl⟩

section
variable {State : Type} {engine : Engine State} (exact : engine.Exact) {s : State} {value : MvPolynomial (Fin n) ℚ}

def Inserted (exponent : List Nat) (before after : Poly) : Prop :=
  ∀ term ∈ after, term.exponent = exponent ∨ ∃ old ∈ before, term.exponent = old.exponent

theorem wp_addExponents {left right : List Nat} {good : List Nat → State → Prop}
    (rest : good (List.zipWith (· + ·) left right) s) : wp (addExponents left right) good (fun _ _ => True) s := by
  unfold addExponents
  exact wp_ite (fun _ => trivial) (fun _ => rest)

include exact

variable {coefficient : ℚ} {exponent : List Nat}

theorem wp_placeTerm {count : Nat} (nonzero : coefficient ≠ 0)
    (sized : exponent.length = n) {poly : Poly} (sorted : Sorted n poly) :
    wp (placeTerm engine count coefficient exponent poly) (fun result _ => Inserted exponent poly result ∧
      Represents n (toPolynomial n poly + monomial (toExponent n exponent) coefficient) result) (fun _ _ => True) s := by
  induction poly generalizing s with
  | nil =>
    unfold placeTerm
    refine wp_ite (fun _ => trivial) (fun _ => ⟨fun term inside => ?_, ?_, ?_⟩)
    · exact .inl (by rw [List.mem_singleton.mp inside])
    · exact .cons sized nonzero .nil (by simp)
    · rw [toPolynomial_cons, toPolynomial_nil, add_comm]
      rfl
  | cons first rest ih =>
    have sized' := sorted.sized first List.mem_cons_self
    unfold placeTerm
    cases compared : monomialCompare exponent first.exponent with
    | eq =>
      have same : exponent = first.exponent := eq_of_monomialCompare (sized.trans sized'.symm) compared
      dsimp only
      rw [wp_bind]
      apply (exact.add _ _).use
      intro t
      apply wp_ite
      · intro cancelled
        refine ⟨fun term inside => .inr ⟨term, List.mem_cons_of_mem _ inside, rfl⟩, sorted.tail, ?_⟩
        rw [toPolynomial_cons, toMonomial, same, add_right_comm, ← map_add (monomial _), cancelled, monomial_zero, zero_add]
      · intro remains
        refine ⟨fun term inside => ?_, .cons sized' remains sorted.tail sorted.above, ?_⟩
        · rcases List.mem_cons.mp inside with rfl | later
          · exact .inl same.symm
          · exact .inr ⟨term, List.mem_cons_of_mem _ later, rfl⟩
        · rw [toPolynomial_cons, toPolynomial_cons, toMonomial, toMonomial, same, map_add (monomial _), add_right_comm]
    | gt =>
      dsimp only
      have below : monomialCompare first.exponent exponent = .lt := by rw [monomialCompare_swap, compared]; rfl
      refine wp_ite (fun _ => trivial) (fun _ => ⟨fun term inside => ?_, .cons sized nonzero sorted fun term inside => ?_, ?_⟩)
      · rcases List.mem_cons.mp inside with rfl | later
        · exact .inl rfl
        · exact .inr ⟨term, later, rfl⟩
      · rcases List.mem_cons.mp inside with rfl | later
        · exact below
        · exact monomialCompare_trans (sorted.sized term inside) sized' sized (sorted.above term later) below
      · rw [toPolynomial_cons, add_comm]
        rfl
    | lt =>
      dsimp only
      apply wp_then (ih sorted.tail)
      rintro result t ⟨inserted, ordered, valued⟩
      refine ⟨fun term inside => ?_, .cons sized' (sorted.nonzero first List.mem_cons_self) ordered fun term inside => ?_, ?_⟩
      · rcases List.mem_cons.mp inside with rfl | later
        · exact .inr ⟨term, List.mem_cons_self, rfl⟩
        · exact (inserted term later).imp id fun ⟨old, member, same⟩ => ⟨old, List.mem_cons_of_mem _ member, same⟩
      · rcases inserted term inside with same | ⟨old, member, same⟩
        · rw [same, compared]
        · rw [same, sorted.above old member]
      · rw [toPolynomial_cons, valued, toPolynomial_cons, add_assoc]

theorem wp_insertTerm (sized : exponent.length = n) {poly : Poly}
    (sorted : Sorted n poly) : wp (insertTerm engine poly coefficient exponent) (fun result _ =>
      Inserted exponent poly result ∧
        Represents n (toPolynomial n poly + monomial (toExponent n exponent) coefficient) result) (fun _ _ => True) s := by
  unfold insertTerm
  apply wp_ite
  · rintro rfl
    exact ⟨fun term inside => .inr ⟨term, inside, rfl⟩, sorted, by rw [monomial_zero, add_zero]⟩
  · exact fun nonzero => wp_placeTerm exact nonzero sized sorted

variable {terms out : Poly}

theorem wp_insertTerms (sized : ∀ term ∈ terms, term.exponent.length = n)
    (represents : Represents n value out) : wp (insertTerms engine terms out)
      (fun result _ => Represents n (value + toPolynomial n terms) result) (fun _ _ => True) s := by
  induction terms generalizing out value s with
  | nil =>
    rw [toPolynomial_nil, add_zero]
    exact represents
  | cons first rest ih =>
    unfold insertTerms
    apply wp_then (wp_insertTerm exact (sized first List.mem_cons_self) represents.1)
    rintro out t ⟨-, inserted⟩
    rw [represents.2] at inserted
    rw [toPolynomial_cons, ← add_assoc]
    exact ih (fun term inside => sized term (List.mem_cons_of_mem _ inside)) inserted

variable {left right : Poly} {p q : MvPolynomial (Fin n) ℚ}

theorem wp_polyAdd (first : Represents n p left) (second : Represents n q right) :
    wp (polyAdd engine left right) (fun result _ => Represents n (p + q) result) (fun _ _ => True) s := by
  unfold polyAdd
  apply wp_then (wp_insertTerms exact first.1.sized represents_nil)
  intro out t copied
  rw [zero_add, first.2] at copied
  have sum := wp_insertTerms exact second.1.sized copied (s := t)
  rwa [second.2] at sum

theorem wp_subtractTerms (sized : ∀ term ∈ terms, term.exponent.length = n)
    (represents : Represents n value out) : wp (subtractTerms engine terms out)
      (fun result _ => Represents n (value - toPolynomial n terms) result) (fun _ _ => True) s := by
  induction terms generalizing out value s with
  | nil =>
    rw [toPolynomial_nil, sub_zero]
    exact represents
  | cons first rest ih =>
    unfold subtractTerms
    rw [wp_bind]
    apply (exact.sub _ _).use
    intro t
    apply wp_then (wp_insertTerm exact (sized first List.mem_cons_self) represents.1)
    rintro out t ⟨-, inserted⟩
    have negative : monomial (toExponent n first.exponent) (0 - first.coefficient) = -toMonomial n first := by
      rw [zero_sub, toMonomial, map_neg]
    rw [represents.2, negative, ← sub_eq_add_neg] at inserted
    rw [toPolynomial_cons, ← sub_sub]
    exact ih (fun term inside => sized term (List.mem_cons_of_mem _ inside)) inserted

theorem wp_polySubtract (first : Represents n p left) (second : Represents n q right) :
    wp (polySubtract engine left right) (fun result _ => Represents n (p - q) result) (fun _ _ => True) s := by
  unfold polySubtract
  apply wp_then (wp_insertTerms exact first.1.sized represents_nil)
  intro out t copied
  rw [zero_add, first.2] at copied
  have difference := wp_subtractTerms exact second.1.sized copied (s := t)
  rwa [second.2] at difference

theorem wp_multiplyTerms {first : Term} (length : first.exponent.length = n)
    (sized : ∀ term ∈ terms, term.exponent.length = n) (represents : Represents n value out) :
    wp (multiplyTerms engine first terms out)
      (fun result _ => Represents n (value + toMonomial n first * toPolynomial n terms) result) (fun _ _ => True) s := by
  induction terms generalizing out value s with
  | nil =>
    rw [toPolynomial_nil, mul_zero, add_zero]
    exact represents
  | cons second rest ih =>
    have length' := sized second List.mem_cons_self
    unfold multiplyTerms
    apply wp_then (wp_any s)
    intro _ t _
    rw [wp_bind]
    apply wp_addExponents
    rw [wp_bind]
    apply (exact.mul _ _).use
    intro t
    apply wp_then (wp_insertTerm exact (length_zipWith length length') represents.1)
    rintro out t ⟨-, inserted⟩
    have product : monomial (toExponent n (List.zipWith (· + ·) first.exponent second.exponent))
        (first.coefficient * second.coefficient) = toMonomial n first * toMonomial n second := by
      rw [toMonomial, toMonomial, monomial_mul, toExponent_add length length']
    rw [represents.2, product] at inserted
    rw [toPolynomial_cons, mul_add, ← add_assoc]
    exact ih (fun term inside => sized term (List.mem_cons_of_mem _ inside)) inserted

theorem wp_multiplyRows (sized : ∀ term ∈ terms, term.exponent.length = n)
    (sized' : ∀ term ∈ right, term.exponent.length = n) (represents : Represents n value out) :
    wp (polyMultiply.rows engine right terms out)
      (fun result _ => Represents n (value + toPolynomial n terms * toPolynomial n right) result) (fun _ _ => True) s := by
  induction terms generalizing out value s with
  | nil =>
    rw [toPolynomial_nil, zero_mul, add_zero]
    exact represents
  | cons first rest ih =>
    unfold polyMultiply.rows
    apply wp_then (wp_multiplyTerms exact (sized first List.mem_cons_self) sized' represents)
    intro out t row
    rw [toPolynomial_cons, add_mul, ← add_assoc]
    exact ih (fun term inside => sized term (List.mem_cons_of_mem _ inside)) row

theorem wp_polyMultiply (first : Represents n p left) (second : Represents n q right) :
    wp (polyMultiply engine left right) (fun result _ => Represents n (p * q) result) (fun _ _ => True) s := by
  have product := wp_multiplyRows exact first.1.sized second.1.sized represents_nil (s := s)
  rwa [zero_add, first.2, second.2] at product

theorem wp_scale (length : exponent.length = n)
    (sized : ∀ term ∈ terms, term.exponent.length = n) (represents : Represents n value out) :
    wp (polyScaleMonomial.scale engine coefficient exponent terms out)
      (fun result _ => Represents n (value + monomial (toExponent n exponent) coefficient * toPolynomial n terms) result)
      (fun _ _ => True) s := by
  induction terms generalizing out value s with
  | nil =>
    rw [toPolynomial_nil, mul_zero, add_zero]
    exact represents
  | cons first rest ih =>
    have length' := sized first List.mem_cons_self
    unfold polyScaleMonomial.scale
    rw [wp_bind]
    apply wp_addExponents
    rw [wp_bind]
    apply (exact.mul _ _).use
    intro t
    apply wp_then (wp_insertTerm exact (length_zipWith length' length) represents.1)
    rintro out t ⟨-, inserted⟩
    have product : monomial (toExponent n (List.zipWith (· + ·) first.exponent exponent)) (first.coefficient * coefficient) =
        monomial (toExponent n exponent) coefficient * toMonomial n first := by
      rw [toMonomial, monomial_mul, toExponent_add length' length, add_comm, mul_comm coefficient]
    rw [represents.2, product] at inserted
    rw [toPolynomial_cons, mul_add, ← add_assoc]
    exact ih (fun term inside => sized term (List.mem_cons_of_mem _ inside)) inserted

theorem wp_polyScaleMonomial (represents : Represents n p left) (coefficient : ℚ)
    (length : exponent.length = n) : wp (polyScaleMonomial engine left coefficient exponent)
      (fun result _ => Represents n (monomial (toExponent n exponent) coefficient * p) result) (fun _ _ => True) s := by
  unfold polyScaleMonomial
  apply wp_good (wp_scale exact length represents.1.sized represents_nil)
  intro result t scaled
  rwa [zero_add, represents.2] at scaled

theorem wp_normalize {leading : ℚ} (nonzero : leading ≠ 0) {poly : Poly} (sorted : Sorted n poly) :
    wp (polyMakeMonic.normalize engine leading poly)
      (fun result _ => result.map Term.exponent = poly.map Term.exponent ∧
        Represents n (C leading⁻¹ * toPolynomial n poly) result) (fun _ _ => True) s := by
  induction poly generalizing s with
  | nil => exact ⟨rfl, by rw [toPolynomial_nil, mul_zero]; exact represents_nil⟩
  | cons first rest ih =>
    unfold polyMakeMonic.normalize
    apply wp_then (exact.div _ _ _)
    rintro normalized t ⟨-, rfl⟩
    apply wp_then (ih sorted.tail)
    rintro result t ⟨exponents, ordered, valued⟩
    refine ⟨by rw [List.map_cons, List.map_cons, exponents], .cons (sorted.sized first List.mem_cons_self)
      (div_ne_zero (sorted.nonzero first List.mem_cons_self) nonzero) ordered fun term inside => ?_, ?_⟩
    · have member : term.exponent ∈ rest.map Term.exponent := exponents ▸ List.mem_map_of_mem inside
      obtain ⟨old, inside', same⟩ := List.mem_map.mp member
      rw [← same]
      exact sorted.above old inside'
    · rw [toPolynomial_cons, valued, toPolynomial_cons, mul_add, toMonomial, toMonomial, C_mul_monomial, div_eq_inv_mul]

theorem wp_polyMakeMonic {poly : Poly} (sorted : Sorted n poly) : wp (polyMakeMonic engine poly)
    (fun result _ => ∃ c : ℚ, c ≠ 0 ∧ Represents n (C c * toPolynomial n poly) result) (fun _ _ => True) s := by
  cases poly with
  | nil => exact ⟨1, one_ne_zero, by rw [toPolynomial_nil, mul_zero]; exact represents_nil⟩
  | cons first rest =>
    have nonzero := sorted.nonzero first List.mem_cons_self
    exact wp_good (wp_normalize exact nonzero sorted)
      fun _ _ ⟨_, represents⟩ => ⟨_, inv_ne_zero nonzero, represents⟩

theorem wp_multiplyWhen (condition : Bool) (first : Represents n p left) (second : Represents n q right) :
    wp (multiplyWhen engine condition left right)
      (fun result _ => Represents n (p * if condition then q else 1) result) (fun _ _ => True) s := by
  unfold multiplyWhen
  apply wp_ite
  · intro taken
    rw [if_pos taken]
    exact wp_polyMultiply exact first second
  · intro skipped
    rw [if_neg skipped, mul_one]
    exact first

theorem wp_powerLoop (turns exponent : Nat) (enough : exponent < 2 ^ turns) (first : Represents n p left)
    (second : Represents n q right) : wp (powerLoop engine turns exponent left right)
      (fun result _ => Represents n (p * q ^ exponent) result) (fun _ _ => True) s := by
  induction turns generalizing exponent left right p q s with
  | zero =>
    have none : exponent = 0 := by omega
    rw [none, pow_zero, mul_one]
    exact first
  | succ turns ih =>
    unfold powerLoop
    apply wp_ite
    · rintro rfl
      rw [pow_zero, mul_one]
      exact first
    intro some
    have half : exponent / 2 < 2 ^ turns := by omega
    apply wp_then (wp_multiplyWhen exact (decide (exponent % 2 = 1)) first second)
    intro result t product
    apply wp_then (wp_multiplyWhen exact (decide (exponent / 2 ≠ 0)) second second)
    intro factor t square
    have rest := ih (exponent / 2) half product square (s := t)
    have odd : (if decide (exponent % 2 = 1) = true then q else 1) = q ^ (exponent % 2) := by
      rcases Nat.mod_two_eq_zero_or_one exponent with even | odd
      · rw [even, pow_zero, if_neg (by decide)]
      · rw [odd, pow_one, if_pos (by decide)]
    have squared : (q * if decide (exponent / 2 ≠ 0) = true then q else 1) ^ (exponent / 2) = (q * q) ^ (exponent / 2) := by
      by_cases done : exponent / 2 = 0
      · rw [done, pow_zero, pow_zero]
      · rw [if_pos (decide_eq_true done)]
    rw [odd, squared] at rest
    have split : p * q ^ (exponent % 2) * (q * q) ^ (exponent / 2) = p * q ^ exponent := by
      rw [← pow_two, ← pow_mul, mul_assoc, ← pow_add, Nat.mod_add_div]
    rwa [split] at rest

theorem wp_one : wp (insertTerm engine [] 1 (zeroExponent n)) (fun result _ => Represents n 1 result) (fun _ _ => True) s := by
  apply wp_good (wp_insertTerm exact length_zeroExponent .nil)
  rintro result t ⟨-, inserted⟩
  rwa [toPolynomial_nil, zero_add, toExponent_zero] at inserted

theorem wp_polyPower (represents : Represents n p left) {exponent : Nat} (bound : exponent ≤ sparseMaxDegree) :
    wp (polyPower engine n left exponent) (fun result _ => Represents n (p ^ exponent) result) (fun _ _ => True) s := by
  unfold polyPower
  apply wp_then (wp_one exact)
  intro one t first
  have power := wp_powerLoop exact 6 exponent (by unfold sparseMaxDegree at bound; omega) first represents (s := t)
  rwa [one_mul] at power

end

end PhyNspire.Cas.SparsePoly

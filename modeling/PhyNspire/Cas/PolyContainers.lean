import PhyNspire.Cas.Resultants

/-!
The container of a sparse polynomial. It holds at most 192 terms, in strictly decreasing
order, without zero coefficients and without an exponent above 48; every operation fills it
so, or stops. Division takes the leading term away until the divisor's no longer divides it.
-/

namespace PhyNspire.Cas.SparsePoly
open Platform Lib.Stateful PhyNspire.Exact MvPolynomial

def polyEqual : Poly → Poly → Bool
  | [], [] => true
  | left :: lefts, right :: rights =>
      decide (left.coefficient = right.coefficient) && decide (left.exponent = right.exponent) && polyEqual lefts rights
  | _, _ => false

structure Division where
  quotient : Poly
  remainder : Poly

section
variable {State : Type} (engine : Engine State)

def divideLeading (divisor : Poly) (divisorLeading leading : Term) (division : Division) : EStateM Status State Division := do
  let exponent := List.zipWith (· - ·) leading.exponent divisorLeading.exponent
  let coefficient ← engine.exactDiv leading.coefficient divisorLeading.coefficient
  let quotient ← insertTerm engine division.quotient coefficient exponent
  let scaled ← polyScaleMonomial engine divisor coefficient exponent
  let remainder ← polySubtract engine division.remainder scaled
  pure ⟨quotient, remainder⟩

/-- The loop of `poly_divide_exact`. Every turn adds a term to the quotient, which holds no more than the container. -/
def divideLoop (divisor : Poly) (divisorLeading : Term) : Nat → Division → EStateM Status State Division
  | 0, division => pure division
  | turns + 1, division =>
      match division.remainder with
      | [] => pure division
      | leading :: _ =>
          if monomialDivides divisorLeading.exponent leading.exponent then do
            let division ← divideLeading engine divisor divisorLeading leading division
            divideLoop divisor divisorLeading turns division
          else pure division

def polyDivideExact (dividend divisor : Poly) : EStateM Status State (Poly × Bool) :=
  match divisor with
  | [] => throw .domain
  | divisorLeading :: divisorRest => do
      let division ← divideLoop engine (divisorLeading :: divisorRest) divisorLeading (sparseMaxTerms + 1) ⟨[], dividend⟩
      pure (division.quotient, decide (division.remainder = []))

end

variable {n : Nat}

theorem polyEqual_iff (left right : Poly) : polyEqual left right = true ↔ left = right := by
  induction left generalizing right with
  | nil => cases right <;> simp [polyEqual]
  | cons first rest ih =>
    cases right with
    | nil => simp [polyEqual]
    | cons first' rest' =>
      rw [polyEqual, Bool.and_eq_true, Bool.and_eq_true, decide_eq_true_eq, decide_eq_true_eq, ih, List.cons.injEq, Term.mk.injEq]

theorem Sorted.unique {left right : Poly} (first : Sorted n left) (second : Sorted n right)
    (same : toPolynomial n left = toPolynomial n right) : left = right := by
  induction left generalizing right with
  | nil => exact ((toPolynomial_eq_zero_iff second).mp same.symm).symm
  | cons term rest ih =>
    cases right with
    | nil => exact (toPolynomial_eq_zero_iff first).mp same
    | cons term' rest' =>
      have degree : toExponent n term.exponent = toExponent n term'.exponent := by
        rw [← degree_leading first, ← degree_leading second, same]
      have exponent : term.exponent = term'.exponent :=
        toExponent_injective (first.sized _ List.mem_cons_self) (second.sized _ List.mem_cons_self) degree
      have coefficient : term.coefficient = term'.coefficient := by
        rw [← leadingCoeff_leading first, ← leadingCoeff_leading second, same]
      have leading : toMonomial n term = toMonomial n term' := by rw [toMonomial, toMonomial, exponent, coefficient]
      rw [toPolynomial_cons, toPolynomial_cons, leading] at same
      obtain rfl := ih first.tail second.tail (add_left_cancel same)
      cases term
      cases term'
      cases coefficient
      cases exponent
      rfl

theorem Represents.polyEqual_iff {p q : MvPolynomial (Fin n) ℚ} {left right : Poly} (first : Represents n p left)
    (second : Represents n q right) : polyEqual left right = true ↔ p = q := by
  rw [SparsePoly.polyEqual_iff]
  constructor
  · intro same
    rw [← first.2, ← second.2, same]
  · intro same
    exact first.1.unique second.1 (by rw [first.2, second.2, same])

def Within (n : Nat) (terms : Poly) : Prop :=
  ∀ term ∈ terms, term.exponent.length = n ∧ ∀ power ∈ term.exponent, power ≤ sparseMaxDegree

/-- The representation invariant. -/
structure Contained (n : Nat) (poly : Poly) : Prop where
  sorted : Sorted n poly
  short : poly.length ≤ sparseMaxTerms
  low : ∀ term ∈ poly, ∀ power ∈ term.exponent, power ≤ sparseMaxDegree

namespace Contained

theorem nil : Contained n [] := ⟨.nil, Nat.zero_le _, by simp⟩

theorem within {poly : Poly} (contained : Contained n poly) : Within n poly :=
  fun term inside => ⟨contained.sorted.sized term inside, contained.low term inside⟩

end Contained

section
variable {State : Type} {engine : Engine State} (exact : engine.Exact) {s : State}

theorem wp_addExponents_low {left right : List Nat} {good : List Nat → State → Prop}
    (rest : (∀ power ∈ List.zipWith (· + ·) left right, power ≤ sparseMaxDegree) → good (List.zipWith (· + ·) left right) s) :
    wp (addExponents left right) good (fun _ _ => True) s := by
  unfold addExponents
  apply wp_ite
  · exact fun _ => trivial
  · intro none
    apply rest
    intro power inside
    by_contra high
    exact none (List.any_eq_true.mpr ⟨power, inside, decide_eq_true (by omega)⟩)

variable {coefficient : ℚ} {exponent : List Nat} {poly : Poly}

theorem wp_placeTerm_length {count : Nat} :
    wp (placeTerm engine count coefficient exponent poly)
      (fun result _ => result.length ≤ poly.length ∨ (result.length = poly.length + 1 ∧ count < sparseMaxTerms))
      (fun _ _ => True) s := by
  induction poly generalizing s with
  | nil =>
    unfold placeTerm
    exact wp_ite (fun _ => trivial) (fun room => .inr ⟨rfl, not_le.mp room⟩)
  | cons first rest ih =>
    unfold placeTerm
    cases monomialCompare exponent first.exponent with
    | eq =>
      dsimp only
      apply wp_then (wp_any s)
      intro sum t _
      exact wp_ite (fun _ => .inl (Nat.le_succ _)) (fun _ => .inl le_rfl)
    | gt => exact wp_ite (fun _ => trivial) (fun room => .inr ⟨rfl, not_le.mp room⟩)
    | lt =>
      dsimp only
      apply wp_then ih
      intro result t known
      rcases known with kept | ⟨grown, room⟩
      · exact .inl (Nat.succ_le_succ kept)
      · exact .inr ⟨congrArg Nat.succ grown, room⟩

theorem wp_placeTerm_last {count : Nat} (below : ∀ term ∈ poly, monomialCompare exponent term.exponent = .lt) :
    wp (placeTerm engine count coefficient exponent poly) (fun result _ => result = poly ++ [⟨coefficient, exponent⟩])
      (fun _ _ => True) s := by
  induction poly generalizing s with
  | nil =>
    unfold placeTerm
    exact wp_ite (fun _ => trivial) (fun _ => rfl)
  | cons first rest ih =>
    unfold placeTerm
    rw [below first List.mem_cons_self]
    dsimp only
    apply wp_then (ih fun term inside => below term (List.mem_cons_of_mem _ inside))
    rintro result t rfl
    rfl

include exact

theorem contained_insertTerm (sized : exponent.length = n)
    (low : ∀ power ∈ exponent, power ≤ sparseMaxDegree) (contained : Contained n poly) :
    wp (insertTerm engine poly coefficient exponent) (fun result _ => Contained n result) (fun _ _ => True) s := by
  have length : wp (insertTerm engine poly coefficient exponent) (fun result _ => result.length ≤ sparseMaxTerms)
      (fun _ _ => True) s := by
    unfold insertTerm
    apply wp_ite
    · exact fun _ => contained.short
    · intro _
      apply wp_good wp_placeTerm_length
      intro result t known
      have short := contained.short
      rcases known with kept | ⟨grown, room⟩ <;> omega
  apply wp_mono (wp_and (wp_insertTerm exact sized contained.sorted) length) _ (fun _ _ _ => trivial)
  rintro result t ⟨⟨inserted, represents⟩, short⟩
  refine ⟨represents.1, short, fun term inside => ?_⟩
  rcases inserted term inside with same | ⟨old, member, same⟩
  · exact same ▸ low
  · exact same ▸ contained.low old member

variable {terms out : Poly}

theorem contained_insertTerms (within : Within n terms) (contained : Contained n out) :
    wp (insertTerms engine terms out) (fun result _ => Contained n result) (fun _ _ => True) s := by
  induction terms generalizing out s with
  | nil => exact contained
  | cons first rest ih =>
    obtain ⟨sized, low⟩ := within first List.mem_cons_self
    unfold insertTerms
    apply wp_then (contained_insertTerm exact sized low contained)
    exact fun out t known => ih (fun term inside => within term (List.mem_cons_of_mem _ inside)) known

theorem contained_subtractTerms (within : Within n terms) (contained : Contained n out) :
    wp (subtractTerms engine terms out) (fun result _ => Contained n result) (fun _ _ => True) s := by
  induction terms generalizing out s with
  | nil => exact contained
  | cons first rest ih =>
    obtain ⟨sized, low⟩ := within first List.mem_cons_self
    unfold subtractTerms
    apply wp_then (wp_any s)
    intro negative t _
    apply wp_then (contained_insertTerm exact sized low contained)
    exact fun out t known => ih (fun term inside => within term (List.mem_cons_of_mem _ inside)) known

theorem contained_polyAdd {left right : Poly} (first : Contained n left) (second : Contained n right) :
    wp (polyAdd engine left right) (fun result _ => Contained n result) (fun _ _ => True) s := by
  unfold polyAdd
  apply wp_then (contained_insertTerms exact first.within .nil)
  exact fun out t copied => contained_insertTerms exact second.within copied

theorem contained_polySubtract {left right : Poly} (first : Contained n left) (second : Contained n right) :
    wp (polySubtract engine left right) (fun result _ => Contained n result) (fun _ _ => True) s := by
  unfold polySubtract
  apply wp_then (contained_insertTerms exact first.within .nil)
  exact fun out t copied => contained_subtractTerms exact second.within copied

theorem contained_multiplyTerms {first : Term} (length : first.exponent.length = n) (within : Within n terms)
    (contained : Contained n out) : wp (multiplyTerms engine first terms out) (fun result _ => Contained n result)
      (fun _ _ => True) s := by
  induction terms generalizing out s with
  | nil => exact contained
  | cons second rest ih =>
    obtain ⟨sized, -⟩ := within second List.mem_cons_self
    unfold multiplyTerms
    apply wp_then (wp_any s)
    intro _ t _
    rw [wp_bind]
    apply wp_addExponents_low
    intro low
    apply wp_then (wp_any t)
    intro coefficient t _
    apply wp_then (contained_insertTerm exact (length_zipWith length sized) low contained)
    exact fun out t known => ih (fun term inside => within term (List.mem_cons_of_mem _ inside)) known

theorem contained_multiplyRows {right : Poly} (within : Within n terms) (within' : Within n right)
    (contained : Contained n out) : wp (polyMultiply.rows engine right terms out) (fun result _ => Contained n result)
      (fun _ _ => True) s := by
  induction terms generalizing out s with
  | nil => exact contained
  | cons first rest ih =>
    obtain ⟨sized, -⟩ := within first List.mem_cons_self
    unfold polyMultiply.rows
    apply wp_then (contained_multiplyTerms exact sized within' contained)
    exact fun out t known => ih (fun term inside => within term (List.mem_cons_of_mem _ inside)) known

theorem contained_scale (length : exponent.length = n) (within : Within n terms) (contained : Contained n out) :
    wp (polyScaleMonomial.scale engine coefficient exponent terms out) (fun result _ => Contained n result)
      (fun _ _ => True) s := by
  induction terms generalizing out s with
  | nil => exact contained
  | cons first rest ih =>
    obtain ⟨sized, -⟩ := within first List.mem_cons_self
    unfold polyScaleMonomial.scale
    rw [wp_bind]
    apply wp_addExponents_low
    intro low
    apply wp_then (wp_any s)
    intro scaled t _
    apply wp_then (contained_insertTerm exact (length_zipWith sized length) low contained)
    exact fun out t known => ih (fun term inside => within term (List.mem_cons_of_mem _ inside)) known

theorem contained_derivativeTerms (within : Within n terms) (contained : Contained n out) :
    wp (polyDerivative.terms engine terms out) (fun result _ => Contained n result) (fun _ _ => True) s := by
  induction terms generalizing out s with
  | nil => exact contained
  | cons first rest ih =>
    obtain ⟨sized, low⟩ := within first List.mem_cons_self
    have later := fun term inside => within term (List.mem_cons_of_mem first inside)
    unfold polyDerivative.terms
    apply wp_ite
    · exact fun _ => ih later contained
    intro positive
    apply wp_then (wp_any s)
    intro coefficient t _
    rw [wp_bind]
    have lowered : ∀ power ∈ first.exponent.set 0 (first.power 0 - 1), power ≤ sparseMaxDegree := by
      intro power inside
      rcases List.mem_or_eq_of_mem_set inside with old | new
      · exact low power old
      · have member : first.power 0 ∈ first.exponent := by
          cases powers : first.exponent with
          | nil => exact absurd (by rw [Term.power, powers]; rfl) positive
          | cons head others =>
            rw [Term.power, powers]
            exact List.mem_cons_self
        have bound := low _ member
        omega
    apply wp_good (contained_insertTerm exact (by rw [List.length_set, sized]) lowered contained)
    exact fun out t known => ih later known

end

theorem coeff_of_mem {poly : Poly} (sorted : Sorted n poly) {term : Term} (inside : term ∈ poly) :
    coeff (toExponent n term.exponent) (toPolynomial n poly) = term.coefficient := by
  induction poly with
  | nil => cases inside
  | cons first rest ih =>
    rcases List.mem_cons.mp inside with rfl | later
    · exact coeff_leading sorted
    · rw [toPolynomial_cons, coeff_add, ih sorted.tail later, toMonomial, coeff_monomial, if_neg, zero_add]
      exact fun same => (sorted.toSyn_above later).ne (congrArg _ same.symm)

theorem monomialCompare_of_toSyn {left right : List Nat} (sized : left.length = n) (sized' : right.length = n)
    (less : (lexOrder n).toSyn (toExponent n left) < (lexOrder n).toSyn (toExponent n right)) : monomialCompare left right = .lt := by
  cases compared : monomialCompare left right with
  | lt => rfl
  | eq => exact absurd less (by rw [eq_of_monomialCompare (sized.trans sized'.symm) compared]; exact lt_irrefl _)
  | gt =>
    have greater : monomialCompare right left = .lt := by rw [monomialCompare_swap, compared]; rfl
    exact absurd less (toSyn_lt sized' sized greater).not_gt

def Remains (n : Nat) (divisorLeading : Term) (division : Division) : Prop :=
  ∀ part ∈ division.quotient, ∀ term ∈ division.remainder, (lexOrder n).toSyn (toExponent n term.exponent) <
    (lexOrder n).toSyn (toExponent n part.exponent + toExponent n divisorLeading.exponent)

structure Dividing (n : Nat) (dividend divisor : MvPolynomial (Fin n) ℚ) (divisorLeading : Term) (division : Division) : Prop where
  quotient : Contained n division.quotient
  remainder : Contained n division.remainder
  remains : Remains n divisorLeading division
  value : toPolynomial n division.quotient * divisor + toPolynomial n division.remainder = dividend

theorem lowered_of_mem {leading divisorLeading term : Term} {rest divisorRest after : Poly} {c : ℚ}
    (sorted : Sorted n (leading :: rest)) (sorted' : Sorted n (divisorLeading :: divisorRest))
    (reach : toExponent n divisorLeading.exponent ≤ toExponent n leading.exponent)
    (cancels : c * divisorLeading.coefficient = leading.coefficient)
    (represents : Represents n (toPolynomial n (leading :: rest) -
      monomial (toExponent n leading.exponent - toExponent n divisorLeading.exponent) c *
        toPolynomial n (divisorLeading :: divisorRest)) after) (inside : term ∈ after) :
    (lexOrder n).toSyn (toExponent n term.exponent) < (lexOrder n).toSyn (toExponent n leading.exponent) := by
  have nonzero := represents.1.nonzero term inside
  rw [← coeff_of_mem represents.1 inside, represents.2, coeff_sub] at nonzero
  by_contra high
  apply nonzero
  rcases (not_lt.mp high).eq_or_lt with same | late
  · have here : toExponent n term.exponent = toExponent n leading.exponent := ((lexOrder n).toSyn.injective same).symm
    have product := coeff_monomial_mul (toExponent n divisorLeading.exponent)
      (toExponent n leading.exponent - toExponent n divisorLeading.exponent) c (toPolynomial n (divisorLeading :: divisorRest))
    rw [tsub_add_cancel_of_le reach, coeff_leading sorted', cancels] at product
    rw [here, coeff_leading sorted, product, sub_self]
  · have first : coeff (toExponent n term.exponent) (toPolynomial n (leading :: rest)) = 0 := by
      apply (lexOrder n).coeff_eq_zero_of_lt
      rwa [degree_leading sorted]
    have second := Lib.Groebner.coeff_multiple (m := lexOrder n) (f := toPolynomial n (divisorLeading :: divisorRest))
      (a := toExponent n leading.exponent - toExponent n divisorLeading.exponent) (k := toExponent n term.exponent)
      (by rwa [degree_leading sorted', tsub_add_cancel_of_le reach]) c
    rw [first, second, sub_zero]

section
variable {State : Type} {engine : Engine State} (exact : engine.Exact) {s : State}

include exact

variable {divisorLeading : Term} {divisorRest : Poly}

theorem wp_divideLeading {dividend : MvPolynomial (Fin n) ℚ} {leading : Term} {rest quotient : Poly}
    (contained : Contained n (divisorLeading :: divisorRest))
    (dividing : Dividing n dividend (toPolynomial n (divisorLeading :: divisorRest)) divisorLeading ⟨quotient, leading :: rest⟩)
    (divides : monomialDivides divisorLeading.exponent leading.exponent = true) :
    wp (divideLeading engine (divisorLeading :: divisorRest) divisorLeading leading ⟨quotient, leading :: rest⟩)
      (fun division _ => division.quotient.length = quotient.length + 1 ∧
        Dividing n dividend (toPolynomial n (divisorLeading :: divisorRest)) divisorLeading division) (fun _ _ => True) s := by
  have sorted := dividing.remainder.sorted
  have sized := sorted.sized leading List.mem_cons_self
  have sized' := contained.sorted.sized divisorLeading List.mem_cons_self
  have reach := (monomialDivides_iff sized' sized).mp divides
  have length : (List.zipWith (· - ·) leading.exponent divisorLeading.exponent).length = n := length_zipWith sized sized'
  have low : ∀ power ∈ List.zipWith (· - ·) leading.exponent divisorLeading.exponent, power ≤ sparseMaxDegree := by
    intro power inside
    rw [List.mem_iff_getElem] at inside
    obtain ⟨i, bound, rfl⟩ := inside
    rw [List.getElem_zipWith]
    have top := dividing.remainder.low leading List.mem_cons_self _ (List.getElem_mem (by simp at bound; omega : i < _))
    omega
  have below : ∀ part ∈ quotient,
      monomialCompare (List.zipWith (· - ·) leading.exponent divisorLeading.exponent) part.exponent = .lt := by
    intro part inside
    apply monomialCompare_of_toSyn length (dividing.quotient.sorted.sized part inside)
    have apart := dividing.remains part inside leading List.mem_cons_self
    rw [← tsub_add_cancel_of_le reach, map_add, map_add] at apart
    rw [toExponent_sub sized sized']
    exact lt_of_add_lt_add_right apart
  unfold divideLeading
  dsimp only
  apply wp_then (exact.div _ _ _)
  rintro coefficient t ⟨nonzero, rfl⟩
  have factor : leading.coefficient / divisorLeading.coefficient ≠ 0 :=
    div_ne_zero (sorted.nonzero leading List.mem_cons_self) nonzero
  rw [wp_bind]
  have last : wp (insertTerm engine quotient (leading.coefficient / divisorLeading.coefficient)
      (List.zipWith (· - ·) leading.exponent divisorLeading.exponent))
      (fun result _ => result = quotient ++ [⟨leading.coefficient / divisorLeading.coefficient,
        List.zipWith (· - ·) leading.exponent divisorLeading.exponent⟩]) (fun _ _ => True) t := by
    unfold insertTerm
    exact wp_ite (fun zero => absurd zero factor) (fun _ => wp_placeTerm_last below)
  apply wp_mono (wp_and last (wp_and (wp_insertTerm exact length dividing.quotient.sorted)
    (contained_insertTerm exact length low dividing.quotient))) _ (fun _ _ _ => trivial)
  rintro quotient' t ⟨rfl, ⟨-, inserted⟩, filled⟩
  rw [wp_bind]
  have scale : wp (polyScaleMonomial engine (divisorLeading :: divisorRest)
      (leading.coefficient / divisorLeading.coefficient)
      (List.zipWith (· - ·) leading.exponent divisorLeading.exponent)) (fun result _ => Contained n result)
      (fun _ _ => True) t := contained_scale exact length contained.within .nil
  have scaled := wp_and (wp_polyScaleMonomial exact (s := t) (p := toPolynomial n (divisorLeading :: divisorRest))
    ⟨contained.sorted, rfl⟩ (leading.coefficient / divisorLeading.coefficient) length) scale
  apply wp_mono scaled _ (fun _ _ _ => trivial)
  rintro multiple t ⟨represents, within⟩
  rw [wp_bind]
  have difference := wp_and (wp_polySubtract exact (s := t) (p := toPolynomial n (leading :: rest)) ⟨sorted, rfl⟩ represents)
    (contained_polySubtract exact dividing.remainder within)
  apply wp_mono difference _ (fun _ _ _ => trivial)
  rintro remainder t ⟨after, fits⟩
  rw [toExponent_sub sized sized'] at after
  have lowered := fun term inside =>
    @lowered_of_mem _ _ _ term _ _ _ _ sorted contained.sorted reach (div_mul_cancel₀ _ nonzero) after inside
  refine ⟨by rw [List.length_append, List.length_singleton], filled, fits, ?_, ?_⟩
  · intro part inside term inside'
    rcases List.mem_append.mp inside with old | new
    · exact (lowered term inside').trans (dividing.remains part old leading List.mem_cons_self)
    · rw [List.mem_singleton.mp new, toExponent_sub sized sized', tsub_add_cancel_of_le reach]
      exact lowered term inside'
  · have value := dividing.value
    rw [inserted.2, after.2, toExponent_sub sized sized']
    rw [← value]
    ring

theorem wp_divideLoop {dividend : MvPolynomial (Fin n) ℚ}
    (contained : Contained n (divisorLeading :: divisorRest)) (turns : Nat) {division : Division}
    (enough : sparseMaxTerms < division.quotient.length + turns)
    (dividing : Dividing n dividend (toPolynomial n (divisorLeading :: divisorRest)) divisorLeading division) :
    wp (divideLoop engine (divisorLeading :: divisorRest) divisorLeading turns division)
      (fun result _ => Dividing n dividend (toPolynomial n (divisorLeading :: divisorRest)) divisorLeading result ∧
        ∀ leading rest, result.remainder = leading :: rest →
          monomialDivides divisorLeading.exponent leading.exponent = false) (fun _ _ => True) s := by
  induction turns generalizing division s with
  | zero =>
    have short := dividing.quotient.short
    omega
  | succ turns ih =>
    obtain ⟨quotient, remainder⟩ := division
    unfold divideLoop
    cases remainder with
    | nil => exact ⟨dividing, fun leading rest same => nomatch same⟩
    | cons leading rest =>
      apply wp_ite
      · intro divides
        apply wp_then (wp_divideLeading exact contained dividing divides)
        rintro after t ⟨length, next⟩
        apply ih _ next
        rw [length]
        change sparseMaxTerms < quotient.length + (turns + 1) at enough
        omega
      · intro refuses
        refine ⟨dividing, fun leading' rest' same => ?_⟩
        obtain ⟨rfl, -⟩ := List.cons.inj same
        exact eq_false_of_ne_true refuses

omit exact in
theorem monomialDivides_of_dvd {leading : Term} {rest : Poly} (sorted : Sorted n (leading :: rest))
    (sorted' : Sorted n (divisorLeading :: divisorRest))
    (divides : toPolynomial n (divisorLeading :: divisorRest) ∣ toPolynomial n (leading :: rest)) :
    monomialDivides divisorLeading.exponent leading.exponent = true := by
  obtain ⟨factor, product⟩ := divides
  have nonzero := toPolynomial_ne_zero sorted
  rw [product] at nonzero
  rw [monomialDivides_iff (sorted'.sized _ List.mem_cons_self) (sorted.sized _ List.mem_cons_self), ← degree_leading sorted,
    ← degree_leading sorted', product, MonomialOrder.degree_mul (left_ne_zero_of_mul nonzero) (right_ne_zero_of_mul nonzero)]
  exact le_self_add

variable {p q : MvPolynomial (Fin n) ℚ} {left right : Poly}

theorem wp_polyDivideExact (first : Contained n left) (second : Contained n right) : wp (polyDivideExact engine left right)
    (fun result _ => Contained n result.1 ∧ (result.2 = true ↔ toPolynomial n right ∣ toPolynomial n left) ∧
      (result.2 = true → toPolynomial n result.1 * toPolynomial n right = toPolynomial n left)) (fun _ _ => True) s := by
  cases right with
  | nil => exact trivial
  | cons divisorLeading divisorRest =>
    unfold polyDivideExact
    dsimp only
    rw [wp_bind]
    have start : Dividing n (toPolynomial n left) (toPolynomial n (divisorLeading :: divisorRest)) divisorLeading ⟨[], left⟩ :=
      ⟨.nil, first, fun part inside => (List.not_mem_nil inside).elim, by rw [toPolynomial_nil, zero_mul, zero_add]⟩
    apply wp_good (wp_divideLoop exact second (sparseMaxTerms + 1) (by simp) start)
    rintro ⟨quotient, remainder⟩ t ⟨dividing, stuck⟩
    have value := dividing.value
    refine ⟨dividing.quotient, ?_, fun done => ?_⟩
    · rw [decide_eq_true_eq]
      constructor
      · intro none
        change remainder = [] at none
        rw [← value, none, toPolynomial_nil, add_zero]
        exact Dvd.intro_left _ rfl
      · intro divides
        cases remainder with
        | nil => rfl
        | cons leading rest =>
          rw [← value] at divides
          have multiple := (dvd_add_right (Dvd.intro_left _ rfl)).mp divides
          have taken := monomialDivides_of_dvd dividing.remainder.sorted second.sorted multiple
          rw [stuck leading rest rfl] at taken
          cases taken
    · have none : remainder = [] := of_decide_eq_true done
      rw [none, toPolynomial_nil, add_zero] at value
      exact value

theorem contained_polyMultiply (first : Contained n left) (second : Contained n right) :
    wp (polyMultiply engine left right) (fun result _ => Contained n result) (fun _ _ => True) s :=
  contained_multiplyRows exact first.within second.within .nil

theorem contained_multiplyWhen (condition : Bool) (first : Contained n left) (second : Contained n right) :
    wp (multiplyWhen engine condition left right) (fun result _ => Contained n result) (fun _ _ => True) s := by
  unfold multiplyWhen
  exact wp_ite (fun _ => contained_polyMultiply exact first second) (fun _ => first)

theorem contained_powerLoop (turns exponent : Nat) (first : Contained n left) (second : Contained n right) :
    wp (powerLoop engine turns exponent left right) (fun result _ => Contained n result) (fun _ _ => True) s := by
  induction turns generalizing exponent left right s with
  | zero => exact first
  | succ turns ih =>
    unfold powerLoop
    apply wp_ite
    · exact fun _ => first
    intro _
    apply wp_then (contained_multiplyWhen exact _ first second)
    intro result t product
    apply wp_then (contained_multiplyWhen exact _ second second)
    exact fun factor t square => ih (exponent / 2) product square

theorem contained_one : wp (insertTerm engine [] 1 (zeroExponent n)) (fun result _ => Contained n result) (fun _ _ => True) s := by
  apply contained_insertTerm exact length_zeroExponent _ .nil
  intro power inside
  rw [(List.mem_replicate.mp inside).2]
  exact Nat.zero_le _

theorem contained_polyPower (exponent : Nat) (contained : Contained n left) :
    wp (polyPower engine n left exponent) (fun result _ => Contained n result) (fun _ _ => True) s := by
  unfold polyPower
  apply wp_then (contained_one exact)
  exact fun one t first => contained_powerLoop exact 6 exponent first contained

end

def Holds (n : Nat) (value : MvPolynomial (Fin n) ℚ) (poly : Poly) : Prop := Contained n poly ∧ toPolynomial n poly = value

theorem Holds.represents {value : MvPolynomial (Fin n) ℚ} {poly : Poly} (holds : Holds n value poly) : Represents n value poly :=
  ⟨holds.1.sorted, holds.2⟩

/-- Every operation fills its container within the limits, with the value that it stands for. -/
structure FillsContainers {State : Type} (engine : Engine State) (n : Nat) : Prop where
  insert : ∀ p poly coefficient exponent s, Holds n p poly → exponent.length = n → (∀ power ∈ exponent, power ≤ sparseMaxDegree) →
    wp (insertTerm engine poly coefficient exponent)
      (fun result _ => Holds n (p + monomial (toExponent n exponent) coefficient) result) (fun _ _ => True) s
  add : ∀ p q left right s, Holds n p left → Holds n q right →
    wp (polyAdd engine left right) (fun result _ => Holds n (p + q) result) (fun _ _ => True) s
  subtract : ∀ p q left right s, Holds n p left → Holds n q right →
    wp (polySubtract engine left right) (fun result _ => Holds n (p - q) result) (fun _ _ => True) s
  multiply : ∀ p q left right s, Holds n p left → Holds n q right →
    wp (polyMultiply engine left right) (fun result _ => Holds n (p * q) result) (fun _ _ => True) s
  power : ∀ p base exponent s, Holds n p base → exponent ≤ sparseMaxDegree →
    wp (polyPower engine n base exponent) (fun result _ => Holds n (p ^ exponent) result) (fun _ _ => True) s
  scale : ∀ p source coefficient exponent s, Holds n p source → exponent.length = n →
    wp (polyScaleMonomial engine source coefficient exponent)
      (fun result _ => Holds n (monomial (toExponent n exponent) coefficient * p) result) (fun _ _ => True) s
  divide : ∀ p q left right s, Holds n p left → Holds n q right → wp (polyDivideExact engine left right)
    (fun result _ => Contained n result.1 ∧ (result.2 = true ↔ q ∣ p) ∧ (result.2 = true → toPolynomial n result.1 * q = p))
    (fun _ _ => True) s
  derivative : ∀ (first : 0 < n) p source s, Holds n p source → wp (polyDerivative engine source)
    (fun result _ => Holds n (pderiv ⟨0, first⟩ p) result) (fun _ _ => True) s

theorem fillsContainers {State : Type} {engine : Engine State} (exact : engine.Exact) (n : Nat) : FillsContainers engine n where
  insert p poly coefficient exponent s holds sized low := by
    apply wp_mono (wp_and (wp_insertTerm exact sized holds.1.sorted) (contained_insertTerm exact sized low holds.1)) _
      (fun _ _ _ => trivial)
    rintro result t ⟨⟨-, represents⟩, contained⟩
    rw [holds.2] at represents
    exact ⟨contained, represents.2⟩
  add p q left right s first second := by
    apply wp_mono (wp_and (wp_polyAdd exact first.represents second.represents) (contained_polyAdd exact first.1 second.1)) _
      (fun _ _ _ => trivial)
    exact fun result t both => ⟨both.2, both.1.2⟩
  subtract p q left right s first second := by
    apply wp_mono (wp_and (wp_polySubtract exact first.represents second.represents)
      (contained_polySubtract exact first.1 second.1)) _ (fun _ _ _ => trivial)
    exact fun result t both => ⟨both.2, both.1.2⟩
  multiply p q left right s first second := by
    apply wp_mono (wp_and (wp_polyMultiply exact first.represents second.represents)
      (contained_polyMultiply exact first.1 second.1)) _ (fun _ _ _ => trivial)
    exact fun result t both => ⟨both.2, both.1.2⟩
  power p base exponent s holds bound := by
    apply wp_mono (wp_and (wp_polyPower exact holds.represents bound) (contained_polyPower exact exponent holds.1)) _
      (fun _ _ _ => trivial)
    exact fun result t both => ⟨both.2, both.1.2⟩
  scale p source coefficient exponent s holds sized := by
    apply wp_mono (wp_and (wp_polyScaleMonomial exact holds.represents coefficient sized)
      (contained_scale exact sized holds.1.within .nil)) _ (fun _ _ _ => trivial)
    exact fun result t both => ⟨both.2, both.1.2⟩
  divide p q left right s first second := by
    rw [← first.2, ← second.2]
    exact wp_polyDivideExact exact first.1 second.1
  derivative first p source s holds := by
    obtain ⟨m, rfl⟩ := Nat.exists_eq_succ_of_ne_zero first.ne'
    apply wp_mono (wp_and (wp_polyDerivative exact holds.represents) (contained_derivativeTerms exact holds.1.within .nil)) _
      (fun _ _ _ => trivial)
    exact fun result t both => ⟨both.2, both.1.2⟩

end PhyNspire.Cas.SparsePoly

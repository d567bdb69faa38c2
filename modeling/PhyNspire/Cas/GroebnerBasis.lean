import PhyNspire.Cas.SparseExpressions
import PhyNspire.Lib.Groebner

/-!
The basis that sparse_poly.c publishes. A normal form differs from its dividend by a
combination up to the leading exponent of the dividend, and what a basis reduces to zero lies in
its ideal. The pairs that the last check reduces to zero meet Buchberger's criterion; how the
basis was found only matters for its ideal.
-/

namespace PhyNspire.Cas.SparsePoly
open Lib.Stateful Lib.Groebner Ir.Expressions PhyNspire.Exact MvPolynomial

variable {n : Nat}

noncomputable def family (n : Nat) (basis : List Poly) (i : Fin basis.length) : MvPolynomial (Fin n) ℚ :=
  toPolynomial n (basis.get i)

noncomputable def ideal (n : Nat) (basis : List Poly) : Ideal (MvPolynomial (Fin n) ℚ) :=
  Ideal.span {p | p ∈ basis.map (toPolynomial n)}

theorem range_family (basis : List Poly) : Set.range (family n basis) = {p | p ∈ basis.map (toPolynomial n)} := by
  ext p
  rw [Set.mem_range, Set.mem_ofPred_eq, List.mem_map]
  constructor
  · rintro ⟨i, same⟩
    exact ⟨basis.get i, List.get_mem basis i, same⟩
  · rintro ⟨poly, inside, same⟩
    obtain ⟨i, found⟩ := List.get_of_mem inside
    exact ⟨i, by rw [family, found, same]⟩

noncomputable abbrev combinations (n : Nat) (basis : List Poly) (bound : (lexOrder n).syn) :
    Submodule ℚ (MvPolynomial (Fin n) ℚ) :=
  upTo (lexOrder n) (family n basis) bound

theorem mem_ideal_of_combination {basis : List Poly} {bound : (lexOrder n).syn} {p : MvPolynomial (Fin n) ℚ}
    (member : p ∈ combinations n basis bound) : p ∈ ideal n basis := by
  rw [ideal, ← range_family]
  exact upTo_le_ideal bound member

theorem reducer_some {divisors : List Poly} {exponent : List Nat} {divisor : Poly}
    (found : reducer divisors exponent = some divisor) : divisor ∈ divisors ∧
      ∃ leading rest, divisor = leading :: rest ∧ monomialDivides leading.exponent exponent = true := by
  refine ⟨List.mem_of_find?_eq_some found, ?_⟩
  have divides := List.find?_some found
  cases divisor with
  | nil => cases divides
  | cons leading rest => exact ⟨leading, rest, rfl, divides⟩

theorem reducer_none {divisors : List Poly} {exponent : List Nat} (none : reducer divisors exponent = none) {leading : Term}
    {rest : Poly} (inside : leading :: rest ∈ divisors) : monomialDivides leading.exponent exponent ≠ true :=
  List.find?_eq_none.mp none _ inside

/-- No leading monomial divides a term. -/
def Irreducible (divisors : List Poly) (poly : Poly) : Prop := ∀ term ∈ poly, reducer divisors term.exponent = none

theorem Irreducible.inserted {divisors : List Poly} {exponent : List Nat} {before after : Poly}
    (irreducible : Irreducible divisors before) (none : reducer divisors exponent = none)
    (inserted : Inserted exponent before after) : Irreducible divisors after := by
  intro term inside
  rcases inserted term inside with same | ⟨old, member, same⟩
  · rw [same, none]
  · rw [same, irreducible old member]

theorem degree_tail_le {leading : Term} {rest : Poly} (ordered : Sorted n (leading :: rest)) :
    (lexOrder n).toSyn ((lexOrder n).degree (toPolynomial n rest)) ≤
      (lexOrder n).toSyn ((lexOrder n).degree (toPolynomial n (leading :: rest))) := by
  rw [degree_leading ordered]
  cases rest with
  | nil =>
    rw [toPolynomial_nil, (lexOrder n).degree_zero, map_zero]
    exact (lexOrder n).zero_le _
  | cons second rest =>
    rw [degree_leading ordered.tail]
    exact (ordered.toSyn_above List.mem_cons_self).le

section
variable {State : Type} {engine : Engine State} (exact : engine.Exact) {s : State} {divisors : List Poly}

include exact

theorem wp_reduceLeading {work divisor : Poly} {leading divisorLeading : Term} {p q : MvPolynomial (Fin n) ℚ}
    (first : Represents n p work) (second : Represents n q divisor) (sized : leading.exponent.length = n)
    (sized' : divisorLeading.exponent.length = n) : wp (reduceLeading engine work divisor leading divisorLeading)
      (fun result _ => ∃ c, Represents n
        (p - monomial (toExponent n leading.exponent - toExponent n divisorLeading.exponent) c * q) result)
      (fun _ _ => True) s := by
  unfold reduceLeading
  dsimp only
  apply wp_then (exact.div _ _ _)
  intro coefficient t _
  apply wp_then (wp_polyScaleMonomial exact second coefficient (length_zipWith sized sized'))
  intro scaled t multiple
  rw [toExponent_sub sized sized'] at multiple
  apply wp_good (wp_polySubtract exact first multiple)
  exact fun result t difference => ⟨coefficient, difference⟩

omit exact in
theorem multiple_mem {work divisorRest : Poly} {leading divisorLeading : Term} (ordered : Sorted n (leading :: work))
    (ordered' : Sorted n (divisorLeading :: divisorRest)) (inside : divisorLeading :: divisorRest ∈ divisors)
    (divides : monomialDivides divisorLeading.exponent leading.exponent = true) (c : ℚ) :
    monomial (toExponent n leading.exponent - toExponent n divisorLeading.exponent) c *
      toPolynomial n (divisorLeading :: divisorRest) ∈
        combinations n divisors ((lexOrder n).toSyn ((lexOrder n).degree (toPolynomial n (leading :: work)))) := by
  have reach := (monomialDivides_iff (ordered'.sized _ List.mem_cons_self) (ordered.sized _ List.mem_cons_self)).mp divides
  obtain ⟨i, place⟩ := List.get_of_mem inside
  have known := monomial_mem_upTo (m := lexOrder n) (g := family n divisors) i
    (toExponent n leading.exponent - toExponent n divisorLeading.exponent) c
  rw [family, place, degree_leading ordered', tsub_add_cancel_of_le reach] at known
  rwa [degree_leading ordered]

theorem wp_normalFormLoop (sorted : ∀ divisor ∈ divisors, Sorted n divisor) {bound : Fin n →₀ Nat} (turns : Nat)
    {work remainder : Poly} (ordered : Sorted n work)
    (small : (lexOrder n).toSyn ((lexOrder n).degree (toPolynomial n work)) ≤ (lexOrder n).toSyn bound)
    (ordered' : Sorted n remainder) (irreducible : Irreducible divisors remainder) :
    wp (normalFormLoop engine divisors turns work remainder)
      (fun result _ => Sorted n result ∧ Irreducible divisors result ∧ toPolynomial n work + toPolynomial n remainder -
        toPolynomial n result ∈ combinations n divisors ((lexOrder n).toSyn bound)) (fun _ _ => True) s := by
  induction turns generalizing work remainder s with
  | zero => exact trivial
  | succ turns ih =>
    unfold normalFormLoop
    cases work with
    | nil =>
      refine ⟨ordered', irreducible, ?_⟩
      rw [toPolynomial_nil, zero_add, sub_self]
      exact Submodule.zero_mem _
    | cons leading rest =>
      have sized := ordered.sized leading List.mem_cons_self
      dsimp only
      apply wp_then (wp_any s)
      intro _ t _
      cases found : reducer divisors leading.exponent with
      | some divisor =>
        obtain ⟨inside, divisorLeading, divisorRest, rfl, divides⟩ := reducer_some found
        have divisorOrdered := sorted _ inside
        dsimp only
        apply wp_then (wp_reduceLeading exact ⟨ordered, rfl⟩ ⟨divisorOrdered, rfl⟩ sized
          (divisorOrdered.sized _ List.mem_cons_self))
        rintro next u ⟨c, nextOrdered, value⟩
        have multiple := upTo_mono small (multiple_mem ordered divisorOrdered inside divides c)
        have smaller : (lexOrder n).toSyn ((lexOrder n).degree (toPolynomial n next)) ≤ (lexOrder n).toSyn bound := by
          rw [value]
          exact (lexOrder n).degree_sub_le.trans (sup_le small (degree_le_of_mem_upTo multiple))
        apply wp_good (ih nextOrdered smaller ordered' irreducible)
        rintro result v ⟨resultOrdered, resultIrreducible, member⟩
        refine ⟨resultOrdered, resultIrreducible, ?_⟩
        have total := Submodule.add_mem _ member multiple
        rw [value] at total
        convert total using 1
        abel
      | none =>
        dsimp only
        apply wp_then (wp_insertTerm exact sized ordered')
        rintro next u ⟨inserted, nextOrdered, value⟩
        apply wp_good (ih ordered.tail ((degree_tail_le ordered).trans small) nextOrdered (irreducible.inserted found inserted))
        rintro result v ⟨resultOrdered, resultIrreducible, member⟩
        refine ⟨resultOrdered, resultIrreducible, ?_⟩
        rw [value] at member
        convert member using 1
        rw [toPolynomial_cons, toMonomial]
        abel

theorem wp_polyNormalForm (sorted : ∀ divisor ∈ divisors, Sorted n divisor) {dividend : Poly} {p : MvPolynomial (Fin n) ℚ}
    (represents : Represents n p dividend) : wp (polyNormalForm engine dividend divisors)
      (fun result _ => Sorted n result ∧ Irreducible divisors result ∧
        p - toPolynomial n result ∈ combinations n divisors ((lexOrder n).toSyn ((lexOrder n).degree p)))
      (fun _ _ => True) s := by
  have loop := wp_normalFormLoop exact sorted (engine.maxSteps + 1) represents.1 (le_refl _) .nil
    (fun _ inside => absurd inside List.not_mem_nil) (s := s)
  rwa [toPolynomial_nil, add_zero, represents.2] at loop

end

theorem Irreducible.support {divisors : List Poly} (sorted : ∀ divisor ∈ divisors, Sorted n divisor) {poly : Poly}
    (ordered : Sorted n poly) (irreducible : Irreducible divisors poly) {e : Fin n →₀ Nat}
    (inside : e ∈ (toPolynomial n poly).support) {b : MvPolynomial (Fin n) ℚ} (generator : b ∈ divisors.map (toPolynomial n))
    (nonzero : b ≠ 0) : ¬(lexOrder n).degree b ≤ e := by
  intro divides
  obtain ⟨divisor, member, rfl⟩ := List.mem_map.mp generator
  have some : ∃ term ∈ poly, toExponent n term.exponent = e := by
    by_contra none
    push Not at none
    exact mem_support_iff.mp inside (coeff_toPolynomial_of_apart none)
  obtain ⟨term, place, rfl⟩ := some
  cases divisor with
  | nil => exact nonzero rfl
  | cons leading rest =>
    have sorted' := sorted _ member
    rw [degree_leading sorted'] at divides
    exact reducer_none (irreducible term place) member
      ((monomialDivides_iff (sorted'.sized _ List.mem_cons_self) (ordered.sized _ place)).mpr divides)

theorem degree_toPolynomial_ne {leading : Term} {rest : Poly} {p : MvPolynomial (Fin n) ℚ}
    (represents : Represents n p (leading :: rest)) :
    (lexOrder n).degree p = toExponent n leading.exponent ∧ (lexOrder n).leadingCoeff p = leading.coefficient :=
  represents.2 ▸ ⟨degree_leading represents.1, leadingCoeff_leading represents.1⟩

section
variable {State : Type} {engine : Engine State} (exact : engine.Exact) {s : State} {left right : Poly}
  {p q : MvPolynomial (Fin n) ℚ}

include exact

theorem wp_polySPolynomial (first : Represents n p left) (second : Represents n q right) (some : left ≠ [])
    (some' : right ≠ []) : wp (polySPolynomial engine left right)
      (fun result _ => Represents n (sPolynomial (lexOrder n) p q) result) (fun _ _ => True) s := by
  obtain ⟨leftLeading, leftRest, rfl⟩ := List.exists_cons_of_ne_nil some
  obtain ⟨rightLeading, rightRest, rfl⟩ := List.exists_cons_of_ne_nil some'
  have sized := first.1.sized leftLeading List.mem_cons_self
  have sized' := second.1.sized rightLeading List.mem_cons_self
  have common := length_zipWith (f := max) sized sized'
  obtain ⟨degree, leading⟩ := degree_toPolynomial_ne first
  obtain ⟨degree', leading'⟩ := degree_toPolynomial_ne second
  unfold polySPolynomial
  dsimp only
  apply wp_then (exact.div _ _ _)
  rintro leftInverse t ⟨-, rfl⟩
  apply wp_then (exact.div _ _ _)
  rintro rightInverse t ⟨-, rfl⟩
  apply wp_then (wp_polyScaleMonomial exact first _ (length_zipWith common sized))
  intro leftMultiple t multiple
  apply wp_then (wp_polyScaleMonomial exact second _ (length_zipWith common sized'))
  intro rightMultiple t multiple'
  rw [toExponent_sub common sized, toExponent_max sized sized', one_div, ← degree, ← degree', ← leading] at multiple
  rw [toExponent_sub common sized', toExponent_max sized sized', one_div, ← degree, ← degree', ← leading'] at multiple'
  exact wp_polySubtract exact multiple multiple'

theorem wp_polySPolynomial_mem {J : Ideal (MvPolynomial (Fin n) ℚ)} (first : Sorted n left) (second : Sorted n right)
    (inside : toPolynomial n left ∈ J) (inside' : toPolynomial n right ∈ J) : wp (polySPolynomial engine left right)
      (fun result _ => Sorted n result ∧ toPolynomial n result ∈ J) (fun _ _ => True) s := by
  by_cases none : left = [] ∨ right = []
  · have nothing : polySPolynomial engine left right = pure [] := by
      rcases none with rfl | rfl
      · rfl
      · cases left <;> rfl
    rw [nothing]
    exact ⟨.nil, J.zero_mem⟩
  · push Not at none
    apply wp_good (wp_polySPolynomial exact ⟨first, rfl⟩ ⟨second, rfl⟩ none.1 none.2)
    intro result t ⟨ordered, value⟩
    refine ⟨ordered, ?_⟩
    rw [value, sPolynomial]
    exact J.sub_mem (J.mul_mem_left _ inside) (J.mul_mem_left _ inside')

end

/-- What is known of the basis while it grows: its elements are sorted, not zero and in the ideal. -/
structure Grown (n : Nat) (J : Ideal (MvPolynomial (Fin n) ℚ)) (basis : List Poly) : Prop where
  sorted : ∀ poly ∈ basis, Sorted n poly
  proper : ∀ poly ∈ basis, poly ≠ []
  inside : ∀ poly ∈ basis, toPolynomial n poly ∈ J

namespace Grown
variable {J : Ideal (MvPolynomial (Fin n) ℚ)} {basis : List Poly}

theorem nil : Grown n J [] := ⟨by simp, by simp, by simp⟩

theorem append (grown : Grown n J basis) {poly : Poly} (sorted : Sorted n poly) (proper : poly ≠ [])
    (inside : toPolynomial n poly ∈ J) : Grown n J (basis ++ [poly]) := by
  constructor
  all_goals
    intro other member
    rcases List.mem_append.mp member with old | new
  · exact grown.sorted other old
  · rwa [List.mem_singleton.mp new]
  · exact grown.proper other old
  · rwa [List.mem_singleton.mp new]
  · exact grown.inside other old
  · rwa [List.mem_singleton.mp new]

theorem ideal_le (grown : Grown n J basis) : ideal n basis ≤ J := by
  apply Ideal.span_le.mpr
  intro p member
  obtain ⟨poly, inside, rfl⟩ := List.mem_map.mp member
  exact grown.inside poly inside

theorem getD (grown : Grown n J basis) (i : Nat) : Sorted n (basis.getD i []) ∧ toPolynomial n (basis.getD i []) ∈ J := by
  rw [List.getD_eq_getElem?_getD]
  by_cases bound : i < basis.length
  · rw [List.getElem?_eq_getElem bound]
    exact ⟨grown.sorted _ (List.getElem_mem bound), grown.inside _ (List.getElem_mem bound)⟩
  · rw [List.getElem?_eq_none (not_lt.mp bound)]
    exact ⟨.nil, J.zero_mem⟩

end Grown

section
variable {State : Type} {engine : Engine State} (exact : engine.Exact) {s : State}
  {J : Ideal (MvPolynomial (Fin n) ℚ)}

include exact

theorem wp_polyNormalForm_mem {basis : List Poly} (grown : Grown n J basis) {dividend : Poly} (sorted : Sorted n dividend)
    (inside : toPolynomial n dividend ∈ J) : wp (polyNormalForm engine dividend basis)
      (fun result _ => Sorted n result ∧ toPolynomial n result ∈ J) (fun _ _ => True) s := by
  apply wp_good (wp_polyNormalForm exact grown.sorted ⟨sorted, rfl⟩)
  rintro result t ⟨ordered, -, member⟩
  refine ⟨ordered, ?_⟩
  have remainder := J.sub_mem inside (grown.ideal_le (mem_ideal_of_combination member))
  rwa [sub_sub_cancel] at remainder

theorem wp_extendBasis {growth : Growth} (grown : Grown n J growth.basis) (pairCount : Nat) {remainder : Poly}
    (sorted : Sorted n remainder) (inside : toPolynomial n remainder ∈ J) :
    wp (extendBasis engine growth pairCount remainder) (fun result _ => Grown n J result.basis) (fun _ _ => True) s := by
  unfold extendBasis
  apply wp_ite
  · exact fun _ => grown
  intro some
  apply wp_ite
  · exact fun _ => trivial
  intro _
  apply wp_then (wp_polyMakeMonic exact sorted)
  rintro monic t ⟨c, nonzero, ordered, value⟩
  apply wp_ite
  · exact fun _ => trivial
  intro _
  apply grown.append ordered
  · rw [ne_eq, ← toPolynomial_eq_zero_iff ordered, value, mul_eq_zero, not_or, toPolynomial_eq_zero_iff sorted]
    exact ⟨fun zero => nonzero (C_eq_zero.mp zero), some⟩
  · rw [value]
    exact J.mul_mem_left _ inside

theorem wp_completeBasis (turns cursor : Nat) {growth : Growth} (grown : Grown n J growth.basis) :
    wp (completeBasis engine turns cursor growth) (fun basis _ => Grown n J basis) (fun _ _ => True) s := by
  induction turns generalizing cursor growth s with
  | zero =>
    unfold completeBasis
    exact wp_ite (fun _ => grown) (fun _ => trivial)
  | succ turns ih =>
    unfold completeBasis
    split
    · exact grown
    rename_i left right pairs waiting
    have first := grown.getD left
    have second := grown.getD right
    apply wp_then (wp_polySPolynomial_mem exact first.1 second.1 first.2 second.2)
    rintro sPolynomial t ⟨sorted, inside⟩
    apply wp_then (wp_polyNormalForm_mem exact grown sorted inside)
    rintro remainder t ⟨sorted, inside⟩
    rw [wp_bind]
    have waiting : Grown n J (⟨growth.basis, pairs⟩ : Growth).basis := grown
    apply wp_good (wp_extendBasis exact waiting _ sorted inside)
    exact fun growth t grown => ih (cursor + 1) grown

end

section
variable {State : Type} {engine : Engine State} (exact : engine.Exact) {s : State} {symbols : List Name}

include exact

theorem wp_startBasis {J : Ideal (MvPolynomial (Fin symbols.length) ℚ)} {expressions : List Expr}
    (generators : ∀ e ∈ expressions, ∀ p, denote symbols e = some p → p ∈ J) {growth : Growth}
    (grown : Grown symbols.length J growth.basis) : wp (startBasis engine symbols expressions growth)
      (fun growth _ => Grown symbols.length J growth.basis) (fun _ _ => True) s := by
  induction expressions generalizing growth s with
  | nil => exact grown
  | cons expression rest ih =>
    unfold startBasis
    apply wp_then (wp_polyFromIrNode exact symbols expression s)
    rintro candidate t ⟨p, known, sorted, value⟩
    have inside : toPolynomial symbols.length candidate ∈ J := value ▸ generators expression List.mem_cons_self p known
    apply wp_then (wp_polyNormalForm_mem exact grown sorted inside)
    rintro remainder t ⟨sorted, inside⟩
    apply wp_then (wp_extendBasis exact grown _ sorted inside)
    exact fun growth t grown => ih (fun e later => generators e (List.mem_cons_of_mem _ later)) grown

theorem wp_certifyGenerators {basis : List Poly} (sorted : ∀ poly ∈ basis, Sorted symbols.length poly)
    {expressions : List Expr} : wp (certifyGenerators engine symbols basis expressions)
      (fun _ _ => ∃ ps, denoteAll symbols expressions = some ps ∧ ∀ p ∈ ps, p ∈ ideal symbols.length basis)
      (fun _ _ => True) s := by
  induction expressions generalizing s with
  | nil => exact ⟨[], denoteAll_nil, by simp⟩
  | cons expression rest ih =>
    unfold certifyGenerators
    apply wp_then (wp_polyFromIrNode exact symbols expression s)
    rintro candidate t ⟨p, known, represents⟩
    apply wp_then (wp_polyNormalForm exact sorted represents)
    rintro remainder u ⟨-, -, member⟩
    apply wp_ite
    · exact fun _ => trivial
    intro zero
    rw [not_not.mp zero, toPolynomial_nil, sub_zero] at member
    apply wp_good (ih (s := u))
    rintro _ v ⟨ps, known', members⟩
    refine ⟨p :: ps, denoteAll_cons known known', fun q inside => ?_⟩
    rcases List.mem_cons.mp inside with rfl | later
    · exact mem_ideal_of_combination member
    · exact members q later

end

def Reduces (n : Nat) (basis : List Poly) (i j : Nat) : Prop :=
  let spoly := sPolynomial (lexOrder n) (toPolynomial n (basis.getD i [])) (toPolynomial n (basis.getD j []))
  spoly ∈ combinations n basis ((lexOrder n).toSyn ((lexOrder n).degree spoly))

theorem getD_mem {basis : List Poly} {i : Nat} (inside : i < basis.length) : basis.getD i [] ∈ basis := by
  rw [List.getD_eq_getElem?_getD, List.getElem?_eq_getElem inside]
  exact List.getElem_mem inside

section
variable {State : Type} {engine : Engine State} (exact : engine.Exact) {s : State} {basis : List Poly}
  (sorted : ∀ poly ∈ basis, Sorted n poly) (proper : ∀ poly ∈ basis, poly ≠ [])

include exact sorted proper

theorem wp_certifyPair {left right : Nat} (inside : left < basis.length) (inside' : right < basis.length) :
    wp (certifyPair engine basis left right) (fun _ _ => Reduces n basis left right) (fun _ _ => True) s := by
  have first := getD_mem inside
  have second := getD_mem inside'
  unfold certifyPair
  apply wp_then (wp_polySPolynomial exact ⟨sorted _ first, rfl⟩ ⟨sorted _ second, rfl⟩ (proper _ first) (proper _ second))
  intro spoly t represents
  apply wp_then (wp_polyNormalForm exact sorted represents)
  rintro remainder u ⟨-, -, member⟩
  apply wp_ite
  · exact fun _ => trivial
  · intro zero
    rwa [not_not.mp zero, toPolynomial_nil, sub_zero] at member

theorem wp_certifyRow {left : Nat} (inside : left < basis.length) :
    wp (countUp (fun right _ => certifyPair engine basis left right) (basis.length - (left + 1)) (left + 1) ())
      (fun _ _ => ∀ j, left < j → j < basis.length → Reduces n basis left j) (fun _ _ => True) s := by
  have row : wp (countUp (fun right _ => certifyPair engine basis left right) (basis.length - (left + 1)) (left + 1) ())
      (fun _ _ => ∀ j, left < j → j < left + 1 + (basis.length - (left + 1)) → Reduces n basis left j) (fun _ _ => True) s := by
    apply wp_countUp (fun column _ _ => ∀ j, left < j → j < column → Reduces n basis left j)
    · intro j above below
      omega
    intro right _ s above below earlier
    apply wp_good (wp_certifyPair exact sorted proper inside (by omega))
    intro _ t reduces j after before
    rcases Nat.lt_succ_iff_lt_or_eq.mp before with old | rfl
    · exact earlier j after old
    · exact reduces
  apply wp_good row
  exact fun _ t all j above below => all j above (by omega)

theorem wp_certifyPairs : wp (certifyPairs engine basis)
    (fun _ _ => ∀ i j, i < j → j < basis.length → Reduces n basis i j) (fun _ _ => True) s := by
  have rows : wp (certifyPairs engine basis)
      (fun _ _ => ∀ i j, i < 0 + basis.length → i < j → j < basis.length → Reduces n basis i j) (fun _ _ => True) s := by
    unfold certifyPairs
    apply wp_countUp (fun row _ _ => ∀ i j, i < row → i < j → j < basis.length → Reduces n basis i j)
    · intro i j before
      omega
    intro left _ s _ bound earlier
    apply wp_good (wp_certifyRow exact sorted proper (by omega))
    intro _ t row i j below less inside
    rcases Nat.lt_succ_iff_lt_or_eq.mp below with old | rfl
    · exact earlier i j old less inside
    · exact row j less inside
  apply wp_good rows
  exact fun _ t all i j less inside => all i j (by omega) less inside

omit exact in
theorem isBasis_of_reduces (reduces : ∀ i j, i < j → j < basis.length → Reduces n basis i j) :
    IsBasis (lexOrder n) {p | p ∈ basis.map (toPolynomial n)} := by
  have nonzero (i : Fin basis.length) : family n basis i ≠ 0 := by
    intro zero
    have inside := List.get_mem basis i
    exact proper _ inside ((toPolynomial_eq_zero_iff (sorted _ inside)).mp zero)
  have place (i : Fin basis.length) : basis.getD i [] = basis.get i := by
    rw [List.getD_eq_getElem?_getD, List.getElem?_eq_getElem i.isLt]
    rfl
  rw [← range_family]
  apply isBasis_range nonzero
  apply confluent_of_pairs nonzero
  intro i j less
  have pair := reduces i j less j.isLt
  unfold Reduces at pair
  rwa [place, place] at pair

end

structure IsCertified (symbols : List Name) (expressions : List Expr) (basis : List Poly)
    (ps : List (MvPolynomial (Fin symbols.length) ℚ)) : Prop where
  sorted : ∀ poly ∈ basis, Sorted symbols.length poly
  generators : denoteAll symbols expressions = some ps
  same : ideal symbols.length basis = Ideal.span {p | p ∈ ps}
  isBasis : IsBasis (lexOrder symbols.length) {p | p ∈ basis.map (toPolynomial symbols.length)}

section
variable {State : Type} {engine : Engine State} (exact : engine.Exact) {s : State} {symbols : List Name}

theorem mem_of_denoteAll {expressions : List Expr} {ps : List (MvPolynomial (Fin symbols.length) ℚ)}
    (known : denoteAll symbols expressions = some ps) {e : Expr} (inside : e ∈ expressions)
    {p : MvPolynomial (Fin symbols.length) ℚ} (value : denote symbols e = some p) : p ∈ ps := by
  induction expressions generalizing ps with
  | nil => cases inside
  | cons first rest ih =>
    rw [denoteAll] at known
    cases head : denote symbols first with
    | none => rw [head] at known; cases known
    | some q =>
      cases later : denoteAll symbols rest with
      | none => rw [head, later] at known; cases known
      | some qs =>
        rw [head, later] at known
        cases known
        rcases List.mem_cons.mp inside with rfl | deeper
        · rw [head] at value
          cases value
          exact List.mem_cons_self
        · exact List.mem_cons_of_mem _ (ih later deeper)

include exact

theorem wp_groebnerCompute (expressions : List Expr) : wp (groebnerCompute engine expressions symbols)
    (fun basis _ => ∃ ps, IsCertified symbols expressions basis ps) (fun _ _ => True) s := by
  let J : Ideal (MvPolynomial (Fin symbols.length) ℚ) := Ideal.span {p | ∃ e ∈ expressions, denote symbols e = some p}
  have generators : ∀ e ∈ expressions, ∀ p, denote symbols e = some p → p ∈ J :=
    fun e inside p value => Ideal.subset_span ⟨e, inside, value⟩
  unfold groebnerCompute
  apply wp_then (wp_startBasis exact generators .nil)
  intro growth t grown
  apply wp_then (wp_completeBasis exact sparseMaxPairs 0 grown)
  intro basis t grown
  apply wp_then (wp_certifyGenerators exact grown.sorted)
  rintro _ t ⟨ps, known, members⟩
  apply wp_then (wp_certifyPairs exact grown.sorted grown.proper)
  intro _ t reduces
  refine ⟨ps, grown.sorted, known, le_antisymm ?_ (Ideal.span_le.mpr members), isBasis_of_reduces grown.sorted grown.proper reduces⟩
  apply grown.ideal_le.trans
  apply Ideal.span_mono
  rintro p ⟨e, inside, value⟩
  exact mem_of_denoteAll known inside value

theorem IsCertified.wp_polyNormalForm {expressions : List Expr} {basis : List Poly}
    {ps : List (MvPolynomial (Fin symbols.length) ℚ)} (certified : IsCertified symbols expressions basis ps) {dividend : Poly}
    {p : MvPolynomial (Fin symbols.length) ℚ} (represents : Represents symbols.length p dividend) :
    wp (polyNormalForm engine dividend basis) (fun result _ => p ∈ ideal symbols.length basis ↔ result = [])
      (fun _ _ => True) s := by
  apply wp_good (SparsePoly.wp_polyNormalForm exact certified.sorted represents)
  rintro result t ⟨ordered, irreducible, member⟩
  rw [← toPolynomial_eq_zero_iff ordered]
  exact certified.isBasis.mem_iff (mem_ideal_of_combination member) fun e inside b generator nonzero =>
    irreducible.support certified.sorted ordered inside generator nonzero

end

/-- What an answer promises: it lists polynomials in the symbols, which generate the ideal of the given ones and reduce
exactly its elements to zero; the ideal is the whole ring when one of them is a constant that is not zero, and only then. -/
def AnswersBasis {State : Type} (engine : Engine State) (expressions symbols : List Expr) (answer : Expr) : Prop :=
  ∃ names ps elements gs, validateExplicitVariables.names symbols = some names ∧ names.Nodup ∧
    denoteAll names expressions = some ps ∧ answer = .node (.function listHead) elements ∧
    denoteAll names elements = some gs ∧ Ideal.span {g | g ∈ gs} = Ideal.span {p | p ∈ ps} ∧
    IsBasis (lexOrder names.length) {g | g ∈ gs} ∧
    (∃ basis : List Poly, (∀ poly ∈ basis, Sorted names.length poly) ∧ basis.map (toPolynomial names.length) = gs ∧
      ∀ p dividend t, Represents names.length p dividend → wp (polyNormalForm engine dividend basis)
        (fun result _ => p ∈ Ideal.span {q | q ∈ ps} ↔ result = []) (fun _ _ => True) t) ∧
    (Ideal.span {p | p ∈ ps} = ⊤ ↔ ∃ g ∈ gs, ∃ c : ℚ, c ≠ 0 ∧ g = C c)

theorem names_eq {symbols : List Expr} {names : List Name} (known : validateExplicitVariables.names symbols = some names)
    {name : Name} (inside : name ∈ names) : ∃ children, .node (.symbol name) children ∈ symbols := by
  induction symbols generalizing names with
  | nil => cases known; cases inside
  | cons first rest ih =>
    unfold validateExplicitVariables.names at known
    split at known
    · cases known; cases inside
    · rename_i head children others same
      obtain ⟨rfl, rfl⟩ := List.cons.inj same
      cases later : validateExplicitVariables.names rest with
      | none => rw [later] at known; cases known
      | some names' =>
        rw [later] at known
        cases known
        rcases List.mem_cons.mp inside with rfl | deeper
        · exact ⟨children, List.mem_cons_self⟩
        · obtain ⟨children, member⟩ := ih later deeper
          exact ⟨children, List.mem_cons_of_mem _ member⟩
    · cases known

theorem wp_validateExplicitVariables {State : Type} (symbols : List Expr) (s : State) :
    wp (validateExplicitVariables symbols) (fun names _ => validateExplicitVariables.names symbols = some names ∧ names.Nodup)
      (fun _ _ => True) s := by
  unfold validateExplicitVariables
  apply wp_ite
  · exact fun _ => trivial
  intro _
  cases known : validateExplicitVariables.names symbols with
  | none => exact trivial
  | some names => exact wp_ite (fun distinct => ⟨rfl, distinct⟩) (fun _ => trivial)

/-- Without the imaginary unit among the symbols, every answer is a Groebner basis of the given polynomials. -/
theorem groebner_basis_answers {State : Type} {engine : Engine State} (exact : engine.Exact) (keeps : engine.Keeps)
    (expressions symbols : List Expr) (indeterminates : ∀ children, .node (.symbol imaginaryUnit) children ∉ symbols)
    (s : State) : wp (sparseGroebnerBasis engine expressions symbols)
      (fun answer _ => AnswersBasis engine expressions symbols answer) (fun _ _ => True) s := by
  unfold sparseGroebnerBasis
  apply wp_ite
  · exact fun _ => trivial
  intro _
  apply wp_then (wp_validateExplicitVariables symbols s)
  rintro names t ⟨known, distinct⟩
  have indeterminate : imaginaryUnit ∉ names := by
    intro inside
    obtain ⟨children, member⟩ := names_eq known inside
    exact indeterminates children member
  apply wp_then (wp_groebnerCompute exact expressions)
  rintro basis t ⟨ps, certified⟩
  apply wp_then (wp_publish keeps indeterminate distinct certified.sorted)
  intro elements t published
  apply (keeps.function listHead elements).use
  intro t
  have same := certified.same
  refine ⟨names, ps, elements, _, known, distinct, certified.generators, rfl, published, same, certified.isBasis,
    ⟨basis, certified.sorted, rfl, fun p dividend t represents => ?_⟩, ?_⟩
  · rw [← same]
    exact certified.wp_polyNormalForm exact represents
  · rw [← same]
    exact certified.isBasis.eq_top_iff

/-- Nodes as they are given, but for single operands and the powers of the imaginary unit. -/
def plain : Engine Unit where
  exactAdd p q := pure (p + q)
  exactSub p q := pure (p - q)
  exactMul p q := pure (p * q)
  exactDiv p q := if q = 0 then throw .domain else pure (p / q)
  step := pure ()
  maxSteps := 64
  powNode base exponent := pure <|
    if base = .node (.symbol imaginaryUnit) [] ∧ exponent = .node (.exact 2) [] then .node (.exact (-1)) []
    else .node .pow [base, exponent]
  mulNode factors := pure <| if factors.length = 1 then factors.headD (.node (.exact 1) []) else .node .mul factors
  addNode terms := pure <| if terms.length = 1 then terms.headD (.node (.exact 0) []) else .node .add terms
  functionNode head children := pure (.node (.function head) children)

theorem plain_exact : plain.Exact where
  add _ _ _ := rfl
  sub _ _ _ := rfl
  mul _ _ _ := rfl
  div _ _ _ := wp_ite (fun _ => trivial) (fun nonzero => ⟨nonzero, rfl⟩)

theorem denoteAll_single {symbols : List Name} {children : List Expr} {ps : List (MvPolynomial (Fin symbols.length) ℚ)}
    (single : children.length = 1) (values : denoteAll symbols children = some ps) (other : Expr) :
    ∃ p, ps = [p] ∧ denote symbols (children.headD other) = some p := by
  obtain ⟨child, rfl⟩ := List.length_eq_one_iff.mp single
  rw [denoteAll, denoteAll_nil] at values
  cases value : denote symbols child with
  | none => rw [value] at values; cases values
  | some p =>
    rw [value] at values
    cases values
    exact ⟨p, rfl, value⟩

theorem plain_mul {symbols : List Name} {factors : List Expr} {ps : List (MvPolynomial (Fin symbols.length) ℚ)}
    (values : denoteAll symbols factors = some ps) (s : Unit) :
    wp (plain.mulNode factors) (fun result _ => denote symbols result = some ps.prod) (fun _ _ => True) s := by
  change denote symbols (if _ then _ else _) = _
  split
  · rename_i single
    obtain ⟨p, rfl, value⟩ := denoteAll_single single values _
    rw [value, List.prod_singleton]
  · rw [denote, values]
    rfl

theorem plain_add {symbols : List Name} {terms : List Expr} {ps : List (MvPolynomial (Fin symbols.length) ℚ)}
    (values : denoteAll symbols terms = some ps) (s : Unit) :
    wp (plain.addNode terms) (fun result _ => denote symbols result = some ps.sum) (fun _ _ => True) s := by
  change denote symbols (if _ then _ else _) = _
  split
  · rename_i single
    obtain ⟨p, rfl, value⟩ := denoteAll_single single values _
    rw [value, List.sum_singleton]
  · rw [denote, values]
    rfl

theorem plain_keeps : plain.Keeps where
  pow symbols name p k s indeterminate value := by
    have other : name ≠ imaginaryUnit := by
      rintro rfl
      have absent : ¬symbols.idxOf imaginaryUnit < symbols.length := fun inside => indeterminate (List.idxOf_lt_length_iff.mp inside)
      rw [denote, dif_neg absent] at value
      cases value
    have different : ¬((.node (.symbol name) [] : Expr) = .node (.symbol imaginaryUnit) [] ∧
        (.node (.exact k) [] : Expr) = .node (.exact 2) []) := by
      rintro ⟨same, -⟩
      cases same
      exact other rfl
    change denote symbols (if _ then _ else _) = _
    rw [if_neg different, denote, if_pos ⟨Rat.den_natCast k, by rw [Rat.num_natCast]; exact Int.natCast_nonneg k⟩, value,
      Rat.num_natCast]
    rfl
  mul _ _ _ s _ values := plain_mul values s
  add _ _ _ s _ values := plain_add values s
  function _ _ _ := rfl

def symbolNode (name : Name) : Expr := .node (.symbol name) []

/-- The polynomials `x*y + y^2` and `x`, whose basis has `y^2` besides. -/
theorem groebner_basis_answers_of_plane : (∀ children, .node (.symbol imaginaryUnit) children ∉ [symbolNode [120], symbolNode [121]]) ∧
    ∃ answer, sparseGroebnerBasis plain
      [.node .add [.node .mul [symbolNode [120], symbolNode [121]], .node .pow [symbolNode [121], .node (.exact 2) []]],
        symbolNode [120]] [symbolNode [120], symbolNode [121]] () = .ok answer () ∧
      AnswersBasis plain
        [.node .add [.node .mul [symbolNode [120], symbolNode [121]], .node .pow [symbolNode [121], .node (.exact 2) []]],
          symbolNode [120]] [symbolNode [120], symbolNode [121]] answer := by
  have indeterminates : ∀ children, .node (.symbol imaginaryUnit) children ∉ [symbolNode [120], symbolNode [121]] := by
    intro children inside
    rcases List.mem_cons.mp inside with same | later
    · cases same
    · cases List.mem_singleton.mp later
  refine ⟨indeterminates, ?_⟩
  obtain ⟨answer, t, run, promised⟩ := wp_returns (groebner_basis_answers plain_exact plain_keeps
    [.node .add [.node .mul [symbolNode [120], symbolNode [121]], .node .pow [symbolNode [121], .node (.exact 2) []]],
      symbolNode [120]] [symbolNode [120], symbolNode [121]] indeterminates ()) (by decide +kernel)
  exact ⟨answer, run, promised⟩

/-- With the imaginary unit as a symbol, `I*(I + x)` is read as a polynomial in `I`, and its square is written as `-1`. -/
theorem groebner_basis_imaginary : ∃ answer, valueOf (sparseGroebnerBasis plain
      [.node .mul [symbolNode imaginaryUnit, .node .add [symbolNode imaginaryUnit, symbolNode [120]]]]
      [symbolNode imaginaryUnit, symbolNode [120]]) () = some answer ∧
    ¬AnswersBasis plain [.node .mul [symbolNode imaginaryUnit, .node .add [symbolNode imaginaryUnit, symbolNode [120]]]]
      [symbolNode imaginaryUnit, symbolNode [120]] answer := by
  refine ⟨.node (.function listHead) [.node .add [.node (.exact (-1)) [], .node .mul [symbolNode imaginaryUnit, symbolNode [120]]]],
    by decide +kernel, ?_⟩
  rintro ⟨names, ps, elements, gs, known, -, denoted, same, published, ideals, -⟩
  obtain rfl : names = [imaginaryUnit, [120]] := (Option.some.inj known).symm
  obtain ⟨-, rfl⟩ := (Lib.Trees.Rose.node.injEq _ _ _ _).mp same
  have first : denote [imaginaryUnit, [120]] (symbolNode imaginaryUnit) = some (X 0) := denote_symbol (by decide) []
  have second : denote [imaginaryUnit, [120]] (symbolNode [120]) = some (X 1) := denote_symbol (by decide) []
  have sum : denote [imaginaryUnit, [120]] (.node .add [symbolNode imaginaryUnit, symbolNode [120]]) = some (X 0 + X 1) := by
    rw [denote, denoteAll_cons first (denoteAll_cons second denoteAll_nil)]
    simp
  have read : denoteAll [imaginaryUnit, [120]]
      [.node .mul [symbolNode imaginaryUnit, .node .add [symbolNode imaginaryUnit, symbolNode [120]]]] =
        some [X 0 * (X 0 + X 1)] := by
    apply denoteAll_cons _ denoteAll_nil
    rw [denote, denoteAll_cons first (denoteAll_cons sum denoteAll_nil)]
    simp
  have written : denoteAll [imaginaryUnit, [120]]
      [.node .add [.node (.exact (-1)) [], .node .mul [symbolNode imaginaryUnit, symbolNode [120]]]] =
        some [C (-1) + X 0 * X 1] := by
    have product : denote [imaginaryUnit, [120]] (.node .mul [symbolNode imaginaryUnit, symbolNode [120]]) = some (X 0 * X 1) := by
      rw [denote, denoteAll_cons first (denoteAll_cons second denoteAll_nil)]
      simp
    apply denoteAll_cons _ denoteAll_nil
    rw [denote, denoteAll_cons (denote_exact (-1) []) (denoteAll_cons product denoteAll_nil)]
    simp
  rw [read] at denoted
  rw [written] at published
  cases denoted
  cases published
  have member := ideals.le (Ideal.subset_span List.mem_cons_self)
  -- the generator vanishes at the origin, what is published does not
  have vanishes : Ideal.span {p | p ∈ [X 0 * (X 0 + X 1)]} ≤
      RingHom.ker (eval (0 : Fin [imaginaryUnit, ([120] : Name)].length → ℚ)) := by
    apply Ideal.span_le.mpr
    intro p inside
    rw [List.mem_singleton.mp inside]
    simp
  have zero := vanishes member
  simp at zero

end PhyNspire.Cas.SparsePoly

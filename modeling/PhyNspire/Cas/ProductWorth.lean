import PhyNspire.Cas.SumWorth

/-!
Products keep their value. The collector adds the exponents of equal bases, moves the sign of a negated
sum into the coefficient, and builds the powers again; the product of the factors stays what it was.
-/

namespace PhyNspire.Cas.Core
open Lib Lib.Trees Ir.Expressions Ir.Sums Num
open Values Reading
open SparsePoly (integerValue)

variable {K : Type} [Field K] [DecidableEq K] {truth : Truth}

/-- What the functions that call one another must do with a value. -/
structure Calls.Sound (inner : Calls) (truth : Truth) (reading : Reading K) : Prop where
  add : ∀ terms, Meets truth (inner.addNode terms) fun r => reading.Keeps (.node .add terms) r
  mul : ∀ factors, Meets truth (inner.mulNode factors) fun r => reading.Keeps (.node .mul factors) r
  pow : ∀ base exponent, Meets truth (inner.powNode base exponent) fun r => reading.Keeps (.node .pow [base, exponent]) r
  addExact : ∀ p q, Meets truth (inner.addNode [exactNode p, exactNode q]) fun r => r = exactNode (p + q)
  mulExact : ∀ p q, Meets truth (inner.mulNode [exactNode p, exactNode q]) fun r => r = exactNode (p * q)
  powZero : ∀ base v, reading.eval base = some v → Meets truth (inner.powNode base (exactNode 0)) fun r => r = one

/-- The factor of a pair. -/
def powerTerm : Option Expr × Expr → Expr
  | (none, _) => one
  | (some base, exponent) => .node .pow [base, exponent]

section Factors

variable {reading : Reading K}

theorem eval_power_one (base : Expr) : reading.Keeps base (.node .pow [base, one]) := by
  intro p known
  rw [one, eval_pow, known, Option.bind_some, raise_one_exponent]

theorem keeps_splitPower (factor : Expr) :
    reading.Keeps factor (powerTerm (some (splitPower factor).1, (splitPower factor).2)) := by
  unfold splitPower
  split
  · exact .refl _
  · exact eval_power_one factor

theorem keeps_dropOne {exprs : List Expr} : reading.Keeps (.node .mul (exactNode 1 :: exprs)) (.node .mul exprs) := by
  intro p known
  obtain ⟨u, v, same, worth, rfl⟩ := (eval_cons (.inr rfl)).mp known
  rw [eval_exact, Rat.cast_one] at same
  cases same
  rw [worth, combine_mul, List.prod_pair, one_mul]

theorem keeps_addOne (exprs : List Expr) : reading.Keeps (.node .mul exprs) (.node .mul (exactNode 1 :: exprs)) := by
  intro p known
  refine (eval_cons (.inr rfl)).mpr ⟨1, p, by rw [eval_exact, Rat.cast_one], known, ?_⟩
  rw [combine_mul, List.prod_pair, one_mul]

theorem keeps_coefficient (factors : List Expr) (coefficient : ℚ) :
    reading.Keeps (.node .mul (exactNode coefficient :: factors))
      (.node .mul (if coefficient = 1 then factors else factors ++ [exactNode coefficient])) := by
  split
  · rename_i one
    rw [one]
    exact keeps_dropOne
  · exact keeps_perm (.inr rfl) (List.perm_append_singleton _ _).symm

variable [CharZero K] (reading)

theorem keeps_exactProduct (p q : ℚ) : reading.Keeps (.node .mul [exactNode p, exactNode q]) (exactNode (p * q)) := by
  intro value known
  simpa [evalAll_cons] using known

theorem meets_splitFactors (factors : List Expr) (coefficient : ℚ) : Meets truth (splitFactors factors coefficient)
    fun split => reading.Keeps (.node .mul (exactNode coefficient :: factors))
      (.node .mul (exactNode split.2 :: (keyed split.1).map powerTerm)) := by
  induction factors generalizing coefficient with
  | nil => exact meets_pure (.refl _)
  | cons factor rest ih =>
    unfold splitFactors
    split
    · rename_i q number
      obtain rfl := exactOf_some number
      apply (meets_multiplyExactNodes coefficient q).bind
      intro product same
      apply (ih product).mono
      intro split kept
      exact (keeps_join (.inr rfl) (same ▸ keeps_exactProduct reading coefficient q)).trans kept
    · apply (ih coefficient).bind
      intro split kept
      apply meets_pure
      -- the factor steps in front of the number and back
      have front : reading.Keeps (.node .mul (exactNode coefficient :: factor :: rest))
          (.node .mul (factor :: exactNode coefficient :: rest)) := keeps_perm (.inr rfl) (List.Perm.swap _ _ _)
      have back : reading.Keeps
          (.node .mul (powerTerm (some (splitPower factor).1, (splitPower factor).2) :: exactNode split.2 ::
            (keyed split.1).map powerTerm))
          (.node .mul (exactNode split.2 :: powerTerm (some (splitPower factor).1, (splitPower factor).2) ::
            (keyed split.1).map powerTerm)) := keeps_perm (.inr rfl) (List.Perm.swap _ _ _)
      exact front.trans ((keeps_head (.inr rfl) (keeps_splitPower factor)).trans
        ((keeps_tail (.inr rfl) kept).trans back))

end Factors

section Exponents

variable {self : Calls} {reading : Reading K} (sound : self.Sound truth reading)

include sound

theorem meets_addExponents (left right : Expr) : Meets truth (addExponents self left right) fun sum =>
    ∀ a b, left = exactNode a → right = exactNode b → sum = exactNode (a + b) := by
  unfold addExponents
  split
  · rename_i p q first second
    obtain rfl := exactOf_some first
    obtain rfl := exactOf_some second
    apply (meets_addExactNodes p q).bind
    intro sum same
    apply meets_pure
    intro a b left right
    cases left
    cases right
    rw [same]
  · rename_i unknown
    apply (sound.add _).mono
    intro sum _ a b left right
    exact absurd (congrArg exactOf right) (unknown a b (congrArg exactOf left))

theorem joins_addExponents :
    Joins reading .mul (fun pair => powerTerm (some pair.1, pair.2)) truth (addExponents self) := by
  intro base a b
  apply (meets_addExponents sound a b).mono
  intro sum added p known
  obtain ⟨v, w, here, later, rfl⟩ := (eval_cons (.inr rfl)).mp known
  rw [eval_single (.inr rfl)] at later
  obtain ⟨u, q, worth, rational, raised⟩ := eval_pow_some here
  obtain ⟨u', q', worth', rational', raised'⟩ := eval_pow_some later
  rw [worth] at worth'
  cases worth'
  rw [added q q' rational rational']
  change reading.eval (.node .pow [base, exactNode (q + q')]) = _
  rw [eval_pow, worth, Option.bind_some, combine_mul, List.prod_pair]
  exact reading.raise_add raised raised'

theorem meets_negNode (value : Expr) : Meets truth (negNode self value) fun negated =>
    ∀ v, reading.eval value = some v → reading.eval negated = some (-v) := by
  apply (sound.mul _).mono
  intro negated kept v known
  apply kept
  simp [evalAll_cons, minusOne, known]

theorem meets_negateAll (terms : List Expr) : Meets truth (negateAll self terms) fun negated =>
    ∀ v, reading.eval (.node .add terms) = some v → reading.eval (.node .add negated) = some (-v) := by
  induction terms with
  | nil =>
    apply meets_pure
    intro v known
    rw [eval_nil (.inl rfl)] at known ⊢
    cases known
    simp
  | cons term rest ih =>
    apply (meets_negNode sound term).bind
    intro negated worth
    apply ih.bind
    intro rest' worth'
    apply meets_pure
    intro v known
    obtain ⟨u, w, here, later, rfl⟩ := (eval_cons (.inl rfl)).mp known
    refine (eval_cons (.inl rfl)).mpr ⟨-u, -w, worth u here, worth' w later, ?_⟩
    simp only [combine_add, List.sum_pair]
    ring

variable [CharZero K]

theorem meets_negateSum {sum : Expr} (isSum : sum.label = .add) : Meets truth (negateSum self sum) fun negated =>
    ∀ v, reading.eval sum = some v → reading.eval negated = some (-v) := by
  obtain ⟨label, children⟩ := sum
  obtain rfl : label = .add := isSum
  apply meets_request.seq
  intro _
  apply (meets_negateAll sound _).bind
  intro terms worth
  apply (meets_addAt reading terms).mono
  intro negated kept v known
  exact kept _ (worth v known)

end Exponents

theorem perm_set {α : Type} {l : List α} {i : Nat} (inside : i < l.length) :
    ∃ rest, l.Perm (l[i] :: rest) ∧ ∀ a, (l.set i a).Perm (a :: rest) := by
  induction l generalizing i with
  | nil => exact absurd inside (Nat.not_lt_zero i)
  | cons x xs ih =>
    cases i with
    | zero => exact ⟨xs, .refl _, fun a => .refl _⟩
    | succ i =>
      obtain ⟨rest, whole, changed⟩ := ih (Nat.lt_of_succ_lt_succ inside)
      exact ⟨x :: rest, (whole.cons x).trans (.swap _ _ _), fun a => ((changed a).cons x).trans (.swap _ _ _)⟩

theorem perm_pair {α : Type} {l : List α} {i j : Nat} (before : i < j) (inside : j < l.length) :
    ∃ rest, l.Perm (l[i] :: l[j] :: rest) ∧ ∀ a b, ((l.set i a).set j b).Perm (a :: b :: rest) := by
  induction l generalizing i j with
  | nil => exact absurd inside (Nat.not_lt_zero j)
  | cons x xs ih =>
    obtain ⟨j, rfl⟩ := Nat.exists_eq_succ_of_ne_zero (Nat.ne_zero_of_lt before)
    have inner : j < xs.length := Nat.lt_of_succ_lt_succ inside
    cases i with
    | zero =>
      obtain ⟨rest, whole, changed⟩ := perm_set inner
      exact ⟨rest, whole.cons x, fun a b => (changed b).cons a⟩
    | succ i =>
      obtain ⟨rest, whole, changed⟩ := ih (Nat.lt_of_succ_lt_succ before) inner
      have third (a b : α) : (x :: a :: b :: rest).Perm (a :: b :: x :: rest) :=
        (List.Perm.swap a x _).trans ((List.Perm.swap b x _).cons a)
      exact ⟨x :: rest, (whole.cons x).trans (third _ _), fun a b => ((changed a b).cons x).trans (third a b)⟩

theorem placeAfter_some {pairs : List (Option Expr × Expr)} {row other : Nat} {base : Expr}
    (found : placeAfter pairs row base = some other) :
    row < other ∧ other < pairs.length ∧ (pairs.getD other (none, one)).1 = some base := by
  unfold placeAfter at found
  have held := List.find?_some found
  rw [decide_eq_true_eq] at held
  exact ⟨held.1, List.mem_range.mp (List.mem_of_find?_eq_some found), held.2⟩

theorem signPower_fits : Inline (-1) := by
  unfold Inline
  decide +kernel

theorem meets_signPower (exponent : CasRat) :
    Meets truth (signPower exponent) fun sign => sign = (-1) ^ exponent.num.toInt := by
  unfold signPower
  dsimp only
  apply meets_ite
  · intro stored
    apply meets_request.seq
    intro _
    apply meets_pure
    have minus : (CasRat.mk (-1) 1) = CasRat.ofRat (-1) := by decide +kernel
    have power := ratPow_eq (CasRat.reduced_ofRat signPower_fits) (by decide +kernel) exponent.num ⟨0, 1⟩
    rw [CasRat.value_ofRat signPower_fits, ← minus] at power
    rw [power] at stored ⊢
    exact value_of_store stored
  · intro _
    exact meets_refuse _

def ProductPairs.whole (product : ProductPairs) : Expr :=
  .node .mul (exactNode product.coefficient :: product.pairs.map powerTerm)

theorem raise_negated {reading : Reading K} {u p r : K} {a : ℚ} {k : Int} (here : reading.raise u a = some p)
    (there : reading.raise (-u) k = some r) : ∃ w, reading.raise u (a + k) = some w ∧ p * r = (-1) ^ k * w := by
  have defined : u ≠ 0 ∨ 0 < k := by
    rcases defined_of_raise there with nonzero | positive
    · exact .inl (neg_ne_zero.mp nonzero)
    · exact .inr positive
  refine ⟨p * u ^ k, reading.raise_add here (raise_of_int defined), ?_⟩
  rw [raise_int there, neg_eq_neg_one_mul, mul_zpow]
  ring

theorem whole_of_den {q : ℚ} (fits : Inline q) (whole : (CasRat.ofRat q).den = 1) : ∃ k : Int, q = k := by
  have den := CasRat.den_ofRat fits
  rw [whole, show (1 : Int64).toInt = 1 from rfl] at den
  refine ⟨q.num, (Rat.coe_int_num_of_den_eq_one ?_).symm⟩
  exact_mod_cast den.symm

theorem keeps_negated [CharZero K] {reading : Reading K} {pairs : List (Option Expr × Expr)} {row other : Nat}
    {base negated power combined : Expr} {k : Int} (coefficient : ℚ) (before : row < other) (inside : other < pairs.length)
    (here : pairs.getD row (none, one) = (some base, power))
    (there : pairs.getD other (none, one) = (some negated, exactNode k))
    (worth : ∀ v, reading.eval base = some v → reading.eval negated = some (-v))
    (added : ∀ a, power = exactNode a → combined = exactNode (a + k)) :
    reading.Keeps (ProductPairs.whole ⟨pairs, coefficient⟩)
      (ProductPairs.whole ⟨(pairs.set row (some base, combined)).set other (none, one), coefficient * (-1) ^ k⟩) := by
  obtain ⟨rest, front, changed⟩ := perm_pair before inside
  have atRow : pairs[row] = (some base, power) := by
    rwa [List.getD_eq_getElem?_getD, List.getElem?_eq_getElem (by omega), Option.getD_some] at here
  have atOther : pairs[other] = (some negated, exactNode k) := by
    rwa [List.getD_eq_getElem?_getD, List.getElem?_eq_getElem inside, Option.getD_some] at there
  rw [atRow, atOther] at front
  have opened : reading.Keeps (.node .mul (pairs.map powerTerm)) _ := keeps_perm (.inr rfl) (front.map powerTerm)
  have closed : reading.Keeps _ (.node .mul (((pairs.set row (some base, combined)).set other (none, one)).map powerTerm)) :=
    keeps_perm (.inr rfl) ((changed (some base, combined) (none, one)).symm.map powerTerm)
  refine (keeps_tail (.inr rfl) opened).trans (Keeps.trans ?_ (keeps_tail (.inr rfl) closed))
  intro p known
  obtain ⟨c, _, number, others, rfl⟩ := (eval_cons (.inr rfl)).mp known
  obtain ⟨v, _, mine, others', rfl⟩ := (eval_cons (.inr rfl)).mp others
  obtain ⟨w, r, theirs, last, rfl⟩ := (eval_cons (.inr rfl)).mp others'
  obtain ⟨u, a, value, rfl, raised⟩ := eval_pow_some mine
  obtain ⟨u', b, value', rational, raised'⟩ := eval_pow_some theirs
  cases rational
  rw [worth u value] at value'
  cases value'
  obtain ⟨total, power, product⟩ := raise_negated raised raised'
  rw [eval_exact] at number
  cases number
  have grown : reading.eval (powerTerm (some base, combined)) = some total := by
    rw [added a rfl, powerTerm, eval_pow, value, Option.bind_some, power]
  have gone : reading.eval (powerTerm (none, one)) = some 1 := by
    rw [powerTerm, one, eval_exact, Rat.cast_one]
  refine (eval_cons (.inr rfl)).mpr ⟨_, _, eval_exact _, (eval_cons (.inr rfl)).mpr ⟨total, _, grown,
    (eval_cons (.inr rfl)).mpr ⟨1, r, gone, last, rfl⟩, rfl⟩, ?_⟩
  simp only [combine_mul, List.prod_pair]
  push_cast
  linear_combination (coefficient : K) * r * product

section Negated

variable [CharZero K] {self : Calls} {reading : Reading K} (sound : self.Sound truth reading)

include sound

theorem meets_mergeNegatedRow (row : Nat) (product : ProductPairs) :
    Meets truth (mergeNegatedRow self row product) fun product' => reading.Keeps product.whole product'.whole := by
  unfold mergeNegatedRow
  split
  · rename_i base power here
    apply meets_ite
    · intro isSum
      apply (meets_negateSum sound isSum).bind
      intro negated worth
      split
      · exact meets_pure (.refl _)
      · rename_i other found
        obtain ⟨before, inside, there⟩ := placeAfter_some found
        split
        · exact meets_pure (.refl _)
        · rename_i exponent number
          apply meets_ite
          · intro _
            exact meets_pure (.refl _)
          · intro whole
            apply (meets_signPower exponent).bind
            intro sign signed
            apply (meets_multiplyExactNodes product.coefficient sign).bind
            intro coefficient same
            apply (meets_addExponents sound _ _).bind
            intro combined added
            apply meets_pure
            obtain ⟨q, known, fits, rfl⟩ := exactValue_some number
            obtain ⟨exponent, rfl⟩ := whole_of_den fits (not_not.mp whole)
            have pair : product.pairs.getD other (none, one) = (some negated, exactNode exponent) :=
              Prod.ext there (exactOf_some known)
            rw [CasRat.num_ofRat fits, Rat.num_intCast] at signed
            rw [same, signed]
            apply keeps_negated product.coefficient before inside here pair worth
            intro a rational
            exact added a exponent rational (exactOf_some known)
    · intro _
      exact meets_pure (.refl _)
  · exact meets_pure (.refl _)

theorem meets_mergeNegatedBases (product : ProductPairs) :
    Meets truth (mergeNegatedBases self product) fun product' => reading.Keeps product.whole product'.whole := by
  refine meets_countUp (fun row product' kept => ?_) _ _ (Keeps.refl _)
  apply (meets_mergeNegatedRow sound row product').mono
  intro product'' kept'
  exact kept.trans kept'

theorem meets_buildFactors (pairs : List (Option Expr × Expr)) (coefficient : ℚ) :
    Meets truth (buildFactors self pairs coefficient) fun built =>
      reading.Keeps (ProductPairs.whole ⟨pairs, coefficient⟩) (.node .mul (exactNode built.2 :: built.1)) := by
  induction pairs generalizing coefficient with
  | nil => exact meets_pure (.refl _)
  | cons pair rest ih =>
    obtain ⟨base, exponent⟩ := pair
    cases base with
    | none =>
      apply (ih coefficient).mono
      intro built kept
      exact (keeps_tail (.inr rfl) keeps_dropOne).trans kept
    | some base =>
      apply (sound.pow base exponent).bind
      intro power worth
      have front : reading.Keeps (ProductPairs.whole ⟨(some base, exponent) :: rest, coefficient⟩)
          (.node .mul (exactNode coefficient :: power :: rest.map powerTerm)) :=
        keeps_tail (.inr rfl) (keeps_head (.inr rfl) worth)
      split
      · rename_i q number
        obtain rfl := exactOf_some number
        apply (meets_multiplyExactNodes coefficient q).bind
        intro product same
        apply (ih product).mono
        intro built kept
        exact front.trans ((keeps_join (.inr rfl) (same ▸ keeps_exactProduct reading coefficient q)).trans kept)
      · apply (ih coefficient).bind
        intro built kept
        apply meets_pure
        have swapped : reading.Keeps (.node .mul (exactNode coefficient :: power :: rest.map powerTerm))
            (.node .mul (power :: exactNode coefficient :: rest.map powerTerm)) := keeps_perm (.inr rfl) (List.Perm.swap _ _ _)
        have back : reading.Keeps (.node .mul (power :: exactNode built.2 :: built.1))
            (.node .mul (exactNode built.2 :: power :: built.1)) := keeps_perm (.inr rfl) (List.Perm.swap _ _ _)
        exact front.trans (swapped.trans ((keeps_tail (.inr rfl) kept).trans back))

/-- A product has come to zero, or to the product of other factors. -/
def CameTo (reading : Reading K) (factors : List Expr) (out : Option (List Expr)) : Prop :=
  ∀ p, reading.eval (.node .mul factors) = some p →
    (out = none → p = 0) ∧ ∀ built ∈ out, reading.eval (.node .mul built) = some p

omit sound [CharZero K] in
theorem cameTo_zero {factors : List Expr} (zero : ∀ p, reading.eval (.node .mul factors) = some p → p = 0) :
    CameTo reading factors none := fun p known => ⟨fun _ => zero p known, fun _ absent => by cases absent⟩

omit sound [CharZero K] in
theorem cameTo_factors {factors built : List Expr} (kept : reading.Keeps (.node .mul factors) (.node .mul built)) :
    CameTo reading factors (some built) := by
  intro p known
  constructor
  · intro absent
    cases absent
  · intro built' same
    cases same
    exact kept p known

theorem meets_collectProductPass (factors : List Expr) : Meets truth (collectProductPass self factors) fun out =>
    CameTo reading factors (out.map Prod.fst) := by
  apply meets_request.seq
  intro _
  apply (meets_splitFactors reading factors 1).bind
  intro split parts
  apply (meets_mergeEqual (.inr rfl) (joins_addExponents sound) (sortPairs split.1)).bind
  intro merged kept
  apply (meets_mergeNegatedBases sound _).bind
  intro product signs
  apply meets_request.seq
  intro _
  apply (meets_buildFactors sound product.pairs product.coefficient).bind
  intro built powers
  have sorted : reading.Keeps (.node .mul ((keyed split.1).map powerTerm)) (.node .mul ((keyed merged).map powerTerm)) := by
    have both := (keeps_sortPairs (.inr rfl) split.1).trans kept
    rw [keyed, keyed, List.map_map, List.map_map]
    exact both
  have whole : reading.Keeps (.node .mul factors) (.node .mul (exactNode built.2 :: built.1)) :=
    (keeps_addOne factors).trans (parts.trans ((keeps_tail (.inr rfl) sorted).trans (signs.trans powers)))
  apply meets_ite
  · intro zero
    apply meets_pure
    apply cameTo_zero
    intro p known
    obtain ⟨c, r, number, _, rfl⟩ := (eval_cons (.inr rfl)).mp (whole p known)
    rw [eval_exact, zero, Rat.cast_zero] at number
    cases number
    rw [combine_mul, List.prod_pair, zero_mul]
  · intro _
    exact meets_pure (cameTo_factors (whole.trans (keeps_coefficient _ _)))

theorem meets_productPasses (passes : Nat) (factors : List Expr) :
    Meets truth (productPasses self passes factors) fun out => CameTo reading factors out := by
  induction passes generalizing factors with
  | zero => exact meets_pure (cameTo_factors (.refl _))
  | succ passes ih =>
    apply (meets_flatten reading (.inr rfl) factors).bind
    intro flat kept
    apply (meets_collectProductPass sound flat).bind
    intro out came
    split
    · apply meets_pure
      apply cameTo_zero
      intro p known
      exact (came p (kept p known)).1 rfl
    · rename_i built dirty
      have worth : reading.Keeps (.node .mul factors) (.node .mul built) := fun p known =>
        (came p (kept p known)).2 built rfl
      apply meets_ite
      · intro _
        apply (ih built).mono
        intro out' came' p known
        exact came' p (worth p known)
      · intro _
        exact meets_pure (cameTo_factors worth)

theorem meets_collectProduct (factors : List Expr) :
    Meets truth (collectProduct self factors) fun product => reading.Keeps (.node .mul factors) product := by
  apply (meets_productPasses sound 4 factors).bind
  intro out came
  split
  · apply meets_pure
    intro p known
    rw [(came p known).1 rfl, zero, eval_exact, Rat.cast_zero]
  · rename_i built
    apply (meets_packOperands reading (.inr rfl) (by simp [one]) built).mono
    intro packed kept p known
    exact kept p ((came p known).2 built rfl)

theorem meets_mulAt (operands : List Expr) :
    Meets truth (mulAt self operands) fun product => reading.Keeps (.node .mul operands) product := by
  apply meets_ite
  · intro empty
    apply meets_pure
    intro p known
    rw [empty, eval_nil (.inr rfl)] at known
    rw [← known]
    simp [one]
  · intro _
    apply (meets_gaussianFold_mul reading operands).bind
    intro found worth
    split
    · exact meets_pure (worth _ rfl)
    · apply (meets_flatten reading (.inr rfl) operands).bind
      intro factors flat
      apply (meets_collectProduct sound factors).mono
      intro product kept
      exact flat.trans kept

end Negated

theorem meets_mulAt_exact (self : Calls) (p q : ℚ) :
    Meets truth (mulAt self [exactNode p, exactNode q]) fun product => product = exactNode (p * q) := by
  have numbers : [exactNode p, exactNode q].any nodeContainsI = false := rfl
  have flat : flatten .mul [exactNode p, exactNode q] = pure [exactNode p, exactNode q] := by
    unfold flatten
    rw [if_pos (by simp [contribution, exactNode, Rose.label])]
  have split : Meets truth (splitFactors [exactNode p, exactNode q] 1) fun split => split = ([], p * q) := by
    apply (meets_multiplyExactNodes 1 p).bind
    intro first same
    apply (meets_multiplyExactNodes first q).bind
    intro second same'
    apply meets_pure
    rw [same', same, one_mul]
  have pass : Meets truth (collectProductPass self [exactNode p, exactNode q]) fun out =>
      out = if p * q = 0 then none else some (if p * q = 1 then [] else [exactNode (p * q)], false) := by
    apply meets_request.seq
    intro _
    apply split.bind
    rintro _ rfl
    apply meets_request.seq
    intro _
    apply meets_ite
    · intro zero
      exact meets_pure (if_pos zero).symm
    · intro some
      apply meets_pure
      rw [if_neg some]
      rfl
  unfold mulAt gaussianFoldAt
  rw [if_neg (by simp), if_neg (by rw [numbers]; simp), pure_bind, flat]
  dsimp only
  rw [pure_bind]
  unfold collectProduct productPasses
  rw [flat, pure_bind, bind_assoc]
  apply pass.bind
  rintro _ rfl
  by_cases zero : p * q = 0
  · rw [if_pos zero, zero]
    exact meets_pure rfl
  · rw [if_neg zero]
    by_cases unit : p * q = 1
    · rw [if_pos unit, unit]
      exact meets_pure rfl
    · rw [if_neg unit]
      exact meets_pure rfl

end PhyNspire.Cas.Core

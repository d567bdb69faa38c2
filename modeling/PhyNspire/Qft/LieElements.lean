import PhyNspire.Lib.LieProducts
import PhyNspire.Qft.LieAlgebra
import PhyNspire.Tensor.Inverse

/-!
Elements of a Lie algebra, their bracket, and when an algebra is created. The coefficients of an
element are handles over the basis of its algebra; every operation computes the coefficients
of a fresh element one after another.
-/

namespace PhyNspire.Qft
open Platform Cas Tensor Lib.Stateful Lib.LieProducts

structure LieElement (Ref : Type) where
  algebra : LieAlgebra Ref
  coefficient : List Ref
  sized : coefficient.length = algebra.dimension

variable {State Ref K : Type}

/-- `phy_lie_element_coefficient`; outside the basis there is none. -/
def lieElementCoefficient (element : LieElement Ref) (basis : Nat) : Option Ref :=
  if basis < element.algebra.dimension then element.coefficient[basis]? else none

/-- A coefficient handed to the engine, which refuses a null handle. -/
def coefficientArgument (element : LieElement Ref) (basis : Nat) : EStateM Status State Ref :=
  match lieElementCoefficient element basis with
  | some ref => pure ref
  | none => throw .invalidArgument

def lieElementCreate (algebra : LieAlgebra Ref) (coefficients : List Ref) :
    EStateM Status (Memory State) (LieElement Ref) := do
  request
  if sized : coefficients.length = algebra.dimension then pure ⟨algebra, coefficients, sized⟩ else throw .invalidArgument

/-- The loop that fills in `coefficients`. -/
def fillCoefficients (entry : Nat → EStateM Status State Ref) (dimension : Nat) : EStateM Status State (List Ref) :=
  countUp (fun basis coefficients => do
    let ref ← entry basis
    pure (coefficients ++ [ref])) dimension 0 []

def lieBasisElement (cas : Cas State Ref) (algebra : LieAlgebra Ref) (basis : Nat) :
    EStateM Status (Memory State) (LieElement Ref) :=
  if algebra.dimension ≤ basis then throw .invalidArgument
  else do
    let coefficients ← Tensor.scalar
      (fillCoefficients (fun index => cas.number (if index = basis then 1 else 0) 1) algebra.dimension)
    lieElementCreate algebra coefficients

/-- Comparing the algebras compares the pointers. -/
def lieElementAdd [DecidableEq Ref] (cas : Cas State Ref) (left right : LieElement Ref) :
    EStateM Status (Memory State) (LieElement Ref) :=
  if left.algebra ≠ right.algebra then throw .invalidArgument
  else do
    let coefficients ← Tensor.scalar (fillCoefficients (fun basis => do
      let first ← coefficientArgument left basis
      let second ← coefficientArgument right basis
      cas.add [first, second]) left.algebra.dimension)
    lieElementCreate left.algebra coefficients

def lieElementScale (cas : Cas State Ref) (element : LieElement Ref) (factor : Ref) :
    EStateM Status (Memory State) (LieElement Ref) := do
  let coefficients ← Tensor.scalar (fillCoefficients (fun basis => do
    let coefficient ← coefficientArgument element basis
    cas.mul [factor, coefficient]) element.algebra.dimension)
  lieElementCreate element.algebra coefficients

/-- One product of two coefficients is added to the coefficient `c` of the bracket. -/
def elementBracketTerm (cas : Cas State Ref) (left right : LieElement Ref) (c a b : Nat) (sum : Ref) :
    EStateM Status State Ref := do
  let first ← coefficientArgument left a
  let second ← coefficientArgument right b
  let constant ← structureArgument left.algebra a b c
  let term ← cas.mul [first, second, constant]
  cas.add [sum, term]

def bracketCoefficient (cas : Cas State Ref) (left right : LieElement Ref) (c : Nat) : EStateM Status State Ref := do
  let zero ← cas.number 0 1
  countUp (fun a sum => countUp (fun b sum => elementBracketTerm cas left right c a b sum) left.algebra.dimension 0 sum)
    left.algebra.dimension 0 zero

def lieBracket [DecidableEq Ref] (cas : Cas State Ref) (left right : LieElement Ref) :
    EStateM Status (Memory State) (LieElement Ref) :=
  if left.algebra ≠ right.algebra then throw .invalidArgument
  else do
    let coefficients ← Tensor.scalar (fillCoefficients (bracketCoefficient cas left right) left.algebra.dimension)
    lieElementCreate left.algebra coefficients

/-- The coefficients of an element denote the vector `x`. -/
def Stands (value : Ref → Option K) {n : Nat} (element : LieElement Ref) (x : Fin n → K) : Prop :=
  Denote value element.coefficient (List.ofFn x)

section Values

variable {value : Ref → Option K} {n : Nat} {element : LieElement Ref} {x : Fin n → K}

theorem Stands.dimension (stands : Stands value element x) : element.algebra.dimension = n :=
  element.sized.symm.trans (stands.length_eq.trans List.length_ofFn)

theorem wp_coefficientArgument (stands : Stands value element x) (basis : Fin n) {good : Ref → State → Prop}
    {bad : Status → State → Prop} {s : State} (held : ∀ ref, value ref = some (x basis) → good ref s) :
    wp (coefficientArgument element basis) good bad s := by
  have inside : basis.val < element.coefficient.length := by
    rw [element.sized, stands.dimension]
    exact basis.isLt
  have denotes : value element.coefficient[basis.val] = some (x basis) := by
    have known := stands.get inside (by rw [List.length_ofFn]; exact basis.isLt)
    simpa using known
  unfold coefficientArgument lieElementCoefficient
  rw [if_pos (by rw [stands.dimension]; exact basis.isLt), List.getElem?_eq_getElem inside]
  exact held _ denotes

theorem wp_fillCoefficients {entry : Nat → EStateM Status State Ref} {g : Fin n → K} {bad : Status → State → Prop}
    (step : ∀ (i : Fin n) s, wp (entry i) (fun ref _ => value ref = some (g i)) bad s) (s : State) :
    wp (fillCoefficients entry n) (fun coefficients _ => Denote value coefficients (List.ofFn g)) bad s := by
  unfold fillCoefficients
  refine wp_good (wp_countUp (fun done coefficients _ => Denote value coefficients ((List.ofFn g).take done)) n 0 [] s .nil
    (fun i coefficients s _ inside known => ?_)) fun coefficients _ known => ?_
  · have bound : i < n := by omega
    have next : (List.ofFn g).take (i + 1) = (List.ofFn g).take i ++ [g ⟨i, bound⟩] := by
      rw [List.take_succ_eq_append_getElem (by rw [List.length_ofFn]; exact bound), List.getElem_ofFn]
    rw [wp_bind, next]
    exact wp_good (step ⟨i, bound⟩ s) fun ref t denotes => known.snoc denotes
  · rwa [Nat.zero_add, List.take_of_length_le (by rw [List.length_ofFn])] at known

theorem wp_lieElementCreate {algebra : LieAlgebra Ref} (dimension : algebra.dimension = n) {coefficients : List Ref}
    (denote : Denote value coefficients (List.ofFn x)) (memory : Memory State) :
    wp (lieElementCreate algebra coefficients) (fun element _ => element.algebra = algebra ∧ Stands value element x)
      (fun _ _ => ∃ k, memory.heap.grants k = false) memory := by
  have sized : coefficients.length = algebra.dimension := by
    rw [denote.length_eq, List.length_ofFn, dimension]
  unfold lieElementCreate
  refine wp_then (wp_request memory) fun _ after _ => ?_
  rw [dif_pos sized, wp_pure]
  exact ⟨rfl, denote⟩

theorem wp_computedElement {algebra : LieAlgebra Ref} (dimension : algebra.dimension = n) {mayStop : Prop}
    {entry : Nat → EStateM Status State Ref}
    (step : ∀ (i : Fin n) s, wp (entry i) (fun ref _ => value ref = some (x i)) (fun _ _ => mayStop) s)
    (memory : Memory State) :
    wp (Tensor.scalar (fillCoefficients entry algebra.dimension) >>= lieElementCreate algebra)
      (fun element _ => element.algebra = algebra ∧ Stands value element x) (fun _ _ => Refused mayStop memory.heap) memory := by
  rw [wp_bind, Tensor.wp_scalar, dimension]
  refine wp_mono (wp_fillCoefficients step memory.session) (fun coefficients session denote => ?_)
    (fun _ _ stopped => Or.inl stopped)
  exact wp_mono (wp_lieElementCreate dimension denote _) (fun _ _ known => known) (fun _ _ refused => Or.inr refused)

end Values

section Arithmetic

variable [CommRing K] {cas : Cas State Ref} {value : Ref → Option K} {mayStop : Prop}
  (arithmetic : Arithmetic cas value mayStop) {n : Nat} {left right element : LieElement Ref} {x y : Fin n → K}
include arithmetic

theorem wp_lieBasisElement {algebra : LieAlgebra Ref} (dimension : algebra.dimension = n) (basis : Fin n)
    (memory : Memory State) :
    wp (lieBasisElement cas algebra basis)
      (fun result _ => result.algebra = algebra ∧ Stands value result (Pi.single basis (1 : K)))
      (fun _ _ => Refused mayStop memory.heap) memory := by
  unfold lieBasisElement
  rw [if_neg (by rw [dimension]; omega)]
  refine wp_computedElement dimension (fun i s => ?_) memory
  refine wp_good (arithmetic.number _ s) fun ref _ denotes => ?_
  rw [denotes, Pi.single_apply]
  by_cases same : i = basis
  · rw [if_pos (congrArg Fin.val same), if_pos same, Int.cast_one]
  · rw [if_neg (fun equal => same (Fin.ext equal)), if_neg same, Int.cast_zero]

theorem wp_lieElementScale (stands : Stands value element x) {factor : Ref} {k : K} (denotes : value factor = some k)
    (memory : Memory State) :
    wp (lieElementScale cas element factor)
      (fun result _ => result.algebra = element.algebra ∧ Stands value result (k • x))
      (fun _ _ => Refused mayStop memory.heap) memory := by
  unfold lieElementScale
  refine wp_computedElement stands.dimension (fun i s => ?_) memory
  rw [wp_bind]
  refine wp_coefficientArgument stands i (fun coefficient known => ?_)
  refine wp_good (arithmetic.mul _ _ s (.cons denotes (.cons known .nil))) fun ref _ product => ?_
  rw [product, List.prod_cons, List.prod_singleton]
  rfl

variable (first : Stands value left x) (second : Stands value right y)
include first second

theorem wp_lieElementAdd [DecidableEq Ref] (together : left.algebra = right.algebra) (memory : Memory State) :
    wp (lieElementAdd cas left right) (fun result _ => result.algebra = left.algebra ∧ Stands value result (x + y))
      (fun _ _ => Refused mayStop memory.heap) memory := by
  unfold lieElementAdd
  rw [if_neg (not_not.mpr together)]
  refine wp_computedElement first.dimension (fun i s => ?_) memory
  rw [wp_bind]
  refine wp_coefficientArgument first i (fun one known => ?_)
  rw [wp_bind]
  refine wp_coefficientArgument second i (fun two known' => ?_)
  refine wp_good (arithmetic.add _ _ s (.cons known (.cons known' .nil))) fun ref _ sum => ?_
  rw [sum, List.sum_cons, List.sum_singleton]
  rfl

variable {f : Fin n → Fin n → Fin n → K} (constants : Constants value left.algebra f)
include constants

theorem wp_elementBracketTerm (c a b : Fin n) {sum : Ref} {k : K} (denotes : value sum = some k) (s : State) :
    wp (elementBracketTerm cas left right c a b sum) (fun result _ => value result = some (k + x a * y b * f a b c))
      (fun _ _ => mayStop) s := by
  unfold elementBracketTerm
  rw [wp_bind]
  refine wp_coefficientArgument first a (fun one known => ?_)
  rw [wp_bind]
  refine wp_coefficientArgument second b (fun two known' => ?_)
  rw [wp_bind]
  refine wp_structureArgument constants a b c (fun three known'' => ?_)
  refine wp_then (arithmetic.mul _ _ s (.cons known (.cons known' (.cons known'' .nil)))) fun term t product => ?_
  refine wp_good (arithmetic.add _ _ t (.cons denotes (.cons product .nil))) fun result _ total => ?_
  rw [total, List.sum_cons, List.sum_singleton, List.prod_cons, List.prod_cons, List.prod_singleton, mul_assoc]

theorem wp_bracketCoefficient (c : Fin n) (s : State) :
    wp (bracketCoefficient cas left right c) (fun result _ => value result = some (product f x y c)) (fun _ _ => mayStop) s := by
  unfold bracketCoefficient
  refine wp_then (arithmetic.number 0 s) fun zero t known => ?_
  rw [Int.cast_zero] at known
  rw [first.dimension]
  refine wp_good (wp_accumulate (fun a => ∑ b, x a * y b * f a b c) known t (fun a sum k u denotes =>
    wp_accumulate (fun b => x a * y b * f a b c) denotes u (fun b sum k u denotes =>
      wp_elementBracketTerm arithmetic first second constants c a b denotes u))) fun result _ total => ?_
  rwa [zero_add] at total

theorem wp_lieBracket [DecidableEq Ref] (together : left.algebra = right.algebra) (memory : Memory State) :
    wp (lieBracket cas left right) (fun result _ => result.algebra = left.algebra ∧ Stands value result (product f x y))
      (fun _ _ => Refused mayStop memory.heap) memory := by
  unfold lieBracket
  rw [if_neg (not_not.mpr together)]
  exact wp_computedElement first.dimension (wp_bracketCoefficient arithmetic first second constants) memory

end Arithmetic

end PhyNspire.Qft

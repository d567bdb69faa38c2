import PhyNspire.Cas.Numbers
import PhyNspire.Exact.Gaussian

/-!
The bridge to the complex numbers of complex.c. A closed tree of numbers and the imaginary unit
is evaluated to a Gaussian rational and written again as its normal form.
-/

namespace PhyNspire.Cas.Core
open Lib.Stateful Lib.Trees Ir.Expressions Ir.Sums
open PhyNspire.Exact (Gaussian)
open SparsePoly (integerValue)

def nodeContainsI : Expr → Bool :=
  Rose.fold fun label children => decide (label = .symbol unitName) || children.any id

def gaussianAdd (left right : Gaussian) : CasM Gaussian := do
  request
  pure ⟨left.real + right.real, left.imaginary + right.imaginary⟩

def gaussianMultiply (left right : Gaussian) : CasM Gaussian := do
  request
  pure ⟨left.real * right.real - left.imaginary * right.imaginary,
    left.real * right.imaginary + left.imaginary * right.real⟩

def gaussianNorm (value : Gaussian) : ℚ := value.real * value.real + value.imaginary * value.imaginary

def gaussianReciprocal (value : Gaussian) : CasM Gaussian := do
  request
  if gaussianNorm value = 0 then refuse .domain
  else pure ⟨value.real / gaussianNorm value, -value.imaginary / gaussianNorm value⟩

def gaussianMultiplyWhen (needed : Bool) (left right : Gaussian) : CasM Gaussian :=
  if needed then gaussianMultiply left right else pure left

/-- The loop of `phy_gaussian_pow_i32`; 32 turns use up every exponent. -/
def gaussianPowLoop : Nat → Nat → Gaussian → Gaussian → CasM Gaussian
  | 0, _, result, _ => pure result
  | turns + 1, remaining, result, factor =>
      if remaining = 0 then pure result
      else do
        let result ← gaussianMultiplyWhen (decide (remaining % 2 = 1)) result factor
        let factor ← gaussianMultiplyWhen (decide (remaining / 2 ≠ 0)) factor factor
        gaussianPowLoop turns (remaining / 2) result factor

def gaussianFactor (base : Gaussian) (exponent : Int) : CasM Gaussian :=
  if exponent < 0 then gaussianReciprocal base else pure base

def gaussianPow (base : Gaussian) (exponent : Int) : CasM Gaussian := do
  let factor ← gaussianFactor base exponent
  gaussianPowLoop 32 exponent.natAbs ⟨1, 0⟩ factor

mutual
/-- The value of a recognized tree, and whether the imaginary unit is in it. -/
def gaussianFromNode : Expr → CasM (Option (Gaussian × Bool))
  | .node (.exact q) [] => do
      request
      pure (some (⟨q, 0⟩, false))
  | .node (.symbol name) [] =>
      if name = unitName then do
        request
        pure (some (⟨0, 1⟩, true))
      else pure none
  | .node .pow [base, exponent] =>
      match integerValue exponent with
      | none => pure none
      | some k =>
          if isInt32 k then do
            match ← gaussianFromNode base with
            | none => pure none
            | some (value, containsI) => do
                let power ← gaussianPow value k
                pure (some (power, containsI))
          else pure none
  | .node .add children => gaussianFromNodes gaussianAdd ⟨0, 0⟩ false children
  | .node .mul children => gaussianFromNodes gaussianMultiply ⟨1, 0⟩ false children
  | _ => pure none

/-- The operands of a sum or a product, from left to right. -/
def gaussianFromNodes (operation : Gaussian → Gaussian → CasM Gaussian) (accumulator : Gaussian) (containsI : Bool) :
    List Expr → CasM (Option (Gaussian × Bool))
  | [] => pure (some (accumulator, containsI))
  | child :: rest => do
      match ← gaussianFromNode child with
      | none => pure none
      | some (value, inside) => do
          let accumulator ← operation accumulator value
          gaussianFromNodes operation accumulator (containsI || inside) rest
end

/-- `gaussian_publish`: a number that is not there is not written, nor a coefficient of one. -/
def gaussianPublish (value : Gaussian) : CasM Expr :=
  if value.imaginary = 0 then irNode (.exact value.real) []
  else do
    let coefficient ← irNode (.exact value.imaginary) []
    let term ← imaginaryTerm coefficient
    if value.real = 0 then pure term
    else do
      let real ← irNode (.exact value.real) []
      irNary .add [real, term]
where
  imaginaryTerm (coefficient : Expr) : CasM Expr :=
    if isInteger coefficient 1 then pure constantI else irNary .mul [coefficient, constantI]

def gaussianMatched : Option (Gaussian × Bool) → CasM (Option Expr)
  | some (value, true) => do
      let result ← gaussianPublish value
      pure (some result)
  | _ => pure none

/-- `phy_cas_gaussian_fold_at` for a sum or a product. -/
def gaussianFoldAt (operation : Gaussian → Gaussian → CasM Gaussian) (start : Gaussian) (operands : List Expr) :
    CasM (Option Expr) :=
  if operands.any nodeContainsI then do
    request
    let value ← gaussianFromNodes operation start false operands
    gaussianMatched value
  else pure none

def gaussianPowNode (base : Expr) (exponent : Int) : CasM (Option Expr) :=
  if isInt32 exponent ∧ nodeContainsI base then do
    request
    match ← gaussianFromNode base with
    | some (value, true) => do
        let power ← gaussianPow value exponent
        gaussianMatched (some (power, true))
    | _ => pure none
  else pure none

end PhyNspire.Cas.Core

/-!
The collectors of simplify.c. A sum's terms are split into a key and a coefficient, a product's
factors into a base and an exponent; the pairs are sorted and equal keys merged.
-/

namespace PhyNspire.Cas.Core
open Lib Lib.Stateful Lib.Trees Ir.Expressions Ir.Sums Num
open SparsePoly (integerValue)

instance : Inhabited Expr := ⟨zero⟩

structure Calls where
  simplifyNode : Expr → CasM Expr
  addNode : List Expr → CasM Expr
  mulNode : List Expr → CasM Expr
  powNode : Expr → Expr → CasM Expr

/-- Operands of the kind that is built are absorbed. -/
def flatten (label : Label) (operands : List Expr) : CasM (List Expr) :=
  if (operands.flatMap (contribution label)).length = operands.length then pure operands
  else do
    request
    pure (operands.flatMap (contribution label))

def sortPairs {W : Type} [Inhabited W] (pairs : List (Expr × W)) : List (Expr × W) :=
  Heapsort.heapsort (fun left right => decide (compareExprs left.1 right.1 = .gt)) pairs

/-- The merge of equal keys, with the pair that is being grown. -/
def mergeRun {W : Type} (combine : W → W → CasM W) : Expr × W → List (Expr × W) → CasM (List (Expr × W))
  | current, [] => pure [current]
  | current, next :: rest =>
      if current.1 = next.1 then do
        let weight ← combine current.2 next.2
        mergeRun combine (current.1, weight) rest
      else do
        let merged ← mergeRun combine next rest
        pure (current :: merged)

def mergeEqual {W : Type} (combine : W → W → CasM W) : List (Expr × W) → CasM (List (Expr × W))
  | [] => pure []
  | first :: rest => mergeRun combine first rest

/-- `phy_cas_split_coefficient`: the rest first, then the coefficient. -/
def splitCoefficient (term : Expr) : CasM (Expr × ℚ) :=
  match term with
  | .node .mul (first :: rest) =>
      match exactOf first with
      | none => pure (term, 1)
      | some coefficient =>
          match rest with
          | [single] => pure (single, coefficient)
          | _ => do
              request
              let product ← irNary .mul rest
              pure (product, coefficient)
  | _ => pure (term, 1)

def sinName : Name := [115, 105, 110]

def cosName : Name := [99, 111, 115]

/-- The argument of the square of a call of `head`. -/
def trigSquaredArgument (head : Name) : Expr → Option Expr
  | .node .pow [.node (.function name) [argument], exponent] =>
      if isInteger exponent 2 ∧ name = head then some argument else none
  | _ => none

def trigSquared (head : Name) (argument : Expr) : CasM Expr := do
  let call ← irNode (.function head) [argument]
  let two ← irNode (.exact 2) []
  irNode .pow [call, two]

def squaredSines (factors : List Expr) : List (Nat × Expr) :=
  factors.zipIdx.filterMap fun factor => (trigSquaredArgument sinName factor.1).map fun argument => (factor.2, argument)

def pythagoreanPartner (key : Expr) (occurrence : Nat) : CasM (Option (Expr × Option Expr)) :=
  match trigSquaredArgument sinName key with
  | some argument =>
      if occurrence ≠ 0 then pure none
      else do
        let partner ← trigSquared cosName argument
        pure (some (partner, none))
  | none =>
      match key with
      | .node .mul factors =>
          match (squaredSines factors)[occurrence]? with
          | none => pure none
          | some (swap, argument) => do
              let cosine ← trigSquared cosName argument
              request
              let partner ← irNary .mul (factors.set swap cosine)
              let base ← remaining (factors.eraseIdx swap)
              pure (some (partner, some base))
      | _ => pure none
where
  remaining : List Expr → CasM Expr
    | [single] => pure single
    | rest => irNary .mul rest

structure SumPairs where
  pairs : List (Option Expr × ℚ)
  total : ℚ
  changed : Bool

/-- The place of a key, other than `except`. -/
def placeOf (pairs : List (Option Expr × ℚ)) (except : Nat) (key : Expr) : Option Nat :=
  (List.range pairs.length).find? fun place => decide (place ≠ except ∧ (pairs.getD place (none, 0)).1 = some key)

/-- The pair at `row` and its partner become one. -/
def collapsePair (sum : SumPairs) (row other : Nat) (mine : ℚ) : Option Expr → CasM SumPairs
  | none => do
      let total ← addExactNodes sum.total mine
      pure ⟨(sum.pairs.set other (none, mine)).set row (none, mine), total, true⟩
  | some base =>
      let pairs := sum.pairs.set other (none, mine)
      match placeOf pairs row base with
      | some existing => do
          let coefficient ← addExactNodes mine (pairs.getD existing (none, 0)).2
          pure ⟨(pairs.set existing (some base, coefficient)).set row (none, mine), sum.total, true⟩
      | none => pure ⟨pairs.set row (some base, mine), sum.total, true⟩

/-- The squared sines of one key, from an occurrence on, until one has a partner. -/
def collapseOccurrences (sum : SumPairs) (row : Nat) (key : Expr) : Nat → Nat → CasM SumPairs
  | 0, _ => pure sum
  | turns + 1, occurrence => do
      match ← pythagoreanPartner key occurrence with
      | none => pure sum
      | some (partner, base) =>
          match placeOf sum.pairs row partner with
          | none => collapseOccurrences sum row key turns (occurrence + 1)
          | some other =>
              let mine := (sum.pairs.getD row (none, 0)).2
              if mine = (sum.pairs.getD other (none, 0)).2 then collapsePair sum row other mine base
              else collapseOccurrences sum row key turns (occurrence + 1)

/-- A key has no more squared sines than factors. -/
def collapseRow (row : Nat) (sum : SumPairs) : CasM SumPairs :=
  match (sum.pairs.getD row (none, 0)).1 with
  | none => pure sum
  | some key => collapseOccurrences sum row key (key.children.length + 1) 0

/-- The repeated passes of `collapse_pythagorean`. A pass that changes anything removes a pair. -/
def collapsePythagorean : Nat → SumPairs → CasM SumPairs
  | 0, sum => pure sum
  | turns + 1, sum => do
      let sum ← countUp collapseRow sum.pairs.length 0 { sum with changed := false }
      if sum.changed then collapsePythagorean turns sum else pure sum

/-- The terms of a sum: the pairs of those that are not numbers, and the numbers' total. -/
def splitTerms : List Expr → ℚ → CasM (List (Expr × ℚ) × ℚ)
  | [], total => pure ([], total)
  | term :: rest, total =>
      match exactOf term with
      | some q => do
          let total ← addExactNodes total q
          splitTerms rest total
      | none => do
          let pair ← splitCoefficient term
          let (pairs, total) ← splitTerms rest total
          pure (pair :: pairs, total)

/-- The terms that are built again from the pairs. -/
def buildTerms : List (Option Expr × ℚ) → CasM (List Expr)
  | [] => pure []
  | (none, _) :: rest => buildTerms rest
  | (some key, coefficient) :: rest =>
      if coefficient = 0 then buildTerms rest
      else do
        let term ← weighted key coefficient
        let terms ← buildTerms rest
        pure (term :: terms)
where
  weighted (key : Expr) (coefficient : ℚ) : CasM Expr :=
    if coefficient = 1 then pure key else irNary .mul [exactNode coefficient, key]

/-- What is left of a sum or a product: nothing, one operand, or a node. -/
def packOperands (label : Label) (empty : Expr) : List Expr → CasM Expr
  | [] => pure empty
  | [single] => pure single
  | operands => irNary label operands

def collectSum (terms : List Expr) : CasM Expr := do
  request
  let (pairs, total) ← splitTerms terms 0
  let merged ← mergeEqual addExactNodes (sortPairs pairs)
  let sum ← collapsePythagorean (merged.length + 1) ⟨merged.map fun pair => (some pair.1, pair.2), total, false⟩
  request
  let terms ← buildTerms sum.pairs
  packOperands .add zero (if sum.total = 0 then terms else terms ++ [exactNode sum.total])

def addAt (operands : List Expr) : CasM Expr :=
  if operands = [] then pure zero
  else do
    match ← gaussianFoldAt gaussianAdd ⟨0, 0⟩ operands with
    | some result => pure result
    | none => do
        let terms ← flatten .add operands
        collectSum terms

variable (self : Calls)

def addExponents (left right : Expr) : CasM Expr :=
  match exactOf left, exactOf right with
  | some p, some q => do
      let sum ← addExactNodes p q
      pure (exactNode sum)
  | _, _ => self.addNode [left, right]

def negNode (value : Expr) : CasM Expr := self.mulNode [minusOne, value]

def negateAll : List Expr → CasM (List Expr)
  | [] => pure []
  | term :: rest => do
      let negated ← negNode self term
      let rest ← negateAll rest
      pure (negated :: rest)

def negateSum (sum : Expr) : CasM Expr := do
  request
  let terms ← negateAll self sum.children
  addAt terms

/-- The merged pairs of a product; a base that was absorbed into its negation is gone. -/
structure ProductPairs where
  pairs : List (Option Expr × Expr)
  coefficient : ℚ

/-- The first place after `row` that holds `base`. -/
def placeAfter (pairs : List (Option Expr × Expr)) (row : Nat) (base : Expr) : Option Nat :=
  (List.range pairs.length).find? fun place => decide (row < place ∧ (pairs.getD place (none, one)).1 = some base)

/-- The power of minus one that a negated base leaves behind. -/
def signPower (exponent : CasRat) : CasM ℚ :=
  let sign := ratPow ⟨-1, 1⟩ exponent.num ⟨0, 1⟩
  if sign.1 then numberNode sign.2 else refuse .overflow

/-- One base of `merge_negated_bases`, against the negation of it behind. -/
def mergeNegatedRow (row : Nat) (product : ProductPairs) : CasM ProductPairs :=
  match product.pairs.getD row (none, one) with
  | (some base, power) =>
      if base.label = .add then do
        let negated ← negateSum self base
        match placeAfter product.pairs row negated with
        | none => pure product
        | some other =>
            match exactValue (product.pairs.getD other (none, one)).2 with
            | none => pure product
            | some exponent =>
                if exponent.den ≠ 1 then pure product
                else do
                  let sign ← signPower exponent
                  let coefficient ← multiplyExactNodes product.coefficient sign
                  let combined ← addExponents self power (product.pairs.getD other (none, one)).2
                  pure ⟨(product.pairs.set row (some base, combined)).set other (none, one), coefficient⟩
      else pure product
  | (none, _) => pure product

def mergeNegatedBases (product : ProductPairs) : CasM ProductPairs :=
  countUp (mergeNegatedRow self) (product.pairs.length - 1) 0 product

def splitPower : Expr → Expr × Expr
  | .node .pow [base, exponent] => (base, exponent)
  | factor => (factor, one)

/-- The factors of a product: the pairs of those that are not numbers, and the numbers' product. -/
def splitFactors : List Expr → ℚ → CasM (List (Expr × Expr) × ℚ)
  | [], coefficient => pure ([], coefficient)
  | factor :: rest, coefficient =>
      match exactOf factor with
      | some q => do
          let coefficient ← multiplyExactNodes coefficient q
          splitFactors rest coefficient
      | none => do
          let (pairs, coefficient) ← splitFactors rest coefficient
          pure (splitPower factor :: pairs, coefficient)

/-- The factors that are built again; a power that folds to a number joins the coefficient. -/
def buildFactors : List (Option Expr × Expr) → ℚ → CasM (List Expr × ℚ)
  | [], coefficient => pure ([], coefficient)
  | (none, _) :: rest, coefficient => buildFactors rest coefficient
  | (some base, exponent) :: rest, coefficient => do
      let power ← self.powNode base exponent
      match exactOf power with
      | some q => do
          let coefficient ← multiplyExactNodes coefficient q
          buildFactors rest coefficient
      | none => do
          let (factors, coefficient) ← buildFactors rest coefficient
          pure (power :: factors, coefficient)

/-- `collect_product_pass`: zero annihilates, else the factors and whether one of them is a product. -/
def collectProductPass (factors : List Expr) : CasM (Option (List Expr × Bool)) := do
  request
  let (pairs, coefficient) ← splitFactors factors 1
  let merged ← mergeEqual (addExponents self) (sortPairs pairs)
  let product ← mergeNegatedBases self ⟨merged.map fun pair => (some pair.1, pair.2), coefficient⟩
  request
  let (built, coefficient) ← buildFactors self product.pairs product.coefficient
  if coefficient = 0 then pure none
  else pure (some (if coefficient = 1 then built else built ++ [exactNode coefficient],
    built.any fun factor => decide (factor.label = .mul)))

/-- The passes of `collect_product`. -/
def productPasses : Nat → List Expr → CasM (Option (List Expr))
  | 0, factors => pure (some factors)
  | passes + 1, factors => do
      let flat ← flatten .mul factors
      match ← collectProductPass self flat with
      | none => pure none
      | some (built, dirty) => if dirty then productPasses passes built else pure (some built)

def collectProduct (factors : List Expr) : CasM Expr := do
  match ← productPasses self 4 factors with
  | none => pure zero
  | some factors => packOperands .mul one factors

def mulAt (operands : List Expr) : CasM Expr :=
  if operands = [] then pure one
  else do
    match ← gaussianFoldAt gaussianMultiply ⟨1, 0⟩ operands with
    | some result => pure result
    | none => do
        let factors ← flatten .mul operands
        collectProduct self factors

end PhyNspire.Cas.Core

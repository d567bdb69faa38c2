import PhyNspire.Ir.Expressions

/-!
The tree that a formula is drawn from. The builder decides on brackets from the kinds of the
nodes alone; a sum moves the sign of a negative term onto its separator, and a reciprocal
power becomes a root.
-/

namespace PhyNspire.Render
open Lib.Decimal Ir.Expressions

/-- The expressions that are written with numbers, letters, sums, products, powers and
functions of one argument. -/
inductive Formula where
  | exact (value : ℚ)
  | symbol (letter : UInt8)
  | add (terms : List Formula)
  | mul (factors : List Formula)
  | pow (base exponent : Formula)
  | function (head : Name) (argument : Formula)

/-- The nodes of a `MathTree` that these formulas are built from. -/
inductive MathNode where
  | text (bytes : List UInt8)
  | row (children : List MathNode)
  | fraction (numerator denominator : MathNode)
  | radical (degree : Option (List UInt8)) (body : MathNode)
  | delimited (opening closing : UInt8) (child : MathNode)
  | roman (bytes : List UInt8)
  | overline (child : MathNode)
  | scripts (base upper : MathNode)

def minusSign : List UInt8 := [226, 136, 146]

def ellipsis : List UInt8 := [226, 128, 166]

def displayDecimal (value : List UInt8) : List UInt8 :=
  if value.head? = some 45 then minusSign ++ value.tail else value

def asciiName (name : String) : Name := name.toList.map fun letter => UInt8.ofNat letter.toNat

def absName : Name := asciiName "Abs"

def conjugateName : Name := asciiName "Conjugate"

def factorialName : Name := asciiName "factorial"

def listName : Name := asciiName "List"

def shownHeads : List (Name × Name) :=
  [("asin", "arcsin"), ("acos", "arccos"), ("atan", "arctan"), ("asinh", "arcsinh"), ("acosh", "arccosh"),
    ("atanh", "arctanh"), ("gammafn", "Gamma"), ("loggamma", "LogGamma"), ("factorial", "Factorial"),
    ("pochhammer", "Pochhammer"), ("binomial", "Binomial"), ("digamma", "Digamma"), ("bernoulli", "BernoulliB"),
    ("harmonic", "HarmonicNumber")].map fun shown => (asciiName shown.1, asciiName shown.2)

def displayFunction (head : Name) : Name := ((shownHeads.find? (·.1 = head)).map Prod.snd).getD head

/-- `head_symbol`, for a letter: none of them has a glyph of its own but the imaginary unit. -/
def headSymbol (letter : UInt8) : MathNode := if letter = 73 then .roman [105] else .text [letter]

def precedence : Formula → Nat
  | .add _ => 20
  | .mul _ => 40
  | .pow _ _ => 60
  | _ => 100

/-- `child_with_precedence`, around a child that is built. -/
def childWithPrecedence (parent : Nat) (wrapEqual : Bool) (child : Formula) (built : MathNode) : MathNode :=
  if precedence child < parent ∨ (wrapEqual = true ∧ precedence child = parent) then .delimited 40 41 built else built

def negativeLead : Formula → Bool
  | .exact q => decide (q.num < 0)
  | .mul (.exact q :: _ :: _) => decide (q.num < 0)
  | _ => false

/-- `number_magnitude`; a coefficient of one is not printed. -/
def numberMagnitude (q : ℚ) : Option MathNode :=
  if q.num = -1 ∧ q.den = 1 then none
  else if q.den = 1 then some (.text (integerText q.num).tail)
  else some (.fraction (.text (integerText q.num).tail) (.text (integerText q.den)))

/-- `reciprocal_power`: the sign and the degree. -/
def reciprocalPower : Formula → Option (Bool × List UInt8)
  | .exact q =>
      if q.den ≠ 1 ∧ (q.num = 1 ∨ q.num = -1) then some (decide (q.num = -1), integerText q.den) else none
  | _ => none

def numberNode (q : ℚ) : MathNode :=
  if q.den = 1 then .text (displayDecimal (integerText q.num))
  else .fraction (.text (displayDecimal (integerText q.num))) (.text (integerText q.den))

/-- `radical`, around a body that is built. -/
def radicalNode (degree : List UInt8) (body : MathNode) : MathNode :=
  if degree = [50] then .radical none body else .radical (some degree) body

/-- The items of `product`, from the nodes of its factors. The dot beside longer names does not
occur between letters. -/
def productItems (negated : Bool) (factors : List Formula) (nodes : List MathNode) : List MathNode :=
  match negated, factors with
  | true, .exact q :: _ => (numberMagnitude q).toList ++ nodes.tail
  | false, .exact q :: _ :: _ => if q = -1 then .text minusSign :: nodes.tail else nodes
  | _, _ => nodes

section
variable (limit : Nat)

/-- Nothing is drawn below the nesting limit. -/
def within (depth : Nat) (node : MathNode) : MathNode := if limit ≤ depth then .text ellipsis else node

mutual
def build (depth : Nat) : Formula → MathNode
  | .exact q => within limit depth (numberNode q)
  | .symbol letter => within limit depth (headSymbol letter)
  | .add terms => within limit depth (.row (sumItems depth true terms))
  | .mul factors => within limit depth (.row (productItems false factors (factorNodes depth factors)))
  | .pow base exponent => within limit depth <|
      match reciprocalPower exponent with
      | some (negative, degree) =>
          let root := radicalNode degree (build (depth + 1) base)
          if negative then .fraction (.text [49]) root else root
      | none => .scripts (childWithPrecedence 60 true base (build (depth + 1) base)) (build (depth + 1) exponent)
  | .function head argument => within limit depth <|
      if head = absName then .delimited 124 124 (build (depth + 1) argument)
      else if head = conjugateName then .overline (build (depth + 1) argument)
      else if head = factorialName then
        .row [childWithPrecedence 60 true argument (build (depth + 1) argument), .text [33]]
      else if head = listName then .delimited 123 125 (.row [build (depth + 1) argument])
      else .row [.roman (displayFunction head), .delimited 40 41 (.row [build (depth + 2) argument])]

def factorNodes (depth : Nat) : List Formula → List MathNode
  | [] => []
  | factor :: rest => childWithPrecedence 40 false factor (build (depth + 1) factor) :: factorNodes depth rest

/-- The items of a sum; the term of a product gives its sign to the separator by `negated_term`. -/
def sumItems (depth : Nat) (first : Bool) : List Formula → List MathNode
  | [] => []
  | term :: rest =>
      (if first = false ∧ negativeLead term = true then
        [.text minusSign, negatedTerm depth term]
      else
        (if first then [] else [.text [43]]) ++ [childWithPrecedence 20 false term (build (depth + 1) term)]) ++
      sumItems depth false rest

def negatedTerm (depth : Nat) : Formula → MathNode
  | .mul factors => .row (productItems true factors (factorNodes depth factors))
  | .exact q => (numberMagnitude q).getD (.text [49])
  | _ => .text []
end

end

end PhyNspire.Render

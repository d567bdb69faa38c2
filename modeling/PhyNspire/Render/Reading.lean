import PhyNspire.Render.MathTree

/-!
What a reader takes a drawn formula for. The text is read from left to right: neighbouring digits
form one number, neighbouring factors are multiplied, a raised exponent belongs to what stands
right before it, and a minus sign negates the product that follows.
-/

namespace PhyNspire.Render
open Ir.Expressions

variable {K : Type} [Field K]

structure Meaning (K : Type) [Field K] where
  symbol : Name → K
  function : Name → K → K
  power : K → K → K
  reciprocal : ∀ (base : K) (degree : ℕ), power base (-1 / degree) = 1 / power base (1 / degree)

mutual
def value (m : Meaning K) : Formula → K
  | .exact q => q
  | .symbol letter => m.symbol [letter]
  | .add terms => (values m terms).sum
  | .mul factors => (values m factors).prod
  | .pow base exponent => m.power (value m base) (value m exponent)
  | .function head argument => m.function head (value m argument)

def values (m : Meaning K) : List Formula → List K
  | [] => []
  | first :: rest => value m first :: values m rest
end

/-- How far the reader is: the finished terms, the sign and the finished factors of the current
term, its last factor, whether that is a number still going on, and a function name without its
argument. -/
structure Reading (K : Type) where
  total : K
  product : K
  factor : Option K
  inNumber : Bool
  head : Option Name

namespace Reading

def before (total sign : K) : Reading K := ⟨total, sign, none, false, none⟩

def close (r : Reading K) : K := r.total + r.product * r.factor.getD 1

def push (r : Reading K) (v : K) (inNumber : Bool) : Reading K :=
  ⟨r.total, r.product * r.factor.getD 1, some v, inNumber, none⟩

def digit (r : Reading K) (d : Nat) : Reading K :=
  if r.inNumber then { r with factor := r.factor.map fun n => n * 10 + d } else r.push d true

def plus (r : Reading K) : Reading K := before r.close 1

/-- Between two terms the sign belongs to the second; before a term it turns the sign around. -/
def minus (r : Reading K) : Reading K :=
  if r.factor.isSome then before r.close (-1) else before r.total (-r.product)

/-- What is written behind a factor acts on it alone. -/
def attach (r : Reading K) (action : K → K) : Reading K :=
  { r with factor := r.factor.map action, inNumber := false }

/-- A bracket is an argument behind a function name and a factor elsewhere. -/
def bracket (m : Meaning K) (r : Reading K) (v : K) : Reading K :=
  r.push ((r.head.elim id m.function) v) false

end Reading

open Reading

def scanByte (m : Meaning K) (r : Reading K) (byte : UInt8) : Reading K :=
  if 48 ≤ byte ∧ byte ≤ 57 then r.digit (byte.toNat - 48)
  else if byte = 43 then r.plus
  else if byte = 33 then r.attach (m.function factorialName)
  else r.push (m.symbol [byte]) false

def scanText (m : Meaning K) (r : Reading K) (bytes : List UInt8) : Reading K :=
  if bytes.take 3 = minusSign then (bytes.drop 3).foldl (scanByte m) r.minus else bytes.foldl (scanByte m) r

/-- The function that a displayed name stands for. -/
def headOf (shown : Name) : Name := ((shownHeads.find? (·.2 = shown)).map Prod.fst).getD shown

mutual
def scan (m : Meaning K) (r : Reading K) : MathNode → Reading K
  | .text bytes => scanText m r bytes
  | .row children => scanAll m r children
  | .fraction numerator denominator =>
      r.push ((scan m (before 0 1) numerator).close / (scan m (before 0 1) denominator).close) false
  | .radical degree body =>
      r.push (m.power (scan m (before 0 1) body).close
        (1 / (degree.map fun text => (scanText m (before 0 1) text).close).getD 2)) false
  | .delimited opening _ child =>
      if opening = 40 then r.bracket m (scan m (before 0 1) child).close
      else r.push (m.function (if opening = 124 then absName else listName) (scan m (before 0 1) child).close) false
  | .roman bytes => if bytes = [105] then r.push (m.symbol [73]) false else { r with head := some (headOf bytes) }
  | .overline child => r.push (m.function conjugateName (scan m (before 0 1) child).close) false
  | .scripts base upper => (scan m r base).attach fun b => m.power b (scan m (before 0 1) upper).close

def scanAll (m : Meaning K) (r : Reading K) : List MathNode → Reading K
  | [] => r
  | first :: rest => scanAll m (scan m r first) rest
end

/-- The value that a reader sees. -/
def reading (m : Meaning K) (node : MathNode) : K := (scan m (before 0 1) node).close

end PhyNspire.Render

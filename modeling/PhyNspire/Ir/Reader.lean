import PhyNspire.Ir.Builders

/-!
The reader of text.c: expressions and declarations from S-expressions.

The cursor is the text that is left. Nesting is bounded by `max_depth` and a list's operands
by `max_children`, so the recursion is on what those limits still allow: `levels` is
`max_depth` less the reader's depth, `room` is `max_children` less the operands pushed.
-/

namespace PhyNspire.Ir.Reader
open Platform Lib Lib.Stateful Expressions Context Symbols Nodes Builders

def ascii (literal : String) : List UInt8 := literal.toList.map fun c => UInt8.ofNat c.toNat

structure Reading where
  context : IrContext
  rest : List UInt8
  error : Status
  stack : List Nat
  stackCapacity : Nat

abbrev ReadM := EStateM Refusal Reading

/-- `fail`: the first error stays, and a failure without one is a parse error. -/
def fail {α : Type} (status : Status) : ReadM α := do
  modify fun r =>
    { r with error := if r.error = .ok then (if status = .ok then .parse else status) else r.error }
  throw .null

def calling {α : Type} (call : IrM α) : ReadM α := do
  let r ← get
  match call r.context with
  | .ok value context => do
      set { r with context := context }
      pure value
  | .error _ context => do
      set { r with context := context }
      fail context.error

def isSpace (c : UInt8) : Bool := decide (c ≤ 32)

/-- A blank or a parenthesis. -/
def isTerminator (c : UInt8) : Bool := isSpace c || decide (c = 40) || decide (c = 41)

def skipSpace : ReadM Unit := modify fun r => { r with rest := r.rest.dropWhile isSpace }

def peek (expected : UInt8) : ReadM Bool := do
  skipSpace
  let r ← get
  pure (decide (r.rest.head? = some expected))

def accept (expected : UInt8) : ReadM Bool := do
  if ← peek expected then do
    modify fun r => { r with rest := r.rest.tail }
    pure true
  else pure false

def expect (expected : UInt8) : ReadM Unit := do
  if ← accept expected then pure () else fail .parse

/-- A quoted token after its opening bar: its bytes without the escapes, and the text after the
closing bar. -/
def quoted : List UInt8 → Option (List UInt8 × List UInt8)
  | [] => none
  | [c] => if c = 124 then some ([], []) else none
  | c :: d :: rest =>
      if c = 124 then some ([], d :: rest)
      else if c = 92 then (quoted rest).map fun found => (d :: found.1, found.2)
      else (quoted (d :: rest)).map fun found => (c :: found.1, found.2)

def readToken (capacity : Nat) : ReadM (List UInt8) := do
  skipSpace
  let r ← get
  let found :=
    if r.rest.head? = some 124 then quoted r.rest.tail
    else some (r.rest.takeWhile fun c => !isTerminator c, r.rest.dropWhile fun c => !isTerminator c)
  match found with
  | none => do
      set { r with rest := [] }
      fail .parse
  | some (token, rest) => do
      set { r with rest := rest }
      if token = [] ∨ capacity < token.length then fail .parse else pure token

def tokenMax : Nat := 256

def readSymbol : ReadM Nat := do
  let token ← readToken tokenMax
  calling (irInternN token)

def readBareSpan : ReadM (List UInt8) := do
  skipSpace
  let r ← get
  let span := r.rest.takeWhile fun c => !isTerminator c
  if span = [] then fail .parse
  else do
    set { r with rest := r.rest.dropWhile fun c => !isTerminator c }
    pure span

def isDigit (c : UInt8) : Bool := decide (48 ≤ c) && decide (c ≤ 57)

/-- The digits of `token_to_i64`, within 64 bits. -/
def digitsToU64 (digits : List UInt8) : Option Nat :=
  digits.foldlM (fun value c =>
    if !isDigit c then none
    else
      let digit := c.toNat - 48
      if (2 ^ 64 - 1 - digit) / 10 < value then none else some (value * 10 + digit)) 0

def tokenToI64 (token : List UInt8) : Option Int :=
  let negative := decide (token.head? = some 45)
  let digits := if negative then token.tail else token
  if digits = [] then none
  else
    match digitsToU64 digits with
    | none => none
    | some value =>
        if (if negative then 2 ^ 63 else 2 ^ 63 - 1) < value then none
        else some (if negative then -(value : Int) else value)

def tokenIsDecimalInteger (token : List UInt8) : Bool :=
  let digits := if token.head? = some 45 ∨ token.head? = some 43 then token.tail else token
  decide (digits ≠ []) && digits.all isDigit

/-- `read_u32`, over `read_i64`. -/
def readU32 : ReadM Nat := do
  let token ← readToken 32
  match tokenToI64 token with
  | none => fail .parse
  | some value => if value < 0 ∨ 0xffffffff < value then fail .parse else pure value.toNat

def hexDigit (c : UInt8) : Option Nat :=
  if isDigit c then some (c.toNat - 48)
  else if 97 ≤ c ∧ c ≤ 102 then some (c.toNat - 97 + 10)
  else none

def tokenToHex64 (token : List UInt8) : Option UInt64 :=
  if token.length ≠ 18 ∨ token.take 2 ≠ ascii "0x" then none
  else
    (token.drop 2).foldlM (fun (value : UInt64) c => (hexDigit c).map fun digit => (value <<< 4) ||| UInt64.ofNat digit) 0

/-- The kinds with a token, from `kKindInfo`. -/
def kindTokens : List (List UInt8 × Kind) :=
  [(ascii "rat", .rational), (ascii "real", .real), (ascii "idx", .index), (ascii "err", .error), (ascii "+", .add),
    (ascii "*", .mul), (ascii "nc*", .ncmul), (ascii "^", .pow), (ascii "=", .equation), (ascii "fn", .function),
    (ascii "tensor", .tensor), (ascii "op", .operator), (ascii "d", .derivative), (ascii "wedge", .wedge)]

def kindForToken (token : List UInt8) : Option Kind := kindTokens.lookup token

/-- `kStatusNames`, from the first error on. -/
def statusNames : List (List UInt8) :=
  [ascii "PHY_ERR_PLATFORM_INIT", ascii "PHY_ERR_DISPLAY_UNSUPPORTED", ascii "PHY_ERR_ALREADY_INITIALIZED",
    ascii "PHY_ERR_NOT_INITIALIZED", ascii "PHY_ERR_INVALID_ARGUMENT", ascii "PHY_ERR_OUT_OF_MEMORY",
    ascii "PHY_ERR_INTERRUPTED", ascii "PHY_ERR_PARSE", ascii "PHY_ERR_TYPE", ascii "PHY_ERR_DOMAIN",
    ascii "PHY_ERR_ASSUMPTION", ascii "PHY_ERR_UNSUPPORTED", ascii "PHY_ERR_OVERFLOW", ascii "PHY_ERR_TIMEOUT",
    ascii "PHY_ERR_NODE_LIMIT", ascii "PHY_ERR_DEPTH_LIMIT", ascii "PHY_ERR_TERM_LIMIT", ascii "PHY_ERR_MEMORY_LIMIT",
    ascii "PHY_ERR_BACKEND", ascii "PHY_ERR_CORRUPT_DOCUMENT"]

def statusForToken (token : List UInt8) : Option Nat := (statusNames.findIdx? fun name => decide (name = token)).map (· + 1)

def stackPush (ref : Nat) : ReadM Unit := do
  let r ← get
  let capacity ← calling (poolReserve 4 r.stackCapacity (r.stack.length + 1))
  modify fun r => { r with stack := r.stack ++ [ref], stackCapacity := capacity }

def withStack {α : Type} (base : Nat) (body : ReadM α) : ReadM α :=
  ensuring (fun r => { r with stack := r.stack.take base }) body

/-- The test at the head of the operand loop: is the list over? -/
def listOver : ReadM Bool := do
  if ← peek 41 then pure true
  else do
    let r ← get
    if r.rest = [] ∨ r.error ≠ .ok then fail .parse else pure false

/-- The loop of `parse_compound` up to the closing parenthesis. -/
def parseOperands (parse : ReadM Nat) : Nat → ReadM Unit
  | 0 => do
      if ← listOver then pure ()
      else do
        let _ ← parse
        fail .termLimit
  | room + 1 => do
      if ← listOver then pure ()
      else do
        let child ← parse
        stackPush child
        parseOperands parse room

def buildCompound (kind : Kind) (head : Nat) (children : List Nat) : ReadM Nat :=
  match kind, children with
  | .add, terms => calling (irAdd terms)
  | .mul, factors => calling (irMul factors)
  | .ncmul, factors => calling (irNcmul factors)
  | .wedge, factors => calling (irWedge factors)
  | .pow, [base, exponent] => calling (irPow base exponent)
  | .equation, [lhs, rhs] => calling (irEquation lhs rhs)
  | .function, args => calling (irFunction head args)
  | .tensor, indices => calling (irTensor head indices)
  | .operator, args => calling (irOperator head args)
  | .derivative, expr :: var :: vars => calling (irDerivative expr (var :: vars))
  | _, _ => fail .parse

def readHead (kind : Kind) : ReadM Nat := if kind.headed then readSymbol else pure 0

def parseCompound (parse : ReadM Nat) (kind : Kind) : ReadM Nat := do
  let head ← readHead kind
  let r ← get
  let base := r.stack.length
  withStack base do
    parseOperands parse r.context.limits.maxChildren.toNat
    let r ← get
    buildCompound kind head (r.stack.drop base)

def parseRational : ReadM Nat := do
  let numerator ← readBareSpan
  let denominator ← readBareSpan
  if !tokenIsDecimalInteger numerator || !tokenIsDecimalInteger denominator then fail .parse
  else calling (irRationalTextN numerator denominator)

def parseReal : ReadM Nat := do
  let token ← readToken 32
  match tokenToHex64 token with
  | none => fail .parse
  | some bits => calling (irReal bits)

/-- The index space, when there is one before the closing parenthesis. -/
def readSpace : ReadM Nat := do
  if ← peek 41 then pure 0 else readSymbol

def parseIndex : ReadM Nat := do
  let name ← attempt readSymbol
  let variance ← attempt (readToken 8)
  match name, variance with
  | some name, some variance => do
      if variance ≠ ascii "up" ∧ variance ≠ ascii "dn" then fail .parse
      else do
        let space ← readSpace
        calling (irIndexInSpace name (if variance = ascii "up" then 1 else 0) space)
  | _, _ => fail .parse

def parseError : ReadM Nat := do
  let name ← readToken 64
  match statusForToken name with
  | none => fail .parse
  | some code => calling (irError code)

/-- The `switch` of `parse_list`. -/
def parseKind (parse : ReadM Nat) (kind : Kind) : ReadM Nat :=
  match kind with
  | .rational => parseRational
  | .real => parseReal
  | .index => parseIndex
  | .error => parseError
  | _ => parseCompound parse kind

/-- `parse_list`, after the opening parenthesis. -/
def parseList (parse : ReadM Nat) : ReadM Nat := do
  let token ← readToken tokenMax
  match kindForToken token with
  | none => fail .parse
  | some kind => do
      let result ← parseKind parse kind
      expect 41
      pure result

def parseAtom : ReadM Nat := do
  let r ← get
  if r.rest.head? = some 45 ∨ (r.rest.head?.any isDigit) = true then do
    let token ← readBareSpan
    if !tokenIsDecimalInteger token then fail .parse else calling (irIntegerTextN token)
  else do
    let symbol ← readSymbol
    calling (irSymbolRef symbol)

/-- `parse_expr`; without a level left the depth limit is reached. -/
def parseExpr : Nat → ReadM Nat
  | 0 => do
      let r ← get
      if r.error ≠ .ok then throw .null else fail .depthLimit
  | levels + 1 => do
      let r ← get
      if r.error ≠ .ok then throw .null
      else do
        skipSpace
        let r ← get
        if r.rest = [] then fail .parse
        else if ← accept 40 then parseList (parseExpr levels)
        else parseAtom

def openReading (context : IrContext) (text : List UInt8) : Reading :=
  { context := context
    rest := text.takeWhile (· ≠ 0)
    error := .ok
    stack := []
    stackCapacity := 0 }

def readerRelease (r : Reading) : IrContext := r.context.discharge (r.stackCapacity * 4)

structure ReadAnswer where
  status : Status
  ref : Nat
  offset : Nat
deriving DecidableEq, Repr

/-- `phy_ir_read`, on the memory that holds the text. -/
def irRead (context : IrContext) (text : List UInt8) : ReadAnswer × IrContext :=
  let start := openReading context text
  let trailing : ReadM Nat := do
    let ref ← parseExpr context.limits.maxDepth.toNat
    skipSpace
    let r ← get
    if r.rest ≠ [] then fail .parse else pure ref
  match trailing start with
  | .ok ref r => (⟨.ok, ref, start.rest.length - r.rest.length⟩, readerRelease r)
  | .error _ r => (⟨r.error, 0, start.rest.length - r.rest.length⟩, readerRelease r)

/-- `kAssumptionNames`. -/
def assumptionNames : List (List UInt8 × UInt32) :=
  [(ascii "real", 1), (ascii "positive", 2), (ascii "negative", 4), (ascii "integer", 8), (ascii "nonzero", 16),
    (ascii "constant", 32), (ascii "noncommutative", 64)]

def parseSymmetry (symbol : Nat) : ReadM Unit := do
  let token ← readToken 16
  let symmetry := if token = ascii "sym" then 1 else if token = ascii "asym" then 2 else 0
  if symmetry = 0 then fail .parse
  else do
    let slotA ← readU32
    let slotB ← readU32
    expect 41
    let status ← calling (irDeclareSymmetry symbol slotA slotB symmetry)
    if status ≠ .ok then fail status else pure ()

/-- The loop of `parse_declaration`: every turn takes a byte, so no more turns are needed than
there are bytes left. -/
def parseDeclared (symbol : Nat) : Nat → UInt32 → ReadM UInt32
  | 0, assumptions => do
      if ← peek 41 then pure assumptions else fail .parse
  | turns + 1, assumptions => do
      if ← peek 41 then pure assumptions
      else do
        let r ← get
        if r.rest = [] then fail .parse
        else if ← accept 40 then do
          parseSymmetry symbol
          parseDeclared symbol turns assumptions
        else do
          let token ← readToken 32
          match assumptionNames.lookup token with
          | none => fail .parse
          | some bit => parseDeclared symbol turns (assumptions ||| bit)

def parseDeclaration : ReadM Unit := do
  let symbol ← readSymbol
  let r ← get
  let assumptions ← parseDeclared symbol r.rest.length 0
  expect 41
  if assumptions ≠ 0 then do
    let status ← calling (irAssume symbol assumptions)
    if status ≠ .ok then fail status else pure ()
  else pure ()

def parseDeclare : ReadM Unit := do
  expect 40
  let token ← readToken 16
  if token ≠ ascii "declare" then fail .parse else parseDeclaration

/-- The loop of `phy_ir_read_declarations`; every turn takes a byte here too. -/
def parseDeclarations : Nat → ReadM Unit
  | 0 => do
      skipSpace
      let r ← get
      if r.rest = [] then pure () else fail .parse
  | turns + 1 => do
      skipSpace
      let r ← get
      if r.rest = [] then pure ()
      else do
        parseDeclare
        parseDeclarations turns

def irReadDeclarations (context : IrContext) (text : List UInt8) : ReadAnswer × IrContext :=
  let start := openReading context text
  match parseDeclarations start.rest.length start with
  | .ok _ r => (⟨.ok, 0, start.rest.length - r.rest.length⟩, readerRelease r)
  | .error _ r => (⟨r.error, 0, start.rest.length - r.rest.length⟩, readerRelease r)

end PhyNspire.Ir.Reader

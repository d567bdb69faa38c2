import PhyNspire.Exact.Decimals
import PhyNspire.Lib.Trees

/-!
What the IR's nodes mean: kinds with their table, labels, and expressions as labelled
trees. The structural hash and the canonical order are functions of the expression, so
they do not see in which order a context came to hold its parts.
-/

namespace PhyNspire.Ir.Expressions
open Lib Lib.Trees Lib.Decimal Exact.Decimals

/-- `phy_ir_kind`. -/
inductive Kind where
  | invalid
  | integer
  | rational
  | real
  | symbol
  | index
  | error
  | add
  | mul
  | ncmul
  | pow
  | equation
  | function
  | tensor
  | operator
  | derivative
  | wedge
deriving DecidableEq, Repr

namespace Kind

/-- The enumerator's value. -/
def code : Kind → Nat
  | invalid => 0
  | integer => 1
  | rational => 2
  | real => 3
  | symbol => 4
  | index => 5
  | error => 6
  | add => 7
  | mul => 8
  | ncmul => 9
  | pow => 10
  | equation => 11
  | function => 12
  | tensor => 13
  | operator => 14
  | derivative => 15
  | wedge => 16

/-- Position in the canonical order, from `kKindInfo`. -/
def rank : Kind → Nat
  | invalid => 0
  | integer => 1
  | rational => 1
  | real => 2
  | symbol => 3
  | index => 4
  | error => 5
  | add => 6
  | mul => 7
  | ncmul => 8
  | pow => 9
  | equation => 10
  | function => 11
  | tensor => 12
  | operator => 13
  | derivative => 14
  | wedge => 15

def associative : Kind → Bool
  | add | mul | ncmul | wedge => true
  | _ => false

def commutative : Kind → Bool
  | add | mul => true
  | _ => false

def headed : Kind → Bool
  | symbol | index | function | tensor | operator => true
  | _ => false

end Kind

/-- `phy_ir_variance`. -/
inductive Variance where
  | lower
  | upper
deriving DecidableEq, Repr

def Variance.code : Variance → Nat
  | lower => 0
  | upper => 1

abbrev Name := List UInt8

/-- All of a node but its children. -/
inductive Label where
  | exact (value : ℚ)
  | real (bits : UInt64)
  | symbol (name : Name)
  | index (name : Name) (variance : Variance) (space : Option Name)
  | error (code : Nat)
  | add
  | mul
  | ncmul
  | pow
  | equation
  | function (head : Name)
  | tensor (head : Name)
  | operator (head : Name)
  | derivative
  | wedge
deriving DecidableEq

abbrev Expr := Rose Label

namespace Label

def kind : Label → Kind
  | exact value => if value.den = 1 then .integer else .rational
  | real _ => .real
  | symbol _ => .symbol
  | index _ _ _ => .index
  | error _ => .error
  | add => .add
  | mul => .mul
  | ncmul => .ncmul
  | pow => .pow
  | equation => .equation
  | function _ => .function
  | tensor _ => .tensor
  | operator _ => .operator
  | derivative => .derivative
  | wedge => .wedge

def head : Label → Option Name
  | symbol name => some name
  | index name _ _ => some name
  | function head => some head
  | tensor head => some head
  | operator head => some head
  | _ => none

def space : Label → Option Name
  | index _ _ space => space
  | _ => none

def atom : Label → Bool
  | exact _ | real _ | symbol _ | index _ _ _ | error _ => true
  | _ => false

end Label

/-- Both parts of the fraction fit `int64_t`, so the node needs no decimal text. -/
def Inline (q : ℚ) : Prop := FitsI64 q.num ∧ FitsI64 q.den

instance (q : ℚ) : Decidable (Inline q) := inferInstanceAs (Decidable (_ ∧ _))

def hashOffset : UInt32 := 2166136261

def hashPrime : UInt32 := 16777619

def hashBytes (seed : UInt32) (data : List UInt8) : UInt32 :=
  data.foldl (fun hash byte => (hash ^^^ byte.toUInt32) * hashPrime) seed

/-- The object representation of an unsigned integer on the device. -/
def littleEndian : Nat → Nat → List UInt8
  | 0, _ => []
  | count + 1, n => UInt8.ofNat n :: littleEndian count (n / 256)

def hashU32 (seed value : UInt32) : UInt32 := hashBytes seed (littleEndian 4 value.toNat)

def hashKind (kind : Kind) : UInt32 := hashU32 hashOffset (UInt32.ofNat kind.code)

def hashName (name : Name) : UInt32 := hashBytes hashOffset name

def bytesI64 (value : Int64) : List UInt8 := littleEndian 8 value.toUInt64.toNat

def hashExact (q : ℚ) : UInt32 :=
  if Inline q then
    if q.den = 1 then hashBytes (hashKind .integer) (bytesI64 (Int64.ofInt q.num))
    else hashBytes (hashKind .rational) (bytesI64 (Int64.ofInt q.num) ++ bytesI64 (Int64.ofInt q.den))
  else if q.den = 1 then hashBytes (hashKind .integer) (integerText q.num)
  else hashBytes (hashBytes (hashBytes (hashKind .rational) (integerText q.num)) [47]) (integerText q.den)

def hashHeadedAtom (kind : Kind) (name : Name) (aux : Nat) : UInt32 :=
  hashU32 (hashU32 (hashKind kind) (hashName name)) (UInt32.ofNat aux)

def hashCompound (kind : Kind) (nameHash : UInt32) (children : List UInt32) : UInt32 :=
  children.foldl hashU32 (hashU32 (hashU32 (hashKind kind) nameHash) (UInt32.ofNat children.length))

def hashNode (label : Label) (children : List UInt32) : UInt32 :=
  match label with
  | .exact q => hashExact q
  | .real bits => hashBytes (hashKind .real) (littleEndian 8 bits.toNat)
  | .symbol name => hashHeadedAtom .symbol name 0
  | .index name variance space =>
      hashU32 (hashHeadedAtom .index name variance.code) ((space.map hashName).getD 0)
  | .error code => hashU32 (hashKind .error) (UInt32.ofNat code)
  | compound => hashCompound compound.kind ((compound.head.map hashName).getD 0) children

/-- `phy_ir_hash`, as a function of the expression. -/
def hash : Expr → UInt32 := Rose.fold hashNode

theorem hash_node (label : Label) (children : List Expr) :
    hash (.node label children) = hashNode label (children.map hash) := Rose.fold_node _ _ _

def orderedRealKey (bits : UInt64) : UInt64 :=
  if bits &&& 0x8000000000000000 ≠ 0 then ~~~bits else bits ^^^ 0x8000000000000000

/-- Promoted numbers stand outside the inline ones, on the side of their sign. -/
def sizeClass (q : ℚ) : Nat := if Inline q then 1 else if q.num < 0 then 0 else 2

def inlineValue (q : ℚ) : ℚ := if Inline q then q else 0

def promotedNumerator (q : ℚ) : Int := if Inline q then 0 else q.num

/-- Between equal numerators the larger denominator is nearer to zero. -/
def promotedDenominator (q : ℚ) : Int := if Inline q then 0 else if q.num < 0 then q.den else -q.den

def numberOrder : ℚ → ℚ → Ordering :=
  compareLex (compareOn sizeClass) <|
  compareLex (compareOn inlineValue) <|
  compareLex (compareOn promotedNumerator) (compareOn promotedDenominator)

namespace Label

def exactValue : Label → ℚ
  | exact value => value
  | _ => 0

def realBits : Label → UInt64
  | real bits => bits
  | _ => 0

def aux : Label → Nat
  | index _ variance _ => variance.code
  | error code => code
  | _ => 0

end Label

def labelOrder : Label → Label → Ordering :=
  compareLex (compareOn (fun label => label.kind.rank)) <|
  compareLex (fun left right => numberOrder left.exactValue right.exactValue) <|
  compareLex (compareOn (fun label => orderedRealKey label.realBits)) <|
  compareLex (compareOn Label.head) <|
  compareLex (compareOn Label.aux) (compareOn Label.space)

instance : Std.TransCmp numberOrder := by
  unfold numberOrder
  infer_instance

theorem numberOrder_inline {p q : ℚ} (first : Inline p) (second : Inline q) : numberOrder p q = compare p q := by
  simp [numberOrder, compareLex, compareOn, sizeClass, inlineValue, promotedNumerator, promotedDenominator, first,
    second, Ordering.then_eq]

instance : Std.LawfulEqCmp numberOrder where
  compare_self := Std.ReflCmp.compare_self
  eq_of_compare := by
    intro p q same
    simp only [numberOrder, compareLex, Ordering.then_eq_eq, compareOn, Std.LawfulEqOrd.compare_eq_iff_eq] at same
    obtain ⟨classes, values, numerators, denominators⟩ := same
    have both : Inline p ↔ Inline q := by
      unfold sizeClass at classes
      split_ifs at classes with first second <;> simp_all
    by_cases held : Inline p
    · simpa only [inlineValue, if_pos held, if_pos (both.mp held)] using values
    · have held' : ¬Inline q := fun other => held (both.mpr other)
      simp only [promotedNumerator, if_neg held, if_neg held'] at numerators
      simp only [promotedDenominator, if_neg held, if_neg held', numerators] at denominators
      refine Rat.ext numerators ?_
      split_ifs at denominators <;> omega

instance : Std.TransCmp labelOrder := by
  have numbers : Std.TransCmp (fun left right : Label => numberOrder left.exactValue right.exactValue) := transCmp_on
  unfold labelOrder
  infer_instance

theorem toNat_orderedRealKey (bits : UInt64) : (orderedRealKey bits).toNat =
    if bits.toNat < 2 ^ 63 then bits.toNat + 2 ^ 63 else 2 ^ 64 - 1 - bits.toNat := by
  have word := bits.toNat_lt
  have mask : (bits &&& 0x8000000000000000).toNat = if bits.toNat < 2 ^ 63 then 0 else 2 ^ 63 := by
    have low : (bits.toNat &&& 2 ^ 63) % 2 ^ 63 = 0 := by
      rw [Nat.and_mod_two_pow, Nat.mod_self, Nat.and_zero]
    have high : (bits.toNat &&& 2 ^ 63) / 2 ^ 63 = bits.toNat / 2 ^ 63 % 2 := by
      rw [Nat.and_div_two_pow, Nat.div_self (by decide), Nat.and_one_is_mod]
    rw [UInt64.toNat_and]
    change bits.toNat &&& 2 ^ 63 = _
    split <;> omega
  have flipped : bits.toNat < 2 ^ 63 → bits.toNat ^^^ 2 ^ 63 = bits.toNat + 2 ^ 63 := by
    intro small
    have low : (bits.toNat ^^^ 2 ^ 63) % 2 ^ 63 = bits.toNat := by
      rw [Nat.xor_mod_two_pow, Nat.mod_self, Nat.xor_zero, Nat.mod_eq_of_lt small]
    have high : (bits.toNat ^^^ 2 ^ 63) / 2 ^ 63 = 1 := by
      rw [Nat.xor_div_two_pow, Nat.div_self (by decide), Nat.div_eq_of_lt small, Nat.zero_xor]
    omega
  unfold orderedRealKey
  by_cases small : bits.toNat < 2 ^ 63
  · rw [if_pos small] at mask ⊢
    rw [if_neg (not_not.mpr (UInt64.toNat_inj.mp mask)), UInt64.toNat_xor]
    exact flipped small
  · rw [if_neg small] at mask ⊢
    rw [if_pos (fun zero => by rw [zero] at mask; cases mask), UInt64.toNat_not]
    rfl

theorem orderedRealKey_injective : Function.Injective orderedRealKey := by
  intro a b same
  have keys := congrArg UInt64.toNat same
  rw [toNat_orderedRealKey, toNat_orderedRealKey] at keys
  have word := a.toNat_lt
  have word' := b.toNat_lt
  refine UInt64.toNat_inj.mp ?_
  split_ifs at keys <;> omega

theorem Variance.code_injective : Function.Injective Variance.code := by
  intro a b same
  cases a <;> cases b <;> first | rfl | cases same

theorem Label.eq_of_parts {a b : Label} (rank : a.kind.rank = b.kind.rank) (number : a.exactValue = b.exactValue)
    (real : a.realBits = b.realBits) (head : a.head = b.head) (aux : a.aux = b.aux) (space : a.space = b.space) :
    a = b := by
  cases a <;> cases b <;> first
    | (simp [Label.kind, Kind.rank] at rank; done)
    | (simp only [Label.kind] at rank; split at rank <;> exact absurd rank (by decide))
    | simp_all [Label.exactValue, Label.realBits, Label.head, Label.aux, Label.space,
        Variance.code_injective.eq_iff]

instance : Std.LawfulEqCmp labelOrder where
  compare_self := Std.ReflCmp.compare_self
  eq_of_compare := by
    intro a b same
    simp only [labelOrder, compareLex, Ordering.then_eq_eq, compareOn, Std.LawfulEqOrd.compare_eq_iff_eq,
      Std.LawfulEqCmp.compare_eq_iff_eq, orderedRealKey_injective.eq_iff] at same
    obtain ⟨rank, number, real, head, aux, space⟩ := same
    exact Label.eq_of_parts rank number real head aux space

/-- `phy_ir_compare`, as a function of the expressions. -/
def compareExprs : Expr → Expr → Ordering := compareTrees labelOrder

instance : Std.TransCmp compareExprs := inferInstanceAs (Std.TransCmp (compareTrees labelOrder))

instance : Std.LawfulEqCmp compareExprs := inferInstanceAs (Std.LawfulEqCmp (compareTrees labelOrder))

end PhyNspire.Ir.Expressions

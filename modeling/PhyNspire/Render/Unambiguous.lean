import PhyNspire.Render.Reading

/-!
A drawn formula reads as the expression it was built from, unless a negative integer stands where
its sign escapes or a number follows a number.
-/

namespace PhyNspire.Render
open Lib.Decimal Ir.Expressions Reading

variable {K : Type} [Field K] {m : Meaning K}

mutual
def parts : Formula → List Formula
  | .exact q => [.exact q]
  | .symbol letter => [.symbol letter]
  | .add terms => .add terms :: partsAll terms
  | .mul factors => .mul factors :: partsAll factors
  | .pow base exponent => .pow base exponent :: (parts base ++ parts exponent)
  | .function head argument => .function head argument :: parts argument

def partsAll : List Formula → List Formula
  | [] => []
  | first :: rest => parts first ++ partsAll rest
end

mutual
/-- How many levels of `build` a formula takes. -/
def nesting : Formula → Nat
  | .exact _ => 1
  | .symbol _ => 1
  | .add terms => nestingAll terms + 1
  | .mul factors => nestingAll factors + 1
  | .pow base exponent => max (nesting base) (nesting exponent) + 1
  | .function head argument =>
      nesting argument + if head ∈ [absName, conjugateName, factorialName, listName] then 1 else 2

def nestingAll : List Formula → Nat
  | [] => 0
  | first :: rest => max (nesting first) (nestingAll rest)
end

/-- What the builders of the IR promise about a node, and letters that are letters. -/
def Shaped : Formula → Prop
  | .symbol letter => (65 ≤ letter ∧ letter ≤ 90) ∨ (97 ≤ letter ∧ letter ≤ 122)
  | .add terms => 2 ≤ terms.length ∧ ∀ term ∈ terms, precedence term ≠ 20
  | .mul factors => 2 ≤ factors.length ∧ ∀ factor ∈ factors, precedence factor ≠ 40
  | _ => True

def isInteger : Formula → Bool
  | .exact q => decide (q.den = 1)
  | _ => false

def isNegativeInteger : Formula → Bool
  | .exact q => decide (q.den = 1 ∧ q.num < 0)
  | _ => false

def opensNumber : Formula → Bool
  | .exact q => decide (q.den = 1)
  | .pow base exponent => (reciprocalPower exponent).isNone && decide (precedence base = 100) && opensNumber base
  | .function head argument =>
      decide (head = factorialName) && decide (precedence argument = 100) && opensNumber argument
  | _ => false

/-- No factor after the first shows a sign, and no number is followed by a number. -/
def Apart : List Formula → Prop
  | first :: next :: rest =>
      isNegativeInteger next = false ∧ (isInteger first && opensNumber next) = false ∧ Apart (next :: rest)
  | _ => True

def written : List Formula → List Formula
  | .exact q :: next :: rest => if q = -1 then next :: rest else .exact q :: next :: rest
  | factors => factors

/-- The places where a drawing can be misread do not occur at this node: a negative integer under an exponent or
a factorial sign, factors that run together, and a function that is shown under another's name. -/
def Clear : Formula → Prop
  | .mul factors => Apart (written factors)
  | .pow base exponent => (reciprocalPower exponent).isSome = true ∨ isNegativeInteger base = false
  | .function head argument => (head ∉ shownHeads.map Prod.snd ∧ head ≠ [105]) ∧
      (head = factorialName → isNegativeInteger argument = false)
  | _ => True

variable {P : Formula → Prop}

theorem induct (exact : ∀ q, P (.exact q)) (symbol : ∀ letter, P (.symbol letter))
    (add : ∀ terms, (∀ term ∈ terms, P term) → P (.add terms))
    (mul : ∀ factors, (∀ factor ∈ factors, P factor) → P (.mul factors))
    (pow : ∀ base exponent, P base → P exponent → P (.pow base exponent))
    (function : ∀ head argument, P argument → P (.function head argument)) : ∀ f, P f :=
  @Formula.rec P (fun list => ∀ f ∈ list, P f) exact symbol add mul pow function
    (fun _ inside => absurd inside List.not_mem_nil)
    fun _ _ here later _ inside => (List.mem_cons.mp inside).elim (fun same => same ▸ here) (later _)

theorem mem_parts (f : Formula) : f ∈ parts f := by
  cases f <;> simp [parts]

theorem parts_subset {list : List Formula} {f : Formula} (inside : f ∈ list) : parts f ⊆ partsAll list := by
  induction list with
  | nil => cases inside
  | cons first rest ih =>
    rw [partsAll]
    rcases List.mem_cons.mp inside with rfl | later
    · exact List.subset_append_left _ _
    · exact List.Subset.trans (ih later) (List.subset_append_right _ _)

theorem nesting_le {list : List Formula} {f : Formula} (inside : f ∈ list) : nesting f ≤ nestingAll list := by
  induction list with
  | nil => cases inside
  | cons first rest ih =>
    rw [nestingAll]
    rcases List.mem_cons.mp inside with rfl | later
    · exact le_max_left _ _
    · exact (ih later).trans (le_max_right _ _)

theorem scanByte_digit (r : Reading K) {d : Nat} (small : d < 10) : scanByte m r (digitByte d) = r.digit d := by
  have byte := toNat_digitByte small
  unfold scanByte
  rw [if_pos, byte, Nat.add_sub_cancel_left]
  rw [UInt8.le_iff_toNat_le, UInt8.le_iff_toNat_le, byte]
  exact ⟨Nat.le_add_right 48 d, by change 48 + d ≤ 57; omega⟩

theorem scan_digits (bytes : List UInt8) (digits : ∀ byte ∈ bytes, ∃ d < 10, byte = digitByte d) (r : Reading K) (n : Nat) :
    bytes.foldl (scanByte m) (r.push n true) = r.push (continued n bytes) true := by
  induction bytes generalizing n with
  | nil => rfl
  | cons first rest ih =>
    obtain ⟨d, small, rfl⟩ := digits first List.mem_cons_self
    have next : (r.push (n : K) true).digit d = r.push ((n * 10 + d : ℕ) : K) true := by
      simp [digit, push]
    rw [List.foldl_cons, scanByte_digit _ small, next, ih fun byte later => digits byte (List.mem_cons_of_mem _ later)]
    rw [continued, continued, List.foldl_cons, toNat_digitByte small, Nat.add_sub_cancel_left]

theorem naturalText_unsigned (n : Nat) : (naturalText n).take 3 ≠ minusSign := by
  intro same
  have inside : (226 : UInt8) ∈ (naturalText n).take 3 := by
    rw [same]
    exact List.mem_cons_self
  obtain ⟨d, small, equal⟩ := mem_naturalText (List.mem_of_mem_take inside)
  have bytes := congrArg UInt8.toNat equal
  rw [toNat_digitByte small] at bytes
  change 226 = 48 + d at bytes
  omega

theorem scan_natural {r : Reading K} (closed : r.inNumber = false) (n : Nat) :
    scanText m r (naturalText n) = r.push n true := by
  have digits : ∀ byte ∈ naturalText n, ∃ d < 10, byte = digitByte d := fun byte => mem_naturalText
  obtain ⟨first, rest, split⟩ := List.exists_cons_of_ne_nil (naturalText_ne_nil n)
  have whole := continued_naturalText n
  rw [scanText, if_neg (naturalText_unsigned n)]
  rw [split] at digits whole ⊢
  obtain ⟨d, small, rfl⟩ := digits first List.mem_cons_self
  have start : scanByte m r (digitByte d) = r.push (d : K) true := by
    rw [scanByte_digit r small, digit, closed]
    rfl
  rw [List.foldl_cons, start, scan_digits rest fun byte later => digits byte (List.mem_cons_of_mem _ later), ← whole]
  rw [continued, continued, List.foldl_cons, toNat_digitByte small, Nat.add_sub_cancel_left, zero_mul, zero_add]

theorem integerText_natCast (n : Nat) : integerText n = naturalText n := by
  rw [integerText, if_neg (by omega), Int.natAbs_natCast]

theorem displayDecimal_nonneg {z : Int} (nonneg : 0 ≤ z) : displayDecimal (integerText z) = naturalText z.natAbs := by
  rw [displayDecimal, if_neg fun minus => absurd ((head_integerText z).mp minus) (by omega), integerText, if_neg (by omega)]

theorem scan_nonneg {r : Reading K} (closed : r.inNumber = false) {z : Int} (nonneg : 0 ≤ z) :
    scanText m r (displayDecimal (integerText z)) = r.push z true := by
  rw [displayDecimal_nonneg nonneg, scan_natural closed]
  congr 1
  rw [← Int.cast_natCast, Int.natAbs_of_nonneg nonneg]

theorem scan_signed (r : Reading K) (bytes : List UInt8) :
    scanText m r (minusSign ++ bytes) = bytes.foldl (scanByte m) r.minus := rfl

theorem scan_minus (r : Reading K) : scan m r (.text minusSign) = r.minus := rfl

theorem scan_negative (r : Reading K) {z : Int} (negative : z < 0) :
    scanText m r (displayDecimal (integerText z)) = r.minus.push z.natAbs true := by
  have shown : displayDecimal (integerText z) = minusSign ++ naturalText z.natAbs := by
    rw [displayDecimal, if_pos ((head_integerText z).mpr negative), integerText, if_pos negative, List.tail_cons]
  have closed : r.minus.inNumber = false := by
    unfold minus
    split <;> rfl
  have digits := scan_natural (m := m) closed z.natAbs
  rw [scanText, if_neg (naturalText_unsigned _)] at digits
  rw [shown, scan_signed, digits]

/-- The reader has taken in a part of a term. -/
structure Advances (r : Reading K) (v : K) (r' : Reading K) : Prop where
  total : r'.total = r.total
  head : r'.head = none
  read : r'.factor.isSome = true
  value : r'.product * r'.factor.getD 1 = r.product * r.factor.getD 1 * v

theorem advances_push (r : Reading K) (v : K) (inNumber : Bool) : Advances r v (r.push v inNumber) :=
  ⟨rfl, rfl, rfl, rfl⟩

theorem Advances.trans {r r' r'' : Reading K} {v w : K} (first : Advances r v r') (second : Advances r' w r'') :
    Advances r (v * w) r'' :=
  ⟨second.total.trans first.total, second.head, second.read, by rw [second.value, first.value, mul_assoc]⟩

theorem Advances.closed {r r' : Reading K} {v : K} (advances : Advances r v r') :
    r'.close = r.total + r.product * r.factor.getD 1 * v := by
  rw [close, advances.total, advances.value]

theorem Advances.from_sign {total sign v : K} {r : Reading K} (advances : Advances (before total sign) v r) :
    r.close = total + sign * v := by
  rw [advances.closed]
  simp [before]

theorem minus_before (total sign : K) : (before total sign).minus = before total (-sign) := rfl

theorem Advances.negated {total sign v : K} {r : Reading K} (advances : Advances (before total (-sign)) v r) :
    Advances (before total sign) (-v) r :=
  ⟨advances.total, advances.head, advances.read, by rw [advances.value]; simp [before]⟩

structure Reads (m : Meaning K) (f : Formula) (node : MathNode) : Prop where
  whole : (scan m (before 0 1) node).close = value m f
  term : precedence f ≠ 20 → ∀ total sign, Advances (before total sign) (value m f) (scan m (before total sign) node)
  factor : 60 ≤ precedence f → isNegativeInteger f = false → ∀ r : Reading K, r.head = none →
    (opensNumber f = true → r.inNumber = false) → scan m r node = r.push (value m f) (isInteger f)

theorem reads_of_term {f : Formula} {node : MathNode}
    (term : ∀ total sign, Advances (before total sign) (value m f) (scan m (before total sign) node))
    (factor : 60 ≤ precedence f → isNegativeInteger f = false → ∀ r : Reading K, r.head = none →
      (opensNumber f = true → r.inNumber = false) → scan m r node = r.push (value m f) (isInteger f)) : Reads m f node :=
  ⟨by rw [(term 0 1).from_sign, zero_add, one_mul], fun _ => term, factor⟩

theorem reads_of_factor {f : Formula} {node : MathNode} (factor : ∀ r : Reading K, r.head = none →
    (opensNumber f = true → r.inNumber = false) → scan m r node = r.push (value m f) (isInteger f)) : Reads m f node :=
  reads_of_term (fun total sign => by rw [factor _ rfl fun _ => rfl]; exact advances_push _ _ _)
    fun _ _ r lone closed => factor r lone closed

theorem reads_number (q : ℚ) : Reads m (.exact q) (numberNode q) := by
  by_cases integer : q.den = 1
  · have whole : (q : K) = q.num := by rw [Rat.cast_def, integer, Nat.cast_one, div_one]
    have node : numberNode q = .text (displayDecimal (integerText q.num)) := if_pos integer
    rw [node]
    refine reads_of_term (fun total sign => ?_) (fun _ nonneg r _ closed => ?_)
    · rcases lt_or_ge q.num 0 with negative | nonneg
      · have magnitude : (q : K) = -(q.num.natAbs : K) := by
          rw [whole, ← Int.cast_natCast, Int.ofNat_natAbs_of_nonpos negative.le, Int.cast_neg, neg_neg]
        rw [value, magnitude, scan, scan_negative _ negative, minus_before]
        exact (advances_push _ _ _).negated
      · rw [scan, scan_nonneg rfl nonneg, value, whole]
        exact advances_push _ _ _
    · have nonneg : 0 ≤ q.num := by simpa [isNegativeInteger, integer] using nonneg
      have closed : r.inNumber = false := closed (decide_eq_true integer)
      rw [scan, scan_nonneg closed nonneg, value, whole, isInteger, decide_eq_true integer]
  · have node : numberNode q = .fraction (.text (displayDecimal (integerText q.num))) (.text (integerText q.den)) :=
      if_neg integer
    have above : (scanText m (before (0 : K) 1) (displayDecimal (integerText q.num))).close = q.num := by
      rcases lt_or_ge q.num 0 with negative | nonneg
      · rw [scan_negative _ negative, minus_before, (advances_push _ _ _).negated.from_sign, zero_add, one_mul,
          ← Int.cast_natCast, Int.ofNat_natAbs_of_nonpos negative.le, Int.cast_neg, neg_neg]
      · rw [scan_nonneg rfl nonneg, (advances_push _ _ _).from_sign, zero_add, one_mul]
    have below : (scanText m (before (0 : K) 1) (integerText q.den)).close = q.den := by
      rw [integerText_natCast, scan_natural rfl, (advances_push _ _ _).from_sign, zero_add, one_mul]
    refine reads_of_factor fun r _ _ => ?_
    rw [node, scan, scan, scan, above, below, value, Rat.cast_def, isInteger, decide_eq_false integer]

theorem reads_symbol {letter : UInt8} (shaped : Shaped (.symbol letter)) : Reads m (.symbol letter) (headSymbol letter) := by
  refine reads_of_factor fun r _ _ => ?_
  unfold headSymbol
  split
  · rename_i unit
    rw [scan, if_pos rfl, value, unit]
    rfl
  · have plain : ¬(48 ≤ letter ∧ letter ≤ 57) ∧ letter ≠ 43 ∧ letter ≠ 33 := by
      unfold Shaped at shaped
      grind
    have unsigned : [letter].take 3 ≠ minusSign := fun same => by cases congrArg List.length same
    rw [scan, scanText, if_neg unsigned, List.foldl_cons, List.foldl_nil, scanByte, if_neg plain.1, if_neg plain.2.1,
      if_neg plain.2.2, value]
    rfl

theorem scan_bracket {f : Formula} {node : MathNode} (reads : Reads m f node) {r : Reading K} (lone : r.head = none) :
    scan m r (.delimited 40 41 node) = r.push (value m f) false := by
  rw [scan, if_pos rfl, reads.whole, bracket, lone]
  rfl

theorem isInteger_of_precedence {f : Formula} (compound : precedence f ≠ 100) : isInteger f = false := by
  cases f with
  | exact q => exact absurd rfl compound
  | _ => rfl

theorem child_reads {f : Formula} {node : MathNode} (reads : Reads m f node) {parent : Nat} {wrapEqual : Bool}
    (fits : ¬(precedence f < parent ∨ (wrapEqual = true ∧ precedence f = parent)) → 60 ≤ precedence f)
    (bracketed : precedence f < parent ∨ (wrapEqual = true ∧ precedence f = parent) → precedence f ≠ 100)
    (nonneg : isNegativeInteger f = false) {r : Reading K} (lone : r.head = none)
    (closed : ¬(precedence f < parent ∨ (wrapEqual = true ∧ precedence f = parent)) → opensNumber f = true →
      r.inNumber = false) :
    scan m r (childWithPrecedence parent wrapEqual f node) = r.push (value m f) (isInteger f) := by
  unfold childWithPrecedence
  split
  · rename_i wrapped
    rw [scan_bracket reads lone, isInteger_of_precedence (bracketed wrapped)]
  · rename_i bare
    exact reads.factor (fits bare) nonneg r lone (closed bare)

theorem precedence_cases (f : Formula) : precedence f = 20 ∨ precedence f = 40 ∨ precedence f = 60 ∨ precedence f = 100 := by
  cases f <;> simp [precedence]

/-- The base of a power and the argument of a factorial stand in brackets unless they are atoms. -/
theorem base_reads {f : Formula} {node : MathNode} (reads : Reads m f node) (nonneg : isNegativeInteger f = false)
    {r : Reading K} (lone : r.head = none)
    (closed : precedence f = 100 → opensNumber f = true → r.inNumber = false) :
    scan m r (childWithPrecedence 60 true f node) = r.push (value m f) (isInteger f) := by
  have cases := precedence_cases f
  refine child_reads reads (fun bare => ?_) (fun wrapped => ?_) nonneg lone fun bare => closed ?_
  · simp only [true_and, not_or, not_lt] at bare
    exact bare.1
  · omega
  · simp only [true_and, not_or, not_lt] at bare
    omega

theorem reads_root {base : Formula} {node : MathNode} (reads : Reads m base node) (r : Reading K) (degree : Nat) :
    scan m r (radicalNode (integerText degree) node) = r.push (m.power (value m base) (1 / degree)) false := by
  unfold radicalNode
  split
  · rename_i two
    have same : (degree : Int) = 2 := integerText_injective two
    have cast : (degree : K) = 2 := by
      rw [show degree = 2 by omega]
      rfl
    rw [scan, reads.whole, cast]
    rfl
  · have text : (scanText m (before (0 : K) 1) (integerText degree)).close = degree := by
      rw [integerText_natCast, scan_natural rfl, (advances_push _ _ _).from_sign, zero_add, one_mul]
    rw [scan, reads.whole, Option.map_some, text, Option.getD_some]

theorem reciprocalPower_spec {exponent : Formula} {negative : Bool} {degree : List UInt8}
    (root : reciprocalPower exponent = some (negative, degree)) :
    ∃ q : ℚ, exponent = .exact q ∧ degree = integerText q.den ∧
      (q : K) = if negative then -1 / (q.den : K) else 1 / (q.den : K) := by
  unfold reciprocalPower at root
  split at root
  · rename_i q
    split at root
    · rename_i reciprocal
      simp only [Option.some.injEq, Prod.mk.injEq] at root
      refine ⟨q, rfl, root.2.symm, ?_⟩
      rcases reciprocal.2 with one | minus
      · rw [← root.1, one, Rat.cast_def, one]
        simp
      · rw [← root.1, minus, Rat.cast_def, minus]
        simp
    · cases root
  · cases root

theorem reads_pow {base exponent : Formula} {node node' : MathNode} (reads : Reads m base node)
    (reads' : Reads m exponent node') (clear : Clear (.pow base exponent)) :
    Reads m (.pow base exponent) (match reciprocalPower exponent with
      | some (negative, degree) =>
          let root := radicalNode degree node
          if negative then .fraction (.text [49]) root else root
      | none => .scripts (childWithPrecedence 60 true base node) node') := by
  refine reads_of_factor fun r lone closed => ?_
  cases root : reciprocalPower exponent with
  | some found =>
    obtain ⟨negative, degree⟩ := found
    obtain ⟨q, rfl, rfl, worth⟩ := reciprocalPower_spec (K := K) root
    rw [value, value, worth]
    cases negative with
    | false => exact reads_root reads r q.den
    | true =>
      have one : (scan m (before (0 : K) 1) (.text [49])).close = 1 := by
        have text := scan_natural (m := m) (r := before (0 : K) 1) rfl 1
        change scan m (before 0 1) (.text [49]) = _ at text
        rw [text, (advances_push _ _ _).from_sign, zero_add, one_mul, Nat.cast_one]
      change scan m r (.fraction (.text [49]) (radicalNode (integerText q.den) node)) = _
      rw [scan, one, reads_root reads, (advances_push _ _ _).from_sign, zero_add, one_mul, if_pos rfl, m.reciprocal]
      rfl
  | none =>
    have nonneg : isNegativeInteger base = false := by
      rcases clear with some | nonneg
      · rw [root] at some
        cases some
      · exact nonneg
    have drawn := base_reads reads nonneg lone fun atom opens => closed (by simp [opensNumber, root, atom, opens])
    change scan m r (.scripts (childWithPrecedence 60 true base node) node') = _
    rw [scan, drawn, reads'.whole]
    rfl

theorem headOf_display {head : Name} (named : head ∉ shownHeads.map Prod.snd ∧ head ≠ [105]) :
    headOf (displayFunction head) = head ∧ displayFunction head ≠ [105] := by
  have table : ∀ shown ∈ shownHeads, headOf shown.2 = shown.1 ∧ shown.2 ≠ [105] := by decide
  unfold displayFunction
  cases found : shownHeads.find? (·.1 = head) with
  | some shown =>
    have same : shown.1 = head := by simpa using List.find?_some found
    exact same ▸ table shown (List.mem_of_find?_eq_some found)
  | none =>
    have other : shownHeads.find? (·.2 = head) = none := by
      rw [List.find?_eq_none]
      exact fun shown inside same => named.1 (List.mem_map.mpr ⟨shown, inside, by simpa using same⟩)
    refine ⟨?_, named.2⟩
    change headOf head = head
    rw [headOf, other]
    rfl

theorem reads_function {head : Name} {argument : Formula} {node node' : MathNode} (reads : Reads m argument node)
    (reads' : head ∉ [absName, conjugateName, factorialName, listName] → Reads m argument node')
    (clear : Clear (.function head argument)) : Reads m (.function head argument)
      (if head = absName then .delimited 124 124 node
      else if head = conjugateName then .overline node
      else if head = factorialName then .row [childWithPrecedence 60 true argument node, .text [33]]
      else if head = listName then .delimited 123 125 (.row [node])
      else .row [.roman (displayFunction head), .delimited 40 41 (.row [node'])]) := by
  refine reads_of_factor fun r lone closed => ?_
  split_ifs with abs conjugate factorial list
  · rw [scan, if_neg (by decide), reads.whole, value, abs]
    rfl
  · rw [scan, reads.whole, value, conjugate]
    rfl
  · have drawn := base_reads reads (clear.2 factorial) lone fun atom opens =>
      closed (by simp [opensNumber, factorial, atom, opens])
    rw [scan, scanAll, drawn, value, factorial]
    rfl
  · rw [scan, if_neg (by decide), scan, scanAll, scanAll, reads.whole, value, list]
    rfl
  · have plain := reads' (by simp [abs, conjugate, factorial, list])
    obtain ⟨back, named⟩ := headOf_display clear.1
    have name : scan m r (.roman (displayFunction head)) = { r with head := some head } := by
      rw [scan, if_neg named, back]
    rw [scan, scanAll, scanAll, scanAll, name, scan, if_pos rfl, scan, scanAll, scanAll, plain.whole, value]
    rfl

section
variable {limit depth : Nat} {first : Formula} {factors terms rest : List Formula} {total sign : K}

theorem Apart.tail (apart : Apart (first :: rest)) : Apart rest := by
  cases rest with
  | nil => trivial
  | cons next rest => exact apart.2.2

theorem Apart.next (apart : Apart (first :: rest)) :
    ∀ f ∈ rest.head?, isNegativeInteger f = false ∧ (opensNumber f = true → isInteger first = false) := by
  cases rest with
  | nil => exact fun _ none => by cases none
  | cons next rest =>
    rintro f same
    cases same
    refine ⟨apart.1, fun opens => ?_⟩
    have either := apart.2.1
    rwa [opens, Bool.and_true] at either

theorem rest_reads (reads : ∀ f ∈ factors, Reads m f (build limit (depth + 1) f)) (flat : ∀ f ∈ factors, precedence f ≠ 40)
    (apart : Apart factors) {r : Reading K} (lone : r.head = none) (read : r.factor.isSome = true)
    (follows : ∀ f ∈ factors.head?, isNegativeInteger f = false ∧ (opensNumber f = true → r.inNumber = false)) :
    Advances r (values m factors).prod (scanAll m r (factorNodes limit depth factors)) := by
  induction factors generalizing r with
  | nil => exact ⟨rfl, lone, read, by rw [values, List.prod_nil, mul_one]; rfl⟩
  | cons f rest ih =>
    obtain ⟨nonneg, closed⟩ := follows f rfl
    have cases := precedence_cases f
    have bare := flat f List.mem_cons_self
    have drawn : scan m r (childWithPrecedence 40 false f (build limit (depth + 1) f)) = r.push (value m f) (isInteger f) :=
      child_reads (reads f List.mem_cons_self) (by simp; omega) (by simp; omega) nonneg lone fun _ => closed
    rw [factorNodes, scanAll, drawn, values, List.prod_cons]
    refine (advances_push r _ (isInteger f)).trans (ih (fun g later => reads g (List.mem_cons_of_mem _ later))
      (fun g later => flat g (List.mem_cons_of_mem _ later)) apart.tail rfl rfl apart.next)

theorem factors_read (nonempty : factors ≠ []) (reads : ∀ f ∈ factors, Reads m f (build limit (depth + 1) f))
    (flat : ∀ f ∈ factors, precedence f ≠ 40) (apart : Apart factors) :
    Advances (before total sign) (values m factors).prod (scanAll m (before total sign) (factorNodes limit depth factors)) := by
  obtain ⟨f, rest, rfl⟩ := List.exists_cons_of_ne_nil nonempty
  have cases := precedence_cases f
  have bare := flat f List.mem_cons_self
  have first : ∃ r, scan m (before total sign) (childWithPrecedence 40 false f (build limit (depth + 1) f)) = r ∧
      Advances (before total sign) (value m f) r ∧ (isInteger f = false → r.inNumber = false) := by
    refine ⟨_, rfl, ?_⟩
    cases negative : isNegativeInteger f with
    | false =>
      rw [child_reads (reads f List.mem_cons_self) (by simp; omega) (by simp; omega) negative rfl fun _ _ => rfl]
      exact ⟨advances_push _ _ _, fun other => other⟩
    | true =>
      have integer : isInteger f = true ∧ precedence f = 100 := by
        unfold isNegativeInteger at negative
        split at negative
        · exact ⟨decide_eq_true (of_decide_eq_true negative).1, rfl⟩
        · cases negative
      rw [childWithPrecedence, if_neg (by simp [integer.2])]
      exact ⟨(reads f List.mem_cons_self).term (by omega) total sign, fun other => by rw [integer.1] at other; cases other⟩
  obtain ⟨r, drawn, advances, closed⟩ := first
  rw [factorNodes, scanAll, drawn, values, List.prod_cons]
  refine advances.trans (rest_reads (fun g later => reads g (List.mem_cons_of_mem _ later))
    (fun g later => flat g (List.mem_cons_of_mem _ later)) apart.tail advances.head advances.read ?_)
  exact fun g next => ⟨(apart.next g next).1, fun opens => closed ((apart.next g next).2 opens)⟩

theorem reads_mul (nonempty : factors ≠ []) (reads : ∀ f ∈ factors, Reads m f (build limit (depth + 1) f))
    (flat : ∀ f ∈ factors, precedence f ≠ 40) (apart : Apart (written factors)) :
    Reads m (.mul factors) (.row (productItems false factors (factorNodes limit depth factors))) := by
  refine reads_of_term (fun total sign => ?_) fun high => by simp [precedence] at high
  rw [scan, value]
  by_cases signed : ∃ next rest, factors = .exact (-1) :: next :: rest
  · obtain ⟨next, rest, rfl⟩ := signed
    have items : productItems false (.exact (-1) :: next :: rest) (factorNodes limit depth (.exact (-1) :: next :: rest)) =
        .text minusSign :: factorNodes limit depth (next :: rest) := rfl
    have others : Advances (before total (-sign)) (values m (next :: rest)).prod
        (scanAll m (before total (-sign)) (factorNodes limit depth (next :: rest))) :=
      factors_read (List.cons_ne_nil next rest) (fun f later => reads f (List.mem_cons_of_mem _ later))
        (fun f later => flat f (List.mem_cons_of_mem _ later)) apart
    rw [items, scanAll, scan_minus, minus_before, values, List.prod_cons, value, Rat.cast_neg, Rat.cast_one,
      neg_one_mul]
    exact others.negated
  · have plain : productItems false factors (factorNodes limit depth factors) = factorNodes limit depth factors ∧
        written factors = factors := by
      rcases factors with _ | ⟨first, _ | ⟨next, rest⟩⟩
      · exact ⟨rfl, rfl⟩
      · cases first <;> exact ⟨rfl, rfl⟩
      · cases first with
        | exact q =>
          have other : q ≠ -1 := fun same => signed ⟨next, rest, by rw [same]⟩
          exact ⟨if_neg other, if_neg other⟩
        | _ => exact ⟨rfl, rfl⟩
    rw [plain.1]
    exact factors_read nonempty reads flat (plain.2 ▸ apart)

theorem magnitude_reads {q : ℚ} (negative : q.num < 0) {node : MathNode} (printed : numberMagnitude q = some node)
    {r : Reading K} (closed : r.inNumber = false) : scan m r node = r.push (-q : K) (isInteger (.exact q)) := by
  have tail : (integerText q.num).tail = naturalText q.num.natAbs := by rw [integerText, if_pos negative, List.tail_cons]
  have magnitude : (q.num.natAbs : K) = -q.num := by
    rw [← Int.cast_natCast, Int.ofNat_natAbs_of_nonpos negative.le, Int.cast_neg]
  have read (n : Nat) : (scan m (before (0 : K) 1) (.text (naturalText n))).close = n := by
    rw [scan, scan_natural rfl, (advances_push _ _ _).from_sign, zero_add, one_mul]
  unfold numberMagnitude at printed
  split_ifs at printed with one whole
  · cases printed
    rw [scan, tail, scan_natural closed, magnitude, Rat.cast_def, whole, Nat.cast_one, div_one, isInteger,
      decide_eq_true whole]
  · cases printed
    rw [scan, tail, integerText_natCast, read, read, magnitude, Rat.cast_def, neg_div, isInteger, decide_eq_false whole]

theorem eq_neg_one {q : ℚ} (unit : q.num = -1 ∧ q.den = 1) : q = -1 := Rat.ext unit.1 unit.2

theorem numberMagnitude_none {q : ℚ} (hidden : numberMagnitude q = none) : q = -1 := by
  unfold numberMagnitude at hidden
  split_ifs at hidden with unit
  exact eq_neg_one unit

theorem negated_mul (reads : ∀ f ∈ factors, Reads m f (build limit (depth + 1) f))
    (flat : ∀ f ∈ factors, precedence f ≠ 40) (apart : Apart (written factors))
    (lead : negativeLead (.mul factors) = true) :
    Advances (before total sign) (-(values m factors).prod)
      (scan m (before total sign) (negatedTerm limit depth (.mul factors))) := by
  unfold negativeLead at lead
  split at lead
  · rename_i same
    cases same
  · rename_i q next rest same
    cases same
    have negative := of_decide_eq_true lead
    have reads' : ∀ f ∈ next :: rest, Reads m f (build limit (depth + 1) f) := fun f later =>
      reads f (List.mem_cons_of_mem _ later)
    have flat' : ∀ f ∈ next :: rest, precedence f ≠ 40 := fun f later => flat f (List.mem_cons_of_mem _ later)
    rw [negatedTerm, scan, values, List.prod_cons, value, ← neg_mul]
    change Advances _ _ (scanAll m _ ((numberMagnitude q).toList ++ factorNodes limit depth (next :: rest)))
    cases printed : numberMagnitude q with
    | none =>
      obtain rfl := numberMagnitude_none printed
      rw [Rat.cast_neg, Rat.cast_one, neg_neg, one_mul]
      exact factors_read (List.cons_ne_nil next rest) reads' flat' apart
    | some node =>
      have visible : q ≠ -1 := by
        rintro rfl
        cases printed
      have chain : Apart (.exact q :: next :: rest) := by
        rwa [written, if_neg visible] at apart
      rw [Option.toList_some, List.cons_append, List.nil_append, scanAll, magnitude_reads negative printed rfl]
      exact (advances_push _ _ _).trans (rest_reads reads' flat' chain.tail rfl rfl chain.next)
  · cases lead

theorem negated_exact {q : ℚ} (negative : q.num < 0) :
    Advances (before total sign) (-q : K) (scan m (before total sign) (negatedTerm limit depth (.exact q))) := by
  rw [negatedTerm]
  cases printed : numberMagnitude q with
  | none =>
    obtain rfl := numberMagnitude_none printed
    have text : scan m (before total sign) (.text [49]) = (before total sign).push ((1 : ℕ) : K) true :=
      scan_natural (r := before total sign) rfl 1
    rw [Option.getD_none, text, Rat.cast_neg, Rat.cast_one, neg_neg, Nat.cast_one]
    exact advances_push _ _ _
  | some node =>
    rw [Option.getD_some, magnitude_reads negative printed rfl]
    exact advances_push _ _ _

theorem terms_read (reads : ∀ f ∈ terms, Reads m f (build limit (depth + 1) f)) (flat : ∀ f ∈ terms, precedence f ≠ 20)
    (negated : ∀ f ∈ terms, negativeLead f = true → ∀ total sign,
      Advances (before total sign) (-value m f) (scan m (before total sign) (negatedTerm limit depth f)))
    {r : Reading K} (read : r.factor.isSome = true) :
    (scanAll m r (sumItems limit depth false terms)).close = r.close + (values m terms).sum := by
  induction terms generalizing r with
  | nil => rw [values, List.sum_nil, add_zero]; rfl
  | cons f rest ih =>
    have cases := precedence_cases f
    have bare := flat f List.mem_cons_self
    have next : ∃ r', scanAll m r (sumItems limit depth false (f :: rest)) =
        scanAll m r' (sumItems limit depth false rest) ∧ r'.factor.isSome = true ∧ r'.close = r.close + value m f := by
      by_cases lead : negativeLead f = true
      · have term := negated f List.mem_cons_self lead r.close (-1)
        refine ⟨_, ?_, term.read, by rw [term.from_sign, neg_one_mul, neg_neg]⟩
        rw [sumItems, if_pos ⟨rfl, lead⟩, List.cons_append, scanAll, List.cons_append, scanAll, List.nil_append, scan_minus, minus, if_pos read]
      · have term := (reads f List.mem_cons_self).term bare r.close 1
        refine ⟨_, ?_, term.read, by rw [term.from_sign, one_mul]⟩
        have child : childWithPrecedence 20 false f (build limit (depth + 1) f) = build limit (depth + 1) f :=
          if_neg (by simp; omega)
        rw [sumItems, if_neg fun both => lead both.2, child]
        rfl
    obtain ⟨r', items, read', closed⟩ := next
    rw [items, ih (fun g later => reads g (List.mem_cons_of_mem _ later)) (fun g later => flat g (List.mem_cons_of_mem _ later))
      (fun g later => negated g (List.mem_cons_of_mem _ later)) read', closed, values, List.sum_cons, add_assoc]

theorem reads_add (nonempty : terms ≠ []) (reads : ∀ f ∈ terms, Reads m f (build limit (depth + 1) f))
    (flat : ∀ f ∈ terms, precedence f ≠ 20) (negated : ∀ f ∈ terms, negativeLead f = true → ∀ total sign,
      Advances (before total sign) (-value m f) (scan m (before total sign) (negatedTerm limit depth f))) :
    Reads m (.add terms) (.row (sumItems limit depth true terms)) := by
  obtain ⟨f, rest, rfl⟩ := List.exists_cons_of_ne_nil nonempty
  have cases := precedence_cases f
  have bare := flat f List.mem_cons_self
  have term := (reads f List.mem_cons_self).term bare 0 1
  have items : sumItems limit depth true (f :: rest) = build limit (depth + 1) f :: sumItems limit depth false rest := by
    have child : childWithPrecedence 20 false f (build limit (depth + 1) f) = build limit (depth + 1) f :=
      if_neg (by simp; omega)
    rw [sumItems, if_neg (by simp), child]
    rfl
  refine ⟨?_, fun other => absurd rfl other, fun high => by simp [precedence] at high⟩
  rw [scan, items, scanAll, terms_read (fun g later => reads g (List.mem_cons_of_mem _ later))
    (fun g later => flat g (List.mem_cons_of_mem _ later)) (fun g later => negated g (List.mem_cons_of_mem _ later))
    term.read, term.from_sign, zero_add, one_mul, value, values, List.sum_cons]

end

/-- A formula that the IR can hold and whose drawing can be taken for nothing else. -/
structure Unmistakable (f : Formula) : Prop where
  shaped : ∀ g ∈ parts f, Shaped g
  clear : ∀ g ∈ parts f, Clear g

theorem Unmistakable.mono {f g : Formula} (unmistakable : Unmistakable f) (inside : parts g ⊆ parts f) : Unmistakable g :=
  ⟨fun part member => unmistakable.shaped part (inside member), fun part member => unmistakable.clear part (inside member)⟩

theorem within_eq {limit depth : Nat} (shallow : depth < limit) (node : MathNode) : within limit depth node = node :=
  if_neg (by omega)

theorem ne_nil_of_length {list : List Formula} (two : 2 ≤ list.length) : list ≠ [] := by
  rintro rfl
  cases two

theorem build_reads (limit : Nat) : ∀ f : Formula, Unmistakable f → ∀ depth,
    (depth + nesting f ≤ limit → Reads m f (build limit depth f)) ∧
    (negativeLead f = true → depth + nesting f ≤ limit → ∀ total sign,
      Advances (before total sign) (-value m f) (scan m (before total sign) (negatedTerm limit depth f))) := by
  refine induct ?exact ?symbol ?add ?mul ?pow ?function
  case exact =>
    intro q _ depth
    refine ⟨fun shallow => ?_, fun lead _ total sign => ?_⟩
    · rw [build, within_eq (by rw [nesting] at shallow; omega)]
      exact reads_number q
    · exact negated_exact (of_decide_eq_true lead)
  case symbol =>
    intro letter unmistakable depth
    refine ⟨fun shallow => ?_, fun lead => by cases lead⟩
    rw [build, within_eq (by rw [nesting] at shallow; omega)]
    exact reads_symbol (unmistakable.shaped _ (mem_parts _))
  case add =>
    intro terms ih unmistakable depth
    obtain ⟨two, flat⟩ := unmistakable.shaped _ (mem_parts _)
    refine ⟨fun shallow => ?_, fun lead => by cases lead⟩
    rw [nesting] at shallow
    have each : ∀ f ∈ terms, Unmistakable f ∧ depth + 1 + nesting f ≤ limit := fun f inside => by
      have level := nesting_le inside
      exact ⟨unmistakable.mono (List.Subset.trans (parts_subset inside) (List.subset_cons_self _ _)), by omega⟩
    rw [build, within_eq (by omega)]
    refine reads_add (ne_nil_of_length two) (fun f inside => (ih f inside (each f inside).1 _).1 (each f inside).2) flat ?_
    exact fun f inside lead => (ih f inside (each f inside).1 depth).2 lead (by have := (each f inside).2; omega)
  case mul =>
    intro factors ih unmistakable depth
    obtain ⟨two, flat⟩ := unmistakable.shaped _ (mem_parts _)
    have apart : Apart (written factors) := unmistakable.clear _ (mem_parts _)
    have each : depth + nesting (.mul factors) ≤ limit → ∀ f ∈ factors, Reads m f (build limit (depth + 1) f) := by
      intro shallow f inside
      have level := nesting_le inside
      rw [nesting] at shallow
      refine (ih f inside ?_ _).1 (by omega)
      exact unmistakable.mono (List.Subset.trans (parts_subset inside) (List.subset_cons_self _ _))
    refine ⟨fun shallow => ?_, fun lead shallow total sign => ?_⟩
    · rw [build, within_eq (by rw [nesting] at shallow; omega)]
      exact reads_mul (ne_nil_of_length two) (each shallow) flat apart
    · rw [value]
      exact negated_mul (each shallow) flat apart lead
  case pow =>
    intro base exponent ih ih' unmistakable depth
    refine ⟨fun shallow => ?_, fun lead => by cases lead⟩
    rw [nesting] at shallow
    rw [build, within_eq (by omega)]
    refine reads_pow ((ih ?_ _).1 (by omega)) ((ih' ?_ _).1 (by omega)) (unmistakable.clear _ (mem_parts _))
    · exact unmistakable.mono (List.subset_cons_of_subset _ (List.subset_append_left _ _))
    · exact unmistakable.mono (List.subset_cons_of_subset _ (List.subset_append_right _ _))
  case function =>
    intro head argument ih unmistakable depth
    refine ⟨fun shallow => ?_, fun lead => by cases lead⟩
    have inner := ih (unmistakable.mono (List.subset_cons_self _ _))
    rw [nesting] at shallow
    rw [build, within_eq (by split at shallow <;> omega)]
    refine reads_function ((inner _).1 (by split at shallow <;> omega)) (fun general => (inner _).1 ?_)
      (unmistakable.clear _ (mem_parts _))
    rw [if_neg general] at shallow
    omega

/-- Where no sign escapes and no numbers run together, a drawing is read as the formula it shows, and formulas of
different value are drawn differently. -/
theorem drawings_are_unambiguous (m : Meaning K) (limit : Nat) :
    (∀ f, Unmistakable f → nesting f ≤ limit → reading m (build limit 0 f) = value m f) ∧
    ∀ f g, Unmistakable f → Unmistakable g → nesting f ≤ limit → nesting g ≤ limit →
      build limit 0 f = build limit 0 g → value m f = value m g := by
  have read (f : Formula) (unmistakable : Unmistakable f) (shallow : nesting f ≤ limit) :
      reading m (build limit 0 f) = value m f :=
    ((build_reads limit f unmistakable 0).1 (by omega)).whole
  refine ⟨read, fun f g unmistakable unmistakable' shallow shallow' same => ?_⟩
  rw [← read f unmistakable shallow, same, read g unmistakable' shallow']

def wholePowers : Meaning ℚ where
  symbol _ := 0
  function _ x := x
  power base exponent := if exponent.den = 1 then base ^ exponent.num else 0
  reciprocal base degree := by
    rcases degree with _ | _ | degree
    · simp
    · simp
    · have den : (1 / ((degree + 1 + 1 : ℕ) : ℚ)).den = degree + 1 + 1 := by
        rw [one_div, Rat.inv_natCast_den_of_pos (Nat.succ_pos _)]
      rw [neg_div, Rat.den_neg_eq_den, den, if_neg (by omega), if_neg (by omega), div_zero]

/-- `x² − 2y`. -/
def squareLessDouble : Formula := .add [.pow (.symbol 120) (.exact 2), .mul [.exact (-2), .symbol 121]]

theorem squareLessDouble_read : reading wholePowers (build 8 0 squareLessDouble) = value wholePowers squareLessDouble := by
  refine (drawings_are_unambiguous wholePowers 8).1 squareLessDouble ⟨?_, ?_⟩ (by decide)
  · simp [squareLessDouble, parts, partsAll, Shaped, precedence]
  · simp [squareLessDouble, parts, partsAll, Clear, written, Apart, isNegativeInteger, opensNumber]

/-- Drawn as `−2` with the exponent 2, the square of minus two is read as minus four. -/
theorem negative_base_misread : ¬∀ (m : Meaning ℚ) (limit : Nat) (f : Formula), (∀ g ∈ parts f, Shaped g) →
    nesting f ≤ limit → reading m (build limit 0 f) = value m f := by
  intro always
  have same := always wholePowers 2 (.pow (.exact (-2)) (.exact 2)) (by simp [parts, Shaped]) (by decide)
  revert same
  decide +kernel

end PhyNspire.Render

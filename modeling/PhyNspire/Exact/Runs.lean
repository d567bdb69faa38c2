import PhyNspire.Exact.RationalField
import Mathlib.Data.Sign.Basic

/-!
Whole runs of the exact layer.

A client creates a context and then makes public calls in any order, on any handles and
with any aliasing. The fields of a handle are private, so the two halves of a rational are
written by the rational operations only.
-/

namespace PhyNspire.Exact.Runs
open Platform Lib Lib.Stateful Lib.Registry Context Accounting Integer Magnitude Arithmetic Euclid Rational Fractions
  RationalField

variable {s t : ExactContext}

inductive IntegerCall where
  | setI64 (out : Handle) (integer : Int64)
  | copy (source destination : Handle)
  | read (out : Handle) (decimal : List UInt8)
  | negate (source out : Handle)
  | add (left right out : Handle)
  | subtract (left right out : Handle)
  | multiply (left right out : Handle)
  | powU32 (base : Handle) (exponent : UInt32) (out : Handle)
  | divmod (dividend divisor quotient remainder : Handle)
  | divideExact (dividend divisor quotient : Handle)
  | gcd (left right out : Handle)
  | modU32 (dividend : Handle) (modulus : UInt32)

namespace IntegerCall

/-- Only `phy_bigint_mod_u32` returns a word. -/
def exec : IntegerCall → ExactM (Option UInt32)
  | setI64 out integer => do bigintSetI64 out integer; pure none
  | copy source destination => do bigintCopy source destination; pure none
  | read out decimal => do bigintRead out decimal; pure none
  | negate source out => do bigintNegate source out; pure none
  | add left right out => do bigintAdd left right out; pure none
  | subtract left right out => do bigintSubtract left right out; pure none
  | multiply left right out => do bigintMultiply left right out; pure none
  | powU32 base exponent out => do bigintPowU32 base exponent out; pure none
  | divmod dividend divisor quotient remainder => do bigintDivmod dividend divisor quotient remainder; pure none
  | divideExact dividend divisor quotient => do bigintDivideExact dividend divisor quotient; pure none
  | gcd left right out => do bigintGcd left right out; pure none
  | modU32 dividend modulus => do
      let remainder ← bigintModU32 dividend modulus
      pure (some remainder)

def outputs : IntegerCall → List Handle
  | setI64 out _ => [out]
  | copy _ destination => [destination]
  | read out _ => [out]
  | negate _ out => [out]
  | add _ _ out => [out]
  | subtract _ _ out => [out]
  | multiply _ _ out => [out]
  | powU32 _ _ out => [out]
  | divmod _ _ quotient remainder => [quotient, remainder]
  | divideExact _ _ quotient => [quotient]
  | gcd _ _ out => [out]
  | modU32 _ _ => []

def operands : IntegerCall → List Handle
  | setI64 _ _ => []
  | copy source _ => [source]
  | read _ _ => []
  | negate source _ => [source]
  | add left right _ => [left, right]
  | subtract left right _ => [left, right]
  | multiply left right _ => [left, right]
  | powU32 base _ _ => [base]
  | divmod dividend divisor _ _ => [dividend, divisor]
  | divideExact dividend divisor _ => [dividend, divisor]
  | gcd left right _ => [left, right]
  | modU32 dividend _ => [dividend]

/-- What a call that returns has computed, over the integers. An operand is read before the
call, so that it may be an output as well. -/
def Computes (s : ExactContext) (result : Option UInt32) (t : ExactContext) : IntegerCall → Prop
  | setI64 out integer => Holds t out integer.toInt
  | copy source destination => ∃ x, Holds s source x ∧ Holds t destination x
  | read out decimal => ∃ x, decimalValue (cString decimal) = some x ∧ Holds t out x
  | negate source out => ∃ x, Holds s source x ∧ Holds t out (-x)
  | add left right out => ∃ x y, Holds s left x ∧ Holds s right y ∧ Holds t out (x + y)
  | subtract left right out => ∃ x y, Holds s left x ∧ Holds s right y ∧ Holds t out (x - y)
  | multiply left right out => ∃ x y, Holds s left x ∧ Holds s right y ∧ Holds t out (x * y)
  | powU32 base exponent out => ∃ x, Holds s base x ∧ Holds t out (x ^ exponent.toNat)
  | divmod dividend divisor quotient remainder => ∃ x y k m, Holds s dividend x ∧ Holds s divisor y ∧
      Holds t quotient k ∧ Holds t remainder m ∧
      y ≠ 0 ∧ k = x.tdiv y ∧ x = k * y + m ∧ |m| < |y| ∧ (m ≠ 0 → m.sign = x.sign)
  | divideExact dividend divisor quotient => ∃ x y k, Holds s dividend x ∧ Holds s divisor y ∧
      Holds t quotient k ∧ y ≠ 0 ∧ x = k * y
  | gcd left right out => ∃ x y, Holds s left x ∧ Holds s right y ∧ Holds t out (Int.gcd x y : Int)
  | modU32 dividend modulus => ∃ x word, Holds s dividend x ∧ result = some word ∧
      modulus ≠ 0 ∧ (word.toNat : Int) = x % modulus.toNat

end IntegerCall

inductive RationalCall where
  | setI64 (value : Bigrat) (numerator denominator : Int64)
  | read (value : Bigrat) (numerator denominator : List UInt8)
  | copy (source destination : Bigrat)
  | negate (value out : Bigrat)
  | add (left right out : Bigrat)
  | subtract (left right out : Bigrat)
  | multiply (left right out : Bigrat)
  | divide (dividend divisor out : Bigrat)
  | reciprocal (value out : Bigrat)
  | powI32 (base : Bigrat) (exponent : Int32) (out : Bigrat)
  | compare (left right : Bigrat)

namespace RationalCall

/-- Only `phy_bigrat_compare` returns an order. -/
def exec : RationalCall → ExactM (Option Int)
  | setI64 value numerator denominator => do bigratSetI64 value numerator denominator; pure none
  | read value numerator denominator => do bigratRead value numerator denominator; pure none
  | copy source destination => do bigratCopy source destination; pure none
  | negate value out => do bigratNegate value out; pure none
  | add left right out => do bigratAdd left right out; pure none
  | subtract left right out => do bigratSubtract left right out; pure none
  | multiply left right out => do bigratMultiply left right out; pure none
  | divide dividend divisor out => do bigratDivide dividend divisor out; pure none
  | reciprocal value out => do bigratReciprocal value out; pure none
  | powI32 base exponent out => do bigratPowI32 base exponent out; pure none
  | compare left right => do
      let order ← bigratCompare left right
      pure (some order)

def operands : RationalCall → List Bigrat
  | setI64 _ _ _ => []
  | read _ _ _ => []
  | copy source _ => [source]
  | negate value _ => [value]
  | add left right _ => [left, right]
  | subtract left right _ => [left, right]
  | multiply left right _ => [left, right]
  | divide dividend divisor _ => [dividend, divisor]
  | reciprocal value _ => [value]
  | powI32 base _ _ => [base]
  | compare left right => [left, right]

def outputs : RationalCall → List Bigrat
  | setI64 value _ _ => [value]
  | read value _ _ => [value]
  | copy _ destination => [destination]
  | negate _ out => [out]
  | add _ _ out => [out]
  | subtract _ _ out => [out]
  | multiply _ _ out => [out]
  | divide _ _ out => [out]
  | reciprocal _ out => [out]
  | powI32 _ _ out => [out]
  | compare _ _ => []

/-- What a call that returns has computed, over the rationals. To represent a rational is
to hold its own numerator and denominator, which is the canonical form. -/
def Computes (s : ExactContext) (result : Option Int) (t : ExactContext) : RationalCall → Prop
  | setI64 value numerator denominator =>
      denominator.toInt ≠ 0 ∧ Represents t value ((numerator.toInt : ℚ) / denominator.toInt)
  | read value numerator denominator => ∃ p, decimalFraction numerator denominator = some p ∧ Represents t value p
  | copy source destination => ∃ p, Represents s source p ∧ Represents t destination p
  | negate value out => ∃ p, Represents s value p ∧ Represents t out (-p)
  | add left right out => ∃ p q, Represents s left p ∧ Represents s right q ∧ Represents t out (p + q)
  | subtract left right out => ∃ p q, Represents s left p ∧ Represents s right q ∧ Represents t out (p - q)
  | multiply left right out => ∃ p q, Represents s left p ∧ Represents s right q ∧ Represents t out (p * q)
  | divide dividend divisor out =>
      ∃ p q, Represents s dividend p ∧ Represents s divisor q ∧ q ≠ 0 ∧ Represents t out (p / q)
  | reciprocal value out => ∃ p, Represents s value p ∧ p ≠ 0 ∧ Represents t out p⁻¹
  | powI32 base exponent out =>
      ∃ p, Represents s base p ∧ (p ≠ 0 ∨ 0 ≤ exponent.toInt) ∧ Represents t out (p ^ exponent.toInt)
  | compare left right =>
      ∃ p q, Represents s left p ∧ Represents s right q ∧ result = some (SignType.sign (p - q) : Int)

end RationalCall

inductive Call where
  | bigintInit (address : Nat)
  | bigintDestroy (address : Nat)
  | bigratInit (value : Bigrat)
  | bigratDestroy (value : Bigrat)
  | integer (call : IntegerCall)
  | rational (call : RationalCall)
  | setCancel (cancelled : Option (Nat → Bool))

namespace Call

def exec : Call → ExactM Unit
  | bigintInit address => modify (Context.bigintInit (.object address))
  | bigintDestroy address => modify (Context.bigintDestroy (.object address))
  | bigratInit value => Rational.bigratInit value
  | bigratDestroy value => modify (Rational.bigratDestroy value)
  | integer call => do let _ ← call.exec; pure ()
  | rational call => do let _ ← call.exec; pure ()
  | setCancel cancelled => modify (exactSetCancel cancelled)

/-- The state that a call leaves behind, whatever its status. -/
def after (call : Call) (s : ExactContext) : ExactContext :=
  match call.exec s with
  | .ok _ t => t
  | .error _ t => t

/-- A handle is initialized once, and an integer operation writes integer handles. -/
def Permitted (s : ExactContext) : Call → Prop
  | bigintInit address => s.lookup (.object address) = none
  | bigratInit value => s.lookup (.numerator value) = none ∧ s.lookup (.denominator value) = none
  | integer call => ∀ handle ∈ call.outputs, ∃ address, handle = .object address
  | bigintDestroy _ => True
  | bigratDestroy _ => True
  | rational _ => True
  | setCancel _ => True

theorem wp_after {call : Call} {P : ExactContext → Prop} (held : wp call.exec (fun _ t => P t) (fun _ t => P t) s) :
    P (call.after s) := by
  unfold wp at held
  unfold after
  split at held <;> simp_all

end Call

/-- The contexts that a client can bring about. -/
inductive Reachable : ExactContext → Prop where
  | create {s : ExactContext} {limits : Option ExactLimits} {heap heap' : Heap}
      (created : exactContextCreate limits heap = (some s, heap')) : Reachable s
  | call {s : ExactContext} (before : Reachable s) (call : Call) (permitted : call.Permitted s) :
      Reachable (call.after s)

theorem IntegerCall.refused (call : IntegerCall) {handle : Handle}
    (member : handle ∈ call.operands ++ call.outputs) (dead : s.bigintShallowValid handle = false)
    {good : Option UInt32 → ExactContext → Prop} {bad : Status → ExactContext → Prop} (kept : bad .invalidArgument s) :
    wp call.exec good bad s := by
  cases call <;>
    simp only [operands, outputs, List.cons_append, List.nil_append, List.mem_cons, List.not_mem_nil,
      or_false] at member <;>
    rcases member with rfl | rfl | rfl | rfl <;>
    simp [exec, bigintSetI64, bigintCopy, bigintRead, bigintNegate, bigintAdd, bigintSubtract, bigintMultiply,
      bigintPowU32, bigintDivmod, bigintDivideExact, bigintGcd, bigintModU32, Integer.compatible2,
      Integer.compatible3, dead, kept]

theorem truncating (x y : Int) (nonzero : y ≠ 0) :
    x = x.tdiv y * y + x.tmod y ∧ |x.tmod y| < |y| ∧ (x.tmod y ≠ 0 → (x.tmod y).sign = x.sign) := by
  refine ⟨?_, ?_, fun some => ?_⟩
  · rw [mul_comm, Int.mul_tdiv_add_tmod]
  · have less := Nat.mod_lt x.natAbs (Int.natAbs_pos.mpr nonzero)
    rw [← Int.natAbs_tmod] at less
    rw [Int.abs_eq_natAbs, Int.abs_eq_natAbs]
    exact_mod_cast less
  · rw [Int.sign_tmod, if_neg]
    rwa [Int.dvd_iff_tmod_eq_zero]

theorem all_two {α : Type*} {P : α → Prop} {a b : α} (all : ∀ x ∈ [a, b], P x) : P a ∧ P b :=
  ⟨all a (by simp), all b (by simp)⟩

theorem all_three {α : Type*} {P : α → Prop} {a b c : α} (all : ∀ x ∈ [a, b, c], P x) : P a ∧ P b ∧ P c :=
  ⟨all a (by simp), all_two fun x member => all x (List.mem_cons_of_mem a member)⟩

/-- A call without a result of its own, that stops without a trace or fulfils `after`. -/
theorem wp_silent {α : Type} {program : ExactM Unit} {why : Status → Prop} {after : ExactContext → Prop}
    {good : Option α → ExactContext → Prop}
    (spec : wp program (fun _ t => after t) (fun stop t => why stop ∧ Within [] s t) s)
    (returns : ∀ t, after t → good none t) : wp (do program; pure none) good (fun _ t => Within [] s t) s := by
  rw [wp_bind]
  exact wp_mono spec (fun _ => returns) fun _ _ stopped => stopped.2

theorem written {out : Handle} {n : Int} (writes : Writes s out n t) : Holds t out n ∧ Valid t ∧ Within [out] s t :=
  ⟨writes.valid.holds writes.result, writes.valid, writes.within⟩

theorem wp_writes {program : ExactM Unit} {why : Status → Prop} {out : Handle} {n : Int}
    {computes : Option UInt32 → ExactContext → Prop}
    (spec : wp program (fun _ t => Writes s out n t) (fun stop t => why stop ∧ Within [] s t) s)
    (returns : ∀ t, Holds t out n → computes none t) :
    wp (do program; pure none) (fun result t => computes result t ∧ Valid t ∧ Within [out] s t)
      (fun _ t => Within [] s t) s :=
  wp_silent spec fun _ writes => ⟨returns _ (written writes).1, (written writes).2⟩

theorem IntegerCall.spec_live (valid : Valid s) (call : IntegerCall)
    (live : ∀ handle ∈ call.operands ++ call.outputs, ∃ n, view s handle = some n) :
    wp call.exec (fun result t => call.Computes s result t ∧ Valid t ∧ Within call.outputs s t)
      (fun _ t => Within [] s t) s := by
  cases call with
  | setI64 out integer =>
    obtain ⟨z, target⟩ := live out List.mem_cons_self
    exact wp_writes (bigintSetI64_spec valid target integer) fun _ result => result
  | copy source destination =>
    obtain ⟨⟨x, first⟩, z, target⟩ := all_two live
    exact wp_writes (bigintCopy_spec valid first target) fun _ result => ⟨x, valid.holds first, result⟩
  | read out decimal =>
    obtain ⟨z, target⟩ := live out List.mem_cons_self
    refine wp_silent (bigintRead_spec valid target decimal) ?_
    rintro t ⟨n, spelled, writes⟩
    exact ⟨⟨n, spelled, (written writes).1⟩, (written writes).2⟩
  | negate source out =>
    obtain ⟨⟨x, first⟩, z, target⟩ := all_two live
    exact wp_writes (bigintNegate_spec valid first target) fun _ result => ⟨x, valid.holds first, result⟩
  | add left right out =>
    obtain ⟨⟨x, first⟩, ⟨y, second⟩, z, target⟩ := all_three live
    exact wp_writes (bigintAdd_spec valid first second target) fun _ result =>
      ⟨x, y, valid.holds first, valid.holds second, result⟩
  | subtract left right out =>
    obtain ⟨⟨x, first⟩, ⟨y, second⟩, z, target⟩ := all_three live
    exact wp_writes (bigintSubtract_spec valid first second target) fun _ result =>
      ⟨x, y, valid.holds first, valid.holds second, result⟩
  | multiply left right out =>
    obtain ⟨⟨x, first⟩, ⟨y, second⟩, z, target⟩ := all_three live
    exact wp_writes (bigintMultiply_spec valid first second target) fun _ result =>
      ⟨x, y, valid.holds first, valid.holds second, result⟩
  | powU32 base exponent out =>
    obtain ⟨⟨x, first⟩, z, target⟩ := all_two live
    exact wp_writes (bigintPowU32_spec valid first target exponent) fun _ result => ⟨x, valid.holds first, result⟩
  | divmod dividend divisor quotient remainder =>
    obtain ⟨x, first⟩ := live dividend List.mem_cons_self
    obtain ⟨⟨y, second⟩, ⟨z, third⟩, z', fourth⟩ := all_three fun _ => live _ ∘ List.mem_cons_of_mem dividend
    by_cases distinct : quotient = remainder
    · -- The two outputs must be distinct handles.
      simp [exec, bigintDivmod, distinct, Within.refl valid.toSound]
    · refine wp_silent (bigintDivmod_spec valid first second third fourth distinct) ?_
      rintro t ⟨nonzero, valid_t, within, quotient_t, remainder_t⟩
      exact ⟨⟨x, y, _, _, valid.holds first, valid.holds second, valid_t.holds quotient_t,
        valid_t.holds remainder_t, nonzero, rfl, truncating x y nonzero⟩, valid_t, within⟩
  | divideExact dividend divisor quotient =>
    obtain ⟨⟨x, first⟩, ⟨y, second⟩, z, target⟩ := all_three live
    refine wp_silent (bigintDivideExact_spec valid first second target) ?_
    rintro t ⟨nonzero, divides, writes⟩
    exact ⟨⟨x, y, _, valid.holds first, valid.holds second, (written writes).1, nonzero,
      (Int.ediv_mul_cancel divides).symm⟩, (written writes).2⟩
  | gcd left right out =>
    obtain ⟨⟨x, first⟩, ⟨y, second⟩, z, target⟩ := all_three live
    exact wp_writes (bigintGcd_spec valid first second target) fun _ result =>
      ⟨x, y, valid.holds first, valid.holds second, result⟩
  | modU32 dividend modulus =>
    obtain ⟨x, first⟩ := live dividend List.mem_cons_self
    simp only [exec, wp_bind]
    refine wp_mono (bigintModU32_spec valid first modulus) ?_ (fun _ _ stopped => stopped.2)
    rintro remainder t ⟨nonzero, result, valid_t, within⟩
    exact ⟨⟨x, remainder, valid.holds first, rfl, nonzero, result⟩, valid_t, within⟩

theorem IntegerCall.spec (valid : Valid s) (call : IntegerCall) :
    wp call.exec (fun result t => call.Computes s result t ∧ Valid t ∧ Within call.outputs s t)
      (fun _ t => Within [] s t) s := by
  by_cases live : ∀ handle ∈ call.operands ++ call.outputs, ∃ n, view s handle = some n
  · exact call.spec_live valid live
  · push Not at live
    obtain ⟨handle, member, dead⟩ := live
    refine call.refused member ?_ (.refl valid.toSound _)
    have absent : s.lookup handle = none := view_eq_none.mp (Option.eq_none_iff_forall_ne_some.mpr dead)
    simp only [ExactContext.bigintShallowValid, absent]

def halves (rationals : List Bigrat) : List Handle :=
  rationals.flatMap fun value => [.numerator value, .denominator value]

theorem RationalCall.refused (call : RationalCall) {value : Bigrat}
    (member : value ∈ call.operands ++ call.outputs) (dead : rationalValidShallow s value = false)
    {good : Option Int → ExactContext → Prop} {bad : Status → ExactContext → Prop} (kept : bad .invalidArgument s) :
    wp call.exec good bad s := by
  cases call <;>
    simp only [operands, outputs, List.cons_append, List.nil_append, List.append_nil, List.mem_cons,
      List.not_mem_nil, or_false] at member <;>
    rcases member with rfl | rfl | rfl <;>
    simp [exec, bigratSetI64, bigratRead, bigratCopy, bigratNegate, bigratAdd, bigratSubtract, bigratMultiply,
      bigratDivide, bigratReciprocal, bigratPowI32, bigratCompare, Rational.compatible2, Rational.compatible3,
      dead, kept]

theorem sign_num (p : ℚ) : p.num.sign = (SignType.sign p : Int) := by
  rcases lt_trichotomy p 0 with negative | rfl | positive
  · rw [Int.sign_eq_neg_one_of_neg (Rat.num_neg.mpr negative), sign_neg negative]
    rfl
  · simp
  · rw [Int.sign_eq_one_of_pos (Rat.num_pos.mpr positive), sign_pos positive]
    rfl

theorem writtenRat {out : Bigrat} {p : ℚ} (writes : WritesRat s out p t) :
    Represents t out p ∧ Valid t ∧ Within (halves [out]) s t := ⟨writes.result, writes.valid, writes.within⟩

theorem wp_writesRat {program : ExactM Unit} {why : Status → Prop} {out : Bigrat} {p : ℚ}
    {computes : Option Int → ExactContext → Prop}
    (spec : wp program (fun _ t => WritesRat s out p t) (fun stop t => why stop ∧ Within [] s t) s)
    (returns : ∀ t, Represents t out p → computes none t) :
    wp (do program; pure none) (fun result t => computes result t ∧ Valid t ∧ Within (halves [out]) s t)
      (fun _ t => Within [] s t) s :=
  wp_silent spec fun _ writes => ⟨returns _ writes.result, (writtenRat writes).2⟩

theorem RationalCall.spec_live (valid : Valid s) (call : RationalCall)
    (live : ∀ value ∈ call.operands ++ call.outputs, ∃ p, Represents s value p) :
    wp call.exec (fun result t => call.Computes s result t ∧ Valid t ∧ Within (halves call.outputs) s t)
      (fun _ t => Within [] s t) s := by
  cases call with
  | setI64 value numerator denominator =>
    obtain ⟨z, target⟩ := live value List.mem_cons_self
    refine wp_silent (bigratSetI64_spec valid target numerator denominator) ?_
    rintro t ⟨nonzero, writes⟩
    exact ⟨⟨nonzero, (writtenRat writes).1⟩, (writtenRat writes).2⟩
  | read value numerator denominator =>
    obtain ⟨z, target⟩ := live value List.mem_cons_self
    refine wp_silent (bigratRead_spec valid target numerator denominator) ?_
    rintro t ⟨p, spelled, writes⟩
    exact ⟨⟨p, spelled, (writtenRat writes).1⟩, (writtenRat writes).2⟩
  | copy source destination =>
    obtain ⟨⟨p, first⟩, z, target⟩ := all_two live
    exact wp_writesRat (bigratCopy_spec valid first target) fun _ result => ⟨p, first, result⟩
  | negate value out =>
    obtain ⟨⟨p, first⟩, z, target⟩ := all_two live
    exact wp_writesRat (bigratNegate_spec valid first target) fun _ result => ⟨p, first, result⟩
  | add left right out =>
    obtain ⟨⟨p, first⟩, ⟨q, second⟩, z, target⟩ := all_three live
    exact wp_writesRat (bigratAdd_spec valid first second target) fun _ result => ⟨p, q, first, second, result⟩
  | subtract left right out =>
    obtain ⟨⟨p, first⟩, ⟨q, second⟩, z, target⟩ := all_three live
    exact wp_writesRat (bigratSubtract_spec valid first second target) fun _ result => ⟨p, q, first, second, result⟩
  | multiply left right out =>
    obtain ⟨⟨p, first⟩, ⟨q, second⟩, z, target⟩ := all_three live
    exact wp_writesRat (bigratMultiply_spec valid first second target) fun _ result => ⟨p, q, first, second, result⟩
  | divide dividend divisor out =>
    obtain ⟨⟨p, first⟩, ⟨q, second⟩, z, target⟩ := all_three live
    refine wp_silent (bigratDivide_spec valid first second target) ?_
    rintro t ⟨nonzero, writes⟩
    exact ⟨⟨p, q, first, second, nonzero, (writtenRat writes).1⟩, (writtenRat writes).2⟩
  | reciprocal value out =>
    obtain ⟨⟨p, first⟩, z, target⟩ := all_two live
    refine wp_silent (bigratReciprocal_spec valid first target) ?_
    rintro t ⟨nonzero, writes⟩
    exact ⟨⟨p, first, nonzero, (writtenRat writes).1⟩, (writtenRat writes).2⟩
  | powI32 base exponent out =>
    obtain ⟨⟨p, first⟩, z, target⟩ := all_two live
    refine wp_silent (bigratPowI32_spec valid first target exponent) ?_
    rintro t ⟨defined, writes⟩
    exact ⟨⟨p, first, defined, (writtenRat writes).1⟩, (writtenRat writes).2⟩
  | compare left right =>
    obtain ⟨⟨p, first⟩, q, second⟩ := all_two live
    simp only [exec, wp_bind]
    refine wp_mono (bigratCompare_spec valid first second) ?_ (fun _ _ stopped => stopped.2)
    rintro order t ⟨result, kept⟩
    exact ⟨⟨p, q, first, second, by rw [result, sign_num]⟩, kept⟩

theorem RationalCall.Computes.represents {call : RationalCall} {result : Option Int} (computes : call.Computes s result t)
    {value : Bigrat} (output : value ∈ call.outputs) : ∃ p, Represents t value p := by
  cases call <;>
    simp only [outputs, List.mem_cons, List.not_mem_nil, or_false] at output <;>
    subst output <;>
    simp only [Computes] at computes <;>
    grind

/-- Every byte that is charged belongs to the context or to a registered value. -/
structure Accounted (s : ExactContext) : Prop extends Valid s where
  paid : s.bytes = contextSize + weight limbBytes s.values

/-- What holds between public calls: also, every rational that is live is in canonical form. -/
structure WellFormed (s : ExactContext) : Prop extends Accounted s where
  rationals : ∀ value, (∃ p, Represents s value p) ∨
    s.lookup (.numerator value) = none ∧ s.lookup (.denominator value) = none

theorem Accounted.of_within (accounted : Accounted s) {opened : List Handle} (valid : Valid t)
    (within : Within opened s t) : Accounted t := by
  refine ⟨valid, ?_⟩
  have overhead := within.overhead
  have paid := accounted.paid
  omega

theorem RationalCall.spec (wellFormed : WellFormed s) (call : RationalCall) :
    wp call.exec (fun result t => call.Computes s result t ∧ Valid t ∧ Within (halves call.outputs) s t)
      (fun _ t => Within [] s t) s := by
  have valid := wellFormed.toValid
  by_cases live : ∀ value ∈ call.operands ++ call.outputs, ∃ p, Represents s value p
  · exact call.spec_live valid live
  · push Not at live
    obtain ⟨value, member, dead⟩ := live
    refine call.refused member ?_ (.refl valid.toSound _)
    obtain ⟨absent, _⟩ := (wellFormed.rationals value).resolve_left (not_exists.mpr dead)
    simp only [rationalValidShallow, ExactContext.bigintShallowValid, absent, Bool.false_and]

theorem resolveLimits_ceiling (limits : Option ExactLimits) :
    (resolveLimits limits).maxLimbs.toNat ≤ exactMaxLimbsCeiling.toNat := by
  unfold resolveLimits
  dsimp only
  generalize (if (limits.getD exactLimitsDefaults).maxLimbs = 0 then exactLimitsDefaults.maxLimbs
    else (limits.getD exactLimitsDefaults).maxLimbs) = maxLimbs
  by_cases large : exactMaxLimbsCeiling < maxLimbs
  · rw [if_pos large]
  · rw [if_neg large]
    exact UInt32.le_iff_toNat_le.mp (UInt32.not_lt.mp large)

theorem exactContextCreate_wellFormed {limits : Option ExactLimits} {heap heap' : Heap}
    (created : exactContextCreate limits heap = (some s, heap')) : WellFormed s := by
  unfold exactContextCreate at created
  simp only at created
  split at created
  · cases created
  · rename_i within
    split at created
    · cases created
      have affordable : contextSize ≤ (resolveLimits limits).maxBytes.toNat := by omega
      have none : ∀ handle : Handle, find handle ([] : Entries Handle Bigint) = none := fun _ => rfl
      refine ⟨⟨⟨⟨List.nodup_nil, rfl, Nat.zero_le _, affordable, Nat.zero_le _, by simp,
        resolveLimits_ceiling limits⟩, fun handle b found => ?_⟩, rfl⟩, fun _ => .inr ⟨rfl, rfl⟩⟩
      simp only [ExactContext.lookup, none] at found
      cases found
    · cases created

theorem validateValues_of_sound (valid : Valid s) {entries : Entries Handle Bigint}
    (registered : ∀ entry ∈ entries, entry ∈ s.values) {count bytes : Nat}
    (counted : count + entries.length = s.valueCount) (paid : bytes + weight limbBytes entries = s.bytes) :
    validateValues s entries count bytes = true := by
  have affordable := valid.affordable
  have word := s.limits.maxBytes.toNat_lt
  induction entries generalizing count bytes with
  | nil =>
    simp only [List.length_nil, Nat.add_zero, weight, List.map_nil, List.sum_nil] at counted paid
    simp only [validateValues, counted, paid, decide_true, Bool.and_self]
  | cons entry rest ih =>
    have found : s.lookup entry.1 = some entry.2 := find_of_mem valid.distinct (registered entry (by simp))
    have bounded := valid.bounded entry (registered entry (by simp))
    have canonical := valid_of_lookup valid.toSound found (valid.canonical _ _ found)
    have cost : weight limbBytes (entry :: rest) = entry.2.capacity * limbSize + weight limbBytes rest := by
      simp only [weight, List.map_cons, List.sum_cons, limbBytes]
    simp only [List.length_cons] at counted
    have room : ¬sizeMax - bytes < entry.2.capacity * limbSize := by
      have : sizeMax = 4294967295 := rfl
      omega
    rw [validateValues, if_neg, checkedBytes_of_le (bounded.2.trans valid.ceiling)]
    · simp only [if_neg room]
      exact ih (fun other member => registered other (by simp [member])) (by omega) (by omega)
    · simp only [canonical, Bool.not_true, Bool.false_or, decide_eq_true_eq, not_le]
      omega

theorem Accounted.validate (accounted : Accounted s) : exactValidate s = .ok := by
  have paid := accounted.paid
  have affordable := accounted.affordable
  unfold exactValidate
  rw [if_neg (by omega), if_pos]
  exact validateValues_of_sound accounted.toValid (fun _ member => member) (by rw [accounted.counted]; omega) paid.symm

theorem WellFormed.of_within (wellFormed : WellFormed s) {opened : List Handle} (valid : Valid t)
    (within : Within opened s t)
    (rationals : ∀ value, (.numerator value ∈ opened ∨ .denominator value ∈ opened) →
      (∃ p, Represents t value p) ∨ t.lookup (.numerator value) = none ∧ t.lookup (.denominator value) = none) :
    WellFormed t := by
  refine ⟨wellFormed.toAccounted.of_within valid within, fun value => ?_⟩
  by_cases touched : Handle.numerator value ∈ opened ∨ Handle.denominator value ∈ opened
  · exact rationals value touched
  · rw [not_or] at touched
    rcases wellFormed.rationals value with ⟨p, represents⟩ | ⟨absent, absent'⟩
    · exact .inl ⟨p, (Within.view within touched.1).trans represents.numerator,
        (Within.view within touched.2).trans represents.denominator⟩
    · exact .inr ⟨(within.others _ touched.1).trans absent, (within.others _ touched.2).trans absent'⟩

theorem WellFormed.unchanged (wellFormed : WellFormed s) (within : Within [] s t) : WellFormed t :=
  wellFormed.of_within (wellFormed.toValid.unchanged within) within
    (fun _ touched => by rcases touched with member | member <;> cases member)

theorem bigintInit_wellFormed (wellFormed : WellFormed s) {address : Nat}
    (absent : s.lookup (.object address) = none) : WellFormed (Context.bigintInit (.object address) s) := by
  have valid := wellFormed.toValid
  obtain ⟨opened, empty⟩ := bigintInit_spec valid.toSound absent
  have written := Writes.of_holds valid opened ⟨_, empty, canonical_empty _, rfl⟩
  exact wellFormed.of_within written.valid opened (by simp)

theorem bigintDestroy_wellFormed (wellFormed : WellFormed s) (address : Nat) :
    WellFormed (Context.bigintDestroy (.object address) s) :=
  wellFormed.of_within (@close_valid [.object address] s wellFormed.toValid)
    (bigintDestroy_within wellFormed.toSound _) (by simp)

theorem bigratInit_wellFormed (wellFormed : WellFormed s) {value : Bigrat}
    (absent : s.lookup (.numerator value) = none ∧ s.lookup (.denominator value) = none) :
    wp (Rational.bigratInit value) (fun _ t => WellFormed t) (fun _ t => WellFormed t) s := by
  refine wp_mono (bigratInit_spec wellFormed.toValid absent.1 absent.2) ?_
    (fun _ _ stopped => wellFormed.unchanged stopped.2)
  rintro _ t ⟨valid, within, views⟩
  refine wellFormed.of_within valid within fun other touched => .inl ⟨0, ?_⟩
  obtain rfl : other = value := by simpa using touched
  exact ⟨by simp [views], by simp [views]⟩

theorem bigratDestroy_wellFormed (wellFormed : WellFormed s) (value : Bigrat) :
    WellFormed (Rational.bigratDestroy value s) := by
  have valid := wellFormed.toValid
  have closed : Rational.bigratDestroy value s = closing [.denominator value, .numerator value] s := rfl
  rw [closed]
  refine wellFormed.of_within (close_valid valid) (closing_within _ valid.toSound) fun other touched => .inr ?_
  obtain rfl : other = value := by simpa using touched
  exact ⟨closing_lookup (by simp) valid.toSound, closing_lookup (by simp) valid.toSound⟩

theorem Call.wellFormed (wellFormed : WellFormed s) (call : Call) (permitted : call.Permitted s) :
    WellFormed (call.after s) := by
  apply Call.wp_after
  cases call with
  | bigintInit address => exact bigintInit_wellFormed wellFormed permitted
  | bigintDestroy address => exact bigintDestroy_wellFormed wellFormed address
  | bigratInit value => exact bigratInit_wellFormed wellFormed permitted
  | bigratDestroy value => exact bigratDestroy_wellFormed wellFormed value
  | integer call =>
    simp only [exec, wp_bind]
    refine wp_mono (call.spec wellFormed.toValid) ?_ (fun _ _ kept => wellFormed.unchanged kept)
    rintro _ t ⟨_, valid, within⟩
    refine wellFormed.of_within valid within fun value touched => ?_
    rcases touched with member | member
    · obtain ⟨address, object⟩ := permitted _ member
      cases object
    · obtain ⟨address, object⟩ := permitted _ member
      cases object
  | rational call =>
    simp only [exec, wp_bind]
    refine wp_mono (call.spec wellFormed) ?_ (fun _ _ kept => wellFormed.unchanged kept)
    rintro result t ⟨computes, valid, within⟩
    refine wellFormed.of_within valid within fun value touched => .inl ?_
    have output : value ∈ call.outputs := by simpa [halves] using touched
    exact computes.represents output
  | setCancel cancelled =>
    have within : Within [] s (exactSetCancel cancelled s) := by
      have sound := wellFormed.toSound
      exact ⟨⟨⟨sound.distinct, sound.counted, sound.charged, sound.affordable, sound.patient, sound.bounded,
        sound.ceiling⟩, rfl, rfl⟩, fun _ _ => rfl⟩
    exact wellFormed.unchanged within

theorem Reachable.wellFormed (reachable : Reachable s) : WellFormed s := by
  induction reachable with
  | create created => exact exactContextCreate_wellFormed created
  | call _ call permitted ih => exact call.wellFormed ih permitted

def created : ExactContext :=
  { limits := exactLimitsDefaults
    bytes := contextSize
    steps := 0
    operationDepth := 0
    cancelled := none
    polls := 0
    values := []
    valueCount := 0
    heap := ⟨fun _ => true, 1⟩ }

theorem created_reachable : Reachable created :=
  @Reachable.create created none ⟨fun _ => true, 0⟩ ⟨fun _ => true, 1⟩ rfl

/-- In every reachable context, an integer operation on any handles computes its mathematical
result in normal form and touches its outputs only, or stops and changes no value at all;
the context passes its own check either way. -/
theorem integer_operations (reachable : Reachable s) (call : IntegerCall) :
    wp call.exec
      (fun result t => call.Computes s result t ∧ (∀ handle ∉ call.outputs, t.lookup handle = s.lookup handle) ∧
        exactValidate t = .ok)
      (fun _ t => (∀ handle, t.lookup handle = s.lookup handle) ∧ exactValidate t = .ok) s := by
  have accounted := reachable.wellFormed.toAccounted
  refine wp_mono (call.spec accounted.toValid) ?_ ?_
  · rintro result t ⟨computes, valid, within⟩
    exact ⟨computes, within.others, (accounted.of_within valid within).validate⟩
  · intro _ t within
    exact ⟨fun _ => within.others _ List.not_mem_nil,
      (accounted.of_within (accounted.toValid.unchanged within) within).validate⟩

@[irreducible] def seven : ExactContext :=
  (Call.integer (.setI64 (.object 1) 7)).after ((Call.bigintInit 1).after created)

theorem seven_reachable : Reachable seven := by
  unfold seven
  refine .call (.call created_reachable (.bigintInit 1) rfl) (.integer (.setI64 (.object 1) 7)) ?_
  intro handle member
  exact ⟨1, by simpa [IntegerCall.outputs] using member⟩

theorem integer_operations_doubles_seven :
    ∃ result t, (IntegerCall.add (.object 1) (.object 1) (.object 1)).exec seven = .ok result t ∧
      Holds t (.object 1) 14 := by
  obtain ⟨result, t, run, ⟨x, y, first, second, sum⟩, _⟩ :=
    wp_returns (integer_operations seven_reachable (.add (.object 1) (.object 1) (.object 1))) (by decide +kernel)
  have normal : Limbs.Normal ([] ++ [7#32]) := Limbs.normal_append_singleton.mpr (by decide)
  have holds : Holds seven (.object 1) 7 := ⟨⟨[7#32], 1, 1⟩, by decide +kernel, ⟨normal, by decide⟩, by decide⟩
  rw [first.unique holds, second.unique holds] at sum
  exact ⟨result, t, run, sum⟩

/-- In every reachable context, a rational operation writes the exact result in canonical form
and touches its output only, or stops and changes no value at all. -/
theorem rational_operations (reachable : Reachable s) (call : RationalCall) :
    wp call.exec
      (fun result t => call.Computes s result t ∧
        ∀ handle ∉ halves call.outputs, t.lookup handle = s.lookup handle)
      (fun _ t => ∀ handle, t.lookup handle = s.lookup handle) s := by
  refine wp_mono (call.spec reachable.wellFormed) ?_ ?_
  · rintro result t ⟨computes, _, within⟩
    exact ⟨computes, within.others⟩
  · intro _ t within handle
    exact within.others handle List.not_mem_nil

/-- A rational variable. -/
@[irreducible] def zeroed : ExactContext := (Call.bigratInit 1).after created

theorem zeroed_reachable : Reachable zeroed := by
  unfold zeroed
  exact .call created_reachable (.bigratInit 1) ⟨rfl, rfl⟩

theorem rational_operations_reduces :
    ∃ result t, (RationalCall.setI64 1 3 (-6)).exec zeroed = .ok result t ∧ Represents t 1 (-1 / 2) := by
  obtain ⟨result, t, run, ⟨_, represents⟩, _⟩ :=
    wp_returns (rational_operations zeroed_reachable (.setI64 1 3 (-6))) (by decide +kernel)
  refine ⟨result, t, run, ?_⟩
  have three : (3 : Int64).toInt = 3 := by decide
  have six : (-6 : Int64).toInt = -6 := by decide
  have value : ((3 : Int) : ℚ) / (-6 : Int) = -1 / 2 := by norm_num
  rwa [three, six, value] at represents

end PhyNspire.Exact.Runs

import PhyNspire.Ir.Expressions
import Mathlib.Tactic.LinearCombination
import Mathlib.Data.Sign.Basic
import Mathlib.Algebra.Order.Field.Basic

/-!
The exact rationals of num.c: an `int64_t` over a positive `int64_t` in lowest terms. Words
wrap as the machine's do. Every operation goes through products and sums that are checked,
and ends in `reduce`, which stores a rational exactly when its lowest terms fit.
-/

namespace PhyNspire.Cas.Num
open PhyNspire.Exact.Integer PhyNspire.Exact.Decimals PhyNspire.Exact.Arithmetic Ir.Expressions

structure CasRat where
  num : Int64
  den : Int64
deriving DecidableEq, Repr

def magnitude (value : Int64) : UInt64 := if value < 0 then ~~~value.toUInt64 + 1 else value.toUInt64

def fromMagnitude (value : UInt64) (negative : Bool) : Option Int64 :=
  let limit := if negative then Int64.maxValue.toUInt64 + 1 else Int64.maxValue.toUInt64
  if limit < value then none
  else if !negative then some value.toInt64
  else if value = Int64.maxValue.toUInt64 + 1 then some Int64.minValue
  else some (-value.toInt64)

def addI64 (a b : Int64) : Option Int64 :=
  if 0 < b ∧ Int64.maxValue - b < a then none
  else if b < 0 ∧ a < Int64.minValue - b then none
  else some (a + b)

def mulU64 (a b : UInt64) : Option UInt64 :=
  if a ≠ 0 ∧ 18446744073709551615 / a < b then none else some (a * b)

def mulI64 (a b : Int64) : Option Int64 := do
  let product ← mulU64 (magnitude a) (magnitude b)
  fromMagnitude product ((decide (a < 0) != decide (b < 0)) && product != 0)

def gcdU64 (a b : UInt64) : UInt64 := if b = 0 then a else gcdU64 b (a % b)
termination_by b.toNat
decreasing_by
  rename_i nonzero
  rw [UInt64.toNat_mod]
  exact Nat.mod_lt _ (Nat.pos_of_ne_zero fun zero => nonzero (UInt64.toNat_inj.mp zero))

/-- Lowest terms, written in place: the numerator first, the denominator after it. -/
def reduce (num den : Int64) (out : CasRat) : Bool × CasRat :=
  if den = 0 then (false, out)
  else if num = 0 then (true, ⟨0, 1⟩)
  else
    let negative := decide (num < 0) != decide (den < 0)
    let divisor := gcdU64 (magnitude num) (magnitude den)
    let n := magnitude num / divisor
    let d := magnitude den / divisor
    if Int64.maxValue.toUInt64 < d then (false, out)
    else match fromMagnitude n negative with
      | none => (false, out)
      | some written => (true, { ({ out with num := written } : CasRat) with den := d.toInt64 })

def ratAdd (a b out : CasRat) : Bool × CasRat :=
  let common := (gcdU64 a.den.toUInt64 b.den.toUInt64).toInt64
  let aScale := b.den / common
  let bScale := a.den / common
  let parts : Option (Int64 × Int64) := do
    let left ← mulI64 a.num aScale
    let right ← mulI64 b.num bScale
    let num ← addI64 left right
    let den ← mulI64 a.den aScale
    pure (num, den)
  match parts with
  | none => (false, out)
  | some (num, den) => reduce num den out

/-- `phy_cas_rat_mul`: the factors are cancelled crosswise first. -/
def ratMul (a b out : CasRat) : Bool × CasRat :=
  let left := (gcdU64 (magnitude a.num) b.den.toUInt64).toInt64
  let right := (gcdU64 (magnitude b.num) a.den.toUInt64).toInt64
  let parts : Option (Int64 × Int64) := do
    let num ← mulI64 (a.num / left) (b.num / right)
    let den ← mulI64 (a.den / right) (b.den / left)
    pure (num, den)
  match parts with
  | none => (false, out)
  | some (num, den) => reduce num den out

/-- Square and multiply. The factor is not squared once more than it is used. -/
def powLoop (times : UInt64) (result factor : CasRat) : Bool × CasRat :=
  if times = 0 then (true, result)
  else
    let multiplied := if times &&& 1 ≠ 0 then ratMul result factor result else (true, result)
    if !multiplied.1 then (false, result)
    else
      let squared := if times >>> 1 ≠ 0 then ratMul factor factor factor else (true, factor)
      if !squared.1 then (false, result) else powLoop (times >>> 1) multiplied.2 squared.2
termination_by times.toNat
decreasing_by
  rename_i nonzero _ _
  have positive : times.toNat ≠ 0 := fun zero => nonzero (UInt64.toNat_inj.mp zero)
  have halved : (times >>> 1).toNat = times.toNat / 2 := by
    rw [UInt64.toNat_shiftRight]
    exact Nat.shiftRight_one _
  omega

def ratPow (base : CasRat) (exponent : Int64) (out : CasRat) : Bool × CasRat :=
  if exponent = 0 then (true, ⟨1, 1⟩)
  else if base.num = 0 then if exponent < 0 then (false, out) else (true, ⟨0, 1⟩)
  else
    let factor := if exponent < 0 then reduce base.den base.num ⟨base.den, base.num⟩ else (true, base)
    if !factor.1 then (false, out)
    else
      let result := powLoop (magnitude exponent) ⟨1, 1⟩ factor.2
      if result.1 then (true, result.2) else (false, out)

def ratCmpInt (a : CasRat) (value : Int64) : Int :=
  match mulI64 value a.den with
  | none => if value < 0 then 1 else -1
  | some scaled => (if scaled < a.num then 1 else 0) - (if a.num < scaled then 1 else 0)

/-- A result of 64 bits, when there is one. -/
def checked (x : Int) : Option Int64 := if FitsI64 x then some (Int64.ofInt x) else none

theorem toInt_of_checked {x : Int} {word : Int64} (known : checked x = some word) : FitsI64 x ∧ word.toInt = x := by
  unfold checked at known
  split at known
  · rename_i fits
    cases known
    exact ⟨fits, toInt_ofInt_of_fits fits⟩
  · cases known

theorem not_fits_of_checked {x : Int} (none : checked x = none) : ¬FitsI64 x := by
  intro fits
  rw [checked, if_pos fits] at none
  cases none

theorem fitsI64_toInt (word : Int64) : FitsI64 word.toInt := ⟨word.le_toInt, word.toInt_lt⟩

theorem checked_toInt {x : Int} {word : Int64} (same : word.toInt = x) : checked x = some word := by
  rw [checked, if_pos (same ▸ fitsI64_toInt word), ← same, Int64.ofInt_toInt]

theorem toNat_magnitude (value : Int64) : (magnitude value).toNat = value.toInt.natAbs := by
  have spec := (magnitudeI64_spec value).1
  rw [← spec, magnitude, magnitudeI64]
  split <;> rfl

theorem toInt_toInt64 {word : UInt64} (small : word.toNat < 2 ^ 63) : word.toInt64.toInt = word.toNat := by
  change word.toBitVec.toInt = _
  rw [BitVec.toInt_eq_toNat_cond, UInt64.toNat_toBitVec, if_pos (by omega)]

theorem fromMagnitude_eq (value : UInt64) (negative : Bool) :
    fromMagnitude value negative = checked (if negative then -(value.toNat : Int) else value.toNat) := by
  have word := value.toNat_lt
  have limit : (Int64.maxValue.toUInt64 + 1).toNat = 2 ^ 63 := by decide
  have largest : Int64.maxValue.toUInt64.toNat = 2 ^ 63 - 1 := by decide
  unfold fromMagnitude
  dsimp only
  cases negative with
  | false =>
    simp only [Bool.false_eq_true, ↓reduceIte, Bool.not_false, UInt64.lt_iff_toNat_lt, largest]
    by_cases large : 2 ^ 63 - 1 < value.toNat
    · rw [if_pos large, checked, if_neg]
      intro fits
      have upper := fits.2
      omega
    · rw [if_neg large, checked_toInt (toInt_toInt64 (by omega))]
  | true =>
    simp only [↓reduceIte, Bool.not_true, Bool.false_eq_true, UInt64.lt_iff_toNat_lt, limit]
    by_cases large : 2 ^ 63 < value.toNat
    · rw [if_pos large, checked, if_neg]
      intro fits
      have lower := fits.1
      omega
    rw [if_neg large]
    by_cases least : value = Int64.maxValue.toUInt64 + 1
    · rw [if_pos least, checked_toInt]
      rw [least, limit]
      decide
    · have below : value.toNat < 2 ^ 63 := by
        have apart : value.toNat ≠ 2 ^ 63 := fun same => least (UInt64.toNat_inj.mp (same.trans limit.symm))
        omega
      rw [if_neg least, checked_toInt]
      rw [Int64.toInt_neg, toInt_toInt64 below]
      exact Int.bmod_eq_of_le (by omega) (by omega)

theorem addI64_eq (a b : Int64) : addI64 a b = checked (a.toInt + b.toInt) := by
  have aLow := a.le_toInt
  have aHigh := a.toInt_lt
  have bLow := b.le_toInt
  have bHigh := b.toInt_lt
  have above : (Int64.maxValue - b).toInt = if 0 < b.toInt then 2 ^ 63 - 1 - b.toInt else (Int64.maxValue - b).toInt := by
    split
    · rw [Int64.toInt_sub, show Int64.maxValue.toInt = 2 ^ 63 - 1 from by decide]
      exact Int.bmod_eq_of_le (by omega) (by omega)
    · rfl
  have below : (Int64.minValue - b).toInt = if b.toInt < 0 then -2 ^ 63 - b.toInt else (Int64.minValue - b).toInt := by
    split
    · rw [Int64.toInt_sub, show Int64.minValue.toInt = -2 ^ 63 from by decide]
      exact Int.bmod_eq_of_le (by omega) (by omega)
    · rfl
  have zero : (0 : Int64).toInt = 0 := rfl
  unfold addI64
  simp only [Int64.lt_iff_toInt_lt, zero]
  by_cases tooLarge : 0 < b.toInt ∧ (Int64.maxValue - b).toInt < a.toInt
  · rw [if_pos tooLarge, checked, if_neg]
    intro fits
    have upper := fits.2
    rw [above, if_pos tooLarge.1] at tooLarge
    omega
  rw [if_neg tooLarge]
  by_cases under : b.toInt < 0 ∧ a.toInt < (Int64.minValue - b).toInt
  · rw [if_pos under, checked, if_neg]
    intro fits
    have lower := fits.1
    rw [below, if_pos under.1] at under
    omega
  rw [if_neg under, checked_toInt]
  rw [Int64.toInt_add]
  have upper : a.toInt + b.toInt < 2 ^ 63 := by
    by_contra large
    apply tooLarge
    have positive : 0 < b.toInt := by omega
    rw [above, if_pos positive]
    omega
  have lower : -2 ^ 63 ≤ a.toInt + b.toInt := by
    by_contra small
    apply under
    have negative : b.toInt < 0 := by omega
    rw [below, if_pos negative]
    omega
  exact Int.bmod_eq_of_le (by omega) (by omega)

theorem mulU64_eq (a b : UInt64) :
    mulU64 a b = if a.toNat * b.toNat < 2 ^ 64 then some (UInt64.ofNat (a.toNat * b.toNat)) else none := by
  have zero : a ≠ 0 ↔ a.toNat ≠ 0 := by
    rw [ne_eq, ne_eq, ← UInt64.toNat_inj]
    rfl
  have largest : (18446744073709551615 : UInt64).toNat = 2 ^ 64 - 1 := by decide
  unfold mulU64
  simp only [zero, UInt64.lt_iff_toNat_lt, UInt64.toNat_div, largest]
  by_cases none : a.toNat = 0
  · rw [if_neg (fun both => both.1 none), none, zero_mul, if_pos (by decide)]
    rw [UInt64.toNat_inj.mp (show a.toNat = (0 : UInt64).toNat from none), UInt64.zero_mul]
    rfl
  · have positive := Nat.pos_of_ne_zero none
    by_cases large : (2 ^ 64 - 1) / a.toNat < b.toNat
    · rw [if_pos ⟨none, large⟩, if_neg]
      have product := (Nat.div_lt_iff_lt_mul positive).mp large
      rw [mul_comm] at product
      omega
    · rw [if_neg (fun both => large both.2), if_pos]
      · apply congrArg some
        apply UInt64.toNat_inj.mp
        rw [UInt64.toNat_mul, UInt64.toNat_ofNat']
      · have product := (Nat.le_div_iff_mul_le positive).mp (not_lt.mp large)
        rw [mul_comm] at product
        omega

theorem mulI64_eq (a b : Int64) : mulI64 a b = checked (a.toInt * b.toInt) := by
  have size : (a.toInt * b.toInt).natAbs = (magnitude a).toNat * (magnitude b).toNat := by
    rw [toNat_magnitude, toNat_magnitude, Int.natAbs_mul]
  unfold mulI64
  rw [mulU64_eq, ← size]
  by_cases large : (a.toInt * b.toInt).natAbs < 2 ^ 64
  · have word : (UInt64.ofNat (a.toInt * b.toInt).natAbs).toNat = (a.toInt * b.toInt).natAbs := by
      rw [UInt64.toNat_ofNat', Nat.mod_eq_of_lt large]
    rw [if_pos large]
    change fromMagnitude _ _ = _
    rw [fromMagnitude_eq, word]
    congr 1
    have zero : (UInt64.ofNat (a.toInt * b.toInt).natAbs != 0) = decide (a.toInt * b.toInt ≠ 0) := by
      rw [bne, Bool.eq_iff_iff]
      simp only [Bool.not_eq_true', beq_eq_false_iff_ne, ne_eq, decide_eq_true_eq, ← UInt64.toNat_inj, word]
      change ¬(a.toInt * b.toInt).natAbs = 0 ↔ _
      rw [Int.natAbs_eq_zero]
    have first : decide (a < 0) = decide (a.toInt < 0) := decide_eq_decide.mpr Int64.lt_iff_toInt_lt
    have second : decide (b < 0) = decide (b.toInt < 0) := decide_eq_decide.mpr Int64.lt_iff_toInt_lt
    rw [zero, first, second]
    have sign : ((decide (a.toInt < 0) != decide (b.toInt < 0)) && decide (a.toInt * b.toInt ≠ 0)) = decide (a.toInt * b.toInt < 0) := by
      rw [Bool.eq_iff_iff, Bool.and_eq_true, bne_iff_ne, ne_eq, decide_eq_decide, decide_eq_true_eq, decide_eq_true_eq, mul_neg_iff]
      constructor
      · rintro ⟨different, nonzero⟩
        have a0 : a.toInt ≠ 0 := left_ne_zero_of_mul nonzero
        have b0 : b.toInt ≠ 0 := right_ne_zero_of_mul nonzero
        omega
      · rintro (⟨positive, negative⟩ | ⟨negative, positive⟩)
        · exact ⟨by omega, mul_ne_zero (by omega) (by omega)⟩
        · exact ⟨by omega, mul_ne_zero (by omega) (by omega)⟩
    rw [sign]
    by_cases negative : a.toInt * b.toInt < 0
    · rw [if_pos (decide_eq_true negative)]
      omega
    · rw [if_neg (by simpa using negative)]
      omega
  · rw [if_neg large, checked, if_neg]
    · rfl
    · intro fits
      have lower := fits.1
      have upper := fits.2
      omega

theorem toNat_gcdU64 (a b : UInt64) : (gcdU64 a b).toNat = Nat.gcd a.toNat b.toNat := by
  induction a, b using gcdU64.induct with
  | case1 a =>
    unfold gcdU64
    rw [if_pos rfl]
    exact (Nat.gcd_zero_right _).symm
  | case2 a b nonzero ih =>
    unfold gcdU64
    rw [if_neg nonzero, ih, UInt64.toNat_mod, Nat.gcd_comm, ← Nat.gcd_rec, Nat.gcd_comm]

namespace CasRat

def value (r : CasRat) : ℚ := r.num.toInt / r.den.toInt

structure Reduced (r : CasRat) : Prop where
  positive : 0 < r.den.toInt
  coprime : Nat.Coprime r.num.toInt.natAbs r.den.toInt.natAbs

/-- The lowest terms of a rational that fits. -/
def ofRat (q : ℚ) : CasRat := ⟨Int64.ofInt q.num, Int64.ofInt q.den⟩

variable {r : CasRat} {q : ℚ}

theorem Reduced.num_value (reduced : r.Reduced) : r.value.num = r.num.toInt :=
  Rat.num_div_eq_of_coprime reduced.positive reduced.coprime

theorem Reduced.den_value (reduced : r.Reduced) : (r.value.den : Int) = r.den.toInt :=
  Rat.den_div_eq_of_coprime reduced.positive reduced.coprime

theorem Reduced.inline (reduced : r.Reduced) : Inline r.value :=
  ⟨reduced.num_value ▸ fitsI64_toInt r.num, reduced.den_value ▸ fitsI64_toInt r.den⟩

theorem Reduced.ofRat_value (reduced : r.Reduced) : ofRat r.value = r := by
  rw [ofRat, reduced.num_value, reduced.den_value, Int64.ofInt_toInt, Int64.ofInt_toInt]

theorem num_ofRat (fits : Inline q) : (ofRat q).num.toInt = q.num := toInt_ofInt_of_fits fits.1

theorem den_ofRat (fits : Inline q) : (ofRat q).den.toInt = q.den := toInt_ofInt_of_fits fits.2

theorem reduced_ofRat (fits : Inline q) : (ofRat q).Reduced := by
  constructor
  · rw [den_ofRat fits]
    exact Int.natCast_pos.mpr q.den_pos
  · rw [num_ofRat fits, den_ofRat fits, Int.natAbs_natCast]
    exact q.reduced

theorem value_ofRat (fits : Inline q) : (ofRat q).value = q := by
  rw [value, num_ofRat fits, den_ofRat fits]
  exact Rat.num_div_den q

end CasRat

open CasRat

/-- What `reduce` leaves in its output: the lowest terms of a value that fits, and nothing otherwise. -/
def store (q : ℚ) (out : CasRat) : Bool × CasRat := if Inline q then (true, ofRat q) else (false, out)

theorem lowest_terms {n d : Int} (nonzero : d ≠ 0) :
    ((n : ℚ) / d).num = (if decide (n < 0) != decide (d < 0) then -((n.natAbs / n.natAbs.gcd d.natAbs : Nat) : Int)
      else (n.natAbs / n.natAbs.gcd d.natAbs : Nat)) ∧
    (((n : ℚ) / d).den : Int) = (d.natAbs / n.natAbs.gcd d.natAbs : Nat) := by
  set g := n.natAbs.gcd d.natAbs
  have positive : 0 < g := Nat.gcd_pos_of_pos_right _ (Int.natAbs_pos.mpr nonzero)
  have n_total : n.natAbs / g * g = n.natAbs := Nat.div_mul_cancel (Nat.gcd_dvd_left _ _)
  have d_total : d.natAbs / g * g = d.natAbs := Nat.div_mul_cancel (Nat.gcd_dvd_right _ _)
  have coprime : Nat.Coprime (n.natAbs / g) (d.natAbs / g) := Nat.coprime_div_gcd_div_gcd positive
  generalize n.natAbs / g = n' at *
  generalize d.natAbs / g = d' at *
  have d_positive : 0 < d' := by
    apply Nat.pos_of_ne_zero
    rintro rfl
    rw [zero_mul] at d_total
    exact nonzero (Int.natAbs_eq_zero.mp d_total.symm)
  have n_split : (n.natAbs : Int) = n' * g := by exact_mod_cast n_total.symm
  have d_split : (d.natAbs : Int) = d' * g := by exact_mod_cast d_total.symm
  set signed : Int := if decide (n < 0) != decide (d < 0) then -(n' : Int) else n' with signed_eq
  have size : signed.natAbs = n' := by
    rw [signed_eq]
    split <;> omega
  have crossed : n * d' = signed * d := by
    have g_nonzero : (g : Int) ≠ 0 := by omega
    apply mul_right_cancel₀ g_nonzero
    by_cases negative : n < 0 <;> by_cases negative' : d < 0
    all_goals
      simp only [signed_eq, negative, negative', decide_true, decide_false, bne_self_eq_false, Bool.false_eq_true, ↓reduceIte,
        Bool.true_bne, Bool.false_bne, Bool.not_false, Bool.not_true]
    · rw [mul_assoc, ← d_split, mul_right_comm, ← n_split, Int.ofNat_natAbs_of_nonpos negative.le,
        Int.ofNat_natAbs_of_nonpos negative'.le]
      ring
    · rw [mul_assoc, ← d_split, mul_right_comm, neg_mul, ← n_split, Int.ofNat_natAbs_of_nonpos negative.le,
        Int.natAbs_of_nonneg (not_lt.mp negative')]
      ring
    · rw [mul_assoc, ← d_split, mul_right_comm, neg_mul, ← n_split, Int.natAbs_of_nonneg (not_lt.mp negative),
        Int.ofNat_natAbs_of_nonpos negative'.le]
      ring
    · rw [mul_assoc, ← d_split, mul_right_comm, ← n_split, Int.natAbs_of_nonneg (not_lt.mp negative),
        Int.natAbs_of_nonneg (not_lt.mp negative')]
  have quotient : (n : ℚ) / d = signed / (d' : Int) := by
    rw [div_eq_div_iff (Int.cast_ne_zero.mpr nonzero) (Int.cast_ne_zero.mpr (by omega)), ← Int.cast_mul, ← Int.cast_mul, crossed]
  have apart : Nat.Coprime signed.natAbs (d' : Int).natAbs := by rwa [size, Int.natAbs_natCast]
  rw [quotient]
  exact ⟨Rat.num_div_eq_of_coprime (by omega) apart, Rat.den_div_eq_of_coprime (by omega) apart⟩

theorem reduce_eq (num : Int64) {den : Int64} (nonzero : den.toInt ≠ 0) (out : CasRat) :
    reduce num den out = store (num.toInt / den.toInt) out := by
  have zero (word : Int64) : word = 0 ↔ word.toInt = 0 := Int64.toInt_inj.symm
  unfold reduce
  rw [if_neg (fun same => nonzero ((zero den).mp same))]
  by_cases none : num = 0
  · rw [if_pos none, (zero num).mp none, Int.cast_zero, zero_div, store, if_pos (by decide)]
    rfl
  rw [if_neg none]
  dsimp only
  obtain ⟨num_eq, den_eq⟩ := lowest_terms (n := num.toInt) nonzero
  have signs : (decide (num < 0) != decide (den < 0)) = (decide (num.toInt < 0) != decide (den.toInt < 0)) := by
    rw [decide_eq_decide.mpr (Int64.lt_iff_toInt_lt (x := num) (y := 0)), decide_eq_decide.mpr (Int64.lt_iff_toInt_lt (x := den) (y := 0))]
    rfl
  have n_word : (magnitude num / gcdU64 (magnitude num) (magnitude den)).toNat =
      num.toInt.natAbs / num.toInt.natAbs.gcd den.toInt.natAbs := by
    rw [UInt64.toNat_div, toNat_gcdU64, toNat_magnitude, toNat_magnitude]
  have d_word : (magnitude den / gcdU64 (magnitude num) (magnitude den)).toNat =
      den.toInt.natAbs / num.toInt.natAbs.gcd den.toInt.natAbs := by
    rw [UInt64.toNat_div, toNat_gcdU64, toNat_magnitude, toNat_magnitude]
  have limit : Int64.maxValue.toUInt64.toNat = 2 ^ 63 - 1 := by decide
  rw [fromMagnitude_eq, signs, n_word, ← num_eq]
  by_cases large : Int64.maxValue.toUInt64 < magnitude den / gcdU64 (magnitude num) (magnitude den)
  · rw [if_pos large, store, if_neg]
    intro fits
    have upper := fits.2.2
    rw [UInt64.lt_iff_toNat_lt, d_word, limit] at large
    omega
  rw [if_neg large]
  rw [UInt64.lt_iff_toNat_lt, d_word, limit] at large
  have d_fits : FitsI64 ((num.toInt : ℚ) / den.toInt).den := ⟨by omega, by omega⟩
  have d_stored : (magnitude den / gcdU64 (magnitude num) (magnitude den)).toInt64 = Int64.ofInt ((num.toInt : ℚ) / den.toInt).den := by
    apply Int64.toInt_inj.mp
    rw [toInt_toInt64 (by omega), toInt_ofInt_of_fits d_fits, den_eq, d_word]
  by_cases n_fits : FitsI64 ((num.toInt : ℚ) / den.toInt).num
  · rw [checked, if_pos n_fits, store, if_pos ⟨n_fits, d_fits⟩, d_stored]
    rfl
  · rw [checked, if_neg n_fits, store, if_neg fun fits => n_fits fits.1]

theorem toInt_div_of_mul {x y : Int64} {k : Int} (positive : 0 < y.toInt) (product : x.toInt = k * y.toInt) :
    (x / y).toInt = k := by
  have other : y ≠ -1 := by
    rintro rfl
    exact absurd positive (by decide)
  rw [Int64.toInt_div_of_ne_right _ _ other, product, Int.mul_tdiv_cancel _ (by omega)]

theorem toInt_gcd {n : UInt64} {den : Int64} (positive : 0 < den.toInt) :
    (gcdU64 n den.toUInt64).toInt64.toInt = Nat.gcd n.toNat den.toInt.natAbs ∧ 0 < Nat.gcd n.toNat den.toInt.natAbs := by
  have small := den.toInt_lt
  have word : den.toUInt64.toNat = den.toInt.natAbs := by
    rw [← toNat_magnitude, magnitude, if_neg]
    rw [Int64.lt_iff_toInt_lt]
    exact not_lt.mpr positive.le
  have bound : Nat.gcd n.toNat den.toInt.natAbs ≤ den.toInt.natAbs := Nat.gcd_le_right _ (by omega)
  constructor
  · rw [toInt_toInt64, toNat_gcdU64, word]
    rw [toNat_gcdU64, word]
    omega
  · exact Nat.gcd_pos_of_pos_right _ (by omega)

theorem exists_mul_of_dvd {x : Int} {d : Nat} (divides : d ∣ x.natAbs) : ∃ k : Int, x = k * d := by
  obtain ⟨k, same⟩ := Int.natCast_dvd.mpr divides
  exact ⟨k, same.trans (mul_comm _ _)⟩

section
variable {a b : CasRat} (out : CasRat)

/-- The common divisor is taken out of both denominators, which leaves their least common multiple. -/
theorem ratAdd_eq (first : a.Reduced) (second : b.Reduced) :
    ratAdd a b out = store (a.value + b.value) out ∨ ratAdd a b out = (false, out) := by
  obtain ⟨common, positive⟩ := toInt_gcd (n := a.den.toUInt64) second.positive
  have a_word : a.den.toUInt64.toNat = a.den.toInt.natAbs := by
    rw [← toNat_magnitude, magnitude, if_neg]
    rw [Int64.lt_iff_toInt_lt]
    exact not_lt.mpr first.positive.le
  rw [a_word] at common positive
  obtain ⟨aScale, a_split⟩ := exists_mul_of_dvd (Nat.gcd_dvd_right a.den.toInt.natAbs b.den.toInt.natAbs)
  obtain ⟨bScale, b_split⟩ := exists_mul_of_dvd (Nat.gcd_dvd_left a.den.toInt.natAbs b.den.toInt.natAbs)
  have aScale_eq := toInt_div_of_mul (by rw [common]; omega) (a_split.trans (by rw [common]))
  have bScale_eq := toInt_div_of_mul (by rw [common]; omega) (b_split.trans (by rw [common]))
  have aScale_nonzero : aScale ≠ 0 := by
    rintro rfl
    have nonzero := second.positive
    omega
  unfold ratAdd
  dsimp only
  simp only [mulI64_eq, addI64_eq, aScale_eq, bScale_eq]
  cases left : checked (a.num.toInt * aScale) with
  | none => exact .inr rfl
  | some left_word =>
    cases right : checked (b.num.toInt * bScale) with
    | none => exact .inr rfl
    | some right_word =>
      cases sum : checked (left_word.toInt + right_word.toInt) with
      | none => exact .inr (by simp [sum])
      | some num =>
        cases common_den : checked (a.den.toInt * aScale) with
        | none => exact .inr (by simp [sum])
        | some den =>
          left
          have den_eq := (toInt_of_checked common_den).2
          have nonzero : den.toInt ≠ 0 := by
            rw [den_eq]
            exact mul_ne_zero first.positive.ne' aScale_nonzero
          have total : (num.toInt : ℚ) / den.toInt = a.value + b.value := by
            rw [(toInt_of_checked sum).2, (toInt_of_checked left).2, (toInt_of_checked right).2, den_eq]
            have a_den : (a.den.toInt : ℚ) ≠ 0 := Int.cast_ne_zero.mpr first.positive.ne'
            have b_den : (b.den.toInt : ℚ) ≠ 0 := Int.cast_ne_zero.mpr second.positive.ne'
            have scale : (aScale : ℚ) ≠ 0 := Int.cast_ne_zero.mpr aScale_nonzero
            have crossed : (a.den.toInt : ℚ) * aScale = b.den.toInt * bScale := by
              have integers : a.den.toInt * aScale = b.den.toInt * bScale := by
                linear_combination aScale * b_split - bScale * a_split
              exact_mod_cast integers
            rw [CasRat.value, CasRat.value, Int.cast_add, Int.cast_mul, Int.cast_mul, Int.cast_mul, div_add_div _ _ a_den b_den,
              div_eq_div_iff (mul_ne_zero a_den scale) (mul_ne_zero a_den b_den)]
            linear_combination (-(b.num.toInt : ℚ) * a.den.toInt) * crossed
          simp only [Option.bind_eq_bind, Option.bind_some, sum, Option.pure_def]
          rw [reduce_eq num nonzero, total]

/-- After the cancellation across the factors no common divisor is left, so a product that does not fit is too large itself. -/
theorem ratMul_eq (first : a.Reduced) (second : b.Reduced) : ratMul a b out = store (a.value * b.value) out := by
  obtain ⟨left, left_positive⟩ := toInt_gcd (n := magnitude a.num) second.positive
  obtain ⟨right, right_positive⟩ := toInt_gcd (n := magnitude b.num) first.positive
  rw [toNat_magnitude] at left left_positive right right_positive
  set l := Nat.gcd a.num.toInt.natAbs b.den.toInt.natAbs with l_eq
  set r := Nat.gcd b.num.toInt.natAbs a.den.toInt.natAbs with r_eq
  obtain ⟨an, an_split⟩ := exists_mul_of_dvd (Nat.gcd_dvd_left a.num.toInt.natAbs b.den.toInt.natAbs)
  obtain ⟨bd, bd_split⟩ := exists_mul_of_dvd (Nat.gcd_dvd_right a.num.toInt.natAbs b.den.toInt.natAbs)
  obtain ⟨bn, bn_split⟩ := exists_mul_of_dvd (Nat.gcd_dvd_left b.num.toInt.natAbs a.den.toInt.natAbs)
  obtain ⟨ad, ad_split⟩ := exists_mul_of_dvd (Nat.gcd_dvd_right b.num.toInt.natAbs a.den.toInt.natAbs)
  rw [← l_eq] at an_split bd_split
  rw [← r_eq] at bn_split ad_split
  have an_eq := toInt_div_of_mul (by rw [left]; omega) (an_split.trans (by rw [left]))
  have bd_eq := toInt_div_of_mul (by rw [left]; omega) (bd_split.trans (by rw [left]))
  have bn_eq := toInt_div_of_mul (by rw [right]; omega) (bn_split.trans (by rw [right]))
  have ad_eq := toInt_div_of_mul (by rw [right]; omega) (ad_split.trans (by rw [right]))
  have bd_positive : 0 < bd := pos_of_mul_pos_left (bd_split ▸ second.positive) (by omega)
  have ad_positive : 0 < ad := pos_of_mul_pos_left (ad_split ▸ first.positive) (by omega)
  have cross : Nat.Coprime an.natAbs bd.natAbs := by
    have reduced := Nat.coprime_div_gcd_div_gcd left_positive
    rw [← l_eq, an_split, bd_split, Int.natAbs_mul, Int.natAbs_mul, Int.natAbs_natCast, Nat.mul_div_cancel _ left_positive,
      Nat.mul_div_cancel _ left_positive] at reduced
    exact reduced
  have cross' : Nat.Coprime bn.natAbs ad.natAbs := by
    have reduced := Nat.coprime_div_gcd_div_gcd right_positive
    rw [← r_eq, bn_split, ad_split, Int.natAbs_mul, Int.natAbs_mul, Int.natAbs_natCast, Nat.mul_div_cancel _ right_positive,
      Nat.mul_div_cancel _ right_positive] at reduced
    exact reduced
  have own : Nat.Coprime an.natAbs ad.natAbs := by
    apply Nat.Coprime.of_dvd _ _ first.coprime
    · rw [an_split, Int.natAbs_mul]
      exact Dvd.intro _ rfl
    · rw [ad_split, Int.natAbs_mul]
      exact Dvd.intro _ rfl
  have own' : Nat.Coprime bn.natAbs bd.natAbs := by
    apply Nat.Coprime.of_dvd _ _ second.coprime
    · rw [bn_split, Int.natAbs_mul]
      exact Dvd.intro _ rfl
    · rw [bd_split, Int.natAbs_mul]
      exact Dvd.intro _ rfl
  have coprime : Nat.Coprime (an * bn).natAbs (ad * bd).natAbs := by
    rw [Int.natAbs_mul, Int.natAbs_mul]
    exact Nat.Coprime.mul_left (Nat.Coprime.mul_right own cross) (Nat.Coprime.mul_right cross' own')
  have product : a.value * b.value = (an * bn : Int) / (ad * bd : Int) := by
    have l_nonzero : (l : ℚ) ≠ 0 := by exact_mod_cast left_positive.ne'
    have r_nonzero : (r : ℚ) ≠ 0 := by exact_mod_cast right_positive.ne'
    have ad_nonzero : (ad : ℚ) ≠ 0 := Int.cast_ne_zero.mpr ad_positive.ne'
    have bd_nonzero : (bd : ℚ) ≠ 0 := Int.cast_ne_zero.mpr bd_positive.ne'
    rw [CasRat.value, CasRat.value, an_split, bd_split, bn_split, ad_split]
    push_cast
    field_simp
  have num_eq : (a.value * b.value).num = an * bn := by
    rw [product]
    exact Rat.num_div_eq_of_coprime (mul_pos ad_positive bd_positive) coprime
  have den_eq : ((a.value * b.value).den : Int) = ad * bd := by
    rw [product]
    exact Rat.den_div_eq_of_coprime (mul_pos ad_positive bd_positive) coprime
  unfold ratMul
  dsimp only
  simp only [mulI64_eq, an_eq, bd_eq, bn_eq, ad_eq]
  cases num : checked (an * bn) with
  | none =>
    rw [store, if_neg fun fits => not_fits_of_checked num (num_eq ▸ fits.1)]
    rfl
  | some num_word =>
    cases den : checked (ad * bd) with
    | none =>
      rw [store, if_neg fun fits => not_fits_of_checked den (den_eq ▸ fits.2)]
      rfl
    | some den_word =>
      have num_value := (toInt_of_checked num).2
      have den_value := (toInt_of_checked den).2
      simp only [Option.bind_eq_bind, Option.bind_some, Option.pure_def]
      rw [reduce_eq num_word (by rw [den_value]; exact (mul_pos ad_positive bd_positive).ne'), num_value, den_value, product]

end

theorem inline_of_pow_le {q : ℚ} {j n : Nat} (order : j ≤ n) (fits : Inline (q ^ n)) : Inline (q ^ j) := by
  have smaller {base : Nat} (limit : base ^ n ≤ 2 ^ 63) (below : j < n) : base ^ j < 2 ^ 63 := by
    rcases Nat.lt_or_ge 1 base with large | small
    · exact (Nat.pow_lt_pow_right large below).trans_le limit
    · exact (Nat.pow_le_pow_left small j).trans_lt (by rw [one_pow]; decide)
  obtain ⟨⟨lower, upper⟩, -, upper'⟩ := fits
  rcases order.eq_or_lt with rfl | below
  · exact ⟨⟨lower, upper⟩, by omega, upper'⟩
  rw [Rat.num_pow] at lower upper
  rw [Rat.den_pow] at upper'
  have num_size : q.num.natAbs ^ n ≤ 2 ^ 63 := by
    rw [← Int.natAbs_pow]
    omega
  have num_small := smaller num_size below
  rw [← Int.natAbs_pow] at num_small
  have den_size : q.den ^ n ≤ 2 ^ 63 := by exact_mod_cast upper'.le
  have den_small := smaller den_size below
  constructor
  · rw [Rat.num_pow]
    exact ⟨by omega, by omega⟩
  · rw [Rat.den_pow]
    have nonneg : (0 : Int) ≤ (q.den ^ j : Nat) := Int.natCast_nonneg _
    exact ⟨by omega, by exact_mod_cast den_small⟩

theorem powLoop_zero (result factor : CasRat) : powLoop 0 result factor = (true, result) := by
  unfold powLoop
  exact if_pos rfl

/-- The powers of one rational: the result holds one, the factor the next binary one. -/
theorem powLoop_eq {q : ℚ} (times : UInt64) {m p : Nat} (fits : Inline (q ^ m)) (fits' : Inline (q ^ p)) (positive : 0 < p) :
    if Inline (q ^ (m + p * times.toNat)) then
      powLoop times (ofRat (q ^ m)) (ofRat (q ^ p)) = (true, ofRat (q ^ (m + p * times.toNat)))
    else (powLoop times (ofRat (q ^ m)) (ofRat (q ^ p))).1 = false := by
  induction count : times.toNat using Nat.strong_induction_on generalizing times m p with
  | _ n ih =>
    subst count
    by_cases none : times = 0
    · subst none
      rw [UInt64.toNat_zero, mul_zero, add_zero, if_pos fits, powLoop_zero]
    have some : times.toNat ≠ 0 := fun zero => none (UInt64.toNat_inj.mp zero)
    have halved : (times >>> 1).toNat = times.toNat / 2 := by
      rw [UInt64.toNat_shiftRight]
      exact Nat.shiftRight_one _
    have odd : times &&& 1 ≠ 0 ↔ times.toNat % 2 = 1 := by
      rw [ne_eq, ← UInt64.toNat_inj, UInt64.toNat_and]
      change ¬times.toNat &&& 1 = 0 ↔ _
      rw [Nat.and_one_is_mod]
      omega
    have more : times >>> 1 ≠ 0 ↔ times.toNat / 2 ≠ 0 := by
      rw [ne_eq, ← UInt64.toNat_inj, halved]
      rfl
    -- the power of the result after this turn, and what is left to multiply
    have rest : m + p * times.toNat = m + p * (times.toNat % 2) + 2 * p * (times.toNat / 2) := by
      have split := Nat.mod_add_div times.toNat 2
      calc m + p * times.toNat = m + p * (times.toNat % 2 + 2 * (times.toNat / 2)) := by rw [split]
        _ = m + p * (times.toNat % 2) + 2 * p * (times.toNat / 2) := by ring
    have product : (if times &&& 1 ≠ 0 then ratMul (ofRat (q ^ m)) (ofRat (q ^ p)) (ofRat (q ^ m)) else (true, ofRat (q ^ m))) =
        if Inline (q ^ (m + p * (times.toNat % 2))) then (true, ofRat (q ^ (m + p * (times.toNat % 2)))) else (false, ofRat (q ^ m)) := by
      rcases Nat.mod_two_eq_zero_or_one times.toNat with even | one
      · rw [if_neg (fun bit => by rw [odd.mp bit] at even; cases even), even, mul_zero, add_zero, if_pos fits]
      · rw [if_pos (odd.mpr one), one, mul_one, ratMul_eq _ (reduced_ofRat fits) (reduced_ofRat fits'), value_ofRat fits,
          value_ofRat fits', ← pow_add]
        rfl
    have square : (if times >>> 1 ≠ 0 then ratMul (ofRat (q ^ p)) (ofRat (q ^ p)) (ofRat (q ^ p)) else (true, ofRat (q ^ p))) =
        if times.toNat / 2 ≠ 0 then store (q ^ (2 * p)) (ofRat (q ^ p)) else (true, ofRat (q ^ p)) := by
      simp only [more]
      rw [ratMul_eq _ (reduced_ofRat fits') (reduced_ofRat fits'), value_ofRat fits', ← pow_add, two_mul]
    unfold powLoop
    rw [if_neg none, product, square, rest]
    by_cases first : Inline (q ^ (m + p * (times.toNat % 2)))
    · rw [if_pos first]
      simp only [Bool.not_true, Bool.false_eq_true, ↓reduceIte]
      by_cases last : times.toNat / 2 = 0
      · have done : times >>> 1 = 0 := UInt64.toNat_inj.mp (halved.trans last)
        rw [if_neg (not_not.mpr last), last, mul_zero, add_zero, if_pos first, done]
        simp only [Bool.not_true, Bool.false_eq_true, ↓reduceIte]
        exact powLoop_zero _ _
      · rw [if_pos last, store]
        by_cases second : Inline (q ^ (2 * p))
        · rw [if_pos second]
          simp only [Bool.not_true, Bool.false_eq_true, ↓reduceIte]
          have later := ih (times >>> 1).toNat (by omega) (times >>> 1) first second (by omega) rfl
          rwa [halved] at later
        · have reached : 2 * p ≤ m + p * (times.toNat % 2) + 2 * p * (times.toNat / 2) := by
            have one : 1 ≤ times.toNat / 2 := by omega
            calc 2 * p = 2 * p * 1 := (mul_one _).symm
              _ ≤ 2 * p * (times.toNat / 2) := Nat.mul_le_mul_left _ one
              _ ≤ _ := Nat.le_add_left _ _
          rw [if_neg second, if_neg fun fits => second (inline_of_pow_le reached fits)]
          rfl
    · rw [if_neg first, if_neg fun fits => first (inline_of_pow_le (Nat.le_add_right _ _) fits)]
      rfl

theorem zpow_toInt (q : ℚ) {exponent : Int64} : q ^ exponent.toInt =
    (if exponent < 0 then q⁻¹ else q) ^ (magnitude exponent).toNat := by
  rw [toNat_magnitude]
  by_cases negative : exponent < 0
  · have less : exponent.toInt < 0 := Int64.lt_iff_toInt_lt.mp negative
    rw [if_pos negative, inv_pow, ← zpow_natCast, ← zpow_neg]
    congr 1
    omega
  · have least : ¬exponent.toInt < 0 := fun less => negative (Int64.lt_iff_toInt_lt.mpr less)
    rw [if_neg negative, ← zpow_natCast]
    congr 1
    omega

/-- A power of a rational that is not zero is stored exactly when it fits. -/
theorem ratPow_eq {base : CasRat} (reduced : base.Reduced) (nonzero : base.num ≠ 0) (exponent : Int64) (out : CasRat) :
    ratPow base exponent out = store (base.value ^ exponent.toInt) out := by
  have some : base.num.toInt ≠ 0 := fun zero => nonzero (Int64.toInt_inj.mp zero)
  unfold ratPow
  by_cases none : exponent = 0
  · rw [if_pos none, none]
    change _ = store (base.value ^ (0 : Int)) out
    rw [zpow_zero, store, if_pos (by decide)]
    rfl
  have times : (magnitude exponent).toNat ≠ 0 := by
    rw [toNat_magnitude]
    exact fun zero => none (Int64.toInt_inj.mp (Int.natAbs_eq_zero.mp zero))
  rw [if_neg none, if_neg nonzero, zpow_toInt]
  set q := if exponent < 0 then base.value⁻¹ else base.value with q_eq
  have factor : (if exponent < 0 then reduce base.den base.num ⟨base.den, base.num⟩ else (true, base)) =
      if Inline q then (true, ofRat q) else (false, ⟨base.den, base.num⟩) := by
    by_cases negative : exponent < 0
    · rw [if_pos negative, reduce_eq _ some, q_eq, if_pos negative, CasRat.value, inv_div]
      rfl
    · rw [if_neg negative, q_eq, if_neg negative, if_pos reduced.inline, reduced.ofRat_value]
  dsimp only
  rw [factor]
  by_cases fits : Inline q
  · rw [if_pos fits]
    simp only [Bool.not_true, Bool.false_eq_true, ↓reduceIte]
    have loop := powLoop_eq (q := q) (magnitude exponent) (m := 0) (p := 1) (by rw [pow_zero]; decide) (by rwa [pow_one]) one_pos
    have start : ofRat (q ^ 0) = ⟨1, 1⟩ := by
      rw [pow_zero]
      rfl
    rw [pow_one, start, zero_add, one_mul] at loop
    by_cases final : Inline (q ^ (magnitude exponent).toNat)
    · rw [if_pos final] at loop
      rw [loop, store, if_pos final]
      rfl
    · rw [if_neg final] at loop
      rw [if_neg (by rw [loop]; decide), store, if_neg final]
  · have last : ¬Inline (q ^ (magnitude exponent).toNat) := by
      intro final
      have first := inline_of_pow_le (Nat.one_le_iff_ne_zero.mpr times) final
      rw [pow_one] at first
      exact fits first
    rw [if_neg fits, store, if_neg last]
    rfl

theorem ratCmpInt_eq {a : CasRat} (reduced : a.Reduced) (value : Int64) :
    ratCmpInt a value = SignType.sign (a.value - value.toInt) := by
  have positive : (0 : ℚ) < a.den.toInt := Int.cast_pos.mpr reduced.positive
  have difference : SignType.sign (a.value - value.toInt) = SignType.sign (a.num.toInt - value.toInt * a.den.toInt) := by
    have quotient : a.value - value.toInt = ((a.num.toInt - value.toInt * a.den.toInt : Int) : ℚ) / a.den.toInt := by
      rw [CasRat.value]
      push_cast
      field_simp
    rcases lt_trichotomy (a.num.toInt - value.toInt * a.den.toInt) 0 with negative | zero | positive'
    · rw [sign_neg negative, quotient]
      exact sign_neg (div_neg_of_neg_of_pos (Int.cast_lt_zero.mpr negative) positive)
    · rw [quotient, zero, Int.cast_zero, zero_div, sign_zero, sign_zero]
    · rw [sign_pos positive', quotient]
      exact sign_pos (div_pos (Int.cast_pos.mpr positive') positive)
  rw [difference]
  have lower := a.num.le_toInt
  have upper := a.num.toInt_lt
  unfold ratCmpInt
  rw [mulI64_eq]
  cases scaled : checked (value.toInt * a.den.toInt) with
  | none =>
    have outside := not_fits_of_checked scaled
    have sign : value < 0 ↔ value.toInt < 0 := Int64.lt_iff_toInt_lt
    dsimp only
    by_cases negative : value < 0
    · have product : value.toInt * a.den.toInt < 0 := mul_neg_of_neg_of_pos (sign.mp negative) reduced.positive
      rw [if_pos negative, sign_pos]
      · rfl
      · unfold FitsI64 at outside
        omega
    · have product : 0 ≤ value.toInt * a.den.toInt := mul_nonneg (not_lt.mp fun less => negative (sign.mpr less)) reduced.positive.le
      rw [if_neg negative, sign_neg]
      · rfl
      · unfold FitsI64 at outside
        omega
  | some word =>
    dsimp only
    rw [← (toInt_of_checked scaled).2]
    simp only [Int64.lt_iff_toInt_lt]
    rcases lt_trichotomy a.num.toInt word.toInt with less | same | more
    · rw [if_neg less.not_gt, if_pos less, sign_neg (by omega)]
      rfl
    · rw [same, if_neg (lt_irrefl _), sub_self, sub_self, sign_zero]
      rfl
    · rw [if_pos more, if_neg more.not_gt, sign_pos (by omega)]
      rfl

/-- A true return stores the exact result in lowest terms, a false one stores nothing. -/
def Stores (result : Bool × CasRat) (q : ℚ) (out : CasRat) : Prop :=
  (result.1 = true → result.2.Reduced ∧ result.2.value = q) ∧ (result.1 = false → result.2 = out)

theorem stores_store (q : ℚ) (out : CasRat) : Stores (store q out) q out ∧ ((store q out).1 = true ↔ Inline q) := by
  unfold store
  by_cases fits : Inline q
  · rw [if_pos fits]
    exact ⟨⟨fun _ => ⟨reduced_ofRat fits, value_ofRat fits⟩, fun other => Bool.noConfusion other⟩, fun _ => fits, fun _ => rfl⟩
  · rw [if_neg fits]
    exact ⟨⟨fun other => Bool.noConfusion other, fun _ => rfl⟩, fun other => Bool.noConfusion other, fun other => absurd other fits⟩

/-- The operations of num.c on every pair of rationals in lowest terms. -/
theorem small_rationals_exact (a b out : CasRat) (first : a.Reduced) (second : b.Reduced) (exponent value : Int64) :
    Stores (ratAdd a b out) (a.value + b.value) out ∧
    Stores (ratMul a b out) (a.value * b.value) out ∧
    ((ratMul a b out).1 = true ↔ Inline (a.value * b.value)) ∧
    Stores (ratPow a exponent out) (a.value ^ exponent.toInt) out ∧
    (a.num ≠ 0 → ((ratPow a exponent out).1 = true ↔ Inline (a.value ^ exponent.toInt))) ∧
    ratCmpInt a value = SignType.sign (a.value - value.toInt) := by
  have product := stores_store (a.value * b.value) out
  rw [← ratMul_eq out first second] at product
  refine ⟨?_, product.1, product.2, ?_, ?_, ratCmpInt_eq first value⟩
  · rcases ratAdd_eq out first second with stored | stopped
    · rw [stored]
      exact (stores_store _ out).1
    · rw [stopped]
      exact ⟨fun other => Bool.noConfusion other, fun _ => rfl⟩
  · by_cases zero : a.num = 0
    · have nothing : a.value = 0 := by
        rw [CasRat.value, zero]
        exact zero_div _
      rw [nothing]
      unfold ratPow
      by_cases none : exponent = 0
      · rw [if_pos none, none]
        change Stores _ ((0 : ℚ) ^ (0 : Int)) out
        rw [zpow_zero]
        exact ⟨fun _ => ⟨⟨by decide, by decide⟩, div_self (by decide)⟩, fun other => Bool.noConfusion other⟩
      rw [if_neg none, if_pos zero]
      have some : exponent.toInt ≠ 0 := fun same => none (Int64.toInt_inj.mp same)
      split
      · exact ⟨fun other => Bool.noConfusion other, fun _ => rfl⟩
      · rw [zero_zpow _ some]
        exact ⟨fun _ => ⟨⟨by decide, by decide⟩, zero_div _⟩, fun other => Bool.noConfusion other⟩
    · rw [ratPow_eq first zero]
      exact (stores_store _ out).1
  · intro nonzero
    rw [ratPow_eq first nonzero]
    exact (stores_store _ out).2

/-- The least word over one times a sixth is stored. -/
theorem small_rationals_exact_of_extremes :
    (ratMul ⟨Int64.minValue, 1⟩ ⟨1, 6⟩ ⟨0, 1⟩).1 = true ∧ (ratMul ⟨Int64.minValue, 1⟩ ⟨1, 6⟩ ⟨0, 1⟩).2.value = -2 ^ 62 / 3 := by
  have contract := small_rationals_exact ⟨Int64.minValue, 1⟩ ⟨1, 6⟩ ⟨0, 1⟩ ⟨by decide, by decide⟩ ⟨by decide, by decide⟩ 0 0
  have value : CasRat.value ⟨Int64.minValue, 1⟩ * CasRat.value ⟨1, 6⟩ = -2 ^ 62 / 3 := by decide +kernel
  rw [value] at contract
  have stored := contract.2.2.1.mpr (by decide +kernel)
  exact ⟨stored, (contract.2.1.1 stored).2⟩

end PhyNspire.Cas.Num

import PhyNspire.Lib.Stateful
import PhyNspire.Lib.TruncatedSeries
import PhyNspire.Platform

/-!
Composition of the truncated Laurent series of series.c. Coefficients are exact numbers; the arithmetic
on them and the budget of steps belong to other parts of the scalar layer, which may fail. A stop
remembers whether it is such a failure or a refusal of the series code itself.
-/

namespace PhyNspire.Cas.Laurent
open Platform Lib.Stateful

def seriesMinExponent : Int := -32

def seriesMaxExponent : Int := 64

def seriesMaxTerms : Nat := 97

/-- `phy_cas_exact_add_refs`, `phy_cas_exact_mul_refs` and `phy_cas_step`. -/
structure Arithmetic (State : Type) where
  exactAddRefs : ℚ → ℚ → EStateM Status State ℚ
  exactMulRefs : ℚ → ℚ → EStateM Status State ℚ
  step : EStateM Status State Unit

/-- The failure of a call, or a refusal of the series code. -/
inductive Stop where
  | failed (status : Status)
  | refused (status : Status)
deriving DecidableEq, Repr

abbrev SeriesM (State : Type) := EStateM Stop State

variable {State α : Type}

/-- A call of another part. -/
def ask (program : EStateM Status State α) : SeriesM State α := fun s =>
  match program s with
  | .ok value t => .ok value t
  | .error status t => .error (.failed status) t

def refuse (status : Status) : SeriesM State α := throw (.refused status)

/-- `phy_series`. The variable is a symbol and the center and the coefficients are exact by their types. -/
structure Series where
  symbol : List UInt8
  center : ℚ
  valuation : Int
  order : Int
  coefficients : List ℚ
deriving DecidableEq, Repr

def exponentBounds (valuation order : Int) : Bool :=
  decide (seriesMinExponent ≤ valuation ∧ order ≤ seriesMaxExponent ∧ valuation ≤ order ∧
    (order - valuation).toNat ≤ seriesMaxTerms)

/-- `trim`: leading zeros are dropped. -/
def trim (series : Series) : Series :=
  let leading := (series.coefficients.takeWhile (· = 0)).length
  if leading = series.coefficients.length then { series with valuation := series.order, coefficients := [] }
  else { series with
    valuation := series.valuation + leading
    coefficients := series.coefficients.drop leading }

def seriesSet (symbol : List UInt8) (center : ℚ) (valuation order : Int) (coefficients : List ℚ) : SeriesM State Series :=
  if exponentBounds valuation order = false ∨ coefficients.length ≠ (order - valuation).toNat then refuse .invalidArgument
  else pure (trim ⟨symbol, center, valuation, order, coefficients⟩)

def seriesZero (symbol : List UInt8) (center : ℚ) (order : Int) : SeriesM State Series :=
  seriesSet symbol center order order []

def seriesConstant (symbol : List UInt8) (center : ℚ) (order : Int) (coefficient : ℚ) : SeriesM State Series :=
  if order ≤ 0 then refuse .invalidArgument
  else if seriesMaxTerms < order.toNat then refuse .termLimit
  else seriesSet symbol center 0 order (coefficient :: List.replicate (order.toNat - 1) 0)

def seriesValidate (series : Series) : Status :=
  if exponentBounds series.valuation series.order = false ∨
      series.coefficients.length ≠ (series.order - series.valuation).toNat then .invalidArgument
  else if series.coefficients.head? = some 0 then .corruptDocument
  else .ok

def check (status : Status) : SeriesM State Unit := if status = .ok then pure () else refuse status

def sameRing (left right : Series) : SeriesM State Unit := do
  check (seriesValidate left)
  check (seriesValidate right)
  if left.symbol = right.symbol ∧ left.center = right.center then pure () else refuse .type

def seriesIsZero (series : Series) : Bool :=
  decide (series.coefficients.length = 0 ∧ series.valuation = series.order)

def seriesCoefficient (series : Series) (exponent : Int) : ℚ :=
  if seriesValidate series ≠ .ok ∨ exponent < series.valuation ∨ series.order ≤ exponent then 0
  else series.coefficients.getD (exponent - series.valuation).toNat 0

variable (arithmetic : Arithmetic State)

/-- The loop of `add_or_sub` over `count` exponents. -/
def addFrom (left right : Series) : Nat → Int → SeriesM State (List ℚ)
  | 0, _ => pure []
  | count + 1, exponent => do
      ask arithmetic.step
      let sum ← ask (arithmetic.exactAddRefs (seriesCoefficient left exponent) (seriesCoefficient right exponent))
      let rest ← addFrom left right count (exponent + 1)
      pure (sum :: rest)

def seriesAddNode (left right : Series) : SeriesM State Series := do
  sameRing left right
  let order := min left.order right.order
  let valuation := min (min left.valuation right.valuation) order
  if exponentBounds valuation order = false then refuse .termLimit
  else do
    let coefficients ← addFrom arithmetic left right (order - valuation).toNat valuation
    pure (trim ⟨left.symbol, left.center, valuation, order, coefficients⟩)

/-- The inner loop of `multiply_to_order`, from one place of the product on. -/
def multiplyRow (a : ℚ) : Nat → List ℚ → List ℚ → SeriesM State (List ℚ)
  | _, [], product => pure product
  | position, b :: rest, product =>
      if product.length ≤ position then pure product
      else do
        ask arithmetic.step
        let term ← ask (arithmetic.exactMulRefs a b)
        let sum ← ask (arithmetic.exactAddRefs (product.getD position 0) term)
        multiplyRow a (position + 1) rest (product.set position sum)

/-- The outer loop. -/
def multiplyRows (right : List ℚ) : Nat → List ℚ → List ℚ → SeriesM State (List ℚ)
  | _, [], product => pure product
  | position, a :: rest, product => do
      let product ← multiplyRow arithmetic a position right product
      multiplyRows right (position + 1) rest product

def multiplyToOrder (left right : Series) (order : Int) : SeriesM State Series := do
  sameRing left right
  if seriesIsZero left = true ∨ seriesIsZero right = true then seriesZero left.symbol left.center order
  else
    let valuation := left.valuation + right.valuation
    if order < valuation ∨ exponentBounds valuation order = false then refuse .termLimit
    else do
      let product ← multiplyRows arithmetic right.coefficients 0 left.coefficients
        (List.replicate (order - valuation).toNat 0)
      pure (trim ⟨left.symbol, left.center, valuation, order, product⟩)

def scaleAll (scalar : ℚ) : List ℚ → SeriesM State (List ℚ)
  | [] => pure []
  | a :: rest => do
      ask arithmetic.step
      let scaled ← ask (arithmetic.exactMulRefs a scalar)
      let rest ← scaleAll scalar rest
      pure (scaled :: rest)

def scaleToOrder (series : Series) (scalar : ℚ) (order : Int) : SeriesM State Series :=
  if series.order < order ∨ order < series.valuation then refuse .invalidArgument
  else do
    let coefficients ← scaleAll arithmetic scalar (series.coefficients.take (order - series.valuation).toNat)
    pure (trim { series with order := order, coefficients := coefficients })

/-- One summand of a composition. -/
def addTerm (result power : Series) (coefficient : ℚ) (order : Int) : SeriesM State Series :=
  if coefficient = 0 then pure result
  else do
    let term ← scaleToOrder arithmetic power coefficient order
    seriesAddNode arithmetic result term

/-- The loop over the exponents of the outer series; `rounds` are left. -/
def composeFrom (outer inner : Series) (order : Int) : Nat → Int → Series → Series → SeriesM State Series
  | 0, _, result, _ => pure result
  | rounds + 1, exponent, result, power => do
      let result ← addTerm arithmetic result power (seriesCoefficient outer exponent) order
      if exponent + 1 < outer.order then do
        let power ← multiplyToOrder arithmetic power inner order
        composeFrom outer inner order rounds (exponent + 1) result power
      else pure result

def seriesComposeNode (outer inner : Series) : SeriesM State Series := do
  check (seriesValidate outer)
  check (seriesValidate inner)
  if outer.center ≠ 0 ∨ outer.valuation < 0 ∨ seriesIsZero inner = true ∨ inner.valuation ≤ 0 then refuse .domain
  else
    let order := min (outer.order * inner.valuation) inner.order
    if order ≤ 0 ∨ seriesMaxExponent < order then refuse .termLimit
    else do
      let result ← seriesZero inner.symbol inner.center order
      let power ← seriesConstant inner.symbol inner.center order 1
      composeFrom arithmetic outer inner order outer.order.toNat 0 result power

open PowerSeries Lib.TruncatedSeries

structure Lawful (fails : Prop) : Prop where
  add : ∀ p q s, wp (arithmetic.exactAddRefs p q) (fun r _ => r = p + q) (fun _ _ => fails) s
  mul : ∀ p q s, wp (arithmetic.exactMulRefs p q) (fun r _ => r = p * q) (fun _ _ => fails) s
  step : ∀ s, wp arithmetic.step (fun _ _ => True) (fun _ _ => fails) s

def Stop.Asked (fails : Prop) (stop : Stop) : Prop := fails ∧ ∃ status, stop = .failed status

variable {arithmetic} {fails : Prop} {s : State}

@[simp] theorem wp_ask (program : EStateM Status State α) (good : α → State → Prop) (bad : Stop → State → Prop) (s : State) :
    wp (ask program) good bad s ↔ wp program good (fun status t => bad (.failed status) t) s := by
  unfold wp ask
  cases program s <;> rfl

theorem wp_asked {β : Type} {program : EStateM Status State α} {next : α → SeriesM State β} {value : α → Prop}
    {good : β → State → Prop} {bad : Stop → State → Prop} (call : wp program (fun r _ => value r) (fun _ _ => fails) s)
    (rest : ∀ r t, value r → wp (next r) good bad t) (stopped : ∀ stop t, stop.Asked fails → bad stop t) :
    wp (ask program >>= next) good bad s := by
  rw [wp_bind, wp_ask]
  exact wp_mono call (fun r t held => rest r t held) fun status t failed => stopped _ t ⟨failed, status, rfl⟩

section
variable (lawful : Lawful arithmetic fails)
include lawful

theorem wp_addFrom (left right : Series) (count : Nat) (exponent : Int) (s : State) :
    wp (addFrom arithmetic left right count exponent)
      (fun sums _ => sums.length = count ∧ ∀ i < count,
        sums.getD i 0 = seriesCoefficient left (exponent + i) + seriesCoefficient right (exponent + i))
      (fun stop _ => stop.Asked fails) s := by
  induction count generalizing exponent s with
  | zero => exact ⟨rfl, fun i below => absurd below (Nat.not_lt_zero i)⟩
  | succ count ih =>
    apply wp_asked (lawful.step s) _ (fun _ _ held => held)
    intro _ t _
    apply wp_asked (lawful.add _ _ t) _ (fun _ _ held => held)
    intro sum u same
    apply wp_then (ih (exponent + 1) u)
    intro rest v held
    refine ⟨congrArg Nat.succ held.1, fun i below => ?_⟩
    cases i with
    | zero => rw [List.getD_cons_zero, same, Int.natCast_zero, Int.add_zero]
    | succ i =>
      rw [List.getD_cons_succ, held.2 i (Nat.lt_of_succ_lt_succ below), Int.natCast_succ, Int.add_assoc, Int.add_comm 1]

/-- A row adds one coefficient times the right factor, as far as the product reaches. -/
theorem wp_multiplyRow (a : ℚ) (position : Nat) (right product : List ℚ) (s : State) :
    wp (multiplyRow arithmetic a position right product)
      (fun result _ => result.length = product.length ∧ Agree product.length (listed result)
        (listed product + C a * X ^ position * listed right))
      (fun stop _ => stop.Asked fails) s := by
  induction right generalizing position product s with
  | nil =>
    refine ⟨rfl, ?_⟩
    rw [listed_nil, mul_zero, add_zero]
    exact Agree.refl _ _
  | cons b rest ih =>
    apply wp_ite
    · intro full
      refine ⟨rfl, ?_⟩
      have late : X ^ product.length ∣ C a * X ^ position * listed (b :: rest) := by
        rw [mul_comm (C a), mul_assoc]
        exact (pow_dvd_pow X full).mul_right _
      have sum := (Agree.refl product.length (listed product)).add (agree_zero late).symm
      rwa [add_zero] at sum
    · intro room
      apply wp_asked (lawful.step s) _ (fun _ _ held => held)
      intro _ t _
      apply wp_asked (lawful.mul a b t) _ (fun _ _ held => held)
      intro term u termIs
      apply wp_asked (lawful.add _ term u) _ (fun _ _ held => held)
      intro sum v sumIs
      apply wp_good (ih (position + 1) (product.set position sum) v)
      intro result _ held
      rw [List.length_set] at held
      refine ⟨held.1, held.2.trans ?_⟩
      have difference : sum - product.getD position 0 = a * b := by rw [sumIs, termIs]; ring
      have value : listed (product.set position sum) + C a * X ^ (position + 1) * listed rest =
          listed product + C a * X ^ position * listed (b :: rest) := by
        rw [listed_set (Nat.not_le.mp room), difference, listed_cons, map_mul]
        ring
      rw [value]
      exact Agree.refl _ _

theorem wp_multiplyRows (right : List ℚ) (position : Nat) (left product : List ℚ) (s : State) :
    wp (multiplyRows arithmetic right position left product)
      (fun result _ => result.length = product.length ∧ Agree product.length (listed result)
        (listed product + X ^ position * listed left * listed right))
      (fun stop _ => stop.Asked fails) s := by
  induction left generalizing position product s with
  | nil =>
    refine ⟨rfl, ?_⟩
    rw [listed_nil, mul_zero, zero_mul, add_zero]
    exact Agree.refl _ _
  | cons a rest ih =>
    unfold multiplyRows
    apply wp_then (wp_multiplyRow lawful a position right product s)
    intro row t rowIs
    apply wp_good (ih (position + 1) row t)
    intro result _ held
    rw [rowIs.1] at held
    refine ⟨held.1, held.2.trans ?_⟩
    have sum := rowIs.2.add (Agree.refl product.length (X ^ (position + 1) * listed rest * listed right))
    apply sum.trans
    have value : listed product + C a * X ^ position * listed right +
        X ^ (position + 1) * listed rest * listed right =
        listed product + X ^ position * listed (a :: rest) * listed right := by
      rw [listed_cons]
      ring
    rw [value]
    exact Agree.refl _ _

theorem wp_scaleAll (scalar : ℚ) (coefficients : List ℚ) (s : State) :
    wp (scaleAll arithmetic scalar coefficients) (fun scaled _ => scaled = coefficients.map (scalar * ·))
      (fun stop _ => stop.Asked fails) s := by
  induction coefficients generalizing s with
  | nil => exact rfl
  | cons a rest ih =>
    apply wp_asked (lawful.step s) _ (fun _ _ held => held)
    intro _ t _
    apply wp_asked (lawful.mul a scalar t) _ (fun _ _ held => held)
    intro scaled u same
    apply wp_then (ih u)
    intro others _ others_eq
    rw [wp_pure, same, others_eq, List.map_cons, mul_comm]

end

/-- The terms that are stored, for a series without negative powers. -/
noncomputable def stored (series : Series) : ℚ⟦X⟧ := X ^ series.valuation.toNat * listed series.coefficients

/-- A valid series in a given variable about a given center that is `F` up to an order. -/
structure Holds (symbol : List UInt8) (center : ℚ) (bound : Nat) (series : Series) (F : ℚ⟦X⟧) : Prop where
  symbol : series.symbol = symbol
  center : series.center = center
  order : series.order = bound
  start : 0 ≤ series.valuation
  below : series.valuation ≤ series.order
  count : series.coefficients.length = (series.order - series.valuation).toNat
  leading : series.coefficients.head? ≠ some 0
  agree : Agree bound F (stored series)

variable {symbol : List UInt8} {center : ℚ} {bound : Nat} {series left right : Series} {F G : ℚ⟦X⟧}

theorem exponentBounds_of {valuation order : Int} (start : 0 ≤ valuation) (below : valuation ≤ order)
    (limit : order ≤ seriesMaxExponent) : exponentBounds valuation order = true := by
  unfold exponentBounds
  rw [decide_eq_true_eq]
  unfold seriesMinExponent seriesMaxTerms
  unfold seriesMaxExponent at limit ⊢
  exact ⟨by omega, limit, below, by omega⟩

theorem Holds.valid (held : Holds symbol center bound series F) (limit : (bound : Int) ≤ seriesMaxExponent) :
    seriesValidate series = .ok := by
  unfold seriesValidate
  rw [if_neg, if_neg held.leading]
  rw [exponentBounds_of held.start held.below (held.order ▸ limit)]
  simp [held.count]

theorem wp_sameRing {good : Unit → State → Prop} {bad : Stop → State → Prop}
    (first : Holds symbol center bound left F) {bound' : Nat} (second : Holds symbol center bound' right G)
    (limit : (bound : Int) ≤ seriesMaxExponent) (limit' : (bound' : Int) ≤ seriesMaxExponent) (fine : good () s) :
    wp (sameRing left right) good bad s := by
  unfold sameRing check
  rw [first.valid limit, second.valid limit', if_pos rfl,
    if_pos ⟨first.symbol.trans second.symbol.symm, first.center.trans second.center.symm⟩]
  exact fine

theorem Holds.coefficient (held : Holds symbol center bound series F) (limit : (bound : Int) ≤ seriesMaxExponent)
    {k : Nat} (inside : k < bound) : seriesCoefficient series k = coeff k F := by
  have stop := held.order
  have start := held.start
  rw [agree_iff.mp held.agree k inside, stored, coeff_X_pow_mul', coeff_listed]
  unfold seriesCoefficient
  rw [held.valid limit]
  by_cases reached : series.valuation.toNat ≤ k
  · rw [if_pos reached, if_neg (by simp; omega)]
    congr 1
    omega
  · rw [if_neg reached, if_pos (by simp; omega)]

theorem Holds.valuation (held : Holds symbol center bound series F) :
    (series.valuation.toNat : ℕ∞) = min F.order bound := by
  have stop := held.order
  have start := held.start
  have below := held.below
  have count := held.count
  have late : ∀ k < series.valuation.toNat, coeff k F = 0 := by
    intro k before
    rw [agree_iff.mp held.agree k (by omega), stored, coeff_X_pow_mul', if_neg (Nat.not_le.mpr before)]
  cases list : series.coefficients with
  | nil =>
    rw [list, List.length_nil] at count
    have all : series.valuation.toNat = bound := by omega
    rw [all] at late ⊢
    exact (min_eq_right (PowerSeries.le_order _ _ fun i inside => late i (by exact_mod_cast inside))).symm
  | cons a rest =>
    have nonzero : a ≠ 0 := by
      intro zero
      apply held.leading
      rw [list, zero]
      rfl
    rw [list, List.length_cons] at count
    have inside : series.valuation.toNat < bound := by omega
    have here : coeff series.valuation.toNat F = a := by
      rw [agree_iff.mp held.agree _ inside, stored, coeff_X_pow_mul', if_pos (Nat.le_refl _), Nat.sub_self, coeff_listed, list]
      rfl
    have found : F.order = series.valuation.toNat := by
      rw [PowerSeries.order_eq_nat]
      exact ⟨by rw [here]; exact nonzero, late⟩
    rw [found, min_eq_left (by exact_mod_cast inside.le)]

theorem holds_trim {valuation : Int} {coefficients : List ℚ} (start : 0 ≤ valuation) (below : valuation ≤ bound)
    (count : coefficients.length = ((bound : Int) - valuation).toNat)
    (agree : Agree bound F (X ^ valuation.toNat * listed coefficients)) :
    Holds symbol center bound (trim ⟨symbol, center, valuation, bound, coefficients⟩) F := by
  have split : coefficients.takeWhile (· = 0) ++ coefficients.dropWhile (· = 0) = coefficients :=
    List.takeWhile_append_dropWhile
  have zeros : coefficients.takeWhile (· = 0) = List.replicate (coefficients.takeWhile (· = 0)).length 0 := by
    apply List.eq_replicate_of_mem
    intro a member
    simpa using List.mem_takeWhile_imp member
  generalize high_eq : coefficients.dropWhile (· = 0) = high at split
  generalize leading_eq : (coefficients.takeWhile (· = 0)).length = leading at zeros
  rw [zeros] at split
  have length : leading + high.length = coefficients.length := by
    rw [← split, List.length_append, List.length_replicate]
  have value : X ^ valuation.toNat * listed coefficients = X ^ (valuation.toNat + leading) * listed high := by
    rw [← split, listed_append, listed_replicate_zero, zero_add, List.length_replicate, pow_add, mul_assoc]
  rw [value] at agree
  unfold trim
  simp only [leading_eq]
  by_cases all : leading = coefficients.length
  · rw [if_pos all]
    have late : valuation.toNat + leading = bound := by omega
    rw [late] at agree
    have zero : Agree bound F (stored ⟨symbol, center, bound, bound, []⟩) := by
      simpa only [stored, listed_nil, mul_zero] using agree.trans (agree_zero (dvd_mul_right _ _))
    exact ⟨rfl, rfl, rfl, Int.natCast_nonneg bound, le_refl _, by simp, by simp, zero⟩
  · rw [if_neg all]
    have rest : coefficients.drop leading = high := by
      rw [← split, List.drop_left' (List.length_replicate ..)]
    have more : leading < coefficients.length := by omega
    have top : high.head? ≠ some 0 := by
      intro zero
      have not := List.head?_dropWhile_not (fun a : ℚ => decide (a = 0)) coefficients
      rw [high_eq, zero] at not
      exact absurd not (by decide)
    have start' : (valuation + leading).toNat = valuation.toNat + leading := by omega
    rw [rest]
    exact ⟨rfl, rfl, rfl, by dsimp only; omega, by dsimp only; omega, by dsimp only; omega, top, by
      rw [stored, start']
      exact agree⟩

theorem wp_seriesZero {good : Series → State → Prop} {bad : Stop → State → Prop} (limit : (bound : Int) ≤ seriesMaxExponent)
    (fine : ∀ zero, Holds symbol center bound zero 0 → good zero s) :
    wp (seriesZero symbol center bound) good bad s := by
  unfold seriesZero seriesSet
  rw [if_neg]
  · apply fine
    apply holds_trim (Int.natCast_nonneg bound) (le_refl _) (by simp)
    rw [listed_nil, mul_zero]
    exact Agree.refl _ _
  · rw [exponentBounds_of (Int.natCast_nonneg bound) (le_refl _) limit]
    simp

theorem wp_seriesConstant {good : Series → State → Prop} {bad : Stop → State → Prop} {c : ℚ} (positive : 0 < bound)
    (limit : (bound : Int) ≤ seriesMaxExponent)
    (fine : ∀ constant, Holds symbol center bound constant (C c) → good constant s) :
    wp (seriesConstant symbol center bound c) good bad s := by
  have few : ¬seriesMaxTerms < ((bound : Int)).toNat := by
    unfold seriesMaxTerms
    unfold seriesMaxExponent at limit
    omega
  have length : (c :: List.replicate ((bound : Int).toNat - 1) 0).length = (bound : Int).toNat := by
    rw [List.length_cons, List.length_replicate]
    omega
  unfold seriesConstant seriesSet
  rw [if_neg (by omega), if_neg few, if_neg]
  · apply fine
    apply holds_trim (le_refl _) (Int.natCast_nonneg bound) (by rw [length, sub_zero])
    rw [listed_cons, listed_replicate_zero, mul_zero, add_zero, Int.toNat_zero, pow_zero, one_mul]
    exact Agree.refl _ _
  · rw [exponentBounds_of (le_refl _) (Int.natCast_nonneg bound) limit, length, sub_zero]
    simp

section
variable (lawful : Lawful arithmetic fails)
include lawful

theorem wp_seriesAddNode (first : Holds symbol center bound left F) (second : Holds symbol center bound right G)
    (limit : (bound : Int) ≤ seriesMaxExponent) :
    wp (seriesAddNode arithmetic left right) (fun sum _ => Holds symbol center bound sum (F + G))
      (fun stop _ => stop.Asked fails) s := by
  unfold seriesAddNode
  rw [wp_bind]
  apply wp_sameRing first second limit limit
  have orders : min left.order right.order = bound := by rw [first.order, second.order, min_self]
  have start := le_min (le_min first.start second.start) (Int.natCast_nonneg bound)
  have below := min_le_right (min left.valuation right.valuation) (bound : Int)
  rw [orders]
  dsimp only
  generalize valuation_eq : min (min left.valuation right.valuation) (bound : Int) = valuation at start below ⊢
  rw [exponentBounds_of start below limit, if_neg (by decide)]
  apply wp_then (wp_addFrom lawful left right _ valuation s)
  intro sums t held
  rw [first.symbol, first.center]
  apply holds_trim start below held.1
  rw [agree_iff]
  intro k inside
  rw [coeff_X_pow_mul', coeff_listed, map_add, ← first.coefficient limit inside, ← second.coefficient limit inside]
  by_cases reached : valuation.toNat ≤ k
  · rw [if_pos reached, held.2 (k - valuation.toNat) (by omega)]
    have place : valuation + ((k - valuation.toNat : Nat) : Int) = k := by omega
    rw [place]
  · have before : (k : Int) < min left.valuation right.valuation := by omega
    rw [if_neg reached]
    unfold seriesCoefficient
    rw [if_pos (.inr (.inl (by omega))), if_pos (.inr (.inl (by omega))), add_zero]

/-- A product up to an order; it is refused exactly if it starts beyond the order. -/
theorem wp_multiplyToOrder {bound' : Nat} (first : Holds symbol center bound left F) (second : Holds symbol center bound' right G)
    (limit : (bound : Int) ≤ seriesMaxExponent) (limit' : (bound' : Int) ≤ seriesMaxExponent) (less : bound ≤ bound')
    (some : seriesIsZero right = false) :
    wp (multiplyToOrder arithmetic left right bound)
      (fun product _ => Holds symbol center bound product (F * G) ∧
        ¬(left.valuation < bound ∧ bound < left.valuation + right.valuation))
      (fun stop _ => stop.Asked fails ∨
        (stop = .refused .termLimit ∧ left.valuation < bound ∧ bound < left.valuation + right.valuation)) s := by
  have start := first.start
  have below := first.below
  have stop := first.order
  have count := first.count
  unfold multiplyToOrder
  rw [wp_bind]
  apply wp_sameRing first second limit limit'
  apply wp_ite
  · intro zero
    have done : left.valuation = bound := by
      rw [some] at zero
      simp only [Bool.false_eq_true, or_false, seriesIsZero, decide_eq_true_eq] at zero
      omega
    have nothing : X ^ bound ∣ F := by
      apply (first.agree.mono (le_refl _)).dvd (le_refl _)
      rw [stored, done, Int.toNat_natCast]
      exact dvd_mul_right _ _
    rw [first.symbol, first.center]
    apply wp_seriesZero limit
    intro zero held
    refine ⟨⟨held.symbol, held.center, held.order, held.start, held.below, held.count, held.leading, ?_⟩, by omega⟩
    exact (agree_zero (nothing.mul_right G)).trans held.agree
  · intro nonzero
    rw [not_or] at nonzero
    have open_ : left.valuation < bound := by
      have nonempty := nonzero.1
      simp only [seriesIsZero, decide_eq_true_eq] at nonempty
      omega
    dsimp only
    apply wp_ite
    · intro refused
      have start' := second.start
      have beyond : (bound : Int) < left.valuation + right.valuation := by
        by_contra inside
        apply inside
        rcases refused with beyond | bounds
        · exact beyond
        · rw [exponentBounds_of (by omega) (by omega) limit] at bounds
          cases bounds
      exact .inr ⟨rfl, open_, beyond⟩
    · intro fine
      rw [not_or] at fine
      have start' := second.start
      rw [wp_bind]
      apply wp_mono (wp_multiplyRows lawful right.coefficients 0 left.coefficients _ s) _ (fun _ _ held => .inl held)
      intro product t held
      rw [List.length_replicate] at held
      refine ⟨?_, by omega⟩
      rw [first.symbol, first.center]
      apply holds_trim (by omega) (by omega) held.1
      have value := held.2
      rw [listed_replicate_zero, zero_add, pow_zero, one_mul] at value
      have both : Agree bound (F * G) (stored left * stored right) := first.agree.mul (second.agree.mono less)
      apply both.trans
      have split : stored left * stored right =
          X ^ (left.valuation + right.valuation).toNat * (listed left.coefficients * listed right.coefficients) := by
        have sum : (left.valuation + right.valuation).toNat = left.valuation.toNat + right.valuation.toNat := by omega
        rw [stored, stored, sum, pow_add]
        ring
      have width : (left.valuation + right.valuation).toNat +
          ((bound : Int) - (left.valuation + right.valuation)).toNat = bound := by omega
      have shifted := mul_dvd_mul_left (X ^ (left.valuation + right.valuation).toNat : ℚ⟦X⟧) value
      rw [← pow_add, width] at shifted
      rw [split]
      apply Agree.symm
      rw [Agree, ← mul_sub]
      exact shifted

theorem wp_scaleToOrder {c : ℚ} (held : Holds symbol center bound series F) :
    wp (scaleToOrder arithmetic series c bound) (fun scaled _ => Holds symbol center bound scaled (C c * F))
      (fun stop _ => stop.Asked fails) s := by
  have start := held.start
  have below := held.below
  have stop := held.order
  have count := held.count
  unfold scaleToOrder
  rw [if_neg (by omega)]
  apply wp_then (wp_scaleAll lawful c _ s)
  rintro _ t rfl
  rw [wp_pure, List.take_of_length_le (by omega), held.symbol, held.center]
  apply holds_trim start (by omega) (by rw [List.length_map]; omega)
  rw [listed_map_mul]
  have scaled := (Agree.refl bound (C c)).mul held.agree
  rwa [stored, mul_left_comm] at scaled

end

/-- Some power of the inner series below the outer order starts beyond the order, and the one before it does not. -/
def JumpsPast (v order n : Int) : Prop := ∃ e : Nat, (e : Int) + 1 < n ∧ e * v < order ∧ order < (e + 1) * v

section
variable (lawful : Lawful arithmetic fails)
include lawful

theorem wp_addTerm {c : ℚ} {result power : Series} {order : Int} (order_eq : order = bound)
    (first : Holds symbol center bound result F) (second : Holds symbol center bound power G)
    (limit : (bound : Int) ≤ seriesMaxExponent) :
    wp (addTerm arithmetic result power c order) (fun sum _ => Holds symbol center bound sum (F + C c * G))
      (fun stop _ => stop.Asked fails) s := by
  apply wp_ite
  · rintro rfl
    rw [map_zero, zero_mul, add_zero]
    exact first
  · intro _
    rw [order_eq]
    apply wp_then (wp_scaleToOrder lawful second)
    intro term t held
    exact wp_seriesAddNode lawful first held limit

/-- The rounds that are left add the remaining summands, unless a power jumps past the order. -/
theorem wp_composeFrom {outer inner result power : Series} {n bound' : Nat} {v : Int} (f : Nat → ℚ)
    (limit : (bound : Int) ≤ seriesMaxExponent) (limit' : (bound' : Int) ≤ seriesMaxExponent) (less : bound ≤ bound')
    (outer_order : outer.order = n) (outer_coefficients : ∀ e < n, seriesCoefficient outer e = f e)
    (innerHolds : Holds symbol center bound' inner G) (some : seriesIsZero inner = false) (v_eq : inner.valuation = v)
    (powers : ∀ (e : Nat) series, Holds symbol center bound series (G ^ e) → series.valuation = min (e * v) bound)
    (rounds e : Nat) (split : e + rounds = n) (remain : 0 < rounds) (s : State)
    (resultHolds : Holds symbol center bound result (∑ i ∈ Finset.range e, C (f i) * G ^ i))
    (powerHolds : Holds symbol center bound power (G ^ e)) :
    wp (composeFrom arithmetic outer inner bound rounds e result power)
      (fun sum _ => Holds symbol center bound sum (∑ i ∈ Finset.range n, C (f i) * G ^ i) ∧
        ∀ i : Nat, e ≤ i → (i : Int) + 1 < n → ¬(i * v < bound ∧ bound < (i + 1) * v))
      (fun stop _ => stop.Asked fails ∨ (stop = .refused .termLimit ∧ JumpsPast v bound n)) s := by
  induction rounds generalizing e result power s with
  | zero => exact absurd remain (Nat.lt_irrefl 0)
  | succ rounds ih =>
    unfold composeFrom
    rw [wp_bind, outer_coefficients e (by omega)]
    apply wp_mono (wp_addTerm lawful rfl resultHolds powerHolds limit) _ (fun _ _ held => .inl held)
    intro sum t sumHolds
    rw [← Finset.sum_range_succ (fun i => C (f i) * G ^ i)] at sumHolds
    apply wp_ite
    · intro more
      rw [wp_bind]
      have start := powers e power powerHolds
      apply wp_mono (wp_multiplyToOrder lawful powerHolds innerHolds limit limit' less some)
      · intro next u held
        rw [← pow_succ] at held
        have place : (e : Int) + 1 = ((e + 1 : Nat) : Int) := by push_cast; ring
        rw [place]
        apply wp_good (ih (e + 1) (by omega) (by omega) u sumHolds held.1)
        intro total _ done
        refine ⟨done.1, fun i from_ below => ?_⟩
        obtain rfl | later := Nat.eq_or_lt_of_le from_
        · intro jump
          apply held.2
          rw [start, v_eq, min_eq_left jump.1.le]
          exact ⟨jump.1, by linarith⟩
        · exact done.2 i later below
      · rintro stop u (failed | ⟨same, open_, beyond⟩)
        · exact .inl failed
        · refine .inr ⟨same, e, by omega, ?_⟩
          rw [start] at open_ beyond
          have early : e * v < bound := by
            by_contra late
            rw [min_eq_right (not_lt.mp late)] at open_
            exact lt_irrefl _ open_
          rw [min_eq_left early.le, v_eq] at beyond
          exact ⟨early, by linarith⟩
    · intro last
      have all : e + 1 = n := by omega
      rw [all] at sumHolds
      exact ⟨sumHolds, fun i from_ below => by omega⟩

end

def composedOrder (outer inner : Series) : Int := min (outer.order * inner.valuation) inner.order

/-- A power series that a series without negative powers is the beginning of. -/
def Begins (series : Series) (F : ℚ⟦X⟧) : Prop :=
  0 ≤ series.valuation ∧ ∀ k : Nat, (k : Int) < series.order → seriesCoefficient series k = coeff k F

structure IsComposition (outer inner result : Series) : Prop where
  valid : seriesValidate result = .ok
  symbol : result.symbol = inner.symbol
  center : result.center = inner.center
  order : result.order = composedOrder outer inner
  value : ∀ F G : ℚ⟦X⟧, Begins outer F → Begins inner G → Begins result (F.subst G)

/-- What `phy_series_compose_node` asks of its arguments, and that the result has an order in range. -/
structure Composable (outer inner : Series) : Prop where
  outerValid : seriesValidate outer = .ok
  innerValid : seriesValidate inner = .ok
  center : outer.center = 0
  outerStart : 0 ≤ outer.valuation
  innerNonzero : seriesIsZero inner = false
  innerStart : 0 < inner.valuation
  orderPositive : 1 ≤ composedOrder outer inner
  orderLimit : composedOrder outer inner ≤ seriesMaxExponent

variable {outer inner : Series}

theorem validate_ok (valid : seriesValidate series = .ok) :
    exponentBounds series.valuation series.order = true ∧
      series.coefficients.length = (series.order - series.valuation).toNat ∧ series.coefficients.head? ≠ some 0 := by
  unfold seriesValidate at valid
  split_ifs at valid with shape leading
  rw [not_or, not_not, Bool.not_eq_false] at shape
  exact ⟨shape.1, shape.2, leading⟩

theorem exponentBounds_true {valuation order : Int} (bounds : exponentBounds valuation order = true) :
    valuation ≤ order ∧ order ≤ seriesMaxExponent := by
  unfold exponentBounds at bounds
  rw [decide_eq_true_eq] at bounds
  exact ⟨bounds.2.2.1, bounds.2.1⟩

theorem holds_of_valid (valid : seriesValidate series = .ok) (start : 0 ≤ series.valuation) (order_eq : series.order = bound) :
    Holds series.symbol series.center bound series (stored series) := by
  obtain ⟨bounds, count, leading⟩ := validate_ok valid
  exact ⟨rfl, rfl, order_eq, start, (exponentBounds_true bounds).1, count, leading, Agree.refl _ _⟩

theorem Begins.agree (begins : Begins series F) (held : Holds symbol center bound series G)
    (limit : (bound : Int) ≤ seriesMaxExponent) : Agree bound G F := by
  rw [agree_iff]
  intro k inside
  rw [← held.coefficient limit inside]
  exact begins.2 k (by rw [held.order]; exact_mod_cast inside)

theorem isComposition_of_holds {result : Series} {n m : Nat} (composable : Composable outer inner)
    (outer_order : outer.order = n) (inner_order : inner.order = m) (order_eq : composedOrder outer inner = bound)
    (held : Holds inner.symbol inner.center bound result
      (∑ e ∈ Finset.range n, C (seriesCoefficient outer e) * stored inner ^ e)) : IsComposition outer inner result := by
  have limit : (bound : Int) ≤ seriesMaxExponent := order_eq ▸ composable.orderLimit
  obtain ⟨bounds, -, -⟩ := validate_ok composable.innerValid
  have limit' : (m : Int) ≤ seriesMaxExponent := inner_order ▸ (exponentBounds_true bounds).2
  have positive := composable.innerStart
  refine ⟨held.valid limit, held.symbol, held.center, held.order.trans order_eq.symm, ?_⟩
  intro F G first second
  refine ⟨held.start, fun k inside => ?_⟩
  rw [held.order] at inside
  have within : bound ≤ m ∧ (bound : Int) ≤ n * inner.valuation := by
    unfold composedOrder at order_eq
    rw [outer_order, inner_order] at order_eq
    exact ⟨by exact_mod_cast order_eq ▸ min_le_right _ _, order_eq ▸ min_le_left _ _⟩
  have innerHolds := holds_of_valid composable.innerValid positive.le inner_order
  have agree : Agree m (stored inner) G := second.agree innerHolds limit'
  have divides : X ^ inner.valuation.toNat ∣ G := by
    apply agree.symm.dvd _ (dvd_mul_right _ _)
    have below := innerHolds.below
    omega
  have known : Agree bound (∑ e ∈ Finset.range n, C (seriesCoefficient outer e) * stored inner ^ e)
      (∑ e ∈ Finset.range n, C (coeff e F) * G ^ e) := by
    apply Agree.sum
    intro e inside
    rw [first.2 e (by rw [outer_order]; exact_mod_cast Finset.mem_range.mp inside)]
    exact (Agree.refl _ _).mul ((agree.mono within.1).pow e)
  have whole : Agree (n * inner.valuation.toNat) (F.subst G) (∑ e ∈ Finset.range n, C (coeff e F) * G ^ e) :=
    agree_subst divides (by omega)
  have reach : bound ≤ n * inner.valuation.toNat := by
    have cast : ((n * inner.valuation.toNat : Nat) : Int) = n * inner.valuation := by
      push_cast
      rw [Int.toNat_of_nonneg positive.le]
    omega
  rw [held.coefficient limit (by exact_mod_cast inside)]
  exact agree_iff.mp (known.trans (whole.mono reach).symm) k (by exact_mod_cast inside)

theorem valuation_power {power : Series} {m : Nat} (innerHolds : Holds symbol center m inner (stored inner))
    (some : seriesIsZero inner = false) (e : Nat) (held : Holds symbol center bound power (stored inner ^ e)) :
    power.valuation = min (e * inner.valuation) bound := by
  have start := held.start
  have start' := innerHolds.start
  have order := innerHolds.valuation
  have open_ : inner.valuation < m := by
    have below := innerHolds.below
    have count := innerHolds.count
    have stop := innerHolds.order
    simp only [seriesIsZero, decide_eq_false_iff_not] at some
    omega
  have here : (stored inner).order = inner.valuation.toNat := by
    rcases min_choice (stored inner).order (m : ℕ∞) with low | high
    · rw [← low, order]
    · rw [high] at order
      have same : inner.valuation.toNat = m := by exact_mod_cast order
      omega
  have power_order := held.valuation
  rw [PowerSeries.order_pow, here, nsmul_eq_mul] at power_order
  have natural : power.valuation.toNat = min (e * inner.valuation.toNat) bound := by
    rcases le_total (e * inner.valuation.toNat) bound with low | high
    · rw [min_eq_left (by exact_mod_cast low)] at power_order
      rw [min_eq_left low]
      exact_mod_cast power_order
    · rw [min_eq_right (by exact_mod_cast high)] at power_order
      rw [min_eq_right high]
      exact_mod_cast power_order
  have cast : ((e * inner.valuation.toNat : Nat) : Int) = e * inner.valuation := by
    push_cast
    rw [Int.toNat_of_nonneg start']
  omega

theorem wp_seriesComposeNode (lawful : Lawful arithmetic fails) (composable : Composable outer inner) (s : State) :
    wp (seriesComposeNode arithmetic outer inner)
      (fun result _ => IsComposition outer inner result ∧
        ¬JumpsPast inner.valuation (composedOrder outer inner) outer.order)
      (fun stop _ => stop.Asked fails ∨
        (stop = .refused .termLimit ∧ JumpsPast inner.valuation (composedOrder outer inner) outer.order)) s := by
  have outer_start := composable.outerStart
  have positive := composable.innerStart
  have low := composable.orderPositive
  have limit := composable.orderLimit
  have bounds := exponentBounds_true (validate_ok composable.outerValid).1
  have bounds' := exponentBounds_true (validate_ok composable.innerValid).1
  obtain ⟨n, outer_order⟩ := Int.eq_ofNat_of_zero_le (outer_start.trans bounds.1)
  obtain ⟨m, inner_order⟩ := Int.eq_ofNat_of_zero_le (positive.le.trans bounds'.1)
  obtain ⟨bound, order_eq⟩ := Int.eq_ofNat_of_zero_le (zero_le_one.trans low)
  have unfolded := order_eq
  unfold composedOrder at unfolded
  have rounds : 0 < n := by
    by_contra none
    have zero : n = 0 := by omega
    rw [outer_order, zero, Int.natCast_zero, zero_mul] at unfolded
    omega
  have innerHolds := holds_of_valid composable.innerValid positive.le inner_order
  have within : bound ≤ m := by
    have right := min_le_right (outer.order * inner.valuation) inner.order
    omega
  unfold seriesComposeNode check
  rw [composable.outerValid, composable.innerValid]
  simp only [composable.center, composable.innerNonzero, ne_eq, not_true_eq_false, false_or, Bool.false_eq_true,
    if_true, pure_bind]
  rw [if_neg (by omega), unfolded, if_neg (by omega), wp_bind]
  rw [order_eq] at limit
  apply wp_seriesZero limit
  intro zero zeroHolds
  rw [wp_bind]
  apply wp_seriesConstant (by omega) limit
  intro one oneHolds
  rw [outer_order, Int.toNat_natCast]
  rw [map_one] at oneHolds
  have run := wp_composeFrom lawful (fun e => seriesCoefficient outer e) limit (inner_order ▸ bounds'.2) within outer_order
    (fun e _ => rfl) innerHolds composable.innerNonzero rfl
    (fun e power held => valuation_power innerHolds composable.innerNonzero e held) n 0 (Nat.zero_add n) rounds s
    (by rw [Finset.range_zero, Finset.sum_empty]; exact zeroHolds) (by rw [pow_zero]; exact oneHolds)
  rw [order_eq]
  apply wp_good run
  intro result t held
  refine ⟨isComposition_of_holds composable outer_order inner_order order_eq held.1, ?_⟩
  rintro ⟨e, below, jump⟩
  exact held.2 e (Nat.zero_le e) below jump

/-- A run ends with the composition unless an exact-arithmetic call or the step budget fails. -/
def Completes (outer inner : Series) : Prop :=
  ∀ (State : Type) (arithmetic : Arithmetic State), Lawful arithmetic True → ∀ s,
    wp (seriesComposeNode arithmetic outer inner) (fun result _ => IsComposition outer inner result)
      (fun stop _ => ∃ status, stop = .failed status) s

/-- Calls that never fail. -/
def exactArithmetic : Arithmetic Unit where
  exactAddRefs p q := pure (p + q)
  exactMulRefs p q := pure (p * q)
  step := pure ()

theorem exactArithmetic_lawful (fails : Prop) : Lawful exactArithmetic fails :=
  ⟨fun _ _ _ => rfl, fun _ _ _ => rfl, fun _ => trivial⟩

theorem jumpsPast_iff {v order n : Int} (positive : 0 < v) (low : 1 ≤ order) :
    JumpsPast v order n ↔ ¬(v ∣ order ∨ (n - 1) * v < order) := by
  constructor
  · rintro ⟨e, below, early, late⟩
    rw [not_or]
    constructor
    · rintro ⟨q, rfl⟩
      rw [mul_comm v q] at early late
      have first := lt_of_mul_lt_mul_right early positive.le
      have second := lt_of_mul_lt_mul_right late positive.le
      omega
    · have more : (e : Int) + 1 ≤ n - 1 := by omega
      have reach := mul_le_mul_of_nonneg_right more positive.le
      exact not_lt.mpr (late.le.trans reach)
  · intro none
    rw [not_or, not_lt] at none
    have rest := Int.emod_nonneg order positive.ne'
    have small := Int.emod_lt_of_pos order positive
    have whole := Int.mul_ediv_add_emod order v
    have nonzero : order % v ≠ 0 := fun zero => none.1 (Int.dvd_of_emod_eq_zero zero)
    have quotient : 0 ≤ order / v := Int.ediv_nonneg (zero_le_one.trans low) positive.le
    have cast : ((order / v).toNat : Int) = order / v := Int.toNat_of_nonneg quotient
    have early : order / v * v < order := by
      rw [mul_comm]
      omega
    refine ⟨(order / v).toNat, ?_, ?_, ?_⟩
    · rw [cast]
      have reach := lt_of_mul_lt_mul_right (early.trans_le none.2) positive.le
      omega
    · rw [cast]
      exact early
    · rw [cast, add_mul, one_mul, mul_comm]
      omega

/-- Composition is complete exactly if the inner valuation divides the order of the result or no power
but the last one reaches it. -/
theorem completes_iff (composable : Composable outer inner) : Completes outer inner ↔
    inner.valuation ∣ composedOrder outer inner ∨ (outer.order - 1) * inner.valuation < composedOrder outer inner := by
  have jumps : JumpsPast inner.valuation (composedOrder outer inner) outer.order ↔ _ :=
    jumpsPast_iff composable.innerStart composable.orderPositive
  constructor
  · intro complete
    by_contra fails
    have run := wp_and (complete Unit exactArithmetic (exactArithmetic_lawful True) ())
      (wp_seriesComposeNode (exactArithmetic_lawful False) composable ())
    unfold wp at run
    cases ended : seriesComposeNode exactArithmetic outer inner () with
    | ok result t =>
      rw [ended] at run
      exact run.2.2 (jumps.mpr fails)
    | error stop t =>
      rw [ended] at run
      obtain ⟨⟨status, failed⟩, asked | refused⟩ := run
      · exact asked.1
      · rw [failed] at refused
        cases refused.1
  · intro condition State arithmetic lawful s
    apply wp_mono (wp_seriesComposeNode lawful composable s)
    · exact fun result t held => held.1
    · rintro stop t (asked | refused)
      · exact asked.2
      · exact absurd condition (jumps.mp refused.2)

/-- `1 + x + x² + O(x³)`. -/
def threeTerms : Series := ⟨[120], 0, 0, 3, [1, 1, 1]⟩

/-- `x² + O(x³)`. -/
def lateSquare : Series := ⟨[120], 0, 2, 3, [1]⟩

/-- `x + x² + O(x³)`. -/
def twoTerms : Series := ⟨[120], 0, 1, 3, [1, 1]⟩

theorem completes_twoTerms : Completes threeTerms twoTerms ↔ (1 : Int) ∣ 3 ∨ (3 - 1) * (1 : Int) < 3 := by
  have composable : Composable threeTerms twoTerms := by
    constructor <;> decide +kernel
  exact completes_iff composable

theorem not_completes_lateSquare : ¬∀ outer inner, Composable outer inner → Completes outer inner := by
  intro claim
  have composable : Composable threeTerms lateSquare := by
    constructor <;> decide +kernel
  have run : stopOf (seriesComposeNode exactArithmetic threeTerms lateSquare) () = some (.refused .termLimit) := by
    decide +kernel
  obtain ⟨_, status, failed⟩ := wp_stop (claim threeTerms lateSquare composable Unit exactArithmetic
    (exactArithmetic_lawful True) ()) run
  cases failed

end PhyNspire.Cas.Laurent

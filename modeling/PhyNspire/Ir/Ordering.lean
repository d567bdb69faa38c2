import PhyNspire.Ir.NodeTable

/-!
The comparison of two refs is the comparison of the expressions that they stand for, so
it is a strict total order that does not see how a context came to be.
-/

namespace PhyNspire.Ir.Ordering
open Platform Lib Lib.Trees Lib.Decimal Exact.Integer Exact.Arithmetic Exact.Decimals
open Expressions Context Symbols Nodes Order Layout

theorem or_shiftLeft {low high : Nat} (below : low < 2 ^ 32) : low ||| high <<< 32 = high * 2 ^ 32 + low := by
  rw [Nat.or_comm, Nat.shiftLeft_eq, Nat.mul_comm, ← Nat.two_pow_add_eq_or_of_lt below]

theorem mul_pieces (aLow aHigh bLow bHigh : Nat) : (aHigh * 2 ^ 32 + aLow) * (bHigh * 2 ^ 32 + bLow) =
    aHigh * bHigh * 2 ^ 64 + (aLow * bHigh + aHigh * bLow) * 2 ^ 32 + aLow * bLow := by ring

theorem mul_lt_word {x y : Nat} (first : x < 2 ^ 32) (second : y < 2 ^ 32) : x * y ≤ (2 ^ 32 - 1) * (2 ^ 32 - 1) :=
  Nat.mul_le_mul (by omega) (by omega)

theorem umul64_spec {a b : Nat} (first : a < 2 ^ 64) (second : b < 2 ^ 64) :
    (umul64 a b).1 * 2 ^ 64 + (umul64 a b).2 = a * b ∧ (umul64 a b).2 < 2 ^ 64 := by
  have aParts : a = a / 2 ^ 32 * 2 ^ 32 + a % 2 ^ 32 := by omega
  have bParts : b = b / 2 ^ 32 * 2 ^ 32 + b % 2 ^ 32 := by omega
  have product := mul_pieces (a % 2 ^ 32) (a / 2 ^ 32) (b % 2 ^ 32) (b / 2 ^ 32)
  rw [← aParts, ← bParts] at product
  have lowLow := mul_lt_word (x := a % 2 ^ 32) (y := b % 2 ^ 32) (by omega) (by omega)
  have lowHigh := mul_lt_word (x := a % 2 ^ 32) (y := b / 2 ^ 32) (by omega) (by omega)
  have highLow := mul_lt_word (x := a / 2 ^ 32) (y := b % 2 ^ 32) (by omega) (by omega)
  have highHigh := mul_lt_word (x := a / 2 ^ 32) (y := b / 2 ^ 32) (by omega) (by omega)
  unfold umul64
  simp only [Nat.shiftRight_eq_div_pow]
  generalize a % 2 ^ 32 * (b % 2 ^ 32) = p at *
  generalize a % 2 ^ 32 * (b / 2 ^ 32) = q at *
  generalize a / 2 ^ 32 * (b % 2 ^ 32) = r at *
  generalize a / 2 ^ 32 * (b / 2 ^ 32) = t at *
  rw [u64_of_lt (n := p) (by omega), u64_of_lt (n := q) (by omega), u64_of_lt (n := r) (by omega),
    u64_of_lt (n := t) (by omega), u64_of_lt (n := p / 2 ^ 32 + q % 2 ^ 32 + r % 2 ^ 32) (by omega),
    show u64 ((p / 2 ^ 32 + q % 2 ^ 32 + r % 2 ^ 32) <<< 32) = ((p / 2 ^ 32 + q % 2 ^ 32 + r % 2 ^ 32) % 2 ^ 32) <<< 32 by
      rw [Nat.shiftLeft_eq, Nat.shiftLeft_eq, u64]
      omega,
    or_shiftLeft (Nat.mod_lt p (by decide)), u64_of_lt (by omega)]
  omega

theorem compare_pieces {x y : Nat × Nat} (first : x.2 < 2 ^ 64) (second : y.2 < 2 ^ 64) :
    (compare x.1 y.1).then (compare x.2 y.2) = compare (x.1 * 2 ^ 64 + x.2) (y.1 * 2 ^ 64 + y.2) := by
  have whole := Nat.compare_eq_lt (a := x.1 * 2 ^ 64 + x.2) (b := y.1 * 2 ^ 64 + y.2)
  have whole' := Nat.compare_eq_gt (a := x.1 * 2 ^ 64 + x.2) (b := y.1 * 2 ^ 64 + y.2)
  rcases Nat.lt_trichotomy x.1 y.1 with less | same | more
  · rw [whole.mpr (by omega), Nat.compare_eq_lt.mpr less]
    rfl
  · rcases Nat.lt_trichotomy x.2 y.2 with less | same' | more
    · rw [whole.mpr (by omega), same, Nat.compare_eq_eq.mpr rfl, Nat.compare_eq_lt.mpr less]
      rfl
    · rw [same, same', Nat.compare_eq_eq.mpr rfl, Nat.compare_eq_eq.mpr rfl, Nat.compare_eq_eq.mpr rfl]
      rfl
    · rw [whole'.mpr (by omega), same, Nat.compare_eq_eq.mpr rfl, Nat.compare_eq_gt.mpr more]
      rfl
  · rw [whole'.mpr (by omega), Nat.compare_eq_gt.mpr more]
    rfl

theorem compare_umul64 {a b c d : Nat} (aWord : a < 2 ^ 64) (bWord : b < 2 ^ 64) (cWord : c < 2 ^ 64)
    (dWord : d < 2 ^ 64) :
    (compare (umul64 a b).1 (umul64 c d).1).then (compare (umul64 a b).2 (umul64 c d).2) = compare (a * b) (c * d) := by
  obtain ⟨left, leftLow⟩ := umul64_spec aWord bWord
  obtain ⟨right, rightLow⟩ := umul64_spec cWord dWord
  rw [compare_pieces leftLow rightLow, left, right]

theorem compare_rat (p q : ℚ) : compare p q = compare (p.num * q.den) (q.num * p.den) := by
  rcases lt_trichotomy p q with less | rfl | more
  · rw [compare_lt_iff_lt.mpr less, compare_lt_iff_lt.mpr (Rat.lt_iff p q |>.mp less)]
  · rw [compare_eq_iff_eq.mpr rfl, compare_eq_iff_eq.mpr rfl]
  · rw [compare_gt_iff_gt.mpr more, compare_gt_iff_gt.mpr (Rat.lt_iff q p |>.mp more)]

theorem compare_negated (x y : Int) : compare (-x) (-y) = compare y x := by
  rcases lt_trichotomy x y with less | rfl | more
  · rw [compare_gt_iff_gt.mpr less, compare_gt_iff_gt.mpr (by omega)]
  · rw [compare_eq_iff_eq.mpr rfl, compare_eq_iff_eq.mpr rfl]
  · rw [compare_lt_iff_lt.mpr more, compare_lt_iff_lt.mpr (by omega)]

theorem compare_natCast (x y : Nat) : compare (x : Int) (y : Int) = compare x y := by
  rcases Nat.lt_trichotomy x y with less | rfl | more
  · rw [compare_lt_iff_lt.mpr less, compare_lt_iff_lt.mpr (by omega)]
  · rw [compare_eq_iff_eq.mpr rfl, compare_eq_iff_eq.mpr rfl]
  · rw [compare_gt_iff_gt.mpr more, compare_gt_iff_gt.mpr (by omega)]

theorem toNat_toUInt64 {value : Int64} (positive : 0 < value.toInt) : value.toUInt64.toNat = value.toInt.natAbs := by
  have least : ¬value < 0 := fun negative => by
    have less := Int64.lt_iff_toInt_lt.mp negative
    change value.toInt < 0 at less
    omega
  rw [← (magnitudeI64_spec value).1, magnitudeI64, if_neg least]

theorem compare_of_sign_ne {x y : Int} (apart : x.sign ≠ y.sign) : compare x y = compare x.sign y.sign := by
  rcases lt_trichotomy x 0 with negative | rfl | positive <;> rcases lt_trichotomy y 0 with negative' | rfl | positive'
  · exact absurd ((Int.sign_eq_neg_one_of_neg negative).trans (Int.sign_eq_neg_one_of_neg negative').symm) apart
  · rw [compare_lt_iff_lt.mpr negative, Int.sign_eq_neg_one_of_neg negative]
    rfl
  · rw [compare_lt_iff_lt.mpr (negative.trans positive'), Int.sign_eq_neg_one_of_neg negative,
      Int.sign_eq_one_of_pos positive']
    rfl
  · rw [compare_gt_iff_gt.mpr negative', Int.sign_eq_neg_one_of_neg negative']
    rfl
  · exact absurd rfl apart
  · rw [compare_lt_iff_lt.mpr positive', Int.sign_eq_one_of_pos positive']
    rfl
  · rw [compare_gt_iff_gt.mpr (negative'.trans positive), Int.sign_eq_one_of_pos positive,
      Int.sign_eq_neg_one_of_neg negative']
    rfl
  · rw [compare_gt_iff_gt.mpr positive, Int.sign_eq_one_of_pos positive]
    rfl
  · exact absurd ((Int.sign_eq_one_of_pos positive).trans (Int.sign_eq_one_of_pos positive').symm) apart

theorem compare_natAbs {x y : Int} (same : x.sign = y.sign) :
    compare x y = if 0 < x.sign then compare x.natAbs y.natAbs else (compare x.natAbs y.natAbs).swap := by
  split
  · rename_i positive
    have first : 0 < x := Int.sign_pos_iff.mp positive
    have second : 0 < y := Int.sign_pos_iff.mp (same ▸ positive)
    rw [← compare_natCast, Int.natAbs_of_nonneg (by omega), Int.natAbs_of_nonneg (by omega)]
  · rename_i least
    have first : x ≤ 0 := Int.not_lt.mp (fun positive => least (Int.sign_pos_iff.mpr positive))
    have second : y ≤ 0 := Int.not_lt.mp (fun positive => least (same ▸ Int.sign_pos_iff.mpr positive))
    rw [Nat.compare_swap, ← compare_natCast, Int.ofNat_natAbs_of_nonpos first, Int.ofNat_natAbs_of_nonpos second,
      compare_negated]

theorem compareExact_cross {an ad bn bd : Int64} (first : 0 < ad.toInt) (second : 0 < bd.toInt) :
    compareExact an ad bn bd = compare (an.toInt * bd.toInt) (bn.toInt * ad.toInt) := by
  obtain ⟨aMagnitude, aWord⟩ := magnitudeI64_spec an
  obtain ⟨bMagnitude, bWord⟩ := magnitudeI64_spec bn
  have crossed := compare_umul64 aWord bd.toUInt64.toNat_lt bWord ad.toUInt64.toNat_lt
  rw [toNat_toUInt64 first, toNat_toUInt64 second, aMagnitude, bMagnitude] at crossed
  unfold compareExact
  simp only [toNat_toUInt64 first, toNat_toUInt64 second, aMagnitude, bMagnitude, crossed]
  have leftSign : (an.toInt * bd.toInt).sign = an.toInt.sign := by
    rw [Int.sign_mul, Int.sign_eq_one_of_pos second, Int.mul_one]
  have rightSign : (bn.toInt * ad.toInt).sign = bn.toInt.sign := by
    rw [Int.sign_mul, Int.sign_eq_one_of_pos first, Int.mul_one]
  by_cases apart : an.toInt.sign ≠ bn.toInt.sign
  · have signs := compare_of_sign_ne (show (an.toInt * bd.toInt).sign ≠ (bn.toInt * ad.toInt).sign by
      rwa [leftSign, rightSign])
    rw [if_pos apart, signs, leftSign, rightSign]
  · rw [if_neg apart, compare_natAbs (by rw [leftSign, rightSign, not_not.mp apart]), leftSign, Int.natAbs_mul,
      Int.natAbs_mul]
    split
    · rename_i zero
      have zero' : bn.toInt.sign = 0 := (not_not.mp apart).symm.trans zero
      rw [zero, Int.sign_eq_zero_iff_zero.mp zero, Int.sign_eq_zero_iff_zero.mp zero']
      simp
    · rfl

theorem compare_div {a b c d : Int} (first : 0 < b) (second : 0 < d) :
    compare ((a : ℚ) / b) ((c : ℚ) / d) = compare (a * d) (c * b) := by
  have b' : (0 : ℚ) < b := by exact_mod_cast first
  have d' : (0 : ℚ) < d := by exact_mod_cast second
  have less : (a : ℚ) / b < c / d ↔ a * d < c * b := by
    rw [div_lt_div_iff₀ b' d']
    exact_mod_cast Iff.rfl
  have more : (c : ℚ) / d < a / b ↔ c * b < a * d := by
    rw [div_lt_div_iff₀ d' b']
    exact_mod_cast Iff.rfl
  rcases lt_trichotomy (a * d) (c * b) with low | same | high
  · rw [compare_lt_iff_lt.mpr low, compare_lt_iff_lt.mpr (less.mpr low)]
  · rw [compare_eq_iff_eq.mpr same, compare_eq_iff_eq]
    exact le_antisymm (not_lt.mp fun high => absurd (more.mp high) (by omega))
      (not_lt.mp fun low => absurd (less.mp low) (by omega))
  · rw [compare_gt_iff_gt.mpr high, compare_gt_iff_gt.mpr (more.mpr high)]

theorem compareExact_spec {p q : ℚ} (first : Inline p) (second : Inline q) :
    compareExact (Int64.ofInt p.num) (Int64.ofInt p.den) (Int64.ofInt q.num) (Int64.ofInt q.den) = compare p q := by
  have pDen : (Int64.ofInt p.den).toInt = p.den := toInt_ofInt_of_fits first.2
  have qDen : (Int64.ofInt q.den).toInt = q.den := toInt_ofInt_of_fits second.2
  rw [compareExact_cross (by rw [pDen]; exact_mod_cast p.den_pos) (by rw [qDen]; exact_mod_cast q.den_pos), pDen, qDen,
    toInt_ofInt_of_fits first.1, toInt_ofInt_of_fits second.1, compare_rat]

theorem writeI64Decimal_eq (value : Int64) : writeI64Decimal value = integerText value.toInt := by
  obtain ⟨magnitude, word⟩ := magnitudeI64_spec value
  have digits : (wordDigits 20 (magnitudeI64 value)).reverse = naturalText value.toInt.natAbs := by
    rw [← magnitude]
    unfold naturalText
    by_cases zero : magnitudeI64 value = 0
    · rw [if_pos zero, zero]
      rfl
    · rw [if_neg zero, wordDigits_eq zero (Nat.lt_trans word (by decide))]
  unfold writeI64Decimal integerText
  rw [digits]
  have sign : value < 0 ↔ value.toInt < 0 := Int64.lt_iff_toInt_lt
  by_cases negative : value < 0
  · rw [if_pos negative, if_pos (sign.mp negative)]
    rfl
  · rw [if_neg negative, if_neg (fun less => negative (sign.mpr less))]
    rfl

variable {pools : Pools} {graph : Graph} {names : List Name} {p q : ℚ} {a b : Nat} {na nb : Node}

theorem exactFraction_of_reads (inline : Inline q) (reads : Reads pools names ⟨.exact q, []⟩ na) :
    exactFraction pools na = (Int64.ofInt q.num, Int64.ofInt q.den) := by
  have kind : na.kind = if q.den = 1 then .integer else .rational := reads.kind
  unfold exactFraction
  by_cases integral : q.den = 1
  · rw [if_pos (by rw [kind, if_pos integral]), reads.payload inline integral, integral]
    rfl
  · have stored : ratOf (.exact q) = some ⟨Int64.ofInt q.num, Int64.ofInt q.den⟩ := if_pos ⟨inline, integral⟩
    rw [if_neg (by rw [kind, if_neg integral]; decide), reads.rational _ stored]

/-- `phy_ir_exact_decimal_view`: the text of both parts, whichever way the number is held. -/
theorem exactDecimalView_of_reads (held : nodeAt pools a = some na) (reads : Reads pools names ⟨.exact q, []⟩ na) :
    exactDecimalView pools a = some (integerText q.num, integerText q.den) := by
  have kind : na.kind = if q.den = 1 then .integer else .rational := reads.kind
  have aux : na.aux = if Inline q then 0 else exactBig := reads.aux.trans (nodeAux_exact q)
  unfold exactDecimalView
  rw [held]
  dsimp only
  rw [if_neg (by rw [kind]; split <;> simp)]
  by_cases inline : Inline q
  · have missing : ¬(na.kind = .rational ∧ pools.rationals[na.payload.word]? = none) := by
      rintro ⟨rational, missing⟩
      have fraction : q.den ≠ 1 := by
        intro integral
        rw [kind, if_pos integral] at rational
        cases rational
      rw [reads.rational _ (if_pos ⟨inline, fraction⟩)] at missing
      cases missing
    rw [if_neg (by rw [aux, if_pos inline]; decide), if_neg missing, exactFraction_of_reads inline reads,
      writeI64Decimal_eq, writeI64Decimal_eq, toInt_ofInt_of_fits inline.1, toInt_ofInt_of_fits inline.2]
  · obtain ⟨record, found, _, denominators, text, first, second⟩ := reads.promoted _ (promotedOf_exact inline)
    rw [if_pos (by rw [aux, if_neg inline]), found]
    dsimp only
    rw [if_neg (by omega), text, denominators]
    by_cases integral : q.den = 1
    · simp only [List.length_nil, if_true, integral]
      rfl
    · simp only [if_neg integral, if_neg (integerText_length_pos _)]

theorem startsWithMinus_integerText (z : Int) : startsWithMinus (integerText z) = decide (z < 0) := by
  unfold startsWithMinus
  rw [decide_eq_decide]
  exact head_integerText z

theorem drop_sign (z : Int) : (integerText z).drop (if decide (z < 0) = true then 1 else 0) = naturalText z.natAbs := by
  unfold integerText
  by_cases negative : z < 0 <;> simp [negative]

theorem integerText_natCast (n : Nat) : integerText n = naturalText n := by
  unfold integerText
  rw [if_neg (by omega), Int.natAbs_natCast]

theorem compareBigExact_spec (heldA : nodeAt pools a = some na) (heldB : nodeAt pools b = some nb)
    (readsA : Reads pools names ⟨.exact p, []⟩ na) (readsB : Reads pools names ⟨.exact q, []⟩ nb)
    (first : ¬Inline p) (second : ¬Inline q) : compareBigExact pools a b = numberOrder p q := by
  unfold compareBigExact
  rw [exactDecimalView_of_reads heldA readsA, exactDecimalView_of_reads heldB readsB]
  simp only [startsWithMinus_integerText, drop_sign, integerText_natCast, compareText_naturalText]
  simp only [numberOrder, compareLex, compareOn, sizeClass, inlineValue, promotedNumerator, promotedDenominator,
    if_neg first, if_neg second]
  by_cases signP : p.num < 0 <;> by_cases signQ : q.num < 0
  · have sign : p.num.sign = -1 := Int.sign_eq_neg_one_of_neg signP
    have sign' : q.num.sign = -1 := Int.sign_eq_neg_one_of_neg signQ
    have numerators : compare p.num q.num = (compare p.num.natAbs q.num.natAbs).swap := by
      rw [compare_natAbs (sign.trans sign'.symm), if_neg (by rw [sign]; decide)]
    simp only [signP, signQ, decide_true, ne_eq, not_true_eq_false, if_false, if_true, numerators, compare_natCast]
    cases compare p.num.natAbs q.num.natAbs <;> rfl
  · simp only [signP, signQ, decide_true, decide_false]
    rfl
  · simp only [signP, signQ, decide_true, decide_false]
    rfl
  · have numerators : compare p.num q.num = compare p.num.natAbs q.num.natAbs := by
      rw [← compare_natCast, Int.natAbs_of_nonneg (by omega), Int.natAbs_of_nonneg (by omega)]
    simp only [signP, signQ, decide_false, ne_eq, not_true_eq_false, if_false, Bool.false_eq_true, numerators,
      compare_negated, compare_natCast, Nat.compare_swap]
    cases compare p.num.natAbs q.num.natAbs <;> rfl

theorem compareNumbers_spec (heldA : nodeAt pools a = some na) (heldB : nodeAt pools b = some nb)
    (readsA : Reads pools names ⟨.exact p, []⟩ na) (readsB : Reads pools names ⟨.exact q, []⟩ nb) :
    compareNumbers pools a b na nb = numberOrder p q := by
  have auxA : na.aux = if Inline p then 0 else exactBig := readsA.aux.trans (nodeAux_exact p)
  have auxB : nb.aux = if Inline q then 0 else exactBig := readsB.aux.trans (nodeAux_exact q)
  have bigA : decide (na.aux = exactBig) = decide (¬Inline p) := by
    rw [auxA]
    by_cases inline : Inline p <;> simp [inline, exactBig]
  have bigB : decide (nb.aux = exactBig) = decide (¬Inline q) := by
    rw [auxB]
    by_cases inline : Inline q <;> simp [inline, exactBig]
  unfold compareNumbers
  simp only [bigA, bigB, exactDecimalView_of_reads heldA readsA, exactDecimalView_of_reads heldB readsB,
    startsWithMinus_integerText]
  by_cases first : Inline p <;> by_cases second : Inline q
  · simp only [first, second, not_true_eq_false, decide_false, ne_eq, if_false, Bool.false_eq_true]
    rw [exactFraction_of_reads first readsA, exactFraction_of_reads second readsB, numberOrder_inline first second]
    exact compareExact_spec first second
  · simp only [numberOrder, compareLex, compareOn, sizeClass, first, second, not_true_eq_false, not_false_eq_true,
      decide_true, decide_false, ne_eq, if_true, if_false, Bool.false_eq_true]
    by_cases signP : p.num < 0 <;> by_cases signQ : q.num < 0 <;> simp only [signP, signQ, decide_true, decide_false] <;>
      rfl
  · simp only [numberOrder, compareLex, compareOn, sizeClass, first, second, not_true_eq_false, not_false_eq_true,
      decide_true, decide_false, ne_eq, if_true, if_false, Bool.false_eq_true]
    by_cases signP : p.num < 0 <;> by_cases signQ : q.num < 0 <;> simp only [signP, signQ, decide_true, decide_false] <;>
      rfl
  · simp only [first, second, not_false_eq_true, decide_true, ne_eq, not_true_eq_false, if_false, if_true]
    exact compareBigExact_spec heldA heldB readsA readsB first second

def Titled (names : List Name) (symbol : Nat) : Option Name → Prop
  | none => symbol = 0
  | some name => Named names symbol name

variable {children : List Nat}

theorem Heads.titled {label : Label} (heads : Heads names label children na) :
    Titled names na.head label.head := by
  have head := heads.head
  cases name : label.head <;> simp only [name] at head <;> exact head

theorem titled_space {name : Name} {variance : Variance} {space : Option Name}
    (heads : Heads names (.index name variance space) children na) : Titled names na.payload.word space := by
  have payload := heads.payload
  cases space with
  | none => exact congrArg Payload.word (show na.payload = .indexSpace 0 from payload)
  | some space =>
    obtain ⟨symbol, payload, named⟩ := payload
    rw [payload]
    exact named

/-- `compare_names`: the bytes of the names, and no name before every name. -/
theorem compareNames_spec (laid : LaidSymbols pools names) {first second : Option Name} (titled : Titled names a first)
    (titled' : Titled names b second) : compareNames pools a b = compare first second := by
  unfold compareNames
  by_cases same : a = b
  · subst same
    rw [if_pos rfl]
    have alike : first = second := by
      cases first <;> cases second <;> simp only [Titled] at titled titled'
      · rfl
      · exact absurd titled titled'.1
      · exact absurd titled' titled.1
      · rw [titled.unique titled']
    rw [alike]
    exact Std.ReflCmp.compare_self.symm
  rw [if_neg same]
  cases first with
  | none =>
    cases second with
    | none => exact absurd (titled.trans titled'.symm) same
    | some name' =>
      obtain ⟨record', held', _⟩ := laid.symbolAt_of_named titled'
      have empty : symbolAt pools a = none := by rw [symbolAt, if_pos (show a = 0 from titled)]
      rw [empty, held']
      rfl
  | some name =>
    obtain ⟨record, held, spelled, length, _⟩ := laid.symbolAt_of_named titled
    cases second with
    | none =>
      have empty : symbolAt pools b = none := by rw [symbolAt, if_pos (show b = 0 from titled')]
      rw [held, empty]
      rfl
    | some name' =>
      obtain ⟨record', held', spelled', length', _⟩ := laid.symbolAt_of_named titled'
      rw [held, held']
      have shorter {whole : List UInt8} {offset length : Nat} (k : Nat) (all : slice pools.strings offset length = whole)
          (below : k ≤ length) : slice pools.strings offset k = whole.take k := by
        rw [← all, slice, slice, List.take_take, Nat.min_eq_left below]
      simp only [nameOf, length, length'] at spelled spelled' ⊢
      rw [shorter _ spelled (Nat.min_le_left _ _), shorter _ spelled' (Nat.min_le_right _ _), compareLex_take]
      rfl

variable {first second : Label}

theorem labelOrder_of_rank (same : first.kind.rank = second.kind.rank) : labelOrder first second =
    (numberOrder first.exactValue second.exactValue).then
      ((compare (orderedRealKey first.realBits) (orderedRealKey second.realBits)).then
        ((compare first.head second.head).then ((compare first.aux second.aux).then (compare first.space second.space)))) := by
  simp only [labelOrder, compareLex, compareOn, same, Std.ReflCmp.compare_self, Ordering.eq_then]

theorem compareExprs_exact (p q : ℚ) : compareExprs (.node (.exact p) []) (.node (.exact q) []) = numberOrder p q := by
  have ranks : (Label.exact p).kind.rank = (Label.exact q).kind.rank := by
    rw [kind_exact, kind_exact]
    split <;> split <;> rfl
  have labels : labelOrder (.exact p) (.exact q) = numberOrder p q := by
    rw [labelOrder_of_rank ranks]
    simp [Label.exactValue, Label.realBits, Label.head, Label.aux, Label.space, Ordering.then_eq]
  unfold compareExprs compareTrees
  rw [Rose.height_node, Rose.height_node]
  simp only [List.map_nil, List.foldl_nil, Nat.zero_add, Nat.max_self]
  rw [compareUpTo, Rose.label_node, Rose.label_node, labels]
  exact Ordering.then_eq

theorem labelOrder_of_rank_ne (apart : first.kind.rank ≠ second.kind.rank) :
    labelOrder first second = compare first.kind.rank second.kind.rank := by
  simp only [labelOrder, compareLex, compareOn]
  rcases Nat.lt_or_gt_of_ne apart with less | more
  · rw [Nat.compare_eq_lt.mpr less]
    rfl
  · rw [Nat.compare_eq_gt.mpr more]
    rfl

theorem labelOrder_compound (compound : first.atom = false) (compound' : second.atom = false)
    (kind : first.kind = second.kind) : labelOrder first second = compare first.head second.head := by
  rw [labelOrder_of_rank (congrArg Kind.rank kind)]
  have parts (label : Label) (compound : label.atom = false) :
      label.exactValue = 0 ∧ label.realBits = 0 ∧ label.aux = 0 ∧ label.space = none := by
    cases label <;> first
      | exact ⟨rfl, rfl, rfl, rfl⟩
      | cases compound
  obtain ⟨value, bits, aux, space⟩ := parts first compound
  obtain ⟨value', bits', aux', space'⟩ := parts second compound'
  rw [value, value', bits, bits', aux, aux', space, space']
  simp only [Std.ReflCmp.compare_self, Ordering.eq_then, Ordering.then_eq]

theorem rank_of_compound (compound : first.atom = false)
    (same : first.kind.rank = second.kind.rank) : second.atom = false ∧ first.kind = second.kind := by
  cases first <;> first
    | (cases compound; done)
    | (cases second <;> first
        | exact ⟨rfl, rfl⟩
        | cases same
        | (simp only [kind_exact] at same
           split at same <;> cases same))

theorem compareLex_filterMap {α β : Type} {cmp : α → α → Ordering} {cmp' : β → β → Ordering} {read : α → Option β}
    {left right : List α} (first : ∀ x ∈ left, ∃ x', read x = some x') (second : ∀ y ∈ right, ∃ y', read y = some y')
    (agree : ∀ x ∈ left, ∀ y ∈ right, ∀ x' y', read x = some x' → read y = some y' → cmp x y = cmp' x' y') :
    List.compareLex cmp left right = List.compareLex cmp' (left.filterMap read) (right.filterMap read) := by
  induction left generalizing right with
  | nil =>
    cases right with
    | nil => rfl
    | cons y right =>
      obtain ⟨y', held⟩ := second y List.mem_cons_self
      rw [List.filterMap_cons_some held]
      rfl
  | cons x left ih =>
    obtain ⟨x', held⟩ := first x List.mem_cons_self
    rw [List.filterMap_cons_some held]
    cases right with
    | nil => rfl
    | cons y right =>
      obtain ⟨y', held'⟩ := second y List.mem_cons_self
      rw [List.filterMap_cons_some held', List.compareLex_cons_cons, List.compareLex_cons_cons,
        agree x List.mem_cons_self y List.mem_cons_self x' y' held held',
        ih (fun x inside => first x (List.mem_cons_of_mem _ inside)) (fun y inside => second y (List.mem_cons_of_mem _ inside))
          (fun x inside y inside' => agree x (List.mem_cons_of_mem _ inside) y (List.mem_cons_of_mem _ inside'))]

theorem length_filterMap_treeAt (live : ∀ child ∈ children, Live graph.entries child) :
    (children.filterMap (treeAt graph.entries)).length = children.length := by
  induction children with
  | nil => rfl
  | cons child rest ih =>
    obtain ⟨tree, held⟩ := (live child List.mem_cons_self).exists_tree
    rw [List.filterMap_cons_some held, List.length_cons, List.length_cons,
      ih (fun c inside => live c (List.mem_cons_of_mem _ inside))]

theorem then_of_ne_eq (first second : Ordering) : (if first ≠ .eq then first else second) = first.then second := by
  cases first <;> rfl

theorem then_of_ne (m n : Nat) (second : Ordering) :
    (if m ≠ n then compare m n else second) = (compare m n).then second := by
  split
  · rename_i apart
    rcases Nat.lt_or_gt_of_ne apart with less | more
    · rw [Nat.compare_eq_lt.mpr less]
      rfl
    · rw [Nat.compare_eq_gt.mpr more]
      rfl
  · rename_i same
    rw [not_not.mp same, Nat.compare_eq_eq.mpr rfl]
    rfl

variable {entryA entryB : Entry Label}

theorem compare_compounds (sound : Sound pools graph) (below : Nat → Nat → Ordering)
    (readsA : Reads pools graph.names entryA na) (readsB : Reads pools graph.names entryB nb)
    (kind : entryA.label.kind = entryB.label.kind) :
    (if na.kind ≠ nb.kind then compare na.kind.code nb.kind.code
      else if (if na.head ≠ nb.head then compareNames pools na.head nb.head else .eq) ≠ .eq then
        (if na.head ≠ nb.head then compareNames pools na.head nb.head else .eq)
      else if na.childCount ≠ nb.childCount then compare na.childCount nb.childCount
      else List.compareLex below (childrenOf pools na) (childrenOf pools nb)) =
      (compare entryA.label.head entryB.label.head).then ((compare entryA.children.length entryB.children.length).then
        (List.compareLex below entryA.children entryB.children)) := by
  have names : (if na.head ≠ nb.head then compareNames pools na.head nb.head else .eq) =
      compare entryA.label.head entryB.label.head := by
    rw [← compareNames_spec sound.symbols (Heads.titled readsA.toHeads) (Heads.titled readsB.toHeads)]
    split
    · rfl
    · rename_i same
      rw [compareNames, if_pos (not_not.mp same)]
  rw [if_neg (by rw [readsA.kind, readsB.kind]; exact not_not.mpr kind), names, readsA.children, readsB.children,
    readsA.childCount, readsB.childCount, then_of_ne_eq, then_of_ne]

theorem exact_of_rank {label : Label} (same : (Label.exact p).kind.rank = label.kind.rank) : ∃ q, label = .exact q := by
  have rank : (Label.exact p).kind.rank = 1 := by
    rw [kind_exact]
    split <;> rfl
  rw [rank] at same
  cases label with
  | exact q => exact ⟨q, rfl⟩
  | _ => cases same

theorem compare_atoms (sound : Sound pools graph) (depth : Nat) (apart : a ≠ b)
    (heldA : nodeAt pools a = some na) (heldB : nodeAt pools b = some nb)
    (storedA : entryAt graph.entries a = some entryA) (storedB : entryAt graph.entries b = some entryB)
    (readsA : Reads pools graph.names entryA na) (readsB : Reads pools graph.names entryB nb)
    (atom : entryA.label.atom = true) (ranks : entryA.label.kind.rank = entryB.label.kind.rank) :
    irCompareUpTo pools (depth + 1) a b = labelOrder entryA.label entryB.label := by
  rw [irCompareUpTo, if_neg apart, heldA, heldB]
  dsimp only
  rw [if_neg (by rw [readsA.kind, readsB.kind]; exact not_not.mpr ranks), labelOrder_of_rank ranks, readsA.kind]
  have titledA := Heads.titled readsA.toHeads
  have titledB := Heads.titled readsB.toHeads
  have leafA := sound.wellFormed.leaf storedA
  have leafB := sound.wellFormed.leaf storedB
  obtain ⟨labelA, childrenA⟩ := entryA
  obtain ⟨labelB, childrenB⟩ := entryB
  dsimp only at *
  cases labelA with
  | exact p =>
    obtain ⟨q, rfl⟩ := exact_of_rank ranks
    obtain rfl := leafA rfl
    obtain rfl := leafB rfl
    have numbers := compareNumbers_spec heldA heldB readsA readsB
    simp only [kind_exact, Label.exactValue, Label.realBits, Label.head, Label.aux, Label.space,
      Std.ReflCmp.compare_self, Ordering.then_eq]
    split_ifs <;> exact numbers
  | real bits =>
    cases labelB with
    | real bits' =>
      rw [show na.payload = .real bits from readsA.payload, show nb.payload = .real bits' from readsB.payload]
      simp only [Label.kind, Label.exactValue, Label.realBits, Label.head, Label.aux, Label.space, Payload.realBits,
        Std.ReflCmp.compare_self, Ordering.eq_then, Ordering.then_eq]
    | exact q =>
      rw [kind_exact] at ranks
      split at ranks <;> cases ranks
    | _ => cases ranks
  | symbol name =>
    cases labelB with
    | symbol name' =>
      rw [show (Label.symbol name).kind = .symbol from rfl]
      dsimp only
      rw [compareNames_spec sound.symbols titledA titledB]
      simp only [Label.exactValue, Label.realBits, Label.head, Label.aux, Label.space, Std.ReflCmp.compare_self,
        Ordering.eq_then, Ordering.then_eq]
    | exact q =>
      rw [kind_exact] at ranks
      split at ranks <;> cases ranks
    | _ => cases ranks
  | index name variance space =>
    cases labelB with
    | index name' variance' space' =>
      have auxA : na.aux = variance.code := readsA.aux.trans (nodeAux_of_not_exact (by simp))
      have auxB : nb.aux = variance'.code := readsB.aux.trans (nodeAux_of_not_exact (by simp))
      rw [show (Label.index name variance space).kind = .index from rfl]
      dsimp only
      rw [compareNames_spec sound.symbols titledA titledB,
        compareNames_spec sound.symbols (titled_space readsA.toHeads) (titled_space readsB.toHeads), auxA, auxB]
      simp only [Label.exactValue, Label.realBits, Label.head, Label.aux, Label.space, Std.ReflCmp.compare_self,
        Ordering.eq_then, then_of_ne_eq, then_of_ne]
    | exact q =>
      rw [kind_exact] at ranks
      split at ranks <;> cases ranks
    | _ => cases ranks
  | error code =>
    cases labelB with
    | error code' =>
      have auxA : na.aux = code := readsA.aux.trans (nodeAux_of_not_exact (by simp))
      have auxB : nb.aux = code' := readsB.aux.trans (nodeAux_of_not_exact (by simp))
      rw [show (Label.error code).kind = .error from rfl]
      dsimp only
      rw [auxA, auxB]
      simp only [Label.exactValue, Label.realBits, Label.head, Label.aux, Label.space, Std.ReflCmp.compare_self,
        Ordering.eq_then, Ordering.then_eq]
      have codes : code ≠ code' := by
        rintro rfl
        obtain rfl := leafA rfl
        obtain rfl := leafB rfl
        exact apart (entryAt_injective sound.wellFormed.distinct storedA storedB)
      rcases Nat.lt_or_gt_of_ne codes with less | more
      · rw [if_pos less, Nat.compare_eq_lt.mpr less]
      · rw [if_neg (Nat.lt_asymm more), Nat.compare_eq_gt.mpr more]
    | exact q =>
      rw [kind_exact] at ranks
      split at ranks <;> cases ranks
    | _ => cases ranks
  | _ => cases atom

theorem irCompareUpTo_succ (sound : Sound pools graph) (depth : Nat) (apart : a ≠ b)
    (heldA : nodeAt pools a = some na) (heldB : nodeAt pools b = some nb)
    (storedA : entryAt graph.entries a = some entryA) (storedB : entryAt graph.entries b = some entryB)
    (readsA : Reads pools graph.names entryA na) (readsB : Reads pools graph.names entryB nb) :
    irCompareUpTo pools (depth + 1) a b = (labelOrder entryA.label entryB.label).then
      ((compare entryA.children.length entryB.children.length).then
        (List.compareLex (irCompareUpTo pools depth) entryA.children entryB.children)) := by
  by_cases ranks : entryA.label.kind.rank = entryB.label.kind.rank
  · cases atom : entryA.label.atom with
    | false =>
      obtain ⟨atom', kind⟩ := rank_of_compound atom ranks
      rw [labelOrder_compound atom atom' kind, ← compare_compounds sound _ readsA readsB kind, irCompareUpTo,
        if_neg apart, heldA, heldB]
      dsimp only
      rw [if_neg (by rw [readsA.kind, readsB.kind]; exact not_not.mpr ranks)]
      have plain := readsA.kind
      cases label : entryA.label <;> rw [label] at atom plain <;> first
        | (cases atom; done)
        | (rw [plain]; rfl)
    | true =>
      have atom' : entryB.label.atom = true := by
        cases atom' : entryB.label.atom with
        | true => rfl
        | false => exact absurd (rank_of_compound atom' ranks.symm).1 (by simp [atom])
      rw [compare_atoms sound depth apart heldA heldB storedA storedB readsA readsB atom ranks,
        sound.wellFormed.leaf storedA atom, sound.wellFormed.leaf storedB atom']
      exact Ordering.then_eq.symm
  · rw [irCompareUpTo, if_neg apart, heldA, heldB]
    dsimp only
    rw [if_pos (by rw [readsA.kind, readsB.kind]; exact ranks), labelOrder_of_rank_ne ranks, readsA.kind, readsB.kind]
    rcases Nat.lt_or_gt_of_ne ranks with less | more
    · rw [Nat.compare_eq_lt.mpr less]
      rfl
    · rw [Nat.compare_eq_gt.mpr more]
      rfl

theorem irCompareUpTo_spec (sound : Sound pools graph) (depth : Nat) {x y : Expr} (heldA : treeAt graph.entries a = some x)
    (heldB : treeAt graph.entries b = some y) : irCompareUpTo pools depth a b = compareUpTo labelOrder depth x y := by
  induction depth generalizing a b x y with
  | zero => rfl
  | succ depth ih =>
    by_cases apart : a = b
    · subst apart
      obtain rfl := Option.some.inj (heldA.symm.trans heldB)
      rw [irCompareUpTo, if_pos rfl]
      exact Std.ReflCmp.compare_self.symm
    obtain ⟨entryA, storedA⟩ := live_iff_entryAt.mp (live_of_treeAt heldA)
    obtain ⟨entryB, storedB⟩ := live_iff_entryAt.mp (live_of_treeAt heldB)
    obtain ⟨na, listedA, readsA, _⟩ := sound.nodes.nodeAt_entry storedA
    obtain ⟨nb, listedB, readsB, _⟩ := sound.nodes.nodeAt_entry storedB
    have liveA := sound.wellFormed.live storedA
    have liveB := sound.wellFormed.live storedB
    rw [treeAt_of_entryAt sound.wellFormed.backward storedA] at heldA
    rw [treeAt_of_entryAt sound.wellFormed.backward storedB] at heldB
    obtain rfl := Option.some.inj heldA
    obtain rfl := Option.some.inj heldB
    rw [irCompareUpTo_succ sound depth apart listedA listedB storedA storedB readsA readsB]
    simp only [compareUpTo, Rose.label_node, Rose.children_node]
    rw [length_filterMap_treeAt liveA, length_filterMap_treeAt liveB,
      compareLex_filterMap (fun child inside => (liveA child inside).exists_tree)
        (fun child inside => (liveB child inside).exists_tree)
        (fun child _ child' _ x y held held' => ih held held')]

theorem irCompare_spec (sound : Sound pools graph) {x y : Expr} (heldA : treeAt graph.entries a = some x)
    (heldB : treeAt graph.entries b = some y) : irCompare pools a b = compareExprs x y := by
  have bound := height_le_of_treeAt sound.wellFormed.backward heldA
  have inside := (live_of_treeAt heldA).2
  rw [irCompare, irCompareUpTo_spec sound _ heldA heldB]
  exact compareUpTo_eq (by rw [sound.nodes.count]; omega)

end PhyNspire.Ir.Ordering

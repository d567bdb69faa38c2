import PhyNspire.FinitePoly.Arithmetic

/-!
Products, differences, division with remainder, and products reduced by a modulus.
-/

namespace PhyNspire.FinitePoly.Division
open Lib.Stateful Residues Dense Arithmetic Polynomial

variable {c : FpolyContext} {words left right : List Nat}

theorem makeMonic_eq (clean : Clean c words) : Computes (makeMonic c words) fun out =>
    out.length = words.length ∧ Clean c out ∧ value c out = normalize (value c words) := by
  refine .ite (fun empty => .pure ?_) (fun nonempty => ?_)
  · obtain rfl := List.length_eq_zero_iff.mp empty
    exact ⟨rfl, clean, by simp⟩
  · have nonempty : words ≠ [] := fun empty => nonempty (by rw [empty]; rfl)
    have nonzero := clean.eq_zero_iff.not.mpr nonempty
    have lead := clean.leading_ne_zero nonempty
    refine (scaleWords_eq words _).mono ?_
    rintro out ⟨length, reduced, result⟩
    rw [inverseMod_cast lead, ← clean.leadingCoeff] at result
    have normal : value c out = normalize (value c words) := by
      rw [result, normalize_apply, coe_normUnit_of_ne_zero nonzero, mul_comm]
    refine ⟨length, ⟨reduced, fun zero => ?_⟩, normal⟩
    -- The leading word of a monic polynomial is one.
    have nonempty' : out ≠ [] := by
      rintro rfl
      exact nonempty (List.length_eq_zero_iff.mp length.symm)
    have one : (leading out : ZMod c.prime) = 1 := by
      have degree : (value c words).natDegree = (normalize (value c words)).natDegree :=
        natDegree_eq_of_degree_eq degree_normalize.symm
      rw [leading_cast, length, ← clean.natDegree, normal, degree]
      exact (monic_normalize nonzero).coeff_natDegree
    rw [List.getLast?_eq_some_getLast nonempty', Option.some_inj, List.getLast_eq_getElem] at zero
    have inside : out.length - 1 < out.length := Nat.sub_lt (List.length_pos_of_ne_nil nonempty') Nat.one_pos
    rw [leading, List.getD_eq_getElem _ _ inside, zero, Nat.cast_zero] at one
    exact zero_ne_one one

theorem multiplyInternal_eq (clean : Clean c left) (clean' : Clean c right) :
    Computes (multiplyInternal c left right) fun out =>
      wordsValid c out = true ∧ value c out = value c left * value c right := by
  refine .ite (fun empty => .pure ⟨wordsValid_iff.mpr ⟨Nat.zero_le _, clean_nil⟩, ?_⟩) (fun nonempty => ?_)
  · rcases empty with empty | empty
    · rw [clean.length_eq_zero_iff.mp empty, zero_mul, value_nil]
    · rw [clean'.length_eq_zero_iff.mp empty, mul_zero, value_nil]
  · refine .ite (fun _ => .throw (by decide)) (fun room => ?_)
    have inside : left.length = 0 ∨
        0 + left.length + right.length ≤ (List.replicate (left.length + right.length - 1) 0).length + 1 := by
      rw [List.length_replicate]
      omega
    refine .bind (computes_multiplyRows left 0 _ (reduced_replicate _) inside) ?_
    rintro result ⟨length, reduced, product⟩
    refine .pure ⟨wordsValid_iff.mpr ⟨?_, trim_clean reduced⟩, ?_⟩
    · have shorter := trim_length_le result
      rw [length, List.length_replicate] at shorter
      omega
    · rw [value_trim, product, value_replicate_zero, zero_add, pow_zero, one_mul]

theorem subtractInternal_eq (valid : wordsValid c left = true) (valid' : wordsValid c right = true) :
    Computes (subtractInternal c left right) fun out =>
      wordsValid c out = true ∧ value c out = value c left - value c right := by
  refine .bind (computes_combineWords combines_subtract valid valid') ?_
  rintro result ⟨length, reduced, difference⟩
  refine .pure ⟨wordsValid_iff.mpr ⟨?_, trim_clean reduced⟩, ?_⟩
  · have shorter := trim_length_le result
    have first := (wordsValid_iff.mp valid).1
    have second := (wordsValid_iff.mp valid').1
    omega
  · rw [value_trim, difference, C_neg, C_1]
    ring

theorem scaleInternal_eq (clean : Clean c words) (scalar : Nat) :
    Computes (scaleInternal c words scalar) fun out =>
      out.length ≤ words.length ∧ Clean c out ∧ value c out = C (scalar : ZMod c.prime) * value c words := by
  have residue : ((scalar % c.prime : Nat) : ZMod c.prime) = scalar := ZMod.natCast_mod scalar c.prime
  refine .ite (fun empty => .pure ⟨Nat.zero_le _, clean_nil, ?_⟩) (fun _ => ?_)
  · rcases empty with zero | empty
    · rw [← residue, zero, Nat.cast_zero, C_0, zero_mul, value_nil]
    · rw [clean.length_eq_zero_iff.mp empty, mul_zero, value_nil]
  · refine .bind (scaleWords_eq words _) ?_
    rintro result ⟨length, reduced, product⟩
    refine .pure ⟨length ▸ trim_length_le result, trim_clean reduced, ?_⟩
    rw [value_trim, product, residue]

theorem derivativeWords_eq (words : List Nat) : Computes (derivativeWords c words) fun out =>
    out.length ≤ words.length - 1 ∧ Clean c out ∧ value c out = derivative (value c words) := by
  refine .bind (computes_tabulate _ _) ?_
  rintro _ rfl
  refine .pure ⟨(trim_length_le _).trans (by simp), trim_clean (reduced_tabulate _ _ fun _ _ => multiplyMod_lt), ?_⟩
  rw [value_trim]
  refine value_tabulate _ _ _ ((degree_lt_iff_coeff_zero _ _).mpr fun i above => ?_) fun i _ => ?_
  · have past := (degree_lt_iff_coeff_zero _ _).mp (value_degree_lt (c := c) words) (i + 1) (by omega)
    rw [coeff_derivative, past, zero_mul]
  · rw [multiplyMod_cast, ZMod.natCast_mod, coeff_derivative, coeff_value]
    push_cast
    rfl

theorem quotient_unique {K : Type} [Field K] {f d q r : K[X]} (nonzero : d ≠ 0) (identity : f = q * d + r)
    (below : r.degree < d.degree) : q = f / d ∧ r = f % d := by
  have remainder : f % d = r := by
    rw [identity, add_mod, EuclideanDomain.mod_eq_zero.mpr (dvd_mul_left d q), zero_add,
      (mod_eq_self_iff nonzero).mpr below]
  refine ⟨?_, remainder.symm⟩
  have whole := EuclideanDomain.div_add_mod f d
  rw [remainder] at whole
  conv_rhs at whole => rw [identity]
  rw [mul_comm d] at whole
  exact mul_right_cancel₀ nonzero (add_right_cancel whole).symm

theorem cancel_leading {divisor remainder out : List Nat} (clean : Clean c divisor) (nonempty : divisor ≠ [])
    (ordered : divisor.length ≤ remainder.length) (reduced : Reduced c out) (same : out.length = remainder.length)
    (result : value c out = value c remainder + C (-1 *
      (multiplyMod (leading remainder) (inverseMod (leading divisor) c.prime) c.prime : ZMod c.prime)) *
      X ^ (remainder.length - divisor.length) * value c divisor) : leading out = 0 := by
  have positive := List.length_pos_of_ne_nil nonempty
  have lead := clean.leading_ne_zero nonempty
  have top : (value c divisor).coeff (divisor.length - 1) = leading divisor := (leading_cast divisor).symm
  refine (word_cast_eq_zero (reduced.getD _)).mp ?_
  change (leading out : ZMod c.prime) = 0
  rw [leading_cast, same, result, coeff_add, mul_assoc, coeff_C_mul,
    show remainder.length - 1 = divisor.length - 1 + (remainder.length - divisor.length) by omega, coeff_X_pow_mul, top,
    multiplyMod_cast, inverseMod_cast lead,
    show divisor.length - 1 + (remainder.length - divisor.length) = remainder.length - 1 by omega, ← leading_cast]
  field_simp
  ring

structure Dividing (dividend divisor quotient remainder : List Nat) : Prop where
  length : quotient.length = dividend.length + 1 - divisor.length
  reduced : Reduced c quotient
  clean : Clean c remainder
  shorter : remainder.length ≤ dividend.length
  unset : ∀ i, i + divisor.length ≤ remainder.length → quotient.getD i 0 = 0
  identity : value c dividend = value c quotient * value c divisor + value c remainder

theorem divideLoop_eq {dividend divisor : List Nat} (clean : Clean c divisor) (nonempty : divisor ≠ []) (turns : Nat)
    (quotient remainder : List Nat) (dividing : Dividing (c := c) dividend divisor quotient remainder)
    (enough : remainder.length < turns) :
    Computes (divideLoop c divisor (inverseMod (leading divisor) c.prime) turns quotient remainder) fun out =>
      Dividing (c := c) dividend divisor out.1 out.2 ∧ out.2.length < divisor.length := by
  have positive := List.length_pos_of_ne_nil nonempty
  induction turns generalizing quotient remainder with
  | zero => exact absurd enough (Nat.not_lt_zero _)
  | succ turns ih =>
    refine .ite (fun more => ?_) (fun done => .pure ⟨dividing, show remainder.length < divisor.length by omega⟩)
    refine .bind (computes_step c 1) fun _ _ => ?_
    have shift : remainder.length - divisor.length + divisor.length ≤ remainder.length := by omega
    refine .bind (computes_accumulate combines_subtract _ divisor _ remainder dividing.clean.reduced shift) ?_
    rintro out ⟨length, reduced, result⟩
    have cancelled := cancel_leading clean nonempty more.1 reduced length result
    have nonempty_out : out ≠ [] := fun empty => more.2 (by rw [← length, empty]; rfl)
    have shorter := trim_length_lt nonempty_out cancelled
    rw [length] at shorter
    refine ih _ _ ⟨?_, ?_, trim_clean reduced, ?_, fun i above => ?_, ?_⟩ (by omega)
    · rw [List.length_set, dividing.length]
    · exact dividing.reduced.set _ multiplyMod_lt
    · have := dividing.shorter
      omega
    · have untouched : remainder.length - divisor.length ≠ i := by omega
      rw [List.getD_eq_getElem?_getD, List.getElem?_set_ne untouched, ← List.getD_eq_getElem?_getD]
      exact dividing.unset i (by omega)
    · have inside : remainder.length - divisor.length < quotient.length := by
        rw [dividing.length]
        have := dividing.shorter
        omega
      rw [value_trim, result, value_set inside, dividing.unset _ shift, Nat.cast_zero, sub_zero, dividing.identity,
        neg_one_mul, C_neg]
      ring

theorem divremInternal_eq {dividend divisor : List Nat} (clean : Clean c dividend) (clean' : Clean c divisor) :
    Computes (divremInternal c dividend divisor) fun out =>
      value c divisor ≠ 0 ∧ Clean c out.1 ∧ Clean c out.2 ∧ out.1.length ≤ dividend.length ∧
        out.2.length < divisor.length ∧ value c out.1 = value c dividend / value c divisor ∧
        value c out.2 = value c dividend % value c divisor := by
  refine .ite (fun _ => .throw (by decide)) (fun positive => ?_)
  have nonempty : divisor ≠ [] := fun empty => positive (by rw [empty]; rfl)
  have nonzero := clean'.eq_zero_iff.not.mpr nonempty
  have start : Dividing (c := c) dividend divisor (List.replicate (dividend.length + 1 - divisor.length) 0) dividend := by
    refine ⟨List.length_replicate, reduced_replicate _, clean, Nat.le_refl _, fun i _ => ?_, ?_⟩
    · rw [List.getD_eq_getElem?_getD, List.getElem?_replicate]
      split <;> rfl
    · rw [value_replicate_zero, zero_mul, zero_add]
  refine .bind (divideLoop_eq clean' nonempty _ _ _ start (Nat.lt_succ_self _)) ?_
  rintro ⟨quotient, remainder⟩ ⟨dividing, shorter⟩
  have identity := dividing.identity
  obtain ⟨quotient_eq, remainder_eq⟩ :=
    quotient_unique nonzero identity ((dividing.clean.degree_lt_iff clean' nonempty).mpr shorter)
  refine .pure ⟨nonzero, trim_clean dividing.reduced, dividing.clean, ?_, shorter, ?_, remainder_eq⟩
  · have short : (trim quotient).length ≤ dividend.length := by
      have trimmed := trim_length_le quotient
      have size : quotient.length = dividend.length + 1 - divisor.length := dividing.length
      omega
    exact short
  · rw [value_trim, quotient_eq]

theorem remainderInternal_eq {dividend divisor : List Nat} (clean : Clean c dividend) (clean' : Clean c divisor) :
    Computes (remainderInternal c dividend divisor) fun out =>
      value c divisor ≠ 0 ∧ Clean c out ∧ out.length < divisor.length ∧
        value c out = value c dividend % value c divisor := by
  refine .bind (divremInternal_eq clean clean') ?_
  rintro ⟨quotient, remainder⟩ ⟨nonzero, _, clean_out, _, shorter, _, result⟩
  exact .pure ⟨nonzero, clean_out, shorter, result⟩

/-- The reduction loop has cleared every word from the modulus degree and the shift on. -/
structure Reducing (modulus : List Nat) (product : (ZMod c.prime)[X]) (length shift : Nat) (workspace : List Nat) : Prop where
  size : workspace.length = length
  reduced : Reduced c workspace
  cleared : ∀ i, shift + (modulus.length - 1) ≤ i → workspace.getD i 0 = 0
  congruent : value c modulus ∣ product - value c workspace

theorem reduceAt_eq {modulus : List Nat} (clean : Clean c modulus) (nonempty : modulus ≠ [])
    {product : (ZMod c.prime)[X]} {length shift : Nat} (workspace : List Nat)
    (reducing : Reducing (c := c) modulus product length (shift + 1) workspace)
    (inside : shift + modulus.length ≤ length) :
    Computes (reduceAt c modulus (inverseMod (leading modulus) c.prime) shift workspace)
      (Reducing (c := c) modulus product length shift) := by
  have positive := List.length_pos_of_ne_nil nonempty
  have above : ∀ i, shift + (modulus.length - 1) ≤ i → i ≠ shift + (modulus.length - 1) →
      shift + 1 + (modulus.length - 1) ≤ i := by omega
  refine .ite (fun zero => .pure ⟨reducing.size, reducing.reduced, fun i past => ?_, reducing.congruent⟩) (fun _ => ?_)
  · by_cases here : i = shift + (modulus.length - 1)
    · rw [here, zero]
    · exact reducing.cleared i (above i past here)
  · have room : shift + modulus.length ≤ workspace.length := by rwa [reducing.size]
    refine (computes_accumulate combines_subtract _ modulus shift workspace reducing.reduced room).mono ?_
    rintro out ⟨size, reduced, result⟩
    have lead := clean.leading_ne_zero nonempty
    refine ⟨size.trans reducing.size, reduced, fun i past => ?_, ?_⟩
    · refine (word_cast_eq_zero (reduced.getD _)).mp ?_
      obtain ⟨j, rfl⟩ : ∃ j, i = j + shift := ⟨i - shift, by omega⟩
      rw [← coeff_value, result, coeff_add, mul_assoc, coeff_C_mul, coeff_X_pow_mul, coeff_value, coeff_value]
      by_cases here : j + shift = shift + (modulus.length - 1)
      · obtain rfl : j = modulus.length - 1 := by omega
        rw [multiplyMod_cast, inverseMod_cast lead, ← leading, here]
        field_simp
        ring
      · rw [reducing.cleared _ (above _ past here), List.getD_eq_getElem?_getD (l := modulus),
          List.getElem?_eq_none (by omega)]
        simp
    · rw [result, neg_one_mul, C_neg, neg_mul, neg_mul, sub_add_eq_sub_sub, sub_neg_eq_add]
      exact dvd_add reducing.congruent (dvd_mul_left _ _)

theorem multiplyRemainderInternal_eq {modulus : List Nat} (clean : Clean c left) (clean' : Clean c right)
    (clean'' : Clean c modulus) :
    Computes (multiplyRemainderInternal c left right modulus) fun out =>
      value c modulus ≠ 0 ∧ Clean c out ∧ out.length < modulus.length ∧
        value c out = value c left * value c right % value c modulus := by
  refine .ite (fun _ => .throw (by decide)) (fun positive => ?_)
  have nonempty : modulus ≠ [] := fun empty => positive (by rw [empty]; rfl)
  have nonzero := clean''.eq_zero_iff.not.mpr nonempty
  refine .ite (fun trivial => .pure ⟨nonzero, clean_nil, Nat.pos_of_ne_zero positive, ?_⟩) (fun proper => ?_)
  · rcases trivial with empty | empty | constant
    · rw [clean.length_eq_zero_iff.mp empty, zero_mul, EuclideanDomain.zero_mod, value_nil]
    · rw [clean'.length_eq_zero_iff.mp empty, mul_zero, EuclideanDomain.zero_mod, value_nil]
    · have unit : IsUnit (value c modulus) := by
        refine isUnit_iff_degree_eq_zero.mpr ?_
        rw [clean''.degree nonempty, constant]
        rfl
      rw [EuclideanDomain.mod_eq_zero.mpr unit.dvd, value_nil]
  · simp only [not_or] at proper
    have inside : left.length = 0 ∨
        0 + left.length + right.length ≤ (List.replicate (left.length + right.length - 1) 0).length + 1 := by
      rw [List.length_replicate]
      omega
    refine .bind (computes_multiplyRows left 0 _ (reduced_replicate _) inside) ?_
    rintro workspace ⟨size, reduced, product⟩
    rw [List.length_replicate] at size
    rw [value_replicate_zero, zero_add, pow_zero, one_mul] at product
    have start : Reducing (c := c) modulus (value c left * value c right) (left.length + right.length - 1)
        (left.length + right.length - 1 - (modulus.length - 1)) workspace := by
      refine ⟨size, reduced, fun i past => ?_, by rw [product, sub_self]; exact dvd_zero _⟩
      rw [List.getD_eq_getElem?_getD, List.getElem?_eq_none (by omega)]
      rfl
    have turn : ∀ shift workspace b, shift < left.length + right.length - 1 - (modulus.length - 1) →
        Reducing (c := c) modulus (value c left * value c right) (left.length + right.length - 1) (shift + 1) workspace →
        wp (reduceAt c modulus (inverseMod (leading modulus) c.prime) shift workspace)
          (fun out _ => Reducing (c := c) modulus (value c left * value c right) (left.length + right.length - 1) shift out)
          (fun stop _ => stop ≠ .corruptDocument) b :=
      fun shift workspace b below reducing => reduceAt_eq clean'' nonempty workspace reducing (by omega) b
    have loop : Computes (countDown (reduceAt c modulus (inverseMod (leading modulus) c.prime))
        (left.length + right.length - 1 - (modulus.length - 1)) workspace)
        (Reducing (c := c) modulus (value c left * value c right) (left.length + right.length - 1) 0) :=
      fun b => wp_countDown (fun shift out _ =>
        Reducing (c := c) modulus (value c left * value c right) (left.length + right.length - 1) shift out)
        _ workspace b start turn
    refine .bind loop ?_
    intro out reducing
    have kept : Reduced c (out.take (min (left.length + right.length - 1) (modulus.length - 1))) :=
      fun word member => reducing.reduced word (List.mem_of_mem_take member)
    have clean_out := trim_clean kept
    have short : (trim (out.take (min (left.length + right.length - 1) (modulus.length - 1)))).length <
        modulus.length := by
      have trimmed := trim_length_le (out.take (min (left.length + right.length - 1) (modulus.length - 1)))
      rw [List.length_take] at trimmed
      omega
    -- Nothing but cleared words is cut off.
    have same : value c (trim (out.take (min (left.length + right.length - 1) (modulus.length - 1)))) = value c out := by
      rw [value_trim]
      ext i
      rw [coeff_value, coeff_value, List.getD_eq_getElem?_getD, List.getD_eq_getElem?_getD, List.getElem?_take]
      split
      · rfl
      · rename_i past
        rw [← List.getD_eq_getElem?_getD]
        by_cases high : modulus.length - 1 ≤ i
        · rw [reducing.cleared i (by omega)]
          simp
        · have size := reducing.size
          rw [List.getD_eq_getElem?_getD, List.getElem?_eq_none (by omega)]
    refine .pure ⟨nonzero, clean_out, short, ?_⟩
    obtain ⟨q, split⟩ := reducing.congruent
    rw [same]
    refine (quotient_unique nonzero (q := q) ?_ ?_).2
    · rw [mul_comm q, ← split, sub_add_cancel]
    · rw [← same]
      exact (clean_out.degree_lt_iff clean'' nonempty).mpr short

end PhyNspire.FinitePoly.Division

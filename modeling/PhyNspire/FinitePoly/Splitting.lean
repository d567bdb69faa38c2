import PhyNspire.FinitePoly.Elimination

/-!
The splitting loops of finite_poly.c. The factors always multiply to the input, and unless the
expected number has been reached they are constant modulo every kernel element treated.
-/

namespace PhyNspire.FinitePoly.Splitting
open Lib.FrobeniusKernel Residues Dense Arithmetic Division Euclid Berlekamp Polynomial
open UniqueFactorizationMonoid

variable {c : FpolyContext}

theorem shiftBasis_eq {basis : List Nat} (clean : Clean c basis) {word : Nat} (less : word < c.prime) :
    Clean c (shiftBasis c basis word) ∧
      value c (shiftBasis c basis word) = value c basis - C (word : ZMod c.prime) := by
  let shifted := if basis.length = 0 then [0] else basis
  have nonempty : 0 < shifted.length := by
    dsimp only [shifted]
    split_ifs
    · exact Nat.one_pos
    · omega
  have same : value c shifted = value c basis := by
    dsimp only [shifted]
    split_ifs with empty
    · rw [List.length_eq_zero_iff.mp empty, value_nil]
      exact value_replicate_zero 1
    · rfl
  have reduced : Reduced c shifted := by
    dsimp only [shifted]
    split_ifs
    · exact reduced_replicate 1
    · exact clean.reduced
  have word_less := subtractMod_lt (reduced.getD 0) less
  refine ⟨trim_clean (reduced.set 0 word_less), ?_⟩
  change value c (trim (shifted.set 0 (subtractMod (shifted.getD 0 0) word c.prime))) = _
  rw [value_trim, value_set nonempty, subtractMod_cast less, same, pow_zero, mul_one, sub_sub_cancel_left, C_neg,
    sub_eq_add_neg]

structure Proper (c : FpolyContext) (words : List Nat) : Prop where
  valid : wordsValid c words = true
  monic : (value c words).Monic
  long : 2 ≤ words.length

structure Partition (f : (ZMod c.prime)[X]) (factors : List (List Nat)) : Prop where
  proper : ∀ words ∈ factors, Proper c words
  product : (factors.map (value c)).prod = f

/-- A property that passes to divisors. -/
def Downward (P : (ZMod c.prime)[X] → Prop) : Prop := ∀ h h', h' ∣ h → P h → P h'

/-- Every property of all factors that passes to divisors is kept. -/
def Refines (factors out : List (List Nat)) : Prop :=
  ∀ P : (ZMod c.prime)[X] → Prop, Downward P → (∀ words ∈ factors, P (value c words)) →
    ∀ words ∈ out, P (value c words)

variable {f : (ZMod c.prime)[X]} {words : List Nat} {factors : List (List Nat)}

theorem Proper.clean (proper : Proper c words) : Clean c words := (wordsValid_iff.mp proper.valid).2

theorem Proper.nonempty (proper : Proper c words) : words ≠ [] := fun empty => by
  have long := proper.long
  rw [empty] at long
  exact absurd long (by decide)

theorem Proper.natDegree_pos (proper : Proper c words) : 0 < (value c words).natDegree := by
  have long := proper.long
  rw [proper.clean.natDegree]
  omega

theorem Proper.not_isUnit (proper : Proper c words) : ¬IsUnit (value c words) := fun unit => by
  have zero := natDegree_eq_zero_of_isUnit unit
  have positive := proper.natDegree_pos
  omega

theorem Proper.irreducible (proper : Proper c words) (short : words.length ≤ 2) : Irreducible (value c words) := by
  refine irreducible_of_degree_eq_one ?_
  have long := proper.long
  rw [proper.clean.degree proper.nonempty, show words.length - 1 = 1 by omega]
  rfl

theorem Partition.dvd (partition : Partition f factors) (member : words ∈ factors) : value c words ∣ f := by
  rw [← partition.product]
  exact List.dvd_prod (List.mem_map_of_mem member)

theorem Partition.length_le (partition : Partition f factors) :
    factors.length ≤ (normalizedFactors f).card := by
  have bound := (factors_length (factors.map (value c)) fun h member => by
    obtain ⟨words, inside, rfl⟩ := List.mem_map.mp member
    exact ⟨(partition.proper words inside).monic.ne_zero, (partition.proper words inside).not_isUnit⟩).1
  rwa [List.length_map, partition.product] at bound

theorem Partition.irreducible (partition : Partition f factors)
    (full : factors.length = (normalizedFactors f).card) : ∀ words ∈ factors, Irreducible (value c words) := by
  have all := (factors_length (factors.map (value c)) fun h member => by
    obtain ⟨words, inside, rfl⟩ := List.mem_map.mp member
    exact ⟨(partition.proper words inside).monic.ne_zero, (partition.proper words inside).not_isUnit⟩).2
  rw [List.length_map, partition.product] at all
  exact fun words member => all full _ (List.mem_map_of_mem member)

theorem Partition.split (partition : Partition f factors) {index : Nat} (inside : index < factors.length)
    {divisor quotient : List Nat} (proper : Proper c divisor) (proper' : Proper c quotient)
    (product : value c divisor * value c quotient = value c factors[index]) :
    Partition f (factors.set index divisor ++ [quotient]) := by
  refine ⟨fun words member => ?_, ?_⟩
  · rcases List.mem_append.mp member with old | new
    · rcases List.mem_or_eq_of_mem_set old with kept | rfl
      · exact partition.proper words kept
      · exact proper
    · rw [List.mem_singleton.mp new]
      exact proper'
  · rw [← partition.product, List.map_append, List.prod_append, List.map_set, List.map_singleton, List.prod_singleton,
      List.prod_set, if_pos (by rwa [List.length_map])]
    have whole := List.prod_take_mul_prod_drop (factors.map (value c)) index
    rw [List.drop_eq_getElem_cons (by rwa [List.length_map]), List.prod_cons, List.getElem_map, ← product] at whole
    rw [← whole]
    ring

theorem Refines.refl (factors : List (List Nat)) : Refines (c := c) factors factors := fun _ _ held => held

theorem Refines.trans {middle out : List (List Nat)} (first : Refines (c := c) factors middle)
    (second : Refines (c := c) middle out) : Refines (c := c) factors out :=
  fun P downward held => second P downward (first P downward held)

theorem Refines.split {index : Nat} (inside : index < factors.length) {divisor quotient : List Nat}
    (product : value c divisor * value c quotient = value c factors[index]) :
    Refines (c := c) factors (factors.set index divisor ++ [quotient]) := by
  intro P downward held words member
  have whole := held _ (List.getElem_mem inside)
  rw [← product] at whole
  rcases List.mem_append.mp member with old | new
  · rcases List.mem_or_eq_of_mem_set old with kept | rfl
    · exact held words kept
    · exact downward _ _ (dvd_mul_right _ _) whole
  · rw [List.mem_singleton.mp new]
    exact downward _ _ (dvd_mul_left _ _) whole

structure Common (candidate divisor : List Nat) (g : (ZMod c.prime)[X]) : Prop where
  clean : Clean c divisor
  left : value c divisor ∣ value c candidate
  right : value c divisor ∣ g
  greatest : ∀ e, e ∣ value c candidate → e ∣ g → e ∣ value c divisor
  monic : (value c divisor).Monic

theorem common_of_gcd {candidate divisor : List Nat} {g : (ZMod c.prime)[X]} (proper : Proper c candidate)
    (clean : Clean c divisor)
    (result : value c divisor = normalize (EuclideanDomain.gcd (value c candidate) g)) :
    Common candidate divisor g := by
  have nonzero : EuclideanDomain.gcd (value c candidate) g ≠ 0 := fun zero =>
    proper.monic.ne_zero (EuclideanDomain.gcd_eq_zero_iff.mp zero).1
  refine ⟨clean, ?_, ?_, fun e divides divides' => ?_, ?_⟩ <;> rw [result]
  · exact (normalize_associated _).dvd.trans (EuclideanDomain.gcd_dvd_left _ _)
  · exact (normalize_associated _).dvd.trans (EuclideanDomain.gcd_dvd_right _ _)
  · exact (EuclideanDomain.dvd_gcd divides divides').trans (normalize_associated _).symm.dvd
  · exact monic_normalize nonzero

section
variable {candidate divisor : List Nat} {g : (ZMod c.prime)[X]}

theorem Common.decided (common : Common candidate divisor g) (proper : Proper c candidate)
    (trivial : divisor.length ≤ 1 ∨ divisor.length = candidate.length) : Decided (value c candidate) g := by
  have nonempty : divisor ≠ [] := common.clean.eq_zero_iff.not.mp common.monic.ne_zero
  rcases trivial with short | whole
  · have zero : (value c divisor).natDegree = 0 := by
      rw [common.clean.natDegree]
      omega
    have one : value c divisor = 1 := common.monic.natDegree_eq_zero.mp zero
    refine .inr (isRelPrime_iff_isCoprime.mp fun e divides divides' => ?_)
    exact isUnit_of_dvd_one (one ▸ common.greatest e divides divides')
  · have same : value c divisor = value c candidate := by
      refine eq_of_monic_of_associated common.monic proper.monic ?_
      refine associated_of_dvd_of_natDegree_le common.left proper.monic.ne_zero ?_
      rw [common.clean.natDegree, proper.clean.natDegree, whole]
    exact .inl (same ▸ common.right)

theorem Common.parts (common : Common candidate divisor g) (proper : Proper c candidate)
    (squarefree : Squarefree (value c candidate))
    (nontrivial : ¬(divisor.length ≤ 1 ∨ divisor.length = candidate.length)) {quotient : List Nat}
    (clean : Clean c quotient) (short : quotient.length ≤ candidate.length)
    (result : value c quotient = normalize (value c candidate / value c divisor)) :
    Proper c divisor ∧ Proper c quotient ∧ value c divisor * value c quotient = value c candidate ∧
      Decided (value c divisor) g ∧ Decided (value c quotient) g := by
  obtain ⟨q, whole⟩ := common.left
  have q_monic : q.Monic := common.monic.of_mul_monic_left (whole ▸ proper.monic)
  have quotient_eq : value c quotient = q := by
    rw [result, whole, mul_div_cancel_left₀ _ common.monic.ne_zero, q_monic.normalize_eq_self]
  have room := (wordsValid_iff.mp proper.valid).1
  have nonempty : divisor ≠ [] := common.clean.eq_zero_iff.not.mp common.monic.ne_zero
  have positive := List.length_pos_of_ne_nil nonempty
  have degrees : (value c candidate).natDegree = (value c divisor).natDegree + q.natDegree := by
    rw [whole, common.monic.natDegree_mul q_monic]
  have quotient_degree := clean.natDegree
  rw [proper.clean.natDegree, common.clean.natDegree] at degrees
  rw [quotient_eq] at quotient_degree
  have long := proper.long
  refine ⟨⟨wordsValid_iff.mpr ⟨by omega, common.clean⟩, common.monic, by omega⟩,
    ⟨wordsValid_iff.mpr ⟨by omega, clean⟩, quotient_eq ▸ q_monic, by omega⟩, by rw [quotient_eq, ← whole],
    .inl common.right, ?_⟩
  rw [quotient_eq]
  exact decided_quotient (whole ▸ squarefree) fun e => whole ▸ common.greatest e

end

/-- What a loop has reached: fewer factors than expected are left only when all are treated. -/
def Treated (f : (ZMod c.prime)[X]) (target : Nat) (factors : List (List Nat)) (done : (ZMod c.prime)[X] → Prop)
    (out : List (List Nat)) : Prop :=
  Partition f out ∧ Refines (c := c) factors out ∧ (out.length < target → ∀ words ∈ out, done (value c words))

variable {basis : List Nat}

theorem splitFactors_eq (squarefree : Squarefree f) (clean : Clean c basis) {word : Nat} (less : word < c.prime)
    (index remaining : Nat) (factors : List (List Nat)) (partition : Partition f factors)
    (within : index + remaining ≤ factors.length)
    (decided : ∀ i (inside : i < factors.length), i < index ∨ index + remaining ≤ i →
      Decided (value c factors[i]) (value c basis - C (word : ZMod c.prime))) :
    Computes (splitFactors c basis word (normalizedFactors f).card (List.range' index remaining) factors)
      (Treated f (normalizedFactors f).card factors fun h => Decided h (value c basis - C (word : ZMod c.prime))) := by
  induction remaining generalizing index factors with
  | zero =>
    refine .pure ⟨partition, .refl factors, fun _ words member => ?_⟩
    obtain ⟨i, inside, rfl⟩ := List.getElem_of_mem member
    exact decided i inside (by omega)
  | succ remaining ih =>
    rw [List.range'_succ]
    have inside : index < factors.length := by omega
    have candidate : factors.getD index [] = factors[index] := List.getD_eq_getElem _ _ inside
    have proper := partition.proper _ (List.getElem_mem inside)
    -- A factor that is left alone is decided already.
    have kept : Decided (value c factors[index]) (value c basis - C (word : ZMod c.prime)) →
        Computes (splitFactors c basis word (normalizedFactors f).card (List.range' (index + 1) remaining) factors)
          (Treated f (normalizedFactors f).card factors fun h => Decided h (value c basis - C (word : ZMod c.prime))) := by
      intro here
      refine ih (index + 1) factors partition (by omega) fun i inside_i outside => ?_
      rcases Nat.lt_trichotomy i index with before | rfl | after
      · exact decided i inside_i (.inl before)
      · exact here
      · exact decided i inside_i (.inr (by omega))
    refine .ite (fun more => ?_) (fun full => .pure ⟨partition, .refl factors, fun less => absurd less full⟩)
    simp only [candidate]
    refine .ite (fun linear => kept (decided_of_irreducible (proper.irreducible linear) _)) (fun _ => ?_)
    obtain ⟨clean_shift, shift_value⟩ := shiftBasis_eq clean less
    refine .bind (gcdInternal_eq proper.clean clean_shift) ?_
    rintro divisor ⟨clean_divisor, divisor_value, _⟩
    rw [shift_value] at divisor_value
    have common := common_of_gcd proper clean_divisor divisor_value
    refine .ite (fun trivial => kept (common.decided proper trivial)) (fun nontrivial => ?_)
    refine .ite (fun _ => .throw (by decide)) (fun _ => ?_)
    refine .bind (divremInternal_eq proper.clean clean_divisor) ?_
    rintro ⟨quotient, remainder⟩ ⟨_, clean_quotient, clean_remainder, shorter, _, quotient_value, remainder_value⟩
    have exact_division : remainder.length = 0 := by
      rw [clean_remainder.length_eq_zero_iff]
      exact remainder_value.trans (EuclideanDomain.mod_eq_zero.mpr common.left)
    refine .ite (fun inexact => absurd exact_division inexact) (fun _ => ?_)
    refine .bind (makeMonic_eq clean_quotient) ?_
    rintro monic ⟨length, clean_monic, monic_value⟩
    have part_squarefree := squarefree.squarefree_of_dvd (partition.dvd (List.getElem_mem inside))
    have short : monic.length ≤ factors[index].length := length.trans_le shorter
    obtain ⟨proper_d, proper_q, product, decided_d, decided_q⟩ := common.parts proper part_squarefree nontrivial
      clean_monic short (monic_value.trans (congrArg normalize quotient_value))
    refine (ih (index + 1) _ (partition.split inside proper_d proper_q product) ?_ ?_).mono ?_
    · rw [List.length_append, List.length_set]
      omega
    · intro i inside_i outside
      rw [List.length_append, List.length_set, List.length_singleton] at inside_i
      by_cases last : i = factors.length
      · subst last
        simpa using decided_q
      · have old : i < factors.length := by omega
        rw [List.getElem_append_left (by rwa [List.length_set]), List.getElem_set]
        split_ifs with here
        · exact decided_d
        · exact decided i old (by omega)
    · rintro out ⟨final, refines, all⟩
      exact ⟨final, (Refines.split inside product).trans refines, all⟩

theorem downward_decided (g : (ZMod c.prime)[X]) : Downward fun h => Decided h g :=
  fun _ _ divides decided => decided.of_dvd divides

theorem downward_constant (g : (ZMod c.prime)[X]) : Downward fun h => ConstantModulo h g :=
  fun _ _ divides constant => constant.of_dvd divides

theorem constant_of_words {g : (ZMod c.prime)[X]} (fixed : Fixed f g) (proper : Proper c words)
    (divides : value c words ∣ f)
    (decided : ∀ word < c.prime, Decided (value c words) (g - C (word : ZMod c.prime))) :
    ConstantModulo (value c words) g := by
  refine constant_of_decided fixed divides proper.not_isUnit fun a => ?_
  have residue := decided a.val a.val_lt
  rwa [ZMod.natCast_zmod_val] at residue

theorem splitWithBasis_eq (squarefree : Squarefree f) (clean : Clean c basis) (fixed : Fixed f (value c basis))
    (word remaining : Nat) (whole : word + remaining = c.prime) (factors : List (List Nat))
    (partition : Partition f factors)
    (decided : ∀ earlier < word, ∀ words ∈ factors,
      Decided (value c words) (value c basis - C (earlier : ZMod c.prime))) :
    Computes (splitWithBasis c basis (normalizedFactors f).card (List.range' word remaining) factors)
      (Treated f (normalizedFactors f).card factors fun h => ConstantModulo h (value c basis)) := by
  induction remaining generalizing word factors with
  | zero =>
    refine .pure ⟨partition, .refl factors, fun _ words member => ?_⟩
    exact constant_of_words fixed (partition.proper words member) (partition.dvd member) fun earlier less =>
      decided earlier (by omega) words member
  | succ remaining ih =>
    rw [List.range'_succ]
    refine .ite (fun more => ?_) (fun full => .pure ⟨partition, .refl factors, fun less => absurd less full⟩)
    rw [List.range_eq_range']
    refine .bind (splitFactors_eq squarefree clean (by omega) 0 factors.length factors partition (by omega)
      fun i inside outside => absurd outside (by omega)) ?_
    rintro middle ⟨partition', refines, treated⟩
    by_cases more' : middle.length < (normalizedFactors f).card
    · refine (ih (word + 1) (by omega) middle partition' fun earlier before words member => ?_).mono ?_
      · rcases Nat.lt_succ_iff_lt_or_eq.mp before with old | rfl
        · exact refines _ (downward_decided _) (decided earlier old) words member
        · exact treated more' words member
      · rintro out ⟨final, refines', all⟩
        exact ⟨final, refines.trans refines', all⟩
    · have stop : splitWithBasis c basis (normalizedFactors f).card (List.range' (word + 1) remaining) middle =
          pure middle := by
        cases remaining with
        | zero => rfl
        | succ remaining => rw [List.range'_succ, splitWithBasis, if_neg more']
      rw [stop]
      exact .pure ⟨partition', refines, fun less => absurd less more'⟩

theorem splitColumns_eq (squarefree : Squarefree f) {s : Elimination} {degree : Nat}
    (reduced : ∀ j < degree, Reduced c (kernelBasis c s degree j))
    (fixed : ∀ j < degree, j ∉ s.pivotColumns → Fixed f (value c (kernelBasis c s degree j)))
    (column remaining : Nat) (whole : column + remaining = degree) (factors : List (List Nat))
    (partition : Partition f factors)
    (constant : ∀ j < column, j ∉ s.pivotColumns → ∀ words ∈ factors,
      ConstantModulo (value c words) (value c (kernelBasis c s degree j))) :
    Computes (splitColumns c s degree (normalizedFactors f).card (List.range' column remaining) factors)
      (Treated f (normalizedFactors f).card factors fun h => ∀ j < degree, j ∉ s.pivotColumns →
        ConstantModulo h (value c (kernelBasis c s degree j))) := by
  induction remaining generalizing column factors with
  | zero =>
    obtain rfl : column = degree := by omega
    exact .pure ⟨partition, .refl factors, fun _ words member j inside free => constant j inside free words member⟩
  | succ remaining ih =>
    rw [List.range'_succ]
    refine .ite (fun more => ?_) (fun full => .pure ⟨partition, .refl factors, fun less => absurd less full⟩)
    refine .ite (fun pivot => ?_) (fun free => ?_)
    · refine ih (column + 1) (by omega) factors partition fun j before free => ?_
      rcases Nat.lt_succ_iff_lt_or_eq.mp before with old | rfl
      · exact constant j old free
      · exact absurd pivot free
    · have clean := trim_clean (reduced column (by omega))
      have fixed_here := fixed column (by omega) free
      rw [← value_trim] at fixed_here
      rw [List.range_eq_range']
      refine .bind (splitWithBasis_eq squarefree clean fixed_here 0 c.prime (Nat.zero_add _) factors partition
        fun earlier before => absurd before (Nat.not_lt_zero earlier)) ?_
      rintro middle ⟨partition', refines, treated⟩
      by_cases more' : middle.length < (normalizedFactors f).card
      · refine (ih (column + 1) (by omega) middle partition' fun j before free' words member => ?_).mono ?_
        · rcases Nat.lt_succ_iff_lt_or_eq.mp before with old | rfl
          · exact refines _ (downward_constant _) (constant j old free') words member
          · have here := treated more' words member
            rwa [value_trim] at here
        · rintro out ⟨final, refines', all⟩
          exact ⟨final, refines.trans refines', all⟩
      · have stop : splitColumns c s degree (normalizedFactors f).card (List.range' (column + 1) remaining) middle =
            pure middle := by
          cases remaining with
          | zero => rfl
          | succ remaining => rw [List.range'_succ, splitColumns, if_neg more']
        rw [stop]
        exact .pure ⟨partition', refines, fun less => absurd less more'⟩

end PhyNspire.FinitePoly.Splitting

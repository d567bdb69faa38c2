import PhyNspire.FinitePoly.Operations
import PhyNspire.FinitePoly.Splitting

/-!
`phy_fpoly_factor_square_free` returns the complete factorization, in order, and never calls
a document corrupt.
-/

namespace PhyNspire.FinitePoly.Factors
open Lib.Stateful Lib.RowReduction Lib.FrobeniusKernel Lib.FrobeniusMatrix
open Residues Dense Calls Arithmetic Division Euclid Operations Berlekamp Elimination Splitting Polynomial
open UniqueFactorizationMonoid

section
variable {left middle right : List Nat}

theorem compareDown_swap (left right : List Nat) (count : Nat) :
    compareDown right left count = -compareDown left right count := by
  induction count with
  | zero => rfl
  | succ count ih =>
    simp only [compareDown]
    split_ifs <;> omega

theorem compareDown_trans (count : Nat) (first : compareDown left middle count ≤ 0)
    (second : compareDown middle right count ≤ 0) : compareDown left right count ≤ 0 := by
  induction count with
  | zero => exact Int.le_refl 0
  | succ count ih =>
    simp only [compareDown] at first second ⊢
    split_ifs at first second ⊢ <;> omega

theorem compareDown_eq_zero {count : Nat} (zero : compareDown left right count = 0) :
    ∀ i < count, left.getD i 0 = right.getD i 0 := by
  induction count with
  | zero => exact fun i none => absurd none (Nat.not_lt_zero i)
  | succ count ih =>
    rw [compareDown] at zero
    by_cases different : left.getD count 0 ≠ right.getD count 0
    · rw [if_pos different] at zero
      split_ifs at zero
      omega
    · rw [if_neg different] at zero
      intro i inside
      rcases Nat.lt_succ_iff_lt_or_eq.mp inside with earlier | rfl
      · exact ih zero i earlier
      · exact not_not.mp different

theorem polynomialOrder_swap (left right : List Nat) : polynomialOrder right left = -polynomialOrder left right := by
  unfold polynomialOrder
  by_cases same : left.length = right.length
  · rw [if_neg (not_not.mpr same), if_neg (not_not.mpr same.symm), compareDown_swap, same]
  · rw [if_pos same, if_pos (Ne.symm same)]
    split_ifs <;> omega

theorem polynomialOrder_trans (first : polynomialOrder left middle ≤ 0) (second : polynomialOrder middle right ≤ 0) :
    polynomialOrder left right ≤ 0 := by
  unfold polynomialOrder at first second ⊢
  by_cases same : left.length = middle.length
  · by_cases same' : middle.length = right.length
    · rw [if_neg (not_not.mpr same)] at first
      rw [if_neg (not_not.mpr same')] at second
      rw [if_neg (not_not.mpr (same.trans same'))]
      exact compareDown_trans _ first (same ▸ second)
    · rw [if_pos same'] at second
      rw [if_pos (same ▸ same'), same]
      exact second
  · split_ifs at first second ⊢ <;> omega

theorem eq_of_polynomialOrder (zero : polynomialOrder left right = 0) : left = right := by
  unfold polynomialOrder at zero
  by_cases different : left.length ≠ right.length
  · rw [if_pos different] at zero
    split_ifs at zero
    omega
  rw [if_neg different] at zero
  have length := not_not.mp different
  refine List.ext_getElem length fun i inside inside' => ?_
  have same := compareDown_eq_zero zero i inside
  rwa [List.getD_eq_getElem _ _ inside, List.getD_eq_getElem _ _ inside'] at same

end

/-- The order in which the loop keeps the sorted part, largest first. -/
def Descends (left right : List Nat) : Prop := ¬polynomialOrder left right < 0

instance : DecidableRel Descends := fun left right => inferInstanceAs (Decidable ¬polynomialOrder left right < 0)

instance : IsTrans (List Nat) Descends where
  trans left middle right first second := by
    unfold Descends at *
    rw [not_lt, ← neg_nonpos, ← polynomialOrder_swap] at *
    exact polynomialOrder_trans second first

instance : Std.Total Descends where
  total left right := by
    unfold Descends
    rw [polynomialOrder_swap left right]
    omega

theorem insertFactor_eq (key : List Nat) (sorted : List (List Nat)) :
    insertFactor key sorted = sorted.orderedInsert Descends key := by
  induction sorted with
  | nil => rfl
  | cons last rest ih =>
    rw [insertFactor, List.orderedInsert_cons, ih]
    by_cases less : polynomialOrder key last < 0
    · have stays : ¬Descends key last := not_not.mpr less
      rw [if_pos less, if_neg stays]
    · have goes : Descends key last := less
      rw [if_neg less, if_pos goes]

theorem sortFactors_eq (factors : List (List Nat)) :
    sortFactors factors = (factors.reverse.insertionSort Descends).reverse := by
  have inserts : insertFactor = List.orderedInsert Descends :=
    funext fun key => funext fun sorted => insertFactor_eq key sorted
  rw [sortFactors, List.insertionSort, List.foldr_reverse, inserts]

theorem sortFactors_perm (factors : List (List Nat)) : (sortFactors factors).Perm factors := by
  rw [sortFactors_eq]
  exact (List.reverse_perm _).trans ((List.perm_insertionSort _ _).trans (List.reverse_perm _))

theorem sortFactors_sorted {factors : List (List Nat)} (distinct : factors.Nodup) :
    (sortFactors factors).Pairwise fun left right => polynomialOrder left right < 0 := by
  have nodup : (sortFactors factors).Nodup := (sortFactors_perm factors).nodup_iff.mpr distinct
  have descending : (sortFactors factors).Pairwise fun left right => Descends right left := by
    rw [sortFactors_eq]
    exact List.pairwise_reverse.mpr (List.pairwise_insertionSort Descends _)
  refine (descending.and nodup).imp ?_
  rintro left right ⟨ordered, different⟩
  unfold Descends at ordered
  rw [polynomialOrder_swap] at ordered
  have nonzero : polynomialOrder left right ≠ 0 := fun zero => different (eq_of_polynomialOrder zero)
  omega

variable {c : FpolyContext} {words : List Nat}

structure Factored (c : FpolyContext) (f : (ZMod c.prime)[X]) (factors : List (List Nat)) : Prop where
  valid : ∀ words ∈ factors, wordsValid c words = true
  monic : ∀ words ∈ factors, (value c words).Monic
  irreducible : ∀ words ∈ factors, Irreducible (value c words)
  distinct : (factors.map (value c)).Nodup
  sorted : factors.Pairwise fun left right => polynomialOrder left right < 0
  count : factors.length = Module.finrank (ZMod c.prime) (frobeniusKernel f)
  product : (factors.map (value c)).prod = f

theorem multiplyFactors_eq (factors : List (List Nat)) (clean : ∀ words ∈ factors, Clean c words) (product : List Nat)
    (valid : wordsValid c product = true) :
    Computes (multiplyFactors c factors product) fun out =>
      wordsValid c out = true ∧ value c out = value c product * (factors.map (value c)).prod := by
  induction factors generalizing product with
  | nil => exact .pure ⟨valid, by rw [List.map_nil, List.prod_nil, mul_one]⟩
  | cons factor factors ih =>
    refine .bind (multiplyInternal_eq (wordsValid_iff.mp valid).2 (clean factor List.mem_cons_self)) ?_
    rintro middle ⟨valid', result⟩
    refine (ih (fun words member => clean words (List.mem_cons_of_mem _ member)) middle valid').mono ?_
    rintro out ⟨valid_out, result'⟩
    exact ⟨valid_out, by rw [result', result, List.map_cons, List.prod_cons, mul_assoc]⟩

theorem constant_of_basis {f h g : (ZMod c.prime)[X]} (nonzero : f ≠ 0) (divides : h ∣ f) {s : Elimination}
    (eliminated : Eliminated (frobeniusMatrix f) f.natDegree f.natDegree s) (fixed : Fixed f g)
    (constant : ∀ j < f.natDegree, j ∉ s.pivotColumns →
      ConstantModulo h (value c (kernelBasis c s f.natDegree j))) : ConstantModulo h g := by
  obtain ⟨shaped, echelon, kernel⟩ := eliminated
  have short : (g % f).degree < f.natDegree := (EuclideanDomain.mod_lt _ nonzero).trans_le degree_le_natDegree
  have congruent : f ∣ g - g % f := by
    rw [EuclideanDomain.mod_eq_sub_mul_div, sub_sub_cancel]
    exact dvd_mul_right _ _
  have residue : Fixed f (g % f) := by
    rw [← mk_mem_frobeniusKernel, mk_mod, mk_mem_frobeniusKernel]
    exact fixed
  have member : (fun j : Fin f.natDegree => (g % f).coeff j.val) ∈ nullSpace (table c s.matrix) f.natDegree := by
    rw [kernel, mem_nullSpace_iff nonzero, polyOf_coeffs short]
    exact residue
  have combination := congrArg polyOf (echelon.eq_sum (kernelBasis_solution shaped echelon) member)
  rw [polyOf_coeffs short, polyOf_sum] at combination
  refine ConstantModulo.congr (g := g % f) ?_ (divides.trans congruent)
  rw [combination]
  simp only [polyOf_smul]
  refine ConstantModulo.sum _ _ _ fun j _ => ?_
  rw [← value_kernelBasis shaped echelon j.val.isLt]
  exact constant j.val.val j.val.isLt j.property

theorem nullity_eq {f : (ZMod c.prime)[X]} (nonzero : f ≠ 0) (squarefree : Squarefree f) {s : Elimination}
    (eliminated : Eliminated (frobeniusMatrix f) f.natDegree f.natDegree s) :
    f.natDegree - s.rank = (normalizedFactors f).card := by
  obtain ⟨shaped, echelon, kernel⟩ := eliminated
  rw [← finrank_frobeniusKernel nonzero squarefree, ← finrank_nullSpace nonzero, ← kernel,
    echelon.finrank_nullSpace (kernelBasis_solution shaped echelon)]
  rfl

theorem factorWords_eq (valid : wordsValid c words = true) (long : 2 ≤ words.length) (monic : leading words = 1) :
    Computes (factorWords c words) (Factored c (value c words)) := by
  have clean := (wordsValid_iff.mp valid).2
  have nonzero : value c words ≠ 0 := clean.eq_zero_iff.not.mpr fun empty => by
    rw [empty] at long
    exact absurd long (by decide)
  have degree : (value c words).natDegree = words.length - 1 := clean.natDegree
  have monic' : (value c words).Monic := by
    rw [Polynomial.Monic, clean.leadingCoeff, monic, Nat.cast_one]
  refine .bind (commonWithDerivative_eq clean) ?_
  rintro common ⟨clean_common, common_value⟩
  refine .ite (fun _ => .throw (by decide)) (fun coprime => ?_)
  have squarefree : Squarefree (value c words) := by
    have unit := (unit_iff_length clean_common common_value nonzero).mp (by omega)
    have separable : (value c words).Separable := EuclideanDomain.gcd_isUnit_iff.mp unit
    exact separable.squarefree
  refine .bind (berlekampRref_eq valid (by omega)) fun s eliminated => ?_
  rw [← degree] at eliminated
  have nullity := nullity_eq nonzero squarefree eliminated
  have start : Partition (value c words) [words] := by
    refine ⟨fun other member => ?_, by simp⟩
    rw [List.mem_singleton.mp member]
    exact ⟨valid, monic', long⟩
  have positive := start.length_le
  rw [List.length_singleton] at positive
  simp only [← degree]
  refine .ite (fun absurdity => by omega) (fun _ => ?_)
  have reduced : ∀ j < (value c words).natDegree, Reduced c (kernelBasis c s (value c words).natDegree j) :=
    fun j inside => (kernelBasis_solving eliminated.shaped eliminated.echelon inside).reduced
  have fixed : ∀ j < (value c words).natDegree, j ∉ s.pivotColumns →
      Fixed (value c words) (value c (kernelBasis c s (value c words).natDegree j)) := by
    intro j inside free
    rw [value_kernelBasis eliminated.shaped eliminated.echelon inside, ← mem_nullSpace_iff nonzero, ← eliminated.kernel]
    exact (kernelBasis_solution eliminated.shaped eliminated.echelon ⟨⟨j, inside⟩, free⟩).mem eliminated.echelon
  rw [nullity, List.range_eq_range']
  refine .bind (splitColumns_eq squarefree reduced fixed 0 _ (Nat.zero_add _) [words] start
    fun j before => absurd before (Nat.not_lt_zero j)) ?_
  rintro factors ⟨partition, _, treated⟩
  have full : factors.length = (normalizedFactors (value c words)).card := by
    by_contra short
    have less := lt_of_le_of_ne partition.length_le short
    have irreducible : ∀ h ∈ factors.map (value c), Irreducible h := by
      intro h member
      obtain ⟨other, inside, rfl⟩ := List.mem_map.mp member
      exact irreducible_of_constant nonzero squarefree (partition.dvd inside) (partition.proper other inside).not_isUnit
        fun g fixed' => constant_of_basis nonzero (partition.dvd inside) eliminated fixed' (treated less other inside)
    have count := length_of_irreducible (factors.map (value c)) irreducible
    rw [partition.product, List.length_map] at count
    exact short count.symm
  refine .ite (fun different => absurd full different) (fun _ => ?_)
  have irreducible := partition.irreducible full
  have permutation := sortFactors_perm factors
  have members : ∀ other ∈ sortFactors factors, other ∈ factors := fun other member => permutation.mem_iff.mp member
  have product : ((sortFactors factors).map (value c)).prod = value c words :=
    (permutation.map (value c)).prod_eq.trans partition.product
  have distinct_values : (factors.map (value c)).Nodup := by
    refine nodup_of_squarefree _ (fun h member => ?_) (partition.product.symm ▸ squarefree)
    obtain ⟨other, inside, rfl⟩ := List.mem_map.mp member
    exact (partition.proper other inside).not_isUnit
  have distinct : factors.Nodup := List.Nodup.of_map _ distinct_values
  have unit : wordsValid c [1] = true := wordsValid_iff.mpr ⟨by simp, clean_one⟩
  refine .bind (multiplyFactors_eq (sortFactors factors) (fun other member =>
    (partition.proper other (members other member)).clean) [1] unit) ?_
  rintro total ⟨valid_total, total_value⟩
  have equal : total = words := by
    refine (wordsValid_iff.mp valid_total).2.unique clean ?_
    rw [total_value, value_one, one_mul, product]
  refine .ite (fun unequal => absurd unequal (by simp [equal, valid])) (fun _ => .pure ⟨?_, ?_, ?_, ?_, ?_, ?_, product⟩)
  · exact fun other member => (partition.proper other (members other member)).valid
  · exact fun other member => (partition.proper other (members other member)).monic
  · exact fun other member => irreducible other (members other member)
  · exact (permutation.map (value c)).nodup_iff.mpr distinct_values
  · exact sortFactors_sorted distinct
  · rw [permutation.length_eq, full, finrank_frobeniusKernel nonzero squarefree]

/-- On any workspace, whose contexts have been admitted with their primes, the published factors are
the complete factorization, and whatever stops the call, it is not a corrupt document and
nothing has been published. -/
theorem factor_square_free (p out : Nat) (w : Workspace) :
    wp (fpolyFactorSquareFree p out)
      (fun _ t => ∃ c f id factors, Holds w c p f ∧ w.contextOf p = some id ∧ Factored c f factors ∧
        t.factorizations out = some ⟨id, factors.map (Fpoly.mk id)⟩)
      (fun stop t => stop ≠ .corruptDocument ∧ t.factorizations = w.factorizations) w := by
  unfold fpolyFactorSquareFree
  simp only [wp_bind, wp_get]
  refine wp_ite (fun _ => ⟨by decide, rfl⟩) (fun checked => ?_)
  simp only [Bool.not_eq_true', Bool.not_eq_false, Bool.and_eq_true] at checked
  obtain ⟨id, c, b, context, operand⟩ := polynomialValid_operand checked.1.1
  have located : w.contextOf p = some id := by rw [Workspace.contextOf, operand.located]; rfl
  refine wp_ite (fun _ => ⟨by decide, rfl⟩) (fun admitted => ?_)
  have long : 2 ≤ (w.wordsOf p).length := by omega
  have monic : leading (w.wordsOf p) = 1 := by omega
  rw [wp_bind]
  refine wp_mono (onContext_spec operand context (computes_begin (factorWords_eq operand.valid long monic))) ?_ ?_
  · rintro factors _ ⟨factored, b', rfl⟩
    simp only [wp_modify]
    refine ⟨c, _, id, factors, operand.holds context, located, factored, ?_⟩
    simp [located]
  · rintro stop _ ⟨harmless, b', rfl⟩
    exact ⟨harmless, rfl⟩

end PhyNspire.FinitePoly.Factors

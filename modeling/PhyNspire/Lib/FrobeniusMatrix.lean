import Mathlib.FieldTheory.Finite.Basic
import Mathlib.RingTheory.SimpleRing.Principal
import PhyNspire.Lib.RowReduction

/-!
The fixed space of the Frobenius map on the residues modulo a square-free polynomial.

A residue is fixed exactly when it is constant modulo every irreducible factor, so the fixed
space has one dimension for each factor, and a divisor modulo which every fixed residue is
constant is irreducible.
-/

namespace PhyNspire.Lib.FrobeniusKernel
open Polynomial UniqueFactorizationMonoid

variable {K : Type} [Field K]

theorem eq_zero_of_dvd_C {r : K[X]} (prime : Prime r) {c : K} (divides : r ∣ C c) : c = 0 := by
  by_contra nonzero
  exact prime.not_isUnit (isUnit_of_dvd_unit divides (isUnit_C.mpr (Ne.isUnit nonzero)))

theorem nodup_of_squarefree (factors : List K[X]) (proper : ∀ h ∈ factors, ¬IsUnit h)
    (squarefree : Squarefree factors.prod) : factors.Nodup := by
  induction factors with
  | nil => exact List.nodup_nil
  | cons h rest ih =>
    rw [List.prod_cons] at squarefree
    refine List.nodup_cons.mpr ⟨fun member => ?_, ih (fun g inside => proper g (List.mem_cons_of_mem h inside))
      (squarefree.squarefree_of_dvd (dvd_mul_left _ _))⟩
    exact proper h List.mem_cons_self (squarefree h (mul_dvd_mul_left h (List.dvd_prod member)))

section
variable [DecidableEq K] {f : K[X]}

theorem prime_of_factor {r : K[X]} (member : r ∈ normalizedFactors f) : Prime r := prime_of_normalized_factor r member

theorem factors_coprime {r s : K[X]} (member : r ∈ normalizedFactors f) (member' : s ∈ normalizedFactors f)
    (different : r ≠ s) : IsCoprime r s :=
  ((prime_of_factor member).irreducible.coprime_iff_not_dvd).mpr fun divides =>
    different (normalizedFactors_eq_of_dvd f r member s member' divides)

theorem dvd_of_factors (nonzero : f ≠ 0) (squarefree : Squarefree f) {h : K[X]}
    (divides : ∀ r ∈ normalizedFactors f, r ∣ h) : f ∣ h := by
  classical
  have nodup := (squarefree_iff_nodup_normalizedFactors nonzero).mp squarefree
  refine (prod_normalizedFactors nonzero).symm.dvd.trans ?_
  have product : (normalizedFactors f).prod = ∏ r ∈ (normalizedFactors f).toFinset, r := by
    rw [Finset.prod, Multiset.toFinset_val, nodup.dedup, Multiset.map_id']
  rw [product]
  refine Finset.prod_dvd_of_coprime ?_ fun r member => divides r (Multiset.mem_toFinset.mp member)
  intro r member s member' different
  exact factors_coprime (Multiset.mem_toFinset.mp member) (Multiset.mem_toFinset.mp member') different

theorem exists_indicator {r : K[X]} (member : r ∈ normalizedFactors f) :
    ∃ e : K[X], r ∣ e - 1 ∧ ∀ s ∈ normalizedFactors f, s ≠ r → s ∣ e := by
  classical
  have coprime : IsCoprime r (∏ s ∈ (normalizedFactors f).toFinset.erase r, s) := by
    refine IsCoprime.prod_right fun s inside => ?_
    obtain ⟨different, member'⟩ := Finset.mem_erase.mp inside
    exact factors_coprime member (Multiset.mem_toFinset.mp member') (Ne.symm different)
  obtain ⟨a, b, identity⟩ := coprime
  refine ⟨b * ∏ s ∈ (normalizedFactors f).toFinset.erase r, s, ⟨-a, ?_⟩, fun s member' different => ?_⟩
  · linear_combination identity
  · exact (Finset.dvd_prod_of_mem _
      (Finset.mem_erase.mpr ⟨different, Multiset.mem_toFinset.mpr member'⟩)).mul_left b

theorem factors_length (factors : List K[X]) (proper : ∀ h ∈ factors, h ≠ 0 ∧ ¬IsUnit h) :
    factors.length ≤ (normalizedFactors factors.prod).card ∧
      (factors.length = (normalizedFactors factors.prod).card → ∀ h ∈ factors, Irreducible h) := by
  induction factors with
  | nil => simp
  | cons h rest ih =>
    obtain ⟨bound, irreducible⟩ := ih fun g member => proper g (List.mem_cons_of_mem h member)
    obtain ⟨nonzero, not_unit⟩ := proper h List.mem_cons_self
    have rest_nonzero : rest.prod ≠ 0 := List.prod_ne_zero fun zero =>
      (proper 0 (List.mem_cons_of_mem h zero)).1 rfl
    rw [List.prod_cons, normalizedFactors_mul nonzero rest_nonzero, Multiset.card_add, List.length_cons]
    obtain ⟨r, member⟩ := exists_mem_normalizedFactors nonzero not_unit
    have positive : 0 < (normalizedFactors h).card := Multiset.card_pos_iff_exists_mem.mpr ⟨r, member⟩
    refine ⟨by omega, fun same g inside => ?_⟩
    rcases List.mem_cons.mp inside with rfl | later
    · obtain ⟨s, single⟩ := Multiset.card_eq_one.mp (by omega : (normalizedFactors g).card = 1)
      have associated := prod_normalizedFactors nonzero
      rw [single, Multiset.prod_singleton] at associated
      have prime : Prime s := prime_of_normalized_factor s (by rw [single]; exact Multiset.mem_singleton_self s)
      exact associated.irreducible prime.irreducible
    · exact irreducible (by omega) g later

theorem length_of_irreducible (factors : List K[X]) (irreducible : ∀ h ∈ factors, Irreducible h) :
    (normalizedFactors factors.prod).card = factors.length := by
  induction factors with
  | nil => simp
  | cons h rest ih =>
    have tail : ∀ g ∈ rest, Irreducible g := fun g member => irreducible g (List.mem_cons_of_mem h member)
    have rest_nonzero : rest.prod ≠ 0 := List.prod_ne_zero fun zero => (tail 0 zero).ne_zero rfl
    have first := irreducible h List.mem_cons_self
    rw [List.prod_cons, normalizedFactors_mul first.ne_zero rest_nonzero, Multiset.card_add,
      normalizedFactors_irreducible first, Multiset.card_singleton, ih tail, List.length_cons, Nat.add_comm]

end

def ConstantModulo (h g : K[X]) : Prop := ∃ c : K, h ∣ g - C c

section
variable {h h' g g' : K[X]}

theorem ConstantModulo.of_dvd (constant : ConstantModulo h g) (divides : h' ∣ h) : ConstantModulo h' g := by
  obtain ⟨c, level⟩ := constant
  exact ⟨c, divides.trans level⟩

theorem ConstantModulo.congr (constant : ConstantModulo h g) (congruent : h ∣ g' - g) : ConstantModulo h g' := by
  obtain ⟨c, level⟩ := constant
  refine ⟨c, ?_⟩
  rw [← sub_add_sub_cancel g' g]
  exact dvd_add congruent level

theorem ConstantModulo.sum {ι : Type} (s : Finset ι) (a : ι → K) (b : ι → K[X])
    (constant : ∀ i ∈ s, ConstantModulo h (b i)) : ConstantModulo h (∑ i ∈ s, C (a i) * b i) := by
  classical
  induction s using Finset.induction_on with
  | empty => exact ⟨0, by simp⟩
  | insert i s fresh ih =>
    obtain ⟨c, level⟩ := constant i (Finset.mem_insert_self i s)
    obtain ⟨d, level'⟩ := ih fun j member => constant j (Finset.mem_insert_of_mem member)
    refine ⟨a i * c + d, ?_⟩
    have split : C (a i) * b i + ∑ j ∈ s, C (a j) * b j - C (a i * c + d) =
        C (a i) * (b i - C c) + (∑ j ∈ s, C (a j) * b j - C d) := by
      rw [C_add, C_mul]
      ring
    rw [Finset.sum_insert fresh, split]
    exact dvd_add (level.mul_left _) level'

/-- A polynomial either divides another or has nothing in common with it. -/
def Decided (h g : K[X]) : Prop := h ∣ g ∨ IsCoprime h g

theorem Decided.of_dvd (decided : Decided h g) (divides : h' ∣ h) : Decided h' g :=
  decided.imp divides.trans fun coprime => coprime.of_isCoprime_of_dvd_left divides

theorem decided_of_irreducible (irreducible : Irreducible h) (g : K[X]) : Decided h g := by
  by_cases divides : h ∣ g
  · exact .inl divides
  · exact .inr ((irreducible.coprime_iff_not_dvd).mpr divides)

theorem decided_quotient {d q : K[X]} (squarefree : Squarefree (d * q))
    (greatest : ∀ e, e ∣ d * q → e ∣ g → e ∣ d) : Decided q g := by
  have coprime : IsRelPrime d q := (squarefree_mul_iff.mp squarefree).1
  refine .inr (isRelPrime_iff_isCoprime.mp fun e divides divides' => ?_)
  exact coprime (greatest e (divides.mul_left d) divides') divides

end

variable [Fintype K]

noncomputable def frobeniusKernel (f : K[X]) : Submodule K (AdjoinRoot f) :=
  LinearMap.ker ((FiniteField.frobeniusAlgHom K (AdjoinRoot f)).toLinearMap - LinearMap.id)

def Fixed (f g : K[X]) : Prop := f ∣ g ^ Fintype.card K - g

theorem mk_mem_frobeniusKernel {f g : K[X]} : AdjoinRoot.mk f g ∈ frobeniusKernel f ↔ Fixed f g := by
  rw [frobeniusKernel, LinearMap.mem_ker, LinearMap.sub_apply, Fixed, ← AdjoinRoot.mk_eq_zero, map_sub, map_pow]
  rfl

theorem pow_card_sub (g : K[X]) : g ^ Fintype.card K - g = ∏ c : K, (g - C c) := by
  have monic : (X ^ Fintype.card K - X : K[X]).Monic :=
    monic_X_pow_sub (by rw [degree_X]; exact_mod_cast Fintype.one_lt_card)
  have roots := FiniteField.roots_X_pow_card_sub_X K
  have degree := FiniteField.X_pow_card_sub_X_natDegree_eq K ((Fintype.one_lt_card : 1 < Fintype.card K))
  have split := prod_multiset_X_sub_C_of_monic_of_roots_card_eq monic (by
    rw [roots, degree]
    rfl)
  rw [roots] at split
  have composed := congrArg (fun h => h.comp g) split
  simp only [sub_comp, pow_comp, X_comp] at composed
  rw [← composed]
  exact (prod_comp Finset.univ (fun c => X - C c) g).trans (Finset.prod_congr rfl fun c _ => by simp)

theorem constant_of_decided {f g h : K[X]} (fixed : Fixed f g) (divides : h ∣ f) (proper : ¬IsUnit h)
    (decided : ∀ c : K, Decided h (g - C c)) : ConstantModulo h g := by
  by_contra never
  have coprime : IsCoprime h (∏ c : K, (g - C c)) :=
    IsCoprime.prod_right fun c _ => (decided c).resolve_left fun level => never ⟨c, level⟩
  have whole : h ∣ ∏ c : K, (g - C c) := by
    rw [← pow_card_sub]
    exact divides.trans fixed
  exact proper (coprime.isUnit_of_dvd' dvd_rfl whole)

theorem Fixed.constant {f g r : K[X]} (fixed : Fixed f g) (prime : Prime r) (divides : r ∣ f) : ConstantModulo r g := by
  have product := divides.trans fixed
  rw [pow_card_sub] at product
  obtain ⟨c, _, here⟩ := (Prime.dvd_finsetProd_iff prime _).mp product
  exact ⟨c, here⟩

section
variable [DecidableEq K] {f : K[X]}

theorem fixed_of_constant (nonzero : f ≠ 0) (squarefree : Squarefree f) {g : K[X]}
    (constant : ∀ r ∈ normalizedFactors f, ConstantModulo r g) : Fixed f g := by
  refine dvd_of_factors nonzero squarefree fun r member => ?_
  obtain ⟨c, divides⟩ := constant r member
  rw [pow_card_sub]
  exact divides.trans (Finset.dvd_prod_of_mem _ (Finset.mem_univ c))

/-- The fixed space has one dimension for each irreducible factor. -/
theorem finrank_frobeniusKernel (nonzero : f ≠ 0) (squarefree : Squarefree f) :
    Module.finrank K (frobeniusKernel f) = (normalizedFactors f).card := by
  classical
  have indicators := fun r : {r // r ∈ (normalizedFactors f).toFinset} =>
    exists_indicator (Multiset.mem_toFinset.mp r.property)
  choose e one zero using indicators
  let combination : ({r // r ∈ (normalizedFactors f).toFinset} → K) → K[X] := fun w => ∑ r, C (w r) * e r
  have residue : ∀ w (r : {r // r ∈ (normalizedFactors f).toFinset}), r.val ∣ combination w - C (w r) := by
    intro w r
    have split : combination w - C (w r) = C (w r) * (e r - 1) + ∑ s ∈ Finset.univ.erase r, C (w s) * e s := by
      have whole := Finset.add_sum_erase Finset.univ (fun s => C (w s) * e s) (Finset.mem_univ r)
      change ∑ s, C (w s) * e s - C (w r) = _
      rw [← whole]
      ring
    rw [split]
    refine dvd_add ((one r).mul_left _) (Finset.dvd_sum fun s inside => ?_)
    have different : r.val ≠ s.val := fun same => (Finset.mem_erase.mp inside).1 (Subtype.ext same.symm)
    exact (zero s r.val (Multiset.mem_toFinset.mp r.property) different).mul_left _
  let embed : ({r // r ∈ (normalizedFactors f).toFinset} → K) →ₗ[K] AdjoinRoot f :=
    { toFun := fun w => AdjoinRoot.mk f (combination w)
      map_add' := fun v w => by
        rw [← map_add]
        congr 1
        simp only [combination, Pi.add_apply, C_add, add_mul, Finset.sum_add_distrib]
      map_smul' := fun a w => by
        rw [RingHom.id_apply, AdjoinRoot.smul_mk]
        congr 1
        simp only [combination, Pi.smul_apply, smul_eq_mul, C_mul, mul_assoc, Finset.smul_sum, smul_eq_C_mul] }
  have injective : Function.Injective embed := by
    intro v w same
    funext r
    have divides : f ∣ combination v - combination w := by
      rw [← AdjoinRoot.mk_eq_zero, map_sub]
      exact sub_eq_zero.mpr same
    have factor := (dvd_of_mem_normalizedFactors (Multiset.mem_toFinset.mp r.property)).trans divides
    have constant : r.val ∣ C (v r - w r) := by
      have split : C (v r - w r) = combination v - combination w - (combination v - C (v r)) +
          (combination w - C (w r)) := by
        rw [C_sub]
        ring
      rw [split]
      exact dvd_add (dvd_sub factor (residue v r)) (residue w r)
    exact sub_eq_zero.mp (eq_zero_of_dvd_C (prime_of_factor (Multiset.mem_toFinset.mp r.property)) constant)
  have range : LinearMap.range embed = frobeniusKernel f := by
    ext x
    obtain ⟨g, rfl⟩ := AdjoinRoot.mk_surjective x
    rw [LinearMap.mem_range, mk_mem_frobeniusKernel]
    constructor
    · rintro ⟨w, same⟩
      refine fixed_of_constant nonzero squarefree fun r member => ?_
      refine ⟨w ⟨r, Multiset.mem_toFinset.mpr member⟩, ?_⟩
      have divides : f ∣ g - combination w := by
        rw [← AdjoinRoot.mk_eq_zero, map_sub]
        exact sub_eq_zero.mpr same.symm
      have split : g - C (w ⟨r, Multiset.mem_toFinset.mpr member⟩) =
          g - combination w + (combination w - C (w ⟨r, Multiset.mem_toFinset.mpr member⟩)) := by ring
      rw [split]
      exact dvd_add ((dvd_of_mem_normalizedFactors member).trans divides) (residue w ⟨r, _⟩)
    · intro fixed
      have constants := fun r : {r // r ∈ (normalizedFactors f).toFinset} =>
        fixed.constant (prime_of_factor (Multiset.mem_toFinset.mp r.property))
          (dvd_of_mem_normalizedFactors (Multiset.mem_toFinset.mp r.property))
      choose w divides using constants
      refine ⟨w, AdjoinRoot.mk_eq_mk.mpr (dvd_of_factors nonzero squarefree fun r member => ?_)⟩
      have split : combination w - g = combination w - C (w ⟨r, Multiset.mem_toFinset.mpr member⟩) -
          (g - C (w ⟨r, Multiset.mem_toFinset.mpr member⟩)) := by ring
      rw [split]
      exact dvd_sub (residue w ⟨r, _⟩) (divides ⟨r, _⟩)
  have nodup := (squarefree_iff_nodup_normalizedFactors nonzero).mp squarefree
  rw [← range, LinearMap.finrank_range_of_inj injective, Module.finrank_fintype_fun_eq_card, Fintype.card_coe,
    Multiset.card_toFinset, nodup.dedup]

theorem irreducible_of_constant (nonzero : f ≠ 0) (squarefree : Squarefree f) {h : K[X]} (divides : h ∣ f)
    (proper : ¬IsUnit h) (constant : ∀ g, Fixed f g → ConstantModulo h g) : Irreducible h := by
  have nonzero_h : h ≠ 0 := fun zero => nonzero (zero_dvd_iff.mp (zero ▸ divides))
  obtain ⟨r, member_h⟩ := exists_mem_normalizedFactors nonzero_h proper
  have included : normalizedFactors h ≤ normalizedFactors f :=
    (dvd_iff_normalizedFactors_le_normalizedFactors nonzero_h nonzero).mp divides
  have member := Multiset.mem_of_le included member_h
  obtain ⟨e, one, zero⟩ := exists_indicator member
  have fixed : Fixed f e := by
    refine fixed_of_constant nonzero squarefree fun s member' => ?_
    by_cases same : s = r
    · exact ⟨1, by rw [same, C_1]; exact one⟩
    · exact ⟨0, by rw [C_0, sub_zero]; exact zero s member' same⟩
  obtain ⟨c, level⟩ := constant e fixed
  have level_r := (dvd_of_mem_normalizedFactors member_h).trans level
  -- Modulo the first factor the constant is one, so no other factor can divide.
  have c_one : c = 1 := by
    have difference : r ∣ C (c - 1) := by
      have split : C (c - 1) = e - 1 - (e - C c) := by
        rw [C_sub, C_1]
        ring
      rw [split]
      exact dvd_sub one level_r
    exact sub_eq_zero.mp (eq_zero_of_dvd_C (prime_of_factor member) difference)
  have only : ∀ s ∈ normalizedFactors h, s = r := by
    intro s member_s
    by_contra different
    have divides_e := zero s (Multiset.mem_of_le included member_s) different
    have level_s := (dvd_of_mem_normalizedFactors member_s).trans level
    have unit : s ∣ C c := by
      have split : C c = e - (e - C c) := by ring
      rw [split]
      exact dvd_sub divides_e level_s
    have := eq_zero_of_dvd_C (prime_of_factor member_s) unit
    rw [c_one] at this
    exact one_ne_zero this
  have nodup : (normalizedFactors h).Nodup :=
    Multiset.nodup_of_le included ((squarefree_iff_nodup_normalizedFactors nonzero).mp squarefree)
  have single : normalizedFactors h = {r} := by
    refine (Multiset.Nodup.ext nodup (Multiset.nodup_singleton r)).mpr fun s => ?_
    rw [Multiset.mem_singleton]
    exact ⟨only s, fun same => same ▸ member_h⟩
  have associated := prod_normalizedFactors nonzero_h
  rw [single, Multiset.prod_singleton] at associated
  exact associated.irreducible (prime_of_factor member).irreducible

end

end PhyNspire.Lib.FrobeniusKernel

/-!
The matrix of Frobenius minus the identity in the basis of the powers of x, whose null space
is the fixed space.
-/

namespace PhyNspire.Lib.FrobeniusMatrix
open Polynomial RowReduction FrobeniusKernel

variable {K : Type} [Field K]

/-- The polynomial with the entries of a vector as coefficients. -/
noncomputable def polyOf {size : Nat} (v : Fin size → K) : K[X] := ∑ j : Fin size, C (v j) * X ^ j.val

section
variable {size : Nat}

theorem coeff_polyOf (v : Fin size → K) (i : Fin size) : (polyOf v).coeff i.val = v i := by
  rw [polyOf, finsetSum_coeff, Finset.sum_eq_single i]
  · simp
  · intro j _ different
    rw [coeff_C_mul, coeff_X_pow, if_neg fun same => different (Fin.ext same.symm), mul_zero]
  · exact fun absent => absurd (Finset.mem_univ i) absent

theorem degree_polyOf_lt (v : Fin size → K) : (polyOf v).degree < size := by
  refine (degree_lt_iff_coeff_zero _ _).mpr fun i above => ?_
  rw [polyOf, finsetSum_coeff]
  refine Finset.sum_eq_zero fun j _ => ?_
  rw [coeff_C_mul, coeff_X_pow, if_neg (by have := j.isLt; omega), mul_zero]

theorem polyOf_coeffs {g : K[X]} (short : g.degree < size) : polyOf (fun j : Fin size => g.coeff j.val) = g := by
  ext i
  rcases Nat.lt_or_ge i size with inside | past
  · exact coeff_polyOf (fun j : Fin size => g.coeff j.val) ⟨i, inside⟩
  · rw [(degree_lt_iff_coeff_zero _ _).mp (degree_polyOf_lt _) i past,
      (degree_lt_iff_coeff_zero _ _).mp short i past]

theorem polyOf_add (v w : Fin size → K) : polyOf (v + w) = polyOf v + polyOf w := by
  simp only [polyOf, Pi.add_apply, C_add, add_mul, Finset.sum_add_distrib]

theorem polyOf_smul (a : K) (v : Fin size → K) : polyOf (a • v) = C a * polyOf v := by
  simp only [polyOf, Pi.smul_apply, smul_eq_mul, C_mul, mul_assoc, Finset.mul_sum]

theorem polyOf_sum {ι : Type} (s : Finset ι) (v : ι → Fin size → K) : polyOf (∑ i ∈ s, v i) = ∑ i ∈ s, polyOf (v i) := by
  classical
  induction s using Finset.induction_on with
  | empty => simp [polyOf]
  | insert i s fresh ih => rw [Finset.sum_insert fresh, Finset.sum_insert fresh, polyOf_add, ih]

end

variable [Fintype K]

/-- The residue of each power, less the power itself. -/
noncomputable def frobeniusMatrix (f : K[X]) (row column : Nat) : K :=
  (X ^ (Fintype.card K * column) % f).coeff row - if row = column then 1 else 0

variable {f : K[X]}

theorem combination_eq (v : Fin f.natDegree → K) (row : Fin f.natDegree) :
    (∑ j : Fin f.natDegree, C (v j) * (X ^ (Fintype.card K * j.val) % f - X ^ j.val)).coeff row.val =
      rowProduct (frobeniusMatrix f) v row.val := by
  rw [finsetSum_coeff, rowProduct]
  refine Finset.sum_congr rfl fun j _ => ?_
  rw [coeff_C_mul, coeff_sub, coeff_X_pow, frobeniusMatrix, mul_comm]

theorem combination_congruent (v : Fin f.natDegree → K) :
    f ∣ polyOf v ^ Fintype.card K - polyOf v -
      ∑ j : Fin f.natDegree, C (v j) * (X ^ (Fintype.card K * j.val) % f - X ^ j.val) := by
  have power : polyOf v ^ Fintype.card K = ∑ j : Fin f.natDegree, C (v j) * X ^ (Fintype.card K * j.val) := by
    change FiniteField.frobeniusAlgHom K K[X] (polyOf v) = _
    rw [polyOf, map_sum]
    refine Finset.sum_congr rfl fun j _ => ?_
    rw [FiniteField.coe_frobeniusAlgHom]
    simp only [mul_pow, ← C_pow, FiniteField.pow_card, ← pow_mul, mul_comm]
  have split : polyOf v ^ Fintype.card K - polyOf v -
      ∑ j : Fin f.natDegree, C (v j) * (X ^ (Fintype.card K * j.val) % f - X ^ j.val) =
      ∑ j : Fin f.natDegree, C (v j) * (X ^ (Fintype.card K * j.val) - X ^ (Fintype.card K * j.val) % f) := by
    rw [power, polyOf, ← Finset.sum_sub_distrib, ← Finset.sum_sub_distrib]
    exact Finset.sum_congr rfl fun j _ => by ring
  rw [split]
  refine Finset.dvd_sum fun j _ => Dvd.dvd.mul_left ?_ _
  rw [EuclideanDomain.mod_eq_sub_mul_div, sub_sub_cancel]
  exact dvd_mul_right _ _

theorem degree_combination_lt (nonzero : f ≠ 0) (v : Fin f.natDegree → K) :
    (∑ j : Fin f.natDegree, C (v j) * (X ^ (Fintype.card K * j.val) % f - X ^ j.val)).degree < (f.natDegree : WithBot ℕ) := by
  refine (degree_lt_iff_coeff_zero _ _).mpr fun i past => ?_
  rw [finsetSum_coeff]
  refine Finset.sum_eq_zero fun j _ => ?_
  have residue : (X ^ (Fintype.card K * j.val) % f).coeff i = 0 := by
    refine coeff_eq_zero_of_degree_lt ((EuclideanDomain.mod_lt _ nonzero).trans_le ?_)
    exact degree_le_natDegree.trans (by exact_mod_cast past)
  have inside := j.isLt
  rw [coeff_C_mul, coeff_sub, residue, coeff_X_pow, if_neg (by omega), sub_zero, mul_zero]

theorem mem_nullSpace_iff (nonzero : f ≠ 0) (v : Fin f.natDegree → K) :
    v ∈ nullSpace (frobeniusMatrix f) f.natDegree ↔ Fixed f (polyOf v) := by
  have short := degree_combination_lt nonzero v
  rw [mem_nullSpace, Fixed, dvd_iff_dvd_of_dvd_sub (combination_congruent v)]
  constructor
  · intro zero
    have vanishes : ∑ j : Fin f.natDegree, C (v j) * (X ^ (Fintype.card K * j.val) % f - X ^ j.val) = 0 := by
      ext i
      rcases Nat.lt_or_ge i f.natDegree with inside | past
      · exact (combination_eq v ⟨i, inside⟩).trans (zero i inside)
      · exact (degree_lt_iff_coeff_zero _ _).mp short i past
    rw [vanishes]
    exact dvd_zero f
  · intro divides row inside
    rw [← combination_eq v ⟨row, inside⟩,
      eq_zero_of_dvd_of_degree_lt divides (short.trans_le (degree_eq_natDegree nonzero).ge), coeff_zero]

theorem finrank_nullSpace (nonzero : f ≠ 0) :
    Module.finrank K (nullSpace (frobeniusMatrix f) f.natDegree) = Module.finrank K (frobeniusKernel f) := by
  let residue : nullSpace (frobeniusMatrix f) f.natDegree →ₗ[K] AdjoinRoot f :=
    { toFun := fun v => AdjoinRoot.mk f (polyOf v.val)
      map_add' := fun v w => by rw [Submodule.coe_add, polyOf_add, map_add]
      map_smul' := fun a v => by
        rw [Submodule.coe_smul, polyOf_smul, ← smul_eq_C_mul, RingHom.id_apply, AdjoinRoot.smul_mk] }
  have injective : Function.Injective residue := by
    intro v w same
    have divides : f ∣ polyOf (v.val - w.val) := by
      rw [sub_eq_add_neg, ← neg_one_smul K, polyOf_add, polyOf_smul, C_neg, C_1, neg_one_mul, ← sub_eq_add_neg]
      exact AdjoinRoot.mk_eq_mk.mp same
    have zero := eq_zero_of_dvd_of_degree_lt divides
      ((degree_polyOf_lt _).trans_le (degree_eq_natDegree nonzero).ge)
    refine Subtype.ext (funext fun j => sub_eq_zero.mp ?_)
    rw [← Pi.sub_apply, ← coeff_polyOf (v.val - w.val) j, zero, coeff_zero]
  have range : LinearMap.range residue = frobeniusKernel f := by
    ext x
    obtain ⟨g, rfl⟩ := AdjoinRoot.mk_surjective x
    rw [LinearMap.mem_range]
    constructor
    · rintro ⟨v, same⟩
      rw [← same]
      exact mk_mem_frobeniusKernel.mpr ((mem_nullSpace_iff nonzero v.val).mp v.property)
    · intro member
      have short : (g % f).degree < f.natDegree :=
        (EuclideanDomain.mod_lt _ nonzero).trans_le degree_le_natDegree
      have same : AdjoinRoot.mk f (g % f) = AdjoinRoot.mk f g := by
        refine AdjoinRoot.mk_eq_mk.mpr ⟨-(g / f), ?_⟩
        rw [EuclideanDomain.mod_eq_sub_mul_div]
        ring
      refine ⟨⟨fun j => (g % f).coeff j.val, (mem_nullSpace_iff nonzero _).mpr ?_⟩, ?_⟩
      · rw [polyOf_coeffs short, ← mk_mem_frobeniusKernel, same]
        exact member
      · change AdjoinRoot.mk f (polyOf _) = _
        rw [polyOf_coeffs short, same]
  rw [← range, LinearMap.finrank_range_of_inj injective]

end PhyNspire.Lib.FrobeniusMatrix

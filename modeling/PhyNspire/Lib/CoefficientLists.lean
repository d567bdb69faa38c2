import Mathlib.Algebra.Polynomial.Degree.Lemmas
import Mathlib.Data.List.DropRight
import Mathlib.Data.List.GetD

/-!
Polynomials written as lists of coefficients, lowest degree first. Every list lemma here has
its polynomial counterpart on the other side of an equation, so that a loop over a list is an
induction that ends with `ring`.
-/

namespace PhyNspire.Lib.CoefficientLists
open Polynomial

variable {R : Type} [CommRing R]

noncomputable def ofCoefficients : List R → R[X]
  | [] => 0
  | a :: rest => C a + X * ofCoefficients rest

@[simp] theorem ofCoefficients_nil : ofCoefficients ([] : List R) = 0 := rfl

@[simp] theorem ofCoefficients_cons (a : R) (rest : List R) :
    ofCoefficients (a :: rest) = C a + X * ofCoefficients rest := rfl

theorem coeff_ofCoefficients (words : List R) (i : Nat) : (ofCoefficients words).coeff i = words.getD i 0 := by
  induction words generalizing i with
  | nil => simp
  | cons a rest ih =>
    cases i with
    | zero => simp
    | succ i => simp [coeff_X_mul, coeff_C_succ, ih]

theorem ofCoefficients_append (low high : List R) :
    ofCoefficients (low ++ high) = ofCoefficients low + X ^ low.length * ofCoefficients high := by
  induction low with
  | nil => simp
  | cons a rest ih =>
    rw [List.cons_append, ofCoefficients_cons, ofCoefficients_cons, ih, List.length_cons]
    ring

theorem ofCoefficients_replicate_zero (count : Nat) : ofCoefficients (List.replicate count (0 : R)) = 0 := by
  induction count with
  | zero => rfl
  | succ count ih => simp [List.replicate_succ, ih]

theorem ofCoefficients_set {words : List R} {i : Nat} (inside : i < words.length) (a : R) :
    ofCoefficients (words.set i a) = ofCoefficients words + C (a - words.getD i 0) * X ^ i := by
  induction words generalizing i with
  | nil => exact absurd inside (Nat.not_lt_zero i)
  | cons b rest ih =>
    cases i with
    | zero =>
      simp only [List.set_cons_zero, ofCoefficients_cons, List.getD_cons_zero, pow_zero, mul_one, C_sub]
      ring
    | succ i =>
      have less : i < rest.length := Nat.lt_of_succ_lt_succ inside
      rw [List.set_cons_succ, ofCoefficients_cons, ofCoefficients_cons, ih less, List.getD_cons_succ]
      ring

theorem ofCoefficients_map_mul (a : R) (words : List R) :
    ofCoefficients (words.map (a * ·)) = C a * ofCoefficients words := by
  induction words with
  | nil => simp
  | cons b rest ih =>
    rw [List.map_cons, ofCoefficients_cons, ofCoefficients_cons, ih, C_mul]
    ring

theorem degree_lt (words : List R) : (ofCoefficients words).degree < words.length := by
  rw [degree_lt_iff_coeff_zero]
  intro i above
  rw [coeff_ofCoefficients, List.getD_eq_getElem?_getD, List.getElem?_eq_none (by exact_mod_cast above)]
  rfl

/-- The last coefficient is not zero. -/
def Trimmed (words : List R) : Prop := ∀ nonempty : words ≠ [], words.getLast nonempty ≠ 0

section
variable {words : List R}

theorem getLast_eq_coeff (nonempty : words ≠ []) :
    words.getLast nonempty = (ofCoefficients words).coeff (words.length - 1) := by
  have inside : words.length - 1 < words.length := Nat.sub_lt (List.length_pos_of_ne_nil nonempty) Nat.one_pos
  rw [coeff_ofCoefficients, List.getLast_eq_getElem, List.getD_eq_getElem _ _ inside]

theorem Trimmed.natDegree (trimmed : Trimmed words) (nonempty : words ≠ []) :
    (ofCoefficients words).natDegree = words.length - 1 := by
  refine le_antisymm ?_ ?_
  · rw [natDegree_le_iff_coeff_eq_zero]
    intro i above
    have past : words.length ≤ i := by omega
    rw [coeff_ofCoefficients, List.getD_eq_getElem?_getD, List.getElem?_eq_none past]
    rfl
  · refine le_natDegree_of_ne_zero ?_
    rw [← getLast_eq_coeff nonempty]
    exact trimmed nonempty

theorem Trimmed.eq_zero_iff (trimmed : Trimmed words) : ofCoefficients words = 0 ↔ words = [] := by
  constructor
  · intro zero
    by_contra nonempty
    refine trimmed nonempty ?_
    rw [getLast_eq_coeff nonempty, zero, coeff_zero]
  · rintro rfl
    rfl

theorem Trimmed.degree (trimmed : Trimmed words) (nonempty : words ≠ []) :
    (ofCoefficients words).degree = ((words.length - 1 : Nat) : WithBot Nat) := by
  have nonzero : ofCoefficients words ≠ 0 := fun zero => nonempty (trimmed.eq_zero_iff.mp zero)
  rw [degree_eq_natDegree nonzero, trimmed.natDegree nonempty]

theorem Trimmed.length_le_of_degree_lt (trimmed : Trimmed words) {bound : Nat}
    (below : (ofCoefficients words).degree < bound) : words.length ≤ bound := by
  by_cases nonempty : words = []
  · simp [nonempty]
  · rw [trimmed.degree nonempty] at below
    have : words.length - 1 < bound := by exact_mod_cast below
    have := List.length_pos_of_ne_nil nonempty
    omega

theorem Trimmed.unique {words' : List R} (trimmed : Trimmed words) (trimmed' : Trimmed words')
    (same : ofCoefficients words = ofCoefficients words') : words = words' := by
  have first := trimmed.length_le_of_degree_lt (by rw [same]; exact degree_lt words')
  have second := trimmed'.length_le_of_degree_lt (by rw [← same]; exact degree_lt words)
  refine List.ext_getElem (le_antisymm first second) fun i inside inside' => ?_
  have coefficients := congrArg (fun q => coeff q i) same
  simpa only [coeff_ofCoefficients, List.getD_eq_getElem _ _ inside, List.getD_eq_getElem _ _ inside'] using coefficients

end

end PhyNspire.Lib.CoefficientLists

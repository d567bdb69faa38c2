import PhyNspire.Cas.Engine
import PhyNspire.Cas.Polynomials

/-!
The polynomial engine with one half: the symbol 0 stands for it. The other symbols are
variables.
-/

namespace PhyNspire.Cas
open Lib.RationalFunctions

/-- The symbol 0 is read as one half. -/
noncomputable def halve : MvPolynomial Nat ℚ →ₐ[ℚ] MvPolynomial Nat ℚ :=
  MvPolynomial.aeval (fun i => if i = 0 then MvPolynomial.C (1 / 2) else MvPolynomial.X i)

noncomputable def halvesMap : MvPolynomial Nat ℚ →+* RationalFunction Nat :=
  (algebraMap (MvPolynomial Nat ℚ) (RationalFunction Nat)).comp halve.toRingHom

noncomputable def halvesValue (p : Poly) : Option (RationalFunction Nat) := some (halvesMap (Poly.eval p))

noncomputable def halvesPartial (symbol : Poly) : Derivation ℤ (RationalFunction Nat) (RationalFunction Nat) :=
  match symbol with
  | [(1, [i])] => if i = 0 then 0 else partialDerivative i
  | _ => 0

def halves (ir : Nat) : Engine Nat Poly where
  toCas := { polynomials ir with
    number := fun n d => spend (
      if d = 1 then .ok (Poly.insertTerm n [] [])
      else if d = 2 then .ok (Poly.insertTerm n [0] [])
      else .error .unsupported)
    diff := fun ref symbol => spend (
      match symbol with
      | [(1, [i])] => if i = 0 then .error .type else .ok (Poly.diffPoly i ref)
      | _ => .error .type) }
  integer n := spend (.ok (Poly.insertTerm n [] []))
  div _ _ := spend (.error .unsupported)
  equivalent left right := spend (.ok (if left = right then .zero else .unknown))
  exact _ := none

theorem halve_pderiv {i : Nat} (varies : i ≠ 0) (p : MvPolynomial Nat ℚ) :
    halve (MvPolynomial.pderiv i p) = MvPolynomial.pderiv i (halve p) := by
  induction p using MvPolynomial.induction_on with
  | C c =>
    have constant : halve (MvPolynomial.C c) = MvPolynomial.C c := MvPolynomial.aeval_C _ c
    rw [constant, MvPolynomial.pderiv_C, map_zero]
  | add p q first second => rw [map_add, map_add, first, second, map_add, map_add]
  | mul_X p j ih =>
    have symbol : halve (MvPolynomial.X j) = if j = 0 then MvPolynomial.C (1 / 2) else MvPolynomial.X j :=
      MvPolynomial.aeval_X _ j
    have derived : halve (MvPolynomial.pderiv i (MvPolynomial.X j)) = MvPolynomial.pderiv i (halve (MvPolynomial.X j)) := by
      rw [symbol]
      split_ifs with half
      · subst half
        rw [MvPolynomial.pderiv_C, MvPolynomial.pderiv_X_of_ne (Ne.symm varies), map_zero]
      · by_cases same : j = i
        · subst same
          rw [MvPolynomial.pderiv_X_self, map_one]
        · rw [MvPolynomial.pderiv_X_of_ne same, map_zero]
    rw [Derivation.leibniz, map_mul, Derivation.leibniz, map_add]
    simp only [smul_eq_mul, map_mul]
    rw [ih, derived]

theorem halvesMap_half (n : Int) : halvesMap (Poly.eval (Poly.insertTerm n [0] [])) = (n : RationalFunction Nat) / 2 := by
  have term : Poly.eval (Poly.insertTerm n [0] []) = ((n : Int) : MvPolynomial Nat ℚ) * MvPolynomial.X 0 := by
    rw [Poly.eval_insertTerm, List.map_cons, List.map_nil, List.prod_cons, List.prod_nil, mul_one, Poly.eval_nil, add_zero]
    exact congrArg (· * _) (map_intCast _ n)
  have half : halvesMap (MvPolynomial.X 0) * 2 = 1 := by
    have symbol : halve (MvPolynomial.X 0) = MvPolynomial.C (1 / 2) := (MvPolynomial.aeval_X _ 0).trans (if_pos rfl)
    have one : halve (MvPolynomial.X 0) * 2 = 1 := by
      rw [symbol, ← map_ofNat (MvPolynomial.C (σ := Nat) (R := ℚ)) 2, ← map_mul]
      norm_num
    have mapped := congrArg (algebraMap (MvPolynomial Nat ℚ) (RationalFunction Nat)) one
    rwa [map_mul, map_one, map_ofNat] at mapped
  rw [term, map_mul, map_intCast, eq_div_iff two_ne_zero, mul_assoc, half, mul_one]

theorem halves_exact (ir : Nat) : Exact (halves ir).toCas halvesValue halvesPartial :=
  exact_of_hom ir
    (fun n s => wp_spend s (fun result same => by
      rw [if_pos rfl, Except.ok.injEq] at same
      rw [← same, eval_int, map_intCast]))
    fun ref symbol s => wp_spend s (fun result same => by
      split at same
      · rename_i i
        by_cases half : i = 0
        · rw [if_pos half] at same
          cases same
        · rw [if_neg half, Except.ok.injEq] at same
          rw [← same, Poly.eval_diffPoly]
          change algebraMap _ _ (halve _) = _
          rw [halve_pderiv half, ← partialDerivative_algebraMap]
          exact congrArg (fun δ : Derivation ℤ _ _ => δ (halvesMap (Poly.eval ref))) (if_neg half).symm
      · cases same)

theorem halvesPartial_comm (first second : Poly) (x : RationalFunction Nat) :
    halvesPartial first (halvesPartial second x) = halvesPartial second (halvesPartial first x) := by
  have reduced (symbol : Poly) : halvesPartial symbol = 0 ∨ ∃ i, halvesPartial symbol = partialDerivative i := by
    unfold halvesPartial
    split
    · split_ifs
      · exact Or.inl rfl
      · exact Or.inr ⟨_, rfl⟩
    · exact Or.inl rfl
  rcases reduced first with none | ⟨i, one⟩
  · rw [none, Derivation.zero_apply, Derivation.zero_apply, map_zero]
  · rcases reduced second with none | ⟨j, other⟩
    · rw [none, Derivation.zero_apply, Derivation.zero_apply, map_zero]
    · rw [one, other, partialDerivative_comm]

end PhyNspire.Cas

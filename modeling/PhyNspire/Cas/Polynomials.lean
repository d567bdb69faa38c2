import PhyNspire.Cas.Scalars
import PhyNspire.Lib.RationalFunctions

/-!
A small exact engine: integer polynomials, kept as the list of their terms with a sorted
multiset of symbols in each. It computes by inserting terms into such lists, spends one step
of its budget on every call and is sound for the rational function that a list
denotes, which makes it a model of what is asked of a scalar engine.
-/

namespace PhyNspire.Cas
open Platform Lib.Stateful Lib.RationalFunctions

/-- Coefficients with the symbols they multiply. -/
abbrev Poly := List (Int × List Nat)

namespace Poly

def insertTerm (c : Int) (m : List Nat) : Poly → Poly
  | [] => if c = 0 then [] else [(c, m)]
  | (d, m') :: p =>
    if m = m' then (if c + d = 0 then p else (c + d, m) :: p)
    else if m < m' then (if c = 0 then (d, m') :: p else (c, m) :: (d, m') :: p)
    else (d, m') :: insertTerm c m p

def addPoly (p q : Poly) : Poly := p.foldr (fun term acc => insertTerm term.1 term.2 acc) q

def mulTerm (c : Int) (m : List Nat) (q : Poly) : Poly :=
  q.foldr (fun term acc => insertTerm (c * term.1) ((m ++ term.2).insertionSort (· ≤ ·)) acc) []

def mulPoly (p q : Poly) : Poly := p.foldr (fun term acc => addPoly (mulTerm term.1 term.2 q) acc) []

def negPoly (p : Poly) : Poly := p.map (fun term => (-term.1, term.2))

def diffPoly (i : Nat) (p : Poly) : Poly :=
  p.foldr (fun term acc => insertTerm (term.1 * term.2.count i) (term.2.erase i) acc) []

def symbol (i : Nat) : Poly := [(1, [i])]

noncomputable def eval (p : Poly) : MvPolynomial Nat ℚ :=
  (p.map (fun term => MvPolynomial.C (term.1 : ℚ) * (term.2.map MvPolynomial.X).prod)).sum

@[simp] theorem eval_nil : eval [] = 0 := rfl

@[simp] theorem eval_cons (c : Int) (m : List Nat) (p : Poly) :
    eval ((c, m) :: p) = MvPolynomial.C (c : ℚ) * (m.map MvPolynomial.X).prod + eval p := List.sum_cons

theorem eval_insertTerm (c : Int) (m : List Nat) (p : Poly) :
    eval (insertTerm c m p) = MvPolynomial.C (c : ℚ) * (m.map MvPolynomial.X).prod + eval p := by
  induction p with
  | nil =>
    unfold insertTerm
    split_ifs with zero
    · rw [zero, Int.cast_zero, map_zero, zero_mul, eval_nil, add_zero]
    · exact eval_cons c m []
  | cons term p ih =>
    obtain ⟨d, m'⟩ := term
    unfold insertTerm
    split_ifs with same zero before zero
    · have opposite : (c : ℚ) + d = 0 := by exact_mod_cast zero
      rw [eval_cons, ← same, ← add_assoc, ← add_mul, ← map_add, opposite, map_zero, zero_mul, zero_add]
    · rw [eval_cons, eval_cons, ← same, ← add_assoc, ← add_mul, ← map_add, Int.cast_add]
    · rw [zero, Int.cast_zero, map_zero, zero_mul, zero_add]
    · exact eval_cons c m _
    · rw [eval_cons, ih, eval_cons, add_left_comm]

theorem eval_addPoly (p q : Poly) : eval (addPoly p q) = eval p + eval q := by
  induction p with
  | nil => exact (zero_add _).symm
  | cons term p ih =>
    change eval (insertTerm term.1 term.2 (addPoly p q)) = _
    rw [eval_insertTerm, ih, ← add_assoc]
    rfl

theorem eval_mulTerm (c : Int) (m : List Nat) (q : Poly) :
    eval (mulTerm c m q) = MvPolynomial.C (c : ℚ) * (m.map MvPolynomial.X).prod * eval q := by
  induction q with
  | nil => exact (mul_zero _).symm
  | cons term q ih =>
    change eval (insertTerm (c * term.1) ((m ++ term.2).insertionSort (· ≤ ·)) (mulTerm c m q)) = _
    have sorted : (((m ++ term.2).insertionSort (· ≤ ·)).map (MvPolynomial.X (R := ℚ))).prod =
        (m.map MvPolynomial.X).prod * (term.2.map MvPolynomial.X).prod := by
      rw [(((List.perm_insertionSort (· ≤ ·) (m ++ term.2)).map _).prod_eq), List.map_append, List.prod_append]
    rw [eval_insertTerm, ih, sorted, eval_cons, Int.cast_mul, map_mul]
    ring

theorem eval_mulPoly (p q : Poly) : eval (mulPoly p q) = eval p * eval q := by
  induction p with
  | nil => exact (zero_mul _).symm
  | cons term p ih =>
    change eval (addPoly (mulTerm term.1 term.2 q) (mulPoly p q)) = _
    rw [eval_addPoly, eval_mulTerm, ih, eval_cons, add_mul]

theorem eval_negPoly (p : Poly) : eval (negPoly p) = -eval p := by
  induction p with
  | nil => exact neg_zero.symm
  | cons term p ih =>
    change eval ((-term.1, term.2) :: negPoly p) = _
    rw [eval_cons, ih, eval_cons, Int.cast_neg, map_neg]
    ring

theorem pderiv_symbols (i : Nat) (m : List Nat) :
    MvPolynomial.pderiv i ((m.map (MvPolynomial.X (R := ℚ))).prod) =
      MvPolynomial.C (m.count i : ℚ) * ((m.erase i).map MvPolynomial.X).prod := by
  induction m with
  | nil => simp
  | cons j m ih =>
    rw [List.map_cons, List.prod_cons, Derivation.leibniz, ih]
    simp only [smul_eq_mul]
    by_cases same : j = i
    · subst same
      rw [MvPolynomial.pderiv_X_self, List.count_cons_self, List.erase_cons_head, mul_one]
      by_cases member : j ∈ m
      · have split : (m.map (MvPolynomial.X (R := ℚ))).prod =
            MvPolynomial.X j * ((m.erase j).map MvPolynomial.X).prod := by
          rw [((List.perm_cons_erase member).map _).prod_eq, List.map_cons, List.prod_cons]
        rw [split]
        push_cast
        rw [map_add, map_one]
        ring
      · rw [List.count_eq_zero_of_not_mem member, Nat.cast_zero, map_zero, zero_mul, mul_zero, zero_add]
        simp
    · rw [MvPolynomial.pderiv_X_of_ne same, mul_zero, add_zero, List.count_cons_of_ne same,
        List.erase_cons_tail (by simpa using same), List.map_cons, List.prod_cons]
      ring

theorem eval_diffPoly (i : Nat) (p : Poly) : eval (diffPoly i p) = MvPolynomial.pderiv i (eval p) := by
  induction p with
  | nil => exact (map_zero _).symm
  | cons term p ih =>
    change eval (insertTerm (term.1 * term.2.count i) (term.2.erase i) (diffPoly i p)) = _
    rw [eval_insertTerm, ih, eval_cons, map_add, MvPolynomial.pderiv_C_mul, pderiv_symbols]
    push_cast
    rw [map_mul]
    ring

end Poly

def spend {α : Type} (answer : Except Status α) : EStateM Status Nat α := fun steps =>
  match steps, answer with
  | 0, _ => .error .timeout 0
  | steps + 1, .ok value => .ok value steps
  | steps + 1, .error status => .error status steps

/-- The engine over the context at an address; its state is the budget that is left. -/
def polynomials (ir : Nat) : Cas Nat Poly where
  ir := ir
  number n d := spend (if d = 1 then .ok (Poly.insertTerm n [] []) else .error .unsupported)
  add refs := spend (.ok (refs.foldr Poly.addPoly []))
  mul refs := spend (.ok (refs.foldr Poly.mulPoly [(1, [])]))
  neg ref := spend (.ok (Poly.negPoly ref))
  sub left right := spend (.ok (Poly.addPoly left (Poly.negPoly right)))
  pow base exponent := spend (
    match exponent with
    | [] => .ok [(1, [])]
    | [(n, [])] => if 0 ≤ n then .ok ((List.replicate n.toNat base).foldr Poly.mulPoly [(1, [])]) else .error .unsupported
    | _ => .error .unsupported)
  simplify ref := spend (.ok ref)
  diff ref symbol := spend (
    match symbol with
    | [(1, [i])] => .ok (Poly.diffPoly i ref)
    | _ => .error .type)
  substitute ref rules := spend (.ok (ref.foldr (fun term acc => Poly.addPoly (Poly.mulPoly [(term.1, [])]
    (term.2.foldr (fun i acc => Poly.mulPoly ((rules.lookup (Poly.symbol i)).getD (Poly.symbol i)) acc) [(1, [])])) acc) []))
  isZero ref := spend (.ok (match ref with
    | [] => .zero
    | [(c, [])] => if c = 0 then .zero else .nonzero
    | _ => .unknown))

noncomputable def polynomialValue (p : Poly) : Option (RationalFunction Nat) :=
  some (algebraMap (MvPolynomial Nat ℚ) (RationalFunction Nat) (Poly.eval p))

/-- Differentiation by a symbol; nothing else is a variable. -/
noncomputable def polynomialPartial (symbol : Poly) : Derivation ℤ (RationalFunction Nat) (RationalFunction Nat) :=
  match symbol with
  | [(1, [i])] => partialDerivative i
  | _ => 0

theorem wp_spend {α : Type} {answer : Except Status α} {good : α → Prop} (steps : Nat)
    (held : ∀ result, answer = .ok result → good result) :
    wp (spend answer) (fun result _ => good result) (fun _ _ => True) steps := by
  unfold wp spend
  cases steps with
  | zero => trivial
  | succ steps =>
    cases answer with
    | ok result => exact held result rfl
    | error status => trivial

theorem polynomialPartial_comm (first second : Poly) (x : RationalFunction Nat) :
    polynomialPartial first (polynomialPartial second x) = polynomialPartial second (polynomialPartial first x) := by
  unfold polynomialPartial
  split <;> split
  · exact partialDerivative_comm _ _ x
  · simp
  · simp
  · rfl

theorem eval_sum (refs : List Poly) : Poly.eval (refs.foldr Poly.addPoly []) = (refs.map Poly.eval).sum := by
  induction refs with
  | nil => rfl
  | cons p refs ih => rw [List.foldr_cons, Poly.eval_addPoly, ih, List.map_cons, List.sum_cons]

theorem eval_product (refs : List Poly) : Poly.eval (refs.foldr Poly.mulPoly [(1, [])]) = (refs.map Poly.eval).prod := by
  induction refs with
  | nil => simp
  | cons p refs ih => rw [List.foldr_cons, Poly.eval_mulPoly, ih, List.map_cons, List.prod_cons]

theorem eval_constant (c : Int) : Poly.eval [(c, [])] = MvPolynomial.C (c : ℚ) := by simp

theorem eval_int (n : Int) : Poly.eval (Poly.insertTerm n [] []) = ((n : Int) : MvPolynomial Nat ℚ) := by
  rw [Poly.eval_insertTerm, List.map_nil, List.prod_nil, mul_one, Poly.eval_nil, add_zero]
  exact map_intCast _ n

section

variable {φ : MvPolynomial Nat ℚ →+* RationalFunction Nat}

theorem denote_hom {refs : List Poly} {ks : List (RationalFunction Nat)}
    (denote : Denote (fun p => some (φ (Poly.eval p))) refs ks) : ks = (refs.map Poly.eval).map φ := by
  induction denote with
  | nil => rfl
  | cons first _ ih => rw [List.map_cons, List.map_cons, ← ih, Option.some.inj first]

/-- The engine is sound for every homomorphic reading of the symbols that its numbers and its derivatives
agree with. -/
theorem exact_of_hom (ir : Nat) {number : Int → Int → EStateM Status Nat Poly} {diff : Poly → Poly → EStateM Status Nat Poly}
    {partialBy : Poly → Derivation ℤ (RationalFunction Nat) (RationalFunction Nat)}
    (numbers : ∀ n s, wp (number n 1) (fun ref _ => some (φ (Poly.eval ref)) = some (n : RationalFunction Nat))
      (fun _ _ => True) s)
    (derives : ∀ ref symbol s, wp (diff ref symbol)
      (fun result _ => φ (Poly.eval result) = partialBy symbol (φ (Poly.eval ref))) (fun _ _ => True) s) :
    Exact { polynomials ir with number := number, diff := diff } (fun p => some (φ (Poly.eval p))) partialBy where
  number := numbers
  add refs ks s denote := wp_spend s (fun result same => by
    rw [Except.ok.injEq] at same
    rw [← same, eval_sum, denote_hom denote, map_list_sum])
  mul refs ks s denote := wp_spend s (fun result same => by
    rw [Except.ok.injEq] at same
    rw [← same, eval_product, denote_hom denote, map_list_prod])
  neg ref k s known := wp_spend s (fun result same => by
    rw [Except.ok.injEq] at same
    rw [← same, Poly.eval_negPoly, map_neg, Option.some.inj known])
  sub left right k l s known known' := wp_spend s (fun result same => by
    rw [Except.ok.injEq] at same
    rw [← same, Poly.eval_addPoly, Poly.eval_negPoly, map_add, map_neg, Option.some.inj known, Option.some.inj known',
      sub_eq_add_neg])
  simplify ref k s known := wp_spend s (fun result same => by
    rw [Except.ok.injEq] at same
    rw [← same]
    exact known)
  diff ref symbol k s known := wp_good (derives ref symbol s) fun result t derived => by
    rw [derived, Option.some.inj known]
  isZero ref k s known := wp_spend s (fun result same => by
    rw [Except.ok.injEq] at same
    have value := Option.some.inj known
    subst same
    split
    · exact ⟨fun _ => by rw [← value, Poly.eval_nil, map_zero], fun other => Decision.noConfusion other⟩
    · rename_i c
      have constant : φ (Poly.eval [(c, [])]) = (c : RationalFunction Nat) := by
        rw [eval_constant]
        exact (congrArg φ (map_intCast MvPolynomial.C c)).trans (map_intCast φ c)
      rw [constant] at value
      by_cases zero : c = 0
      · rw [if_pos zero]
        exact ⟨fun _ => by rw [← value, zero, Int.cast_zero], fun other => Decision.noConfusion other⟩
      · rw [if_neg zero]
        exact ⟨fun other => Decision.noConfusion other, fun _ vanishes => zero (Int.cast_eq_zero.mp (value.trans vanishes))⟩
    · exact ⟨fun other => Decision.noConfusion other, fun other => Decision.noConfusion other⟩)

end

theorem polynomials_exact (ir : Nat) : Exact (polynomials ir) polynomialValue polynomialPartial :=
  exact_of_hom ir
    (fun n s => wp_spend s (fun result same => by
      rw [if_pos rfl, Except.ok.injEq] at same
      rw [← same, eval_int, map_intCast]))
    fun ref symbol s => wp_spend s (fun result same => by
      split at same
      · rename_i i
        rw [Except.ok.injEq] at same
        rw [← same, Poly.eval_diffPoly, ← partialDerivative_algebraMap]
        rfl
      · cases same)

end PhyNspire.Cas

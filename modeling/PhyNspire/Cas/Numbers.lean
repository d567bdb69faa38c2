import PhyNspire.Cas.Memo
import PhyNspire.Cas.Num
import PhyNspire.Cas.SparsePoly
import PhyNspire.Ir.Sums

/-!
Exact numbers as the rules of the scalar layer use them: the 64-bit fast path of num.c, the
promotion of big_num.c where it does not reach, and the nodes that are built from them.
-/

namespace PhyNspire.Cas.Core
open Ir.Expressions Ir.Sums Num
open SparsePoly (integerValue)

def exactNode (q : ℚ) : Expr := .node (.exact q) []

def zero : Expr := exactNode 0

def one : Expr := exactNode 1

def minusOne : Expr := exactNode (-1)

def symbolNode (name : Name) : Expr := .node (.symbol name) []

def unitName : Name := [73]

def constantI : Expr := symbolNode unitName

/-- The number of a node with `phy_cas_is_exact`. -/
def exactOf : Expr → Option ℚ
  | .node (.exact q) [] => some q
  | _ => none

/-- `phy_cas_exact_value`: a number of 64 bits. -/
def exactValue (expr : Expr) : Option CasRat :=
  match exactOf expr with
  | none => none
  | some q => if Inline q then some (CasRat.ofRat q) else none

def isInteger (expr : Expr) (value : Int) : Bool := decide (integerValue expr = some value)

/-- A constructor of the IR; it may be refused. -/
def irNode (label : Label) (children : List Expr) : CasM Expr := do
  request
  pure (.node label children)

/-- `make_nary`. -/
def irNary (label : Label) (operands : List Expr) : CasM Expr :=
  if operands = [] then refuse .invalidArgument
  else do
    request
    pure (nary label operands)

def numberNode (r : CasRat) : CasM ℚ := do
  request
  pure r.value

def exactAddRefs (p q : ℚ) : CasM ℚ := do
  request
  pure (p + q)

def exactMulRefs (p q : ℚ) : CasM ℚ := do
  request
  pure (p * q)

/-- The fast path where it reaches, the promotion where it does not. -/
def exactNodes (small : CasRat → CasRat → CasRat → Bool × CasRat) (promoted : ℚ → ℚ → CasM ℚ) (p q : ℚ) : CasM ℚ :=
  if Inline p ∧ Inline q then
    let result := small (.ofRat p) (.ofRat q) (.ofRat 0)
    if result.1 then numberNode result.2 else promoted p q
  else promoted p q

def addExactNodes : ℚ → ℚ → CasM ℚ := exactNodes ratAdd exactAddRefs

def multiplyExactNodes : ℚ → ℚ → CasM ℚ := exactNodes ratMul exactMulRefs

def isInt32 (k : Int) : Bool := decide (-2147483648 ≤ k ∧ k ≤ 2147483647)

/-- `phy_cas_exact_pow_ref`; an exponent beyond 32 bits is not supported. -/
def exactPowRef (base : ℚ) (exponent : Int) : CasM (Option ℚ) :=
  if isInt32 exponent then do
    request
    if base = 0 ∧ exponent < 0 then refuse .domain else pure (some (base ^ exponent))
  else pure none

/-- The integer powers of a number in `phy_cas_pow_node`. -/
def powExact (base : ℚ) (exponent : Int) : CasM (Option ℚ) :=
  if Inline base then do
    let result := ratPow (.ofRat base) (Int64.ofInt exponent) (.ofRat 0)
    if result.1 then some <$> numberNode result.2 else exactPowRef base exponent
  else exactPowRef base exponent

variable {truth : Truth}

theorem exactOf_some {expr : Expr} {q : ℚ} (known : exactOf expr = some q) : expr = exactNode q := by
  unfold exactOf at known
  split at known
  · cases known
    rfl
  · cases known

theorem integerValue_some {expr : Expr} {k : Int} (known : integerValue expr = some k) :
    ∃ children, expr = .node (.exact (k : ℚ)) children ∧ Exact.Decimals.FitsI64 k := by
  unfold integerValue at known
  split at known
  · rename_i q children
    split at known
    · rename_i fits
      obtain rfl := Option.some.inj known
      refine ⟨children, ?_, fits.2⟩
      rw [Rat.coe_int_num_of_den_eq_one fits.1]
    · cases known
  · cases known

theorem isInteger_iff {expr : Expr} {k : Int} : isInteger expr k = true ↔ integerValue expr = some k := decide_eq_true_iff

theorem exactValue_some {expr : Expr} {r : CasRat} (known : exactValue expr = some r) :
    ∃ q, exactOf expr = some q ∧ Inline q ∧ r = CasRat.ofRat q := by
  unfold exactValue at known
  split at known
  · cases known
  · rename_i q number
    split at known
    · rename_i fits
      exact ⟨q, number, fits, (Option.some.inj known).symm⟩
    · cases known

theorem meets_irNode (label : Label) (children : List Expr) :
    Meets truth (irNode label children) (· = .node label children) :=
  meets_request.seq fun _ => meets_pure rfl

theorem meets_irNary (label : Label) (operands : List Expr) : Meets truth (irNary label operands) (· = nary label operands) :=
  meets_ite (fun _ => meets_refuse _) (fun _ => meets_request.seq fun _ => meets_pure rfl)

theorem meets_exactNodes {small : CasRat → CasRat → CasRat → Bool × CasRat} {promoted : ℚ → ℚ → CasM ℚ} {p q value : ℚ}
    (fast : ∀ out, Inline p → Inline q → (small (.ofRat p) (.ofRat q) out).1 = true →
      (small (.ofRat p) (.ofRat q) out).2.value = value)
    (slow : Meets truth (promoted p q) (· = value)) : Meets truth (exactNodes small promoted p q) (· = value) := by
  apply meets_ite
  · intro fits
    dsimp only
    apply meets_ite
    · intro stored
      exact meets_request.seq fun _ => meets_pure (fast _ fits.1 fits.2 stored)
    · intro _
      exact slow
  · intro _
    exact slow

theorem value_of_store {q : ℚ} {out : CasRat} (stored : (store q out).1 = true) : (store q out).2.value = q := by
  by_cases fits : Inline q
  · rw [store, if_pos fits]
    exact CasRat.value_ofRat fits
  · rw [store, if_neg fits] at stored
    exact absurd stored Bool.false_ne_true

theorem meets_addExactNodes (p q : ℚ) : Meets truth (addExactNodes p q) (· = p + q) := by
  apply meets_exactNodes
  · intro out first second stored
    have sum : ratAdd (.ofRat p) (.ofRat q) out = store (p + q) out ∨ ratAdd (.ofRat p) (.ofRat q) out = (false, out) := by
      have exact := ratAdd_eq out (CasRat.reduced_ofRat first) (CasRat.reduced_ofRat second)
      rwa [CasRat.value_ofRat first, CasRat.value_ofRat second] at exact
    rcases sum with exact | failed
    · rw [exact] at stored ⊢
      exact value_of_store stored
    · rw [failed] at stored
      cases stored
  · exact meets_request.seq fun _ => meets_pure rfl

theorem meets_multiplyExactNodes (p q : ℚ) : Meets truth (multiplyExactNodes p q) (· = p * q) := by
  apply meets_exactNodes
  · intro out first second stored
    have product : ratMul (.ofRat p) (.ofRat q) out = store (p * q) out := by
      have exact := ratMul_eq out (CasRat.reduced_ofRat first) (CasRat.reduced_ofRat second)
      rwa [CasRat.value_ofRat first, CasRat.value_ofRat second] at exact
    rw [product] at stored ⊢
    exact value_of_store stored
  · exact meets_request.seq fun _ => meets_pure rfl

theorem meets_exactPowRef (base : ℚ) (exponent : Int) :
    Meets truth (exactPowRef base exponent) fun power => ∀ p ∈ power, p = base ^ exponent := by
  apply meets_ite
  · intro _
    apply meets_request.seq
    intro _
    exact meets_ite (fun _ => meets_refuse _) (fun _ => meets_pure fun p same => (Option.some.inj same).symm)
  · intro _
    exact meets_pure fun p absent => by cases absent

theorem meets_powExact {base : ℚ} (nonzero : base ≠ 0) {exponent : Int} (fits : Exact.Decimals.FitsI64 exponent) :
    Meets truth (powExact base exponent) fun power => ∀ p ∈ power, p = base ^ exponent := by
  apply meets_ite
  · intro small
    dsimp only
    apply meets_ite
    · intro stored
      apply Meets.bind (meets_request.seq fun _ => meets_pure rfl : Meets truth (numberNode _) (· = _))
      intro value same
      apply meets_pure
      intro p known
      rw [← Option.some.inj known, same]
      have some : (CasRat.ofRat base).num ≠ 0 := by
        intro zero
        apply nonzero
        apply Rat.zero_of_num_zero
        rw [← CasRat.num_ofRat small, zero]
        rfl
      have power := ratPow_eq (CasRat.reduced_ofRat small) some (Int64.ofInt exponent) (.ofRat 0)
      rw [CasRat.value_ofRat small, Exact.Decimals.toInt_ofInt_of_fits fits] at power
      rw [power] at stored ⊢
      exact value_of_store stored
    · intro _
      exact meets_exactPowRef base exponent
  · intro _
    exact meets_exactPowRef base exponent

end PhyNspire.Cas.Core

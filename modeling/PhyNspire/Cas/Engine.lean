import Mathlib.Analysis.SpecialFunctions.Pow.Complex
import PhyNspire.Cas.Scalars

/-!
The scalar engine with division, roots and exact numbers. A number node stores an exact
rational of any size; the accessors that read one into machine words see only those
that fit, so an engine is asked here for the number and the accessors are derived.

An engine that never stops early is a special case: `mayStop` says whether an operation may
fail, for want of steps or of memory, on arguments that it could handle.
-/

namespace PhyNspire.Cas
open Platform Lib.Stateful

structure Engine (State Ref : Type) extends Cas State Ref where
  /-- `phy_ir_integer` in the engine's context. -/
  integer : Int → EStateM Status State Ref
  div : Ref → Ref → EStateM Status State Ref
  equivalent : Ref → Ref → EStateM Status State Decision
  /-- The number of an integer or rational node, whether it is kept in machine words or not. -/
  exact : Ref → Option ℚ

/-- Inside `int64_t`. -/
def FitsWord (n : Int) : Prop := -2 ^ 63 ≤ n ∧ n < 2 ^ 63

instance (n : Int) : Decidable (FitsWord n) := inferInstanceAs (Decidable (_ ∧ _))

def Machine (q : ℚ) : Prop := FitsWord q.num ∧ FitsWord q.den

instance (q : ℚ) : Decidable (Machine q) := inferInstanceAs (Decidable (_ ∧ _))

variable {State Ref K : Type}

namespace Engine

def integerValue (engine : Engine State Ref) (ref : Ref) : Option Int :=
  match engine.exact ref with
  | some q => if q.den = 1 ∧ FitsWord q.num then some q.num else none
  | none => none

def rationalValue (engine : Engine State Ref) (ref : Ref) : Option (Int × Int) :=
  match engine.exact ref with
  | some q => if q.den ≠ 1 ∧ Machine q then some (q.num, q.den) else none
  | none => none

end Engine

structure Arithmetic [CommRing K] (cas : Cas State Ref) (value : Ref → Option K) (mayStop : Prop) : Prop where
  number : ∀ n s, wp (cas.number n 1) (fun ref _ => value ref = some (n : K)) (fun _ _ => mayStop) s
  add : ∀ refs ks s, Denote value refs ks →
    wp (cas.add refs) (fun ref _ => value ref = some ks.sum) (fun _ _ => mayStop) s
  mul : ∀ refs ks s, Denote value refs ks →
    wp (cas.mul refs) (fun ref _ => value ref = some ks.prod) (fun _ _ => mayStop) s
  neg : ∀ ref k s, value ref = some k →
    wp (cas.neg ref) (fun ref _ => value ref = some (-k)) (fun _ _ => mayStop) s

/-- The test for zero is right as well, and it decides whatever is zero unless it is stopped. -/
structure Deciding [CommRing K] (cas : Cas State Ref) (value : Ref → Option K) (mayStop : Prop) : Prop
    extends Arithmetic cas value mayStop where
  isZero : ∀ ref k s, value ref = some k →
    wp (cas.isZero ref) (fun decision _ => (decision = .zero → k = 0) ∧ (k = 0 → ¬mayStop → decision = .zero))
      (fun _ _ => mayStop) s

theorem Exact.deciding [CommRing K] {cas : Cas State Ref} {value : Ref → Option K} {partialBy : Ref → Derivation ℤ K K}
    (exact : Exact cas value partialBy) : Deciding cas value True where
  number := exact.number
  add := exact.add
  mul := exact.mul
  neg := exact.neg
  isZero ref k s denotes :=
    wp_good (exact.isZero ref k s denotes) (fun _ _ known => ⟨known.1, fun _ never => absurd trivial never⟩)

/-- So are division by what is not zero, the decisions, and square roots: `root` chooses the root
that a power with exponent one half denotes. -/
structure Sound [Field K] (engine : Engine State Ref) (value : Ref → Option K) (root : K → K) (mayStop : Prop) : Prop
    extends Arithmetic engine.toCas value mayStop where
  integer : ∀ n s, wp (engine.integer n) (fun ref _ => value ref = some (n : K)) (fun _ _ => mayStop) s
  simplify : ∀ ref k s, value ref = some k →
    wp (engine.simplify ref) (fun ref _ => value ref = some k) (fun _ _ => mayStop) s
  isZero : ∀ ref k s, value ref = some k →
    wp (engine.isZero ref) (fun decision _ => decision = .zero → k = 0) (fun _ _ => mayStop) s
  equivalent : ∀ left right k l s, value left = some k → value right = some l →
    wp (engine.equivalent left right)
      (fun decision _ => (decision = .zero → k = l) ∧ (k = l → ¬mayStop → decision = .zero)) (fun _ _ => mayStop) s
  div : ∀ left right k l s, value left = some k → value right = some l → l ≠ 0 →
    wp (engine.div left right) (fun ref _ => value ref = some (k / l)) (fun _ _ => mayStop) s
  half : ∀ s, wp (engine.number 1 2) (fun ref _ => value ref = some (1 / 2 : K)) (fun _ _ => mayStop) s
  sqrt : ∀ base exponent k s, value base = some k → value exponent = some (1 / 2 : K) →
    wp (engine.pow base exponent) (fun ref _ => value ref = some (root k)) (fun _ _ => mayStop) s
  root_mul_self : ∀ k, root k * root k = k
  root_one : root 1 = 1
  exact : ∀ ref q, engine.exact ref = some q → value ref = some (q : K)

section Complex

open Classical in
noncomputable def constants (ir : Nat) : Engine Unit ℂ where
  ir := ir
  number n d := pure (n / d)
  add refs := pure refs.sum
  mul refs := pure refs.prod
  neg ref := pure (-ref)
  sub left right := pure (left - right)
  pow base exponent := pure (base ^ exponent)
  simplify ref := pure ref
  diff _ _ := pure 0
  substitute ref _ := pure ref
  isZero ref := pure (if ref = 0 then .zero else .nonzero)
  integer n := pure n
  div left right := pure (left / right)
  equivalent left right := pure (if left = right then .zero else .nonzero)
  exact ref := if rational : ∃ q : ℚ, (q : ℂ) = ref then some rational.choose else none

theorem denote_some {refs ks : List ℂ} (denote : Denote some refs ks) : refs = ks :=
  List.forall₂_eq_eq_eq ▸ denote.imp (fun _ _ same => Option.some.inj same)

theorem constants_exact_iff (ir : Nat) (z : ℂ) (q : ℚ) : (constants ir).exact z = some q ↔ (q : ℂ) = z := by
  unfold constants
  dsimp only
  split_ifs with rational
  · rw [Option.some.injEq]
    constructor
    · exact fun same => same ▸ rational.choose_spec
    · exact fun same => Rat.cast_injective (α := ℂ) (rational.choose_spec.trans same.symm)
  · exact ⟨fun never => (by cases never), fun same => absurd ⟨q, same⟩ rational⟩

theorem constants_exact (ir : Nat) : Exact (constants ir).toCas some (fun _ => (0 : Derivation ℤ ℂ ℂ)) where
  number n _ := congrArg some (by rw [Int.cast_one, div_one])
  add _ _ _ denote := congrArg some (denote_some denote ▸ rfl)
  mul _ _ _ denote := congrArg some (denote_some denote ▸ rfl)
  neg _ _ _ same := congrArg some (Option.some.inj same ▸ rfl)
  sub _ _ _ _ _ same same' := congrArg some (Option.some.inj same ▸ Option.some.inj same' ▸ rfl)
  simplify _ _ _ same := same
  diff _ _ _ _ _ := rfl
  isZero ref k _ same := by
    obtain rfl := Option.some.inj same
    change ((if ref = 0 then Decision.zero else .nonzero) = .zero → ref = 0) ∧
      ((if ref = 0 then Decision.zero else .nonzero) = .nonzero → ref ≠ 0)
    split_ifs with zero
    · exact ⟨fun _ => zero, fun never => (by cases never)⟩
    · exact ⟨fun never => (by cases never), fun _ => zero⟩

theorem constants_deciding (ir : Nat) (mayStop : Prop) : Deciding (constants ir).toCas some mayStop where
  number n _ := congrArg some (by rw [Int.cast_one, div_one])
  add _ _ _ denote := congrArg some (denote_some denote ▸ rfl)
  mul _ _ _ denote := congrArg some (denote_some denote ▸ rfl)
  neg _ _ _ same := congrArg some (Option.some.inj same ▸ rfl)
  isZero ref k _ same := by
    obtain rfl := Option.some.inj same
    change ((if ref = 0 then Decision.zero else .nonzero) = .zero → ref = 0) ∧
      (ref = 0 → ¬mayStop → (if ref = 0 then Decision.zero else .nonzero) = .zero)
    split_ifs with zero
    · exact ⟨fun _ => zero, fun _ _ => rfl⟩
    · exact ⟨fun never => (by cases never), fun yes => absurd yes zero⟩

theorem constants_sound (ir : Nat) (mayStop : Prop) : Sound (constants ir) some (fun z => z ^ (1 / 2 : ℂ)) mayStop where
  number n _ := congrArg some (by rw [Int.cast_one, div_one])
  add _ _ _ denote := congrArg some (denote_some denote ▸ rfl)
  mul _ _ _ denote := congrArg some (denote_some denote ▸ rfl)
  neg _ _ _ same := congrArg some (Option.some.inj same ▸ rfl)
  integer _ _ := rfl
  simplify _ _ _ same := same
  isZero ref k _ same := by
    obtain rfl := Option.some.inj same
    change (if ref = 0 then Decision.zero else .nonzero) = .zero → ref = 0
    split_ifs with zero
    · exact fun _ => zero
    · exact fun never => (by cases never)
  equivalent left right k l _ same same' := by
    obtain rfl := Option.some.inj same
    obtain rfl := Option.some.inj same'
    change ((if left = right then Decision.zero else .nonzero) = .zero → left = right) ∧
      (left = right → ¬mayStop → (if left = right then Decision.zero else .nonzero) = .zero)
    split_ifs with equal
    · exact ⟨fun _ => equal, fun _ _ => rfl⟩
    · exact ⟨fun never => (by cases never), fun yes => absurd yes equal⟩
  div _ _ _ _ _ same same' _ := congrArg some (Option.some.inj same ▸ Option.some.inj same' ▸ rfl)
  half _ := congrArg some (by rw [Int.cast_one, Int.cast_ofNat])
  sqrt _ _ _ _ same same' := congrArg some (Option.some.inj same ▸ Option.some.inj same' ▸ rfl)
  root_mul_self k := by
    have square := Complex.cpow_nat_inv_pow k (two_ne_zero : 2 ≠ 0)
    rwa [pow_two, ← one_div] at square
  root_one := Complex.one_cpow _
  exact ref q same := congrArg some ((constants_exact_iff ir ref q).mp same).symm

end Complex

end PhyNspire.Cas

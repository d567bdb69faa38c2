import Mathlib.RingTheory.Derivation.Basic
import PhyNspire.Lib.Stateful
import PhyNspire.Platform

/-!
The scalar layer as its callers see it. Geometry builds every scalar through `phy_cas_*`:
an operation either returns a handle or fails with a status, and both may change the
session (its step budget, its memo tables, the nodes interned so far). A handle names one
interned expression, so it stands for that expression here and equal handles are equal
expressions.

What the operations promise is stated on the handles that denote a rational function: on
these, arithmetic and differentiation are exact.
-/

namespace PhyNspire.Cas
open Platform Lib.Stateful

/-- `phy_cas_decision`. -/
inductive Decision where
  | unknown
  | zero
  | nonzero
deriving DecidableEq, Repr

structure Cas (State Ref : Type) where
  /-- `phy_cas_ir`: the context it works in. -/
  ir : Nat
  number : Int → Int → EStateM Status State Ref
  add : List Ref → EStateM Status State Ref
  mul : List Ref → EStateM Status State Ref
  neg : Ref → EStateM Status State Ref
  sub : Ref → Ref → EStateM Status State Ref
  pow : Ref → Ref → EStateM Status State Ref
  simplify : Ref → EStateM Status State Ref
  diff : Ref → Ref → EStateM Status State Ref
  substitute : Ref → List (Ref × Ref) → EStateM Status State Ref
  isZero : Ref → EStateM Status State Decision

variable {State Ref K : Type}

/-- Handles denote the given values, one by one. -/
def Denote (value : Ref → Option K) (refs : List Ref) (ks : List K) : Prop :=
  List.Forall₂ (fun ref k => value ref = some k) refs ks

theorem Denote.snoc {value : Ref → Option K} {refs : List Ref} {ks : List K} (denote : Denote value refs ks) {ref : Ref} {k : K}
    (same : value ref = some k) : Denote value (refs ++ [ref]) (ks ++ [k]) :=
  List.rel_append denote (List.Forall₂.cons same List.Forall₂.nil)

variable [CommRing K]

/-- The engine is exact where its arguments denote values: whatever it returns denotes what the
operation says, `partialBy` being differentiation by a symbol. -/
structure Exact (cas : Cas State Ref) (value : Ref → Option K) (partialBy : Ref → Derivation ℤ K K) : Prop where
  number : ∀ n s, wp (cas.number n 1) (fun ref _ => value ref = some (n : K)) (fun _ _ => True) s
  add : ∀ refs ks s, Denote value refs ks →
    wp (cas.add refs) (fun ref _ => value ref = some ks.sum) (fun _ _ => True) s
  mul : ∀ refs ks s, Denote value refs ks →
    wp (cas.mul refs) (fun ref _ => value ref = some ks.prod) (fun _ _ => True) s
  neg : ∀ ref k s, value ref = some k →
    wp (cas.neg ref) (fun ref _ => value ref = some (-k)) (fun _ _ => True) s
  sub : ∀ left right k l s, value left = some k → value right = some l →
    wp (cas.sub left right) (fun ref _ => value ref = some (k - l)) (fun _ _ => True) s
  simplify : ∀ ref k s, value ref = some k →
    wp (cas.simplify ref) (fun ref _ => value ref = some k) (fun _ _ => True) s
  diff : ∀ ref symbol k s, value ref = some k →
    wp (cas.diff ref symbol) (fun ref _ => value ref = some (partialBy symbol k)) (fun _ _ => True) s
  isZero : ∀ ref k s, value ref = some k →
    wp (cas.isZero ref) (fun decision _ => (decision = .zero → k = 0) ∧ (decision = .nonzero → k ≠ 0))
      (fun _ _ => True) s

end PhyNspire.Cas

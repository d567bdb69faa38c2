import PhyNspire.Ir.Construction
import PhyNspire.Exact.Runs

/-!
Exact numbers from text. The builder reads through a short-lived exact context; whatever
fails there fails the builder before anything is published.
-/

namespace PhyNspire.Ir.Texts
open Platform Lib Lib.Stateful Lib.Decimal Exact.Context Exact.Accounting Exact.Arithmetic Exact.Rational
open Exact.Fractions Exact.RationalField Exact.Runs Exact.Decimals
open Expressions Context Nodes Builders Layout Construction

variable {s t u : IrContext} {graph : Graph} {exact : ExactContext} {q : ℚ} {address : Bigrat}

theorem Valid.heap (valid : Valid exact) (heap : Heap) : Valid { exact with heap := heap } where
  distinct := valid.distinct
  counted := valid.counted
  charged := valid.charged
  affordable := valid.affordable
  patient := valid.patient
  bounded := valid.bounded
  ceiling := valid.ceiling
  canonical := valid.canonical

theorem Represents.heap (represents : Represents exact address q) (heap : Heap) :
    Represents { exact with heap := heap } address q := ⟨represents.numerator, represents.denominator⟩

theorem Represents.unchanged {exact' : ExactContext} (represents : Represents exact address q) (within : Within [] exact exact') :
    Represents exact' address q where
  numerator := (Within.view within List.not_mem_nil).trans represents.numerator
  denominator := (Within.view within List.not_mem_nil).trans represents.denominator

theorem onExact_spec {α : Type} {program : ExactM α} {good : α → ExactContext → Prop} {bad : Status → ExactContext → Prop}
    (held : wp program good bad { exact with heap := s.heap }) :
    wp (onExact exact program) (fun result t => Kept s t ∧ good result.1 result.2) (fun _ t => Kept s t) s := by
  unfold onExact
  simp only [wp_bind, wp_get]
  unfold wp at held
  split
  · rename_i value finished run
    rw [run] at held
    exact ⟨⟨rfl, rfl⟩, held⟩
  · rename_i status finished run
    simp only [wp_bind, wp_set]
    exact wp_refuse _ (fun _ kept => ⟨kept.pools, kept.limits⟩)

theorem allocate_spec : wp allocate (fun _ t => Kept s t) (fun _ t => Kept s t) s := ⟨rfl, rfl⟩

theorem writePart_spec {handle : Handle} {z : Int} (valid : Valid exact) (seen : view exact handle = some z)
    (buffer : Option Nat) :
    wp (onExact exact (bigintWrite handle buffer))
      (fun result t => Kept s t ∧ Written z buffer result.1 ∧ Valid result.2 ∧ ∀ address q,
        Represents exact address q → Represents result.2 address q)
      (fun _ t => Kept s t) s := by
  have seen' : view { exact with heap := s.heap } handle = some z := seen
  refine wp_good (onExact_spec (bigintWrite_spec (Valid.heap valid s.heap) seen' buffer)) fun result t held => ?_
  obtain ⟨kept, written, within⟩ := held
  exact ⟨kept, written, (Valid.heap valid s.heap).unchanged within, fun address q represents =>
    Represents.unchanged (Represents.heap represents s.heap) within⟩

theorem integerText_eq_one {z : Int} (positive : 0 < z) :
    ((integerText z).length + 1 = 2 ∧ (integerText z ++ [0]).head? = some 49) ↔ z = 1 := by
  constructor
  · rintro ⟨length, first⟩
    have one : integerText z = integerText 1 := by
      match text : integerText z, length, first with
      | [digit], _, first =>
        obtain rfl : digit = 49 := by simpa using first
        rfl
    exact integerText_injective one
  · rintro rfl
    exact ⟨rfl, rfl⟩

theorem publishBigRational_makes (sound : Sound s.pools graph) (valid : Valid exact) (represents : Represents exact address q) :
    wp (publishBigRational exact address) (Makes s graph (.node (.exact q) [])) (fun _ t => Kept s t) s := by
  have small : bigratTryI64 exact address = if Inline q then some (Int64.ofInt q.num, Int64.ofInt q.den) else none :=
    bigratTryI64_spec valid represents
  unfold publishBigRational
  rw [small]
  by_cases inline : Inline q
  · rw [if_pos inline]
    have made := irRational_makes sound (Int64.ofInt q.num) (Int64.ofInt q.den)
    rw [toInt_ofInt_of_fits inline.1, toInt_ofInt_of_fits inline.2, Int.cast_natCast, Rat.num_div_den] at made
    exact wp_good made fun _ _ held => held.2
  rw [if_neg inline]
  simp only [wp_bind]
  refine wp_good (writePart_spec valid represents.numerator none) fun first t held => ?_
  obtain ⟨kept, ⟨size, _⟩, valid, keeps⟩ := held
  replace represents := keeps _ _ represents
  refine wp_mono (writePart_spec valid represents.denominator none) (fun second t held => ?_)
    (fun _ _ stopped => kept.trans stopped)
  obtain ⟨kept', ⟨size', _⟩, valid, keeps⟩ := held
  replace represents := keeps _ _ represents
  replace kept := kept.trans kept'
  refine wp_mono allocate_spec (fun granted t held => ?_) (fun _ _ stopped => kept.trans stopped)
  replace kept := kept.trans held
  refine wp_mono allocate_spec (fun granted' t held => ?_) (fun _ _ stopped => kept.trans stopped)
  replace kept := kept.trans held
  apply wp_ite
  · intro _
    exact wp_refuse _ (fun _ stopped => kept.trans stopped)
  intro _
  simp only [wp_bind]
  refine wp_mono (writePart_spec valid represents.numerator _) (fun numerator t held => ?_)
    (fun _ _ stopped => kept.trans stopped)
  obtain ⟨kept', ⟨length, text⟩, valid, keeps⟩ := held
  replace represents := keeps _ _ represents
  replace kept := kept.trans kept'
  refine wp_mono (writePart_spec valid represents.denominator _) (fun denominator t held => ?_)
    (fun _ _ stopped => kept.trans stopped)
  obtain ⟨kept', ⟨length', text'⟩, _, _⟩ := held
  replace kept := kept.trans kept'
  have sound' := kept.pools ▸ sound
  have integral := integerText_eq_one (Int.natCast_pos.mpr q.den_pos)
  rw [length, length', text (Option.some_ne_none _), text' (Option.some_ne_none _), size, size']
  rw [if_neg (by simp), Nat.add_sub_cancel, Nat.add_sub_cancel, List.take_left, List.take_left]
  have made := makePromoted_makes sound' inline
  rw [kind_exact] at made
  apply wp_ite
  · intro whole
    have one : q.den = 1 := by exact_mod_cast integral.mp whole
    rw [if_pos one, if_pos one] at made
    exact wp_mono made (fun _ _ held => held.of_kept kept) (fun _ _ stopped => kept.trans stopped)
  · intro broken
    have other : q.den ≠ 1 := fun one => broken (integral.mpr (by exact_mod_cast one))
    rw [if_neg other, if_neg other] at made
    exact wp_mono made (fun _ _ held => held.of_kept kept) (fun _ _ stopped => kept.trans stopped)

theorem exactReaderCreate_spec :
    wp exactReaderCreate (fun exact t => Kept s t ∧ Valid exact ∧ ∀ handle, exact.lookup handle = none)
      (fun _ t => Kept s t) s := by
  unfold exactReaderCreate
  simp only [wp_bind, wp_get]
  cases created : exactContextCreate (some { exactLimitsDefaults with maxLimbs := 0xffffffff, maxBytes := s.limits.maxBytes })
    s.heap with
  | mk made heap =>
    simp only [wp_set]
    cases made with
    | none => exact wp_refuse _ (fun _ kept => ⟨kept.pools, kept.limits⟩)
    | some exact =>
      have wellFormed := exactContextCreate_wellFormed created
      refine ⟨⟨rfl, rfl⟩, wellFormed.toValid, fun handle => ?_⟩
      have empty : exact.values = [] := by
        unfold exactContextCreate at created
        dsimp only at created
        split at created
        · cases created
        split at created
        · cases created
          rfl
        · cases created
      rw [ExactContext.lookup, empty]
      rfl

theorem copyDecimalToken_spec (text : List UInt8) :
    wp (copyDecimalToken text) (fun _ t => Kept s t) (fun _ t => Kept s t) s := by
  unfold copyDecimalToken
  apply wp_ite
  · intro _
    exact ⟨rfl, rfl⟩
  intro _
  simp only [wp_bind]
  refine wp_good allocate_spec fun granted t kept => ?_
  apply wp_ite
  · intro _
    exact kept
  · intro _
    exact ⟨kept.pools, kept.limits⟩

/-- `phy_ir_rational_text_n`: the quotient of the two numerals. -/
theorem irRationalTextN_makes (sound : Sound s.pools graph) (numerator denominator : List UInt8) :
    wp (irRationalTextN numerator denominator) (fun ref t => ∃ q,
      decimalFraction (numerator ++ [0]) (denominator ++ [0]) = some q ∧ Makes s graph (.node (.exact q) []) ref t)
      (fun _ t => Kept s t) s := by
  unfold irRationalTextN
  simp only [wp_bind]
  refine wp_good (copyDecimalToken_spec numerator) fun first t kept => ?_
  refine wp_mono (copyDecimalToken_spec denominator) (fun second t kept' => ?_) (fun _ _ stopped => kept.trans stopped)
  replace kept := kept.trans kept'
  apply wp_ite
  · intro _
    exact kept
  intro _
  simp only [wp_bind]
  refine wp_mono exactReaderCreate_spec (fun exact t held => ?_) (fun _ _ stopped => kept.trans stopped)
  obtain ⟨kept', valid, fresh⟩ := held
  replace kept := kept.trans kept'
  have reading : wp (do
      bigratInit 0
      bigratRead 0 (numerator ++ [0]) (denominator ++ [0]) : ExactM Unit)
      (fun _ after => ∃ q, decimalFraction (numerator ++ [0]) (denominator ++ [0]) = some q ∧ Valid after ∧
        Represents after 0 q) (fun _ _ => True) { exact with heap := t.heap } := by
    simp only [wp_bind]
    refine wp_mono (bigratInit_spec (Valid.heap valid t.heap) (fresh _) (fresh _)) (fun _ opened held => ?_)
      (fun _ _ _ => trivial)
    obtain ⟨valid, _, views⟩ := held
    have zero : Represents opened 0 0 := by
      refine ⟨?_, ?_⟩
      · rw [views, if_pos rfl]
        rfl
      · rw [views, if_neg (by simp), if_pos rfl]
        rfl
    refine wp_mono (bigratRead_spec valid zero (numerator ++ [0]) (denominator ++ [0])) (fun _ after held => ?_)
      (fun _ _ _ => trivial)
    obtain ⟨q, value, writes⟩ := held
    exact ⟨q, value, writes.valid, writes.result⟩
  refine wp_mono (onExact_spec reading) (fun result u held => ?_) (fun _ _ stopped => kept.trans stopped)
  obtain ⟨kept', q, value, valid, represents⟩ := held
  replace kept := kept.trans kept'
  have sound' : Sound u.pools graph := kept.pools ▸ sound
  exact wp_mono (publishBigRational_makes sound' valid represents)
    (fun ref v held => ⟨q, value, held.of_kept kept⟩) (fun _ _ stopped => kept.trans stopped)

end PhyNspire.Ir.Texts

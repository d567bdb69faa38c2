import PhyNspire.Qft.LieValues

/-!
What the Lagrangian computes: the density of the Killing form with the dual of the metric. The
dual is asked for only where a Killing component is not known to be zero, so that the
metric is known to be symmetric unless the Killing form vanishes.
-/

namespace PhyNspire.Qft
open Cas Tensor Geom Lib.Stateful Lib.Exterior Lib.LieForms

variable {State Ref K : Type} [Field K] {n : Nat} {value : Ref → Option K}

noncomputable def manifoldDual (root : K → K) (manifold : Manifold Ref) (t : List Nat → K) :
    (Finset Nat → K) →ₗ[K] (Finset Nat → K) :=
  hodgeMap (Finset.range manifold.dimension) (inverseOf manifold.dimension (entry t))
    (orientationSign manifold * root (manifoldMetricSign manifold * determinantOf manifold.dimension (entry t)))

/-- A sum that was added to the memory, with the table of the weights that went into it. -/
def Summed (value : Ref → Option K) (manifold : Manifold Ref) (t : List Nat → K) (world : World State Ref)
    (total : (Finset Nat → K) × (Fin n → Fin n → K)) (sum : Nat) (after : World State Ref) : Prop :=
  ∃ form, Adds world after sum form ∧ form.manifold = manifold ∧ Means value form total.1 ∧
    (total.2 = 0 ∨ Symmetric manifold.dimension (entry t))

theorem sum_table (k : Fin n → Fin n → K) (m : Fin n → Fin n → Finset Nat → K) :
    ∑ a, ∑ b, (m a b, Pi.single (M := fun _ => Fin n → K) a (Pi.single (M := fun _ => K) b (k a b))) =
      (∑ a, ∑ b, m a b, k) := by
  refine Prod.ext ?_ ?_
  · simp only [Prod.fst_sum]
  · funext a b
    simp only [Prod.snd_sum, Finset.sum_apply]
    rw [Finset.sum_eq_single a]
    · simp only [Pi.single_eq_same]
      rw [Finset.sum_eq_single b]
      · exact Pi.single_eq_same ..
      · exact fun other _ different => Pi.single_eq_of_ne (Ne.symm different) _
      · exact fun missing => absurd (Finset.mem_univ b) missing
    · intro other _ different
      simp only [Pi.single_eq_of_ne (Ne.symm different), Pi.zero_apply, Finset.sum_const_zero]
    · exact fun missing => absurd (Finset.mem_univ a) missing

section Exact

variable [DecidableEq Ref] {engine : Placed State Ref} {partialBy : Ref → Derivation ℤ K K} {root : K → K} {mayStop : Prop}
  (exact : Exact engine.toCas value partialBy) (sound : Sound engine.toEngine value root mayStop)
  {f : Fin n → Fin n → Fin n → K}

include exact in
theorem wp_weighInner {algebra : LieAlgebra Ref} (constants : Constants value algebra f) (a b : Fin n) (s : State) :
    wp (weighInner engine algebra none a b)
      (fun weight _ => value weight.1 = some (killing f a b) ∧ (weight.2 = .zero → killing f a b = 0)) (fun _ _ => True) s := by
  unfold weighInner innerProduct
  rw [wp_bind]
  refine wp_mono (wp_lieKillingComponent exact.deciding constants a b s) (fun inner t denotes => ?_) (fun _ _ _ => trivial)
  rw [wp_bind]
  exact wp_mono (exact.isZero inner _ t denotes) (fun decision _ known => ⟨denotes, known.1⟩) (fun _ _ _ => trivial)

variable {metric : Tensor Ref} {t : List Nat → K} (components : TensorMeans value metric t) {manifold : Manifold Ref}
  (regular : determinantOf manifold.dimension (entry t) ≠ 0)
include exact sound components regular

theorem publishes_addDensity {world : World State Ref} {sum left right : Nat} {s l r : Form Ref} {σ α β : Finset Nat → K}
    {factor : Ref} {k : K} (lives : world.form sum = some s) (lives' : world.form left = some l)
    (lives'' : world.form right = some r) (first : Means value s σ) (second : Means value l α) (third : Means value r β)
    (denotes : value factor = some k) (same : r.manifold = manifold) :
    Publishes world (addDensity engine metric sum left right factor) (fun result => s.Like s.degree result ∧
      Means value result (σ + k • wedge α (manifoldDual root manifold t β)) ∧ Symmetric manifold.dimension (entry t)) := by
  subst same
  unfold addDensity
  refine publishes_scratch (publishes_formHodgeMetric sound lives'' third components regular) (fun address form after adds known => ?_)
  obtain ⟨-, posed, means, -⟩ := known
  refine (publishes_addScaledWedge exact (adds.lives lives) (adds.lives lives') adds.2.1 first second means denotes).mono ?_
  exact fun result known => ⟨known.1, known.2, posed.symmetric⟩

variable {curvature : LieForm Ref} {world : World State Ref} {F : Fin n → Finset Nat → K}
  (carries : Carries value world curvature F) (placed : curvature.manifold = manifold)
  (constants : Constants value curvature.algebra f)
include carries placed constants

theorem wp_lagrangianTerm (a b : Fin n) {total : (Finset Nat → K) × (Fin n → Fin n → K)} {sum : Nat} {after : World State Ref}
    (summed : Summed value manifold t world total sum after) :
    wp (lagrangianTerm engine curvature metric none a b sum)
      (Summed value manifold t world (total + (killing f a b • wedge (F a) (manifoldDual root manifold t (F b)),
        Pi.single a (Pi.single b (killing f a b)))))
      (fun _ later => Untouched world later) after := by
  obtain ⟨form, adds, same, means, known⟩ := summed
  unfold lagrangianTerm
  rw [wp_bind, wp_abandoning, Geom.wp_scalar]
  refine wp_mono (wp_weighInner exact constants a b after.session) (fun weight session weighed => ?_)
    (fun _ _ _ => adds.destroyed (Untouched.refl after))
  obtain ⟨denotes, vanishes⟩ := weighed
  have moved : Adds world { after with session := session } sum form := adds
  refine wp_ite (fun zero => ?_) (fun _ => ?_)
  · rw [vanishes zero, zero_smul, Pi.single_zero, Pi.single_zero, Prod.mk_zero_zero, add_zero, wp_pure]
    exact ⟨form, moved, same, means, known⟩
  · obtain ⟨l, lives, -, means'⟩ := carries.carried a
    obtain ⟨r, lives', fits, means''⟩ := carries.carried b
    rw [wp_bind, wp_abandoning]
    refine wp_mono (publishes_addDensity exact sound components regular moved.2.1 (moved.lives lives) (moved.lives lives') means
      means' means'' denotes (fits.1.trans placed)) ?_ (fun _ later untouched => moved.destroyed untouched)
    rintro next later ⟨result, adds', alike, means''', symmetric⟩
    rw [wp_bind, wp_modify, wp_pure]
    exact ⟨result, moved.remains adds', alike.1.trans same, means''', Or.inr symmetric⟩

theorem wp_lagrangianSum {total : (Finset Nat → K) × (Fin n → Fin n → K)} {sum : Nat} {after : World State Ref}
    (summed : Summed value manifold t world total sum after) :
    wp (countUp (fun a sum => countUp (fun b sum => lagrangianTerm engine curvature metric none a b sum) n 0 sum) n 0 sum)
      (Summed value manifold t world (total + (density (killing f) (manifoldDual root manifold t) F F, killing f)))
      (fun _ later => Untouched world later) after := by
  let part (a b : Fin n) : (Finset Nat → K) × (Fin n → Fin n → K) :=
    (killing f a b • wedge (F a) (manifoldDual root manifold t (F b)), Pi.single a (Pi.single b (killing f a b)))
  have row (a : Fin n) (total : (Finset Nat → K) × (Fin n → Fin n → K)) (sum : Nat) (after : World State Ref)
      (summed : Summed value manifold t world total sum after) :
      wp (countUp (fun b sum => lagrangianTerm engine curvature metric none a b sum) n 0 sum)
        (Summed value manifold t world (total + ∑ b, part a b)) (fun _ later => Untouched world later) after :=
    wp_gather (Summed value manifold t world) (part a) summed (fun b total sum after summed =>
      wp_lagrangianTerm exact sound components regular carries placed constants a b summed)
  have loops : wp (countUp (fun a sum => countUp (fun b sum => lagrangianTerm engine curvature metric none a b sum) n 0 sum)
      n 0 sum) (Summed value manifold t world (total + ∑ a, ∑ b, part a b)) (fun _ later => Untouched world later) after :=
    wp_gather (Summed value manifold t world) (fun a => ∑ b, part a b) summed row
  have whole : ∑ a, ∑ b, part a b = (density (killing f) (manifoldDual root manifold t) F F, killing f) := sum_table _ _
  rw [whole] at loops
  exact loops

theorem publishes_yangMillsLagrangian {c : K}
    (minusHalf : ∀ s, wp (engine.number (-1) 2) (fun ref _ => value ref = some c) (fun _ _ => True) s) :
    Publishes world (yangMillsLagrangian engine curvature metric none) (fun result =>
      Means value result (c • density (killing f) (manifoldDual root manifold t) F F) ∧
        (killing f = 0 ∨ Symmetric manifold.dimension (entry t))) := by
  unfold yangMillsLagrangian LieForm.dimension
  refine publishes_ite (fun _ => publishes_throw _ _ _) (fun _ => ?_)
  unfold Publishes
  rw [wp_bind, carries.sized]
  refine wp_mono (wp_formCreate curvature.manifold curvature.chartIndex curvature.manifold.dimension world) ?_
    (fun _ after refused address => by unfold World.form; rw [refused.1])
  rintro sum after ⟨rfl, form, last, same, -, -, blank⟩
  have vanishes : value form.zero = some 0 := by
    unfold Form.zero
    rw [same]
    exact carries.zero
  have start : Summed value manifold t world ((0 : (Finset Nat → K) × (Fin n → Fin n → K))) world.forms.length after :=
    ⟨form, adds_last last, same.trans placed, ⟨vanishes, fun position _ => by
      rw [blank, ← same]
      exact vanishes, fun _ _ => rfl⟩, Or.inl rfl⟩
  refine wp_then (wp_lagrangianSum exact sound components regular carries placed constants start) fun sum later summed => ?_
  rw [zero_add] at summed
  obtain ⟨total, adds, -, means, known⟩ := summed
  unfold scaleHalf
  rw [wp_ensuring, wp_bind, Geom.wp_scalar]
  refine wp_mono (minusHalf later.session) (fun ref session denotes => ?_) (fun _ _ _ => adds.destroyed (Untouched.refl later))
  have moved : Adds world { later with session := session } sum total := adds
  refine wp_mono (publishes_formScale exact moved.2.1 means denotes) ?_ (fun _ _ untouched => moved.destroyed untouched)
  rintro address final ⟨result, adds', -, means'⟩
  exact ⟨result, moved.remains adds', means', known⟩

end Exact

end PhyNspire.Qft

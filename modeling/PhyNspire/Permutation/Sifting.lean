import Mathlib.Algebra.GroupWithZero.Units.Fintype
import Mathlib.Data.Fintype.Perm
import PhyNspire.Permutation.Transversals

/-!
The transversal chain as a stabilizer chain of signed permutations, and what sifting an
element through it says about the element.

The remainder -1 of a factorization is admitted once the negative identity is known.
-/

namespace PhyNspire.Permutation.Sifting
open Lib.Stateful Lib.StabilizerChain Perm Bsgs Elements Transversals Subgroup

variable {n : Nat}

/-- The elements that move no point: the identity, and the negative identity when it is known. -/
def remainders (negative : Bool) : Subgroup (Signed n) where
  carrier := {g | g.2 = 1 ∧ (g.1 = 1 ∨ negative = true)}
  one_mem' := ⟨rfl, .inl rfl⟩
  mul_mem' := by
    rintro g h ⟨still, sign⟩ ⟨still', sign'⟩
    refine ⟨by rw [Prod.snd_mul, still, still', one_mul], ?_⟩
    rcases sign with sign | known
    · rcases sign' with sign' | known
      · exact .inl (by rw [Prod.fst_mul, sign, sign', one_mul])
      · exact .inr known
    · exact .inr known
  inv_mem' := by
    rintro g ⟨still, sign⟩
    exact ⟨by rw [Prod.snd_inv, still, inv_one], sign.imp_left fun one => by rw [Prod.fst_inv, one, inv_one]⟩

theorem mem_remainders {negative : Bool} {g : Signed n} :
    g ∈ remainders negative ↔ g.2 = 1 ∧ (g.1 = 1 ∨ negative = true) := Iff.rfl

theorem remainders_central (negative : Bool) : (remainders negative : Subgroup (Signed n)) ≤ center (Signed n) := by
  intro g member
  refine mem_center_iff.mpr fun h => Prod.ext (mul_comm _ _) ?_
  rw [Prod.snd_mul, Prod.snd_mul, (mem_remainders.mp member).1, one_mul, mul_one]

abbrev onPoints : Signed n →* Equiv.Perm (Fin n) := MonoidHom.snd ℤˣ (Equiv.Perm (Fin n))

theorem remainders_still (negative : Bool) : ∀ g ∈ (remainders negative : Subgroup (Signed n)), onPoints g = 1 :=
  fun _ member => (mem_remainders.mp member).1

theorem card_remainders (negative : Bool) :
    Nat.card (remainders negative : Subgroup (Signed n)) = if negative then 2 else 1 := by
  have units : ∀ u : ℤˣ, u = 1 ∨ u = -1 := Int.units_eq_one_or
  cases negative with
  | false =>
    have trivial : (remainders false : Subgroup (Signed n)) = ⊥ := by
      refine (eq_bot_iff_forall _).mpr fun g member => ?_
      obtain ⟨still, one | known⟩ := mem_remainders.mp member
      · exact Prod.ext one still
      · cases known
    rw [trivial, card_bot]
    rfl
  | true =>
    have pair : ((remainders true : Subgroup (Signed n)) : Set (Signed n)) = {1, (-1, 1)} := by
      ext g
      rw [SetLike.mem_coe, mem_remainders, Set.mem_insert_iff, Set.mem_singleton_iff, Prod.ext_iff, Prod.ext_iff]
      rcases units g.1 with one | minus
      · simp [one]
      · simp [minus]
    have distinct : (1 : Signed n) ≠ (-1, 1) := fun same =>
      absurd (show (1 : ℤˣ) = -1 from congrArg Prod.fst same) (by decide)
    rw [← SetLike.coe_sort_coe, Nat.card_coe_set_eq, pair, Set.ncard_pair distinct]
    rfl

theorem levelsFrom_cons (level : Fin n) : levelsFrom level.val = level :: levelsFrom (level.val + 1) := by
  have inside : level.val < (List.finRange n).length := by
    rw [List.length_finRange]
    exact level.isLt
  rw [levelsFrom, levelsFrom, List.drop_eq_getElem_cons inside, List.getElem_finRange]
  rfl

theorem levelsFrom_end {start : Nat} (past : n ≤ start) : levelsFrom (n := n) start = [] :=
  List.drop_of_length_le (by rwa [List.length_finRange])

theorem levels_induction {P : Nat → Prop} (last : ∀ start, n ≤ start → P start)
    (step : ∀ level : Fin n, P (level.val + 1) → P level.val) (start : Nat) : P start := by
  by_cases past : n ≤ start
  · exact last start past
  · have less : start < n := Nat.lt_of_not_le past
    exact step ⟨start, less⟩ (levels_induction last step (start + 1))
termination_by n - start

section
variable {strong : List (StrongGenerator n)} {chain : PermChain n}

noncomputable def levelOf (strong : List (StrongGenerator n)) (chain : PermChain n) (level : Fin n) :
    Level (Signed n) (Fin n) :=
  { base := level
    generators := strongFrom strong level.val
    orbit := {x | chain.valid level x = true}
    representative := fun x => elementOf (chain.transversal level x) (chain.sign level x) }

noncomputable def chainFrom (strong : List (StrongGenerator n)) (chain : PermChain n) (start : Nat) :
    List (Level (Signed n) (Fin n)) := (levelsFrom start).map (levelOf strong chain)

theorem chainFrom_cons (level : Fin n) :
    chainFrom strong chain level.val = levelOf strong chain level :: chainFrom strong chain (level.val + 1) := by
  rw [chainFrom, levelsFrom_cons, List.map_cons, chainFrom]

theorem chainFrom_end {start : Nat} (past : n ≤ start) : chainFrom strong chain start = [] := by
  rw [chainFrom, levelsFrom_end past, List.map_nil]

theorem strongFrom_end (proper : StrongProper strong) {start : Nat} (past : n ≤ start) :
    strongFrom strong start = ∅ := by
  refine Set.eq_empty_of_forall_notMem ?_
  rintro _ ⟨generator, member, above, rfl⟩
  have := (proper generator member).2.2
  omega

theorem strongFrom_anti {low high : Nat} (ordered : low ≤ high) : strongFrom strong high ⊆ strongFrom strong low := by
  rintro _ ⟨generator, member, above, rfl⟩
  exact ⟨generator, member, ordered.trans above, rfl⟩

theorem generatorsOf_chainFrom (proper : StrongProper strong) (start : Nat) :
    generatorsOf (chainFrom strong chain start) = strongFrom strong start := by
  by_cases past : n ≤ start
  · rw [chainFrom_end past, strongFrom_end proper past]
    rfl
  · obtain ⟨level, rfl⟩ : ∃ level : Fin n, level.val = start := ⟨⟨start, Nat.lt_of_not_le past⟩, rfl⟩
    rw [chainFrom_cons]
    rfl

def groupFrom (strong : List (StrongGenerator n)) (negative : Bool) (start : Nat) : Subgroup (Signed n) :=
  closure (strongFrom strong start ∪ (remainders negative : Subgroup (Signed n)))

theorem groupOf_chainFrom (chain : PermChain n) (proper : StrongProper strong) (negative : Bool) (start : Nat) :
    groupOf (remainders negative) (chainFrom strong chain start) = groupFrom strong negative start := by
  rw [groupOf, generatorsOf_chainFrom proper, groupFrom]

theorem stage_of_row (proper : StrongProper strong) {level : Fin n} (row : Row strong chain level) :
    Stage onPoints (levelOf strong chain level) (chainFrom strong chain (level.val + 1)) := by
  have carries : ∀ x, chain.valid level x = true →
      permOf (chain.transversal level x) level = x := fun x valid => by
    rw [permOf_apply (row.entry x valid).proper.injective, (row.entry x valid).carries]
  refine ⟨?_, ?_, row.base, ?_, carries, fun x valid => (row.entry x valid).generated, ?_⟩
  · rw [generatorsOf_chainFrom proper]
    exact strongFrom_anti (Nat.le_succ _)
  · rw [generatorsOf_chainFrom proper]
    rintro _ ⟨generator, member, above, rfl⟩
    obtain ⟨fits, recorded, _⟩ := proper generator member
    change permOf generator.image level = level
    rw [permOf_apply fits.injective]
    exact permLevel_fixes level (by omega)
  · change elementOf (chain.transversal level level) (chain.sign level level) = 1
    rw [row.identity, row.positive, elementOf_identity]
  · rintro _ ⟨generator, member, above, rfl⟩ x valid
    change chain.valid level (permOf generator.image x) = true
    rw [permOf_apply (proper generator member).1.injective]
    exact row.closed generator member above x valid

theorem remainder_factored (rows : ∀ level, Row strong chain level) {rest : Subgroup (Signed n)} {g : Signed n}
    (member : g ∈ rest) (start : Nat) : g ∈ factored rest (chainFrom strong chain start) := by
  induction start using levels_induction (n := n) with
  | last start past =>
    rw [chainFrom_end past]
    exact member
  | step level deeper =>
    rw [chainFrom_cons]
    refine ⟨level, (rows level).base, g, deeper, ?_⟩
    change g = elementOf (chain.transversal level level) (chain.sign level level) * g
    rw [(rows level).identity, (rows level).positive, elementOf_identity, one_mul]

def FixesBelow (image : Image n) (level : Nat) : Prop := ∀ i : Fin n, i.val < level → image i = i

theorem closure_fixes (proper : StrongProper strong) {level : Nat} {g : Signed n}
    (member : g ∈ closure (strongFrom strong level)) {i : Fin n} (below : i.val < level) : g.2 i = i := by
  induction member using closure_induction with
  | mem g generator =>
    obtain ⟨generator, inside, above, rfl⟩ := generator
    obtain ⟨fits, recorded, _⟩ := proper generator inside
    change permOf generator.image i = i
    rw [permOf_apply fits.injective]
    exact permLevel_fixes i (by omega)
  | one => rfl
  | mul g h _ _ left right => rw [Prod.snd_mul, Equiv.Perm.mul_apply, right, left]
  | inv g _ fixed => rw [Prod.snd_inv, Equiv.Perm.inv_eq_iff_eq, fixed]

theorem entry_fixes (proper : StrongProper strong) {level x : Fin n} (entry : Entry strong chain level x) :
    FixesBelow (chain.transversal level x) level.val := by
  intro i below
  have fixed := closure_fixes proper entry.generated below
  rwa [elementOf, permOf_apply entry.proper.injective] at fixed

/-- One sifting step divides by the representative on the left and fixes one point more. -/
theorem sift_step (proper : StrongProper strong) {level : Fin n} {image : Image n} {sign : Int}
    (fits : Proper image sign) (fixed : FixesBelow image level.val)
    (entry : Entry strong chain level (image level)) (out : Image n) :
    Proper (permComposeUnchecked (permInverseUnchecked (chain.transversal level (image level)) out) image)
        (sign * chain.sign level (image level)) ∧
      FixesBelow (permComposeUnchecked (permInverseUnchecked (chain.transversal level (image level)) out) image)
        (level.val + 1) ∧
      elementOf (permComposeUnchecked (permInverseUnchecked (chain.transversal level (image level)) out) image)
        (sign * chain.sign level (image level)) =
        (elementOf (chain.transversal level (image level)) (chain.sign level (image level)))⁻¹ *
          elementOf image sign := by
  have inverse := entry.proper.inverse out
  rw [mul_comm sign]
  refine ⟨inverse.compose fits, fun i below => ?_, ?_⟩
  · have undone := permInverseUnchecked_apply entry.proper.injective out
    by_cases here : i = level
    · subst here
      have back := undone i
      rwa [entry.carries] at back
    · have less : i.val < level.val := by
        have : i.val ≠ level.val := fun same => here (Fin.ext same)
        omega
      have back := undone i
      rw [entry_fixes proper entry i less] at back
      rw [permComposeUnchecked, fixed i less, back]
  · rw [elementOf_compose inverse fits, elementOf_inverse entry.proper]

structure Sifts (strong : List (StrongGenerator n)) (chain : PermChain n) (start : Nat) (g : Signed n)
    (remainder : Image n) (sign : Int) : Prop where
  proper : Proper remainder sign
  /-- When what is left is a remainder, the element factors. -/
  factors : ∀ rest : Subgroup (Signed n), elementOf remainder sign ∈ rest →
    g ∈ factored rest (chainFrom strong chain start)
  /-- When the element factors, what is left is a remainder. -/
  complete : ∀ negative, Complete onPoints (remainders negative) (chainFrom strong chain start) →
    g ∈ factored (remainders negative) (chainFrom strong chain start) →
    elementOf remainder sign ∈ (remainders negative : Subgroup (Signed n))
  /-- Nothing is left that the generators and the element do not generate. -/
  sound : ∀ H : Subgroup (Signed n), strongFrom strong start ⊆ H → g ∈ H → elementOf remainder sign ∈ H
  /-- Something other than the identity is left only where an orbit does not reach. -/
  stuck : remainder = permutationIdentity ∨ ∃ level : Fin n, start ≤ level.val ∧ FixesBelow remainder level.val ∧
    chain.valid level (remainder level) = false

theorem permSift_spec (rows : ∀ level, Row strong chain level) (proper : StrongProper strong) (start : Nat)
    {image : Image n} {sign : Int} (fits : Proper image sign) (fixed : FixesBelow image start) (s : Session n)
    (same : s.chain = chain) :
    wp (permSift (levelsFrom start) image sign)
      (fun result t => t.group = s.group ∧ t.chain = chain ∧
        Sifts strong chain start (elementOf image sign) result.1 result.2)
      (fun _ t => t.group = s.group) s := by
  induction start using levels_induction (n := n) generalizing image sign s with
  | last start past =>
    rw [levelsFrom_end past]
    refine ⟨rfl, same, fits, fun rest member => remainder_factored rows member start, ?_, fun _ _ member => member,
      .inl (funext fun i => fixed i (by omega))⟩
    intro negative _ member
    rwa [chainFrom_end past] at member
  | step level ih =>
    have row := rows level
    rw [levelsFrom_cons, permSift]
    simp only [wp_bind, wp_get, same]
    apply wp_ite
    · intro outside
      have unreached : chain.valid level (image level) = false := by simpa using outside
      refine ⟨rfl, same, fits, fun rest member => remainder_factored rows member _, ?_, fun _ _ member => member,
        .inr ⟨level, Nat.le_refl _, fixed, unreached⟩⟩
      intro negative complete member
      rw [chainFrom_cons] at complete member
      cases complete with
      | cons stage _ below =>
        have reached := ((stage.sift (remainders_central negative) (remainders_still negative) below _).mp member).1
        change chain.valid level (permOf image level) = true at reached
        rw [permOf_apply fits.injective, unreached] at reached
        cases reached
    · intro inside
      have reached : chain.valid level (image level) = true := by simpa using inside
      have entry := row.entry _ reached
      obtain ⟨fits', fixed', quotient⟩ := sift_step proper fits fixed entry blankImage
      simp only [wp_bind]
      have step : wp (permStep 2) (fun _ t => t = { s with steps := s.steps + 2 }) (fun _ t => t.group = s.group) s :=
        permStep_spec s 2 fun _ => rfl
      refine wp_good step ?_
      rintro _ t rfl
      refine wp_good (ih fits' fixed' { s with steps := s.steps + 2 } same) ?_
      rintro ⟨remainder, sign'⟩ t ⟨group, kept, sifts⟩
      rw [quotient] at sifts
      refine ⟨group, kept, sifts.proper, fun rest member => ?_, fun negative complete member => ?_,
        fun H included member => ?_, ?_⟩
      · rw [chainFrom_cons]
        exact ⟨image level, reached, _, sifts.factors rest member, (mul_inv_cancel_left _ _).symm⟩
      · rw [chainFrom_cons] at complete member
        cases complete with
        | cons stage _ below =>
          have divided := ((stage.sift (remainders_central negative) (remainders_still negative) below _).mp member).2
          have base : onPoints (elementOf image sign) (levelOf strong chain level).base = image level :=
            permOf_apply fits.injective level
          rw [base] at divided
          exact sifts.complete negative below divided
      · have representative := (closure_le H).mpr included entry.generated
        exact sifts.sound H ((strongFrom_anti (Nat.le_succ _)).trans included)
          (mul_mem (inv_mem representative) member)
      · rcases sifts.stuck with identity | ⟨deeper, above, unreached⟩
        · exact .inl identity
        · exact .inr ⟨deeper, by omega, unreached⟩

end

end PhyNspire.Permutation.Sifting

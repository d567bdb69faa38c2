import PhyNspire.Permutation.Elements
import PhyNspire.Lib.StabilizerChain

/-!
The transversal chain: after it has been built from strong generators, each level holds
the orbit of its base point under the generators that fix all smaller points, and for each
point of the orbit a signed permutation that carries the base point there.
-/

namespace PhyNspire.Permutation.Transversals
open Lib.Stateful Lib.Search Perm Bsgs Elements Subgroup

variable {n : Nat}

/-- Strong generators are permutations, and their levels are recorded correctly. -/
def StrongProper (strong : List (StrongGenerator n)) : Prop :=
  ∀ generator ∈ strong, Proper generator.image generator.sign ∧ generator.level = permLevel generator.image ∧
    generator.level < n

def strongFrom (strong : List (StrongGenerator n)) (level : Nat) : Set (Signed n) :=
  {g | ∃ generator ∈ strong, level ≤ generator.level ∧ g = elementOf generator.image generator.sign}

structure Entry (strong : List (StrongGenerator n)) (chain : PermChain n) (level x : Fin n) : Prop where
  proper : Proper (chain.transversal level x) (chain.sign level x)
  carries : chain.transversal level x level = x
  generated : elementOf (chain.transversal level x) (chain.sign level x) ∈ closure (strongFrom strong level.val)

structure Row (strong : List (StrongGenerator n)) (chain : PermChain n) (level : Fin n) : Prop where
  base : chain.valid level level = true
  identity : chain.transversal level level = permutationIdentity
  positive : chain.sign level level = 1
  entry : ∀ x, chain.valid level x = true → Entry strong chain level x
  closed : ∀ generator ∈ strong, level.val ≤ generator.level → ∀ x, chain.valid level x = true →
    chain.valid level (generator.image x) = true
  counted : chain.orbitCount level = {x | chain.valid level x = true}.ncard

structure SameRow (chain chain' : PermChain n) (level : Fin n) : Prop where
  valid : chain'.valid level = chain.valid level
  sign : chain'.sign level = chain.sign level
  transversal : chain'.transversal level = chain.transversal level
  orbitCount : chain'.orbitCount level = chain.orbitCount level

theorem SameRow.refl (chain : PermChain n) (level : Fin n) : SameRow chain chain level := ⟨rfl, rfl, rfl, rfl⟩

theorem SameRow.trans {first second third : PermChain n} {level : Fin n} (left : SameRow first second level)
    (right : SameRow second third level) : SameRow first third level :=
  ⟨right.valid.trans left.valid, right.sign.trans left.sign, right.transversal.trans left.transversal,
    right.orbitCount.trans left.orbitCount⟩

theorem Row.frame {strong : List (StrongGenerator n)} {chain chain' : PermChain n} {level : Fin n}
    (row : Row strong chain level) (same : SameRow chain chain' level) : Row strong chain' level := by
  refine ⟨?_, ?_, ?_, fun x valid => ?_, fun generator member above x valid => ?_, ?_⟩
  · rw [same.valid, row.base]
  · rw [same.transversal, row.identity]
  · rw [same.sign, row.positive]
  · rw [same.valid] at valid
    have entry := row.entry x valid
    refine ⟨?_, ?_, ?_⟩
    · rw [same.transversal, same.sign]
      exact entry.proper
    · rw [same.transversal, entry.carries]
    · rw [same.transversal, same.sign]
      exact entry.generated
  · rw [same.valid] at valid ⊢
    exact row.closed generator member above x valid
  · rw [same.orbitCount, row.counted, same.valid]

section
variable (chain : PermChain n) (level point : Fin n) (image : Image n) (sign : Int)

theorem record_valid (x : Fin n) : (Chain.record chain level point image sign).valid level x =
    if x = point then true else chain.valid level x := by
  simp only [Chain.record, Function.update_self, Function.update_apply]

theorem record_sign (x : Fin n) : (Chain.record chain level point image sign).sign level x =
    if x = point then sign else chain.sign level x := by
  simp only [Chain.record, Function.update_self, Function.update_apply]

theorem record_transversal (x : Fin n) : (Chain.record chain level point image sign).transversal level x =
    if x = point then image else chain.transversal level x := by
  simp only [Chain.record, Function.update_self, Function.update_apply]

theorem record_others {other : Fin n} (different : other ≠ level) :
    SameRow chain (Chain.record chain level point image sign) other := by
  refine ⟨?_, ?_, ?_, rfl⟩ <;> simp only [Chain.record, Function.update_of_ne different]

theorem count_others (tail : Nat) {other : Fin n} (different : other ≠ level) :
    SameRow chain (Chain.count chain level tail) other :=
  ⟨rfl, rfl, rfl, by simp only [Chain.count, Function.update_of_ne different]⟩

end

/-- The state of the search for the orbit of a level. -/
structure Growing (start : Session n) (level : Fin n) (queue : List (Fin n)) (t : Session n) : Prop where
  group : t.group = start.group
  others : ∀ other, other ≠ level → SameRow start.chain t.chain other
  queued : ∀ x, t.chain.valid level x = true ↔ x ∈ queue
  nodup : queue.Nodup
  base : level ∈ queue
  identity : t.chain.transversal level level = permutationIdentity
  positive : t.chain.sign level level = 1
  entry : ∀ x ∈ queue, Entry start.group.strong t.chain level x

theorem Growing.length_le {start t : Session n} {level : Fin n} {queue : List (Fin n)}
    (growing : Growing start level queue t) : queue.length ≤ n := by
  have bound := growing.nodup.length_le_card
  rwa [Fintype.card_fin] at bound

/-- The other end of an edge of the search. -/
def orbitTarget (level : Fin n) (point : Fin n) (generator : StrongGenerator n) : Option (Fin n) :=
  if generator.level < level.val then none else some (generator.image point)

theorem permStep_spec (s : Session n) (amount : Nat) {bad : Platform.Status → Session n → Prop}
    (stopped : ∀ stop, bad stop s) :
    wp (permStep amount) (fun _ t => t = { s with steps := s.steps + amount }) bad s := by
  unfold permStep
  simp only [wp_bind, wp_get]
  apply wp_ite
  · exact fun _ => stopped _
  · exact fun _ => rfl

theorem Entry.extend {strong : List (StrongGenerator n)} {chain : PermChain n} {level point : Fin n}
    {generator : StrongGenerator n} (proper : StrongProper strong) (member : generator ∈ strong)
    (above : level.val ≤ generator.level) (entry : Entry strong chain level point) :
    Entry strong (Chain.record chain level (generator.image point)
      (permComposeUnchecked generator.image (chain.transversal level point))
      (generator.sign * chain.sign level point)) level (generator.image point) := by
  have fits := (proper generator member).1
  refine ⟨?_, ?_, ?_⟩
  · rw [record_transversal, record_sign, if_pos rfl, if_pos rfl]
    exact fits.compose entry.proper
  · rw [record_transversal, if_pos rfl, permComposeUnchecked, entry.carries]
  · rw [record_transversal, record_sign, if_pos rfl, if_pos rfl, elementOf_compose fits entry.proper]
    exact mul_mem (subset_closure ⟨generator, member, above, rfl⟩) entry.generated

theorem Entry.frame {strong : List (StrongGenerator n)} {chain : PermChain n} {level point x : Fin n}
    {image : Image n} {sign : Int} (entry : Entry strong chain level x) (different : x ≠ point) :
    Entry strong (Chain.record chain level point image sign) level x := by
  refine ⟨?_, ?_, ?_⟩ <;>
    simp only [record_transversal, record_sign, if_neg different]
  · exact entry.proper
  · exact entry.carries
  · exact entry.generated

theorem extendOrbit_visits {start : Session n} (proper : StrongProper start.group.strong) (level : Fin n) :
    Visits (extendOrbit level) start.group.strong (fun _ t => t.group = start.group) (Growing start level)
      (orbitTarget level) := by
  intro queue s growing point member generator inside
  unfold extendOrbit
  by_cases below : generator.level < level.val
  · rw [if_pos below]
    refine ⟨by simpa using growing, fun next ends => ?_⟩
    simp only [orbitTarget, if_pos below, Option.mem_def] at ends
    cases ends
  · have target : ∀ next ∈ orbitTarget level point generator, next = generator.image point := by
      intro next ends
      simp only [orbitTarget, if_neg below, Option.mem_def, Option.some.injEq] at ends
      exact ends.symm
    simp only [if_neg below, wp_bind]
    refine wp_good (permStep_spec s 1 fun _ => growing.group) ?_
    rintro _ t rfl
    simp only [wp_get]
    apply wp_ite
    · intro known
      have old := (growing.queued _).mp known
      refine ⟨?_, fun next ends => ?_⟩
      · simpa using (⟨growing.group, growing.others, growing.queued, growing.nodup, growing.base, growing.identity,
          growing.positive, growing.entry⟩ : Growing start level queue { s with steps := s.steps + 1 })
      · rw [target next ends]
        simpa using old
    · intro unknown
      have new : generator.image point ∉ queue := fun old => unknown ((growing.queued _).mpr old)
      have different : level ≠ generator.image point := fun same => new (same ▸ growing.base)
      simp only [wp_bind, wp_modify, wp_pure, Session.withChain, Option.toList_some]
      refine ⟨⟨growing.group, fun other different => ?_, fun x => ?_, ?_, ?_, ?_, ?_, fun x queued => ?_⟩,
        fun next ends => ?_⟩
      · exact (growing.others other different).trans (record_others _ _ _ _ _ different)
      · rw [record_valid]
        by_cases here : x = generator.image point
        · simp [here]
        · simp [here, growing.queued]
      · exact List.nodup_append.mpr ⟨growing.nodup, List.nodup_singleton _, by
          rintro x old _ last rfl
          rw [List.mem_singleton] at last
          exact new (last ▸ old)⟩
      · exact List.mem_append_left _ growing.base
      · rw [record_transversal, if_neg different, growing.identity]
      · rw [record_sign, if_neg different, growing.positive]
      · rcases List.mem_append.mp queued with old | last
        · exact (growing.entry x old).frame fun same => new (same ▸ old)
        · obtain rfl := List.mem_singleton.mp last
          exact (growing.entry point member).extend proper inside (by omega)
      · rw [target next ends]
        simp

theorem growing_base {s : Session n} {level : Fin n} (empty : ∀ x, s.chain.valid level x = false) :
    Growing s level [level] (s.withChain fun chain => Chain.record chain level level permutationIdentity 1) := by
  refine ⟨rfl, fun other different => record_others _ _ _ _ _ different, fun x => ?_, List.nodup_singleton _,
    by simp, ?_, ?_, fun x member => ?_⟩
  · simp [Session.withChain, record_valid, empty]
  · simp [Session.withChain, record_transversal]
  · simp [Session.withChain, record_sign]
  · obtain rfl := List.mem_singleton.mp member
    refine ⟨?_, ?_, ?_⟩ <;>
      simp only [Session.withChain, record_transversal, record_sign, ↓reduceIte]
    · exact Proper.identity
    · rfl
    · rw [elementOf_identity]
      exact one_mem _

theorem buildLevel_spec (s : Session n) (proper : StrongProper s.group.strong) (level : Fin n)
    (empty : ∀ x, s.chain.valid level x = false) :
    wp (buildLevel level)
      (fun _ t => t.group = s.group ∧ Row s.group.strong t.chain level ∧
        ∀ other, other ≠ level → SameRow s.chain t.chain other)
      (fun _ t => t.group = s.group) s := by
  unfold buildLevel
  simp only [wp_bind, wp_modify, wp_get]
  have start := growing_base empty
  refine wp_good (wp_explore (extendOrbit_visits proper level) (fun _ _ growing => growing.length_le) n 0 [level] _
    (by omega) start (by simp)) ?_
  rintro queue t ⟨growing, _, closed⟩
  refine ⟨growing.group, ⟨?_, growing.identity, growing.positive, fun x valid => ?_, ?_, ?_⟩, fun other different => ?_⟩
  · exact (growing.queued level).mpr growing.base
  · have entry := growing.entry x ((growing.queued x).mp valid)
    exact ⟨entry.proper, entry.carries, entry.generated⟩
  · intro generator member above x valid
    refine (growing.queued _).mpr (closed x ((growing.queued x).mp valid) generator member _ ?_)
    simp [orbitTarget, Nat.not_lt.mpr above]
  · have points : {x | t.chain.valid level x = true} = {x | x ∈ queue} := Set.ext fun x => growing.queued x
    have counted : (Chain.count t.chain level queue.length).orbitCount level = queue.length := by
      simp only [Chain.count, Function.update_self]
    rw [show (t.withChain fun chain => Chain.count chain level queue.length).chain.valid = t.chain.valid from rfl,
      points, ← List.coe_toFinset queue, Set.ncard_coe_finset, List.toFinset_card_of_nodup growing.nodup]
    exact counted
  · exact (growing.others other different).trans (count_others _ _ _ different)

theorem buildLevels_spec (levels : List (Fin n)) (distinct : levels.Nodup) (s : Session n)
    (proper : StrongProper s.group.strong) (empty : ∀ level ∈ levels, ∀ x, s.chain.valid level x = false) :
    wp (levels.forM buildLevel)
      (fun _ t => t.group = s.group ∧ (∀ level ∈ levels, Row s.group.strong t.chain level) ∧
        ∀ other, other ∉ levels → SameRow s.chain t.chain other)
      (fun _ t => t.group = s.group) s := by
  induction levels generalizing s with
  | nil => exact ⟨rfl, by simp, fun _ _ => .refl _ _⟩
  | cons level rest ih =>
    obtain ⟨fresh, distinct⟩ := List.nodup_cons.mp distinct
    rw [List.forM]
    refine wp_then (buildLevel_spec s proper level (empty level (by simp))) ?_
    rintro _ t ⟨group, row, others⟩
    have empty_t : ∀ other ∈ rest, ∀ x, t.chain.valid other x = false := by
      intro other member x
      rw [(others other fun same => fresh (same ▸ member)).valid]
      exact empty other (by simp [member]) x
    refine wp_mono (ih distinct t (by rwa [group]) empty_t) ?_ (fun _ _ stopped => stopped.trans group)
    rintro _ u ⟨group', rows, others'⟩
    rw [group] at group' rows
    refine ⟨group', fun other member => ?_, fun other outside => ?_⟩
    · rcases List.mem_cons.mp member with rfl | later
      · exact row.frame (others' other fresh)
      · exact rows other later
    · simp only [List.mem_cons, not_or] at outside
      exact (others other outside.1).trans (others' other outside.2)

theorem permChainBuild_spec (s : Session n) (proper : StrongProper s.group.strong) :
    wp permChainBuild (fun _ t => t.group = s.group ∧ ∀ level, Row s.group.strong t.chain level)
      (fun _ t => t.group = s.group) s := by
  unfold permChainBuild
  simp only [wp_bind, wp_modify]
  refine wp_good (buildLevels_spec (List.finRange n) (List.nodup_finRange n) _ proper fun _ _ _ => rfl) ?_
  rintro _ t ⟨group, rows, _⟩
  exact ⟨group, fun level => rows level (List.mem_finRange level)⟩

end PhyNspire.Permutation.Transversals

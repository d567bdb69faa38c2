import PhyNspire.Permutation.Sifting

/-!
How the strong generators grow, and what a pass over the Schreier generators that changes
nothing says about the chain.
-/

namespace PhyNspire.Permutation.StrongGenerators
open Lib.Stateful Lib.StabilizerChain Perm Bsgs Elements Transversals Sifting Subgroup

variable {n : Nat}

/-- The negative identity. -/
def minus : Signed n := (-1, 1)

theorem minus_mem_remainders {negative : Bool} :
    (minus : Signed n) ∈ (remainders negative : Subgroup (Signed n)) ↔ negative = true := by
  rw [mem_remainders]
  refine ⟨fun member => member.2.resolve_left (by decide : ¬(-1 : ℤˣ) = 1), fun known => ⟨rfl, .inr known⟩⟩

/-- What a group has found lies in `G`. -/
structure Sound (G : Subgroup (Signed n)) (group : PermGroup n) : Prop where
  proper : StrongProper group.strong
  inside : strongFrom group.strong 0 ⊆ G
  negative : group.negativeIdentity = true → minus ∈ G

/-- The parts of a group that finding strong generators leaves alone. -/
structure Frame (before after : PermGroup n) : Prop where
  limits : after.limits = before.limits
  persistentBytes : after.persistentBytes = before.persistentBytes
  generators : after.generators = before.generators
  built : after.built = before.built

theorem Frame.refl (group : PermGroup n) : Frame group group := ⟨rfl, rfl, rfl, rfl⟩

theorem Frame.trans {first second third : PermGroup n} (left : Frame first second) (right : Frame second third) :
    Frame first third :=
  ⟨right.limits.trans left.limits, right.persistentBytes.trans left.persistentBytes,
    right.generators.trans left.generators, right.built.trans left.built⟩

theorem Frame.of_eq {before after : PermGroup n} (same : after = before) : Frame before after := same ▸ .refl _

/-- The number of changes so far: a pass is repeated only when it has increased it. -/
def progress (group : PermGroup n) : Nat := group.strong.length + group.negativeIdentity.toNat

/-- One group after another in the course of a search, with the answer whether it has changed. -/
structure Advance (before after : PermGroup n) (changed : Bool) : Prop where
  frame : Frame before after
  kept : before.strong ⊆ after.strong
  negative : before.negativeIdentity = true → after.negativeIdentity = true
  room : before.strong.length ≤ before.limits.maxStrongGenerators.toNat →
    after.strong.length ≤ before.limits.maxStrongGenerators.toNat
  still : changed = false → after = before
  moved : changed = true → progress before < progress after

theorem Advance.refl (group : PermGroup n) : Advance group group false :=
  ⟨.refl _, List.Subset.refl _, id, id, fun _ => rfl, fun moved => by cases moved⟩

theorem Advance.trans {first second third : PermGroup n} {now later : Bool} (left : Advance first second now)
    (right : Advance second third later) : Advance first third (now || later) := by
  refine ⟨left.frame.trans right.frame, List.Subset.trans left.kept right.kept, right.negative ∘ left.negative, fun room => ?_,
    fun still => ?_, fun moved => ?_⟩
  · rw [← left.frame.limits] at room ⊢
    rw [left.frame.limits] at room
    exact right.room (by rw [left.frame.limits]; exact left.room room)
  · obtain ⟨rfl, rfl⟩ := Bool.or_eq_false_iff.mp still
    rw [right.still rfl, left.still rfl]
  · cases now with
    | true =>
      have first_grows := left.moved rfl
      cases later with
      | true => exact first_grows.trans (right.moved rfl)
      | false => rwa [right.still rfl]
    | false =>
      rw [← left.still rfl]
      exact right.moved moved

theorem strongFrom_mono {strong strong' : List (StrongGenerator n)} (kept : strong ⊆ strong') (level : Nat) :
    strongFrom strong level ⊆ strongFrom strong' level := by
  rintro _ ⟨generator, member, above, rfl⟩
  exact ⟨generator, kept member, above, rfl⟩

inductive Known (group : PermGroup n) (image : Image n) (sign : Int) : Prop where
  | remainder (member : elementOf image sign ∈ (remainders group.negativeIdentity : Subgroup (Signed n)))
  | generator (found : StrongGenerator n) (member : found ∈ group.strong) (same : found.image = image)
      (moves : permIdentityImage image = false) (signs : found.sign = sign ∨ group.negativeIdentity = true)

theorem noteNegative_spec {G : Subgroup (Signed n)} (met : Bool) (s : Session n)
    (sound : Sound G s.group) (inside : met = true → minus ∈ G) :
    wp (permAddStrong.noteNegative met s.group.negativeIdentity)
      (fun now t => t.chain = s.chain ∧ Advance s.group t.group now ∧ Sound G t.group ∧
        (met = true → t.group.negativeIdentity = true) ∧ t.group.strong = s.group.strong)
      (fun _ t => Frame s.group t.group) s := by
  unfold permAddStrong.noteNegative
  apply wp_ite
  · intro news
    obtain ⟨here, unknown⟩ : met = true ∧ s.group.negativeIdentity = false := by simpa using news
    refine ⟨rfl, ⟨⟨rfl, rfl, rfl, rfl⟩, List.Subset.refl _, fun _ => rfl, id, fun still => (by cases still), ?_⟩,
      ⟨sound.proper, sound.inside, fun _ => inside here⟩, fun _ => rfl, rfl⟩
    simp [progress, Session.withGroup, unknown]
  · intro old
    refine ⟨rfl, .refl _, sound, fun here => ?_, rfl⟩
    simpa [here] using old

theorem elementOf_sign {image : Image n} {sign sign' : Int} (first : sign = 1 ∨ sign = -1)
    (second : sign' = 1 ∨ sign' = -1) (different : sign ≠ sign') :
    elementOf image sign = minus * elementOf image sign' := by
  refine Prod.ext ?_ (one_mul _).symm
  change signOf sign = -1 * signOf sign'
  rcases first with rfl | rfl <;> rcases second with rfl | rfl <;> simp [signOf] at different ⊢

theorem permAddStrong_spec {G : Subgroup (Signed n)} {image : Image n} {sign : Int} (fits : Proper image sign)
    (member : elementOf image sign ∈ G) (s : Session n) (sound : Sound G s.group) :
    wp (permAddStrong image sign)
      (fun now t => t.chain = s.chain ∧ Advance s.group t.group now ∧ Sound G t.group ∧ Known t.group image sign)
      (fun _ t => Frame s.group t.group) s := by
  unfold permAddStrong
  simp only [wp_bind, wp_get]
  apply wp_ite
  · intro identity
    obtain rfl := permIdentityImage_iff.mp identity
    have negative : decide (sign < 0) = true → minus ∈ G := fun below => by
      rcases fits.signed with rfl | rfl
      · simp at below
      · convert member using 1
        exact Prod.ext (by simp [minus, elementOf, signOf]) permOf_identity.symm
    refine wp_good (noteNegative_spec _ s sound negative) ?_
    rintro now t ⟨chain, advance, sound, noted, _⟩
    refine ⟨chain, advance, sound, .remainder (mem_remainders.mpr ⟨permOf_identity, ?_⟩)⟩
    rcases fits.signed with rfl | rfl
    · exact .inl (by simp [elementOf, signOf])
    · exact .inr (noted (by decide))
  · intro moves
    have moves : permIdentityImage image = false := by simpa using moves
    split
    · rename_i found search
      have old := List.mem_of_find?_eq_some search
      have same : found.image = image := by simpa using List.find?_some search
      have proper := (sound.proper found old).1
      have negative : decide (found.sign ≠ sign) = true → minus ∈ G := fun different => by
        have strong : elementOf found.image found.sign ∈ G := sound.inside ⟨found, old, Nat.zero_le _, rfl⟩
        rw [same, elementOf_sign proper.signed fits.signed (by simpa using different)] at strong
        exact (mul_mem_cancel_right member).mp strong
      refine wp_good (noteNegative_spec _ s sound negative) ?_
      rintro now t ⟨chain, advance, sound, noted, strong⟩
      refine ⟨chain, advance, sound, .generator found (strong ▸ old) same moves ?_⟩
      by_cases signs : found.sign = sign
      · exact .inl signs
      · exact .inr (noted (by simpa using signs))
    · apply wp_ite
      · exact fun _ => .refl _
      · intro room
        simp only [wp_bind, wp_modify, wp_pure]
        refine ⟨rfl, ⟨⟨rfl, rfl, rfl, rfl⟩, List.subset_append_left _ _, id, fun _ => ?_, fun still => (by cases still),
          fun _ => ?_⟩, ⟨?_, ?_, sound.negative⟩, .generator ⟨⟨image, sign⟩, permLevel image⟩ ?_ rfl moves (.inl rfl)⟩
        · simp only [Session.withGroup, List.length_append, List.length_singleton]
          omega
        · simp only [progress, Session.withGroup, List.length_append, List.length_singleton]
          omega
        · intro generator listed
          rcases List.mem_append.mp listed with old | new
          · exact sound.proper generator old
          · obtain rfl := List.mem_singleton.mp new
            have within := permLevel_le image
            have short : permLevel image ≠ n := by simpa [permIdentityImage] using moves
            exact ⟨fits, rfl, show permLevel image < n by omega⟩
        · rintro _ ⟨generator, listed, _, rfl⟩
          rcases List.mem_append.mp listed with old | new
          · exact sound.inside ⟨generator, old, Nat.zero_le _, rfl⟩
          · obtain rfl := List.mem_singleton.mp new
            exact member
        · simp [Session.withGroup]

/-- A step of the pass that began with the group `start` and this chain: the group grows
inside `G`, and if nothing has changed since the start, the step has settled something. -/
def Steps (G : Subgroup (Signed n)) (start : PermGroup n) (chain : PermChain n) (step : PermM n Bool)
    (settled : Prop) : Prop :=
  ∀ s, s.chain = chain → start.strong ⊆ s.group.strong → Sound G s.group →
    wp step
      (fun now t => t.chain = chain ∧ Advance s.group t.group now ∧ Sound G t.group ∧
        (now = false → s.group = start → settled))
      (fun _ t => Frame s.group t.group) s

section
variable {G : Subgroup (Signed n)} {start : PermGroup n} {chain : PermChain n}

theorem Steps.nothing {settled : Prop} (trivial : settled) : Steps G start chain (pure false) settled :=
  fun _ same _ sound => ⟨same, .refl _, sound, fun _ _ => trivial⟩

theorem Steps.mono {step : PermM n Bool} {settled settled' : Prop} (steps : Steps G start chain step settled)
    (weaker : settled → settled') : Steps G start chain step settled' := by
  intro s same kept sound
  refine wp_good (steps s same kept sound) ?_
  rintro now t ⟨chain, advance, sound, settles⟩
  exact ⟨chain, advance, sound, fun still begins => weaker (settles still begins)⟩

theorem anyChange_steps {α : Type} {step : α → PermM n Bool} {settled : α → Prop} (items : List α)
    (steps : ∀ item ∈ items, Steps G start chain (step item) (settled item)) :
    Steps G start chain (anyChange step items false) (∀ item ∈ items, settled item) := by
  suffices general : ∀ changed s, s.chain = chain → start.strong ⊆ s.group.strong → Sound G s.group →
      wp (anyChange step items changed)
        (fun result t => t.chain = chain ∧ ∃ now, result = (changed || now) ∧ Advance s.group t.group now ∧
          Sound G t.group ∧ (now = false → s.group = start → ∀ item ∈ items, settled item))
        (fun _ t => Frame s.group t.group) s by
    intro s same kept sound
    refine wp_good (general false s same kept sound) ?_
    rintro _ t ⟨chain, now, rfl, rest⟩
    exact ⟨chain, rest⟩
  induction items with
  | nil => exact fun changed s same _ sound => ⟨same, false, by simp, .refl _, sound, by simp⟩
  | cons item rest ih =>
    intro changed s same kept sound
    simp only [anyChange, wp_bind]
    refine wp_good (steps item (by simp) s same kept sound) ?_
    rintro now t ⟨chain_t, advance, sound, settles⟩
    have more := ih (fun item inside => steps item (by simp [inside])) (changed || now) t chain_t
      (List.Subset.trans kept advance.kept) sound
    refine wp_mono more ?_ (fun _ _ framed => advance.frame.trans framed)
    rintro _ u ⟨chain_u, later, rfl, advance', sound, settles'⟩
    refine ⟨chain_u, now || later, Bool.or_assoc _ _ _, advance.trans advance', sound, fun still begins => ?_⟩
    obtain ⟨rfl, rfl⟩ := Bool.or_eq_false_iff.mp still
    have settled_rest := settles' rfl ((advance.still rfl).trans begins)
    intro other inside
    rcases List.mem_cons.mp inside with rfl | later
    · exact settles rfl begins
    · exact settled_rest other later

theorem factored_of_known (sound : Sound G start) (rows : ∀ level, Row start.strong chain level) {first : Nat}
    {g : Signed n} {remainder : Image n} {sign : Int} (sifts : Sifts start.strong chain first g remainder sign)
    (known : Known start remainder sign) :
    g ∈ factored (remainders start.negativeIdentity) (chainFrom start.strong chain first) := by
  cases known with
  | remainder member => exact sifts.factors _ member
  | generator found member same moves signs =>
    exfalso
    rcases sifts.stuck with identity | ⟨level, _, fixed, unreached⟩
    · rw [permIdentityImage_iff.mpr identity] at moves
      cases moves
    · have recorded := (sound.proper found member).2.1
      have above : level.val ≤ found.level := by
        rw [recorded, same]
        exact le_permLevel level.isLt.le fixed
      have reached := (rows level).closed found member above level (rows level).base
      rw [same, unreached] at reached
      cases reached

theorem addSchreierGenerator_steps (sound : Sound G start) (rows : ∀ level, Row start.strong chain level)
    (level point : Fin n) (valid : chain.valid level point = true) (generator : StrongGenerator n)
    (member : generator ∈ start.strong) :
    Steps G start chain (addSchreierGenerator level point generator)
      (level.val ≤ generator.level →
        schreier onPoints (levelOf start.strong chain level) (elementOf generator.image generator.sign) point ∈
          factored (remainders start.negativeIdentity) (chainFrom start.strong chain (level.val + 1))) := by
  intro s same kept sound_s
  unfold addSchreierGenerator
  apply wp_ite
  · intro below
    exact ⟨same, .refl _, sound_s, fun _ _ above => absurd above (by omega)⟩
  · intro above
    have above : level.val ≤ generator.level := by omega
    have step : wp (permStep 4) (fun _ t => t = { s with steps := s.steps + 4 }) (fun _ t => t = s) s :=
      permStep_spec s 4 fun _ => rfl
    simp only [wp_bind]
    refine wp_mono step ?_ (fun _ _ stopped => .of_eq (congrArg Session.group stopped))
    rintro _ t rfl
    simp only [wp_get, same]
    have fits := (sound.proper generator member).1
    have entry := (rows level).entry point valid
    have moved := (rows level).closed generator member above point valid
    have target := (rows level).entry _ moved
    have ends : onPoints (elementOf generator.image generator.sign) point = generator.image point :=
      permOf_apply fits.injective point
    -- The generator after the representative carries the base point to the new point.
    let temp := permComposeUnchecked generator.image (chain.transversal level point)
    have carried : temp level = generator.image point := congrArg generator.image entry.carries
    have proper : Proper temp (generator.sign * chain.sign level point) := fits.compose entry.proper
    have fixed : FixesBelow temp level.val := fun i below => by
      have fixed := entry_fixes sound.proper entry i below
      change generator.image (chain.transversal level point i) = i
      rw [fixed]
      exact permLevel_fixes i (by have := (sound.proper generator member).2.1; omega)
    rw [← carried] at target
    obtain ⟨sifted_proper, sifted_fixed, quotient⟩ := sift_step sound.proper proper fixed target blankImage
    rw [carried, mul_comm, ← mul_assoc] at sifted_proper quotient
    rw [carried] at sifted_fixed
    have schreier_eq : schreier onPoints (levelOf start.strong chain level)
        (elementOf generator.image generator.sign) point =
        elementOf (permComposeUnchecked
          (permInverseUnchecked (chain.transversal level (generator.image point)) blankImage) temp)
          (chain.sign level (generator.image point) * generator.sign * chain.sign level point) := by
      rw [quotient, elementOf_compose fits entry.proper, schreier, ends]
      rfl
    rw [schreier_eq]
    refine wp_mono (permSift_spec rows sound.proper (level.val + 1) sifted_proper sifted_fixed
      { s with chain := chain, steps := s.steps + 4 } rfl) ?_ (fun _ _ stopped => .of_eq stopped)
    rintro ⟨remainder, sign⟩ u ⟨group, chain_u, sifts⟩
    have inside : ∀ x, chain.valid level x = true →
        elementOf (chain.transversal level x) (chain.sign level x) ∈ G := fun x valid =>
      (closure_le G).mpr ((strongFrom_anti (Nat.zero_le _)).trans sound.inside) ((rows level).entry x valid).generated
    have schreier_mem : schreier onPoints (levelOf start.strong chain level)
        (elementOf generator.image generator.sign) point ∈ G := by
      refine mul_mem (inv_mem (inside _ ?_)) (mul_mem ?_ (inside point valid))
      · rwa [ends]
      · exact sound.inside ⟨generator, member, Nat.zero_le _, rfl⟩
    rw [schreier_eq] at schreier_mem
    have remainder_mem := sifts.sound G ((strongFrom_anti (Nat.zero_le _)).trans sound.inside) schreier_mem
    refine wp_mono (permAddStrong_spec sifts.proper remainder_mem u (by rwa [group])) ?_
      (fun _ _ framed => (Frame.of_eq group).trans framed)
    rintro now v ⟨chain_v, advance, sound_v, known⟩
    rw [group] at advance
    refine ⟨chain_v.trans chain_u, advance, sound_v, fun still begins _ => ?_⟩
    rw [advance.still still] at known
    exact factored_of_known sound rows sifts (begins ▸ known)

def Settled (start : PermGroup n) (chain : PermChain n) (level point : Fin n) : Prop :=
  chain.valid level point = true → ∀ generator ∈ start.strong, level.val ≤ generator.level →
    schreier onPoints (levelOf start.strong chain level) (elementOf generator.image generator.sign) point ∈
      factored (remainders start.negativeIdentity) (chainFrom start.strong chain (level.val + 1))

theorem point_steps (sound : Sound G start) (rows : ∀ level, Row start.strong chain level) (level point : Fin n) :
    Steps G start chain
      (if chain.valid level point then anyChange (addSchreierGenerator level point) start.strong false
        else pure false)
      (Settled start chain level point) := by
  by_cases valid : chain.valid level point = true
  · rw [if_pos valid]
    exact (anyChange_steps start.strong fun generator member =>
      addSchreierGenerator_steps sound rows level point valid generator member).mono fun settled _ => settled
  · rw [if_neg valid]
    exact .nothing fun reached => absurd reached valid

theorem complete_of_settled (proper : StrongProper start.strong) (rows : ∀ level, Row start.strong chain level)
    (settled : ∀ level point, Settled start chain level point) (first : Nat) :
    Complete onPoints (remainders start.negativeIdentity) (chainFrom start.strong chain first) := by
  induction first using levels_induction (n := n) with
  | last first past =>
    rw [chainFrom_end past]
    exact .nil
  | step level below =>
    rw [chainFrom_cons]
    refine .cons (stage_of_row proper (rows level)) ?_ below
    rintro _ ⟨generator, member, above, rfl⟩ point valid
    exact settled level point valid generator member above

theorem addSchreierGenerators_steps (sound : Sound G start) (rows : ∀ level, Row start.strong chain level)
    (s : Session n) (same : s.chain = chain) (begins : s.group = start) :
    wp addSchreierGenerators
      (fun now t => t.chain = chain ∧ Advance s.group t.group now ∧ Sound G t.group ∧
        (now = false → Complete onPoints (remainders start.negativeIdentity) (chainFrom start.strong chain 0)))
      (fun _ t => Frame s.group t.group) s := by
  unfold addSchreierGenerators
  simp only [wp_bind, wp_get, same, begins]
  have whole : Steps G start chain _ (∀ level ∈ List.finRange n, ∀ point ∈ List.finRange n,
      Settled start chain level point) :=
    anyChange_steps (List.finRange n) fun level _ =>
      anyChange_steps (List.finRange n) fun point _ => point_steps sound rows level point
  refine wp_mono (whole s same (begins ▸ List.Subset.refl _) (begins ▸ sound)) ?_ (fun _ _ framed => begins ▸ framed)
  rintro now t ⟨chain_t, advance, sound_t, settled⟩
  refine ⟨chain_t, begins ▸ advance, sound_t, fun still => complete_of_settled sound.proper rows (fun level point => ?_) 0⟩
  exact settled still begins level (List.mem_finRange level) point (List.mem_finRange point)

end

end PhyNspire.Permutation.StrongGenerators

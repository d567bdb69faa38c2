import PhyNspire.Permutation.StrongGenerators

/-!
The whole of Schreier-Sims: the passes end with a chain that is complete, whatever order the
strong generators were found in, and the order of the group is the product of the orbit
lengths.
-/

namespace PhyNspire.Permutation.SchreierSims
open Lib.Stateful Lib.StabilizerChain Perm Bsgs Elements Transversals Sifting StrongGenerators Subgroup

variable {n : Nat}

noncomputable def generatedBy (generators : List (SignedImage n)) : Subgroup (Signed n) :=
  closure {g | ∃ generator ∈ generators, g = elementOf generator.image generator.sign}

/-- The elements of a level that fix its base point come from the levels below. -/
def StrongGenerating (strong : List (StrongGenerator n)) (negative : Bool) : Prop :=
  ∀ level : Fin n, ∀ g ∈ groupFrom strong negative level.val, g.2 level = level →
    g ∈ groupFrom strong negative (level.val + 1)

section
variable {strong : List (StrongGenerator n)} {negative : Bool} {chain : PermChain n}

theorem complete_from (complete : Complete onPoints (remainders negative) (chainFrom strong chain 0)) (first : Nat) :
    Complete onPoints (remainders negative) (chainFrom strong chain first) := by
  induction first with
  | zero => exact complete
  | succ first ih =>
    by_cases past : n ≤ first
    · rw [chainFrom_end (by omega)]
      exact .nil
    · have here : chainFrom strong chain first = _ := chainFrom_cons ⟨first, Nat.lt_of_not_le past⟩
      rw [here] at ih
      cases ih with
      | cons _ _ below => exact below

theorem strongGenerating_of_complete (proper : StrongProper strong)
    (complete : Complete onPoints (remainders negative) (chainFrom strong chain 0)) :
    StrongGenerating strong negative := by
  intro level g member fixed
  have here := complete_from complete level.val
  rw [← groupOf_chainFrom chain proper] at member ⊢
  rw [chainFrom_cons] at here member
  exact stabilizer_le (remainders_central negative) (remainders_still negative) here member fixed

theorem complete_of_strongGenerating (proper : StrongProper strong) (rows : ∀ level, Row strong chain level)
    (generating : StrongGenerating strong negative) (first : Nat) :
    Complete onPoints (remainders negative) (chainFrom strong chain first) := by
  induction first using levels_induction (n := n) with
  | last first past =>
    rw [chainFrom_end past]
    exact .nil
  | step level below =>
    rw [chainFrom_cons]
    refine .of_stabilizer (remainders_central negative) (stage_of_row proper (rows level)) below fun g member fixed => ?_
    rw [← chainFrom_cons, groupOf_chainFrom _ proper] at member
    rw [groupOf_chainFrom _ proper]
    exact generating level g member fixed

theorem groupFrom_mono {strong' : List (StrongGenerator n)} {negative' : Bool} (kept : strong ⊆ strong')
    (known : negative = true → negative' = true) (first : Nat) :
    groupFrom strong negative first ≤ groupFrom strong' negative' first :=
  closure_mono (Set.union_subset_union (strongFrom_mono kept first) fun _ member => ⟨member.1, member.2.imp_right known⟩)

theorem remainders_le_groupFrom (first : Nat) : remainders negative ≤ groupFrom strong negative first :=
  fun _ member => subset_closure (.inr member)

theorem negative_of_mem (generating : StrongGenerating strong negative) (proper : StrongProper strong)
    (member : minus ∈ groupFrom strong negative 0) : negative = true := by
  have deeper : ∀ first, first ≤ n → minus ∈ groupFrom strong negative first := by
    intro first
    induction first with
    | zero => exact fun _ => member
    | succ first ih => exact fun within => generating ⟨first, within⟩ minus (ih (by omega)) rfl
  have last := deeper n (Nat.le_refl n)
  rw [groupFrom, strongFrom_end proper (Nat.le_refl n), Set.empty_union, Subgroup.closure_eq] at last
  exact minus_mem_remainders.mp last

end

theorem known_mem {group : PermGroup n} {image : Image n} {sign : Int} (proper : StrongProper group.strong)
    (fits : Proper image sign) (known : Known group image sign) :
    elementOf image sign ∈ groupFrom group.strong group.negativeIdentity 0 := by
  cases known with
  | remainder member => exact remainders_le_groupFrom 0 member
  | generator found member same _ signs =>
    have strong : elementOf image found.sign ∈ groupFrom group.strong group.negativeIdentity 0 :=
      subset_closure (.inl ⟨found, member, Nat.zero_le _, by rw [same]⟩)
    by_cases equal : found.sign = sign
    · rwa [equal] at strong
    · have negative := (minus_mem_remainders (n := n)).mpr (signs.resolve_left equal)
      rw [elementOf_sign fits.signed (proper found member).1.signed (Ne.symm equal)]
      exact mul_mem (remainders_le_groupFrom 0 negative) strong

section
variable {G : Subgroup (Signed n)}

theorem schreierPasses_spec (turns : Nat) (s : Session n) (sound : Sound G s.group) :
    wp (schreierPasses turns)
      (fun _ t => Frame s.group t.group ∧ Sound G t.group ∧ s.group.strong ⊆ t.group.strong ∧
        (s.group.negativeIdentity = true → t.group.negativeIdentity = true) ∧
        StrongGenerating t.group.strong t.group.negativeIdentity)
      (fun _ t => Frame s.group t.group) s := by
  induction turns generalizing s with
  | zero => exact .refl _
  | succ turns ih =>
    unfold schreierPasses
    simp only [wp_bind]
    refine wp_mono (permChainBuild_spec s sound.proper) ?_ (fun _ _ stopped => .of_eq stopped)
    rintro _ t ⟨group, rows⟩
    refine wp_mono (addSchreierGenerators_steps sound rows t rfl group) ?_
      (fun _ _ framed => group ▸ framed)
    rintro changed u ⟨chain, advance, sound_u, complete⟩
    rw [group] at advance
    cases changed with
    | true =>
      refine wp_mono (ih u sound_u) ?_ (fun _ _ framed => advance.frame.trans framed)
      rintro _ v ⟨frame, sound_v, kept, negative, generating⟩
      exact ⟨advance.frame.trans frame, sound_v, List.Subset.trans advance.kept kept, negative ∘ advance.negative,
        generating⟩
    | false =>
      have same := advance.still rfl
      refine ⟨advance.frame, sound_u, advance.kept, advance.negative, ?_⟩
      rw [same]
      exact strongGenerating_of_complete sound.proper (complete rfl)

theorem initializeStrongGenerators_spec (s : Session n)
    (fits : ∀ generator ∈ s.group.generators, Proper generator.image generator.sign) :
    wp initializeStrongGenerators
      (fun _ t => Frame s.group t.group ∧ Sound (generatedBy s.group.generators) t.group ∧
        t.group.strong.length ≤ t.group.limits.maxStrongGenerators.toNat ∧
        ∀ generator ∈ s.group.generators,
          elementOf generator.image generator.sign ∈ groupFrom t.group.strong t.group.negativeIdentity 0)
      (fun _ t => Frame s.group t.group) s := by
  unfold initializeStrongGenerators
  simp only [wp_bind, wp_modify, wp_get]
  let empty := s.withGroup fun group => { group with strong := [], negativeIdentity := false }
  have empty_sound : Sound (generatedBy s.group.generators) empty.group := by
    refine ⟨fun _ member => (by cases member), ?_, fun known => (by cases known)⟩
    rintro _ ⟨_, member, _⟩
    cases member
  -- The generators are added one by one; those added before stay generated.
  suffices general : ∀ (generators : List (SignedImage n)) (t : Session n), generators ⊆ s.group.generators →
      Frame s.group t.group → Sound (generatedBy s.group.generators) t.group →
      t.group.strong.length ≤ t.group.limits.maxStrongGenerators.toNat →
      wp (generators.forM fun generator => do
          let _ ← permAddStrong generator.image generator.sign
          pure ())
        (fun _ u => Frame s.group u.group ∧ Sound (generatedBy s.group.generators) u.group ∧
          u.group.strong.length ≤ u.group.limits.maxStrongGenerators.toNat ∧ t.group.strong ⊆ u.group.strong ∧
          (t.group.negativeIdentity = true → u.group.negativeIdentity = true) ∧
          ∀ generator ∈ generators,
            elementOf generator.image generator.sign ∈ groupFrom u.group.strong u.group.negativeIdentity 0)
        (fun _ u => Frame s.group u.group) t by
    refine wp_good (general s.group.generators empty (List.Subset.refl _) ⟨rfl, rfl, rfl, rfl⟩ empty_sound
      (Nat.zero_le _)) ?_
    rintro _ u ⟨frame, sound, room, _, _, generates⟩
    exact ⟨frame, sound, room, generates⟩
  intro generators
  induction generators with
  | nil => exact fun t _ frame sound room => ⟨frame, sound, room, List.Subset.refl _, id, by simp⟩
  | cons generator rest ih =>
    intro t included frame sound room
    have listed : generator ∈ s.group.generators := included (by simp)
    have inside : elementOf generator.image generator.sign ∈ generatedBy s.group.generators :=
      subset_closure ⟨generator, listed, rfl⟩
    rw [List.forM, wp_bind]
    simp only [wp_bind, wp_pure]
    refine wp_mono (permAddStrong_spec (fits generator listed) inside t sound) ?_ (fun _ _ framed => frame.trans framed)
    rintro _ u ⟨_, advance, sound_u, known⟩
    have room_u : u.group.strong.length ≤ u.group.limits.maxStrongGenerators.toNat := by
      rw [advance.frame.limits]
      exact advance.room room
    refine wp_good (ih u (fun _ member => included (by simp [member])) (frame.trans advance.frame) sound_u room_u) ?_
    rintro _ v ⟨frame_v, sound_v, room_v, kept, negative, generates⟩
    refine ⟨frame_v, sound_v, room_v, List.Subset.trans advance.kept kept, negative ∘ advance.negative, ?_⟩
    intro other member
    rcases List.mem_cons.mp member with rfl | later
    · exact groupFrom_mono kept negative 0 (known_mem sound_u.proper (fits other listed) known)
    · exact generates other later

end

theorem multiplyFactors_spec (chain : PermChain n) (levels : List (Fin n)) (order : Nat) (inside : order < 2 ^ 64)
    (s : Session n) :
    wp (computeOrder.multiplyFactors chain levels order)
      (fun product t => t = s ∧ product = order * (levels.map chain.orbitCount).prod ∧ product < 2 ^ 64)
      (fun _ t => t = s) s := by
  induction levels generalizing order with
  | nil => exact ⟨rfl, by simp, inside⟩
  | cons level levels ih =>
    unfold computeOrder.multiplyFactors
    apply wp_ite
    · exact fun _ => rfl
    · intro fits
      have inside' : order * chain.orbitCount level < 2 ^ 64 := by
        rcases Nat.eq_zero_or_pos (chain.orbitCount level) with zero | positive
        · rw [zero, Nat.mul_zero]
          exact Nat.two_pow_pos 64
        · have quotient : order ≤ (2 ^ 64 - 1) / chain.orbitCount level := by
            by_contra large
            exact fits ⟨by omega, by omega⟩
          have := (Nat.le_div_iff_mul_le positive).mp quotient
          omega
      refine wp_good (ih _ inside') ?_
      rintro product t ⟨same, value, bound⟩
      exact ⟨same, by rw [value, List.map_cons, List.prod_cons, Nat.mul_assoc], bound⟩

theorem card_groupFrom {strong : List (StrongGenerator n)} {negative : Bool} {chain : PermChain n}
    (proper : StrongProper strong) (rows : ∀ level, Row strong chain level)
    (generating : StrongGenerating strong negative) :
    Nat.card (groupFrom strong negative 0) =
      (if negative then 2 else 1) * ((List.finRange n).map chain.orbitCount).prod := by
  have complete := complete_of_strongGenerating proper rows generating 0
  have lengths : (chainFrom strong chain 0).map (fun level => level.orbit.ncard) =
      (List.finRange n).map chain.orbitCount := by
    rw [chainFrom, levelsFrom, List.drop_zero, List.map_map]
    exact List.map_congr_left fun level _ => (rows level).counted.symm
  have count := factored_card (remainders_central negative) (remainders_still negative) complete
  rw [factored_eq (remainders_central negative) complete, groupOf_chainFrom _ proper, card_remainders, lengths] at count
  rw [← count, ← Nat.card_coe_set_eq]
  rfl

structure Built (group : PermGroup n) : Prop where
  sound : Sound (generatedBy group.generators) group
  generates : ∀ generator ∈ group.generators,
    elementOf generator.image generator.sign ∈ groupFrom group.strong group.negativeIdentity 0
  generating : StrongGenerating group.strong group.negativeIdentity
  order : group.order.toNat = Nat.card (generatedBy group.generators)

theorem groupFrom_eq {group : PermGroup n} (sound : Sound (generatedBy group.generators) group)
    (generates : ∀ generator ∈ group.generators,
      elementOf generator.image generator.sign ∈ groupFrom group.strong group.negativeIdentity 0) :
    groupFrom group.strong group.negativeIdentity 0 = generatedBy group.generators := by
  refine le_antisymm ((closure_le _).mpr (Set.union_subset sound.inside ?_)) ((closure_le _).mpr ?_)
  · rintro ⟨sign, perm⟩ ⟨still, one | known⟩
    · obtain rfl : sign = 1 := one
      obtain rfl : perm = 1 := still
      exact one_mem _
    · obtain rfl : perm = 1 := still
      rcases Int.units_eq_one_or sign with rfl | rfl
      · exact one_mem _
      · exact sound.negative known
  · rintro _ ⟨generator, member, rfl⟩
    exact generates generator member

theorem permChainAllocate_spec (s : Session n) :
    wp permChainAllocate (fun _ t => t.group = s.group) (fun _ t => t.group = s.group) s := by
  unfold permChainAllocate
  simp only [wp_bind, wp_get]
  split
  · exact rfl
  · apply wp_ite
    · exact fun _ => rfl
    · intro _
      simp only [wp_bind, wp_set]
      apply wp_ite <;> exact fun _ => rfl

theorem computeOrder_spec (s : Session n) (proper : StrongProper s.group.strong)
    (rows : ∀ level, Row s.group.strong s.chain level)
    (generating : StrongGenerating s.group.strong s.group.negativeIdentity) :
    wp computeOrder
      (fun _ t => ∃ order : UInt64, t.group = { s.group with order := order } ∧
        order.toNat = Nat.card (groupFrom s.group.strong s.group.negativeIdentity 0))
      (fun _ t => t.group = s.group) s := by
  unfold computeOrder
  simp only [wp_bind, wp_get]
  have start : (if s.group.negativeIdentity then 2 else 1) < 2 ^ 64 := by split <;> omega
  refine wp_mono (multiplyFactors_spec s.chain (List.finRange n) _ start s) ?_ (fun _ _ stopped => by rw [stopped])
  rintro order t ⟨rfl, value, inside⟩
  refine ⟨UInt64.ofNat order, rfl, ?_⟩
  rw [card_groupFrom proper rows generating, ← value, UInt64.toNat_ofNat', Nat.mod_eq_of_lt inside]

theorem permGroupBuildBsgs_spec (s : Session n)
    (fits : ∀ generator ∈ s.group.generators, Proper generator.image generator.sign) :
    wp permGroupBuildBsgs
      (fun _ t => t.group.generators = s.group.generators ∧ t.group.built = true ∧ Built t.group)
      (fun _ t => t.group.generators = s.group.generators ∧ t.group.built = false) s := by
  unfold permGroupBuildBsgs
  simp only [wp_bind, wp_modify]
  have stopped : ∀ t : Session n, Frame (s.withGroup fun group => { group with built := false, order := 0 }).group
      t.group → t.group.generators = s.group.generators ∧ t.group.built = false :=
    fun t frame => ⟨frame.generators, frame.built⟩
  refine wp_mono (initializeStrongGenerators_spec _ fits) ?_ (fun _ t framed => stopped t framed)
  rintro _ t ⟨frame_t, sound_t, _, generates_t⟩
  refine wp_mono (permChainAllocate_spec t) ?_ (fun _ u same => stopped u (frame_t.trans (.of_eq same)))
  rintro _ u same
  simp only [wp_get]
  have frame_u := frame_t.trans (.of_eq same)
  rw [← same] at sound_t generates_t
  refine wp_mono (schreierPasses_spec _ _ sound_t) ?_ (fun _ v framed => stopped v (frame_u.trans framed))
  rintro _ v ⟨frame_v, sound_v, kept, negative, generating⟩
  refine wp_mono (permChainBuild_spec v sound_v.proper) ?_
    (fun _ w framed => stopped w (frame_u.trans (frame_v.trans (.of_eq framed))))
  rintro _ w ⟨same_w, rows⟩
  rw [← same_w] at rows sound_v generating
  refine wp_mono (computeOrder_spec w sound_v.proper rows generating) ?_
    (fun _ x framed => stopped x (frame_u.trans (frame_v.trans (.of_eq (framed.trans same_w)))))
  rintro _ x ⟨order, same_x, value⟩
  have generators : w.group.generators = s.group.generators := by
    rw [same_w, frame_v.generators, frame_u.generators]
    rfl
  have generates : ∀ generator ∈ w.group.generators,
      elementOf generator.image generator.sign ∈ groupFrom w.group.strong w.group.negativeIdentity 0 := by
    intro generator member
    rw [generators] at member
    rw [same_w]
    exact groupFrom_mono kept negative 0 (generates_t generator member)
  have sound : Sound (generatedBy w.group.generators) w.group := generators ▸ sound_v
  rw [groupFrom_eq sound generates] at value
  rw [Session.withGroup, same_x]
  exact ⟨generators, rfl, ⟨sound.proper, sound.inside, sound.negative⟩, generates, generating, value⟩

end PhyNspire.Permutation.SchreierSims

import Mathlib.Algebra.GroupWithZero.Units.Fintype
import Mathlib.Data.Fintype.Perm
import Mathlib.GroupTheory.OrderOfElement
import PhyNspire.Tensor.Components

/-!
The group of the declared slot symmetries. A declaration is a permutation of the slots with a sign; the
declarations are closed under composition on a list in which no permutation occurs twice. A permutation that
is reached with both signs forces the whole tensor to vanish.
-/

namespace PhyNspire.Tensor
open Platform

def tensorMaxSymmetries : Nat := 24

/-- `phy_tensor_perm`: the image of each slot, and a sign. -/
abbrev SlotPerm (rank : Nat) := Equiv.Perm (Fin rank) × ℤˣ

/-- `group` and `identically_zero` of a tensor. -/
structure SlotGroup (rank : Nat) where
  entries : List (SlotPerm rank)
  identicallyZero : Bool
deriving DecidableEq

variable {rank : Nat}

def findPerm (group : SlotGroup rank) (image : Equiv.Perm (Fin rank)) : Option (SlotPerm rank) :=
  group.entries.find? fun entry => entry.1 = image

/-- The body of the two inner loops of `close_group`; the flag is `changed`. -/
def closeProduct (left right : SlotPerm rank) (state : SlotGroup rank × Bool) : Except Status (SlotGroup rank × Bool) :=
  match findPerm state.1 (left.1 * right.1) with
  | none =>
    if tensorMaxSymmetries ≤ state.1.entries.length then .error .unsupported
    else .ok ({ state.1 with entries := state.1.entries ++ [left * right] }, true)
  | some found =>
    if found.2 ≠ left.2 * right.2 then .ok ({ state.1 with identicallyZero := true }, state.2) else .ok state

/-- The loop over `right`, which meets what it appends. -/
def closeRow (left : SlotPerm rank) : Nat → Nat → SlotGroup rank × Bool → Except Status (SlotGroup rank × Bool)
  | 0, _, state => .ok state
  | turns + 1, right, state =>
    match state.1.entries[right]? with
    | none => .ok state
    | some entry => do
        let state ← closeProduct left entry state
        closeRow left turns (right + 1) state

/-- The loop over `left`. -/
def closeRows : Nat → Nat → SlotGroup rank × Bool → Except Status (SlotGroup rank × Bool)
  | 0, _, state => .ok state
  | turns + 1, left, state =>
    match state.1.entries[left]? with
    | none => .ok state
    | some entry => do
        let state ← closeRow entry tensorMaxSymmetries 0 state
        closeRows turns (left + 1) state

/-- The passes of `close_group`, until one changes nothing. -/
def closePasses : Nat → SlotGroup rank → Except Status (SlotGroup rank)
  | 0, group => .ok group
  | turns + 1, group => do
      let state ← closeRows tensorMaxSymmetries 0 (group, false)
      if state.2 then closePasses turns state.1 else .ok state.1

/-- A list of at most 24 entries grows in at most 24 passes. -/
def closeGroup (group : SlotGroup rank) : Except Status (SlotGroup rank) := closePasses (tensorMaxSymmetries + 1) group

/-- `phy_tensor_add_generator`; a failure leaves the group as it was. -/
def addGenerator (group : SlotGroup rank) (generator : SlotPerm rank) : Except Status (SlotGroup rank) :=
  match findPerm group generator.1 with
  | none =>
    if tensorMaxSymmetries ≤ group.entries.length then .error .unsupported
    else closeGroup { group with entries := group.entries ++ [generator] }
  | some found =>
    closeGroup (if found.2 ≠ generator.2 then { group with identicallyZero := true } else group)

def SlotGroup.identity (rank : Nat) : SlotGroup rank := ⟨[1], false⟩

/-- Everything on the list, and the flag, is owed to `H`. -/
structure Sound (H : Subgroup (SlotPerm rank)) (group : SlotGroup rank) : Prop where
  distinct : (group.entries.map Prod.fst).Nodup
  identity : 1 ∈ group.entries
  inside : ∀ entry ∈ group.entries, entry ∈ H
  zero : group.identicallyZero = true → ((1, -1) : SlotPerm rank) ∈ H

/-- The permutation is on the list, with its sign unless the tensor vanishes. -/
def Covers (group : SlotGroup rank) (x : SlotPerm rank) : Prop :=
  ∃ entry ∈ group.entries, entry.1 = x.1 ∧ (entry.2 ≠ x.2 → group.identicallyZero = true)

/-- The list only grows, and the flag is only raised. -/
structure Extends (group later : SlotGroup rank) : Prop where
  entries : group.entries <+: later.entries
  zero : group.identicallyZero = true → later.identicallyZero = true

/-- What a part of a pass does. -/
structure Progress (H : Subgroup (SlotPerm rank)) (before after : SlotGroup rank × Bool) : Prop where
  sound : Sound H after.1
  extends_ : Extends before.1 after.1
  kept : before.2 = true → after.2 = true
  unchanged : after.2 = false → after.1.entries = before.1.entries
  grown : after.2 = true → before.2 = true ∨ before.1.entries.length < after.1.entries.length

variable {H : Subgroup (SlotPerm rank)} {group later last : SlotGroup rank} {x y : SlotPerm rank}

theorem Extends.refl (group : SlotGroup rank) : Extends group group := ⟨List.prefix_refl _, id⟩

theorem Extends.trans (first : Extends group later) (second : Extends later last) : Extends group last :=
  ⟨first.entries.trans second.entries, fun zero => second.zero (first.zero zero)⟩

theorem Extends.entry (extends_ : Extends group later) {k : Nat} (here : group.entries[k]? = some x) :
    later.entries[k]? = some x := by
  obtain ⟨more, longer⟩ := extends_.entries
  rw [← longer, List.getElem?_append_left (List.getElem?_eq_some_iff.mp here).1, here]

theorem Covers.extend (covers : Covers group x) (extends_ : Extends group later) : Covers later x := by
  obtain ⟨entry, member, same, sign⟩ := covers
  exact ⟨entry, extends_.entries.subset member, same, fun differ => extends_.zero (sign differ)⟩

theorem Progress.refl {state : SlotGroup rank × Bool} (sound : Sound H state.1) : Progress H state state :=
  ⟨sound, .refl _, id, fun _ => rfl, .inl⟩

theorem Progress.trans {first second third : SlotGroup rank × Bool} (one : Progress H first second)
    (two : Progress H second third) : Progress H first third := by
  have quiet : third.2 = false → second.2 = false := fun still =>
    Bool.eq_false_iff.mpr fun changed => Bool.false_ne_true (still.symm.trans (two.kept changed))
  refine ⟨two.sound, one.extends_.trans two.extends_, fun changed => two.kept (one.kept changed), ?_, ?_⟩
  · intro still
    exact (two.unchanged still).trans (one.unchanged (quiet still))
  · intro changed
    rcases two.grown changed with early | more
    · rcases one.grown early with first | grew
      · exact .inl first
      · exact .inr (grew.trans_le two.extends_.entries.length_le)
    · exact .inr (one.extends_.entries.length_le.trans_lt more)

theorem Sound.length_le (sound : Sound H group) (small : rank ≤ tensorMaxRank) :
    group.entries.length ≤ tensorMaxSymmetries := by
  have bound := sound.distinct.length_le_card
  rw [List.length_map, Fintype.card_perm, Fintype.card_fin] at bound
  exact bound.trans ((Nat.factorial_le small).trans (by decide))

theorem Sound.append (sound : Sound H group) {entry : SlotPerm rank} (inside : entry ∈ H)
    (fresh : ∀ other ∈ group.entries, other.1 ≠ entry.1) : Sound H { group with entries := group.entries ++ [entry] } := by
  refine ⟨?_, List.mem_append_left _ sound.identity, ?_, sound.zero⟩
  · rw [List.map_append, List.nodup_append]
    refine ⟨sound.distinct, List.nodup_singleton _, ?_⟩
    rintro _ known _ new rfl
    obtain ⟨other, member, same⟩ := List.mem_map.mp known
    rw [List.map_singleton, List.mem_singleton] at new
    exact fresh other member (same.trans new)
  · intro other member
    rcases List.mem_append.mp member with old | new
    · exact sound.inside other old
    · exact List.mem_singleton.mp new ▸ inside

theorem Sound.raise (sound : Sound H group) (zero : ((1, -1) : SlotPerm rank) ∈ H) :
    Sound H { group with identicallyZero := true } := ⟨sound.distinct, sound.identity, sound.inside, fun _ => zero⟩

theorem minus_mem (first : x ∈ H) (second : y ∈ H) (same : x.1 = y.1) (differ : x.2 ≠ y.2) :
    ((1, -1) : SlotPerm rank) ∈ H := by
  have quotient := H.mul_mem first (H.inv_mem second)
  have value : x * y⁻¹ = (1, -1) := by
    apply Prod.ext
    · rw [Prod.fst_mul, Prod.fst_inv, same, mul_inv_cancel]
    · rw [Prod.snd_mul, Prod.snd_inv]
      rcases Int.units_eq_one_or x.2 with plus | minus <;> rcases Int.units_eq_one_or y.2 with plus' | minus' <;> simp_all
  rwa [value] at quotient

theorem findPerm_none {image : Equiv.Perm (Fin rank)} (absent : findPerm group image = none) :
    ∀ entry ∈ group.entries, entry.1 ≠ image := by
  intro entry member
  simpa using List.find?_eq_none.mp absent entry member

theorem findPerm_some {image : Equiv.Perm (Fin rank)} {entry : SlotPerm rank} (found : findPerm group image = some entry) :
    entry ∈ group.entries ∧ entry.1 = image := by
  refine ⟨List.mem_of_find?_eq_some found, ?_⟩
  simpa using List.find?_some found

theorem Sound.room (sound : Sound H group) (small : rank ≤ tensorMaxRank) {entry : SlotPerm rank} (inside : entry ∈ H)
    (fresh : ∀ other ∈ group.entries, other.1 ≠ entry.1) : ¬tensorMaxSymmetries ≤ group.entries.length := by
  have longer := (sound.append inside fresh).length_le small
  rw [List.length_append, List.length_singleton] at longer
  omega

theorem covers_of_mem (member : x ∈ group.entries) : Covers group x := ⟨x, member, rfl, fun differ => absurd rfl differ⟩

section
variable (small : rank ≤ tensorMaxRank)
include small

theorem closeProduct_spec {state : SlotGroup rank × Bool} {left right : SlotPerm rank} (sound : Sound H state.1)
    (first : left ∈ H) (second : right ∈ H) : ∃ after, closeProduct left right state = .ok after ∧
      Progress H state after ∧ Covers after.1 (left * right) := by
  have product := H.mul_mem first second
  unfold closeProduct
  cases found : findPerm state.1 (left.1 * right.1) with
  | none =>
    have fresh := findPerm_none found
    rw [if_neg (sound.room small product fresh)]
    have longer : state.1.entries.length < (state.1.entries ++ [left * right]).length := by
      rw [List.length_append]
      exact Nat.lt_succ_self _
    refine ⟨_, rfl, ?_, covers_of_mem (List.mem_append_right _ List.mem_cons_self)⟩
    exact ⟨sound.append product fresh, ⟨List.prefix_append _ _, id⟩, fun _ => rfl, Bool.noConfusion, fun _ => .inr longer⟩
  | some entry =>
    obtain ⟨member, same⟩ := findPerm_some found
    by_cases differ : entry.2 ≠ left.2 * right.2
    · have zero := minus_mem (sound.inside entry member) product same differ
      simp only [if_pos differ]
      exact ⟨_, rfl, ⟨sound.raise zero, ⟨List.prefix_refl _, fun _ => rfl⟩, id, fun _ => rfl, .inl⟩,
        entry, member, same, fun _ => rfl⟩
    · simp only [if_neg differ]
      exact ⟨_, rfl, .refl sound, entry, member, same, fun wrong => absurd wrong differ⟩

theorem closeRow_spec {left : SlotPerm rank} (first : left ∈ H) (turns right : Nat) {state : SlotGroup rank × Bool}
    (enough : tensorMaxSymmetries ≤ right + turns) (sound : Sound H state.1) :
    ∃ after, closeRow left turns right state = .ok after ∧ Progress H state after ∧
      (after.2 = false → ∀ k entry, right ≤ k → state.1.entries[k]? = some entry → Covers after.1 (left * entry)) := by
  induction turns generalizing right state with
  | zero =>
    refine ⟨state, rfl, .refl sound, fun _ k entry from_ here => ?_⟩
    obtain ⟨inside, _⟩ := List.getElem?_eq_some_iff.mp here
    have all := sound.length_le small
    omega
  | succ turns ih =>
    unfold closeRow
    cases here : state.1.entries[right]? with
    | none =>
      refine ⟨state, rfl, .refl sound, fun _ k entry from_ there => ?_⟩
      obtain ⟨inside, _⟩ := List.getElem?_eq_some_iff.mp there
      have past := List.getElem?_eq_none_iff.mp here
      omega
    | some entry =>
      obtain ⟨middle, ran, one, covered⟩ :=
        closeProduct_spec small sound first (sound.inside entry (List.mem_of_getElem? here))
      obtain ⟨after, ran', two, rest⟩ := ih (right + 1) (by omega) one.sound
      refine ⟨after, by dsimp only; rw [ran]; exact ran', one.trans two, fun still k other from_ there => ?_⟩
      obtain rfl | later := Nat.eq_or_lt_of_le from_
      · rw [here] at there
        exact Option.some.inj there ▸ covered.extend two.extends_
      · exact rest still k other later (one.extends_.entry there)

theorem closeRows_spec (turns left : Nat) {state : SlotGroup rank × Bool}
    (enough : tensorMaxSymmetries ≤ left + turns) (sound : Sound H state.1) :
    ∃ after, closeRows turns left state = .ok after ∧ Progress H state after ∧
      (after.2 = false → ∀ k entry, left ≤ k → state.1.entries[k]? = some entry →
        ∀ other ∈ state.1.entries, Covers after.1 (entry * other)) := by
  induction turns generalizing left state with
  | zero =>
    refine ⟨state, rfl, .refl sound, fun _ k entry from_ here => ?_⟩
    obtain ⟨inside, _⟩ := List.getElem?_eq_some_iff.mp here
    have all := sound.length_le small
    omega
  | succ turns ih =>
    unfold closeRows
    cases here : state.1.entries[left]? with
    | none =>
      refine ⟨state, rfl, .refl sound, fun _ k entry from_ there => ?_⟩
      obtain ⟨inside, _⟩ := List.getElem?_eq_some_iff.mp there
      have past := List.getElem?_eq_none_iff.mp here
      omega
    | some entry =>
      obtain ⟨middle, ran, one, row⟩ := closeRow_spec small (sound.inside entry (List.mem_of_getElem? here))
        tensorMaxSymmetries 0 (Nat.le_add_left _ _) sound
      obtain ⟨after, ran', two, rest⟩ := ih (left + 1) (by omega) one.sound
      refine ⟨after, by dsimp only; rw [ran]; exact ran', one.trans two, fun still k first from_ there other member => ?_⟩
      have quiet : middle.2 = false := Bool.eq_false_iff.mpr fun changed => Bool.false_ne_true (still.symm.trans (two.kept changed))
      obtain rfl | later := Nat.eq_or_lt_of_le from_
      · obtain rfl := Option.some.inj (here.symm.trans there)
        obtain ⟨place, found⟩ := List.mem_iff_getElem?.mp member
        exact (row quiet place other (Nat.zero_le _) found).extend two.extends_
      · exact rest still k first later (one.extends_.entry there) other (one.extends_.entries.subset member)

theorem closePasses_spec (turns : Nat) (enough : tensorMaxSymmetries < group.entries.length + turns) (sound : Sound H group) :
    ∃ closed, closePasses turns group = .ok closed ∧ Sound H closed ∧ Extends group closed ∧
      ∀ left ∈ closed.entries, ∀ right ∈ closed.entries, Covers closed (left * right) := by
  induction turns generalizing group with
  | zero =>
    have all := sound.length_le small
    omega
  | succ turns ih =>
    obtain ⟨after, ran, progress, covered⟩ := closeRows_spec small tensorMaxSymmetries 0 (Nat.le_add_left _ _)
      (show Sound H (group, false).1 from sound)
    unfold closePasses
    rw [ran]
    cases changed : after.2 with
    | false =>
      have same := progress.unchanged changed
      refine ⟨after.1, by simp [changed, bind, Except.bind], progress.sound, progress.extends_, ?_⟩
      rw [same]
      intro left member right member'
      obtain ⟨place, found⟩ := List.mem_iff_getElem?.mp member
      exact covered changed place left (Nat.zero_le _) found right member'
    | true =>
      have longer := (progress.grown changed).resolve_left Bool.false_ne_true
      have next : tensorMaxSymmetries < after.1.entries.length + turns := by
        dsimp only at longer
        omega
      obtain ⟨closed, ran', done, more, all⟩ := ih next progress.sound
      exact ⟨closed, by simpa [changed, bind, Except.bind] using ran', done, progress.extends_.trans more, all⟩

end

structure Generates (declared : Set (SlotPerm rank)) (group : SlotGroup rank) : Prop where
  sound : Sound (Subgroup.closure declared) group
  covers : ∀ x ∈ Subgroup.closure declared, Covers group x

variable {declared : Set (SlotPerm rank)}

theorem covers_one (identity : 1 ∈ group.entries) : Covers group 1 := covers_of_mem identity

theorem covers_mul (closed : ∀ left ∈ group.entries, ∀ right ∈ group.entries, Covers group (left * right))
    (first : Covers group x) (second : Covers group y) : Covers group (x * y) := by
  obtain ⟨left, member, same, sign⟩ := first
  obtain ⟨right, member', same', sign'⟩ := second
  obtain ⟨product, inside, equal, sign''⟩ := closed left member right member'
  refine ⟨product, inside, ?_, fun differ => ?_⟩
  · rw [equal, Prod.fst_mul, Prod.fst_mul, same, same']
  · by_contra nonzero
    have first : left.2 = x.2 := by
      by_contra apart
      exact nonzero (sign apart)
    have second : right.2 = y.2 := by
      by_contra apart
      exact nonzero (sign' apart)
    apply nonzero
    apply sign''
    rwa [Prod.snd_mul, first, second, ← Prod.snd_mul]

theorem covers_inv (closed : ∀ left ∈ group.entries, ∀ right ∈ group.entries, Covers group (left * right))
    (identity : 1 ∈ group.entries) (covers : Covers group x) : Covers group x⁻¹ := by
  have power : ∀ n : Nat, Covers group (x ^ n) := by
    intro n
    induction n with
    | zero => rw [pow_zero]; exact covers_one identity
    | succ n ih => rw [pow_succ]; exact covers_mul closed ih covers
  obtain ⟨n, same⟩ := mem_powers_iff_mem_zpowers.mpr (inv_mem (Subgroup.mem_zpowers x))
  exact same ▸ power n

theorem generates_of_closed (sound : Sound (Subgroup.closure declared) group) (generators : ∀ x ∈ declared, Covers group x)
    (closed : ∀ left ∈ group.entries, ∀ right ∈ group.entries, Covers group (left * right)) : Generates declared group := by
  refine ⟨sound, fun x member => ?_⟩
  induction member using Subgroup.closure_induction with
  | mem x member => exact generators x member
  | one => exact covers_one sound.identity
  | mul x y _ _ first second => exact covers_mul closed first second
  | inv x _ covers => exact covers_inv closed sound.identity covers

theorem generates_identity (rank : Nat) : Generates ∅ (SlotGroup.identity rank) := by
  have single : ∀ entry ∈ (SlotGroup.identity rank).entries, entry = 1 := fun entry member => List.mem_singleton.mp member
  have sound : Sound (Subgroup.closure ∅) (SlotGroup.identity rank) := by
    refine ⟨List.nodup_singleton _, List.mem_singleton_self _, fun entry member => ?_, Bool.noConfusion⟩
    rw [single entry member]
    exact one_mem _
  refine generates_of_closed sound (fun x absent => by cases absent) ?_
  intro left member right member'
  rw [single left member, single right member', mul_one]
  exact covers_one sound.identity

theorem Sound.mono {K : Subgroup (SlotPerm rank)} (sound : Sound H group) (less : H ≤ K) : Sound K group :=
  ⟨sound.distinct, sound.identity, fun entry member => less (sound.inside entry member), fun zero => less (sound.zero zero)⟩

theorem closeGroup_spec (small : rank ≤ tensorMaxRank) (sound : Sound (Subgroup.closure declared) group)
    (generators : ∀ x ∈ declared, Covers group x) :
    ∃ closed, closeGroup group = .ok closed ∧ Generates declared closed := by
  obtain ⟨closed, ran, done, more, all⟩ := closePasses_spec small (tensorMaxSymmetries + 1) (by omega) sound
  exact ⟨closed, ran, generates_of_closed done (fun x member => (generators x member).extend more) all⟩

/-- A declaration is never refused, and adds itself to the generators. -/
theorem addGenerator_spec (small : rank ≤ tensorMaxRank) (generates : Generates declared group) (x : SlotPerm rank) :
    ∃ closed, addGenerator group x = .ok closed ∧ Generates (insert x declared) closed := by
  have more : Subgroup.closure declared ≤ Subgroup.closure (insert x declared) :=
    Subgroup.closure_mono (Set.subset_insert _ _)
  have sound := generates.sound.mono more
  have inside : x ∈ Subgroup.closure (insert x declared) := Subgroup.subset_closure (Set.mem_insert _ _)
  have old : ∀ y ∈ declared, Covers group y := fun y member => generates.covers y (Subgroup.subset_closure member)
  have both {later : SlotGroup rank} (extends_ : Extends group later) (here : Covers later x) :
      ∀ y ∈ insert x declared, Covers later y := by
    rintro y (rfl | member)
    · exact here
    · exact (old y member).extend extends_
  unfold addGenerator
  cases found : findPerm group x.1 with
  | none =>
    have fresh := findPerm_none found
    rw [if_neg (sound.room small inside fresh)]
    exact closeGroup_spec small (sound.append inside fresh)
      (both ⟨List.prefix_append _ _, id⟩ (covers_of_mem (List.mem_append_right _ List.mem_cons_self)))
  | some entry =>
    obtain ⟨member, same⟩ := findPerm_some found
    by_cases differ : entry.2 ≠ x.2
    · simp only [if_pos differ]
      exact closeGroup_spec small (sound.raise (minus_mem (sound.inside entry member) inside same differ))
        (both ⟨List.prefix_refl _, fun _ => rfl⟩ ⟨entry, member, same, fun _ => rfl⟩)
    · simp only [if_neg differ]
      exact closeGroup_spec small sound (both (.refl _) ⟨entry, member, same, fun wrong => absurd wrong differ⟩)

end PhyNspire.Tensor

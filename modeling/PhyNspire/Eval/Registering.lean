import PhyNspire.Eval.Slots

/-!
The ledger keeps track of the table: a registration adds one serial, and keeping the marked slots
keeps the marked serials, whenever nothing kept uses anything else.
-/

namespace PhyNspire.Eval

open Relation

section

variable {α β : Type}

theorem aligned_left {related : α → β → Prop} {left : List α} {right : List β} {index : Nat} {second : β}
    (aligned : List.Forall₂ related left right) (there : right[index]? = some second) :
    ∃ first, left[index]? = some first ∧ related first second := by
  induction aligned generalizing index with
  | nil => cases there
  | cons head _ ih =>
    cases index with
    | zero =>
      cases there
      exact ⟨_, rfl, head⟩
    | succ index => exact ih there

theorem aligned_right {related : α → β → Prop} {left : List α} {right : List β} {index : Nat} {first : α}
    (aligned : List.Forall₂ related left right) (there : left[index]? = some first) :
    ∃ second, right[index]? = some second ∧ related first second := by
  induction aligned generalizing index with
  | nil => cases there
  | cons head _ ih =>
    cases index with
    | zero =>
      cases there
      exact ⟨_, rfl, head⟩
    | succ index => exact ih there

theorem concat_get {entries : List α} {last found : α} {index : Nat} :
    (entries ++ [last])[index]? = some found ↔
      entries[index]? = some found ∨ (index = entries.length ∧ last = found) := by
  rcases Nat.lt_trichotomy index entries.length with inside | rfl | outside
  · rw [List.getElem?_append_left inside]
    exact (or_iff_left (fun h => absurd h.1 inside.ne)).symm
  · rw [List.getElem?_append_right le_rfl, Nat.sub_self, List.getElem?_eq_none le_rfl]
    simp
  · rw [List.getElem?_eq_none (by rw [List.length_append, List.length_singleton]; omega),
      List.getElem?_eq_none outside.le]
    simp only [reduceCtorEq, false_or, false_iff, not_and]
    exact fun same => absurd same outside.ne'

theorem falling_pair {entries : List Nat} {high low : Nat} (falling : entries.Pairwise (· > ·))
    (highThere : high ∈ entries) (lowThere : low ∈ entries) (lt : low < high) : [high, low].Sublist entries := by
  induction entries with
  | nil => cases highThere
  | cons head rest ih =>
    obtain ⟨below, falling⟩ := List.pairwise_cons.mp falling
    obtain rfl | highLater := List.mem_cons.mp highThere
    · have lowLater : low ∈ rest := (List.mem_cons.mp lowThere).resolve_left lt.ne
      exact (List.singleton_sublist.mpr lowLater).cons₂ high
    · obtain rfl | lowLater := List.mem_cons.mp lowThere
      · exact absurd (below high highLater) (by omega)
      · exact (ih falling highLater lowLater).cons head

end

def Ledger.Describes (ledger : Ledger) (serial : Nat) (object : Object) : Prop :=
  ∃ creation : Creation, ledger.creations[serial]? = some creation ∧ creation.pointer = object.value.pointer ∧
    destroyOwned object.value object.owned = if creation.owns then [creation.pointer] else []

/-- What holds between two steps of a command, after the owning pointers `freed` were destroyed. -/
structure Tracks (env : Env) (ledger : Ledger) (freed : List Pointer) : Prop where
  room : env.objects.length ≤ maxObjects
  pointers : ∀ object ∈ env.objects, object.value.pointer ≠ 0 ∧
    (object.owned = 0 ∨ object.owned = object.value.pointer)
  described : List.Forall₂ ledger.Describes ledger.live env.objects
  ordered : ledger.live.Pairwise (· < ·)
  bits : ∀ (slot user : Nat) (object : Object) (bit : Nat), ledger.live[slot]? = some user →
    env.objects[slot]? = some object →
    (object.dependency.getLsbD bit = true ↔ ∃ used, ledger.live[bit]? = some used ∧ ledger.Uses user used)
  closed : ∀ user used, user ∈ ledger.live → ledger.Uses user used → used ∈ ledger.live
  first : ∀ slot bit, refers env slot bit = true →
    ∃ object, env.objects[bit]? = some object ∧ slotOf env object.value = some bit
  older : ∀ user used, ledger.Uses user used → used < user
  destroyedOnce : ledger.destroyed.Nodup
  accounted : ∀ serial, serial ∈ ledger.destroyed ↔ (ledger.owns serial = true ∧ serial ∉ ledger.live)
  afterUsers : ∀ serial user, serial ∈ ledger.destroyed → TransGen ledger.Uses user serial →
    ledger.owns user = true → [user, serial].Sublist ledger.destroyed
  freed : freed = ledger.destroyed.map ledger.pointerOf

theorem Ledger.owns_iff {ledger : Ledger} {serial : Nat} :
    ledger.owns serial = true ↔ ∃ creation, ledger.creations[serial]? = some creation ∧ creation.owns = true := by
  unfold owns
  cases ledger.creations[serial]? with
  | none => simp
  | some creation => simp

theorem Ledger.owns_lt {ledger : Ledger} {serial : Nat} (isOwner : ledger.owns serial = true) :
    serial < ledger.creations.length := by
  obtain ⟨_, there, _⟩ := owns_iff.mp isOwner
  exact (List.getElem?_eq_some_iff.mp there).1

theorem Ledger.uses_lt {ledger : Ledger} {user used : Nat} (uses : ledger.Uses user used) :
    user < ledger.creations.length := by
  obtain ⟨_, there, _⟩ := uses
  exact (List.getElem?_eq_some_iff.mp there).1

namespace Tracks

variable {env : Env} {ledger : Ledger} {freed : List Pointer}

theorem empty : Tracks Env.empty Ledger.empty [] where
  room := by decide
  pointers := fun _ there => by cases there
  described := List.Forall₂.nil
  ordered := List.Pairwise.nil
  bits := fun _ _ _ _ there => by cases there
  closed := fun _ _ there => by cases there
  first := fun _ _ edge => by cases edge
  older := fun _ _ uses => by
    obtain ⟨_, there, _⟩ := uses
    cases there
  destroyedOnce := List.Pairwise.nil
  accounted := fun _ => ⟨(fun there => by cases there), fun there => by cases there.1⟩
  afterUsers := fun _ _ there => by cases there
  freed := rfl

theorem congr {other : Env} (tracks : Tracks env ledger freed) (same : env.objects = other.objects) :
    Tracks other ledger freed where
  room := same ▸ tracks.room
  pointers := same ▸ tracks.pointers
  described := same ▸ tracks.described
  ordered := tracks.ordered
  bits := same ▸ tracks.bits
  closed := tracks.closed
  first := fun slot bit edge => by
    unfold refers at edge
    rw [← same] at edge
    obtain ⟨object, there, found⟩ := tracks.first slot bit edge
    exact ⟨object, same ▸ there, (slotOf_congr same).symm.trans found⟩
  older := tracks.older
  destroyedOnce := tracks.destroyedOnce
  accounted := tracks.accounted
  afterUsers := tracks.afterUsers
  freed := tracks.freed

theorem live_lt {serial : Nat} (tracks : Tracks env ledger freed) (isLive : serial ∈ ledger.live) :
    serial < ledger.creations.length := by
  obtain ⟨slot, there⟩ := List.mem_iff_getElem?.mp isLive
  obtain ⟨_, _, _, created, _⟩ := aligned_right tracks.described there
  exact (List.getElem?_eq_some_iff.mp created).1

theorem live_injective {slot slot' serial : Nat} (tracks : Tracks env ledger freed)
    (there : ledger.live[slot]? = some serial) (there' : ledger.live[slot']? = some serial) : slot = slot' := by
  have distinct : ledger.live.Nodup := tracks.ordered.imp (fun lt => lt.ne)
  obtain ⟨inside, eq⟩ := List.getElem?_eq_some_iff.mp there
  exact (List.getElem?_inj inside distinct).mp (there.trans there'.symm)

theorem down {slot bit : Nat} (tracks : Tracks env ledger freed) (edge : refers env slot bit = true) :
    bit < slot := by
  obtain ⟨object, there, set⟩ := refers_iff.mp edge
  obtain ⟨user, isUser, _⟩ := aligned_left tracks.described there
  obtain ⟨used, isUsed, uses⟩ := (tracks.bits slot user object bit isUser there).mp set
  have lt := tracks.older user used uses
  by_contra above
  obtain rfl | higher := (Nat.le_of_not_lt above).eq_or_lt
  · rw [isUser, Option.some_inj] at isUsed
    exact lt.ne isUsed.symm
  · obtain ⟨inside, rfl⟩ := List.getElem?_eq_some_iff.mp isUsed
    obtain ⟨inside', rfl⟩ := List.getElem?_eq_some_iff.mp isUser
    have := List.pairwise_iff_getElem.mp tracks.ordered slot bit inside' inside higher
    omega

theorem live_of_path {user used : Nat} (tracks : Tracks env ledger freed) (path : TransGen ledger.Uses user used)
    (isLive : user ∈ ledger.live) : used ∈ ledger.live := by
  induction path with
  | single uses => exact tracks.closed _ _ isLive uses
  | tail _ uses ih => exact tracks.closed _ _ ih uses

theorem path_lt {user used : Nat} (tracks : Tracks env ledger freed) (path : TransGen ledger.Uses user used) :
    used < user := by
  induction path with
  | single uses => exact tracks.older _ _ uses
  | tail _ uses ih => exact (tracks.older _ _ uses).trans ih

end Tracks

end PhyNspire.Eval

/-!
A registration, successful or not, keeps the ledger in step with the table.
-/

namespace PhyNspire.Eval

open Relation

section

variable {ledger grown : Ledger} {new : Creation}

theorem Ledger.uses_grown (isGrown : grown.creations = ledger.creations ++ [new]) {user used : Nat} :
    grown.Uses user used ↔ ledger.Uses user used ∨ (user = ledger.creations.length ∧ used ∈ new.dependsOn) := by
  unfold Uses
  rw [isGrown]
  simp only [concat_get, or_and_right, exists_or]
  refine or_congr_right ⟨?_, ?_⟩
  · rintro ⟨creation, ⟨same, rfl⟩, there⟩
    exact ⟨same, there⟩
  · rintro ⟨same, there⟩
    exact ⟨new, ⟨same, rfl⟩, there⟩

theorem Ledger.owns_grown (isGrown : grown.creations = ledger.creations ++ [new]) {serial : Nat} :
    grown.owns serial = true ↔
      ledger.owns serial = true ∨ (serial = ledger.creations.length ∧ new.owns = true) := by
  rw [owns_iff, owns_iff, isGrown]
  simp only [concat_get, or_and_right, exists_or]
  refine or_congr_right ⟨?_, ?_⟩
  · rintro ⟨creation, ⟨same, rfl⟩, isOwner⟩
    exact ⟨same, isOwner⟩
  · rintro ⟨same, isOwner⟩
    exact ⟨new, ⟨same, rfl⟩, isOwner⟩

theorem Ledger.pointerOf_grown (isGrown : grown.creations = ledger.creations ++ [new]) {serial : Nat}
    (earlier : serial < ledger.creations.length) : grown.pointerOf serial = ledger.pointerOf serial := by
  unfold pointerOf
  rw [isGrown, List.getElem?_append_left earlier]

theorem Ledger.last_created (isGrown : grown.creations = ledger.creations ++ [new]) :
    grown.creations[ledger.creations.length]? = some new := by
  rw [isGrown, concat_get]
  exact Or.inr ⟨rfl, rfl⟩

theorem Ledger.pointerOf_last (isGrown : grown.creations = ledger.creations ++ [new]) :
    grown.pointerOf ledger.creations.length = new.pointer := by
  unfold pointerOf
  rw [last_created isGrown]
  rfl

theorem Ledger.describes_grown (isGrown : grown.creations = ledger.creations ++ [new]) {serial : Nat}
    {object : Object} (describes : ledger.Describes serial object) : grown.Describes serial object := by
  obtain ⟨creation, there, rest⟩ := describes
  exact ⟨creation, by rw [isGrown, concat_get]; exact Or.inl there, rest⟩

theorem Ledger.path_grown (isGrown : grown.creations = ledger.creations ++ [new])
    (older : ∀ user used, ledger.Uses user used → used < user) {user used : Nat}
    (path : TransGen grown.Uses user used) (earlier : user ≠ ledger.creations.length) :
    TransGen ledger.Uses user used := by
  induction path using TransGen.head_induction_on with
  | single uses =>
    exact TransGen.single (((uses_grown isGrown).mp uses).resolve_right fun h => earlier h.1)
  | head uses _ ih =>
    have old := ((uses_grown isGrown).mp uses).resolve_right fun h => earlier h.1
    have lt := (older _ _ old).trans (uses_lt old)
    exact TransGen.head old (ih lt.ne)

end

theorem evalRegisterMany_ok {env : Env} {new : Registration} (isOk : (evalRegisterMany env new).1 = .ok) :
    new.value.pointer ≠ 0 ∧ env.objects.length < maxObjects ∧
      ∃ bits, dependencyBits env new.dependencies = some bits ∧
        (evalRegisterMany env new).2 =
          ({ env with objects := env.objects ++ [⟨new.value, new.owned, bits, new.coordinates⟩] }, []) := by
  unfold evalRegisterMany at isOk ⊢
  split_ifs at isOk ⊢ with isNull isFull
  refine ⟨isNull, Nat.lt_of_not_le isFull, ?_⟩
  cases found : dependencyBits env new.dependencies with
  | none =>
    rw [found] at isOk
    cases isOk
  | some bits => exact ⟨bits, rfl, rfl⟩

theorem evalRegisterMany_failed {env : Env} {new : Registration} (failed : (evalRegisterMany env new).1 ≠ .ok) :
    (evalRegisterMany env new).2 = (env, destroyOwned new.value new.owned) := by
  unfold evalRegisterMany at failed ⊢
  split_ifs at failed ⊢
  · rfl
  · rfl
  · cases found : dependencyBits env new.dependencies with
    | none => rfl
    | some bits =>
      rw [found] at failed
      exact absurd rfl failed

theorem destroyOwned_cases (value : Value) (owned : Pointer) :
    destroyOwned value owned = [] ∨ (owned ≠ 0 ∧ destroyOwned value owned = [owned]) := by
  cases value with
  | none => exact Or.inl rfl
  | scalar => exact Or.inl rfl
  | object kind pointer =>
    change (if owned ≠ 0 ∧ kind.owns = true then [owned] else []) = [] ∨
      (owned ≠ 0 ∧ (if owned ≠ 0 ∧ kind.owns = true then [owned] else []) = [owned])
    split_ifs with active
    · exact Or.inr ⟨active.1, rfl⟩
    · exact Or.inl rfl

theorem Registration.destroyed {env : Env} {new : Registration} (fits : new.Fits env) :
    destroyOwned new.value new.owned = if new.owns then [new.value.pointer] else [] := by
  unfold Registration.owns
  obtain nothing | ⟨present, one⟩ := destroyOwned_cases new.value new.owned
  · rw [nothing]
    rfl
  · rw [one]
    obtain isNull | ⟨same, _⟩ := fits
    · exact absurd isNull present
    · rw [same]
      rfl

namespace Tracks

variable {env : Env} {ledger : Ledger} {freed : List Pointer} {new : Registration}

theorem register_ok (tracks : Tracks env ledger freed) (fits : new.Fits env)
    (isOk : (evalRegisterMany env new).1 = .ok) :
    Tracks (evalRegisterMany env new).2.1 (ledger.register env new) (freed ++ (evalRegisterMany env new).2.2) := by
  obtain ⟨present, space, bits, found, result⟩ := evalRegisterMany_ok isOk
  rw [result, List.append_nil]
  have registered : ledger.register env new =
      { creations := ledger.creations ++
          [⟨new.value.pointer, new.owns, new.dependencies.filterMap (ledger.serialOf env)⟩]
        live := ledger.live ++ [ledger.creations.length]
        destroyed := ledger.destroyed } := if_pos isOk
  have isGrown : (ledger.register env new).creations = ledger.creations ++
      [⟨new.value.pointer, new.owns, new.dependencies.filterMap (ledger.serialOf env)⟩] := by rw [registered]
  have live : (ledger.register env new).live = ledger.live ++ [ledger.creations.length] := by rw [registered]
  have destroyed : (ledger.register env new).destroyed = ledger.destroyed := by rw [registered]
  have uses {user used : Nat} : (ledger.register env new).Uses user used ↔ ledger.Uses user used ∨
      (user = ledger.creations.length ∧ used ∈ new.dependencies.filterMap (ledger.serialOf env)) :=
    Ledger.uses_grown isGrown
  have length : ledger.live.length = env.objects.length := tracks.described.length_eq
  have serials {used : Nat} : used ∈ new.dependencies.filterMap (ledger.serialOf env) ↔
      ∃ value ∈ new.dependencies, ∃ slot, slotOf env value = some slot ∧ ledger.live[slot]? = some used := by
    simp only [List.mem_filterMap, Ledger.serialOf, Option.bind_eq_some_iff]
  have isLive {used : Nat} (there : used ∈ new.dependencies.filterMap (ledger.serialOf env)) :
      used ∈ ledger.live := by
    obtain ⟨_, _, _, _, isUsed⟩ := serials.mp there
    exact List.mem_of_getElem? isUsed
  have closed : ∀ user used, user ∈ (ledger.register env new).live → (ledger.register env new).Uses user used →
      used ∈ (ledger.register env new).live := by
    rw [live]
    intro user used isUser edge
    refine List.mem_append_left _ ?_
    obtain old | ⟨_, there⟩ := uses.mp edge
    · obtain earlier | last := List.mem_append.mp isUser
      · exact tracks.closed user used earlier old
      · rw [List.mem_singleton.mp last] at old
        exact absurd (Ledger.uses_lt old) (lt_irrefl _)
    · exact isLive there
  have accounted : ∀ serial, serial ∈ (ledger.register env new).destroyed ↔
      ((ledger.register env new).owns serial = true ∧ serial ∉ (ledger.register env new).live) := by
    intro serial
    rw [destroyed, live, tracks.accounted, Ledger.owns_grown isGrown, List.mem_append, List.mem_singleton]
    constructor
    · rintro ⟨isOwner, dead⟩
      exact ⟨Or.inl isOwner, fun h => h.elim dead (Ledger.owns_lt isOwner).ne⟩
    · rintro ⟨isOwner, dead⟩
      exact ⟨isOwner.resolve_right fun h => dead (Or.inr h.1), fun h => dead (Or.inl h)⟩
  exact {
    room := by
      rw [List.length_append, List.length_singleton]
      exact space
    pointers := by
      intro object there
      obtain old | last := List.mem_append.mp there
      · exact tracks.pointers object old
      · rw [List.mem_singleton.mp last]
        exact ⟨present, fits.imp_right And.left⟩
    described := by
      rw [live]
      refine List.rel_append (tracks.described.imp fun _ _ => Ledger.describes_grown isGrown)
        (List.Forall₂.cons ?_ List.Forall₂.nil)
      exact ⟨_, Ledger.last_created isGrown, rfl, Registration.destroyed fits⟩
    ordered := by
      rw [live, List.pairwise_append]
      refine ⟨tracks.ordered, List.pairwise_singleton _ _, ?_⟩
      intro serial old last isLast
      rw [List.mem_singleton.mp isLast]
      exact tracks.live_lt old
    bits := by
      intro slot user object bit isUser there
      rw [live, concat_get] at isUser
      rw [concat_get] at there
      simp only [live, concat_get, uses]
      obtain isUser | ⟨rfl, rfl⟩ := isUser
      · have earlier : user < ledger.creations.length := tracks.live_lt (List.mem_of_getElem? isUser)
        have old := there.resolve_right fun h =>
          absurd (List.getElem?_eq_some_iff.mp isUser).1 (by rw [h.1, length]; exact lt_irrefl _)
        rw [tracks.bits slot user object bit isUser old]
        constructor
        · rintro ⟨used, isUsed, edge⟩
          exact ⟨used, Or.inl isUsed, Or.inl edge⟩
        · rintro ⟨used, isUsed, edge⟩
          have edge := edge.resolve_right fun h => earlier.ne h.1
          refine ⟨used, isUsed.resolve_right fun h => ?_, edge⟩
          have := tracks.older user used edge
          omega
      · obtain rfl : _ = object := (there.resolve_left fun h =>
          absurd (List.getElem?_eq_some_iff.mp h).1 (by rw [length]; exact lt_irrefl _)).2
        rw [dependencyBits_bit tracks.room found]
        constructor
        · rintro ⟨value, isDependency, slotFound⟩
          obtain ⟨used, isUsed, _⟩ := aligned_left tracks.described
            (List.getElem?_eq_getElem (slotOf_lt slotFound))
          exact ⟨used, Or.inl isUsed, Or.inr ⟨rfl, serials.mpr ⟨value, isDependency, bit, slotFound, isUsed⟩⟩⟩
        · rintro ⟨used, isUsed, edge⟩
          have there := (edge.resolve_left fun h => absurd (Ledger.uses_lt h) (lt_irrefl _)).2
          obtain ⟨value, isDependency, slot, slotFound, isUsed'⟩ := serials.mp there
          have isUsed := isUsed.resolve_right fun h =>
            absurd (tracks.live_lt (isLive there)) (by rw [h.2]; exact lt_irrefl _)
          rw [tracks.live_injective isUsed isUsed']
          exact ⟨value, isDependency, slotFound⟩
    closed := closed
    first := by
      intro slot bit edge
      obtain ⟨object, there, set⟩ := refers_iff.mp edge
      have stays {target : Object} (isTarget : env.objects[bit]? = some target)
          (isFirst : slotOf env target.value = some bit) :
          (env.objects ++ [⟨new.value, new.owned, bits, new.coordinates⟩])[bit]? = some target ∧ _ := And.intro
        (concat_get.mpr (Or.inl isTarget))
        (slotOf_append [⟨new.value, new.owned, bits, new.coordinates⟩] isFirst)
      obtain old | ⟨_, rfl⟩ := concat_get.mp there
      · obtain ⟨target, isTarget, isFirst⟩ := tracks.first slot bit (refers_iff.mpr ⟨object, old, set⟩)
        exact ⟨target, stays isTarget isFirst⟩
      · obtain ⟨value, _, slotFound⟩ := (dependencyBits_bit tracks.room found).mp set
        have isTarget := List.getElem?_eq_getElem (slotOf_lt slotFound)
        exact ⟨_, stays isTarget (slotOf_object slotFound isTarget).2⟩
    older := by
      intro user used edge
      obtain old | ⟨rfl, there⟩ := uses.mp edge
      · exact tracks.older user used old
      · exact tracks.live_lt (isLive there)
    destroyedOnce := by
      rw [destroyed]
      exact tracks.destroyedOnce
    accounted := accounted
    afterUsers := by
      intro serial user isDestroyed path isOwner
      by_cases isLast : user = ledger.creations.length
      · have reached : serial ∈ (ledger.register env new).live := by
          have start : user ∈ (ledger.register env new).live := by
            rw [live, isLast]
            exact List.mem_append_right _ (List.mem_singleton_self _)
          clear isOwner isDestroyed isLast
          induction path with
          | single edge => exact closed _ _ start edge
          | tail _ edge ih => exact closed _ _ ih edge
        exact absurd reached ((accounted serial).mp isDestroyed).2
      · rw [destroyed] at isDestroyed ⊢
        refine tracks.afterUsers serial user isDestroyed (Ledger.path_grown isGrown tracks.older path isLast) ?_
        exact ((Ledger.owns_grown isGrown).mp isOwner).resolve_right fun h => isLast h.1
    freed := by
      rw [tracks.freed, destroyed]
      refine List.map_congr_left fun serial isDestroyed => ?_
      exact (Ledger.pointerOf_grown isGrown (Ledger.owns_lt ((tracks.accounted serial).mp isDestroyed).1)).symm }

theorem register_failed (tracks : Tracks env ledger freed) (fits : new.Fits env)
    (failed : (evalRegisterMany env new).1 ≠ .ok) :
    Tracks (evalRegisterMany env new).2.1 (ledger.register env new) (freed ++ (evalRegisterMany env new).2.2) := by
  rw [evalRegisterMany_failed failed]
  have registered : ledger.register env new =
      { creations := ledger.creations ++ [⟨new.value.pointer, new.owns, []⟩]
        live := ledger.live
        destroyed := ledger.destroyed ++ if new.owns then [ledger.creations.length] else [] } := if_neg failed
  have isGrown : (ledger.register env new).creations = ledger.creations ++
      [⟨new.value.pointer, new.owns, []⟩] := by rw [registered]
  have live : (ledger.register env new).live = ledger.live := by rw [registered]
  have destroyed {serial : Nat} : serial ∈ (ledger.register env new).destroyed ↔
      serial ∈ ledger.destroyed ∨ (serial = ledger.creations.length ∧ new.owns = true) := by
    rw [registered, List.mem_append]
    refine or_congr_right ?_
    cases new.owns <;> simp
  have uses : (ledger.register env new).Uses = ledger.Uses := by
    funext user used
    refine propext ((Ledger.uses_grown isGrown).trans (or_iff_left ?_))
    rintro ⟨_, there⟩
    cases there
  have notLast {serial : Nat} (isDestroyed : serial ∈ ledger.destroyed) : serial ≠ ledger.creations.length :=
    (Ledger.owns_lt ((tracks.accounted serial).mp isDestroyed).1).ne
  exact {
    room := tracks.room
    pointers := tracks.pointers
    described := by
      rw [live]
      exact tracks.described.imp fun _ _ => Ledger.describes_grown isGrown
    ordered := by
      rw [live]
      exact tracks.ordered
    bits := by
      rw [live, uses]
      exact tracks.bits
    closed := by
      rw [live, uses]
      exact tracks.closed
    first := tracks.first
    older := by
      rw [uses]
      exact tracks.older
    destroyedOnce := by
      rw [registered]
      refine List.Nodup.append tracks.destroyedOnce ?_ ?_
      · cases new.owns
        · exact List.nodup_nil
        · exact List.nodup_singleton _
      · intro serial old last
        cases owns : new.owns with
        | false =>
          rw [owns] at last
          cases last
        | true =>
          rw [owns] at last
          exact notLast old (List.mem_singleton.mp last)
    accounted := by
      intro serial
      rw [destroyed, live, tracks.accounted, Ledger.owns_grown isGrown]
      constructor
      · rintro (⟨isOwner, dead⟩ | ⟨rfl, isOwner⟩)
        · exact ⟨Or.inl isOwner, dead⟩
        · exact ⟨Or.inr ⟨rfl, isOwner⟩, fun isLive => (tracks.live_lt isLive).ne rfl⟩
      · rintro ⟨isOwner | last, dead⟩
        · exact Or.inl ⟨isOwner, dead⟩
        · exact Or.inr last
    afterUsers := by
      intro serial user isDestroyed path isOwner
      rw [uses] at path
      obtain ⟨_, first, _⟩ := TransGen.head'_iff.mp path
      have userOld : ledger.owns user = true :=
        ((Ledger.owns_grown isGrown).mp isOwner).resolve_right fun h => (Ledger.uses_lt first).ne h.1
      have lt : serial < ledger.creations.length := (tracks.path_lt path).trans (Ledger.uses_lt first)
      have old : serial ∈ ledger.destroyed := (destroyed.mp isDestroyed).resolve_right fun h => lt.ne h.1
      rw [registered]
      exact (tracks.afterUsers serial user old path userOld).trans (List.sublist_append_left _ _)
    freed := by
      have same (serial : Nat) (isDestroyed : serial ∈ ledger.destroyed) :
          ledger.pointerOf serial = (ledger.register env new).pointerOf serial :=
        (Ledger.pointerOf_grown isGrown (Ledger.owns_lt ((tracks.accounted serial).mp isDestroyed).1)).symm
      have last := Ledger.pointerOf_last isGrown
      have batch : (ledger.register env new).destroyed =
          ledger.destroyed ++ if new.owns then [ledger.creations.length] else [] := by rw [registered]
      rw [tracks.freed, List.map_congr_left same, Registration.destroyed fits, batch, List.map_append]
      split_ifs
      · rw [List.map_singleton, last]
      · rfl }

theorem register (tracks : Tracks env ledger freed) (fits : new.Fits env) :
    Tracks (evalRegisterMany env new).2.1 (ledger.register env new) (freed ++ (evalRegisterMany env new).2.2) := by
  by_cases isOk : (evalRegisterMany env new).1 = .ok
  · exact tracks.register_ok fits isOk
  · exact tracks.register_failed fits isOk

theorem registerAll {news : List Registration} (tracks : Tracks env ledger freed) (fits : AllFit env news) :
    Tracks (evalNode env news).1 (ledger.registerAll env news) (freed ++ (evalNode env news).2) := by
  induction news generalizing env ledger freed with
  | nil =>
    rw [evalNode, List.append_nil]
    exact tracks
  | cons new rest ih =>
    have rest := ih (tracks.register fits.1) fits.2
    rw [List.append_assoc] at rest
    exact rest

end Tracks

end PhyNspire.Eval

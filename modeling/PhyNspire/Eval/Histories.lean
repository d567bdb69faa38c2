import PhyNspire.Eval.Registering

/-!
A sweep keeps the ledger in step with the table, and leaves exactly what the bindings and the kept
value reach.
-/

namespace PhyNspire.Eval

open PhyNspire.Platform PhyNspire.Lib.Marking Relation

section

variable {env : Env} {marked : Nat → Bool}

theorem compact_origin {number : Nat} {object : Object}
    (there : (compact env marked).1.objects[number]? = some object) :
    ∃ slot old, env.objects[slot]? = some old ∧ marked slot = true ∧ rank marked slot = number ∧
      object = { old with dependency := mappedBits marked old.dependency env.objects.length } := by
  change (List.map _ _)[number]? = some object at there
  rw [List.getElem?_map, Option.map_eq_some_iff] at there
  obtain ⟨old, found, rfl⟩ := there
  obtain ⟨slot, isOld, isMarked, same⟩ := kept_origin marked found
  exact ⟨slot, old, isOld, isMarked, same, rfl⟩

theorem compact_get {slot : Nat} {object : Object} (there : env.objects[slot]? = some object)
    (isMarked : marked slot = true) :
    (compact env marked).1.objects[rank marked slot]? =
      some { object with dependency := mappedBits marked object.dependency env.objects.length } := by
  change (List.map _ _)[rank marked slot]? = _
  rw [List.getElem?_map, kept_get marked there isMarked]
  rfl

theorem compact_length : (compact env marked).1.objects.length = rank marked env.objects.length := by
  change (List.map _ _).length = _
  rw [List.length_map, kept_length]

theorem slotOf_compact {value : Value} {slot : Nat} (found : slotOf env value = some slot)
    (isMarked : marked slot = true) : slotOf (compact env marked).1 value = some (rank marked slot) := by
  obtain ⟨present, inside, same, earlier⟩ := slotOf_eq_some.mp found
  have there := compact_get (List.getElem?_eq_getElem inside) isMarked
  obtain ⟨inside', eq⟩ := List.getElem?_eq_some_iff.mp there
  refine slotOf_eq_some.mpr ⟨present, inside', by rw [eq]; exact same, ?_⟩
  intro lower below
  obtain ⟨slot', old, isOld, isMarked', number, object⟩ :=
    compact_origin (List.getElem?_eq_getElem (below.trans inside'))
  rw [object]
  obtain ⟨inside'', rfl⟩ := List.getElem?_eq_some_iff.mp isOld
  refine earlier slot' ?_
  by_contra above
  have := rank_mono marked (Nat.le_of_not_lt above)
  omega

end

theorem Ledger.destroyed_of_described {ledger : Ledger} {serials : List Nat} {objects : List Object}
    (described : List.Forall₂ ledger.Describes serials objects) :
    (objects.flatMap fun object => destroyOwned object.value object.owned) =
      (serials.filter ledger.owns).map ledger.pointerOf := by
  induction described with
  | nil => rfl
  | @cons serial object serials objects head _ ih =>
    obtain ⟨creation, there, _, destroys⟩ := head
    have owns : ledger.owns serial = creation.owns := by
      unfold owns
      rw [there]
      rfl
    have pointer : ledger.pointerOf serial = creation.pointer := by
      unfold pointerOf
      rw [there]
      rfl
    rw [List.flatMap_cons, destroys, ih, List.filter_cons, owns]
    split_ifs
    · rw [List.map_cons, pointer]
      rfl
    · rfl

namespace Tracks

variable {env : Env} {ledger : Ledger} {freed : List Pointer} {marked : Nat → Bool}

theorem keep_afterUsers (tracks : Tracks env ledger freed) {serial user : Nat}
    (isDestroyed : serial ∈ (ledger.keep marked).destroyed) (path : TransGen ledger.Uses user serial)
    (isOwner : ledger.owns user = true) (dead : user ∉ kept marked ledger.live) :
    [user, serial].Sublist (ledger.keep marked).destroyed := by
  have split {other : Nat} (isLive : other ∈ ledger.live) (gone : other ∉ kept marked ledger.live) :
      other ∈ (kept (fun slot => !marked slot) ledger.live).reverse := by
    rw [List.mem_reverse]
    obtain ⟨slot, there⟩ := List.mem_iff_getElem?.mp isLive
    by_cases isMarked : marked slot = true
    · exact absurd (List.mem_of_getElem? (kept_get marked there isMarked)) gone
    · refine List.mem_of_getElem? (kept_get _ there ?_)
      rw [Bool.not_eq_true] at isMarked
      rw [isMarked]
      rfl
  have falling : ((kept (fun slot => !marked slot) ledger.live).reverse.filter ledger.owns).Pairwise (· > ·) :=
    (List.pairwise_reverse.mpr (tracks.ordered.sublist (kept_sublist _ _))).sublist List.filter_sublist
  obtain old | new := List.mem_append.mp isDestroyed
  · exact (tracks.afterUsers serial user old path isOwner).trans (List.sublist_append_left _ _)
  · by_cases isLive : user ∈ ledger.live
    · have userNew : user ∈ (kept (fun slot => !marked slot) ledger.live).reverse.filter ledger.owns :=
        List.mem_filter.mpr ⟨split isLive dead, isOwner⟩
      exact (falling_pair falling userNew new (tracks.path_lt path)).trans (List.sublist_append_right _ _)
    · have userOld : user ∈ ledger.destroyed := (tracks.accounted user).mpr ⟨isOwner, isLive⟩
      exact (List.singleton_sublist.mpr userOld).append (List.singleton_sublist.mpr new)

theorem compact (tracks : Tracks env ledger freed)
    (closed : ∀ slot bit, marked slot = true → refers env slot bit = true → marked bit = true) :
    Tracks (compact env marked).1 (ledger.keep marked) (freed ++ (compact env marked).2) := by
  have length : ledger.live.length = env.objects.length := tracks.described.length_eq
  have stays {user used : Nat} (isUser : user ∈ kept marked ledger.live) (uses : ledger.Uses user used) :
      used ∈ kept marked ledger.live := by
    obtain ⟨number, there⟩ := List.mem_iff_getElem?.mp isUser
    obtain ⟨slot, isSlot, isMarked, _⟩ := kept_origin marked there
    obtain ⟨bit, isUsed⟩ := List.mem_iff_getElem?.mp (tracks.closed _ _ (List.mem_of_getElem? isSlot) uses)
    obtain ⟨object, isObject, _⟩ := aligned_right tracks.described isSlot
    have set := (tracks.bits slot user object bit isSlot isObject).mpr ⟨used, isUsed, uses⟩
    have edge : refers env slot bit = true := refers_iff.mpr ⟨object, isObject, set⟩
    exact List.mem_of_getElem? (kept_get marked isUsed (closed slot bit isMarked edge))
  have accounted : ∀ serial, serial ∈ (ledger.keep marked).destroyed ↔
      (ledger.owns serial = true ∧ serial ∉ kept marked ledger.live) := by
    intro serial
    change serial ∈ ledger.destroyed ++ (kept (fun slot => !marked slot) ledger.live).reverse.filter ledger.owns ↔ _
    rw [List.mem_append, tracks.accounted, List.mem_filter, List.mem_reverse]
    constructor
    · rintro (⟨isOwner, dead⟩ | ⟨isNew, isOwner⟩)
      · exact ⟨isOwner, fun h => dead ((kept_sublist marked ledger.live).subset h)⟩
      · refine ⟨isOwner, fun h => ?_⟩
        obtain ⟨number, there⟩ := List.mem_iff_getElem?.mp isNew
        obtain ⟨number', there'⟩ := List.mem_iff_getElem?.mp h
        obtain ⟨slot, isSlot, unmarked, _⟩ := kept_origin _ there
        obtain ⟨slot', isSlot', isMarked, _⟩ := kept_origin _ there'
        rw [tracks.live_injective isSlot isSlot', isMarked] at unmarked
        cases unmarked
    · rintro ⟨isOwner, dead⟩
      by_cases isLive : serial ∈ ledger.live
      · obtain ⟨slot, there⟩ := List.mem_iff_getElem?.mp isLive
        refine Or.inr ⟨List.mem_of_getElem? (kept_get _ there ?_), isOwner⟩
        rw [Bool.not_eq_true', Bool.eq_false_iff]
        exact fun isMarked => dead (List.mem_of_getElem? (kept_get marked there isMarked))
      · exact Or.inl ⟨isOwner, isLive⟩
  exact {
    room := by
      rw [compact_length]
      exact (rank_le _ _).trans tracks.room
    pointers := by
      intro object there
      obtain ⟨number, there⟩ := List.mem_iff_getElem?.mp there
      obtain ⟨slot, old, isOld, _, _, rfl⟩ := compact_origin there
      exact tracks.pointers old (List.mem_of_getElem? isOld)
    described := by
      change List.Forall₂ ledger.Describes (kept marked ledger.live) (List.map _ (kept marked env.objects))
      rw [List.forall₂_map_right_iff]
      exact kept_forall₂ marked tracks.described
    ordered := tracks.ordered.sublist (kept_sublist _ _)
    bits := by
      intro number user object bit isUser there
      obtain ⟨slot, old, isOld, isMarked, isNumber, rfl⟩ := compact_origin there
      obtain ⟨slot', isSlot', isMarked', isNumber'⟩ := kept_origin marked isUser
      obtain rfl := rank_injective marked isMarked isMarked' (isNumber.trans isNumber'.symm)
      rw [mappedBits_bit tracks.room]
      constructor
      · rintro ⟨lower, _, set, isMarked'', rfl⟩
        obtain ⟨used, isUsed, uses⟩ := (tracks.bits slot user old lower isSlot' isOld).mp set
        exact ⟨used, kept_get marked isUsed isMarked'', uses⟩
      · rintro ⟨used, isUsed, uses⟩
        obtain ⟨lower, isLower, isMarked'', isBit⟩ := kept_origin marked isUsed
        have set := (tracks.bits slot user old lower isSlot' isOld).mpr ⟨used, isLower, uses⟩
        exact ⟨lower, by rw [← length]; exact (List.getElem?_eq_some_iff.mp isLower).1, set, isMarked'', isBit⟩
    closed := fun _ _ => stays
    first := by
      intro number bit edge
      obtain ⟨object, there, set⟩ := refers_iff.mp edge
      obtain ⟨slot, old, isOld, isMarked, _, rfl⟩ := compact_origin there
      obtain ⟨lower, _, oldSet, isMarked', rfl⟩ := (mappedBits_bit tracks.room).mp set
      obtain ⟨target, isTarget, isFirst⟩ := tracks.first slot lower (refers_iff.mpr ⟨old, isOld, oldSet⟩)
      exact ⟨_, compact_get isTarget isMarked', slotOf_compact isFirst isMarked'⟩
    older := tracks.older
    destroyedOnce := by
      refine List.Nodup.append tracks.destroyedOnce ?_ ?_
      · have distinct : ledger.live.Nodup := tracks.ordered.imp (fun lt => lt.ne)
        exact (List.nodup_reverse.mpr (distinct.sublist (kept_sublist _ _))).filter _
      · intro serial old new
        have isLive := (kept_sublist _ _).subset (List.mem_reverse.mp (List.mem_filter.mp new).1)
        exact ((tracks.accounted serial).mp old).2 isLive
    accounted := accounted
    afterUsers := by
      intro serial user isDestroyed path isOwner
      have dead : user ∉ kept marked ledger.live := by
        intro isLive
        refine ((accounted serial).mp isDestroyed).2 ?_
        clear isDestroyed isOwner
        induction path with
        | single uses => exact stays isLive uses
        | tail _ uses ih => exact stays ih uses
      exact tracks.keep_afterUsers isDestroyed path isOwner dead
    freed := by
      have described := (List.rel_reverse (kept_forall₂ (fun slot => !marked slot) tracks.described))
      change freed ++ List.flatMap _ (kept (fun slot => !marked slot) env.objects).reverse =
        List.map ledger.pointerOf (ledger.destroyed ++ _)
      rw [Ledger.destroyed_of_described described, List.map_append, tracks.freed] }

end Tracks

end PhyNspire.Eval

/-!
Sequences of commands: after every command the table holds exactly what can be reached.
-/

namespace PhyNspire.Eval

open PhyNspire.Platform PhyNspire.Lib.Marking Relation

/-- The bindings of an environment between two steps of a command. -/
structure Named (env : Env) : Prop where
  few : env.bindings.length ≤ maxBindings
  distinct : (env.bindings.map Binding.name).Nodup
  known : ∀ binding ∈ env.bindings, binding.value.Known env

theorem Value.known_congr {value : Value} {env other : Env} (same : env.objects = other.objects)
    (known : value.Known env) : value.Known other := by
  intro isObject
  rw [← slotOf_congr same]
  exact known isObject

theorem Value.known_append {value : Value} {env : Env} (more : List Object) (known : value.Known env) :
    value.Known { env with objects := env.objects ++ more } := by
  intro isObject
  obtain ⟨slot, found⟩ := Option.isSome_iff_exists.mp (known isObject)
  rw [slotOf_append more found]
  rfl

theorem evalRegisterMany_extends (env : Env) (new : Registration) :
    ∃ more, (evalRegisterMany env new).2.1 = { env with objects := env.objects ++ more } := by
  by_cases isOk : (evalRegisterMany env new).1 = .ok
  · obtain ⟨_, _, bits, _, result⟩ := evalRegisterMany_ok isOk
    exact ⟨_, by rw [result]⟩
  · rw [evalRegisterMany_failed isOk]
    exact ⟨[], by rw [List.append_nil]⟩

theorem evalNode_extends (env : Env) (news : List Registration) :
    ∃ more, (evalNode env news).1 = { env with objects := env.objects ++ more } := by
  induction news generalizing env with
  | nil => exact ⟨[], by rw [List.append_nil, evalNode]⟩
  | cons new rest ih =>
    obtain ⟨more, first⟩ := evalRegisterMany_extends env new
    obtain ⟨later, last⟩ := ih (evalRegisterMany env new).2.1
    refine ⟨more ++ later, ?_⟩
    change (evalNode (evalRegisterMany env new).2.1 rest).1 = _
    rw [last, first]
    simp only [List.append_assoc]

theorem Named.evalNode {env : Env} (named : Named env) (news : List Registration) :
    Named (evalNode env news).1 := by
  obtain ⟨more, extended⟩ := evalNode_extends env news
  rw [extended]
  exact ⟨named.few, named.distinct, fun binding there => Value.known_append more (named.known binding there)⟩

theorem Named.evalUnbind {env : Env} (named : Named env) (name : Symbol) : Named (evalUnbind env name) where
  few := (List.length_eraseP_le).trans named.few
  distinct := named.distinct.sublist (List.eraseP_sublist.map _)
  known := fun binding there =>
    Value.known_congr rfl (named.known binding (List.eraseP_sublist.subset there))

theorem rebind_names {name : Symbol} {value : Value} {bindings after : List Binding}
    (found : rebind name value bindings = some after) :
    after.map Binding.name = bindings.map Binding.name ∧
      ∀ binding ∈ after, binding ∈ bindings ∨ binding.value = value := by
  induction bindings generalizing after with
  | nil => cases found
  | cons binding rest ih =>
    rw [rebind] at found
    split_ifs at found with same
    · cases found
      refine ⟨rfl, ?_⟩
      intro other there
      obtain rfl | later := List.mem_cons.mp there
      · exact Or.inr rfl
      · exact Or.inl (List.mem_cons_of_mem _ later)
    · obtain ⟨others, foundLater, rfl⟩ := Option.map_eq_some_iff.mp found
      obtain ⟨names, values⟩ := ih foundLater
      refine ⟨by rw [List.map_cons, List.map_cons, names], ?_⟩
      intro other there
      obtain rfl | later := List.mem_cons.mp there
      · exact Or.inl List.mem_cons_self
      · exact (values other later).imp_left (List.mem_cons_of_mem _)

theorem rebind_none {name : Symbol} {value : Value} {bindings : List Binding}
    (absent : rebind name value bindings = none) : name ∉ bindings.map Binding.name := by
  induction bindings with
  | nil => exact List.not_mem_nil
  | cons binding rest ih =>
    rw [rebind] at absent
    split_ifs at absent with same
    rw [List.map_cons, List.mem_cons]
    rintro (eq | later)
    · exact same eq.symm
    · exact ih (Option.map_eq_none_iff.mp absent) later

theorem evalBind_cases (env : Env) (name : Symbol) (value : Value) :
    ((evalBind env name value).1 ≠ .ok ∧ (evalBind env name value).2 = env) ∨
    (name ≠ 0 ∧ evalIsChartCoordinate env name = false ∧
      ∃ bindings, evalBind env name value = (.ok, { env with bindings := bindings }) ∧
        (rebind name value env.bindings = some bindings ∨
          (rebind name value env.bindings = none ∧ env.bindings.length < maxBindings ∧
            bindings = env.bindings ++ [⟨name, value⟩]))) := by
  unfold evalBind
  by_cases isNull : name = 0
  · rw [if_pos isNull]
    exact Or.inl ⟨Status.noConfusion, rfl⟩
  · rw [if_neg isNull]
    cases isCoordinate : evalIsChartCoordinate env name with
    | true =>
      rw [if_pos rfl]
      exact Or.inl ⟨Status.noConfusion, rfl⟩
    | false =>
      rw [if_neg Bool.false_ne_true]
      cases found : rebind name value env.bindings with
      | some bindings => exact Or.inr ⟨isNull, rfl, bindings, rfl, Or.inl rfl⟩
      | none =>
        by_cases full : maxBindings ≤ env.bindings.length
        · refine Or.inl ?_
          dsimp only
          rw [if_pos full]
          exact ⟨Status.noConfusion, rfl⟩
        · refine Or.inr ⟨isNull, rfl, env.bindings ++ [⟨name, value⟩], ?_, Or.inr ⟨rfl, by omega, rfl⟩⟩
          dsimp only
          rw [if_neg full]

theorem evalBind_objects (env : Env) (name : Symbol) (value : Value) :
    (evalBind env name value).2.objects = env.objects := by
  obtain ⟨_, same⟩ | ⟨_, _, bindings, result, _⟩ := evalBind_cases env name value
  · rw [same]
  · rw [result]

theorem Named.evalBind {env : Env} {value : Value} (named : Named env) (known : value.Known env) (name : Symbol) :
    Named (evalBind env name value).2 := by
  obtain ⟨_, same⟩ | ⟨_, _, bindings, result, found | ⟨absent, space, rfl⟩⟩ := evalBind_cases env name value
  · rw [same]
    exact named
  · rw [result]
    obtain ⟨names, values⟩ := rebind_names found
    have length := congrArg List.length names
    rw [List.length_map, List.length_map] at length
    refine ⟨length.trans_le named.few, names.symm ▸ named.distinct, ?_⟩
    intro binding there
    obtain old | new := values binding there
    · exact Value.known_congr rfl (named.known binding old)
    · exact new ▸ Value.known_congr rfl known
  · rw [result]
    refine ⟨?_, ?_, ?_⟩
    · rw [List.length_append, List.length_singleton]
      exact space
    · rw [List.map_append, List.map_singleton]
      refine named.distinct.append (List.nodup_singleton _) ?_
      intro other old new
      rw [List.mem_singleton.mp new] at old
      exact rebind_none absent old
    · intro binding there
      obtain old | new := List.mem_append.mp there
      · exact Value.known_congr rfl (named.known binding old)
      · rw [List.mem_singleton.mp new]
        exact Value.known_congr rfl known

/-- What holds between two commands. -/
structure Session.Settled (session : Session) : Prop where
  tracks : Tracks session.env session.ledger session.destroyed
  named : Named session.env
  handedOut : session.result.Known session.env
  apart : ∀ slot object, session.env.objects[slot]? = some object →
    slotOf session.env object.value = some slot
  reachable : ∀ serial ∈ session.ledger.live, session.Reachable serial

section

variable {env : Env} {ledger : Ledger} {freed : List Pointer} {keep : Value}

theorem marks_iff (tracks : Tracks env ledger freed) {slot : Nat} :
    marks env keep slot = true ↔ Reached (refers env) (roots env keep) slot :=
  propagate_iff (fun _ _ => tracks.down) (fun _ => roots_lt)

theorem marks_first (tracks : Tracks env ledger freed) {slot : Nat} (isMarked : marks env keep slot = true) :
    ∃ object, env.objects[slot]? = some object ∧ slotOf env object.value = some slot := by
  obtain ⟨root, isRoot, path⟩ := (marks_iff tracks).mp isMarked
  have first {value : Value} (found : slotOf env value = some root) :
      ∃ object, env.objects[root]? = some object ∧ slotOf env object.value = some root := by
    have there := List.getElem?_eq_getElem (slotOf_lt found)
    exact ⟨_, there, (slotOf_object found there).2⟩
  cases path with
  | refl =>
    obtain ⟨_, _, found⟩ | found := roots_iff.mp isRoot
    · exact first found
    · exact first found
  | tail _ edge => exact tracks.first _ _ edge

theorem marks_root {value : Value} {slot : Nat} (found : slotOf env value = some slot)
    (isRoot : roots env keep slot = true) (tracks : Tracks env ledger freed) :
    slotOf (evalSweep env keep).1 value = some (rank (marks env keep) slot) :=
  slotOf_compact found ((marks_iff tracks).mpr ⟨slot, isRoot, ReflTransGen.refl⟩)

theorem sweep_settled (tracks : Tracks env ledger freed) (named : Named env) (known : keep.Known env) :
    (Session.mk (evalSweep env keep).1 keep (freed ++ (evalSweep env keep).2)
      (ledger.keep (marks env keep))).Settled where
  tracks := tracks.compact fun slot bit isMarked edge => by
    obtain ⟨root, isRoot, path⟩ := (marks_iff tracks).mp isMarked
    exact (marks_iff tracks).mpr ⟨root, isRoot, path.tail edge⟩
  named := by
    refine ⟨named.few, named.distinct, ?_⟩
    intro binding there isObject
    obtain ⟨slot, found⟩ := Option.isSome_iff_exists.mp (named.known binding there isObject)
    rw [marks_root found (roots_iff.mpr (Or.inl ⟨binding, there, found⟩)) tracks]
    rfl
  handedOut := by
    intro isObject
    obtain ⟨slot, found⟩ := Option.isSome_iff_exists.mp (known isObject)
    rw [marks_root found (roots_iff.mpr (Or.inr found)) tracks]
    rfl
  apart := by
    intro number object there
    obtain ⟨slot, old, isOld, isMarked, rfl, rfl⟩ := compact_origin there
    obtain ⟨object, isObject, isFirst⟩ := marks_first tracks isMarked
    rw [isOld, Option.some_inj] at isObject
    subst isObject
    exact slotOf_compact isFirst isMarked
  reachable := by
    intro serial isLive
    obtain ⟨number, there⟩ := List.mem_iff_getElem?.mp isLive
    obtain ⟨slot, isSlot, isMarked, isNumber⟩ := kept_origin _ there
    obtain ⟨root, isRoot, path⟩ := (marks_iff tracks).mp isMarked
    clear there isMarked isLive isNumber
    induction path generalizing serial with
    | refl =>
      refine ⟨serial, ?_, ReflTransGen.refl⟩
      have isMarked : marks env keep root = true := (marks_iff tracks).mpr ⟨root, isRoot, ReflTransGen.refl⟩
      obtain ⟨object, isObject, _⟩ := aligned_right tracks.described isSlot
      refine ⟨_, _, kept_get _ isSlot isMarked, compact_get isObject isMarked, ?_⟩
      obtain ⟨binding, there, found⟩ | found := roots_iff.mp isRoot
      · exact Or.inr ⟨binding, there, (slotOf_object found isObject).1⟩
      · exact Or.inl (slotOf_object found isObject).1
    | @tail middle slot _ edge ih =>
      obtain ⟨object, isObject, set⟩ := refers_iff.mp edge
      obtain ⟨user, isUser, _⟩ := aligned_left tracks.described isObject
      obtain ⟨used, isUsed, uses⟩ := (tracks.bits middle user object slot isUser isObject).mp set
      rw [isSlot, Option.some_inj] at isUsed
      subst isUsed
      obtain ⟨first, isFirst, chain⟩ := ih user isUser
      exact ⟨first, isFirst, chain.tail uses⟩

theorem reset_settled (tracks : Tracks env ledger freed) :
    (Session.mk (envReset env).1 .none (freed ++ (envReset env).2) (ledger.keep fun _ => false)).Settled := by
  have nothing : (compact env fun _ => false).1.objects = [] := by
    change List.map _ (kept (fun _ => false) env.objects) = []
    rw [kept_none, List.map_nil]
  have everything : (compact env fun _ => false).2 = (envReset env).2 := by
    change List.flatMap _ (kept (fun _ => true) env.objects).reverse = _
    rw [kept_all]
    rfl
  have emptied := tracks.compact (fun slot bit isMarked _ => isMarked : ∀ slot bit,
    (fun _ => false) slot = true → refers env slot bit = true → (fun _ => false) bit = true)
  rw [everything] at emptied
  exact {
    tracks := emptied.congr nothing
    named := ⟨Nat.zero_le _, List.nodup_nil, fun _ there => by cases there⟩
    handedOut := fun isObject => by cases isObject
    apart := fun _ _ there => by cases there
    reachable := by
      intro serial isLive
      change serial ∈ kept (fun _ => false) ledger.live at isLive
      rw [kept_none] at isLive
      cases isLive }

end

namespace Session.Settled

variable {session : Session}

theorem start : Session.start.Settled where
  tracks := Tracks.empty
  named := ⟨Nat.zero_le _, List.nodup_nil, fun _ there => by cases there⟩
  handedOut := fun isObject => by cases isObject
  apart := fun _ _ there => by cases there
  reachable := fun _ there => by cases there

theorem finished {env : Env} {ledger : Ledger} {freed before : List Pointer} {status : Status} {value : Value}
    (tracks : Tracks env ledger (before ++ freed)) (named : Named env) (known : status = .ok → value.Known env) :
    (Session.mk (finish env freed status value).env (finish env freed status value).result
      (before ++ (finish env freed status value).destroyed)
      (ledger.keep (marks env (if status = .ok then value else .none)))).Settled := by
  have kept : (if status = .ok then value else Value.none).Known env := by
    split_ifs with isOk
    · exact known isOk
    · exact fun isObject => by cases isObject
  have settled := sweep_settled tracks named kept
  rw [List.append_assoc] at settled
  exact settled

theorem step (settled : session.Settled) {step : Command × Evaluation} (fits : step.2.Fits session.env) :
    (session.step step).Settled := by
  obtain ⟨command, evaluation⟩ := step
  unfold Session.step evalCommand Ledger.command
  by_cases isClear : command.operation = .clear
  · simp only [if_pos isClear]
    by_cases isAll : command.target = 0
    · simp only [if_pos isAll]
      exact reset_settled settled.tracks
    · simp only [if_neg isAll]
      exact sweep_settled (settled.tracks.congr rfl) (settled.named.evalUnbind _) (fun isObject => by cases isObject)
  · simp only [if_neg isClear]
    have tracks := settled.tracks.registerAll fits.registrations
    have named := settled.named.evalNode evaluation.registrations
    by_cases failed : evaluation.status ≠ .ok
    · simp only [if_pos failed]
      have unknown : evaluation.status = .ok → Value.none.Known (evalNode session.env evaluation.registrations).1 :=
        fun isOk => absurd isOk failed
      have finished := finished tracks named unknown
      rw [if_neg failed] at finished
      exact finished
    · have known := fits.value (not_not.mp failed)
      simp only [if_neg failed]
      by_cases isAssign : command.operation = .assign
      · simp only [if_pos isAssign]
        exact finished (tracks.congr (evalBind_objects _ _ _).symm) (named.evalBind known command.target)
          (fun _ => Value.known_congr (evalBind_objects _ _ _).symm known)
      · simp only [if_neg isAssign]
        refine finished tracks named (fun _ => ?_)
        unfold scalarOperation
        split_ifs
        · exact known
        · exact known
        · exact known
        · exact fun isObject => by cases isObject
        · exact known

theorem run (settled : session.Settled) {steps : List (Command × Evaluation)} (fits : session.Fits steps) :
    (session.run steps).Settled := by
  induction steps generalizing session with
  | nil => exact settled
  | cons first rest ih => exact ih (settled.step fits.1) fits.2

theorem valid (settled : session.Settled) : envValidate session.env = .ok := by
  have objects (slot : Nat) (inside : slot < session.env.objects.length) :
      ObjectValid session.env slot session.env.objects[slot] := by
    have there := List.getElem?_eq_getElem inside
    obtain ⟨_, _, _, earlier⟩ := slotOf_eq_some.mp (settled.apart slot _ there)
    obtain ⟨present, owner⟩ := settled.tracks.pointers _ (List.getElem_mem inside)
    refine ⟨present, owner, ?_, ?_⟩
    · intro other before
      obtain ⟨lower, below, rfl⟩ := List.mem_take_iff_getElem.mp before
      exact earlier lower (by omega)
    · intro bit _ above
      by_contra set
      rw [Bool.not_eq_false] at set
      have := settled.tracks.down (refers_iff.mpr ⟨_, there, set⟩)
      omega
  have bindings (index : Nat) (inside : index < session.env.bindings.length) :
      BindingValid session.env index session.env.bindings[index] := by
    intro isObject
    refine ⟨settled.named.known _ (List.getElem_mem inside) isObject, ?_⟩
    intro other before
    obtain ⟨lower, below, rfl⟩ := List.mem_take_iff_getElem.mp before
    have distinct := settled.named.distinct
    rw [List.nodup_iff_pairwise_ne, List.pairwise_map] at distinct
    exact List.pairwise_iff_getElem.mp distinct lower index _ inside (by omega)
  unfold envValidate
  rw [if_neg (not_or.mpr ⟨not_lt.mpr settled.tracks.room, not_lt.mpr settled.named.few⟩),
    if_neg (not_not.mpr objects), if_neg (not_not.mpr bindings)]

theorem exact (settled : session.Settled) : session.Exact where
  aligned := settled.tracks.described.length_eq
  registered := by
    intro slot serial object isSerial there
    obtain ⟨serial', isSerial', creation, created, same, _⟩ := aligned_left settled.tracks.described there
    rw [isSerial, Option.some_inj] at isSerial'
    exact ⟨creation, isSerial' ▸ created, same⟩
  ordered := settled.tracks.ordered
  reachable := by
    intro serial
    refine ⟨settled.reachable serial, ?_⟩
    rintro ⟨root, ⟨slot, _, isRoot, _⟩, path⟩
    induction path with
    | refl => exact List.mem_of_getElem? isRoot
    | tail _ uses ih => exact settled.tracks.closed _ _ ih uses
  renamed := settled.tracks.bits
  downward := fun slot object bit there set => settled.tracks.down (refers_iff.mpr ⟨object, there, set⟩)
  destroyedOnce := settled.tracks.destroyedOnce
  accounted := settled.tracks.accounted
  afterUsers := fun serial user isDestroyed path =>
    ⟨fun isLive => ((settled.tracks.accounted serial).mp isDestroyed).2 (settled.tracks.live_of_path path isLive),
      settled.tracks.afterUsers serial user isDestroyed path⟩
  destroyed := settled.tracks.freed
  handedOut := settled.handedOut
  valid := settled.valid

end Session.Settled

/-- After every sequence of commands the object table holds exactly what can be reached. -/
theorem sweep_is_exact (steps : List (Command × Evaluation)) (fits : Session.start.Fits steps) :
    (Session.start.run steps).Exact := (Session.Settled.start.run fits).exact

/-- A manifold on one coordinate, a form and a form made from it, an assignment to the coordinate,
which is refused, and the end of the forms. -/
def exampleSteps : List (Command × Evaluation) :=
  [(⟨.assign, 1⟩,
      ⟨[⟨.object .chart 100, 100, [7], []⟩, ⟨.object .manifold 200, 200, [7], [.object .chart 100]⟩],
        .ok, .object .manifold 200, .ok, 0⟩),
    (⟨.assign, 2⟩,
      ⟨[⟨.object .form 300, 300, [7], [.object .manifold 200]⟩, ⟨.object .form 400, 400, [7], [.object .form 300]⟩],
        .ok, .object .form 400, .ok, 0⟩),
    (⟨.assign, 7⟩,
      ⟨[⟨.object .form 500, 500, [7], [.object .form 300]⟩], .ok, .object .form 500, .ok, 0⟩),
    (⟨.clear, 2⟩, ⟨[], .ok, .none, .ok, 0⟩)]

theorem exampleSteps_fit : Session.start.Fits exampleSteps :=
  ⟨⟨by decide, by decide⟩, ⟨by decide, by decide⟩, ⟨by decide, by decide⟩, ⟨by decide, by decide⟩, trivial⟩

theorem sweep_is_exact_on_example :
    (Session.start.run exampleSteps).Exact ∧
      (Session.start.run exampleSteps).ledger.live = [0, 1] ∧
      (Session.start.run exampleSteps).destroyed = [500, 400, 300] :=
  ⟨sweep_is_exact exampleSteps exampleSteps_fit, by decide, by decide⟩

end PhyNspire.Eval

import PhyNspire.Ir.Expressions

/-!
The machinery of engine.c under the scalar rules. Rules charge steps, look answers up in the memo
table and leave answers there, and ask other layers for memory, nodes and promoted numbers. An
asked layer may refuse; the answers of a run are given by a stream.
-/

namespace PhyNspire.Cas.Core
open Platform Lib.Stateful Ir.Expressions

/-- `phy_cas_memo`. -/
inductive Memo where
  | simplify
  | expand
  | diff
  | integrate
  | depends
  | subst
  | trig
  | rational
  | expandFactored
deriving DecidableEq, Repr

/-- The enumerator's value; `PHY_CAS_MEMO_NONE`, the zero, marks a free slot. -/
def Memo.code : Memo → UInt32
  | simplify => 1
  | expand => 2
  | diff => 3
  | integrate => 4
  | depends => 5
  | subst => 6
  | trig => 7
  | rational => 8
  | expandFactored => 9

inductive SecondKey where
  | null
  | ref (expr : Expr)
  | epoch (number : UInt32)
deriving DecidableEq

/-- `phy_cas_entry`. -/
structure MemoEntry where
  tag : Memo
  a : Expr
  b : SecondKey
  r0 : Expr
  r1 : Option Expr
deriving DecidableEq

/-- `struct phy_cas`. A free slot of the table is `none`. -/
structure CasState where
  slots : List (Option MemoEntry)
  cacheLive : Nat
  steps : Nat
  maxSteps : Nat
  substEpoch : UInt32
  /-- The symbols that are declared constant in the context. -/
  constant : Name → Bool
  /-- The refs under which the context interns. -/
  refOf : Expr → UInt32
  /-- What the other layers answer, request by request. -/
  answers : Nat → Option Status
  asked : Nat

/-- The rules call one another; a run that is cut off in the middle stops without a status. -/
abbrev CasM := EStateM (Option Status) CasState

def refuse {α : Type} (status : Status) : CasM α := throw (some status)

def answer : CasM (Option Status) := do
  let cas ← get
  set { cas with asked := cas.asked + 1 }
  pure (cas.answers cas.asked)

def request : CasM Unit := do
  match ← answer with
  | none => pure ()
  | some status => refuse status

/-- A request that need not be served. -/
def granted : CasM Bool := do
  let status ← answer
  pure status.isNone

/-- `phy_cas_step`. The cancel hook is polled every 256 steps. -/
def step : CasM Unit := do
  let cas ← get
  if cas.maxSteps - cas.steps < 1 then refuse .timeout
  else do
    set { cas with steps := cas.steps + 1 }
    if cas.steps / 256 = (cas.steps + 1) / 256 then pure ()
    else do
      let goOn ← granted
      if goOn then pure () else refuse .interrupted

def casBegin : CasM Unit := modify fun cas => { cas with steps := 0 }

def mix (hash value : UInt32) : UInt32 :=
  let mixed := (hash ^^^ value) * 16777619
  mixed ^^^ (mixed >>> 15)

def secondRef (refOf : Expr → UInt32) : SecondKey → UInt32
  | .null => 0
  | .ref expr => refOf expr
  | .epoch number => number

def entryHash (refOf : Expr → UInt32) (tag : Memo) (a : Expr) (b : SecondKey) : UInt32 :=
  mix (mix (mix 2166136261 tag.code) (refOf a)) (secondRef refOf b)

/-- The search of `phy_cas_cache_get` from a place on. -/
def probe (slots : List (Option MemoEntry)) (tag : Memo) (a : Expr) (b : SecondKey) : Nat → Nat → Option MemoEntry
  | 0, _ => none
  | turns + 1, place =>
      match slots.getD place none with
      | none => none
      | some entry =>
          if entry.tag = tag ∧ entry.a = a ∧ entry.b = b then some entry
          else probe slots tag a b turns ((place + 1) % slots.length)

def cacheGet (tag : Memo) (a : Expr) (b : SecondKey) : CasM (Option MemoEntry) := do
  let cas ← get
  if cas.slots.length = 0 then pure none
  else pure (probe cas.slots tag a b cas.slots.length ((entryHash cas.refOf tag a b).toNat % cas.slots.length))

def freePlace (slots : List (Option MemoEntry)) : Nat → Nat → Option Nat
  | 0, _ => none
  | turns + 1, place =>
      match slots.getD place none with
      | none => some place
      | some _ => freePlace slots turns ((place + 1) % slots.length)

/-- `cache_insert`. The table is never full. -/
def insertSlot (refOf : Expr → UInt32) (slots : List (Option MemoEntry)) (entry : MemoEntry) : List (Option MemoEntry) :=
  match freePlace slots slots.length ((entryHash refOf entry.tag entry.a entry.b).toNat % slots.length) with
  | none => slots
  | some place => slots.set place (some entry)

def cacheClear (cas : CasState) : CasState := { cas with slots := [], cacheLive := 0 }

/-- The old entries in a new table of twice the size. -/
def rehashed (cas : CasState) : List (Option MemoEntry) :=
  (cas.slots.filterMap id).foldl (insertSlot cas.refOf)
    (List.replicate (if cas.slots.length = 0 then 128 else cas.slots.length * 2) none)

/-- A table that cannot grow is emptied. -/
def cacheGrow : CasM Unit := do
  let served ← granted
  if served then
    modify fun cas => { cas with slots := rehashed cas, cacheLive := (cas.slots.filterMap id).length }
  else modify cacheClear

/-- At most three quarters of a table are in use. -/
def cacheReserve : CasM Unit := do
  let cas ← get
  if cas.slots.length = 0 ∨ cas.slots.length - cas.slots.length / 4 < cas.cacheLive + 1 then cacheGrow else pure ()

def cachePut (entry : MemoEntry) : CasM Unit := do
  cacheReserve
  modify fun cas =>
    if cas.slots.length = 0 then cas
    else { cas with slots := insertSlot cas.refOf cas.slots entry, cacheLive := cas.cacheLive + 1 }

/-- What the entries of a table promise, under the epoch of the current rules. -/
structure Truth where
  holds : MemoEntry → Prop
  epoch : UInt32

structure Trusted (truth : Truth) (cas : CasState) : Prop where
  epoch : cas.substEpoch = truth.epoch
  entries : ∀ entry, some entry ∈ cas.slots → truth.holds entry

/-- From a trusted table on, a program ends with a trusted table, and what it returns is good. -/
def Meets {α : Type} (truth : Truth) (program : CasM α) (good : α → Prop) : Prop :=
  ∀ s, Trusted truth s → wp program (fun value t => good value ∧ Trusted truth t) (fun _ t => Trusted truth t) s

variable {truth : Truth} {α β : Type} {s : CasState}

theorem Trusted.of_slots {t : CasState} (trusted : Trusted truth s) (epoch : t.substEpoch = s.substEpoch)
    (slots : ∀ entry, some entry ∈ t.slots → some entry ∈ s.slots) : Trusted truth t :=
  ⟨epoch.trans trusted.epoch, fun entry inside => trusted.entries entry (slots entry inside)⟩

theorem Trusted.cleared (trusted : Trusted truth s) : Trusted truth (cacheClear s) :=
  ⟨trusted.epoch, fun _ inside => absurd inside List.not_mem_nil⟩

variable {program : CasM α} {good : α → Prop}

theorem Meets.mono {good' : α → Prop} (meets : Meets truth program good)
    (weaker : ∀ value, good value → good' value) : Meets truth program good' :=
  fun s trusted => wp_good (meets s trusted) (fun value _ held => ⟨weaker value held.1, held.2⟩)

theorem meets_pure {value : α} (held : good value) : Meets truth (pure value : CasM α) good :=
  fun _ trusted => ⟨held, trusted⟩

theorem meets_throw (stop : Option Status) : Meets truth (throw stop : CasM α) good :=
  fun _ trusted => trusted

theorem meets_refuse (status : Status) : Meets truth (refuse status : CasM α) good :=
  meets_throw _

theorem Meets.bind {next : α → CasM β} {good' : β → Prop}
    (first : Meets truth program good) (rest : ∀ value, good value → Meets truth (next value) good') :
    Meets truth (program >>= next) good' := by
  intro s trusted
  apply wp_then (first s trusted)
  intro value t held
  exact rest value held.1 t held.2

theorem Meets.seq {next : α → CasM β} {good' : β → Prop}
    (first : Meets truth program good) (rest : ∀ value, Meets truth (next value) good') :
    Meets truth (program >>= next) good' := first.bind fun value _ => rest value

theorem meets_ite {condition : Prop} [Decidable condition] {first second : CasM α}
    (taken : condition → Meets truth first good) (skipped : ¬condition → Meets truth second good) :
    Meets truth (if condition then first else second) good :=
  fun s trusted => wp_ite (fun held => taken held s trusted) (fun held => skipped held s trusted)

theorem meets_answer : Meets truth answer fun _ => True := by
  intro s trusted
  unfold answer
  simp only [wp_bind, wp_get, wp_set, wp_pure]
  exact ⟨trivial, trusted.of_slots rfl (fun _ inside => inside)⟩

theorem meets_request : Meets truth request fun _ => True := by
  unfold request
  apply meets_answer.seq
  intro status
  cases status with
  | none => exact meets_pure trivial
  | some status => exact meets_refuse status

theorem meets_granted : Meets truth granted fun _ => True :=
  meets_answer.seq fun _ => meets_pure trivial

theorem meets_step : Meets truth step fun _ => True := by
  intro s trusted
  unfold step
  rw [wp_bind, wp_get]
  apply wp_ite
  · intro _
    exact trusted
  · intro _
    rw [wp_bind, wp_set]
    have later : Trusted truth { s with steps := s.steps + 1 } := trusted.of_slots rfl (fun _ inside => inside)
    apply wp_ite
    · intro _
      exact ⟨trivial, later⟩
    · intro _
      exact meets_granted.seq (fun _ => meets_ite (fun _ => meets_pure trivial) (fun _ => meets_refuse _)) _ later

variable {slots : List (Option MemoEntry)} {entry : MemoEntry}

theorem mem_of_getD {place : Nat} (found : slots.getD place none = some entry) : some entry ∈ slots := by
  rw [List.getD_eq_getElem?_getD] at found
  cases held : slots[place]? with
  | none => rw [held] at found; cases found
  | some slot =>
    rw [held] at found
    exact found ▸ List.mem_of_getElem? held

theorem probe_some {tag : Memo} {a : Expr} {b : SecondKey} {turns place : Nat}
    (found : probe slots tag a b turns place = some entry) :
    some entry ∈ slots ∧ entry.tag = tag ∧ entry.a = a ∧ entry.b = b := by
  induction turns generalizing place with
  | zero => cases found
  | succ turns ih =>
    unfold probe at found
    split at found
    · cases found
    · rename_i held here
      split at found
      · rename_i keys
        obtain rfl := Option.some.inj found
        exact ⟨mem_of_getD here, keys⟩
      · exact ih found

theorem mem_insertSlot {refOf : Expr → UInt32} {other : MemoEntry}
    (inside : some other ∈ insertSlot refOf slots entry) : some other ∈ slots ∨ other = entry := by
  unfold insertSlot at inside
  split at inside
  · exact .inl inside
  · rcases List.mem_or_eq_of_mem_set inside with old | new
    · exact .inl old
    · exact .inr (Option.some.inj new)

theorem mem_foldl_insertSlot {refOf : Expr → UInt32} {entries : List MemoEntry}
    {other : MemoEntry} (inside : some other ∈ entries.foldl (insertSlot refOf) slots) :
    some other ∈ slots ∨ other ∈ entries := by
  induction entries generalizing slots with
  | nil => exact .inl inside
  | cons first rest ih =>
    rcases ih inside with early | late
    · rcases mem_insertSlot early with old | new
      · exact .inl old
      · exact .inr (new ▸ List.mem_cons_self)
    · exact .inr (List.mem_cons_of_mem _ late)

theorem mem_rehashed (inside : some entry ∈ rehashed s) : some entry ∈ s.slots := by
  rcases mem_foldl_insertSlot inside with fresh | old
  · cases List.eq_of_mem_replicate fresh
  · obtain ⟨slot, member, same⟩ := List.mem_filterMap.mp old
    exact (show slot = some entry from same) ▸ member

theorem meets_cacheGet (tag : Memo) (a : Expr) (b : SecondKey) :
    Meets truth (cacheGet tag a b) fun found => ∀ entry ∈ found,
      truth.holds entry ∧ entry.tag = tag ∧ entry.a = a ∧ entry.b = b := by
  intro s trusted
  unfold cacheGet
  rw [wp_bind, wp_get]
  apply wp_ite
  · intro _
    exact ⟨fun _ absent => (by cases absent), trusted⟩
  · intro _
    refine ⟨fun entry found => ?_, trusted⟩
    obtain ⟨inside, keys⟩ := probe_some found
    exact ⟨trusted.entries entry inside, keys⟩

theorem meets_cacheGrow : Meets truth cacheGrow fun _ => True := by
  unfold cacheGrow
  apply meets_granted.seq
  intro served
  apply meets_ite
  · intro _ s trusted
    exact ⟨trivial, trusted.of_slots rfl (fun _ inside => mem_rehashed inside)⟩
  · intro _ s trusted
    exact ⟨trivial, trusted.cleared⟩

theorem meets_cacheReserve : Meets truth cacheReserve fun _ => True := by
  intro s trusted
  unfold cacheReserve
  rw [wp_bind, wp_get]
  exact meets_ite (fun _ => meets_cacheGrow) (fun _ => meets_pure trivial) s trusted

theorem meets_cachePut (true_ : truth.holds entry) : Meets truth (cachePut entry) fun _ => True := by
  have store : Meets truth (modify fun cas => if cas.slots.length = 0 then cas
      else { cas with slots := insertSlot cas.refOf cas.slots entry, cacheLive := cas.cacheLive + 1 } : CasM PUnit)
      fun _ => True := by
    intro s trusted
    rw [wp_modify]
    refine ⟨trivial, ?_⟩
    split
    · exact trusted
    · refine ⟨trusted.epoch, fun other inside => ?_⟩
      rcases mem_insertSlot inside with old | rfl
      · exact trusted.entries other old
      · exact true_
  exact meets_cacheReserve.seq fun _ => store

end PhyNspire.Cas.Core

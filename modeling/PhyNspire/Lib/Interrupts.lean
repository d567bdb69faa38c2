import Mathlib.Logic.Basic

/-!
Programs that act on a world which may refuse any single operation or stop between any two.
A program is a tree of operations; the world answers one operation after the other, and a
list of answers that runs out is a stop. A specification judges every state the world passes
through, not only the last one.
-/

namespace PhyNspire.Lib.Interrupts

inductive Program (Op Ans α : Type) where
  | done (value : α)
  | perform (op : Op) (next : Ans → Program Op Ans α)

namespace Program

variable {Op Ans Fault σ α β : Type}

def bind : Program Op Ans α → (α → Program Op Ans β) → Program Op Ans β
  | done value, rest => rest value
  | perform op next, rest => perform op fun answer => (next answer).bind rest

instance : Monad (Program Op Ans) where
  pure := done
  bind := bind

def call (op : Op) : Program Op Ans Ans := perform op done

variable (act : Op → Fault → σ → Ans × σ)

/-- The states of a run, the first and the last included. -/
def moments : Program Op Ans α → List Fault → σ → List σ
  | done _, _, s => [s]
  | perform _ _, [], s => [s]
  | perform op next, fault :: faults, s =>
    s :: (next (act op fault s).1).moments faults (act op fault s).2

/-- The value of a run, unless it was stopped, and its last state. -/
def ending : Program Op Ans α → List Fault → σ → Option α × σ
  | done value, _, s => (some value, s)
  | perform _ _, [], s => (none, s)
  | perform op next, fault :: faults, s =>
    (next (act op fault s).1).ending faults (act op fault s).2

/-- Every operation of a run was answered in an allowed way. -/
def Meets (allowed : σ → Op → Fault → Prop) : Program Op Ans α → List Fault → σ → Prop
  | done _, _, _ => True
  | perform _ _, [], _ => True
  | perform op next, fault :: faults, s =>
    allowed s op fault ∧ (next (act op fault s).1).Meets allowed faults (act op fault s).2

/-- `always` holds at every moment and `good` at a regular end, however the world answers
within what is allowed. -/
def Safe (allowed : σ → Op → Fault → Prop) (always : σ → Prop) :
    Program Op Ans α → (α → σ → Prop) → σ → Prop
  | done value, good, s => always s ∧ good value s
  | perform op next, good, s => always s ∧ ∀ fault, allowed s op fault →
    (next (act op fault s).1).Safe allowed always good (act op fault s).2

variable {act} {allowed : σ → Op → Fault → Prop} {always always' : σ → Prop}

variable {good : α → σ → Prop}

theorem safe_pure {value : α} {s : σ} (now : always s) (held : good value s) :
    Safe act allowed always (pure value : Program Op Ans α) good s := ⟨now, held⟩

theorem safe_call {op : Op} {good : Ans → σ → Prop} {s : σ} (now : always s)
    (then_ : ∀ fault, allowed s op fault →
      always (act op fault s).2 ∧ good (act op fault s).1 (act op fault s).2) :
    (call op).Safe act allowed always good s := ⟨now, then_⟩

variable {program : Program Op Ans α}

theorem safe_mono {good' : α → σ → Prop} {s : σ}
    (safe : program.Safe act allowed always good s) (weaker : ∀ t, always t → always' t)
    (weaker' : ∀ value t, always t → good value t → good' value t) :
    program.Safe act allowed always' good' s := by
  induction program generalizing s with
  | done value => exact ⟨weaker s safe.1, weaker' value s safe.1 safe.2⟩
  | perform op next ih =>
    exact ⟨weaker s safe.1, fun fault admitted => ih _ (safe.2 fault admitted)⟩

theorem safe_bind {rest : α → Program Op Ans β} {good : β → σ → Prop} {s : σ} (safe : program.Safe act allowed always
      (fun value t => (rest value).Safe act allowed always good t) s) :
    Safe act allowed always (program >>= rest) good s := by
  induction program generalizing s with
  | done value => exact safe.2
  | perform op next ih =>
    exact ⟨safe.1, fun fault admitted => ih _ (safe.2 fault admitted)⟩

theorem safe_of_first {op : Op} {rest : Ans → Program Op Ans β} {good : β → σ → Prop} {s : σ} (now : always s)
    (held : ∀ fault, allowed s op fault → Safe act allowed always (call op >>= rest) good s) :
    Safe act allowed always (call op >>= rest) good s :=
  ⟨now, fun fault admitted => (held fault admitted).2 fault admitted⟩

theorem safe_seq {rest : α → Program Op Ans β} {middle : α → σ → Prop}
    {good : β → σ → Prop} {s : σ} (first : program.Safe act allowed always middle s)
    (weaker : ∀ t, always t → always' t)
    (second : ∀ value t, always t → middle value t → (rest value).Safe act allowed always' good t) :
    Safe act allowed always' (program >>= rest) good s :=
  safe_bind (safe_mono first weaker second)

variable {faults : List Fault}

theorem moments_always {s : σ}
    (safe : program.Safe act allowed always good s) (meets : program.Meets act allowed faults s) :
    ∀ t ∈ program.moments act faults s, always t := by
  induction program generalizing faults s with
  | done value =>
    intro t member
    rw [moments, List.mem_singleton] at member
    exact member ▸ safe.1
  | perform op next ih =>
    intro t member
    cases faults with
    | nil =>
      rw [moments, List.mem_singleton] at member
      exact member ▸ safe.1
    | cons fault faults =>
      rw [moments, List.mem_cons] at member
      obtain rfl | later := member
      · exact safe.1
      · exact ih _ (safe.2 fault meets.1) meets.2 t later

theorem ending_good {s : σ}
    (safe : program.Safe act allowed always good s) (meets : program.Meets act allowed faults s) :
    always (program.ending act faults s).2 ∧
      ∀ value, (program.ending act faults s).1 = some value → good value (program.ending act faults s).2 := by
  induction program generalizing faults s with
  | done value =>
    refine ⟨safe.1, ?_⟩
    intro other same
    cases same
    exact safe.2
  | perform op next ih =>
    cases faults with
    | nil => exact ⟨safe.1, fun value same => nomatch same⟩
    | cons fault faults => exact ih _ (safe.2 fault meets.1) meets.2

theorem ending_mem_moments (program : Program Op Ans α) (faults : List Fault) (s : σ) :
    (program.ending act faults s).2 ∈ program.moments act faults s := by
  induction program generalizing faults s with
  | done value => exact List.mem_singleton.mpr rfl
  | perform op next ih =>
    cases faults with
    | nil => exact List.mem_singleton.mpr rfl
    | cons fault faults => exact List.mem_cons_of_mem _ (ih _ faults _)

theorem meets_of_all {s : σ}
    (all : ∀ fault ∈ faults, ∀ t op, allowed t op fault) : program.Meets act allowed faults s := by
  induction program generalizing faults s with
  | done value => trivial
  | perform op next ih =>
    cases faults with
    | nil => trivial
    | cons fault faults =>
      exact ⟨all fault List.mem_cons_self s op, ih _ (fun other member => all other (List.mem_cons_of_mem _ member))⟩

end Program

end PhyNspire.Lib.Interrupts

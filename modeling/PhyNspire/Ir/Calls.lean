import PhyNspire.Ir.Denotation
import PhyNspire.Ir.Reader

/-!
The calls on a context, and what a read is made of: calls that succeed one after another,
with nothing left behind by the one that fails.
-/

namespace PhyNspire.Ir.Calls
open Platform Lib Lib.Stateful Expressions Context Symbols Nodes Builders Layout SymbolTable Construction
open Texts Reader

inductive IrCall where
  | internN (name : Name)
  | integer (value : Int64)
  | rational (numerator denominator : Int64)
  | integerTextN (decimal : List UInt8)
  | rationalTextN (numerator denominator : List UInt8)
  | real (bits : UInt64)
  | symbolRef (symbol : Nat)
  | index (name variance : Nat)
  | indexInSpace (name variance space : Nat)
  | error (code : Nat)
  | add (terms : List Nat)
  | mul (factors : List Nat)
  | ncmul (factors : List Nat)
  | wedge (factors : List Nat)
  | pow (base exponent : Nat)
  | equation (lhs rhs : Nat)
  | function (head : Nat) (args : List Nat)
  | tensor (head : Nat) (indices : List Nat)
  | operator (head : Nat) (args : List Nat)
  | derivative (expr : Nat) (vars : List Nat)
deriving DecidableEq, Repr

def IrCall.run : IrCall → IrM Nat
  | internN name => irInternN name
  | integer value => irInteger value
  | rational numerator denominator => irRational numerator denominator
  | integerTextN decimal => irIntegerTextN decimal
  | rationalTextN numerator denominator => irRationalTextN numerator denominator
  | real bits => irReal bits
  | symbolRef symbol => irSymbolRef symbol
  | index name variance => irIndex name variance
  | indexInSpace name variance space => irIndexInSpace name variance space
  | error code => irError code
  | add terms => irAdd terms
  | mul factors => irMul factors
  | ncmul factors => irNcmul factors
  | wedge factors => irWedge factors
  | pow base exponent => irPow base exponent
  | equation lhs rhs => irEquation lhs rhs
  | function head args => irFunction head args
  | tensor head indices => irTensor head indices
  | operator head args => irOperator head args
  | derivative expr vars => irDerivative expr vars

inductive IrDeclaration where
  | assume (symbol : Nat) (assumptions : UInt32)
  | declareSymmetry (symbol slotA slotB symmetry : Nat)
deriving DecidableEq, Repr

def IrDeclaration.run : IrDeclaration → IrM Status
  | assume symbol assumptions => irAssume symbol assumptions
  | declareSymmetry symbol slotA slotB symmetry => irDeclareSymmetry symbol slotA slotB symmetry

/-- From `s` to `t` the pools have moved only by calls that succeeded. -/
inductive Progress (s : IrContext) : IrContext → Prop
  | still {t : IrContext} (kept : Kept s t) : Progress s t
  | call {t u v : IrContext} (before : Progress s t) (call : IrCall) {ref : Nat} (returns : call.run t = .ok ref u)
      (kept : Kept u v) : Progress s v
  | declare {t u v : IrContext} (before : Progress s t) (declaration : IrDeclaration)
      (returns : declaration.run t = .ok .ok u) (kept : Kept u v) : Progress s v

section

variable {s t u : IrContext} {graph : Graph}

theorem Progress.refl (s : IrContext) : Progress s s := .still (.refl s)

theorem Progress.keep (progress : Progress s t) (kept : Kept t u) : Progress s u := by
  cases progress with
  | still first => exact .still (first.trans kept)
  | call before call returns last => exact .call before call returns (last.trans kept)
  | declare before declaration returns last => exact .declare before declaration returns (last.trans kept)

theorem Progress.trans (first : Progress s t) (second : Progress t u) : Progress s u := by
  induction second with
  | still kept => exact first.keep kept
  | call _ call returns kept ih => exact .call ih call returns kept
  | declare _ declaration returns kept ih => exact .declare ih declaration returns kept

theorem Makes.published {expr : Expr} {ref : Nat} (made : Makes s graph expr ref t) : ∃ graph', Published s t graph graph' :=
  made.imp fun _ held => held.1

theorem IrCall.run_spec (sound : Sound s.pools graph) (call : IrCall) :
    wp call.run (fun _ t => ∃ graph', Published s t graph graph') (fun _ t => Kept s t) s := by
  cases call with
  | internN name =>
    exact wp_good (irInternN_spec sound name) fun _ _ held => held.imp fun _ held => held.1
  | integer value => exact wp_good (makeInteger_makes sound value) (fun _ _ => Makes.published)
  | rational numerator denominator =>
    exact wp_good (irRational_makes sound numerator denominator) fun _ _ held => Makes.published held.2
  | integerTextN decimal =>
    refine wp_good (irRationalTextN_makes sound decimal [49]) fun _ _ held => ?_
    obtain ⟨_, _, made⟩ := held
    exact Makes.published made
  | rationalTextN numerator denominator =>
    refine wp_good (irRationalTextN_makes sound numerator denominator) fun _ _ held => ?_
    obtain ⟨_, _, made⟩ := held
    exact Makes.published made
  | real bits => exact wp_good (irReal_makes sound bits) (fun _ _ held => Makes.published held.2)
  | symbolRef symbol =>
    refine wp_good (irSymbolRef_makes sound symbol) fun _ _ held => ?_
    obtain ⟨_, _, made⟩ := held
    exact Makes.published made
  | index name variance =>
    refine wp_good (irIndexInSpace_makes sound name variance 0) fun _ _ held => ?_
    obtain ⟨_, _, _, _, _, made⟩ := held
    exact Makes.published made
  | indexInSpace name variance space =>
    refine wp_good (irIndexInSpace_makes sound name variance space) fun _ _ held => ?_
    obtain ⟨_, _, _, _, _, made⟩ := held
    exact Makes.published made
  | error code => exact wp_good (irError_makes sound code) (fun _ _ held => Makes.published held.2.2)
  | add terms =>
    exact wp_good (makeNary_makes sound (show Associative .add from .inl rfl) terms) fun _ _ held => Makes.published held.2.2
  | mul factors =>
    exact wp_good (makeNary_makes sound (show Associative .mul from .inr (.inl rfl)) factors)
      fun _ _ held => Makes.published held.2.2
  | ncmul factors =>
    exact wp_good (makeNary_makes sound (show Associative .ncmul from .inr (.inr (.inl rfl))) factors)
      fun _ _ held => Makes.published held.2.2
  | wedge factors =>
    exact wp_good (makeNary_makes sound (show Associative .wedge from .inr (.inr (.inr rfl))) factors)
      fun _ _ held => Makes.published held.2.2
  | pow base exponent =>
    exact wp_good (irPow_makes sound base exponent) fun _ _ held => Makes.published held.2
  | equation lhs rhs =>
    exact wp_good (irEquation_makes sound lhs rhs) fun _ _ held => Makes.published held.2
  | function head args =>
    refine wp_good (irFunction_makes sound head args) fun _ _ held => ?_
    obtain ⟨_, _, _, made⟩ := held
    exact Makes.published made
  | tensor head indices =>
    refine wp_good (irTensor_makes sound head indices) fun _ _ held => ?_
    obtain ⟨_, _, _, _, made⟩ := held
    exact Makes.published made
  | operator head args =>
    refine wp_good (irOperator_makes sound head args) fun _ _ held => ?_
    obtain ⟨_, _, _, made⟩ := held
    exact Makes.published made
  | derivative expr vars =>
    exact wp_good (irDerivative_makes sound expr vars) fun _ _ held => Makes.published held.2.2.2

theorem IrDeclaration.run_spec (sound : Sound s.pools graph) (declaration : IrDeclaration) :
    wp declaration.run (fun status t => Sound t.pools graph ∧ t.limits = s.limits ∧ (status ≠ .ok → Kept s t))
      (fun _ _ => False) s := by
  cases declaration with
  | assume symbol assumptions => exact irAssume_spec sound symbol assumptions
  | declareSymmetry symbol slotA slotB symmetry => exact irDeclareSymmetry_spec sound symbol slotA slotB symmetry

theorem Published.trans {graph' graph'' : Graph} (first : Published s t graph graph') (second : Published t u graph' graph'') :
    Published s u graph graph'' where
  grows := ⟨first.grows.names.trans second.grows.names, first.grows.entries.trans second.grows.entries⟩
  sound := second.sound
  limits := second.limits.trans first.limits

theorem Progress.published (sound : Sound s.pools graph) (progress : Progress s t) :
    ∃ graph', Published s t graph graph' := by
  induction progress with
  | still kept => exact ⟨graph, .of_kept sound kept⟩
  | call _ call returns kept ih =>
    obtain ⟨graph', before⟩ := ih
    have held := call.run_spec before.sound
    rw [wp_of_ok returns] at held
    obtain ⟨graph'', after⟩ := held
    exact ⟨graph'', Published.trans (Published.trans before after) (.of_kept after.sound kept)⟩
  | declare _ declaration returns kept ih =>
    obtain ⟨graph', before⟩ := ih
    have held := declaration.run_spec before.sound
    rw [wp_of_ok returns] at held
    have after : Published _ _ graph' graph' := ⟨⟨List.prefix_refl _, List.prefix_refl _⟩, held.1, held.2.1⟩
    exact ⟨graph', Published.trans (Published.trans before after) (.of_kept held.1 kept)⟩

end

/-- A part of the reader that moves the pools only by calls that succeed. -/
def Advances {α : Type} (program : ReadM α) : Prop :=
  ∀ r graph, Sound r.context.pools graph →
    wp program (fun _ t => Progress r.context t.context) (fun _ t => Progress r.context t.context) r

section

variable {α β : Type}

theorem advances_pure (value : α) : Advances (pure value : ReadM α) := fun r _ _ => Progress.refl r.context

theorem advances_throw (stop : Refusal) : Advances (throw stop : ReadM α) := fun r _ _ => Progress.refl r.context

theorem advances_get : Advances (get : ReadM Reading) := fun r _ _ => Progress.refl r.context

theorem advances_modify {change : Reading → Reading} (keeps : ∀ r, (change r).context = r.context) :
    Advances (modify change) := by
  intro r _ _
  rw [wp_modify, keeps]
  exact Progress.refl r.context

theorem Advances.bind {program : ReadM α} {next : α → ReadM β} (first : Advances program)
    (second : ∀ value, Advances (next value)) : Advances (program >>= next) := by
  intro r graph sound
  refine wp_then (first r graph sound) fun value t progress => ?_
  obtain ⟨graph', published⟩ := progress.published sound
  exact wp_mono (second value t graph' published.sound) (fun _ _ later => progress.trans later)
    (fun _ _ later => progress.trans later)

theorem Advances.ite {condition : Prop} [Decidable condition] {first second : ReadM α} (taken : Advances first)
    (skipped : Advances second) : Advances (if condition then first else second) := by
  split
  · exact taken
  · exact skipped

theorem Advances.attempt {program : ReadM α} (advances : Advances program) : Advances (attempt program) := by
  intro r graph sound
  rw [wp_attempt]
  exact advances r graph sound

theorem advances_fail (status : Status) : Advances (fail status : ReadM α) :=
  Advances.bind (advances_modify fun _ => rfl) (fun _ => advances_throw _)

theorem advances_calling {call : IrM α}
    (held : ∀ s graph, Sound s.pools graph → wp call (fun _ t => Progress s t) (fun _ t => Kept s t) s) :
    Advances (calling call) := by
  intro r graph sound
  unfold calling
  simp only [wp_bind, wp_get]
  have ran := held r.context graph sound
  unfold wp at ran
  split
  · rename_i value context run
    rw [run] at ran
    exact ran
  · rename_i stop context run
    rw [run] at ran
    exact Progress.still ran

theorem advances_build (call : IrCall) : Advances (calling call.run) := by
  refine advances_calling (fun s graph sound => ?_)
  have held := call.run_spec sound
  unfold wp at held ⊢
  split <;> rename_i run <;> rw [run] at held
  · exact .call (.refl s) call run (.refl _)
  · exact held

theorem advances_declare (declaration : IrDeclaration) :
    Advances (do
      let status ← calling declaration.run
      if status ≠ .ok then fail status else pure ()) := by
  refine Advances.bind (advances_calling (fun s graph sound => ?_)) (fun status => ?_)
  · have held := declaration.run_spec sound
    unfold wp at held ⊢
    split <;> rename_i run <;> rw [run] at held
    · rename_i status t
      by_cases accepted : status = .ok
      · rw [accepted] at run
        exact .declare (.refl s) declaration run (.refl _)
      · exact .still (held.2.2 accepted)
    · exact held.elim
  · exact Advances.ite (advances_fail _) (advances_pure _)

theorem advances_skipSpace : Advances skipSpace := advances_modify fun _ => rfl

theorem advances_peek (expected : UInt8) : Advances (peek expected) :=
  advances_skipSpace.bind fun _ => advances_get.bind fun _ => advances_pure _

theorem advances_accept (expected : UInt8) : Advances (accept expected) := by
  refine (advances_peek expected).bind fun seen => Advances.ite ?_ (advances_pure _)
  exact Advances.bind (advances_modify fun _ => rfl) fun _ => advances_pure _

theorem advances_expect (expected : UInt8) : Advances (expect expected) :=
  (advances_accept expected).bind fun _ => Advances.ite (advances_pure _) (advances_fail _)

theorem advances_readToken (capacity : Nat) : Advances (readToken capacity) := by
  intro r _ _
  unfold readToken skipSpace
  simp only [wp_bind, wp_modify, wp_get]
  split
  · exact Progress.refl r.context
  · simp only [wp_bind, wp_set]
    apply wp_ite
    · intro _
      exact Progress.refl r.context
    · intro _
      exact Progress.refl r.context

theorem advances_readBareSpan : Advances readBareSpan := by
  intro r _ _
  unfold readBareSpan skipSpace
  simp only [wp_bind, wp_modify, wp_get]
  apply wp_ite
  · intro _
    exact Progress.refl r.context
  · intro _
    exact Progress.refl r.context

theorem advances_readSymbol : Advances readSymbol :=
  (advances_readToken _).bind fun token => advances_build (.internN token)

theorem advances_readU32 : Advances readU32 := by
  refine (advances_readToken _).bind fun token => ?_
  split
  · exact advances_fail _
  · exact Advances.ite (advances_fail _) (advances_pure _)

theorem advances_stackPush (ref : Nat) : Advances (stackPush ref) := by
  refine advances_get.bind fun r => Advances.bind (advances_calling (fun s _ _ => ?_)) fun _ =>
    advances_modify fun _ => rfl
  exact wp_good (poolReserve_spec _ _ _) fun _ _ kept => .still kept

theorem advances_listOver : Advances listOver := by
  refine (advances_peek _).bind fun _ => Advances.ite (advances_pure _) ?_
  exact advances_get.bind fun _ => Advances.ite (advances_fail _) (advances_pure _)

theorem advances_parseOperands {parse : ReadM Nat} (advances : Advances parse) (room : Nat) :
    Advances (parseOperands parse room) := by
  induction room with
  | zero =>
    refine advances_listOver.bind fun _ => Advances.ite (advances_pure _) ?_
    exact advances.bind fun _ => advances_fail _
  | succ room ih =>
    refine advances_listOver.bind fun _ => Advances.ite (advances_pure _) ?_
    exact advances.bind fun child => (advances_stackPush child).bind fun _ => ih

theorem advances_buildCompound (kind : Kind) (head : Nat) (children : List Nat) :
    Advances (buildCompound kind head children) := by
  unfold buildCompound
  split
  · exact advances_build (.add _)
  · exact advances_build (.mul _)
  · exact advances_build (.ncmul _)
  · exact advances_build (.wedge _)
  · exact advances_build (.pow _ _)
  · exact advances_build (.equation _ _)
  · exact advances_build (.function _ _)
  · exact advances_build (.tensor _ _)
  · exact advances_build (.operator _ _)
  · exact advances_build (.derivative _ _)
  · exact advances_fail _

theorem advances_readHead (kind : Kind) : Advances (readHead kind) := Advances.ite advances_readSymbol (advances_pure _)

theorem advances_parseCompound {parse : ReadM Nat} (advances : Advances parse) (kind : Kind) :
    Advances (parseCompound parse kind) := by
  refine (advances_readHead kind).bind fun head => advances_get.bind fun r => ?_
  have body : Advances (do
      parseOperands parse r.context.limits.maxChildren.toNat
      let r' ← get
      buildCompound kind head (r'.stack.drop r.stack.length)) :=
    (advances_parseOperands advances _).bind fun _ => advances_get.bind fun _ => advances_buildCompound _ _ _
  intro r' graph sound
  unfold withStack
  rw [wp_ensuring]
  exact body r' graph sound

theorem advances_parseRational : Advances parseRational := by
  refine advances_readBareSpan.bind fun numerator => advances_readBareSpan.bind fun denominator => ?_
  exact Advances.ite (advances_fail _) (advances_build (.rationalTextN numerator denominator))

theorem advances_parseReal : Advances parseReal := by
  refine (advances_readToken _).bind fun token => ?_
  split
  · exact advances_fail _
  · exact advances_build (.real _)

theorem advances_readSpace : Advances readSpace :=
  (advances_peek _).bind fun _ => Advances.ite (advances_pure _) advances_readSymbol

theorem advances_parseIndex : Advances parseIndex := by
  refine advances_readSymbol.attempt.bind fun name => (advances_readToken _).attempt.bind fun variance => ?_
  split
  · exact Advances.ite (advances_fail _) (advances_readSpace.bind fun space => advances_build (.indexInSpace _ _ space))
  · exact advances_fail _

theorem advances_parseError : Advances parseError := by
  refine (advances_readToken _).bind fun token => ?_
  split
  · exact advances_fail _
  · exact advances_build (.error _)

theorem advances_parseKind {parse : ReadM Nat} (advances : Advances parse) (kind : Kind) :
    Advances (parseKind parse kind) := by
  unfold parseKind
  split
  · exact advances_parseRational
  · exact advances_parseReal
  · exact advances_parseIndex
  · exact advances_parseError
  · exact advances_parseCompound advances _

theorem advances_parseList {parse : ReadM Nat} (advances : Advances parse) : Advances (parseList parse) := by
  refine (advances_readToken _).bind fun token => ?_
  split
  · exact advances_fail _
  · exact (advances_parseKind advances _).bind fun _ => (advances_expect _).bind fun _ => advances_pure _

theorem advances_parseAtom : Advances parseAtom := by
  refine advances_get.bind fun r => Advances.ite ?_ ?_
  · exact advances_readBareSpan.bind fun token => Advances.ite (advances_fail _) (advances_build (.integerTextN token))
  · exact advances_readSymbol.bind fun symbol => advances_build (.symbolRef symbol)

theorem advances_parseExpr (levels : Nat) : Advances (parseExpr levels) := by
  induction levels with
  | zero => exact advances_get.bind fun _ => Advances.ite (advances_throw _) (advances_fail _)
  | succ levels ih =>
    refine advances_get.bind fun _ => Advances.ite (advances_throw _) (advances_skipSpace.bind fun _ => ?_)
    refine advances_get.bind fun _ => Advances.ite (advances_fail _) ((advances_accept _).bind fun _ => ?_)
    exact Advances.ite (advances_parseList ih) advances_parseAtom

theorem advances_parseSymmetry (symbol : Nat) : Advances (parseSymmetry symbol) := by
  refine (advances_readToken _).bind fun token => Advances.ite (advances_fail _) ?_
  refine advances_readU32.bind fun slotA => advances_readU32.bind fun slotB => (advances_expect _).bind fun _ => ?_
  exact advances_declare (.declareSymmetry symbol slotA slotB _)

theorem advances_parseDeclared (symbol turns : Nat) (assumptions : UInt32) :
    Advances (parseDeclared symbol turns assumptions) := by
  induction turns generalizing assumptions with
  | zero => exact (advances_peek _).bind fun _ => Advances.ite (advances_pure _) (advances_fail _)
  | succ turns ih =>
    refine (advances_peek _).bind fun _ => Advances.ite (advances_pure _) (advances_get.bind fun _ => ?_)
    refine Advances.ite (advances_fail _) ((advances_accept _).bind fun _ => Advances.ite ?_ ?_)
    · exact (advances_parseSymmetry symbol).bind fun _ => ih assumptions
    · refine (advances_readToken _).bind fun token => ?_
      split
      · exact advances_fail _
      · exact ih _

theorem advances_parseDeclaration : Advances parseDeclaration := by
  refine advances_readSymbol.bind fun symbol => advances_get.bind fun r => ?_
  refine (advances_parseDeclared symbol _ _).bind fun assumptions => (advances_expect _).bind fun _ => ?_
  exact Advances.ite (advances_declare (.assume symbol assumptions)) (advances_pure _)

theorem advances_parseDeclarations (turns : Nat) : Advances (parseDeclarations turns) := by
  induction turns with
  | zero =>
    exact advances_skipSpace.bind fun _ => advances_get.bind fun _ => Advances.ite (advances_pure _) (advances_fail _)
  | succ turns ih =>
    refine advances_skipSpace.bind fun _ => advances_get.bind fun _ => Advances.ite (advances_pure _) ?_
    refine Advances.bind ?_ fun _ => ih
    refine (advances_expect _).bind fun _ => (advances_readToken _).bind fun token => ?_
    exact Advances.ite (advances_fail _) advances_parseDeclaration

theorem readerRelease_kept (r : Reading) : Kept r.context (readerRelease r) := ⟨rfl, rfl⟩

theorem irRead_progress {s : IrContext} {graph : Graph} (sound : Sound s.pools graph) (text : List UInt8) :
    Progress s (irRead s text).2 := by
  unfold irRead
  have whole : Advances (do
      let ref ← parseExpr s.limits.maxDepth.toNat
      skipSpace
      let r ← get
      if r.rest ≠ [] then fail .parse else pure ref) :=
    (advances_parseExpr _).bind fun _ => advances_skipSpace.bind fun _ => advances_get.bind fun _ =>
      Advances.ite (advances_fail _) (advances_pure _)
  have held := whole (openReading s text) graph sound
  unfold wp at held
  dsimp only
  split <;> rename_i run <;> rw [run] at held
  · exact held.keep (readerRelease_kept _)
  · exact held.keep (readerRelease_kept _)

theorem irReadDeclarations_progress {s : IrContext} {graph : Graph} (sound : Sound s.pools graph) (text : List UInt8) :
    Progress s (irReadDeclarations s text).2 := by
  unfold irReadDeclarations
  have held := advances_parseDeclarations (openReading s text).rest.length (openReading s text) graph sound
  unfold wp at held
  dsimp only
  split <;> rename_i run <;> rw [run] at held
  · exact held.keep (readerRelease_kept _)
  · exact held.keep (readerRelease_kept _)

end

end PhyNspire.Ir.Calls

import PhyNspire.Ir.DeclarationWriter

/-!
The declaration text read back. Every token that the writer emits is read as it was, a context that
has told nothing of a name accepts what another one has told of it, and the pairs arrive in the
order of their slots, whatever the order of their declaration was.
-/

namespace PhyNspire.Ir.DeclarationReader
open Platform Lib Lib.Stateful Lib.Decimal Exact.Decimals Expressions Context Symbols Reader Layout SymbolTable Calls Runs
open Declared DeclarationWriter

variable {r t : Reading} {good : List UInt8 → Reading → Prop} {bad : Refusal → Reading → Prop} {name token tail : List UInt8} {n : Nat}

theorem wp_peek (expected : UInt8) {good : Bool → Reading → Prop} : wp (peek expected) good bad r ↔
    good (decide ((r.rest.dropWhile isSpace).head? = some expected)) { r with rest := r.rest.dropWhile isSpace } := by
  unfold peek skipSpace
  simp only [wp_bind, wp_modify, wp_get, wp_pure]

variable {expected : UInt8}

theorem wp_accept_hit {good : Bool → Reading → Prop} (front : r.rest.dropWhile isSpace = expected :: tail)
    (then_ : good true { r with rest := tail }) : wp (accept expected) good bad r := by
  unfold accept
  rw [wp_bind, wp_peek, front]
  simp only [List.head?_cons, decide_true, if_true, wp_bind, wp_modify, wp_pure, List.tail_cons]
  exact then_

theorem wp_accept_miss {first : UInt8} {good : Bool → Reading → Prop} (front : r.rest.dropWhile isSpace = first :: tail)
    (other : first ≠ expected) (then_ : good false { r with rest := first :: tail }) : wp (accept expected) good bad r := by
  unfold accept
  rw [wp_bind, wp_peek, front]
  have miss : decide ((first :: tail).head? = some expected) = false := by simpa using other
  rw [miss, if_neg (by decide)]
  exact then_

theorem wp_expect {good : Unit → Reading → Prop} (front : r.rest.dropWhile isSpace = expected :: tail)
    (then_ : good () { r with rest := tail }) : wp (expect expected) good bad r := by
  unfold expect
  rw [wp_bind]
  apply wp_accept_hit front
  exact then_

/-- What may follow a bare token. -/
def Ends (tail : List UInt8) : Prop := ∀ c ∈ tail.head?, isTerminator c = true

theorem ends_cons {c : UInt8} (terminator : isTerminator c = true) (tail : List UInt8) : Ends (c :: tail) := by
  intro d first
  cases first
  exact terminator

/-- A token that needs no bars. -/
structure Bare (token : List UInt8) : Prop where
  some : token ≠ []
  open_ : ∀ c ∈ token, isTerminator c = false
  unquoted : token.head? ≠ .some 124

theorem Bare.no_space (bare : Bare token) (tail : List UInt8) : (token ++ tail).dropWhile isSpace = token ++ tail := by
  cases token with
  | nil => exact absurd rfl bare.some
  | cons first rest =>
    have here := bare.open_ first List.mem_cons_self
    unfold isTerminator at here
    simp only [Bool.or_eq_false_iff] at here
    rw [List.cons_append, List.dropWhile_cons_of_neg (by simp [here.1.1])]

theorem readToken_bare {capacity : Nat} (bare : Bare token) (ends : Ends tail) (fits : token.length ≤ capacity)
    (front : r.rest.dropWhile isSpace = token ++ tail) (then_ : good token { r with rest := tail }) :
    wp (readToken capacity) good bad r := by
  have kept : ∀ c ∈ token, (!isTerminator c) = true := fun c inside => by rw [bare.open_ c inside]; rfl
  have stop : tail.takeWhile (fun c => !isTerminator c) = [] ∧ tail.dropWhile (fun c => !isTerminator c) = tail := by
    cases tail with
    | nil => exact ⟨rfl, rfl⟩
    | cons c rest => simp [ends c rfl]
  have unquoted : (token ++ tail).head? ≠ some 124 := by
    rw [List.head?_append_of_ne_nil _ bare.some]
    exact bare.unquoted
  have short : ¬(token = [] ∨ capacity < token.length) := by
    rintro (empty | long)
    · exact bare.some empty
    · omega
  unfold readToken skipSpace
  simp only [wp_bind, wp_modify, wp_get, front, if_neg unquoted, List.takeWhile_append_of_pos kept, List.dropWhile_append_of_pos kept,
    stop.1, stop.2, List.append_nil, wp_set, if_neg short, wp_pure]
  exact then_

theorem quoted_escaped (name tail : List UInt8) :
    quoted (name.flatMap (fun c => if c = 124 ∨ c = 92 then [92, c] else [c]) ++ 124 :: tail) = some (name, tail) := by
  induction name with
  | nil => cases tail <;> simp [quoted]
  | cons c rest ih =>
    by_cases special : c = 124 ∨ c = 92
    · rw [List.flatMap_cons, if_pos special, List.append_assoc, List.cons_append, List.cons_append, List.nil_append, quoted, ih]
      simp
    · obtain ⟨bar, slash⟩ := not_or.mp special
      rw [List.flatMap_cons, if_neg special, List.append_assoc, List.singleton_append]
      cases rest' : rest.flatMap (fun c => if c = 124 ∨ c = 92 then [92, c] else [c]) ++ 124 :: tail with
      | nil => simp at rest'
      | cons d more =>
        rw [rest'] at ih
        rw [quoted, if_neg bar, if_neg slash, ih]
        rfl

theorem bare_of_nameIsBare (bare : nameIsBare name = true) : Bare name := by
  unfold nameIsBare at bare
  simp only [Bool.and_eq_true, decide_eq_true_eq, List.all_eq_true] at bare
  obtain ⟨⟨spelled, -⟩, plain⟩ := bare
  refine ⟨spelled, fun c inside => ?_, fun bar => ?_⟩
  · obtain ⟨⟨⟨⟨visible, opening⟩, closing⟩, -⟩, -⟩ := plain c inside
    simp [isTerminator, isSpace, opening, closing, UInt8.not_le.mpr visible]
  · exact (plain 124 (List.mem_of_head? bar)).1.2 rfl

theorem readToken_name {capacity : Nat} (spelled : name ≠ []) (ends : Ends tail) (fits : name.length ≤ capacity)
    (front : r.rest.dropWhile isSpace = nameText name ++ tail) (then_ : good name { r with rest := tail }) :
    wp (readToken capacity) good bad r := by
  by_cases bare : nameIsBare name = true
  · rw [nameText, if_pos bare] at front
    exact readToken_bare (bare_of_nameIsBare bare) ends fits front then_
  · have short : ¬(name = [] ∨ capacity < name.length) := by
      rintro (empty | long)
      · exact spelled empty
      · omega
    rw [nameText, if_neg bare, List.append_assoc, List.cons_append] at front
    unfold readToken skipSpace
    simp only [wp_bind, wp_modify, wp_get, front, List.head?_cons, if_true, List.tail_cons, List.singleton_append, quoted_escaped, wp_set,
      if_neg short, wp_pure]
    exact then_

theorem emitU64_eq {n : Nat} (word : n < 2 ^ 64) : emitU64 n = naturalText n := by
  unfold emitU64 naturalText
  split
  · rename_i zero
    rw [zero]
    rfl
  · rename_i positive
    rw [wordDigits_eq positive (by omega)]

theorem naturalText_digit {c : UInt8} (inside : c ∈ naturalText n) : 48 ≤ c ∧ c ≤ 57 := by
  obtain ⟨digit, small, rfl⟩ := mem_naturalText inside
  simp only [UInt8.le_iff_toNat_le, toNat_digitByte small]
  exact ⟨Nat.le_add_right 48 digit, show 48 + digit ≤ 57 by omega⟩

theorem bare_naturalText (n : Nat) : Bare (naturalText n) := by
  refine ⟨naturalText_ne_nil n, fun c inside => ?_, fun bar => ?_⟩
  · obtain ⟨low, -⟩ := naturalText_digit inside
    have visible : ¬c ≤ 32 := by
      rw [UInt8.le_iff_toNat_le] at low ⊢
      change 48 ≤ c.toNat at low
      change ¬c.toNat ≤ 32
      omega
    have opening : c ≠ 40 := by
      rintro rfl
      exact absurd low (by decide)
    have closing : c ≠ 41 := by
      rintro rfl
      exact absurd low (by decide)
    simp [isTerminator, isSpace, visible, opening, closing]
  · exact absurd (naturalText_digit (List.mem_of_head? bar)).2 (by decide)

theorem digitsToU64_eq (digits : List UInt8) (decimal : ∀ c ∈ digits, 48 ≤ c ∧ c ≤ 57) (n : Nat)
    (word : continued n digits ≤ 2 ^ 64 - 1) :
    digits.foldlM (fun value c =>
      if !isDigit c then none
      else
        let digit := c.toNat - 48
        if (2 ^ 64 - 1 - digit) / 10 < value then none else some (value * 10 + digit)) n = some (continued n digits) := by
  induction digits generalizing n with
  | nil => rfl
  | cons c rest ih =>
    obtain ⟨low, high⟩ := decimal c List.mem_cons_self
    have digit : isDigit c = true := by simp [isDigit, low, high]
    have grows : n * 10 + (c.toNat - 48) ≤ continued n (c :: rest) := by
      have start := continued_start (n * 10 + (c.toNat - 48)) rest
      have unfolded : continued n (c :: rest) = continued (n * 10 + (c.toNat - 48)) rest := rfl
      rw [unfolded, start]
      have scale : 1 ≤ 10 ^ rest.length := Nat.one_le_pow _ _ (by decide)
      have := Nat.mul_le_mul_left (n * 10 + (c.toNat - 48)) scale
      omega
    rw [List.foldlM_cons]
    simp only [digit, Bool.not_true, Bool.false_eq_true, if_false]
    rw [if_neg (by omega)]
    exact ih (fun d inside => decimal d (List.mem_cons_of_mem _ inside)) _ word

theorem tokenToI64_naturalText (word : n < 2 ^ 32) : tokenToI64 (naturalText n) = some (n : Int) := by
  have plain : (naturalText n).head? ≠ some 45 := head_naturalText_ne_minus n
  have digits : digitsToU64 (naturalText n) = some n := by
    unfold digitsToU64
    rw [digitsToU64_eq (naturalText n) (fun c inside => naturalText_digit inside) 0 (by rw [continued_naturalText]; omega),
      continued_naturalText]
  unfold tokenToI64
  simp only [plain, decide_false, Bool.false_eq_true, if_false, naturalText_ne_nil, digits]
  rw [if_neg (by omega)]

theorem length_naturalText_word (word : n < 2 ^ 32) : (naturalText n).length ≤ 32 := by
  unfold naturalText
  split
  · decide
  · rw [List.length_reverse, List.length_map, Nat.digits_length_le_iff (by decide)]
    omega

theorem readU32_eq {good : Nat → Reading → Prop} (word : n < 2 ^ 32) (ends : Ends tail)
    (front : r.rest.dropWhile isSpace = emitU64 n ++ tail) (then_ : good n { r with rest := tail }) : wp readU32 good bad r := by
  rw [emitU64_eq (by omega)] at front
  unfold readU32
  rw [wp_bind]
  apply readToken_bare (bare_naturalText n) ends (length_naturalText_word word) front
  rw [tokenToI64_naturalText word]
  dsimp only
  rw [if_neg (by omega)]
  exact then_

variable {names : List Name} {told : List Declaration}

/-- Where a reader stands that has met no failure: the names in its context and what is declared of them. -/
structure Stage (r : Reading) (names : List Name) (told : List Declaration) : Prop where
  sound : ∃ graph, Sound r.context.pools graph ∧ graph.names = names
  declared : declarations r.context.pools = told
  pending : r.context.error = .ok
  error : r.error = .ok

theorem Stage.rest (stage : Stage r names told) (tail : List UInt8) : Stage { r with rest := tail } names told :=
  ⟨stage.sound, stage.declared, stage.pending, stage.error⟩

/-- A reader that stops has run out of memory. -/
def OutOfRoom (_ : Refusal) (r : Reading) : Prop := Short r.error

variable {α : Type}

theorem fail_short {good : α → Reading → Prop} {status : Status} (clear : r.error = .ok) (short : Short status) :
    wp (fail status : ReadM α) good OutOfRoom r := by
  change Short (if r.error = .ok then (if status = .ok then .parse else status) else r.error)
  have other : status ≠ .ok := by
    rintro rfl
    rcases short with short | short <;> cases short
  rwa [if_pos clear, if_neg other]

theorem wp_calling {call : IrM α} {good' : α → IrContext → Prop} {good : α → Reading → Prop} (clear : r.error = .ok)
    (held : wp call good' (fun _ t => Short t.error) r.context)
    (then_ : ∀ value context, good' value context → good value { r with context := context }) : wp (calling call) good OutOfRoom r := by
  unfold calling
  simp only [wp_bind, wp_get]
  unfold wp at held
  split
  · rename_i value context run
    rw [run] at held
    exact then_ value context held
  · rename_i stop context run
    rw [run] at held
    rw [wp_bind, wp_set]
    exact fail_short clear held

theorem readSymbol_fresh {good : Nat → Reading → Prop} (stage : Stage r names told) (fresh : name ∉ names) (spelled : name ≠ [])
    (fits : name.length ≤ tokenMax) (ends : Ends tail) (front : r.rest.dropWhile isSpace = nameText name ++ tail)
    (then_ : ∀ t, t.rest = tail → Stage t (names ++ [name]) (told ++ [.none]) → good (names.length + 1) t) :
    wp readSymbol good OutOfRoom r := by
  obtain ⟨⟨graph, sound, rfl⟩, declared, pending, error⟩ := stage
  unfold readSymbol
  rw [wp_bind]
  apply readToken_name spelled ends fits front
  have called := wp_mono (wp_and (irInternN_declares sound name) (irInternN_error spelled)) (fun _ _ both => both)
    (fun _ t both => (both.2.2 pending : Short t.error))
  apply wp_calling (r := { r with rest := tail }) error called
  rintro symbol context ⟨⟨graph', published, named, ⟨same, -⟩ | ⟨-, grown, later⟩⟩, clear⟩
  · rw [same] at named
    exact absurd (List.mem_of_getElem? named.2) fresh
  · have position : symbol = graph.names.length + 1 := by
      have last : Named graph'.names (graph.names.length + 1) name := by
        refine ⟨Nat.succ_ne_zero _, ?_⟩
        rw [grown, Nat.add_sub_cancel, List.getElem?_append_right (Nat.le_refl _), Nat.sub_self]
        rfl
      exact named.symbol_eq published.sound.symbols.distinct last
    rw [position]
    exact then_ _ rfl ⟨⟨graph', published.sound, grown⟩, by rw [later, declared], clear.trans pending, error⟩

variable {declaration : Declaration}

theorem last_symbol (sound : ∃ graph, Sound r.context.pools graph ∧ graph.names = names)
    (declared : declarations r.context.pools = told ++ [declaration]) :
    ∃ record, symbolAt r.context.pools (told.length + 1) = some record ∧ declarationOf r.context.pools record = declaration := by
  obtain ⟨graph, sound, rfl⟩ := sound
  have below : told.length < graph.names.length := by
    rw [← length_declarations sound, declared, List.length_append]
    exact Nat.lt_succ_self _
  obtain ⟨record, held, -, -, entry⟩ := symbol_at sound below
  refine ⟨record, held, ?_⟩
  rw [List.getElem?_zip_eq_some] at entry
  have here := entry.2
  rw [declared, List.getElem?_append_right (Nat.le_refl _), Nat.sub_self] at here
  exact (Option.some.inj here).symm

theorem modify_last (declaration : Declaration) (change : Declaration → Declaration) :
    (told ++ [declaration]).modify (told.length + 1 - 1) change = told ++ [change declaration] := by
  rw [Nat.add_sub_cancel]
  apply List.ext_getElem?
  intro index
  rw [List.getElem?_modify]
  rcases Nat.lt_trichotomy index told.length with less | rfl | more
  · rw [List.getElem?_append_left less, List.getElem?_append_left less]
    simp [Nat.ne_of_gt less]
  · simp
  · rw [List.getElem?_eq_none (by simp; omega), List.getElem?_eq_none (by simp; omega)]
    rfl

structure Takes (declaration : Declaration) (pair : SlotPair) : Prop where
  ordered : pair.low < pair.high
  word : pair.high < 2 ^ 32
  kind : pair.symmetry = 1 ∨ pair.symmetry = 2
  fresh : pair.slots ∉ declaration.pairs.map SlotPair.slots

theorem parseSymmetry_eq {good : Unit → Reading → Prop} (stage : Stage r names (told ++ [declaration]))
    {pair : SlotPair} (takes : Takes declaration pair)
    (front : r.rest = ascii (if pair.symmetry = 2 then "asym " else "sym ") ++ emitU64 pair.low ++ 32 :: emitU64 pair.high ++ 41 :: tail)
    (then_ : ∀ t, t.rest = tail → Stage t names (told ++ [declaration.declare pair]) → good () t) :
    wp (parseSymmetry (told.length + 1)) good OutOfRoom r := by
  have lowWord : pair.low < 2 ^ 32 := takes.ordered.trans takes.word
  have kind : ∃ token, Bare token ∧ token.length ≤ 16 ∧ (if token = ascii "sym" then 1 else if token = ascii "asym" then 2 else 0) = pair.symmetry ∧
      ascii (if pair.symmetry = 2 then "asym " else "sym ") = token ++ [32] := by
    rcases takes.kind with one | two
    · refine ⟨ascii "sym", ⟨by decide, by decide +kernel, by decide⟩, by decide, ?_, ?_⟩
      · rw [one]
        rfl
      · rw [one]
        rfl
    · refine ⟨ascii "asym", ⟨by decide, by decide +kernel, by decide⟩, by decide, ?_, ?_⟩
      · rw [two]
        rfl
      · rw [two]
        rfl
  obtain ⟨token, bare, short, read, spelled⟩ := kind
  have nonzero : pair.symmetry ≠ 0 := by
    rcases takes.kind with one | two <;> omega
  unfold parseSymmetry
  rw [wp_bind]
  apply readToken_bare bare (ends_cons (rfl : isTerminator 32 = true) _) short
  · rw [front, spelled]
    simp only [List.append_assoc, List.cons_append, List.nil_append]
    exact bare.no_space (32 :: (emitU64 pair.low ++ 32 :: (emitU64 pair.high ++ 41 :: tail)))
  dsimp only
  rw [read, if_neg nonzero]
  simp only [wp_bind]
  have space (text : List UInt8) (n : Nat) (word : n < 2 ^ 32) : (32 :: (emitU64 n ++ text)).dropWhile isSpace = emitU64 n ++ text := by
    rw [List.dropWhile_cons_of_pos (by decide), emitU64_eq (by omega)]
    exact (bare_naturalText n).no_space text
  apply readU32_eq lowWord (ends_cons (rfl : isTerminator 32 = true) _)
  · exact space (32 :: (emitU64 pair.high ++ 41 :: tail)) pair.low lowWord
  apply readU32_eq takes.word (ends_cons (rfl : isTerminator 41 = true) _)
  · exact space (41 :: tail) pair.high takes.word
  apply wp_expect (List.dropWhile_cons_of_neg (by decide))
  obtain ⟨⟨graph, sound, rfl⟩, declared, pending, error⟩ := stage
  obtain ⟨owner, held, here⟩ := last_symbol ⟨graph, sound, rfl⟩ declared
  have pairs : pairsFrom r.context.pools owner.symmetryHead = declaration.pairs := congrArg Declaration.pairs here
  have low : min pair.low pair.high = pair.low := min_eq_left takes.ordered.le
  have high : max pair.low pair.high = pair.high := max_eq_right takes.ordered.le
  have called := irDeclareSymmetry_declares sound held (Nat.ne_of_lt takes.ordered) takes.kind
  rw [low, high, pairs] at called
  apply wp_calling (r := { r with rest := tail }) error (wp_mono (wp_and called (irDeclareSymmetry_spec sound _ _ _ _)) (fun _ _ both => both)
    (fun _ _ both => both.1.elim))
  rintro status context ⟨⟨accepted, refused⟩, later, -, -⟩
  by_cases same : status = .ok
  · rw [if_neg (by simpa using same)]
    obtain ⟨clear, ⟨-, known⟩ | ⟨-, grown⟩⟩ := accepted same
    · exact absurd (List.mem_map_of_mem known) takes.fresh
    · rw [declared, modify_last] at grown
      exact then_ _ rfl ⟨⟨graph, later, rfl⟩, grown, clear.trans pending, error⟩
  · rw [if_pos (by simpa using same)]
    rcases refused same pending with short | ⟨other, inside, slots, -⟩
    · exact fail_short error short
    · have there : other.slots ∈ declaration.pairs.map SlotPair.slots := List.mem_map_of_mem inside
      rw [slots] at there
      exact absurd there takes.fresh

variable {turns : Nat} {assumptions : UInt32}

theorem wp_parseDeclared_end {good : UInt32 → Reading → Prop} {symbol : Nat}
    (front : r.rest = 41 :: tail) (then_ : good assumptions { r with rest := 41 :: tail }) :
    wp (parseDeclared symbol turns assumptions) good bad r := by
  have closed : r.rest.dropWhile isSpace = 41 :: tail := by rw [front, List.dropWhile_cons_of_neg (by decide)]
  cases turns with
  | zero =>
    rw [parseDeclared, wp_bind, wp_peek, closed]
    exact then_
  | succ turns =>
    rw [parseDeclared, wp_bind, wp_peek, closed]
    exact then_

def TakesAll : Declaration → List SlotPair → Prop
  | _, [] => True
  | declaration, pair :: rest => Takes declaration pair ∧ TakesAll (declaration.declare pair) rest

theorem pairText_eq (pair : SlotPair) (text : List UInt8) : pairText pair ++ text =
    32 :: 40 :: (ascii (if pair.symmetry = 2 then "asym " else "sym ") ++ emitU64 pair.low ++ 32 :: emitU64 pair.high ++ 41 :: text) := by
  unfold pairText
  split
  · simp [ascii]
  · simp [ascii]

variable {pairs : List SlotPair}

theorem parseDeclared_pairs {good : UInt32 → Reading → Prop}
    (stage : Stage r names (told ++ [declaration])) (takes : TakesAll declaration pairs)
    (enough : pairs.length ≤ turns) (front : r.rest = pairs.flatMap pairText ++ 41 :: tail)
    (then_ : ∀ t, t.rest = 41 :: tail → Stage t names (told ++ [⟨declaration.assumptions, pairs.reverse ++ declaration.pairs⟩]) →
      good assumptions t) : wp (parseDeclared (told.length + 1) turns assumptions) good OutOfRoom r := by
  induction pairs generalizing r declaration turns with
  | nil =>
    apply wp_parseDeclared_end front
    exact then_ _ rfl (stage.rest _)
  | cons pair rest ih =>
    cases turns with
    | zero => simp at enough
    | succ turns =>
      rw [List.flatMap_cons, List.append_assoc, pairText_eq] at front
      generalize body : ascii (if pair.symmetry = 2 then "asym " else "sym ") ++ emitU64 pair.low ++ 32 :: emitU64 pair.high ++
        41 :: (rest.flatMap pairText ++ 41 :: tail) = text at front
      have opened : r.rest.dropWhile isSpace = 40 :: text := by
        rw [front, List.dropWhile_cons_of_pos (by decide), List.dropWhile_cons_of_neg (by decide)]
      rw [parseDeclared, wp_bind, wp_peek, opened]
      rw [if_neg (by simp)]
      simp only [wp_bind, wp_get]
      rw [if_neg (List.cons_ne_nil _ _)]
      rw [wp_bind]
      apply wp_accept_hit (List.dropWhile_cons_of_neg (by decide))
      rw [if_pos rfl, wp_bind]
      apply parseSymmetry_eq (stage.rest text) takes.1 body.symm
      intro t rest_text later
      apply ih later takes.2 (by simpa using enough) rest_text
      intro u closed final
      apply then_ u closed
      simpa [Declaration.declare] using final

def bitsOf (words : List (List UInt8 × UInt32)) (assumptions : UInt32) : UInt32 :=
  words.foldl (fun bits word => bits ||| word.2) assumptions

theorem bare_assumption {word : List UInt8 × UInt32} (inside : word ∈ assumptionNames) :
    Bare word.1 ∧ word.1.length ≤ 32 ∧ word.1.head? ≠ some 41 ∧ word.1.head? ≠ some 40 ∧ assumptionNames.lookup word.1 = some word.2 := by
  have all : ∀ word ∈ assumptionNames, word.1 ≠ [] ∧ (∀ c ∈ word.1, isTerminator c = false) ∧ word.1.head? ≠ some 124 ∧
      word.1.length ≤ 32 ∧ word.1.head? ≠ some 41 ∧ word.1.head? ≠ some 40 ∧ assumptionNames.lookup word.1 = some word.2 := by
    decide +kernel
  obtain ⟨some, open_, unquoted, rest⟩ := all word inside
  exact ⟨⟨some, open_, unquoted⟩, rest⟩

theorem parseDeclared_eq {good : UInt32 → Reading → Prop} {words : List (List UInt8 × UInt32)}
    (stage : Stage r names (told ++ [declaration]))
    (words_known : ∀ word ∈ words, word ∈ assumptionNames) (takes : TakesAll declaration pairs)
    (enough : words.length + pairs.length ≤ turns)
    (front : r.rest = words.flatMap (fun word => 32 :: word.1) ++ (pairs.flatMap pairText ++ 41 :: tail))
    (then_ : ∀ t, t.rest = 41 :: tail → Stage t names (told ++ [⟨declaration.assumptions, pairs.reverse ++ declaration.pairs⟩]) →
      good (bitsOf words assumptions) t) : wp (parseDeclared (told.length + 1) turns assumptions) good OutOfRoom r := by
  induction words generalizing r turns assumptions with
  | nil => exact parseDeclared_pairs stage takes (by simpa using enough) front then_
  | cons word rest ih =>
    cases turns with
    | zero => simp at enough
    | succ turns =>
      obtain ⟨bare, short, closing, opening, listed⟩ := bare_assumption (words_known word List.mem_cons_self)
      rw [List.flatMap_cons, List.append_assoc, List.cons_append] at front
      generalize following : rest.flatMap (fun word => 32 :: word.1) ++ (pairs.flatMap pairText ++ 41 :: tail) = text at front
      have ends : Ends text := by
        rw [← following]
        cases rest with
        | cons next more => exact ends_cons (by decide) _
        | nil =>
          cases pairs with
          | nil => exact ends_cons (by decide) _
          | cons pair more =>
            rw [List.flatMap_nil, List.nil_append, List.flatMap_cons, List.append_assoc, pairText_eq]
            exact ends_cons (by decide) _
      obtain ⟨first, others, spelled⟩ := List.exists_cons_of_ne_nil bare.some
      have opened : r.rest.dropWhile isSpace = first :: (others ++ text) := by
        rw [front, List.dropWhile_cons_of_pos (by decide), bare.no_space, spelled, List.cons_append]
      rw [spelled, List.head?_cons] at closing opening
      rw [parseDeclared, wp_bind, wp_peek, opened, if_neg (by simpa using closing)]
      simp only [wp_bind, wp_get]
      rw [if_neg (List.cons_ne_nil _ _), wp_bind]
      have visible : (first :: (others ++ text)).dropWhile isSpace = first :: (others ++ text) := by
        have kept := bare.no_space text
        rwa [spelled] at kept
      apply wp_accept_miss visible (by simpa using opening)
      rw [if_neg (by decide), wp_bind]
      apply readToken_bare bare ends short (by rw [spelled]; exact visible)
      rw [listed]
      exact ih (stage.rest text) (fun word inside => words_known word (List.mem_cons_of_mem _ inside))
        (by simp only [List.length_cons] at enough; omega) following.symm then_

def heldWords (assumptions : UInt32) : List (List UInt8 × UInt32) := assumptionNames.filter fun entry => decide (assumptions &&& entry.2 ≠ 0)

theorem assumptionText_eq (assumptions : UInt32) : assumptionText assumptions = (heldWords assumptions).flatMap fun word => 32 :: word.1 := by
  unfold assumptionText heldWords
  induction assumptionNames with
  | nil => rfl
  | cons entry rest ih =>
    rw [List.flatMap_cons, ih, List.filter_cons]
    by_cases held : assumptions &&& entry.2 = 0
    · simp [held]
    · simp [held]

theorem known_lt (known : Known assumptions) : assumptions.toNat < 2 ^ 7 := by
  apply Nat.lt_pow_two_of_testBit
  intro index high
  by_cases inside : index < 32
  · have bit : (assumptions.toBitVec &&& ~~~(127#32)).getLsbD index = false := by
      have zero : assumptions.toBitVec &&& ~~~(127#32) = 0#32 := congrArg UInt32.toBitVec known
      rw [zero, BitVec.getLsbD_zero]
    have mask : (127#32).getLsbD index = false := by
      rw [BitVec.getLsbD, BitVec.toNat_ofNat]
      exact Nat.testBit_lt_two_pow (lt_of_lt_of_le (by decide) (Nat.pow_le_pow_right (by decide) high))
    rw [BitVec.getLsbD_and, BitVec.getLsbD_not, mask, Bool.not_false, decide_eq_true inside, Bool.and_true, Bool.and_true] at bit
    exact bit
  · exact Nat.testBit_lt_two_pow (lt_of_lt_of_le assumptions.toNat_lt (Nat.pow_le_pow_right (by decide) (not_lt.mp inside)))

theorem bitsOf_heldWords (known : Known assumptions) : bitsOf (heldWords assumptions) 0 = assumptions := by
  have all : ∀ bits : Fin 128, bitsOf (heldWords (UInt32.ofNat bits)) 0 = UInt32.ofNat bits := by decide +kernel
  have small := all ⟨assumptions.toNat, known_lt known⟩
  simpa using small

theorem length_le_flatMap {f : α → List UInt8} (some : ∀ a, f a ≠ []) (items : List α) : items.length ≤ (items.flatMap f).length := by
  induction items with
  | nil => exact Nat.le_refl 0
  | cons item rest ih =>
    have here := List.length_pos_iff.mpr (some item)
    rw [List.flatMap_cons, List.length_append, List.length_cons]
    omega

/-- What can be declared of a name in a context that has told nothing of it. -/
structure Tellable (declaration : Declaration) : Prop extends declaration.Accepted where
  word : ∀ pair ∈ declaration.pairs, pair.high < 2 ^ 32

theorem takesAll_of_distinct (ordered : ∀ pair ∈ pairs, pair.low < pair.high)
    (word : ∀ pair ∈ pairs, pair.high < 2 ^ 32) (kind : ∀ pair ∈ pairs, pair.symmetry = 1 ∨ pair.symmetry = 2)
    (distinct : ((pairs.reverse ++ declaration.pairs).map SlotPair.slots).Nodup) : TakesAll declaration pairs := by
  induction pairs generalizing declaration with
  | nil => trivial
  | cons pair rest ih =>
    rw [List.reverse_cons, List.append_assoc, List.singleton_append] at distinct
    have fresh : pair.slots ∉ declaration.pairs.map SlotPair.slots := by
      rw [List.map_append, List.map_cons] at distinct
      exact (List.nodup_cons.mp distinct.of_append_right).1
    have here : pair ∈ pair :: rest := List.mem_cons_self
    refine ⟨⟨ordered pair here, word pair here, kind pair here, fresh⟩, ?_⟩
    exact ih (fun other inside => ordered other (List.mem_cons_of_mem _ inside)) (fun other inside => word other (List.mem_cons_of_mem _ inside))
      (fun other inside => kind other (List.mem_cons_of_mem _ inside)) distinct

/-- A declaration as it stands after it was read: the pairs in the order of their slots, latest first. -/
def reread (declaration : Declaration) : Declaration := ⟨declaration.assumptions, (orderedPairs declaration.pairs).reverse⟩

theorem parseDeclaration_eq {good : Unit → Reading → Prop} (stage : Stage r names told)
    (same : told.length = names.length) (fresh : name ∉ names) (spelled : name ≠ []) (fits : name.length ≤ tokenMax)
    (tellable : Tellable declaration)
    (front : r.rest.dropWhile isSpace = nameText name ++ (assumptionText declaration.assumptions ++
      ((orderedPairs declaration.pairs).flatMap pairText ++ 41 :: tail)))
    (then_ : ∀ t, t.rest = tail → Stage t (names ++ [name]) (told ++ [reread declaration]) → good () t) :
    wp parseDeclaration good OutOfRoom r := by
  have members (pair : SlotPair) : pair ∈ orderedPairs declaration.pairs ↔ pair ∈ declaration.pairs := (orderedPairs_perm _).mem_iff
  have takes : TakesAll .none (orderedPairs declaration.pairs) := by
    apply takesAll_of_distinct
    · exact fun pair inside => tellable.ordered pair ((members pair).mp inside)
    · exact fun pair inside => tellable.word pair ((members pair).mp inside)
    · exact fun pair inside => tellable.kind pair ((members pair).mp inside)
    · have perm := ((List.reverse_perm _).trans (orderedPairs_perm declaration.pairs)).map SlotPair.slots
      simpa [Declaration.none] using perm.nodup_iff.mpr tellable.distinct
  generalize following : assumptionText declaration.assumptions ++ ((orderedPairs declaration.pairs).flatMap pairText ++ 41 :: tail) =
    text at front
  have ends : Ends text := by
    rw [← following, assumptionText_eq]
    cases heldWords declaration.assumptions with
    | cons next more => exact ends_cons (by decide) _
    | nil =>
      cases orderedPairs declaration.pairs with
      | nil => exact ends_cons (by decide) _
      | cons pair more =>
        rw [List.flatMap_nil, List.nil_append, List.flatMap_cons, List.append_assoc, pairText_eq]
        exact ends_cons (by decide) _
  unfold parseDeclaration
  rw [wp_bind]
  apply readSymbol_fresh stage fresh spelled fits ends front
  intro t text_left read
  simp only [wp_bind, wp_get]
  rw [← same]
  have room : (heldWords declaration.assumptions).length + (orderedPairs declaration.pairs).length ≤ t.rest.length := by
    have words := length_le_flatMap (fun word : List UInt8 × UInt32 => List.cons_ne_nil 32 word.1) (heldWords declaration.assumptions)
    have pairs := length_le_flatMap (f := pairText) (fun pair => by simp [pairText]) (orderedPairs declaration.pairs)
    rw [text_left, ← following, assumptionText_eq, List.length_append, List.length_append]
    omega
  have known (word : List UInt8 × UInt32) (inside : word ∈ heldWords declaration.assumptions) : word ∈ assumptionNames :=
    (List.mem_filter.mp inside).1
  apply parseDeclared_eq read known takes room (by rw [text_left, ← following, assumptionText_eq])
  intro u closed staged
  rw [bitsOf_heldWords tellable.known]
  simp only [Declaration.none, List.append_nil] at staged
  have closing : u.rest.dropWhile isSpace = 41 :: tail := by rw [closed, List.dropWhile_cons_of_neg (by decide)]
  apply wp_expect closing
  by_cases nothing : declaration.assumptions = 0
  · rw [if_neg (by simpa using nothing)]
    apply then_ _ rfl
    rw [reread, nothing]
    exact staged.rest tail
  · rw [if_pos nothing, wp_bind]
    obtain ⟨⟨graph, sound, named⟩, declared, pending, error⟩ := staged
    obtain ⟨record, held, here⟩ := last_symbol ⟨graph, sound, named⟩ declared
    have none : record.assumptions = 0 := congrArg Declaration.assumptions here
    have called := wp_and (irAssume_declares held declaration.assumptions) (irAssume_spec sound (told.length + 1) declaration.assumptions)
    apply wp_calling (r := { u with rest := tail }) error (wp_mono called (fun _ _ both => both) (fun _ _ both => both.1.elim))
    rintro status context ⟨⟨accepts, declares⟩, later, -⟩
    rw [none, UInt32.zero_or] at accepts
    have accepted := accepts.mpr ⟨tellable.known, tellable.consistent⟩
    obtain ⟨grown, clear⟩ := declares accepted
    rw [if_neg (by simpa using accepted)]
    rw [declared, modify_last] at grown
    apply then_ _ rfl
    refine ⟨⟨graph, later, named⟩, ?_, clear.trans pending, error⟩
    rw [grown, reread, Declaration.assume, UInt32.zero_or]

structure Readable (entry : Name × Declaration) : Prop where
  spelled : entry.1 ≠ []
  fits : entry.1.length ≤ tokenMax
  tellable : Tellable entry.2

theorem declarationText_split (name : Name) (declaration : Declaration) (tail : List UInt8) :
    declarationText name declaration ++ tail = 40 :: (ascii "declare" ++ 32 :: (nameText name ++ (assumptionText declaration.assumptions ++
      ((orderedPairs declaration.pairs).flatMap pairText ++ 41 :: tail)))) := by
  simp [declarationText, ascii]

theorem nameText_no_space (spelled : name ≠ []) (tail : List UInt8) : (nameText name ++ tail).dropWhile isSpace = nameText name ++ tail := by
  by_cases bare : nameIsBare name = true
  · rw [nameText, if_pos bare]
    exact (bare_of_nameIsBare bare).no_space tail
  · rw [nameText, if_neg bare, List.append_assoc, List.cons_append, List.dropWhile_cons_of_neg (by decide)]

theorem parseDeclare_eq {good : Unit → Reading → Prop} {entry : Name × Declaration} (stage : Stage r names told)
    (same : told.length = names.length) (fresh : entry.1 ∉ names) (readable : Readable entry)
    (front : r.rest.dropWhile isSpace = declarationText entry.1 entry.2 ++ tail)
    (then_ : ∀ t, t.rest = tail → Stage t (names ++ [entry.1]) (told ++ [reread entry.2]) → good () t) : wp parseDeclare good OutOfRoom r := by
  rw [declarationText_split] at front
  generalize following : nameText entry.1 ++ (assumptionText entry.2.assumptions ++
    ((orderedPairs entry.2.pairs).flatMap pairText ++ 41 :: tail)) = text at front
  have bare : Bare (ascii "declare") := ⟨by decide, by decide +kernel, by decide⟩
  unfold parseDeclare
  rw [wp_bind]
  apply wp_expect front
  rw [wp_bind]
  apply readToken_bare bare (ends_cons (by decide) text) (by decide) (bare.no_space _)
  rw [if_neg (by simp)]
  apply parseDeclaration_eq (stage.rest (32 :: text)) same fresh readable.spelled readable.fits readable.tellable
  · rw [List.dropWhile_cons_of_pos (by decide), ← following, nameText_no_space readable.spelled]
  · exact then_

theorem declarationsText_no_space (entries : List (Name × Declaration)) : (declarationsText entries).dropWhile isSpace = declarationsText entries := by
  unfold declarationsText
  cases entries with
  | nil => rfl
  | cons entry rest =>
    rw [List.map_cons, joinedLines, declarationText_split, List.dropWhile_cons_of_neg (by decide)]

theorem parseDeclarations_eq {good : Unit → Reading → Prop} {entries : List (Name × Declaration)}
    (stage : Stage r names told) (same : told.length = names.length) (distinct : (names ++ entries.map Prod.fst).Nodup)
    (readable : ∀ entry ∈ entries, Readable entry) (enough : entries.length ≤ turns)
    (front : r.rest.dropWhile isSpace = declarationsText entries)
    (then_ : ∀ t, Stage t (names ++ entries.map Prod.fst) (told ++ entries.map fun entry => reread entry.2) → good () t) :
    wp (parseDeclarations turns) good OutOfRoom r := by
  induction entries generalizing r names told turns with
  | nil =>
    have finished := then_ { r with rest := [] } (by simpa using stage.rest [])
    cases turns with
    | zero =>
      unfold parseDeclarations skipSpace
      simp only [wp_bind, wp_modify, wp_get, front, declarationsText, List.map_nil, joinedLines, if_true, wp_pure]
      exact finished
    | succ turns =>
      unfold parseDeclarations skipSpace
      simp only [wp_bind, wp_modify, wp_get, front, declarationsText, List.map_nil, joinedLines, if_true, wp_pure]
      exact finished
  | cons entry rest ih =>
    cases turns with
    | zero => simp at enough
    | succ turns =>
      have lines : declarationsText (entry :: rest) = declarationText entry.1 entry.2 ++ (rest.map fun entry => declarationText entry.1 entry.2).flatMap (10 :: ·) := rfl
      have some : declarationsText (entry :: rest) ≠ [] := by
        rw [lines, declarationText_split]
        exact List.cons_ne_nil _ _
      have fresh : entry.1 ∉ names := by
        intro inside
        exact (List.nodup_append.mp distinct).2.2 entry.1 inside entry.1 (by simp) rfl
      unfold parseDeclarations skipSpace
      simp only [wp_bind, wp_modify, wp_get, front]
      rw [if_neg some, wp_bind]
      apply parseDeclare_eq (stage.rest _) same fresh (readable entry List.mem_cons_self)
      · exact (declarationsText_no_space (entry :: rest)).trans lines
      intro t left later
      apply ih later (by simp [same]) (by simpa using distinct) (fun other inside => readable other (List.mem_cons_of_mem _ inside))
        (by simpa using enough)
      · rw [left]
        cases rest with
        | nil => rfl
        | cons next more =>
          rw [List.map_cons, List.flatMap_cons, List.cons_append, List.dropWhile_cons_of_pos (by decide)]
          exact declarationsText_no_space (next :: more)
      · intro u final
        apply then_
        simpa using final

end PhyNspire.Ir.DeclarationReader

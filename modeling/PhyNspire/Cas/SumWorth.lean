import PhyNspire.Cas.GaussianWorth

/-!
Sums keep their value. The collector moves coefficients about, sorts and merges the terms, and drops
what has become zero; the sum of the terms stays what it was.
-/

namespace PhyNspire.Cas.Core
open Lib Lib.Stateful Lib.Trees Ir.Expressions Ir.Sums
open Values Reading
open SparsePoly (integerValue)

variable {truth : Truth}

theorem meets_countUp {β : Type} {body : Nat → β → CasM β} {good : β → Prop}
    (turn : ∀ i acc, good acc → Meets truth (body i acc) good) (remaining index : Nat) {acc : β} (start : good acc) :
    Meets truth (countUp body remaining index acc) good := fun s trusted =>
  wp_countUp (fun _ acc t => good acc ∧ Trusted truth t) remaining index acc s ⟨start, trusted⟩
    (fun i acc t _ _ held => turn i acc held.1 t held.2)

section Merging

variable {K : Type} [Field K] [DecidableEq K] (reading : Reading K) {label : Label} {W : Type}

/-- Weights of one key are merged into a weight of what they come to together. -/
def Joins (label : Label) (term : Expr × W → Expr) (truth : Truth) (join : W → W → CasM W) : Prop :=
  ∀ key a b, Meets truth (join a b) fun c => reading.Keeps (.node label [term (key, a), term (key, b)]) (term (key, c))

variable {reading} {term : Expr × W → Expr} {join : W → W → CasM W}

theorem meets_mergeRun (foldable : Foldable label) (joins : Joins reading label term truth join)
    (rest : List (Expr × W)) (current : Expr × W) : Meets truth (mergeRun join current rest) fun merged =>
      reading.Keeps (.node label ((current :: rest).map term)) (.node label (merged.map term)) := by
  induction rest generalizing current with
  | nil => exact meets_pure (.refl _)
  | cons next rest ih =>
    apply meets_ite
    · intro same
      obtain ⟨key, weight⟩ := current
      obtain ⟨_, weight'⟩ := next
      cases same
      apply (joins key weight weight').bind
      intro sum joined
      apply (ih (key, sum)).mono
      intro merged kept
      exact (keeps_join foldable joined).trans kept
    · intro _
      apply (ih next).bind
      intro merged kept
      apply meets_pure
      exact keeps_tail foldable kept

theorem meets_mergeEqual (foldable : Foldable label) (joins : Joins reading label term truth join)
    (pairs : List (Expr × W)) : Meets truth (mergeEqual join pairs) fun merged =>
      reading.Keeps (.node label (pairs.map term)) (.node label (merged.map term)) := by
  cases pairs with
  | nil => exact meets_pure (.refl _)
  | cons first rest => exact meets_mergeRun foldable joins rest first

theorem keeps_sortPairs [Inhabited W] (foldable : Foldable label) (pairs : List (Expr × W)) :
    reading.Keeps (.node label (pairs.map term)) (.node label ((sortPairs pairs).map term)) :=
  keeps_perm foldable ((Heapsort.heapsort_perm _ pairs).symm.map term)

variable (reading)

theorem meets_flatten (foldable : Foldable label) (operands : List Expr) :
    Meets truth (flatten label operands) fun flat => reading.Keeps (.node label operands) (.node label flat) := by
  apply meets_ite
  · intro _
    exact meets_pure (.refl _)
  · intro _
    exact meets_request.seq fun _ => meets_pure (keeps_flat foldable operands)

theorem meets_packOperands (foldable : Foldable label) {empty : Expr}
    (neutral : reading.eval empty = some (combine label [])) (operands : List Expr) :
    Meets truth (packOperands label empty operands) fun packed => reading.Keeps (.node label operands) packed := by
  unfold packOperands
  split
  · apply meets_pure
    intro p known
    rwa [eval_nil foldable, ← neutral] at known
  · apply meets_pure
    intro p known
    rwa [eval_single foldable] at known
  · apply (meets_irNary _ _).mono
    intro packed same
    exact same ▸ keeps_nary foldable operands

end Merging

section Sines

variable {K : Type} [Field K] [DecidableEq K] {reading : Reading K}

theorem trigSquaredArgument_of_eval {head : Name} {expr : Expr} {v : K} (known : reading.eval expr = some v) :
    trigSquaredArgument head expr = none := by
  unfold trigSquaredArgument
  split
  · obtain ⟨u, q, worth, _, _⟩ := eval_pow_some known
    rw [eval_function] at worth
    cases worth
  · rfl

theorem eval_of_mem {factors : List Expr} {values : List K} (known : reading.evalAll factors = some values) {factor : Expr}
    (inside : factor ∈ factors) : ∃ v, reading.eval factor = some v := by
  induction factors generalizing values with
  | nil => cases inside
  | cons first rest ih =>
    obtain ⟨value, rest', here, later, rfl⟩ := evalAll_cons_some.mp known
    rcases List.mem_cons.mp inside with rfl | inner
    · exact ⟨value, here⟩
    · exact ih later inner

theorem squaredSines_of_eval {factors : List Expr} {v : K} (known : reading.eval (.node .mul factors) = some v) :
    squaredSines factors = [] := by
  rw [eval_mul] at known
  obtain ⟨values, operands, _⟩ := Option.map_eq_some_iff.mp known
  apply List.filterMap_eq_nil_iff.mpr
  intro factor inside
  obtain ⟨u, worth⟩ := eval_of_mem operands (List.fst_mem_of_mem_zipIdx inside)
  rw [trigSquaredArgument_of_eval worth, Option.map_none]

theorem meets_trigSquared (head : Name) (argument : Expr) : Meets truth (trigSquared head argument) fun _ => True :=
  (meets_irNode _ _).seq fun _ => (meets_irNode _ _).seq fun _ => (meets_irNode _ _).trivial

theorem meets_remaining (factors : List Expr) : Meets truth (pythagoreanPartner.remaining factors) fun _ => True := by
  unfold pythagoreanPartner.remaining
  split
  · exact meets_pure trivial
  · exact (meets_irNary _ _).trivial

variable (reading)

theorem meets_pythagoreanPartner (key : Expr) (occurrence : Nat) : Meets truth (pythagoreanPartner key occurrence)
    fun found => (∃ v : K, reading.eval key = some v) → found = none := by
  unfold pythagoreanPartner
  split
  · rename_i argument sine
    have worthless : ¬∃ v : K, reading.eval key = some v := by
      intro known
      obtain ⟨v, known⟩ := known
      rw [trigSquaredArgument_of_eval known] at sine
      cases sine
    apply meets_ite
    · intro _
      exact meets_pure fun _ => rfl
    · intro _
      exact (meets_trigSquared _ _).seq fun _ => meets_pure fun known => absurd known worthless
  · split
    · rename_i factors _
      split
      · exact meets_pure fun _ => rfl
      · rename_i swap argument found
        have worthless : ¬∃ v : K, reading.eval (.node .mul factors) = some v := by
          intro known
          obtain ⟨v, known⟩ := known
          rw [squaredSines_of_eval known] at found
          cases found
        apply (meets_trigSquared _ _).seq
        intro cosine
        apply meets_request.seq
        intro _
        apply (meets_irNary _ _).seq
        intro partner
        exact (meets_remaining _).seq fun _ => meets_pure fun known => absurd known worthless
    · exact meets_pure fun _ => rfl

theorem meets_collapsePair (sum : SumPairs) (row other : Nat) (mine : ℚ) (base : Option Expr) :
    Meets truth (collapsePair sum row other mine base) fun _ => True := by
  cases base with
  | none => exact (meets_addExactNodes _ _).seq fun _ => meets_pure trivial
  | some base =>
    unfold collapsePair
    dsimp only
    split
    · exact (meets_addExactNodes _ _).seq fun _ => meets_pure trivial
    · exact meets_pure trivial

theorem meets_collapseOccurrences (sum : SumPairs) (row : Nat) (key : Expr) (turns occurrence : Nat) :
    Meets truth (collapseOccurrences sum row key turns occurrence) fun sum' =>
      (∃ v : K, reading.eval key = some v) → sum' = sum := by
  induction turns generalizing occurrence with
  | zero => exact meets_pure fun _ => rfl
  | succ turns ih =>
    apply (meets_pythagoreanPartner reading key occurrence).bind
    intro found absent
    split
    · exact meets_pure fun _ => rfl
    · split
      · exact ih _
      · dsimp only
        apply meets_ite
        · intro _
          exact (meets_collapsePair _ _ _ _ _).mono fun _ _ known => by cases absent known
        · intro _
          exact ih _

def KeysWorth (sum : SumPairs) : Prop :=
  ∀ pair ∈ sum.pairs, ∀ key ∈ pair.1, ∃ v, reading.eval key = some v

theorem meets_collapseRow (row : Nat) (sum : SumPairs) :
    Meets truth (collapseRow row sum) fun sum' => KeysWorth reading sum → sum' = sum := by
  unfold collapseRow
  split
  · exact meets_pure fun _ => rfl
  · rename_i key here
    apply (meets_collapseOccurrences reading sum row key _ _).mono
    intro sum' same worth
    apply same
    cases inside : sum.pairs[row]? with
    | none =>
      rw [List.getD_eq_getElem?_getD, inside, Option.getD_none] at here
      cases here
    | some pair =>
      rw [List.getD_eq_getElem?_getD, inside, Option.getD_some] at here
      exact worth pair (List.mem_of_getElem? inside) key here

theorem meets_collapsePythagorean (turns : Nat) (sum : SumPairs) : Meets truth (collapsePythagorean turns sum)
    fun sum' => KeysWorth reading sum → sum'.pairs = sum.pairs ∧ sum'.total = sum.total := by
  induction turns generalizing sum with
  | zero => exact meets_pure fun _ => ⟨rfl, rfl⟩
  | succ turns ih =>
    have pass : Meets truth (countUp collapseRow sum.pairs.length 0 { sum with changed := false }) fun sum' =>
        KeysWorth reading sum → sum' = { sum with changed := false } := by
      apply meets_countUp _ _ _ (fun _ => rfl)
      intro row sum' same
      apply (meets_collapseRow reading row sum').mono
      intro sum'' same' worth
      obtain rfl := same worth
      exact same' worth
    apply pass.bind
    intro sum' same
    apply meets_ite
    · intro changed
      apply (ih sum').mono
      intro sum'' _ worth
      rw [same worth] at changed
      cases changed
    · intro _
      apply meets_pure
      intro worth
      rw [same worth]
      exact ⟨rfl, rfl⟩

end Sines

section Terms

variable {K : Type} [Field K] [DecidableEq K] {reading : Reading K}

def sumTerm : Option Expr × ℚ → Expr
  | (none, _) => zero
  | (some key, coefficient) => .node .mul [exactNode coefficient, key]

def keyed {W : Type} (pairs : List (Expr × W)) : List (Option Expr × W) := pairs.map fun pair => (some pair.1, pair.2)

theorem eval_sumTerm {key : Expr} {q : ℚ} {p : K} : reading.eval (sumTerm (some key, q)) = some p ↔
    ∃ v, reading.eval key = some v ∧ p = q * v := by
  rw [sumTerm, eval_cons (.inr rfl), eval_exact, eval_single (.inr rfl)]
  constructor
  · intro parts
    obtain ⟨u, v, same, worth, rfl⟩ := parts
    cases same
    exact ⟨v, worth, by simp⟩
  · intro parts
    obtain ⟨v, worth, rfl⟩ := parts
    exact ⟨q, v, rfl, worth, by simp⟩

theorem keeps_dropZero {exprs : List Expr} :
    reading.Keeps (.node .add (exactNode 0 :: exprs)) (.node .add exprs) := by
  intro p known
  obtain ⟨u, v, same, worth, rfl⟩ := (eval_cons (.inl rfl)).mp known
  rw [eval_exact, Rat.cast_zero] at same
  cases same
  rw [worth, combine_add, List.sum_pair, zero_add]

theorem keeps_addZero (exprs : List Expr) :
    reading.Keeps (.node .add exprs) (.node .add (exactNode 0 :: exprs)) := by
  intro p known
  refine (eval_cons (.inl rfl)).mpr ⟨0, p, by rw [eval_exact, Rat.cast_zero], known, ?_⟩
  rw [combine_add, List.sum_pair, zero_add]

variable (reading)

theorem meets_splitCoefficient (term : Expr) : Meets truth (splitCoefficient term) fun pair =>
    reading.Keeps term (sumTerm (some pair.1, pair.2)) := by
  have whole : reading.Keeps term (sumTerm (some term, 1)) := by
    intro p known
    exact eval_sumTerm.mpr ⟨p, known, by rw [Rat.cast_one, one_mul]⟩
  unfold splitCoefficient
  split
  · rename_i first rest
    split
    · exact meets_pure whole
    · rename_i coefficient number
      obtain rfl := exactOf_some number
      split
      · exact meets_pure (.refl _)
      · apply meets_request.seq
        intro _
        apply (meets_irNary _ _).bind
        intro product same
        apply meets_pure
        intro p known
        obtain ⟨u, v, here, worth, rfl⟩ := (eval_cons (.inr rfl)).mp known
        rw [eval_exact] at here
        cases here
        exact eval_sumTerm.mpr ⟨v, same ▸ keeps_nary (.inr rfl) rest v worth, by simp⟩
  · exact meets_pure whole

theorem meets_weighted (key : Expr) (coefficient : ℚ) : Meets truth (buildTerms.weighted key coefficient) fun term =>
    reading.Keeps (sumTerm (some key, coefficient)) term := by
  apply meets_ite
  · intro one
    apply meets_pure
    intro p known
    obtain ⟨v, worth, rfl⟩ := eval_sumTerm.mp known
    rw [worth, one, Rat.cast_one, one_mul]
  · intro _
    apply (meets_irNary _ _).mono
    intro term same
    exact same ▸ keeps_nary (.inr rfl) _

theorem meets_buildTerms (pairs : List (Option Expr × ℚ)) : Meets truth (buildTerms pairs) fun terms =>
    reading.Keeps (.node .add (pairs.map sumTerm)) (.node .add terms) := by
  induction pairs with
  | nil => exact meets_pure (.refl _)
  | cons pair rest ih =>
    obtain ⟨key, coefficient⟩ := pair
    cases key with
    | none =>
      apply ih.mono
      intro terms kept
      exact keeps_dropZero.trans kept
    | some key =>
      apply meets_ite
      · intro zero
        apply ih.mono
        intro terms kept
        refine Keeps.trans (keeps_head (.inl rfl) ?_) (keeps_dropZero.trans kept)
        intro p known
        obtain ⟨v, _, rfl⟩ := eval_sumTerm.mp known
        rw [zero, Rat.cast_zero, zero_mul, eval_exact, Rat.cast_zero]
      · intro _
        apply (meets_weighted reading key coefficient).bind
        intro term worth
        apply ih.bind
        intro terms kept
        apply meets_pure
        exact (keeps_head (.inl rfl) worth).trans (keeps_tail (.inl rfl) kept)

theorem keysWorth_of_eval {pairs : List (Expr × ℚ)} {p : K}
    (known : reading.eval (.node .add ((keyed pairs).map sumTerm)) = some p) (total : ℚ) :
    KeysWorth reading ⟨keyed pairs, total, false⟩ := by
  rw [eval_add] at known
  obtain ⟨values, operands, _⟩ := Option.map_eq_some_iff.mp known
  intro pair inside key here
  obtain ⟨v, worth⟩ := eval_of_mem operands (List.mem_map_of_mem inside)
  obtain ⟨key', coefficient⟩ := pair
  cases here
  obtain ⟨u, worth', _⟩ := eval_sumTerm.mp worth
  exact ⟨u, worth'⟩

theorem keeps_total (terms : List Expr) (total : ℚ) : reading.Keeps (.node .add (exactNode total :: terms))
    (.node .add (if total = 0 then terms else terms ++ [exactNode total])) := by
  split
  · rename_i zero
    rw [zero]
    exact keeps_dropZero
  · exact keeps_perm (.inl rfl) (List.perm_append_singleton _ _).symm

variable [CharZero K]

theorem keeps_exactSum (p q : ℚ) : reading.Keeps (.node .add [exactNode p, exactNode q]) (exactNode (p + q)) := by
  intro value known
  simpa [evalAll_cons] using known

theorem meets_splitTerms (terms : List Expr) (total : ℚ) : Meets truth (splitTerms terms total) fun split =>
    reading.Keeps (.node .add (exactNode total :: terms))
      (.node .add (exactNode split.2 :: (keyed split.1).map sumTerm)) := by
  induction terms generalizing total with
  | nil => exact meets_pure (.refl _)
  | cons term rest ih =>
    unfold splitTerms
    split
    · rename_i q number
      obtain rfl := exactOf_some number
      apply (meets_addExactNodes total q).bind
      intro sum same
      apply (ih sum).mono
      intro split kept
      exact (keeps_join (.inl rfl) (same ▸ keeps_exactSum reading total q)).trans kept
    · apply (meets_splitCoefficient reading term).bind
      intro pair worth
      apply (ih total).bind
      intro split kept
      apply meets_pure
      -- the term steps in front of the total and back
      have front : reading.Keeps (.node .add (exactNode total :: term :: rest)) (.node .add (term :: exactNode total :: rest)) :=
        keeps_perm (.inl rfl) (List.Perm.swap _ _ _)
      have back : reading.Keeps
          (.node .add (sumTerm (some pair.1, pair.2) :: exactNode split.2 :: (keyed split.1).map sumTerm))
          (.node .add (exactNode split.2 :: sumTerm (some pair.1, pair.2) :: (keyed split.1).map sumTerm)) :=
        keeps_perm (.inl rfl) (List.Perm.swap _ _ _)
      exact front.trans ((keeps_head (.inl rfl) worth).trans ((keeps_tail (.inl rfl) kept).trans back))

theorem joins_addExactNodes :
    Joins reading .add (fun pair => sumTerm (some pair.1, pair.2)) truth addExactNodes := by
  intro key a b
  apply (meets_addExactNodes a b).mono
  intro c same value known
  obtain ⟨u, w, here, later, rfl⟩ := (eval_cons (.inl rfl)).mp known
  rw [eval_single (.inl rfl)] at later
  obtain ⟨v, worth, rfl⟩ := eval_sumTerm.mp here
  obtain ⟨v', worth', rfl⟩ := eval_sumTerm.mp later
  rw [worth] at worth'
  cases worth'
  refine eval_sumTerm.mpr ⟨v, worth, ?_⟩
  rw [same, combine_add, List.sum_pair]
  push_cast
  ring

theorem meets_collectSum (terms : List Expr) :
    Meets truth (collectSum terms) fun sum => reading.Keeps (.node .add terms) sum := by
  apply meets_request.seq
  intro _
  apply (meets_splitTerms reading terms 0).bind
  intro split parts
  apply (meets_mergeEqual (.inl rfl) (joins_addExactNodes reading) (sortPairs split.1)).bind
  intro merged kept
  apply (meets_collapsePythagorean reading _ _).bind
  intro sum unchanged
  apply meets_request.seq
  intro _
  apply (meets_buildTerms reading sum.pairs).bind
  intro built worth
  apply (meets_packOperands reading (.inl rfl) (by simp [zero]) _).mono
  intro packed last p known
  have split' := parts p (keeps_addZero terms p known)
  obtain ⟨u, v, here, later, rfl⟩ := (eval_cons (.inl rfl)).mp split'
  have sorted := (keeps_sortPairs (.inl rfl) split.1).trans kept
  simp only [keyed, List.map_map] at later
  have same := sorted v later
  have inMerged : reading.eval (.node .add ((keyed merged).map sumTerm)) = some v := by
    rw [keyed, List.map_map]
    exact same
  obtain ⟨pairs, total⟩ := unchanged (keysWorth_of_eval reading inMerged split.2)
  rw [pairs] at worth
  apply last
  apply keeps_total
  rw [total]
  exact (eval_cons (.inl rfl)).mpr ⟨u, v, here, worth v inMerged, rfl⟩

theorem meets_addAt (operands : List Expr) :
    Meets truth (addAt operands) fun sum => reading.Keeps (.node .add operands) sum := by
  apply meets_ite
  · intro empty
    apply meets_pure
    intro p known
    rw [empty, eval_nil (.inl rfl)] at known
    rw [← known]
    simp [zero]
  · intro _
    apply (meets_gaussianFold_add reading operands).bind
    intro found worth
    split
    · exact meets_pure (worth _ rfl)
    · apply (meets_flatten reading (.inl rfl) operands).bind
      intro terms flat
      apply (meets_collectSum reading terms).mono
      intro sum kept
      exact flat.trans kept

end Terms

theorem meets_addAt_exact (p q : ℚ) :
    Meets truth (addAt [exactNode p, exactNode q]) fun sum => sum = exactNode (p + q) := by
  have numbers : [exactNode p, exactNode q].any nodeContainsI = false := rfl
  have flat : flatten .add [exactNode p, exactNode q] = pure [exactNode p, exactNode q] := by
    unfold flatten
    rw [if_pos (by simp [contribution, exactNode, Rose.label])]
  have split : Meets truth (splitTerms [exactNode p, exactNode q] 0) fun split => split = ([], p + q) := by
    apply (meets_addExactNodes 0 p).bind
    intro first same
    apply (meets_addExactNodes first q).bind
    intro second same'
    apply meets_pure
    rw [same', same, zero_add]
  unfold addAt gaussianFoldAt
  rw [if_neg (by simp), if_neg (by rw [numbers]; simp), pure_bind, flat]
  dsimp only
  rw [pure_bind]
  apply meets_request.seq
  intro _
  apply split.bind
  rintro _ rfl
  apply meets_request.seq
  intro _
  by_cases zero : p + q = 0
  · rw [zero]
    exact meets_pure rfl
  · have last : ([] ++ [exactNode (p + q)] : List Expr) = [exactNode (p + q)] := rfl
    simp only [zero, if_false, buildTerms, pure_bind, last, packOperands]
    exact meets_pure rfl

end PhyNspire.Cas.Core

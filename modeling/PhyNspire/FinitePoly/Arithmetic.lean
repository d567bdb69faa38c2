import PhyNspire.FinitePoly.Dense
import PhyNspire.Lib.CoefficientLists

/-!
What the loops of finite_poly.c compute: coefficient arrays as polynomials over the prime
field, and the sums, differences, multiples and products of arrays.

How a computation spends its budget is left open here; what is specified is its result, and
that it never reports a corrupt document.
-/

namespace PhyNspire.FinitePoly.Arithmetic
open Platform Lib.Stateful Lib.CoefficientLists Residues Dense Polynomial

/-- Whenever the program returns, its result satisfies `result`; when it stops, it is not
because of a corrupt document. -/
def Computes {α : Type} (program : FpolyM α) (result : α → Prop) : Prop :=
  ∀ b, wp program (fun value _ => result value) (fun stop _ => stop ≠ .corruptDocument) b

section
variable {α β : Type} {program : FpolyM α} {result result' : α → Prop}

theorem Computes.pure {value : α} (held : result value) : Computes (pure value) result := fun _ => held

theorem Computes.throw {stop : Status} (harmless : stop ≠ .corruptDocument) :
    Computes (throw stop : FpolyM α) result := fun _ => harmless

theorem Computes.mono (computes : Computes program result) (weaker : ∀ value, result value → result' value) :
    Computes program result' :=
  fun b => wp_good (computes b) (fun value _ held => weaker value held)

theorem Computes.bind {next : α → FpolyM β} {result : β → Prop} {middle : α → Prop} (first : Computes program middle)
    (second : ∀ value, middle value → Computes (next value) result) : Computes (program >>= next) result := by
  intro b
  exact wp_then (first b) fun value t held => second value held t

theorem Computes.ite {condition : Prop} [Decidable condition] {first second : FpolyM α}
    (taken : condition → Computes first result) (skipped : ¬condition → Computes second result) :
    Computes (if condition then first else second) result :=
  fun b => wp_ite (fun held => taken held b) (fun failed => skipped failed b)

end

variable (c : FpolyContext)

theorem computes_step (amount : Nat) : Computes (step c amount) fun _ => True :=
  fun b => step_spec c amount b (fun _ => trivial) (fun _ => by decide) (fun _ => by decide)

noncomputable def value (words : List Nat) : (ZMod c.prime)[X] :=
  ofCoefficients (words.map (Nat.cast : Nat → ZMod c.prime))

def Reduced (words : List Nat) : Prop := ∀ word ∈ words, word < c.prime

structure Clean (words : List Nat) : Prop where
  reduced : Reduced c words
  trimmed : words.getLast? ≠ some 0

variable {c}
variable {words words' left right : List Nat}

@[simp] theorem value_nil : value c [] = 0 := rfl

theorem value_one : value c [1] = 1 := by simp [value]

theorem reduced_nil : Reduced c [] := fun _ member => absurd member List.not_mem_nil

theorem clean_nil : Clean c [] := ⟨reduced_nil, by simp⟩

theorem clean_one : Clean c [1] := by
  refine ⟨fun word member => ?_, by simp⟩
  rw [List.mem_singleton.mp member]
  exact two_le_prime c

theorem Reduced.getD (reduced : Reduced c words) (i : Nat) : words.getD i 0 < c.prime := by
  rw [List.getD_eq_getElem?_getD]
  cases found : words[i]? with
  | none => exact prime_pos c
  | some word => exact reduced word (List.mem_of_getElem? found)

theorem Reduced.set (reduced : Reduced c words) (i : Nat) {word : Nat} (less : word < c.prime) :
    Reduced c (words.set i word) := by
  intro other member
  rcases List.mem_or_eq_of_mem_set member with old | rfl
  · exact reduced other old
  · exact less

theorem reduced_replicate (count : Nat) : Reduced c (List.replicate count 0) := fun _ member =>
  (List.eq_of_mem_replicate member) ▸ prime_pos c

theorem reduced_tabulate {α : Type} (items : List α) (word : α → Nat) (less : ∀ item ∈ items, word item < c.prime) :
    Reduced c (items.map word) := by
  intro other member
  obtain ⟨item, inside, rfl⟩ := List.mem_map.mp member
  exact less item inside

theorem value_cons (word : Nat) (words : List Nat) :
    value c (word :: words) = C (word : ZMod c.prime) + X * value c words := rfl

theorem coeff_value (words : List Nat) (i : Nat) : (value c words).coeff i = (words.getD i 0 : ZMod c.prime) := by
  rw [value, coeff_ofCoefficients, List.getD_eq_getElem?_getD, List.getElem?_map, List.getD_eq_getElem?_getD]
  cases words[i]? <;> simp

theorem value_degree_lt (words : List Nat) : (value c words).degree < words.length := by
  simpa only [value, List.length_map] using degree_lt (words.map (Nat.cast : Nat → ZMod c.prime))

theorem value_replicate_zero (count : Nat) : value c (List.replicate count 0) = 0 := by
  rw [value, List.map_replicate, Nat.cast_zero, ofCoefficients_replicate_zero]

theorem value_set {i : Nat} (inside : i < words.length) (word : Nat) :
    value c (words.set i word) = value c words + C ((word : ZMod c.prime) - words.getD i 0) * X ^ i := by
  rw [value, List.map_set, ofCoefficients_set (by rwa [List.length_map]), ← value,
    ← coeff_ofCoefficients, ← value, coeff_value]

theorem value_tabulate (length : Nat) (word : Nat → Nat) (f : (ZMod c.prime)[X]) (short : f.degree < length)
    (same : ∀ i < length, (word i : ZMod c.prime) = f.coeff i) : value c ((List.range length).map word) = f := by
  ext i
  rw [coeff_value, List.getD_eq_getElem?_getD, List.getElem?_map]
  by_cases inside : i < length
  · simp [List.getElem?_range inside, same i inside]
  · have past := degree_lt_iff_coeff_zero f length |>.mp short i (Nat.le_of_not_lt inside)
    simp [Nat.le_of_not_lt inside, past]

theorem Clean.trimmed_cast (clean : Clean c words) : Trimmed (words.map (Nat.cast : Nat → ZMod c.prime)) := by
  intro nonempty
  have nonempty' : words ≠ [] := fun empty => nonempty (by rw [empty]; rfl)
  rw [List.getLast_map, Ne, word_cast_eq_zero (clean.reduced _ (List.getLast_mem nonempty'))]
  intro zero
  exact clean.trimmed (by rw [List.getLast?_eq_some_getLast nonempty', zero])

theorem Clean.eq_zero_iff (clean : Clean c words) : value c words = 0 ↔ words = [] := by
  rw [value, clean.trimmed_cast.eq_zero_iff, List.map_eq_nil_iff]

theorem Clean.length_eq_zero_iff (clean : Clean c words) : words.length = 0 ↔ value c words = 0 := by
  rw [clean.eq_zero_iff, List.length_eq_zero_iff]

theorem Clean.natDegree (clean : Clean c words) : (value c words).natDegree = words.length - 1 := by
  by_cases empty : words = []
  · simp [empty]
  · have nonempty : (words.map (Nat.cast : Nat → ZMod c.prime)) ≠ [] := by simpa using empty
    have degree := clean.trimmed_cast.natDegree nonempty
    rwa [List.length_map] at degree

theorem Clean.degree (clean : Clean c words) (nonempty : words ≠ []) :
    (value c words).degree = ((words.length - 1 : Nat) : WithBot Nat) := by
  rw [degree_eq_natDegree (clean.eq_zero_iff.not.mpr nonempty), clean.natDegree]

theorem leading_cast (words : List Nat) : (leading words : ZMod c.prime) = (value c words).coeff (words.length - 1) := by
  rw [leading, coeff_value]

theorem Clean.leadingCoeff (clean : Clean c words) : (value c words).leadingCoeff = leading words := by
  rw [Polynomial.leadingCoeff, clean.natDegree, leading_cast]

theorem Clean.leading_ne_zero (clean : Clean c words) (nonempty : words ≠ []) :
    (leading words : ZMod c.prime) ≠ 0 := by
  rw [← clean.leadingCoeff]
  exact leadingCoeff_ne_zero.mpr (clean.eq_zero_iff.not.mpr nonempty)

theorem Clean.length_le_of_degree_lt (clean : Clean c words) {bound : Nat} (below : (value c words).degree < bound) :
    words.length ≤ bound := by
  have length := clean.trimmed_cast.length_le_of_degree_lt below
  rwa [List.length_map] at length

theorem Clean.degree_lt_iff (clean : Clean c words) (clean' : Clean c words') (nonempty : words' ≠ []) :
    (value c words).degree < (value c words').degree ↔ words.length < words'.length := by
  have positive := List.length_pos_of_ne_nil nonempty
  rw [clean'.degree nonempty]
  constructor
  · intro below
    have := clean.length_le_of_degree_lt below
    omega
  · intro shorter
    refine lt_of_lt_of_le (value_degree_lt words) ?_
    exact_mod_cast (by omega : words.length ≤ words'.length - 1)

theorem Clean.unique (clean : Clean c words) (clean' : Clean c words') (same : value c words = value c words') :
    words = words' := by
  have lists := clean.trimmed_cast.unique clean'.trimmed_cast same
  have length : words.length = words'.length := by simpa using congrArg List.length lists
  refine List.ext_getElem length fun i inside inside' => ?_
  have entry := congrArg (fun l => l[i]?) lists
  simp only [List.getElem?_map, List.getElem?_eq_getElem inside, List.getElem?_eq_getElem inside', Option.map_some,
    Option.some.injEq] at entry
  exact word_cast_injective (clean.reduced _ (List.getElem_mem inside)) (clean'.reduced _ (List.getElem_mem inside')) entry

theorem wordsValid_iff : wordsValid c words = true ↔ words.length ≤ c.limits.maxDegree.toNat + 1 ∧ Clean c words := by
  simp only [wordsValid, Bool.and_eq_true, decide_eq_true_eq, List.all_eq_true, and_assoc]
  exact and_congr_right fun _ => ⟨fun ⟨trimmed, reduced⟩ => ⟨reduced, trimmed⟩, fun clean => ⟨clean.trimmed, clean.reduced⟩⟩

theorem fpolyCoefficient_valid (valid : wordsValid c words = true) (i : Nat) :
    fpolyCoefficient c words i = words.getD i 0 := if_pos valid

theorem trim_part (words : List Nat) : trim words <+: words := List.rdropWhile_prefix _ words

theorem trim_append (words : List Nat) : ∃ count, words = trim words ++ List.replicate count 0 := by
  have whole : trim words ++ words.rtakeWhile (fun word => decide (word = 0)) = words :=
    List.rdropWhile_append_rtakeWhile
  refine ⟨(words.rtakeWhile fun word => decide (word = 0)).length, ?_⟩
  rw [← List.eq_replicate_of_mem (a := 0) fun word member => by simpa using List.mem_rtakeWhile_imp member, whole]

theorem trim_last (words : List Nat) (nonempty : trim words ≠ []) : (trim words).getLast nonempty ≠ 0 := by
  intro zero
  exact List.rdropWhile_last_not (fun word => decide (word = 0)) words nonempty (decide_eq_true zero)

theorem value_trim (words : List Nat) : value c (trim words) = value c words := by
  obtain ⟨count, split⟩ := trim_append words
  conv_rhs => rw [split]
  rw [value, value, List.map_append, ofCoefficients_append, ← value, ← value, value_replicate_zero, mul_zero, add_zero]

theorem Reduced.trim (reduced : Reduced c words) : Reduced c (trim words) :=
  fun word member => reduced word ((trim_part words).subset member)

theorem trim_clean (reduced : Reduced c words) : Clean c (trim words) := by
  refine ⟨reduced.trim, fun zero => ?_⟩
  have nonempty : trim words ≠ [] := by
    intro empty
    rw [empty] at zero
    cases zero
  rw [List.getLast?_eq_some_getLast nonempty, Option.some_inj] at zero
  exact trim_last words nonempty zero

theorem trim_length_le (words : List Nat) : (trim words).length ≤ words.length := (trim_part words).length_le

theorem trim_length_lt (nonempty : words ≠ []) (zero : leading words = 0) : (trim words).length < words.length := by
  rcases Nat.lt_or_eq_of_le (trim_length_le words) with less | same
  · exact less
  · exfalso
    have whole : trim words = words := (trim_part words).eq_of_length same
    have last := trim_last words (by rwa [whole])
    have inside : words.length - 1 < words.length := Nat.sub_lt (List.length_pos_of_ne_nil nonempty) Nat.one_pos
    rw [leading, List.getD_eq_getElem _ _ inside] at zero
    refine last ?_
    rw [List.getLast_congr _ nonempty whole, List.getLast_eq_getElem]
    exact zero

theorem computes_tabulate (word : Nat → Nat) (indices : List Nat) :
    Computes (tabulate c word indices) (· = indices.map word) := by
  induction indices with
  | nil => exact .pure rfl
  | cons index indices ih =>
    refine .bind (computes_step c 1) fun _ _ => .bind ih ?_
    rintro _ rfl
    exact .pure rfl

variable (c) in
/-- A combination of words is the addition of a multiple. -/
def Combines (combine : Nat → Nat → Nat → Nat) (sign : ZMod c.prime) : Prop :=
  ∀ left right, left < c.prime → right < c.prime →
    combine left right c.prime < c.prime ∧ (combine left right c.prime : ZMod c.prime) = left + sign * right

theorem combines_add : Combines c addMod 1 := fun _ _ less less' =>
  ⟨addMod_lt less less', by rw [addMod_cast, one_mul]⟩

theorem combines_subtract : Combines c subtractMod (-1) := fun _ _ less less' =>
  ⟨subtractMod_lt less less', by rw [subtractMod_cast less']; ring⟩

theorem computes_accumulate {combine : Nat → Nat → Nat → Nat} {sign : ZMod c.prime} (combines : Combines c combine sign)
    (factor : Nat) (row : List Nat) (index : Nat) (target : List Nat) (reduced : Reduced c target)
    (inside : index + row.length ≤ target.length) :
    Computes (accumulate c combine factor row index target) fun out =>
      out.length = target.length ∧ Reduced c out ∧
        value c out = value c target + C (sign * factor) * X ^ index * value c row := by
  induction row generalizing index target with
  | nil => exact .pure ⟨rfl, reduced, by simp⟩
  | cons word row ih =>
    refine .bind (computes_step c 1) fun _ _ => ?_
    have here : index < target.length := by
      rw [List.length_cons] at inside
      omega
    obtain ⟨less, combined⟩ := combines _ (multiplyMod factor word c.prime) (reduced.getD index) multiplyMod_lt
    refine (ih (index + 1) _ (reduced.set index less) ?_).mono ?_
    · rw [List.length_set]
      rw [List.length_cons] at inside
      omega
    · rintro out ⟨length, reduced_out, result⟩
      refine ⟨by rw [length, List.length_set], reduced_out, ?_⟩
      have step : (combine (target.getD index 0) (multiplyMod factor word c.prime) c.prime : ZMod c.prime) -
          target.getD index 0 = sign * factor * word := by
        rw [combined, multiplyMod_cast]
        ring
      rw [result, value_set here, step, value_cons, C_mul]
      ring

theorem scaleWords_eq (words : List Nat) (scalar : Nat) : Computes (scaleWords c words scalar) fun out =>
    out.length = words.length ∧ Reduced c out ∧ value c out = C (scalar : ZMod c.prime) * value c words := by
  refine (computes_tabulate _ _).mono ?_
  rintro _ rfl
  refine ⟨by simp, reduced_tabulate _ _ fun _ _ => multiplyMod_lt, value_tabulate _ _ _ ?_ fun i _ => ?_⟩
  · refine (degree_lt_iff_coeff_zero _ _).mpr fun i above => ?_
    rw [coeff_C_mul, (degree_lt_iff_coeff_zero _ _).mp (value_degree_lt words) i above, mul_zero]
  · rw [multiplyMod_cast, coeff_C_mul, coeff_value, mul_comm]

theorem computes_combineWords {combine : Nat → Nat → Nat → Nat} {sign : ZMod c.prime}
    (combines : Combines c combine sign) (valid : wordsValid c left = true) (valid' : wordsValid c right = true) :
    Computes (combineWords c combine left right) fun out =>
      out.length = max left.length right.length ∧ Reduced c out ∧
        value c out = value c left + C sign * value c right := by
  have clean := (wordsValid_iff.mp valid).2
  have clean' := (wordsValid_iff.mp valid').2
  have word := fun i => combines _ _ (clean.reduced.getD i) (clean'.reduced.getD i)
  refine (computes_tabulate _ _).mono ?_
  rintro _ rfl
  simp only [fpolyCoefficient_valid valid, fpolyCoefficient_valid valid']
  refine ⟨by simp, reduced_tabulate _ _ fun i _ => (word i).1, value_tabulate _ _ _ ?_ fun i _ => ?_⟩
  · refine (degree_lt_iff_coeff_zero _ _).mpr fun i above => ?_
    have past := max_le_iff.mp above
    rw [coeff_add, coeff_C_mul, (degree_lt_iff_coeff_zero _ _).mp (value_degree_lt left) i past.1,
      (degree_lt_iff_coeff_zero _ _).mp (value_degree_lt right) i past.2, mul_zero, add_zero]
  · rw [(word i).2, coeff_add, coeff_C_mul, coeff_value, coeff_value]

theorem computes_multiplyRows (left : List Nat) (index : Nat) (target : List Nat) (reduced : Reduced c target)
    (inside : left.length = 0 ∨ index + left.length + right.length ≤ target.length + 1) :
    Computes (multiplyRows c right left index target) fun out =>
      out.length = target.length ∧ Reduced c out ∧
        value c out = value c target + X ^ index * value c left * value c right := by
  induction left generalizing index target with
  | nil => exact .pure ⟨rfl, reduced, by simp⟩
  | cons word left ih =>
    have room : index + (left.length + 1) + right.length ≤ target.length + 1 := by
      simpa using inside
    refine .bind (computes_accumulate combines_add word right index target reduced (by omega)) ?_
    rintro middle ⟨length, reduced_middle, result⟩
    refine (ih (index + 1) middle reduced_middle (.inr (by omega))).mono ?_
    rintro out ⟨length', reduced_out, result'⟩
    refine ⟨length'.trans length, reduced_out, ?_⟩
    rw [result', result, one_mul, value_cons]
    ring

end PhyNspire.FinitePoly.Arithmetic

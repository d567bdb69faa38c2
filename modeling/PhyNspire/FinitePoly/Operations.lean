import PhyNspire.FinitePoly.Calls
import PhyNspire.FinitePoly.Euclid

/-!
Every public operation on polynomial objects is the operation of the polynomial ring over the
prime field, and changes nothing when it stops early.
-/

namespace PhyNspire.FinitePoly.Operations
open Platform Lib.Stateful Residues Dense Calls Arithmetic Division Euclid Polynomial

def Holds (w : Workspace) (c : FpolyContext) (p : Nat) (f : (ZMod c.prime)[X]) : Prop :=
  ∃ id b words, w.objects p = some ⟨id, words⟩ ∧ w.contexts id = some (c, b) ∧ wordsValid c words = true ∧
    value c words = f

/-- What an operation has computed. -/
def Yields : FpolyCall → Workspace → Option Bool → Workspace → Prop
  | .set p coefficients, _, _, t =>
      ∃ c f, Holds t c p f ∧ ∀ i, f.coeff i = ((coefficients.getD i 0).toNat : ZMod c.prime)
  | .copy source destination, w, _, t => ∃ c f, Holds w c source f ∧ Holds t c destination f
  | .add left right out, w, _, t => ∃ c f g, Holds w c left f ∧ Holds w c right g ∧ Holds t c out (f + g)
  | .subtract left right out, w, _, t => ∃ c f g, Holds w c left f ∧ Holds w c right g ∧ Holds t c out (f - g)
  | .multiply left right out, w, _, t => ∃ c f g, Holds w c left f ∧ Holds w c right g ∧ Holds t c out (f * g)
  | .mulmod left right modulus out, w, _, t =>
      ∃ c f g m, Holds w c left f ∧ Holds w c right g ∧ Holds w c modulus m ∧ m ≠ 0 ∧ Holds t c out (f * g % m)
  | .powmod base exponent modulus out, w, _, t =>
      ∃ c f m, Holds w c base f ∧ Holds w c modulus m ∧ m ≠ 0 ∧ Holds t c out (f ^ exponent.toNat % m)
  | .derivative p out, w, _, t => ∃ c f, Holds w c p f ∧ Holds t c out (derivative f)
  | .divrem dividend divisor quotient remainder, w, _, t =>
      ∃ c f d q r, Holds w c dividend f ∧ Holds w c divisor d ∧ Holds t c quotient q ∧ Holds t c remainder r ∧
        f = q * d + r ∧ r.degree < d.degree
  | .gcd left right out, w, _, t =>
      ∃ c f g, Holds w c left f ∧ Holds w c right g ∧ Holds t c out (normalize (EuclideanDomain.gcd f g))
  | .xgcd left right out leftCofactor rightCofactor, w, _, t =>
      ∃ c f g h l r, Holds w c left f ∧ Holds w c right g ∧ Holds t c out h ∧ Holds t c leftCofactor l ∧
        Holds t c rightCofactor r ∧ h = normalize (EuclideanDomain.gcd f g) ∧ l * f + r * g = h
  | .isSquareFree p, w, answer, _ =>
      ∃ c f, Holds w c p f ∧
        (0 < f.natDegree → (answer = some true ↔ IsUnit (EuclideanDomain.gcd f (derivative f))))

structure Operand (w : Workspace) (id : Nat) (c : FpolyContext) (p : Nat) : Prop where
  located : w.objects p = some ⟨id, w.wordsOf p⟩
  valid : wordsValid c (w.wordsOf p) = true

variable {w t : Workspace} {id : Nat} {c : FpolyContext} {b : Budget} {p q left right out : Nat}

theorem Operand.clean (operand : Operand w id c p) : Clean c (w.wordsOf p) := (wordsValid_iff.mp operand.valid).2

theorem Operand.holds (operand : Operand w id c p) (context : w.contexts id = some (c, b)) :
    Holds w c p (value c (w.wordsOf p)) := ⟨id, b, _, operand.located, context, operand.valid, rfl⟩

theorem polynomialValid_operand (valid : w.polynomialValid p = true) :
    ∃ id c b, w.contexts id = some (c, b) ∧ Operand w id c p := by
  unfold Workspace.polynomialValid Workspace.validFpoly at valid
  cases found : w.objects p with
  | none =>
    rw [found] at valid
    cases valid
  | some f =>
    rw [found] at valid
    cases context : w.contexts f.context with
    | none => simp only [context] at valid; cases valid
    | some pair =>
      have words : w.wordsOf p = f.words := by rw [Workspace.wordsOf, found]; rfl
      simp only [context] at valid
      refine ⟨f.context, pair.1, pair.2, context, ?_, ?_⟩ <;> rw [words]
      · exact found
      · exact valid

theorem operand_sameContext (context : w.contexts id = some (c, b)) (operand : Operand w id c p)
    (valid : w.polynomialValid q = true) (same : w.sameContext p q = true) : Operand w id c q := by
  obtain ⟨id', c', b', context', operand'⟩ := polynomialValid_operand valid
  have ids : id = id' := by
    simpa [Workspace.sameContext, Workspace.contextOf, operand.located, operand'.located] using same
  subst ids
  rw [context] at context'
  cases context'
  exact operand'

theorem compatible_operands (checked : w.compatible left right out = true) :
    ∃ id c b, w.contexts id = some (c, b) ∧ Operand w id c left ∧ Operand w id c right ∧ Operand w id c out := by
  simp only [Workspace.compatible, Bool.and_eq_true] at checked
  obtain ⟨⟨⟨⟨first, second⟩, third⟩, same⟩, same'⟩ := checked
  obtain ⟨id, c, b, context, operand⟩ := polynomialValid_operand first
  exact ⟨id, c, b, context, operand, operand_sameContext context operand second same,
    operand_sameContext context operand third same'⟩

theorem onContext_spec {α : Type} {body : FpolyContext → FpolyM α} {result : α → Prop} (operand : Operand w id c p)
    (context : w.contexts id = some (c, b)) (computes : Computes (body c) result) :
    wp (onContext p body) (fun value t => result value ∧ ∃ b', t = w.withBudget id c b')
      (fun stop t => stop ≠ .corruptDocument ∧ ∃ b', t = w.withBudget id c b') w := by
  have held := computes b
  unfold wp at held ⊢
  unfold onContext
  simp only [operand.located, context]
  cases run : body c b with
  | ok value b' =>
    rw [run] at held
    exact ⟨held, b', rfl⟩
  | error stop b' =>
    rw [run] at held
    exact ⟨held, b', rfl⟩

theorem computes_begin {α : Type} {program : FpolyM α} {result : α → Prop} (computes : Computes program result) :
    Computes (beginOperation c >>= fun _ => program) result := by
  have begins : Computes (beginOperation c) fun _ => True :=
    fun b => beginOperation_spec c b (fun _ => trivial) (fun _ => by decide)
  exact .bind begins fun _ _ => computes

theorem wp_publish {operand : Nat} {words : List Nat} {good : Unit → Workspace → Prop} {bad : Status → Workspace → Prop}
    (located : w.contextOf operand = some id) (returns : good () (w.withObject out ⟨id, words⟩)) :
    wp (publish operand out words) good bad w := by
  unfold publish
  simp only [wp_bind, wp_get, located]
  exact returns

theorem withObject_holds {words : List Nat} (valid : wordsValid c words = true) (context : w.contexts id = some (c, b)) :
    Holds (w.withObject p ⟨id, words⟩) c p (value c words) :=
  ⟨id, b, words, by simp [Workspace.withObject], context, valid, rfl⟩

theorem withObject_holds_of_ne {words : List Nat} {f : (ZMod c.prime)[X]} (holds : Holds w c q f) (different : q ≠ p) :
    Holds (w.withObject p ⟨id, words⟩) c q f := by
  obtain ⟨id', b', words', located, rest⟩ := holds
  exact ⟨id', b', words', by simpa [Workspace.withObject, Function.update_of_ne different] using located, rest⟩

theorem one_output {body : FpolyContext → FpolyM (List Nat)} {f : (ZMod c.prime)[X]} (operand : Operand w id c p)
    (context : w.contexts id = some (c, b))
    (computes : Computes (body c) fun words => wordsValid c words = true ∧ value c words = f) :
    wp (onContext p body >>= fun words => publish p out words)
      (fun _ t => Holds t c out f ∧ ∀ q ∉ [out], t.objects q = w.objects q) (fun _ t => t.objects = w.objects) w := by
  rw [wp_bind]
  refine wp_mono (onContext_spec operand context computes) ?_ ?_
  · rintro words _ ⟨⟨valid, rfl⟩, b', rfl⟩
    have located : (w.withBudget id c b').contextOf p = some id := by
      rw [Workspace.contextOf]
      exact congrArg (Option.map Fpoly.context) operand.located
    refine wp_publish located ⟨withObject_holds valid (b := b') (by simp [Workspace.withBudget]), fun q outside => ?_⟩
    have different : q ≠ out := by simpa using outside
    simp [Workspace.withObject, Workspace.withBudget, Function.update_of_ne different]
  · rintro _ _ ⟨_, _, rfl⟩
    rfl

theorem valid_of_length {words words' : List Nat} (clean : Clean c words) (valid : wordsValid c words' = true)
    (short : words.length ≤ words'.length) : wordsValid c words = true :=
  wordsValid_iff.mpr ⟨short.trans (wordsValid_iff.mp valid).1, clean⟩

theorem fpolySet_spec (p : Nat) (coefficients : List UInt32) (w : Workspace) :
    wp (fpolySet p coefficients)
      (fun _ t => Yields (.set p coefficients) w none t ∧ ∀ q ∉ [p], t.objects q = w.objects q)
      (fun _ t => t.objects = w.objects) w := by
  unfold fpolySet
  simp only [wp_bind, wp_get]
  refine wp_ite (fun _ => rfl) (fun checked => ?_)
  obtain ⟨id, c, b, context, operand⟩ := polynomialValid_operand (by simpa using checked)
  let stored := value c ((List.range coefficients.length).map fun i => (coefficients.getD i 0).toNat % c.prime)
  have computes : Computes ((fun c => if c.limits.maxDegree.toNat + 1 < coefficients.length then throw .termLimit
      else do
        beginOperation c
        let result ← tabulate c (fun index => (coefficients.getD index 0).toNat % c.prime)
          (List.range coefficients.length)
        pure (trim result) : FpolyContext → FpolyM (List Nat)) c)
      fun words => wordsValid c words = true ∧ value c words = stored := by
    refine .ite (fun _ => .throw (by decide)) (fun room => computes_begin ?_)
    refine .bind (computes_tabulate _ _) ?_
    rintro _ rfl
    have reduced := reduced_tabulate (c := c) (List.range coefficients.length)
      (fun i => (coefficients.getD i 0).toNat % c.prime) fun _ _ => Nat.mod_lt _ (prime_pos c)
    refine .pure ⟨wordsValid_iff.mpr ⟨(trim_length_le _).trans ?_, trim_clean reduced⟩, value_trim _⟩
    rw [List.length_map, List.length_range]
    omega
  refine wp_good (one_output operand context computes) ?_
  rintro _ t ⟨holds, frame⟩
  refine ⟨⟨c, _, holds, fun i => ?_⟩, frame⟩
  rw [coeff_value, List.getD_eq_getElem?_getD, List.getElem?_map]
  by_cases inside : i < coefficients.length
  · simp [List.getElem?_range inside]
  · simp [Nat.le_of_not_lt inside]

theorem fpolyCopy_spec (source destination : Nat) (w : Workspace) :
    wp (fpolyCopy source destination)
      (fun _ t => Yields (.copy source destination) w none t ∧ ∀ q ∉ [destination], t.objects q = w.objects q)
      (fun _ t => t.objects = w.objects) w := by
  unfold fpolyCopy
  simp only [wp_bind, wp_get]
  refine wp_ite (fun _ => rfl) (fun checked => ?_)
  obtain ⟨⟨first, _⟩, _⟩ : (w.polynomialValid source = true ∧ w.polynomialValid destination = true) ∧
      w.sameContext source destination = true := by simpa using checked
  obtain ⟨id, c, b, context, operand⟩ := polynomialValid_operand first
  have located : w.contextOf source = some id := by
    rw [Workspace.contextOf, operand.located]
    rfl
  refine wp_publish located ⟨⟨c, _, operand.holds context, withObject_holds operand.valid context⟩, fun q outside => ?_⟩
  have different : q ≠ destination := by simpa using outside
  simp [Workspace.withObject, Function.update_of_ne different]

theorem fpolyCombine_spec {combine : Nat → Nat → Nat → Nat} (sign : Int)
    (combines : ∀ c : FpolyContext, Combines c combine sign) (left right out : Nat) (w : Workspace) :
    wp (fpolyCombine combine left right out)
      (fun _ t => (∃ c f g, Holds w c left f ∧ Holds w c right g ∧ Holds t c out (f + C (sign : ZMod c.prime) * g)) ∧
        ∀ q ∉ [out], t.objects q = w.objects q)
      (fun _ t => t.objects = w.objects) w := by
  unfold fpolyCombine
  simp only [wp_bind, wp_get]
  refine wp_ite (fun _ => rfl) (fun checked => ?_)
  obtain ⟨id, c, b, context, first, second, _⟩ := compatible_operands (by simpa using checked)
  have computes : Computes (beginOperation c >>= fun _ =>
      combineWords c combine (w.wordsOf left) (w.wordsOf right) >>= fun result => pure (trim result))
      fun words => wordsValid c words = true ∧
        value c words = value c (w.wordsOf left) + C (sign : ZMod c.prime) * value c (w.wordsOf right) := by
    refine computes_begin (.bind (computes_combineWords (combines c) first.valid second.valid) ?_)
    rintro result ⟨length, reduced, sum⟩
    refine .pure ⟨wordsValid_iff.mpr ⟨?_, trim_clean reduced⟩, (value_trim _).trans sum⟩
    have shorter := trim_length_le result
    have bound := (wordsValid_iff.mp first.valid).1
    have bound' := (wordsValid_iff.mp second.valid).1
    omega
  refine wp_good (one_output first context computes) ?_
  rintro _ t ⟨holds, frame⟩
  exact ⟨⟨c, _, _, first.holds context, second.holds context, holds⟩, frame⟩

theorem fpolyMultiply_spec (left right out : Nat) (w : Workspace) :
    wp (fpolyMultiply left right out)
      (fun _ t => Yields (.multiply left right out) w none t ∧ ∀ q ∉ [out], t.objects q = w.objects q)
      (fun _ t => t.objects = w.objects) w := by
  unfold fpolyMultiply
  simp only [wp_bind, wp_get]
  refine wp_ite (fun _ => rfl) (fun checked => ?_)
  obtain ⟨id, c, b, context, first, second, _⟩ := compatible_operands (by simpa using checked)
  refine wp_good (one_output first context (computes_begin (multiplyInternal_eq first.clean second.clean))) ?_
  rintro _ t ⟨holds, frame⟩
  exact ⟨⟨c, _, _, first.holds context, second.holds context, holds⟩, frame⟩

theorem fpolyMulmod_spec (left right modulus out : Nat) (w : Workspace) :
    wp (fpolyMulmod left right modulus out)
      (fun _ t => Yields (.mulmod left right modulus out) w none t ∧ ∀ q ∉ [out], t.objects q = w.objects q)
      (fun _ t => t.objects = w.objects) w := by
  unfold fpolyMulmod
  simp only [wp_bind, wp_get]
  refine wp_ite (fun _ => rfl) (fun checked => ?_)
  obtain ⟨⟨checked, valid⟩, same⟩ : (w.compatible left right out = true ∧ w.polynomialValid modulus = true) ∧
      w.sameContext left modulus = true := by simpa using checked
  obtain ⟨id, c, b, context, first, second, _⟩ := compatible_operands checked
  have third := operand_sameContext context first valid same
  refine wp_ite (fun _ => rfl) (fun positive => ?_)
  have nonzero : value c (w.wordsOf modulus) ≠ 0 := fun zero => positive (third.clean.length_eq_zero_iff.mpr zero)
  have computes : Computes _ fun words => wordsValid c words = true ∧
      value c words = value c (w.wordsOf left) * value c (w.wordsOf right) % value c (w.wordsOf modulus) :=
    (multiplyRemainderInternal_eq first.clean second.clean third.clean).mono fun words computed =>
      ⟨valid_of_length computed.2.1 third.valid computed.2.2.1.le, computed.2.2.2⟩
  refine wp_good (one_output first context (computes_begin computes)) ?_
  rintro _ t ⟨holds, frame⟩
  exact ⟨⟨c, _, _, _, first.holds context, second.holds context, third.holds context, nonzero, holds⟩, frame⟩

theorem fpolyPowmod_spec (base : Nat) (exponent : UInt64) (modulus out : Nat) (w : Workspace) :
    wp (fpolyPowmod base exponent modulus out)
      (fun _ t => Yields (.powmod base exponent modulus out) w none t ∧ ∀ q ∉ [out], t.objects q = w.objects q)
      (fun _ t => t.objects = w.objects) w := by
  unfold fpolyPowmod
  simp only [wp_bind, wp_get]
  refine wp_ite (fun _ => rfl) (fun checked => ?_)
  obtain ⟨id, c, b, context, first, second, _⟩ := compatible_operands (by simpa using checked)
  refine wp_ite (fun _ => rfl) (fun positive => ?_)
  have nonzero : value c (w.wordsOf modulus) ≠ 0 := fun zero => positive (second.clean.length_eq_zero_iff.mpr zero)
  have computes : Computes _ fun words => wordsValid c words = true ∧
      value c words = value c (w.wordsOf base) ^ exponent.toNat % value c (w.wordsOf modulus) :=
    (powmodInternal_eq first.clean second.clean exponent.toNat_lt).mono fun words computed =>
      ⟨valid_of_length computed.2.1 second.valid computed.2.2.1.le, computed.2.2.2⟩
  refine wp_good (one_output first context (computes_begin computes)) ?_
  rintro _ t ⟨holds, frame⟩
  exact ⟨⟨c, _, _, first.holds context, second.holds context, nonzero, holds⟩, frame⟩

theorem fpolyDerivative_spec (p out : Nat) (w : Workspace) :
    wp (fpolyDerivative p out)
      (fun _ t => Yields (.derivative p out) w none t ∧ ∀ q ∉ [out], t.objects q = w.objects q)
      (fun _ t => t.objects = w.objects) w := by
  unfold fpolyDerivative
  simp only [wp_bind, wp_get]
  refine wp_ite (fun _ => rfl) (fun checked => ?_)
  obtain ⟨⟨valid, _⟩, _⟩ : (w.polynomialValid p = true ∧ w.polynomialValid out = true) ∧
      w.sameContext p out = true := by simpa using checked
  obtain ⟨id, c, b, context, operand⟩ := polynomialValid_operand valid
  have computes : Computes _ fun words => wordsValid c words = true ∧
      value c words = derivative (value c (w.wordsOf p)) :=
    (derivativeWords_eq (w.wordsOf p)).mono fun words computed =>
      ⟨valid_of_length computed.2.1 operand.valid (computed.1.trans (Nat.sub_le _ _)), computed.2.2⟩
  refine wp_good (one_output operand context (computes_begin computes)) ?_
  rintro _ t ⟨holds, frame⟩
  exact ⟨⟨c, _, operand.holds context, holds⟩, frame⟩

theorem fpolyGcd_spec (left right out : Nat) (w : Workspace) :
    wp (fpolyGcd left right out)
      (fun _ t => Yields (.gcd left right out) w none t ∧ ∀ q ∉ [out], t.objects q = w.objects q)
      (fun _ t => t.objects = w.objects) w := by
  unfold fpolyGcd
  simp only [wp_bind, wp_get]
  refine wp_ite (fun _ => rfl) (fun checked => ?_)
  obtain ⟨id, c, b, context, first, second, _⟩ := compatible_operands (by simpa using checked)
  have computes : Computes (gcdInternal c (w.wordsOf left) (w.wordsOf right)) fun words => wordsValid c words = true ∧
      value c words = normalize (EuclideanDomain.gcd (value c (w.wordsOf left)) (value c (w.wordsOf right))) := by
    refine (gcdInternal_eq first.clean second.clean).mono fun words computed =>
      ⟨wordsValid_iff.mpr ⟨computed.2.2.trans ?_, computed.1⟩, computed.2.1⟩
    exact max_le (wordsValid_iff.mp first.valid).1 (wordsValid_iff.mp second.valid).1
  refine wp_good (one_output first context (computes_begin computes)) ?_
  rintro _ t ⟨holds, frame⟩
  exact ⟨⟨c, _, _, first.holds context, second.holds context, holds⟩, frame⟩

theorem withBudget_contextOf (operand : Operand w id c p) : (w.withBudget id c b).contextOf p = some id := by
  rw [Workspace.contextOf]
  exact congrArg (Option.map Fpoly.context) operand.located

theorem withObject_contextOf {words : List Nat} : (w.withObject p ⟨id, words⟩).contextOf p = some id := by
  simp [Workspace.contextOf, Workspace.withObject]

theorem fpolyDivrem_spec (dividend divisor quotient remainder : Nat) (w : Workspace) :
    wp (fpolyDivrem dividend divisor quotient remainder)
      (fun _ t => Yields (.divrem dividend divisor quotient remainder) w none t ∧
        ∀ q ∉ [quotient, remainder], t.objects q = w.objects q)
      (fun _ t => t.objects = w.objects) w := by
  unfold fpolyDivrem
  simp only [wp_bind, wp_get]
  refine wp_ite (fun _ => rfl) (fun checked => ?_)
  obtain ⟨⟨⟨checked, _⟩, _⟩, different⟩ : ((w.compatible dividend divisor quotient = true ∧
      w.polynomialValid remainder = true) ∧ w.sameContext dividend remainder = true) ∧ ¬quotient = remainder := by
    simpa using checked
  obtain ⟨id, c, b, context, first, second, _⟩ := compatible_operands checked
  simp only [wp_bind]
  refine wp_mono (onContext_spec first context (computes_begin (divremInternal_eq first.clean second.clean))) ?_ ?_
  · rintro ⟨q, r⟩ _ ⟨⟨nonzero, clean_q, clean_r, short_q, short_r, quotient_eq, remainder_eq⟩, b', rfl⟩
    have valid_q : wordsValid c q = true := valid_of_length clean_q first.valid short_q
    have valid_r : wordsValid c r = true := valid_of_length clean_r second.valid (Nat.le_of_lt short_r)
    have budget : (w.withBudget id c b').contexts id = some (c, b') := by simp [Workspace.withBudget]
    refine wp_publish (withBudget_contextOf first) (wp_publish withObject_contextOf ?_)
    refine ⟨⟨c, _, _, _, _, first.holds context, second.holds context,
      withObject_holds_of_ne (withObject_holds valid_q budget) different, withObject_holds valid_r budget, ?_, ?_⟩,
      fun p outside => ?_⟩
    · rw [show value c q = _ from quotient_eq, show value c r = _ from remainder_eq, mul_comm]
      exact (EuclideanDomain.div_add_mod _ _).symm
    · rw [show value c r = _ from remainder_eq]
      exact EuclideanDomain.mod_lt _ nonzero
    · obtain ⟨other, other'⟩ : ¬p = quotient ∧ ¬p = remainder := by simpa using outside
      simp [Workspace.withObject, Workspace.withBudget, Function.update_of_ne other, Function.update_of_ne other']
  · rintro _ _ ⟨_, _, rfl⟩
    rfl

theorem fpolyXgcd_spec (left right out leftCofactor rightCofactor : Nat) (w : Workspace) :
    wp (fpolyXgcd left right out leftCofactor rightCofactor)
      (fun _ t => Yields (.xgcd left right out leftCofactor rightCofactor) w none t ∧
        ∀ q ∉ [out, leftCofactor, rightCofactor], t.objects q = w.objects q)
      (fun _ t => t.objects = w.objects) w := by
  unfold fpolyXgcd
  simp only [wp_bind, wp_get]
  refine wp_ite (fun _ => rfl) (fun checked => ?_)
  simp only [Bool.not_eq_true, Bool.not_eq_false', Bool.and_eq_true, decide_eq_true_eq, Ne] at checked
  obtain ⟨⟨⟨⟨⟨⟨⟨checked, _⟩, _⟩, _⟩, _⟩, different⟩, different'⟩, different''⟩ := checked
  obtain ⟨id, c, b, context, first, second, _⟩ := compatible_operands checked
  simp only [wp_bind]
  refine wp_mono (onContext_spec first context (computes_begin (xgcdInternal_eq first.valid second.valid))) ?_ ?_
  · rintro ⟨d, l, r⟩ _ ⟨⟨valid_d, valid_l, valid_r, divisor, identity⟩, b', rfl⟩
    have budget : (w.withBudget id c b').contexts id = some (c, b') := by simp [Workspace.withBudget]
    have kept : ((w.withBudget id c b').withObject out ⟨id, d⟩ |>.withObject leftCofactor ⟨id, l⟩).contextOf out =
        some id := by
      simp [Workspace.contextOf, Workspace.withObject, Function.update_of_ne different]
    refine wp_publish (withBudget_contextOf first) (wp_publish withObject_contextOf (wp_publish kept ?_))
    refine ⟨⟨c, _, _, _, _, _, first.holds context, second.holds context,
      withObject_holds_of_ne (withObject_holds_of_ne (withObject_holds valid_d budget) different) different',
      withObject_holds_of_ne (withObject_holds valid_l budget) different'', withObject_holds valid_r budget, divisor,
      identity.symm⟩, fun p outside => ?_⟩
    obtain ⟨other, other', other''⟩ : ¬p = out ∧ ¬p = leftCofactor ∧ ¬p = rightCofactor := by simpa using outside
    simp [Workspace.withObject, Workspace.withBudget, Function.update_of_ne other, Function.update_of_ne other',
      Function.update_of_ne other'']
  · rintro _ _ ⟨_, _, rfl⟩
    rfl

theorem unit_iff_length {common : List Nat} {f g : (ZMod c.prime)[X]} (clean : Clean c common)
    (result : value c common = normalize (EuclideanDomain.gcd f g)) (nonzero : f ≠ 0) :
    common.length ≤ 1 ↔ IsUnit (EuclideanDomain.gcd f g) := by
  have divisor : EuclideanDomain.gcd f g ≠ 0 := fun zero =>
    nonzero (zero_dvd_iff.mp (zero ▸ EuclideanDomain.gcd_dvd_left f g))
  have nonempty : common ≠ [] := clean.eq_zero_iff.not.mp (by rw [result]; exact normalize_eq_zero.not.mpr divisor)
  rw [isUnit_iff_degree_eq_zero, ← degree_normalize, ← result, clean.degree nonempty]
  have positive := List.length_pos_of_ne_nil nonempty
  constructor
  · intro short
    rw [show common.length - 1 = 0 by omega]
    rfl
  · intro zero
    have : common.length - 1 = 0 := by exact_mod_cast zero
    omega

theorem linear_unit {f : (ZMod c.prime)[X]} (linear : f.natDegree = 1) :
    IsUnit (EuclideanDomain.gcd f (derivative f)) := by
  have slope : derivative f = C f.leadingCoeff := by
    rw [Polynomial.leadingCoeff, linear]
    ext i
    rw [coeff_derivative, coeff_C]
    split
    · rename_i zero
      simp [zero]
    · rw [coeff_eq_zero_of_natDegree_lt (by omega), zero_mul]
  have nonzero : f.leadingCoeff ≠ 0 := leadingCoeff_ne_zero.mpr (by rintro rfl; simp at linear)
  refine isUnit_of_dvd_unit (EuclideanDomain.gcd_dvd_right f (derivative f)) ?_
  rw [slope]
  exact isUnit_C.mpr nonzero.isUnit

theorem fpolyIsSquareFree_spec (p : Nat) (w : Workspace) :
    wp (fpolyIsSquareFree p)
      (fun answer t => Yields (.isSquareFree p) w (some answer) t ∧ t.objects = w.objects)
      (fun _ t => t.objects = w.objects) w := by
  unfold fpolyIsSquareFree
  simp only [wp_bind, wp_get]
  refine wp_ite (fun _ => rfl) (fun checked => ?_)
  obtain ⟨id, c, b, context, operand⟩ := polynomialValid_operand (by simpa using checked)
  have degree := operand.clean.natDegree
  have computes : Computes (if (w.wordsOf p).length ≤ 2 then pure true
      else do
        let common ← commonWithDerivative c (w.wordsOf p)
        pure (decide (common.length ≤ 1)))
      fun answer => 0 < (value c (w.wordsOf p)).natDegree → (answer = true ↔
        IsUnit (EuclideanDomain.gcd (value c (w.wordsOf p)) (derivative (value c (w.wordsOf p))))) := by
    refine .ite (fun short => .pure fun positive => iff_of_true rfl (linear_unit (by omega))) (fun _ => ?_)
    refine .bind (commonWithDerivative_eq operand.clean) ?_
    rintro common ⟨clean, result⟩
    refine .pure fun positive => ?_
    have nonzero : value c (w.wordsOf p) ≠ 0 := fun zero => by simp [zero] at positive
    rw [decide_eq_true_iff]
    exact unit_iff_length clean result nonzero
  refine wp_mono (onContext_spec operand context (computes_begin computes)) ?_ ?_
  · rintro answer _ ⟨exact, b', rfl⟩
    exact ⟨⟨c, _, operand.holds context, fun positive => by rw [Option.some_inj]; exact exact positive⟩, rfl⟩
  · rintro _ _ ⟨_, _, rfl⟩
    rfl

/-- On any workspace, whose contexts have been admitted with their primes, and with any
aliasing of the arguments, an operation computes the polynomial it is named after and touches
its outputs only, or stops and changes no polynomial. -/
theorem polynomial_operations (call : FpolyCall) (w : Workspace) :
    wp call.exec (fun answer t => Yields call w answer t ∧ ∀ p ∉ call.outputs, t.objects p = w.objects p)
      (fun _ t => t.objects = w.objects) w := by
  cases call with
  | set p coefficients => exact (wp_map _ _ _ _ _).mpr (fpolySet_spec p coefficients w)
  | copy source destination => exact (wp_map _ _ _ _ _).mpr (fpolyCopy_spec source destination w)
  | add left right out =>
    refine (wp_map _ _ _ _ _).mpr (wp_good (fpolyCombine_spec 1 (fun c => by simpa using combines_add)
      left right out w) ?_)
    rintro _ t ⟨⟨c, f, g, first, second, sum⟩, frame⟩
    exact ⟨⟨c, f, g, first, second, by simpa using sum⟩, frame⟩
  | subtract left right out =>
    refine (wp_map _ _ _ _ _).mpr (wp_good (fpolyCombine_spec (-1)
      (fun c => by simpa using combines_subtract) left right out w) ?_)
    rintro _ t ⟨⟨c, f, g, first, second, sum⟩, frame⟩
    refine ⟨⟨c, f, g, first, second, ?_⟩, frame⟩
    simpa [sub_eq_add_neg] using sum
  | multiply left right out => exact (wp_map _ _ _ _ _).mpr (fpolyMultiply_spec left right out w)
  | mulmod left right modulus out => exact (wp_map _ _ _ _ _).mpr (fpolyMulmod_spec left right modulus out w)
  | powmod base exponent modulus out => exact (wp_map _ _ _ _ _).mpr (fpolyPowmod_spec base exponent modulus out w)
  | derivative p out => exact (wp_map _ _ _ _ _).mpr (fpolyDerivative_spec p out w)
  | divrem dividend divisor quotient remainder =>
    exact (wp_map _ _ _ _ _).mpr (fpolyDivrem_spec dividend divisor quotient remainder w)
  | gcd left right out => exact (wp_map _ _ _ _ _).mpr (fpolyGcd_spec left right out w)
  | xgcd left right out first second => exact (wp_map _ _ _ _ _).mpr (fpolyXgcd_spec left right out first second w)
  | isSquareFree p =>
    refine (wp_map _ _ _ _ _).mpr (wp_good (fpolyIsSquareFree_spec p w) ?_)
    rintro answer t ⟨yields, kept⟩
    exact ⟨yields, fun q _ => congrFun kept q⟩

end PhyNspire.FinitePoly.Operations

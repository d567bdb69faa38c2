import PhyNspire.Cas.Reading

/-!
The Gaussian fold keeps values: the number it publishes for a closed tree is what the tree is worth,
under every value of the imaginary unit and also where the unit has none.
-/

namespace PhyNspire.Cas.Core
open Lib Lib.Stateful Lib.Trees Ir.Expressions
open PhyNspire.Exact (Gaussian)
open SparsePoly (integerValue)

theorem Meets.all {truth : Truth} {α : Type} {ι : Sort*} {program : CasM α} {good : ι → α → Prop}
    (keeps : Meets truth program fun _ => True) (each : ∀ i, Meets truth program (good i)) :
    Meets truth program fun value => ∀ i, good i value := by
  intro s trusted
  have values := wp_forall fun i => each i s trusted
  apply wp_mono (wp_and (keeps s trusted) values)
  · intro value t held
    exact ⟨fun i => (held.2 i).1, held.1.2⟩
  · intro stop t held
    exact held.1

theorem Meets.trivial {truth : Truth} {α : Type} {program : CasM α} {good : α → Prop} (meets : Meets truth program good) :
    Meets truth program fun _ => True := meets.mono fun _ _ => True.intro

variable {K : Type} [Field K] [DecidableEq K] {reading : Reading K} {truth : Truth}

namespace Reading

structure Fits (reading : Reading K) (g : Gaussian) (value : K) : Prop where
  worth : value = g.real + g.imaginary * (reading.symbol unitName).getD 0
  real : reading.symbol unitName = none → g.imaginary = 0

variable {g h : Gaussian} {v w : K}

theorem fits_real (q : ℚ) : reading.Fits ⟨q, 0⟩ (q : K) :=
  ⟨by rw [Rat.cast_zero, zero_mul, add_zero], fun _ => rfl⟩

theorem fits_unit {i : K} (known : reading.symbol unitName = some i) : reading.Fits ⟨0, 1⟩ i :=
  ⟨by rw [known, Rat.cast_zero, Rat.cast_one, zero_add, one_mul, Option.getD_some], fun absent => by
    rw [known] at absent
    cases absent⟩

variable [CharZero K]

theorem Fits.add (first : reading.Fits g v) (second : reading.Fits h w) :
    reading.Fits ⟨g.real + h.real, g.imaginary + h.imaginary⟩ (v + w) := by
  constructor
  · rw [first.worth, second.worth]
    push_cast
    ring
  · intro absent
    rw [first.real absent, second.real absent, add_zero]

theorem Fits.mul (first : reading.Fits g v) (second : reading.Fits h w) :
    reading.Fits ⟨g.real * h.real - g.imaginary * h.imaginary, g.real * h.imaginary + g.imaginary * h.real⟩ (v * w) := by
  constructor
  · rw [first.worth, second.worth]
    cases known : reading.symbol unitName with
    | none =>
      rw [first.real known, second.real known]
      push_cast
      ring
    | some i =>
      have square := reading.unit_square known
      push_cast
      rw [Option.getD_some]
      linear_combination (g.imaginary : K) * h.imaginary * square
  · intro absent
    change g.real * h.imaginary + g.imaginary * h.real = 0
    rw [first.real absent, second.real absent, mul_zero, zero_mul, add_zero]

theorem Fits.inverse (fits : reading.Fits g v) (nonzero : gaussianNorm g ≠ 0) :
    reading.Fits ⟨g.real / gaussianNorm g, -g.imaginary / gaussianNorm g⟩ v⁻¹ := by
  have some : ((gaussianNorm g : ℚ) : K) ≠ 0 := Rat.cast_ne_zero.mpr nonzero
  constructor
  · apply inv_eq_of_mul_eq_one_right
    have product := (fits.mul (h := ⟨g.real / gaussianNorm g, -g.imaginary / gaussianNorm g⟩) ⟨rfl, fun absent => by
      change -g.imaginary / _ = 0
      rw [fits.real absent, neg_zero, zero_div]⟩).worth
    rw [product]
    dsimp only
    have re : g.real * (g.real / gaussianNorm g) - g.imaginary * (-g.imaginary / gaussianNorm g) = 1 := by
      field_simp
      rw [gaussianNorm]
      ring
    have im : g.real * (-g.imaginary / gaussianNorm g) + g.imaginary * (g.real / gaussianNorm g) = 0 := by ring
    rw [re, im, Rat.cast_one, Rat.cast_zero, zero_mul, add_zero]
  · intro absent
    change -g.imaginary / _ = 0
    rw [fits.real absent, neg_zero, zero_div]

end Reading

open Values Reading

variable [CharZero K] (reading)

theorem meets_gaussianAdd (g h : Gaussian) :
    Meets truth (gaussianAdd g h) fun r => ∀ v w : K, reading.Fits g v → reading.Fits h w → reading.Fits r (v + w) :=
  meets_request.seq fun _ => meets_pure fun _ _ first second => first.add second

theorem meets_gaussianMultiply (g h : Gaussian) :
    Meets truth (gaussianMultiply g h) fun r => ∀ v w : K, reading.Fits g v → reading.Fits h w → reading.Fits r (v * w) :=
  meets_request.seq fun _ => meets_pure fun _ _ first second => first.mul second

theorem meets_gaussianAdd_combine (g h : Gaussian) : Meets truth (gaussianAdd g h) fun r =>
    ∀ v w : K, reading.Fits g v → reading.Fits h w → reading.Fits r (combine .add [v, w]) :=
  (meets_gaussianAdd reading g h).mono fun r fits v w first second => by simpa using fits v w first second

theorem meets_gaussianMultiply_combine (g h : Gaussian) : Meets truth (gaussianMultiply g h) fun r =>
    ∀ v w : K, reading.Fits g v → reading.Fits h w → reading.Fits r (combine .mul [v, w]) :=
  (meets_gaussianMultiply reading g h).mono fun r fits v w first second => by simpa using fits v w first second

theorem meets_gaussianReciprocal (g : Gaussian) :
    Meets truth (gaussianReciprocal g) fun r => ∀ v : K, reading.Fits g v → reading.Fits r v⁻¹ := by
  apply meets_request.seq
  intro _
  exact meets_ite (fun _ => meets_refuse _) (fun nonzero => meets_pure fun v fits => fits.inverse nonzero)

theorem meets_gaussianMultiplyWhen (needed : Bool) (g h : Gaussian) :
    Meets truth (gaussianMultiplyWhen needed g h) fun r => ∀ v w : K, reading.Fits g v → reading.Fits h w →
      reading.Fits r (if needed then v * w else v) := by
  unfold gaussianMultiplyWhen
  cases needed with
  | true => exact (meets_gaussianMultiply reading g h).mono fun r fits => by simpa using fits
  | false => exact meets_pure fun v w first _ => by simpa using first

/-- Square and multiply: what is still to be multiplied is the factor's power. -/
theorem meets_gaussianPowLoop {turns : Nat} : ∀ {remaining : Nat} {result factor : Gaussian}, remaining < 2 ^ turns →
    Meets truth (gaussianPowLoop turns remaining result factor) fun r => ∀ v w : K, reading.Fits result v →
      reading.Fits factor w → reading.Fits r (v * w ^ remaining) := by
  induction turns with
  | zero =>
    intro remaining result factor small
    obtain rfl : remaining = 0 := by omega
    exact meets_pure fun v w first _ => by simpa using first
  | succ turns ih =>
    intro remaining result factor small
    apply meets_ite
    · intro zero
      exact meets_pure fun v w first _ => by simpa [zero] using first
    · intro some
      apply Meets.bind (meets_gaussianMultiplyWhen reading _ _ _)
      intro result' fits
      apply Meets.bind (meets_gaussianMultiplyWhen reading _ _ _)
      intro factor' fits'
      apply (ih (by rw [pow_succ] at small; omega)).mono
      intro r last v w first second
      have half : w ^ remaining = w ^ (remaining % 2) * (w * w) ^ (remaining / 2) := by
        rw [← pow_two, ← pow_mul, ← pow_add, Nat.mod_add_div]
      have folded := last _ _ (fits v w first second) (fits' w w second second)
      rw [half, ← mul_assoc]
      by_cases later : remaining / 2 = 0
      · rw [later, pow_zero, mul_one] at folded ⊢
        rcases Nat.mod_two_eq_zero_or_one remaining with even | odd
        · simpa [even] using folded
        · simpa [odd] using folded
      · rcases Nat.mod_two_eq_zero_or_one remaining with even | odd
        · simpa [even, later] using folded
        · simpa [odd, later] using folded

theorem meets_gaussianPow (g : Gaussian) {k : Int} (small : isInt32 k = true) :
    Meets truth (gaussianPow g k) fun r => ∀ v : K, reading.Fits g v → reading.Fits r (v ^ k) := by
  have bound : k.natAbs < 2 ^ 32 := by
    have range := of_decide_eq_true small
    omega
  have factor : Meets truth (gaussianFactor g k) fun r => ∀ v : K, reading.Fits g v →
      reading.Fits r (if k < 0 then v⁻¹ else v) := by
    apply meets_ite
    · intro negative
      exact (meets_gaussianReciprocal reading g).mono fun r fits v known => by simpa [negative] using fits v known
    · intro nonnegative
      exact meets_pure fun v known => by simpa [nonnegative] using known
  apply factor.bind
  intro base fits
  apply (meets_gaussianPowLoop reading bound).mono
  intro r last v known
  have power := last 1 _ (by simpa using (fits_real 1 : reading.Fits ⟨1, 0⟩ ((1 : ℚ) : K))) (fits v known)
  rw [one_mul] at power
  by_cases negative : k < 0
  · rw [if_pos negative, inv_pow] at power
    rwa [← neg_neg k, zpow_neg, ← Int.ofNat_natAbs_of_nonpos negative.le, zpow_natCast]
  · rw [if_neg negative] at power
    rwa [← Int.natAbs_of_nonneg (not_lt.mp negative), zpow_natCast]

omit [CharZero K] in
theorem meets_gaussianFromNodes {label : Label} {operation : Gaussian → Gaussian → CasM Gaussian}
    (sound : ∀ g h, Meets truth (operation g h) fun r => ∀ v w : K, reading.Fits g v → reading.Fits h w →
      reading.Fits r (combine label [v, w])) (children : List Expr)
    (each : ∀ child ∈ children, Meets truth (gaussianFromNode child) fun out => ∀ g inside v, out = some (g, inside) →
      reading.eval child = some v → reading.Fits g v) (accumulator : Gaussian) (containsI : Bool) :
    Meets truth (gaussianFromNodes operation accumulator containsI children) fun out => ∀ g inside values w,
      out = some (g, inside) → reading.evalAll children = some values → reading.Fits accumulator w →
      reading.Fits g (combine label (w :: values)) := by
  induction children generalizing accumulator containsI with
  | nil =>
    unfold gaussianFromNodes
    apply meets_pure
    intro g inside values w same known fits
    cases same
    rw [evalAll_nil] at known
    cases known
    rwa [combine_singleton]
  | cons child rest ih =>
    unfold gaussianFromNodes
    apply (each child List.mem_cons_self).bind
    intro out first
    match out, first with
    | none, _ => exact meets_pure fun g inside values w absent => by cases absent
    | some (value, inside), first =>
      apply (sound accumulator value).bind
      intro accumulator' step
      apply (ih (fun child inside => each child (List.mem_cons_of_mem _ inside)) accumulator' (containsI || inside)).mono
      intro out later g inside' values w same known fits
      obtain ⟨v, values', here, known', rfl⟩ := evalAll_cons_some.mp known
      rw [combine_cons_cons]
      exact later g inside' values' _ same known' (step w v fits (first value inside v rfl here))

theorem meets_gaussianFromNode (expr : Expr) :
    Meets truth (gaussianFromNode expr) fun out => ∀ g inside v, out = some (g, inside) → reading.eval expr = some v →
      reading.Fits g v := by
  induction expr using Rose.induct with
  | node label children ih =>
    unfold gaussianFromNode
    split
    · rename_i q shape
      cases shape
      apply meets_request.seq
      intro _
      apply meets_pure
      intro g inside v same known
      cases same
      rw [show Rose.node (Label.exact q) [] = exactNode q from rfl, eval_exact] at known
      cases known
      exact fits_real q
    · rename_i name shape
      cases shape
      apply meets_ite
      · intro unit
        apply meets_request.seq
        intro _
        apply meets_pure
        intro g inside v same known
        cases same
        rw [show Rose.node (Label.symbol name) [] = symbolNode name from rfl, eval_symbol, unit] at known
        exact fits_unit known
      · intro _
        exact meets_pure fun g inside v absent => by cases absent
    · rename_i base exponent shape
      cases shape
      split
      · exact meets_pure fun g inside v absent => by cases absent
      · rename_i k integer
        apply meets_ite
        · intro small
          apply (ih base List.mem_cons_self).bind
          intro out first
          match out, first with
          | none, _ => exact meets_pure fun g inside v absent => by cases absent
          | some (value, inside), first =>
            apply (meets_gaussianPow reading value small).bind
            intro power fits
            apply meets_pure
            intro g inside' v same known
            cases same
            obtain ⟨u, q, worth, rational, raised⟩ := eval_pow_some known
            obtain ⟨_, shape, _⟩ := integerValue_some integer
            rw [rational] at shape
            cases shape
            obtain rfl := raise_int raised
            exact fits u (first value inside u rfl worth)
        · intro _
          exact meets_pure fun g inside v absent => by cases absent
    · rename_i terms shape
      cases shape
      apply (meets_gaussianFromNodes reading (meets_gaussianAdd_combine reading) children ih ⟨0, 0⟩ false).mono
      intro out fits g inside v same known
      rw [eval_add] at known
      obtain ⟨values, known', rfl⟩ := Option.map_eq_some_iff.mp known
      have sum := fits g inside values _ same known' (fits_real 0)
      simpa [combine] using sum
    · rename_i factors shape
      cases shape
      apply (meets_gaussianFromNodes reading (meets_gaussianMultiply_combine reading) children ih ⟨1, 0⟩ false).mono
      intro out fits g inside v same known
      rw [eval_mul] at known
      obtain ⟨values, known', rfl⟩ := Option.map_eq_some_iff.mp known
      have product := fits g inside values _ same known' (fits_real 1)
      simpa [combine] using product
    · exact meets_pure fun g inside v absent => by cases absent

omit [CharZero K] in
theorem meets_imaginaryTerm (q : ℚ) : Meets truth (gaussianPublish.imaginaryTerm (exactNode q)) fun r =>
    ∀ i : K, reading.symbol unitName = some i → reading.eval r = some (q * i) := by
  apply meets_ite
  · intro whole
    apply meets_pure
    intro i known
    obtain ⟨_, shape, _⟩ := integerValue_some (isInteger_iff.mp whole)
    cases shape
    rw [constantI, eval_symbol, known, Int.cast_one, Rat.cast_one, one_mul]
  · intro _
    apply (meets_irNary _ _).mono
    intro r same i known
    have product : reading.eval (.node .mul [exactNode q, constantI]) = some (q * i) := by
      simp [evalAll_cons, constantI, known]
    rw [same, keeps_nary (.inr rfl) _ _ product]

theorem meets_gaussianPublish (g : Gaussian) :
    Meets truth (gaussianPublish g) fun r => ∀ v : K, reading.Fits g v → reading.eval r = some v := by
  apply meets_ite
  · intro real
    apply (meets_irNode _ _).mono
    intro r same v fits
    rw [same, show Rose.node (Label.exact g.real) [] = exactNode g.real from rfl, eval_exact, fits.worth, real,
      Rat.cast_zero, zero_mul, add_zero]
  · intro some
    apply (meets_irNode _ _).bind
    intro coefficient same
    obtain rfl : coefficient = exactNode g.imaginary := same
    have unit {v : K} (fits : reading.Fits g v) : ∃ i, reading.symbol unitName = .some i ∧ v = g.real + g.imaginary * i := by
      cases known : reading.symbol unitName with
      | none => exact absurd (fits.real known) some
      | some i => exact ⟨i, rfl, by rw [fits.worth, known, Option.getD_some]⟩
    apply (meets_imaginaryTerm reading g.imaginary).bind
    intro term worth
    apply meets_ite
    · intro imaginary
      apply meets_pure
      intro v fits
      obtain ⟨i, known, rfl⟩ := unit fits
      rw [worth i known, imaginary, Rat.cast_zero, zero_add]
    · intro _
      apply (meets_irNode _ _).bind
      intro real same
      obtain rfl : real = exactNode g.real := same
      apply (meets_irNary _ _).mono
      intro r same v fits
      obtain ⟨i, known, rfl⟩ := unit fits
      have sum : reading.eval (.node .add [exactNode g.real, term]) = .some (g.real + g.imaginary * i) := by
        simp [evalAll_cons, worth i known]
      rw [same, keeps_nary (.inl rfl) _ _ sum]

theorem meets_gaussianMatched (found : Option (Gaussian × Bool)) :
    Meets truth (gaussianMatched found) fun out => ∀ r v, out = some r →
      (∀ g inside, found = some (g, inside) → reading.Fits g v) → reading.eval r = some v := by
  unfold gaussianMatched
  split
  · rename_i g
    apply (meets_gaussianPublish reading g).bind
    intro result worth
    apply meets_pure
    intro r v same fits
    cases same
    exact worth v (fits g true rfl)
  · exact meets_pure fun r v absent => by cases absent

theorem meets_gaussianFoldAt {label : Label} (foldable : Foldable label)
    {operation : Gaussian → Gaussian → CasM Gaussian} {start : Gaussian}
    (sound : ∀ g h, Meets truth (operation g h) fun r => ∀ v w : K, reading.Fits g v → reading.Fits h w →
      reading.Fits r (combine label [v, w]))
    (neutral : ∃ w : K, reading.Fits start w ∧ ∀ values, combine label (w :: values) = combine label values)
    (operands : List Expr) :
    Meets truth (gaussianFoldAt operation start operands) fun out => ∀ r ∈ out,
      reading.Keeps (.node label operands) r := by
  apply meets_ite
  · intro _
    apply meets_request.seq
    intro _
    apply (meets_gaussianFromNodes reading sound operands (fun child _ => meets_gaussianFromNode reading child) _ _).bind
    intro found folded
    apply (meets_gaussianMatched reading found).mono
    intro out worth r same p known
    rw [eval_foldable foldable] at known
    obtain ⟨values, operands, rfl⟩ := Option.map_eq_some_iff.mp known
    obtain ⟨w, fits, neutral⟩ := neutral
    apply worth r _ same
    intro g inside here
    rw [← neutral]
    exact folded g inside values w here operands fits
  · intro _
    exact meets_pure fun r absent => by cases absent

theorem meets_gaussianFold_add (operands : List Expr) :
    Meets truth (gaussianFoldAt gaussianAdd ⟨0, 0⟩ operands) fun out => ∀ r ∈ out,
      reading.Keeps (.node .add operands) r :=
  meets_gaussianFoldAt reading (.inl rfl) (meets_gaussianAdd_combine reading) ⟨_, fits_real 0, by simp⟩ operands

theorem meets_gaussianFold_mul (operands : List Expr) :
    Meets truth (gaussianFoldAt gaussianMultiply ⟨1, 0⟩ operands) fun out => ∀ r ∈ out,
      reading.Keeps (.node .mul operands) r :=
  meets_gaussianFoldAt reading (.inr rfl) (meets_gaussianMultiply_combine reading) ⟨_, fits_real 1, by simp⟩ operands

theorem meets_gaussianPowNode (base : Expr) (k : Int) :
    Meets truth (gaussianPowNode base k) fun out => ∀ r v, out = some r → reading.eval base = some v →
      reading.eval r = some (v ^ k) := by
  apply meets_ite
  · intro small
    apply meets_request.seq
    intro _
    apply (meets_gaussianFromNode reading base).bind
    intro found folded
    split
    · rename_i g
      apply (meets_gaussianPow reading g small.1).bind
      intro power fits
      apply (meets_gaussianMatched reading _).mono
      intro out worth r v same known
      apply worth r _ same
      intro g' inside here
      cases here
      exact fits v (folded g true v rfl known)
    · exact meets_pure fun r v absent => by cases absent
  · intro _
    exact meets_pure fun r v absent => by cases absent

end PhyNspire.Cas.Core

import Mathlib.Order.PiLex
import PhyNspire.Component.Search
import PhyNspire.Permutation.SchreierSims

/-!
What the search finds. Below a node of the search tree lie the products of the node's
permutation with the elements of the stabilizer that its level has left; a branch that is
cut, like a leaf that is visited, leaves no product that could still be smaller than the
best tuple or reach it with the other sign.
-/

namespace PhyNspire.Component
open Lib.Stateful Permutation.Perm Permutation.Bsgs Permutation.Elements Permutation.Transversals
open Permutation.Sifting Permutation.StrongGenerators Permutation.SchreierSims Lib.StabilizerChain Subgroup

variable {n : Nat}

def moved (g : Signed n) (indices : Indices n) : Indices n := fun slot => indices (g.2 slot)

@[simp] theorem moved_one (indices : Indices n) : moved 1 indices = indices := rfl

theorem moved_mul (g h : Signed n) (indices : Indices n) : moved (g * h) indices = moved h (moved g indices) := rfl

theorem moved_elementOf {image : Image n} {sign : Int} (proper : Proper image sign) (indices : Indices n) :
    moved (elementOf image sign) indices = fun slot => indices (image slot) :=
  funext fun slot => congrArg indices (permOf_apply proper.injective slot)

theorem sign_elementOf {image : Image n} {sign : Int} (proper : Proper image sign) :
    ((elementOf image sign).1 : Int) = sign := by
  rcases proper.signed with rfl | rfl <;> rfl

/-- A chain that a search can go down: it is complete, and the negative identity is not in the group. -/
structure Searchable (strong : List (StrongGenerator n)) (chain : PermChain n) : Prop where
  proper : StrongProper strong
  rows : ∀ level, Row strong chain level
  generating : StrongGenerating strong false

section
variable {strong : List (StrongGenerator n)} {chain : PermChain n} {level : Nat} {g : Signed n}

noncomputable def entryOf (chain : PermChain n) (level point : Fin n) : Signed n :=
  elementOf (chain.transversal level point) (chain.sign level point)

theorem remainders_false {g : Signed n} : g ∈ (remainders false : Subgroup (Signed n)) ↔ g = 1 := by
  rw [mem_remainders]
  constructor
  · rintro ⟨still, one | known⟩
    · exact Prod.ext one still
    · cases known
  · rintro rfl
    exact ⟨rfl, .inl rfl⟩

theorem groupFrom_false (strong : List (StrongGenerator n)) (level : Nat) :
    groupFrom strong false level = closure (strongFrom strong level) := by
  refine le_antisymm ((closure_le _).mpr (Set.union_subset subset_closure fun g member => ?_))
    (closure_mono Set.subset_union_left)
  rw [SetLike.mem_coe, remainders_false] at member
  rw [member]
  exact one_mem _

theorem Searchable.fixes (searchable : Searchable strong chain) (member : g ∈ groupFrom strong false level)
    {slot : Fin n} (below : slot.val < level) : g.2 slot = slot := by
  rw [groupFrom_false] at member
  exact closure_fixes searchable.proper member below

theorem Searchable.last (searchable : Searchable strong chain) (member : g ∈ groupFrom strong false n) : g = 1 := by
  rw [groupFrom_false, strongFrom_end searchable.proper (Nat.le_refl _), Subgroup.closure_empty] at member
  exact mem_bot.mp member

theorem Searchable.entry_mem (searchable : Searchable strong chain) {level point : Fin n}
    (valid : chain.valid level point = true) : entryOf chain level point ∈ groupFrom strong false level.val := by
  rw [groupFrom_false]
  exact ((searchable.rows level).entry point valid).generated

theorem Searchable.below_le (strong : List (StrongGenerator n)) (level : Nat) :
    groupFrom strong false level ≤ groupFrom strong false 0 := by
  rw [groupFrom_false, groupFrom_false]
  exact closure_mono (strongFrom_anti (Nat.zero_le _))

theorem Searchable.split (searchable : Searchable strong chain) {level : Fin n}
    (member : g ∈ groupFrom strong false level.val) :
    ∃ point, chain.valid level point = true ∧ ∃ h ∈ groupFrom strong false (level.val + 1),
      g = entryOf chain level point * h := by
  have complete := fun first =>
    complete_of_strongGenerating searchable.proper searchable.rows searchable.generating first
  rw [← groupOf_chainFrom chain searchable.proper, ← SetLike.mem_coe,
    ← factored_eq (remainders_central _) (complete level.val), chainFrom_cons] at member
  obtain ⟨point, valid, h, deeper, same⟩ := member
  refine ⟨point, valid, h, ?_, same⟩
  rw [factored_eq (remainders_central _) (complete (level.val + 1))] at deeper
  rwa [SetLike.mem_coe, groupOf_chainFrom _ searchable.proper] at deeper

end

section
variable {candidate best : Indices n}

theorem compareSlots_zero {slots : List (Fin n)} (same : compareSlots candidate best slots = 0) :
    ∀ slot ∈ slots, candidate slot = best slot := by
  induction slots with
  | nil => simp
  | cons slot slots ih =>
    unfold compareSlots at same
    by_cases here : candidate slot = best slot
    · rw [if_neg (not_not.mpr here)] at same
      exact List.forall_mem_cons.mpr ⟨here, ih same⟩
    · exfalso
      rw [if_pos here] at same
      split_ifs at same
      omega

theorem compareSlots_decided {slots : List (Fin n)} (different : compareSlots candidate best slots ≠ 0) :
    ∃ before slot after, slots = before ++ slot :: after ∧ (∀ other ∈ before, candidate other = best other) ∧
      (compareSlots candidate best slots < 0 → candidate slot < best slot) ∧
      (0 < compareSlots candidate best slots → best slot < candidate slot) := by
  induction slots with
  | nil => exact absurd rfl different
  | cons slot slots ih =>
    unfold compareSlots at different ⊢
    by_cases here : candidate slot = best slot
    · rw [if_neg (not_not.mpr here)] at different ⊢
      obtain ⟨before, found, after, split, equal, less, greater⟩ := ih different
      refine ⟨slot :: before, found, after, by rw [split, List.cons_append], ?_, less, greater⟩
      exact List.forall_mem_cons.mpr ⟨here, equal⟩
    · rw [if_pos here]
      refine ⟨[], slot, slots, rfl, by simp, ?_, ?_⟩ <;> split_ifs <;> omega

theorem before_slot {count : Nat} {before after : List (Fin n)} {slot : Fin n}
    (split : (List.finRange n).take count = before ++ slot :: after) :
    slot.val < count ∧ ∀ other : Fin n, other < slot → other ∈ before := by
  have sorted : ((List.finRange n).take count).Pairwise (· < ·) :=
    List.Pairwise.sublist (List.take_sublist _ _) (List.pairwise_lt_finRange n)
  have inside : slot.val < count := by
    have member : slot ∈ (List.finRange n).take count := by simp [split]
    obtain ⟨i, bound, same⟩ := List.mem_take_iff_getElem.mp member
    rw [List.getElem_finRange] at same
    rw [← same]
    simp at bound ⊢
    omega
  refine ⟨inside, fun other less => ?_⟩
  have member : other ∈ (List.finRange n).take count := by
    rw [List.mem_take_iff_getElem]
    have := other.isLt
    exact ⟨other.val, by simp; omega, by simp⟩
  rw [split] at member sorted
  rcases List.mem_append.mp member with early | late
  · exact early
  · have next := (List.pairwise_append.mp sorted).2.1
    rcases List.mem_cons.mp late with rfl | later
    · exact absurd less (lt_irrefl _)
    · exact absurd less (not_lt.mpr ((List.pairwise_cons.mp next).1 other later).le)

theorem compareSlots_greater {count : Nat}
    (greater : 0 < compareSlots candidate best ((List.finRange n).take count)) {full : Indices n}
    (agree : ∀ slot : Fin n, slot.val < count → full slot = candidate slot) : toLex best < toLex full := by
  obtain ⟨before, slot, after, split, equal, _, above⟩ := compareSlots_decided (ne_of_gt greater)
  obtain ⟨inside, early⟩ := before_slot split
  refine ⟨slot, fun other less => ?_, ?_⟩
  · exact ((agree other (lt_trans less inside)).trans (equal other (early other less))).symm
  · exact lt_of_lt_of_eq (above greater) (agree slot inside).symm

theorem compareSlots_less {count : Nat}
    (less : compareSlots candidate best ((List.finRange n).take count) < 0) : toLex candidate < toLex best := by
  obtain ⟨before, slot, after, split, equal, below, _⟩ := compareSlots_decided (ne_of_lt less)
  exact ⟨slot, fun other earlier => equal other ((before_slot split).2 other earlier), below less⟩

theorem compareSlots_all (same : compareSlots candidate best ((List.finRange n).take n) = 0) : candidate = best := by
  rw [List.take_of_length_le (by simp)] at same
  exact funext fun slot => compareSlots_zero same slot (List.mem_finRange slot)

end

section
variable (G : Subgroup (Signed n)) (input : Indices n)

/-- A product that cannot improve on the best tuple nor reach it with the other sign. -/
def Covered (search : Search n) (g : Signed n) : Prop :=
  search.bestFound = true ∧ (toLex search.bestIndices < toLex (moved g input) ∨
    moved g input = search.bestIndices ∧ (g.1 : Int) = search.bestSign)

structure Honest (search : Search n) : Prop where
  found : search.bestFound = true → ∃ g ∈ G, moved g input = search.bestIndices ∧ (g.1 : Int) = search.bestSign
  reversal : search.zero = true → search.bestFound = true ∧ ∃ g ∈ G, g.1 = -1 ∧ moved g input = input

/-- Part of a search: rows of the levels above are kept, and nothing covered is lost. -/
structure Advances (level : Nat) (s t : Search n) : Prop where
  honest : Honest G input t
  covered : ∀ g, Covered input s g → Covered input t g
  stack : ∀ row ≤ level, t.permutationStack row = s.permutationStack row
  processed : ∀ row : Fin n, row.val < level → t.processedPoints row = s.processedPoints row

end

section
variable {G : Subgroup (Signed n)} {input : Indices n} {level : Nat} {s t u : Search n}

theorem Advances.refl (honest : Honest G input s) (level : Nat) : Advances G input level s s :=
  ⟨honest, fun _ held => held, fun _ _ => rfl, fun _ _ => rfl⟩

theorem Advances.trans (first : Advances G input level s t) (second : Advances G input level t u) :
    Advances G input level s u :=
  ⟨second.honest, fun g held => second.covered g (first.covered g held),
    fun row above => (second.stack row above).trans (first.stack row above),
    fun row above => (second.processed row above).trans (first.processed row above)⟩

theorem Advances.above {level' : Nat} (advances : Advances G input level' s t) (less : level ≤ level') :
    Advances G input level s t :=
  ⟨advances.honest, advances.covered, fun row above => advances.stack row (above.trans less),
    fun row above => advances.processed row (lt_of_lt_of_le above less)⟩

theorem reversal_of_tie {g h : Signed n} (left : g ∈ G) (right : h ∈ G) (tie : moved g input = moved h input)
    (different : g.1 ≠ h.1) : ∃ r ∈ G, r.1 = -1 ∧ moved r input = input := by
  refine ⟨g * h⁻¹, mul_mem left (inv_mem right), ?_, ?_⟩
  · rw [Prod.fst_mul, Prod.fst_inv]
    rcases Int.units_eq_one_or g.1 with one | minus <;> rcases Int.units_eq_one_or h.1 with one' | minus'
    · exact absurd (one.trans one'.symm) different
    · rw [one, minus']
      rfl
    · rw [minus, one']
      rfl
    · exact absurd (minus.trans minus'.symm) different
  · rw [moved_mul, tie, ← moved_mul, mul_inv_cancel, moved_one]

theorem visitComponentCandidate_spec (limits : ComponentLimits) {permutation : Image n} {sign : Int}
    (proper : Proper permutation sign) (member : elementOf permutation sign ∈ G) (honest : Honest G input s) :
    wp (visitComponentCandidate limits input permutation sign)
      (fun _ t => Advances G input n s t ∧ (t.zero = false → Covered input t (elementOf permutation sign)))
      (fun status _ => status = .timeout) s := by
  have reached := moved_elementOf proper input
  have signed := sign_elementOf proper
  unfold visitComponentCandidate
  simp only [wp_bind, wp_get]
  refine wp_ite (fun _ => rfl) (fun _ => ?_)
  simp only [wp_bind, wp_modify]
  refine wp_ite (fun better => ?_) (fun worse => ?_)
  · rw [wp_modify]
    refine ⟨⟨⟨fun _ => ⟨_, member, reached, signed⟩, fun zero => ⟨rfl, (honest.reversal zero).2⟩⟩, ?_, fun _ _ => rfl, fun _ _ => rfl⟩,
      fun _ => ⟨rfl, .inr ⟨reached, signed⟩⟩⟩
    rintro g ⟨found, known⟩
    rw [found] at better
    simp only [Bool.not_true, if_true, Bool.false_or, decide_eq_true_eq] at better
    have less := compareSlots_less better
    refine ⟨rfl, .inl ?_⟩
    rcases known with below | ⟨same, _⟩
    · exact lt_trans less below
    · rw [same]
      exact less
  · have found : s.bestFound = true := by
      cases flag : s.bestFound with
      | true => rfl
      | false => simp [flag] at worse
    rw [if_pos found] at worse ⊢
    simp only [found, Bool.not_true, Bool.false_or, decide_eq_true_eq, not_lt] at worse
    refine wp_ite (fun tie => ?_) (fun settled => ?_)
    · rw [wp_modify]
      simp only [Bool.and_eq_true, decide_eq_true_eq] at tie
      refine ⟨⟨⟨honest.found, fun _ => ?_⟩, fun _ held => held, fun _ _ => rfl, fun _ _ => rfl⟩,
        fun never => (by cases never)⟩
      obtain ⟨g, inside, same, sign_g⟩ := honest.found found
      have equal : (fun slot => input (permutation slot)) = s.bestIndices := compareSlots_all tie.1
      refine ⟨found, ?_⟩
      refine reversal_of_tie inside member (same.trans (equal.symm.trans reached.symm)) fun signs => tie.2 ?_
      rw [← sign_g, signs, signed]
    · rw [wp_pure]
      refine ⟨⟨⟨honest.found, honest.reversal⟩, fun _ held => held, fun _ _ => rfl, fun _ _ => rfl⟩, fun _ =>
        ⟨found, ?_⟩⟩
      rw [reached, signed]
      rcases lt_or_eq_of_le worse with greater | equal
      · exact .inl (compareSlots_greater greater fun _ _ => rfl)
      · refine .inr ⟨compareSlots_all equal.symm, ?_⟩
        by_contra other
        exact settled (by simpa [← equal] using Ne.symm other)

variable {strong : List (StrongGenerator n)} {chain : PermChain n} {limits : ComponentLimits}

theorem scanPoints_spec (level : Fin n) (points : List (Fin n)) (best : Option (Fin n × Nat)) (s : Search n) :
    wp (scanPoints chain limits input level points best)
      (fun result t => (∃ steps, t = { s with steps := steps }) ∧
        (result = best ∨ ∃ point value, result = some (point, value) ∧ s.processedPoints level point = false ∧
          chain.valid level point = true) ∧
        (result = none → ∀ point ∈ points, chain.valid level point = true → s.processedPoints level point = true))
      (fun status _ => status = .timeout) s := by
  induction points generalizing best s with
  | nil => exact ⟨⟨s.steps, rfl⟩, .inl rfl, fun _ _ member => (by cases member)⟩
  | cons point points ih =>
    unfold scanPoints
    simp only [wp_bind, wp_get]
    refine wp_ite (fun skipped => ?_) (fun considered => ?_)
    · refine wp_good (ih best s) ?_
      rintro result t ⟨only, source, none_left⟩
      refine ⟨only, source, fun none => List.forall_mem_cons.mpr ⟨fun valid => ?_, none_left none⟩⟩
      simpa [valid] using skipped
    · refine wp_ite (fun _ => rfl) (fun _ => ?_)
      rw [wp_bind, wp_set]
      simp only [Bool.or_eq_true, Bool.not_eq_true', not_or, Bool.not_eq_true, Bool.not_eq_false] at considered
      have goOn : ∀ next : Option (Fin n × Nat),
          (next = best ∨ ∃ value, next = some (point, value)) → next ≠ none →
          wp (scanPoints chain limits input level points next)
            (fun result t => (∃ steps, t = { s with steps := steps }) ∧
              (result = best ∨ ∃ point value, result = some (point, value) ∧
                s.processedPoints level point = false ∧ chain.valid level point = true) ∧
              (result = none → ∀ other ∈ point :: points, chain.valid level other = true →
                s.processedPoints level other = true))
            (fun status _ => status = .timeout) { s with steps := s.steps + n } := by
        intro next origin present
        refine wp_good (ih next _) ?_
        rintro result t ⟨⟨steps, only⟩, source, _⟩
        have found : result = best ∨ ∃ point value, result = some (point, value) ∧
            s.processedPoints level point = false ∧ chain.valid level point = true := by
          rcases source with rfl | later
          · rcases origin with kept | ⟨value, taken⟩
            · exact .inl kept
            · exact .inr ⟨point, value, taken, considered⟩
          · exact .inr later
        refine ⟨⟨steps, only⟩, found, fun absent => ?_⟩
        rcases source with same | ⟨_, _, some, _⟩
        · exact absurd (same.symm.trans absent) present
        · rw [some] at absent
          cases absent
      cases best with
      | none => exact goOn _ (.inr ⟨_, rfl⟩) (by simp)
      | some known =>
        refine goOn _ ?_ ?_
        · split_ifs
          · exact .inr ⟨_, rfl⟩
          · exact .inl rfl
        · split_ifs <;> simp

theorem choosePoint_spec (level : Fin n) (s : Search n)
    (left : ∃ point, chain.valid level point = true ∧ s.processedPoints level point = false) :
    wp (choosePoint chain limits input level)
      (fun point t => chain.valid level point = true ∧ s.processedPoints level point = false ∧
        ∃ steps, t = { s with
          steps := steps
          processedPoints :=
            Function.update s.processedPoints level (Function.update (s.processedPoints level) point true) })
      (fun status _ => status = .timeout) s := by
  unfold choosePoint
  refine wp_then (scanPoints_spec level (List.finRange n) none s) ?_
  rintro result t ⟨⟨steps, rfl⟩, source, exhausted⟩
  rcases source with rfl | ⟨point, value, rfl, fresh, valid⟩
  · obtain ⟨point, valid, fresh⟩ := left
    have processed := exhausted rfl point (List.mem_finRange point) valid
    rw [fresh] at processed
    cases processed
  · exact ⟨valid, fresh, steps, rfl⟩

variable (G input strong chain) in
/-- What the search owes below a node at a level with the product `p` on its stack. -/
def Explores (level : Nat) (p : Signed n) (s t : Search n) : Prop :=
  Advances G input level s t ∧ (t.zero = false → ∀ h ∈ groupFrom strong false level, Covered input t (p * h))

variable (G input strong chain) in
/-- Between two choices of a level: everything below the points processed so far is covered. -/
structure Choosing (level : Fin n) (p : Signed n) (start s : Search n) (remaining : Nat) : Prop where
  advances : Advances G input level.val start s
  going : s.zero = false
  settled : ∀ point, s.processedPoints level point = true → chain.valid level point = true ∧
    ∀ h ∈ groupFrom strong false (level.val + 1), Covered input s (p * (entryOf chain level point * h))
  counted : {point | s.processedPoints level point = true}.ncard + remaining = chain.orbitCount level

theorem Choosing.left {level : Fin n} {p : Signed n} {start : Search n} {remaining : Nat}
    (choosing : Choosing G input strong chain level p start s (remaining + 1))
    (searchable : Searchable strong chain) :
    ∃ point, chain.valid level point = true ∧ s.processedPoints level point = false := by
  by_contra none
  have all : {point | chain.valid level point = true} ⊆ {point | s.processedPoints level point = true} := by
    intro point valid
    by_contra fresh
    exact none ⟨point, valid, by simpa using fresh⟩
  have less := Set.ncard_le_ncard all
  rw [← (searchable.rows level).counted, ← choosing.counted] at less
  omega

theorem Choosing.finished {level : Fin n} {p : Signed n} {start : Search n}
    (choosing : Choosing G input strong chain level p start s 0) (searchable : Searchable strong chain) :
    Explores G input strong level.val p start s := by
  have all : {point | s.processedPoints level point = true} = {point | chain.valid level point = true} := by
    refine Set.eq_of_subset_of_ncard_le (fun point done => (choosing.settled point done).1) ?_
    rw [← (searchable.rows level).counted, ← choosing.counted]
    rfl
  refine ⟨choosing.advances, fun _ h member => ?_⟩
  obtain ⟨point, valid, rest, deeper, rfl⟩ := searchable.split member
  have done : point ∈ {point | s.processedPoints level point = true} := all ▸ valid
  exact (choosing.settled point done).2 rest deeper

theorem Choosing.next {level : Fin n} {p : Signed n} {start : Search n} {remaining : Nat} {point : Fin n}
    (choosing : Choosing G input strong chain level p start s (remaining + 1))
    (fresh : s.processedPoints level point = false) (valid : chain.valid level point = true)
    (row : t.processedPoints level = Function.update (s.processedPoints level) point true)
    (advances : Advances G input level.val s t) (going : t.zero = false)
    (below : ∀ h ∈ groupFrom strong false (level.val + 1), Covered input t (p * (entryOf chain level point * h))) :
    Choosing G input strong chain level p start t remaining := by
  refine ⟨choosing.advances.trans advances, going, fun other done => ?_, ?_⟩
  · rw [row] at done
    by_cases here : other = point
    · subst here
      exact ⟨valid, below⟩
    · rw [Function.update_of_ne here] at done
      obtain ⟨known, settled⟩ := choosing.settled other done
      exact ⟨known, fun h member => advances.covered _ (settled h member)⟩
  · have grown : {other | t.processedPoints level other = true} =
        insert point {other | s.processedPoints level other = true} := by
      ext other
      rw [Set.mem_insert_iff, Set.mem_ofPred_eq, Set.mem_ofPred_eq, row]
      by_cases here : other = point
      · simp [here]
      · simp [here]
    have outside : point ∉ {other | s.processedPoints level other = true} := by simp [fresh]
    rw [grown, Set.ncard_insert_of_notMem outside, ← choosing.counted]
    omega

/-- Once the next row of the stack has been written, a branch is cut or explored. -/
theorem descend_spec {level point : Fin n} {sign : Int} {image : Image n} {s : Search n}
    (searchable : Searchable strong chain) (within : groupFrom strong false 0 ≤ G)
    (valid : chain.valid level point = true) (proper : Proper image sign)
    (row : s.permutationStack level = image) (member : elementOf image sign ∈ G) (honest : Honest G input s)
    (going : s.zero = false)
    (deeper : ∀ (sign' : Int) (image' : Image n) (s : Search n), Proper image' sign' →
      s.permutationStack (level.val + 1) = image' → elementOf image' sign' ∈ G → Honest G input s →
      wp (traverseComponents chain limits input (levelsFrom (level.val + 1)) sign')
        (fun _ t => Explores G input strong (level.val + 1) (elementOf image' sign') s t)
        (fun status _ => status = .timeout) s) :
    wp (do
        let cut ← enterPoint chain input level point
        if cut then pure false
        else do
          traverseComponents chain limits input (levelsFrom (level.val + 1)) (sign * chain.sign level point)
          let search ← get
          pure search.zero)
      (fun left t => left = t.zero ∧ Advances G input level.val s t ∧
        t.processedPoints level = s.processedPoints level ∧
        (t.zero = false → ∀ h ∈ groupFrom strong false (level.val + 1),
          Covered input t (elementOf image sign * (entryOf chain level point * h))))
      (fun status _ => status = .timeout) s := by
  have entry := (searchable.rows level).entry point valid
  have product : elementOf (permComposeUnchecked image (chain.transversal level point))
      (sign * chain.sign level point) = elementOf image sign * entryOf chain level point :=
    elementOf_compose proper entry.proper
  have proper' := proper.compose entry.proper
  have member' : elementOf image sign * entryOf chain level point ∈ G :=
    mul_mem member (within (Searchable.below_le strong level.val (searchable.entry_mem valid)))
  unfold enterPoint
  simp only [wp_bind, wp_get, wp_set, wp_pure, row]
  have entered : ∀ stack, (∀ r ≤ level.val, stack r = s.permutationStack r) →
      Advances G input level.val s { s with permutationStack := stack } := fun stack kept =>
    ⟨⟨honest.found, honest.reversal⟩, fun _ held => held, kept, fun _ _ => rfl⟩
  have kept : ∀ r ≤ level.val, Function.update s.permutationStack (level.val + 1)
      (permComposeUnchecked image (chain.transversal level point)) r = s.permutationStack r :=
    fun r above => Function.update_of_ne (by omega) _ _
  refine wp_ite (fun cut => ?_) (fun _ => ?_)
  · -- every product below agrees with the new row on the slots that have been compared
    simp only [Bool.and_eq_true, decide_eq_true_eq] at cut
    refine ⟨going.symm, entered _ kept, rfl, fun _ h below => ⟨cut.1, .inl ?_⟩⟩
    refine compareSlots_greater cut.2 fun slot inside => ?_
    rw [← mul_assoc, ← product, moved_mul, moved_elementOf proper']
    exact congrArg (fun at' => input (permComposeUnchecked image (chain.transversal level point) at'))
      (searchable.fixes below inside)
  · simp only [wp_bind, wp_get, wp_pure]
    refine wp_good (deeper _ _ _ proper' (Function.update_self ..) (product ▸ member')
      ⟨honest.found, honest.reversal⟩) ?_
    rintro _ t ⟨advances, covered⟩
    refine ⟨trivial, (entered _ kept).trans (advances.above (Nat.le_succ _)),
      advances.processed level (Nat.lt_succ_self _), fun open' h below => ?_⟩
    have settled := covered open' h below
    rwa [product, mul_assoc] at settled

theorem traverseComponents_spec (searchable : Searchable strong chain) (within : groupFrom strong false 0 ≤ G)
    (start : Nat) (small : start ≤ n) (sign : Int) (image : Image n) (s : Search n) (proper : Proper image sign)
    (row : s.permutationStack start = image) (member : elementOf image sign ∈ G) (honest : Honest G input s) :
    wp (traverseComponents chain limits input (levelsFrom start) sign)
      (fun _ t => Explores G input strong start (elementOf image sign) s t)
      (fun status _ => status = .timeout) s := by
  induction start using levels_induction (n := n) generalizing sign image s with
  | last start past =>
    obtain rfl : start = n := by omega
    rw [levelsFrom_end (Nat.le_refl _), traverseComponents, wp_bind, wp_get]
    refine wp_ite (fun zero => ?_) (fun _ => ?_)
    · refine ⟨.refl honest _, fun going => ?_⟩
      rw [zero] at going
      cases going
    · rw [row]
      refine wp_good (visitComponentCandidate_spec limits proper member honest) ?_
      rintro _ t ⟨advances, covered⟩
      refine ⟨advances, fun going h below => ?_⟩
      rw [searchable.last below, mul_one]
      exact covered going
  | step level deeper =>
    rw [levelsFrom_cons, traverseComponents, wp_bind, wp_get]
    refine wp_ite (fun zero => ?_) (fun going => ?_)
    · refine ⟨.refl honest _, fun going => ?_⟩
      rw [zero] at going
      cases going
    · rw [wp_bind, wp_set]
      have turns : ∀ remaining u, u.permutationStack level = image →
          Choosing G input strong chain level (elementOf image sign) s u remaining →
          wp (eachChoice (choosePoint chain limits input level)
              (fun point => do
                let cut ← enterPoint chain input level point
                if cut then pure false
                else do
                  traverseComponents chain limits input (levelsFrom (level.val + 1)) (sign * chain.sign level point)
                  let search ← get
                  pure search.zero) remaining)
            (fun _ t => Explores G input strong level.val (elementOf image sign) s t)
            (fun status _ => status = .timeout) u := by
        intro remaining
        induction remaining with
        | zero => exact fun u _ choosing => choosing.finished searchable
        | succ remaining ih =>
          intro u stacked choosing
          unfold eachChoice
          refine wp_then (choosePoint_spec level u (choosing.left searchable)) ?_
          rintro point v ⟨valid, fresh, steps, rfl⟩
          have chosen : Advances G input level.val u { u with
              steps := steps
              processedPoints := Function.update u.processedPoints level
                (Function.update (u.processedPoints level) point true) } :=
            ⟨⟨choosing.advances.honest.found, choosing.advances.honest.reversal⟩, fun _ held => held, fun _ _ => rfl,
              fun r above => Function.update_of_ne (by rintro rfl; omega) _ _⟩
          refine wp_then (descend_spec searchable within valid proper stacked member chosen.honest choosing.going
            (fun sign' image' s' => deeper level.isLt sign' image' s')) ?_
          rintro left w ⟨rfl, advances, same, covered⟩
          have whole := chosen.trans advances
          refine wp_ite (fun reversed => ?_) (fun open' => ?_)
          · refine ⟨choosing.advances.trans whole, fun going => ?_⟩
            rw [reversed] at going
            cases going
          · have going' : w.zero = false := by simpa using open'
            refine ih w ((whole.stack level (Nat.le_refl _)).trans stacked) (choosing.next fresh valid ?_ whole going'
              (covered going'))
            rw [same]
            exact Function.update_self ..
      refine turns _ _ row ⟨⟨⟨honest.found, honest.reversal⟩, fun _ held => held, fun _ _ => rfl, fun r above =>
        Function.update_of_ne (by rintro rfl; omega) _ _⟩, by simpa using going, fun point done => ?_, ?_⟩
      · have blank : Function.update s.processedPoints level (fun _ => false) level point = true := done
        rw [Function.update_self] at blank
        cases blank
      · simp

end

end PhyNspire.Component

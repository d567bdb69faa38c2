import Mathlib.Data.List.DropRight
import Mathlib.Tactic.Ring
import Mathlib.Tactic.Linarith

/-!
Natural numbers written as words of `w` bits, least significant word first. The
lemmas here are about one word being read, appended or replaced; a carry chain over
whole numbers is an induction that uses one of them at each index.
-/

namespace PhyNspire.Lib.Limbs

variable {w : Nat}

def value : List (BitVec w) → Nat
  | [] => 0
  | word :: rest => word.toNat + 2 ^ w * value rest

def digit (words : List (BitVec w)) (index : Nat) : Nat :=
  (words.getD index 0#w).toNat

@[simp] theorem value_nil : value ([] : List (BitVec w)) = 0 := rfl

@[simp] theorem value_cons (word : BitVec w) (rest : List (BitVec w)) :
    value (word :: rest) = word.toNat + 2 ^ w * value rest := rfl

theorem digit_lt (words : List (BitVec w)) (index : Nat) : digit words index < 2 ^ w :=
  (words.getD index 0#w).isLt

variable {words : List (BitVec w)} {index : Nat}

theorem digit_of_le (above : words.length ≤ index) :
    digit words index = 0 := by
  simp [digit, List.getElem?_eq_none above]

theorem value_append (low high : List (BitVec w)) :
    value (low ++ high) = value low + (2 ^ w) ^ low.length * value high := by
  induction low with
  | nil => simp
  | cons word rest ih =>
    simp only [List.cons_append, value_cons, ih, List.length_cons]
    ring

theorem value_lt (words : List (BitVec w)) : value words < (2 ^ w) ^ words.length := by
  induction words with
  | nil => simp
  | cons word rest ih =>
    have low := word.isLt
    have high : 2 ^ w * (value rest + 1) ≤ 2 ^ w * (2 ^ w) ^ rest.length := Nat.mul_le_mul_left _ ih
    simp only [value_cons, List.length_cons, pow_succ, Nat.mul_add, Nat.mul_one] at high ⊢
    rw [Nat.mul_comm ((2 ^ w) ^ rest.length)]
    omega

theorem value_replicate_zero (count : Nat) : value (List.replicate count 0#w) = 0 := by
  induction count with
  | zero => rfl
  | succ count ih => simp [List.replicate_succ, ih]

variable {count : Nat}

theorem value_take_of_le (all : words.length ≤ count) :
    value (words.take count) = value words := by
  rw [List.take_of_length_le all]

theorem value_take_succ (words : List (BitVec w)) (count : Nat) :
    value (words.take (count + 1)) =
      value (words.take count) + (2 ^ w) ^ count * digit words count := by
  by_cases inside : count < words.length
  · rw [List.take_add_one, value_append, List.length_take, Nat.min_eq_left inside.le]
    simp [digit, List.getElem?_eq_getElem inside]
  · have above : words.length ≤ count := Nat.le_of_not_lt inside
    rw [value_take_of_le above, value_take_of_le (Nat.le_succ_of_le above), digit_of_le above]
    simp

theorem value_drop (inside : count < words.length) :
    value (words.drop count) = digit words count + 2 ^ w * value (words.drop (count + 1)) := by
  rw [List.drop_eq_getElem_cons inside, value_cons]
  simp [digit, List.getElem?_eq_getElem inside]

theorem carry_column (low index total : Nat) :
    low + (2 ^ w) ^ index * (total % 2 ^ w) + (2 ^ w) ^ (index + 1) * (total / 2 ^ w) =
      low + (2 ^ w) ^ index * total := by
  have split := Nat.mod_add_div total (2 ^ w)
  calc
    _ = low + (2 ^ w) ^ index * (total % 2 ^ w + 2 ^ w * (total / 2 ^ w)) := by
      rw [pow_succ]
      ring
    _ = _ := by rw [split]

theorem digit_set_self (inside : index < words.length)
    (word : BitVec w) : digit (words.set index word) index = word.toNat := by
  simp [digit, List.getElem?_set_self inside]

theorem digit_set_of_ne {other : Nat} (different : index ≠ other)
    (word : BitVec w) : digit (words.set index word) other = digit words other := by
  simp [digit, List.getElem?_set_ne different]

theorem value_set (inside : index < words.length) (word : BitVec w) :
    value (words.set index word) + (2 ^ w) ^ index * digit words index =
      value words + (2 ^ w) ^ index * word.toNat := by
  induction words generalizing index with
  | nil => simp at inside
  | cons head rest ih =>
    cases index with
    | zero => simp [digit, Nat.add_comm, Nat.add_left_comm]
    | succ index =>
      have tail := @ih index (by simpa using inside)
      simp only [List.set_cons_succ, value_cons, pow_succ]
      have same : digit (head :: rest) (index + 1) = digit rest index := by simp [digit]
      rw [same]
      calc
        _ = head.toNat + 2 ^ w * (value (rest.set index word) + (2 ^ w) ^ index * digit rest index) := by
          ring
        _ = head.toNat + 2 ^ w * (value rest + (2 ^ w) ^ index * word.toNat) := by rw [tail]
        _ = _ := by ring

/-- The top word of a number in normal form is not zero. -/
def Normal (words : List (BitVec w)) : Prop :=
  ∀ top ∈ words.getLast?, top ≠ 0#w

def trim (words : List (BitVec w)) : List (BitVec w) :=
  words.rdropWhile (· = 0#w)

theorem normal_nil : Normal ([] : List (BitVec w)) := by simp [Normal]

theorem normal_append_singleton {top : BitVec w} :
    Normal (words ++ [top]) ↔ top ≠ 0#w := by
  simp [Normal]

theorem trim_normal (words : List (BitVec w)) : Normal (trim words) := by
  intro top last
  by_cases empty : trim words = []
  · simp [empty] at last
  · have kept := List.rdropWhile_last_not (fun word => decide (word = 0#w)) words empty
    rw [List.getLast?_eq_some_getLast empty, Option.mem_some_iff] at last
    subst last
    simpa [trim] using kept

theorem trim_length_le (words : List (BitVec w)) : (trim words).length ≤ words.length :=
  (List.rdropWhile_prefix _ words).length_le

theorem value_trim (words : List (BitVec w)) : value (trim words) = value words := by
  induction words using List.reverseRecOn with
  | nil => rfl
  | append_singleton rest top ih =>
    by_cases zero : top = 0#w
    · subst zero
      rw [trim, List.rdropWhile_concat_pos _ _ _ (by simp), ← trim, ih, value_append]
      simp
    · rw [trim, List.rdropWhile_concat_neg _ _ _ (by simpa using zero)]

theorem pow_le_value (normal : Normal words) (some : words ≠ []) : (2 ^ w) ^ (words.length - 1) ≤ value words := by
  obtain ⟨rest, top, rfl⟩ : ∃ rest top, words = rest ++ [top] :=
    ⟨_, _, (List.dropLast_append_getLast some).symm⟩
  have nonzero : top ≠ 0#w := normal_append_singleton.mp normal
  have positive : 0 < top.toNat := by
    rcases Nat.eq_zero_or_pos top.toNat with zero | positive
    · exact absurd (BitVec.eq_of_toNat_eq (by simpa using zero)) nonzero
    · exact positive
  rw [value_append]
  simp only [List.length_append, List.length_singleton, Nat.add_sub_cancel, value_cons, value_nil,
    Nat.mul_zero, Nat.add_zero]
  exact le_add_left (Nat.le_mul_of_pos_right _ positive)

theorem normal_of_pow_le (large : (2 ^ w) ^ (words.length - 1) ≤ value words) :
    Normal words := by
  intro top last
  obtain ⟨rest, rfl⟩ := List.getLast?_eq_some_iff.mp last
  rintro rfl
  have low := value_lt rest
  rw [value_append] at large
  simp only [List.length_append, List.length_singleton, Nat.add_sub_cancel, value_cons, value_nil,
    BitVec.toNat_ofNat, Nat.zero_mod, Nat.mul_zero, Nat.add_zero] at large
  omega

theorem value_eq_zero (normal : Normal words) :
    value words = 0 ↔ words = [] := by
  constructor
  · intro zero
    by_contra some
    have lower := pow_le_value normal some
    have positive : 0 < (2 ^ w) ^ (words.length - 1) := by positivity
    omega
  · rintro rfl
    rfl

variable {left right : List (BitVec w)}

theorem value_lt_of_length_lt (normal : Normal right)
    (shorter : left.length < right.length) : value left < value right := by
  have some : right ≠ [] := by rintro rfl; simp at shorter
  calc
    value left < (2 ^ w) ^ left.length := value_lt left
    _ ≤ (2 ^ w) ^ (right.length - 1) := Nat.pow_le_pow_right (by positivity) (by omega)
    _ ≤ value right := pow_le_value normal some

theorem value_take_lt_of_digit (top : digit left count < digit right count) :
    value (left.take (count + 1)) < value (right.take (count + 1)) := by
  have low : value (left.take count) < (2 ^ w) ^ count :=
    lt_of_lt_of_le (value_lt _)
      (Nat.pow_le_pow_right (by positivity) (by rw [List.length_take]; exact Nat.min_le_left _ _))
  have high : (2 ^ w) ^ count * (digit left count + 1) ≤ (2 ^ w) ^ count * digit right count :=
    Nat.mul_le_mul_left _ top
  rw [value_take_succ, value_take_succ]
  rw [Nat.mul_add, Nat.mul_one] at high
  omega

theorem value_div_pow_mod (words : List (BitVec w)) (index : Nat) :
    value words / (2 ^ w) ^ index % 2 ^ w = digit words index := by
  induction words generalizing index with
  | nil => simp [digit]
  | cons word rest ih =>
    have low := word.isLt
    cases index with
    | zero => simp [digit, Nat.add_mul_mod_self_left, Nat.mod_eq_of_lt low]
    | succ index =>
      have shifted : digit (word :: rest) (index + 1) = digit rest index := by simp [digit]
      rw [value_cons, pow_succ', ← Nat.div_div_eq_div_mul, Nat.add_mul_div_left _ _ (by positivity),
        Nat.div_eq_of_lt low, Nat.zero_add, ih, shifted]

theorem value_injective (same : left.length = right.length) (values : value left = value right) : left = right := by
  induction left generalizing right with
  | nil => cases right with
    | nil => rfl
    | cons => simp at same
  | cons word rest ih =>
    cases right with
    | nil => simp at same
    | cons word' rest' =>
      simp only [value_cons] at values
      have low := word.isLt
      have low' := word'.isLt
      have heads : word.toNat = word'.toNat := by
        have := congrArg (· % 2 ^ w) values
        simpa [Nat.add_mul_mod_self_left, Nat.mod_eq_of_lt low, Nat.mod_eq_of_lt low'] using this
      have tails : value rest = value rest' :=
        Nat.eq_of_mul_eq_mul_left (by positivity) (by omega : 2 ^ w * value rest = 2 ^ w * value rest')
      rw [BitVec.eq_of_toNat_eq heads, ih (by simpa using same) tails]

theorem normal_unique (first : Normal left) (second : Normal right)
    (values : value left = value right) : left = right := by
  rcases Nat.lt_trichotomy left.length right.length with shorter | same | longer
  · exact absurd values (value_lt_of_length_lt second shorter).ne
  · exact value_injective same values
  · exact absurd values (value_lt_of_length_lt first longer).ne'

end PhyNspire.Lib.Limbs

import Mathlib.Data.Nat.Digits.Lemmas

/-!
Decimal notation as bytes. The digits of a natural number have no leading zero, so equal
numbers have equal notation, and notations are ordered like the numbers when the shorter
comes first and those of one length are compared byte by byte.
-/

namespace PhyNspire.Lib.Decimal

def digitByte (digit : Nat) : UInt8 := UInt8.ofNat (48 + digit)

def naturalText (n : Nat) : List UInt8 :=
  if n = 0 then [48] else ((Nat.digits 10 n).map digitByte).reverse

def integerText (z : Int) : List UInt8 :=
  if z < 0 then 45 :: naturalText z.natAbs else naturalText z.natAbs

def continued (n : Nat) (digits : List UInt8) : Nat :=
  digits.foldl (fun n digit => n * 10 + (digit.toNat - 48)) n

section Digits

variable {n m digit : Nat}

theorem toNat_digitByte (small : digit < 10) : (digitByte digit).toNat = 48 + digit := by
  rw [digitByte, UInt8.toNat_ofNat']
  omega

theorem continued_append (n : Nat) (first second : List UInt8) :
    continued n (first ++ second) = continued (continued n first) second := List.foldl_append

theorem continued_reverse_digits (ds : List Nat) (small : ∀ d ∈ ds, d < 10) :
    continued 0 ((ds.map digitByte).reverse) = Nat.ofDigits 10 ds := by
  induction ds with
  | nil => rfl
  | cons d ds ih =>
    rw [List.map_cons, List.reverse_cons, continued_append, ih (fun e inside => small e (List.mem_cons_of_mem _ inside)),
      Nat.ofDigits_cons]
    simp only [continued, List.foldl_cons, List.foldl_nil, toNat_digitByte (small d List.mem_cons_self)]
    omega

theorem continued_naturalText (n : Nat) : continued 0 (naturalText n) = n := by
  unfold naturalText
  split
  · rename_i zero
    subst zero
    rfl
  · rw [continued_reverse_digits _ (fun d inside => Nat.digits_lt_base (by decide) inside), Nat.ofDigits_digits]

theorem naturalText_injective (same : naturalText n = naturalText m) : n = m := by
  rw [← continued_naturalText n, same, continued_naturalText]

theorem naturalText_ne_nil (n : Nat) : naturalText n ≠ [] := by
  unfold naturalText
  split
  · exact List.cons_ne_nil _ _
  · rename_i positive
    simpa [Nat.digits_eq_nil_iff_eq_zero] using positive

theorem mem_naturalText {byte : UInt8} (inside : byte ∈ naturalText n) : ∃ d < 10, byte = digitByte d := by
  unfold naturalText at inside
  split at inside
  · exact ⟨0, by decide, List.mem_singleton.mp inside⟩
  · rw [List.mem_reverse, List.mem_map] at inside
    obtain ⟨d, member, rfl⟩ := inside
    exact ⟨d, Nat.digits_lt_base (by decide) member, rfl⟩

theorem digitByte_ne_minus (small : digit < 10) : digitByte digit ≠ 45 := by
  intro same
  have value := congrArg UInt8.toNat same
  rw [toNat_digitByte small] at value
  change 48 + digit = 45 at value
  omega

theorem head_naturalText_ne_minus (n : Nat) : (naturalText n).head? ≠ some 45 := by
  intro minus
  obtain ⟨d, small, same⟩ := mem_naturalText (List.mem_of_head? minus)
  exact digitByte_ne_minus small same.symm

theorem head_integerText (z : Int) : (integerText z).head? = some 45 ↔ z < 0 := by
  unfold integerText
  split
  · rename_i negative
    simp [negative]
  · rename_i positive
    simp [head_naturalText_ne_minus, positive]

theorem integerText_ne_nil (z : Int) : integerText z ≠ [] := by
  unfold integerText
  split
  · exact List.cons_ne_nil _ _
  · exact naturalText_ne_nil _

theorem integerText_injective {a b : Int} (same : integerText a = integerText b) : a = b := by
  have signs : a < 0 ↔ b < 0 := by rw [← head_integerText, same, head_integerText]
  unfold integerText at same
  by_cases negative : a < 0
  · rw [if_pos negative, if_pos (signs.mp negative)] at same
    have values := naturalText_injective (List.cons.inj same).2
    omega
  · rw [if_neg negative, if_neg (fun other => negative (signs.mpr other))] at same
    have values := naturalText_injective same
    omega

def textValue (text : List UInt8) : Int :=
  if text.head? = some 45 then -(continued 0 text.tail : Int) else continued 0 text

theorem textValue_integerText (z : Int) : textValue (integerText z) = z := by
  unfold textValue
  simp only [head_integerText]
  unfold integerText
  split
  · rw [List.tail_cons, continued_naturalText]
    omega
  · rw [continued_naturalText]
    omega

end Digits

section Order

def compareText (left right : List UInt8) : Ordering :=
  (compare left.length right.length).then (List.compareLex compare left right)

theorem continued_start (n : Nat) (digits : List UInt8) :
    continued n digits = n * 10 ^ digits.length + continued 0 digits := by
  induction digits using List.reverseRecOn with
  | nil => simp [continued]
  | append_singleton digits digit ih =>
    rw [continued_append, continued_append, ih, List.length_append, List.length_singleton, pow_succ]
    simp only [continued, List.foldl_cons, List.foldl_nil]
    ring

theorem continued_lt (digits : List UInt8) (small : ∀ byte ∈ digits, byte.toNat - 48 < 10) :
    continued 0 digits < 10 ^ digits.length := by
  induction digits using List.reverseRecOn with
  | nil => simp [continued]
  | append_singleton digits digit ih =>
    have here := small digit (by simp)
    have before := ih (fun byte inside => small byte (by simp [inside]))
    rw [continued_append, List.length_append, List.length_singleton, pow_succ]
    simp only [continued, List.foldl_cons, List.foldl_nil] at before ⊢
    omega

theorem compareLex_digits {left right : List UInt8} (lengths : left.length = right.length)
    (first : ∀ byte ∈ left, ∃ d < 10, byte = digitByte d) (second : ∀ byte ∈ right, ∃ d < 10, byte = digitByte d) :
    List.compareLex compare left right = compare (continued 0 left) (continued 0 right) := by
  have small : ∀ {bytes : List UInt8}, (∀ byte ∈ bytes, ∃ d < 10, byte = digitByte d) →
      ∀ byte ∈ bytes, byte.toNat - 48 < 10 := by
    intro bytes shape byte inside
    obtain ⟨d, low, rfl⟩ := shape byte inside
    rw [toNat_digitByte low]
    omega
  induction left generalizing right with
  | nil =>
    cases right with
    | nil => rfl
    | cons _ _ => simp at lengths
  | cons x left ih =>
    cases right with
    | nil => simp at lengths
    | cons y right =>
      have same : left.length = right.length := by simpa using lengths
      have first' : ∀ byte ∈ left, ∃ d < 10, byte = digitByte d :=
        fun byte inside => first byte (List.mem_cons_of_mem _ inside)
      have second' : ∀ byte ∈ right, ∃ d < 10, byte = digitByte d :=
        fun byte inside => second byte (List.mem_cons_of_mem _ inside)
      obtain ⟨d, low, rfl⟩ := first x List.mem_cons_self
      obtain ⟨e, low', rfl⟩ := second y List.mem_cons_self
      have bound := continued_lt left (small first')
      have bound' := continued_lt right (small second')
      have unfolded : ∀ digit < 10, ∀ rest : List UInt8,
          continued 0 (digitByte digit :: rest) = digit * 10 ^ rest.length + continued 0 rest := by
        intro digit low rest
        have start : continued 0 (digitByte digit :: rest) = continued digit rest := by
          simp only [continued, List.foldl_cons, toNat_digitByte low, Nat.zero_mul, Nat.zero_add,
            Nat.add_sub_cancel_left]
        rw [start, continued_start]
      have bytes : compare (digitByte d) (digitByte e) = compare d e := by
        change compareOfLessAndEq (digitByte d) (digitByte e) = compareOfLessAndEq d e
        unfold compareOfLessAndEq
        simp only [UInt8.lt_iff_toNat_lt, ← UInt8.toNat_inj, toNat_digitByte low, toNat_digitByte low',
          Nat.add_lt_add_iff_left, Nat.add_left_cancel_iff]
      rw [List.compareLex_cons_cons, ih same first' second', bytes, unfolded d low left, unfolded e low' right, same]
      rw [same] at bound
      rcases Nat.lt_trichotomy d e with less | rfl | more
      · have wide : d * 10 ^ right.length + continued 0 left < e * 10 ^ right.length + continued 0 right := by
          have step : (d + 1) * 10 ^ right.length ≤ e * 10 ^ right.length := Nat.mul_le_mul_right _ less
          rw [Nat.add_mul, Nat.one_mul] at step
          omega
        rw [Nat.compare_eq_lt.mpr less, Nat.compare_eq_lt.mpr wide]
        rfl
      · rw [Nat.compare_eq_eq.mpr rfl]
        change compare _ _ = _
        unfold compare instOrdNat compareOfLessAndEq
        simp only [Nat.add_lt_add_iff_left, Nat.add_left_cancel_iff]
      · have wide : e * 10 ^ right.length + continued 0 right < d * 10 ^ right.length + continued 0 left := by
          have step : (e + 1) * 10 ^ right.length ≤ d * 10 ^ right.length := Nat.mul_le_mul_right _ more
          rw [Nat.add_mul, Nat.one_mul] at step
          omega
        rw [Nat.compare_eq_gt.mpr more, Nat.compare_eq_gt.mpr wide]
        rfl

theorem length_naturalText_le {n m : Nat} (order : n ≤ m) : (naturalText n).length ≤ (naturalText m).length := by
  unfold naturalText
  split
  · split
    · exact le_rfl
    · rename_i zero positive
      simp only [List.length_singleton, List.length_reverse, List.length_map]
      exact Nat.pos_of_ne_zero (by simpa [Nat.digits_eq_nil_iff_eq_zero] using positive)
  · rw [if_neg (by omega)]
    simp only [List.length_reverse, List.length_map]
    exact Nat.le_length_digits_le 10 n m order

theorem compareText_naturalText (n m : Nat) : compareText (naturalText n) (naturalText m) = compare n m := by
  unfold compareText
  rcases Nat.lt_trichotomy (naturalText n).length (naturalText m).length with less | same | more
  · have order : n < m := by
      by_contra other
      have := length_naturalText_le (Nat.le_of_not_lt other)
      omega
    rw [Nat.compare_eq_lt.mpr less, Nat.compare_eq_lt.mpr order]
    rfl
  · rw [Nat.compare_eq_eq.mpr same, compareLex_digits same (fun _ => mem_naturalText) (fun _ => mem_naturalText),
      continued_naturalText, continued_naturalText]
    rfl
  · have order : m < n := by
      by_contra other
      have := length_naturalText_le (Nat.le_of_not_lt other)
      omega
    rw [Nat.compare_eq_gt.mpr more, Nat.compare_eq_gt.mpr order]
    rfl

end Order

section Chunks

/-- The digits of a number below a power of ten, filled up with zeros. -/
def paddedDigits (width n : Nat) : List Nat := Nat.digits 10 n ++ List.replicate (width - (Nat.digits 10 n).length) 0

theorem digits_chunk {width low high : Nat} (below : low < 10 ^ width) (positive : 0 < high) :
    Nat.digits 10 (low + 10 ^ width * high) = paddedDigits width low ++ Nat.digits 10 high := by
  have short : (Nat.digits 10 low).length ≤ width := (Nat.digits_length_le_iff (by decide) low).mpr below
  rw [paddedDigits, Nat.digits_append_zeroes_append_digits (by decide) positive, Nat.add_sub_cancel' short]

end Chunks

end PhyNspire.Lib.Decimal

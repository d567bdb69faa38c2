import Mathlib.Tactic.Ring

/-!
Words in little-endian order: a word is read back from the bytes it was written to.
-/

namespace PhyNspire.Lib.Words

/-- The lowest `count` bytes of a word, the lowest first. -/
def wordBytes : Nat → Nat → List UInt8
  | 0, _ => []
  | count + 1, word => UInt8.ofNat (word % 256) :: wordBytes count (word / 256)

def wordOf : List UInt8 → Nat
  | [] => 0
  | byte :: rest => byte.toNat + 256 * wordOf rest

@[simp] theorem wordBytes_length (count word : Nat) : (wordBytes count word).length = count := by
  induction count generalizing word with
  | zero => rfl
  | succ count ih => rw [wordBytes, List.length_cons, ih]

theorem wordOf_wordBytes {count word : Nat} (small : word < 256 ^ count) : wordOf (wordBytes count word) = word := by
  induction count generalizing word with
  | zero =>
    rw [pow_zero, Nat.lt_one_iff] at small
    rw [small]
    rfl
  | succ count ih =>
    have rest : word / 256 < 256 ^ count := Nat.div_lt_of_lt_mul (by rwa [pow_succ'] at small)
    have low : (UInt8.ofNat (word % 256)).toNat = word % 256 := by
      rw [UInt8.toNat_ofNat']
      omega
    rw [wordBytes, wordOf, ih rest, low]
    omega

theorem wordOf_lt (bytes : List UInt8) : wordOf bytes < 256 ^ bytes.length := by
  induction bytes with
  | nil => exact Nat.one_pos
  | cons byte rest ih =>
    rw [wordOf, List.length_cons, pow_succ]
    have small : byte.toNat < 256 := byte.toNat_lt
    omega

end PhyNspire.Lib.Words

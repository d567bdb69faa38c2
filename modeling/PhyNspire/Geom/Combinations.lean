import Mathlib.Data.List.GetD
import PhyNspire.Lib.Antisymmetry

/-!
Strictly increasing index tuples: their enumeration in lexicographic order, the position
of one in it, and the parity of sorting. A form stores its components in this order, so
an operation that walks over positions walks over the axis sets of one size.
-/

namespace PhyNspire.Geom
open Lib.Exterior

def manifoldMaxDim : Nat := 4

/-- `PHY_GEOM_MAX_TERMS`, the size of the automatic arrays of terms. -/
def geomMaxTerms : Nat := 6

/-- `C(n, k)` by the multiplicative form. -/
def geomBinomial (n k : Nat) : Nat :=
  if n < k then 0 else (List.range k).foldl (fun result i => result * (n - i) / (i + 1)) 1

/-- The lexicographic successor: the rightmost of the first `slots` slots that is below its
ceiling is advanced, and what follows it becomes the tightest run. -/
def advance (n k : Nat) (indices : List Nat) : Nat → List Nat
  | 0 => indices
  | slot + 1 =>
    if indices.getD slot 0 < n - k + slot then
      indices.take slot ++ (List.range (k - slot)).map (indices.getD slot 0 + 1 + ·)
    else advance n k indices slot

def combinationAt (n k position : Nat) : List Nat :=
  (List.range position).foldl (fun indices _ => advance n k indices k) (List.range k)

def combinationIndex (n k : Nat) (sorted : List Nat) : Option Nat :=
  (List.range (geomBinomial n k)).find? (fun position => combinationAt n k position == sorted)

/-- The increasing complement of `chosen` in `0..n-1`. -/
def complementOf (n : Nat) (chosen : List Nat) : List Nat :=
  (List.range n).filter (fun value => !chosen.contains value)

/-- The inner loop of the insertion sort, over the sorted prefix read from its end. -/
def shiftKey (key : Nat) (sign : Int) : List Nat → List Nat × Int
  | [] => ([key], sign)
  | value :: rest =>
    if key < value then
      let shifted := shiftKey key (-sign) rest
      (value :: shifted.1, shifted.2)
    else (key :: value :: rest, sign)

/-- Whether two neighbours are equal. -/
def repeats : List Nat → Bool
  | a :: b :: rest => a == b || repeats (b :: rest)
  | _ => false

/-- The tuple sorted, and the parity of the permutation that did it: zero for a repeated value. -/
def sortParity (values : List Nat) : List Nat × Int :=
  let prefixed := values.foldl (fun sorted key => shiftKey key sorted.2 sorted.1) ([], 1)
  (prefixed.1.reverse, if repeats prefixed.1.reverse then 0 else prefixed.2)

theorem disorder_snoc (l : List Nat) (key : Nat) :
    disorder (l ++ [key]) = disorder l + (l.filter (key < ·)).length := by
  induction l with
  | nil => rfl
  | cons a l ih =>
    rw [List.cons_append, disorder, disorder, ih, List.filter_append, List.length_append, List.filter_cons]
    by_cases after : key < a
    · rw [if_pos (decide_eq_true after)]
      simp only [List.filter_cons, decide_eq_true after, List.filter_nil, List.length_cons, List.length_nil, ite_true]
      omega
    · rw [if_neg (by simpa using after)]
      simp only [List.filter_cons, decide_eq_false after, List.filter_nil, List.length_nil, Bool.false_eq_true,
        ite_false]
      omega

theorem shiftKey_spec (key : Nat) (sign : Int) {done : List Nat} (descending : done.Pairwise (· ≥ ·)) :
    (shiftKey key sign done).1.Perm (key :: done) ∧ (shiftKey key sign done).1.Pairwise (· ≥ ·) ∧
      (shiftKey key sign done).2 = sign * (-1) ^ (done.filter (key < ·)).length := by
  induction done generalizing sign with
  | nil => exact ⟨List.Perm.refl _, List.pairwise_singleton _ _, (mul_one sign).symm⟩
  | cons value rest ih =>
    obtain ⟨first, rest'⟩ := List.pairwise_cons.mp descending
    unfold shiftKey
    by_cases after : key < value
    · obtain ⟨same, falling, parity⟩ := ih (-sign) rest'
      rw [if_pos after]
      refine ⟨(same.cons value).trans (List.Perm.swap key value rest), ?_, ?_⟩
      · refine List.pairwise_cons.mpr ⟨fun b member => ?_, falling⟩
        rcases List.mem_cons.mp (same.mem_iff.mp member) with rfl | old
        · exact after.le
        · exact first b old
      · rw [parity, List.filter_cons, if_pos (decide_eq_true after), List.length_cons, pow_succ]
        ring
    · rw [if_neg after]
      have bounded : ∀ b ∈ value :: rest, ¬key < b := by
        intro b member
        rcases List.mem_cons.mp member with rfl | old
        · exact after
        · exact fun late => after (lt_of_lt_of_le late (first b old))
      refine ⟨List.Perm.refl _, List.pairwise_cons.mpr ⟨fun b member => Nat.le_of_not_lt (bounded b member), descending⟩, ?_⟩
      rw [List.filter_eq_nil_iff.mpr (fun b member => by simpa using bounded b member), List.length_nil, pow_zero,
        mul_one]

theorem foldl_shiftKey (values : List Nat) :
    let prefixed := values.foldl (fun sorted key => shiftKey key sorted.2 sorted.1) ([], 1)
    prefixed.1.Perm values ∧ prefixed.1.Pairwise (· ≥ ·) ∧ prefixed.2 = (-1) ^ disorder values := by
  induction values using List.reverseRecOn with
  | nil => exact ⟨List.Perm.refl _, List.Pairwise.nil, rfl⟩
  | append_singleton values key ih =>
    obtain ⟨same, falling, parity⟩ := ih
    rw [List.foldl_append]
    obtain ⟨same', falling', parity'⟩ := shiftKey_spec key
      (values.foldl (fun sorted key => shiftKey key sorted.2 sorted.1) ([], 1)).2 falling
    refine ⟨(same'.trans (same.cons key)).trans (List.perm_append_singleton key values).symm, falling', ?_⟩
    refine parity'.trans ?_
    rw [parity, disorder_snoc, pow_add, (same.filter _).length_eq]

theorem repeats_iff {l : List Nat} (rising : l.Pairwise (· ≤ ·)) : repeats l = true ↔ ¬l.Nodup := by
  induction l with
  | nil => simp [repeats]
  | cons a l ih =>
    obtain ⟨first, rest⟩ := List.pairwise_cons.mp rising
    cases l with
    | nil => simp [repeats]
    | cons b l =>
      rw [repeats, Bool.or_eq_true, beq_iff_eq, ih rest, List.nodup_cons (a := a), not_and_or, not_not]
      refine or_congr ⟨fun same => same ▸ List.mem_cons_self, fun member => ?_⟩ Iff.rfl
      rcases List.mem_cons.mp member with same | later
      · exact same
      · exact le_antisymm (first b List.mem_cons_self) ((List.pairwise_cons.mp rest).1 a later)

/-- The strictly increasing enumeration of an axis set. -/
def increasing (I : Finset Nat) : List Nat := I.sort

theorem increasing_toFinset {l : List Nat} (rising : l.Pairwise (· < ·)) : increasing l.toFinset = l :=
  (List.toFinset_sort (· ≤ ·) rising.nodup).mpr (rising.imp le_of_lt)

@[simp] theorem toFinset_increasing (I : Finset Nat) : (increasing I).toFinset = I := Finset.sort_toFinset I (· ≤ ·)

@[simp] theorem length_increasing (I : Finset Nat) : (increasing I).length = I.card := Finset.length_sort (· ≤ ·)

@[simp] theorem mem_increasing {i : Nat} {I : Finset Nat} : i ∈ increasing I ↔ i ∈ I := Finset.mem_sort (· ≤ ·)

theorem increasing_pairwise (I : Finset Nat) : (increasing I).Pairwise (· < ·) := (Finset.sortedLT_sort I).pairwise

theorem sortParity_sign (values : List Nat) :
    (sortParity values).2 = if values.Nodup then (-1) ^ disorder values else 0 := by
  obtain ⟨same, falling, parity⟩ := foldl_shiftKey values
  unfold sortParity
  simp only
  rw [parity]
  have repeated := repeats_iff (List.pairwise_reverse.mpr falling)
  by_cases distinct : values.Nodup
  · rw [if_pos distinct, if_neg]
    rw [repeated, not_not]
    exact List.nodup_reverse.mpr (same.nodup_iff.mpr distinct)
  · rw [if_neg distinct, if_pos]
    rw [repeated]
    exact fun ordered => distinct (same.nodup_iff.mp (List.nodup_reverse.mp ordered))

theorem sortParity_sorted {values : List Nat} (distinct : values.Nodup) :
    (sortParity values).1 = increasing values.toFinset := by
  obtain ⟨same, falling, -⟩ := foldl_shiftKey values
  unfold sortParity
  simp only
  have perm := (List.reverse_perm _).trans same
  have rising := List.pairwise_reverse.mpr falling
  rw [← List.toFinset_eq_of_perm _ _ perm]
  exact ((List.toFinset_sort (· ≤ ·) (perm.nodup_iff.mpr distinct)).mpr rising).symm

theorem sortParity_increasing {l l' : List Nat} (rising : l.Pairwise (· < ·)) (rising' : l'.Pairwise (· < ·))
    (apart : Disjoint l.toFinset l'.toFinset) : (sortParity (l ++ l')).2 = (-1) ^ crossings l.toFinset l'.toFinset := by
  have distinct : (l ++ l').Nodup := List.nodup_append.mpr ⟨rising.nodup, rising'.nodup, fun a member b member' same =>
    Finset.disjoint_left.mp apart (List.mem_toFinset.mpr member) (List.mem_toFinset.mpr (same ▸ member'))⟩
  rw [sortParity_sign, if_pos distinct, disorder_append distinct, disorder_of_increasing rising,
    disorder_of_increasing rising', Nat.zero_add]

theorem image_combinationAt : ∀ n ∈ Finset.range (manifoldMaxDim + 1), ∀ k ∈ Finset.range (n + 1),
    (Finset.range (geomBinomial n k)).image (fun position => (combinationAt n k position).toFinset) =
      (Finset.range n).powersetCard k := by decide +kernel

theorem combinationAt_rising : ∀ n ∈ Finset.range (manifoldMaxDim + 1), ∀ k ∈ Finset.range (n + 1),
    ∀ position ∈ Finset.range (geomBinomial n k), (combinationAt n k position).Pairwise (· < ·) := by decide +kernel

theorem combinationIndex_at : ∀ n ∈ Finset.range (manifoldMaxDim + 1), ∀ k ∈ Finset.range (n + 1),
    ∀ position ∈ Finset.range (geomBinomial n k), combinationIndex n k (combinationAt n k position) = some position := by
  decide +kernel

section Enumeration

variable {n k : Nat} (small : n ≤ manifoldMaxDim) (graded : k ≤ n)
include small graded

theorem combinationAt_mem {position : Nat} (bound : position < geomBinomial n k) :
    (combinationAt n k position).toFinset ∈ (Finset.range n).powersetCard k := by
  rw [← image_combinationAt n (Finset.mem_range.mpr (Nat.lt_succ_of_le small)) k
    (Finset.mem_range.mpr (Nat.lt_succ_of_le graded))]
  exact Finset.mem_image_of_mem _ (Finset.mem_range.mpr bound)

theorem increasing_combinationAt {position : Nat} (bound : position < geomBinomial n k) :
    increasing (combinationAt n k position).toFinset = combinationAt n k position :=
  increasing_toFinset (combinationAt_rising n (Finset.mem_range.mpr (Nat.lt_succ_of_le small)) k
    (Finset.mem_range.mpr (Nat.lt_succ_of_le graded)) position (Finset.mem_range.mpr bound))

theorem combinationIndex_increasing {I : Finset Nat} (member : I ∈ (Finset.range n).powersetCard k) :
    ∃ position, position < geomBinomial n k ∧ combinationIndex n k (increasing I) = some position ∧
      (combinationAt n k position).toFinset = I := by
  have enumerated := member
  rw [← image_combinationAt n (Finset.mem_range.mpr (Nat.lt_succ_of_le small)) k
    (Finset.mem_range.mpr (Nat.lt_succ_of_le graded)), Finset.mem_image] at enumerated
  obtain ⟨position, bound, same⟩ := enumerated
  rw [Finset.mem_range] at bound
  refine ⟨position, bound, ?_, same⟩
  rw [← same, increasing_combinationAt small graded bound]
  exact combinationIndex_at n (Finset.mem_range.mpr (Nat.lt_succ_of_le small)) k
    (Finset.mem_range.mpr (Nat.lt_succ_of_le graded)) position (Finset.mem_range.mpr bound)

theorem sum_combinationAt {M : Type*} [AddCommMonoid M] (f : Finset Nat → M) :
    ∑ position ∈ Finset.range (geomBinomial n k), f (combinationAt n k position).toFinset =
      ∑ I ∈ (Finset.range n).powersetCard k, f I := by
  rw [← image_combinationAt n (Finset.mem_range.mpr (Nat.lt_succ_of_le small)) k
    (Finset.mem_range.mpr (Nat.lt_succ_of_le graded)), Finset.sum_image]
  intro first inside second inside' same
  have left := combinationIndex_at n (Finset.mem_range.mpr (Nat.lt_succ_of_le small)) k
    (Finset.mem_range.mpr (Nat.lt_succ_of_le graded)) first inside
  have right := combinationIndex_at n (Finset.mem_range.mpr (Nat.lt_succ_of_le small)) k
    (Finset.mem_range.mpr (Nat.lt_succ_of_le graded)) second inside'
  have tuples : combinationAt n k first = combinationAt n k second := by
    rw [← increasing_combinationAt small graded (Finset.mem_range.mp inside),
      ← increasing_combinationAt small graded (Finset.mem_range.mp inside')]
    exact congrArg increasing same
  rw [tuples, right] at left
  exact (Option.some.inj left).symm

end Enumeration

theorem complementOf_rising (n : Nat) (chosen : List Nat) : (complementOf n chosen).Pairwise (· < ·) :=
  List.pairwise_lt_range.filter _

theorem toFinset_complementOf (n : Nat) (chosen : List Nat) :
    (complementOf n chosen).toFinset = Finset.range n \ chosen.toFinset := by
  ext i
  simp [complementOf]

section Slots

variable {l : List Nat} (rising : l.Pairwise (· < ·))

theorem image_getD (l : List Nat) : (Finset.range l.length).image (l.getD · 0) = l.toFinset := by
  ext value
  rw [Finset.mem_image, List.mem_toFinset, List.mem_iff_getElem]
  constructor
  · rintro ⟨slot, bound, rfl⟩
    rw [Finset.mem_range] at bound
    exact ⟨slot, bound, (List.getD_eq_getElem l 0 bound).symm⟩
  · rintro ⟨slot, bound, rfl⟩
    exact ⟨slot, Finset.mem_range.mpr bound, List.getD_eq_getElem l 0 bound⟩

theorem image_slots {I : Finset Nat} (inside : I ⊆ l.toFinset) :
    ((Finset.range l.length).filter (l.getD · 0 ∈ I)).image (l.getD · 0) = I := by
  have filtered := Finset.filter_image (s := Finset.range l.length) (f := (l.getD · 0)) (p := (· ∈ I))
  rw [image_getD] at filtered
  exact filtered.symm.trans (Finset.filter_mem_eq_inter.trans (Finset.inter_eq_right.mpr inside))

include rising

theorem getD_rising {i j : Nat} (before : i < j) (bound : j < l.length) : l.getD i 0 < l.getD j 0 := by
  rw [List.getD_eq_getElem l 0 (by omega), List.getD_eq_getElem l 0 bound]
  exact List.pairwise_iff_getElem.mp rising i j (by omega) bound before

theorem getD_injOn : Set.InjOn (l.getD · 0) (Finset.range l.length) := by
  intro i first j second same
  rw [Finset.coe_range, Set.mem_Iio] at first second
  rcases Nat.lt_trichotomy i j with less | equal | more
  · exact absurd same (getD_rising rising less second).ne
  · exact equal
  · exact absurd same (getD_rising rising more first).ne'

theorem map_getD_increasing {S : Finset Nat} (inside : S ⊆ Finset.range l.length) :
    (increasing S).map (l.getD · 0) = increasing (S.image (l.getD · 0)) := by
  have ordered : ((increasing S).map (l.getD · 0)).Pairwise (· < ·) := by
    rw [List.pairwise_map]
    refine (increasing_pairwise S).imp_of_mem (fun {i j} _ second before => ?_)
    exact getD_rising rising before (Finset.mem_range.mp (inside (mem_increasing.mp second)))
  rw [← increasing_toFinset ordered]
  congr 1
  ext value
  simp only [List.mem_toFinset, List.mem_map, mem_increasing, Finset.mem_image]

theorem sum_powersetCard_slots {M : Type*} [AddCommMonoid M] (p : Nat) (g : Finset Nat → M) :
    ∑ S ∈ (Finset.range l.length).powersetCard p, g (S.image (l.getD · 0)) = ∑ I ∈ l.toFinset.powersetCard p, g I := by
  refine Finset.sum_bij' (fun S _ => S.image (l.getD · 0)) (fun I _ => (Finset.range l.length).filter (l.getD · 0 ∈ I))
    ?_ ?_ ?_ ?_ (fun _ _ => rfl)
  · intro S member
    obtain ⟨inside, size⟩ := Finset.mem_powersetCard.mp member
    refine Finset.mem_powersetCard.mpr ⟨?_, ?_⟩
    · rw [← image_getD l]
      exact Finset.image_subset_image inside
    · rw [Finset.card_image_of_injOn ((getD_injOn rising).mono (Finset.coe_subset.mpr inside)), size]
  · intro I member
    obtain ⟨inside, size⟩ := Finset.mem_powersetCard.mp member
    refine Finset.mem_powersetCard.mpr ⟨Finset.filter_subset _ _, ?_⟩
    rw [← size, ← Finset.card_image_of_injOn ((getD_injOn rising).mono (Finset.coe_subset.mpr (Finset.filter_subset _ _))),
      image_slots inside]
  · intro S member
    obtain ⟨inside, -⟩ := Finset.mem_powersetCard.mp member
    ext slot
    rw [Finset.mem_filter, Finset.mem_image]
    constructor
    · rintro ⟨bound, other, chosen, same⟩
      exact getD_injOn rising (Finset.mem_coe.mpr (inside chosen)) (Finset.mem_coe.mpr bound) same ▸ chosen
    · exact fun chosen => ⟨inside chosen, slot, chosen, rfl⟩
  · intro I member
    exact image_slots (Finset.mem_powersetCard.mp member).1

theorem below_getD {slot : Nat} (bound : slot < l.length) : below (l.getD slot 0) l.toFinset = slot := by
  unfold below
  rw [← image_getD l, Finset.sum_image (getD_injOn rising), Finset.sum_boole]
  have before : (Finset.range l.length).filter (fun other => l.getD other 0 < l.getD slot 0) = Finset.range slot := by
    ext other
    rw [Finset.mem_filter, Finset.mem_range, Finset.mem_range]
    constructor
    · rintro ⟨inside, less⟩
      by_contra late
      rcases (Nat.le_of_not_lt late).lt_or_eq with more | same
      · exact absurd less (getD_rising rising more inside).not_gt
      · exact absurd less (same ▸ lt_irrefl _)
    · exact fun less => ⟨by omega, getD_rising rising less bound⟩
  rw [before, Finset.card_range, Nat.cast_id]

theorem toFinset_eraseIdx {slot : Nat} (bound : slot < l.length) :
    (l.eraseIdx slot).toFinset = l.toFinset.erase (l.getD slot 0) := by
  ext value
  rw [List.mem_toFinset, List.mem_eraseIdx_iff_getElem, Finset.mem_erase, List.mem_toFinset, List.mem_iff_getElem]
  constructor
  · rintro ⟨other, inside, different, rfl⟩
    refine ⟨fun same => different ?_, other, inside, rfl⟩
    rw [← List.getD_eq_getElem l 0 inside] at same
    exact getD_injOn rising (Finset.mem_coe.mpr (Finset.mem_range.mpr inside))
      (Finset.mem_coe.mpr (Finset.mem_range.mpr bound)) same
  · rintro ⟨different, other, inside, rfl⟩
    exact ⟨other, inside, fun same => different (by rw [← same, List.getD_eq_getElem l 0 inside]), rfl⟩

/-- A choice of slots splits an increasing tuple into two, at the parity of their crossings. -/
theorem shuffle_spec {p shuffle : Nat} (small : l.length ≤ manifoldMaxDim) (graded : p ≤ l.length)
    (bound : shuffle < geomBinomial l.length p) :
    let chosen := combinationAt l.length p shuffle
    let I := chosen.toFinset.image (l.getD · 0)
    I ∈ l.toFinset.powersetCard p ∧ chosen.map (l.getD · 0) = increasing I ∧
      (complementOf l.length chosen).map (l.getD · 0) = increasing (l.toFinset \ I) ∧
        (sortParity (chosen ++ complementOf l.length chosen)).2 = (-1) ^ crossings I (l.toFinset \ I) := by
  intro chosen I
  obtain ⟨inside, size⟩ := Finset.mem_powersetCard.mp (combinationAt_mem small graded bound)
  have shape : increasing chosen.toFinset = chosen := increasing_combinationAt small graded bound
  have slots : (complementOf l.length chosen).toFinset = Finset.range l.length \ chosen.toFinset :=
    toFinset_complementOf _ _
  have others : (Finset.range l.length \ chosen.toFinset).image (l.getD · 0) = l.toFinset \ I := by
    rw [Finset.image_sdiff_of_injOn (getD_injOn rising) inside, image_getD]
  refine ⟨?_, ?_, ?_, ?_⟩
  · rw [Finset.mem_powersetCard, ← image_getD l]
    exact ⟨Finset.image_subset_image inside,
      (Finset.card_image_of_injOn ((getD_injOn rising).mono (Finset.coe_subset.mpr inside))).trans size⟩
  · rw [← map_getD_increasing rising inside, shape]
  · rw [← others, ← map_getD_increasing rising Finset.sdiff_subset, ← slots,
      increasing_toFinset (complementOf_rising _ _)]
  · rw [sortParity_increasing (shape ▸ increasing_pairwise _) (complementOf_rising _ _)
      (slots ▸ Finset.disjoint_sdiff), slots, ← others]
    congr 1
    refine (crossings_image (fun i first j second before => getD_rising rising before ?_)).symm
    rw [Finset.union_sdiff_of_subset inside, Finset.mem_range] at second
    exact second

end Slots

end PhyNspire.Geom

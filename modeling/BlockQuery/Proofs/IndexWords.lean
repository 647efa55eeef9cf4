/-
  Bounds and indices in words of 64 bits.

  A bound of a slice and an index are signed words, a length and a place are unsigned ones.
  Counting back from the end takes the magnitude of a negative word, which fits an unsigned one even
  for the least; a bound then subtracts as far as zero, an index only where it stays inside.
  Computed in this way, the place of a bound and the position of an index are those of `clampBound`
  and `resolveIndex?`, which count without limits: no step overflows.

  The model of the evaluator counts with integers, because the meaning of a bound is about numbers
  and not about words.  This module has the computation in words beside it, operation by operation,
  and its theorems say that both give the same place for every bound, index and length.
-/
import BlockQuery.Query.Operation

namespace BlockQuery.Word

/-! ## Signed words

  The same word is an integer below 2 ^ 63 in size when it is signed, and a natural number below 2 ^
  64 when it is not.  Negating the least signed word gives itself; read as an unsigned word it is
  the magnitude after all. -/

/-- A word is negative when its integer is. -/
theorem neg_iff {i : Int64} : i < 0 ↔ i.toInt < 0 :=
  Int64.lt_iff_toInt_lt

/-- A word that is not negative has an integer that is not. -/
theorem nonneg_iff {i : Int64} : 0 ≤ i ↔ 0 ≤ i.toInt :=
  Int64.le_iff_toInt_le

/-- Such a word keeps its number when it loses its sign. -/
theorem toNat_toUInt64 {i : Int64} (h : 0 ≤ i) : i.toUInt64.toNat = i.toInt.toNat :=
  Int64.toNat_toUInt64_of_le h

/-- How far a negative word counts back. -/
def magnitude (i : Int64) : UInt64 :=
  (-i).toUInt64

/-- The magnitude of a negative word is the distance of its integer from zero, for the least one
    too. -/
theorem toNat_magnitude {i : Int64} (h : i < 0) : ((magnitude i).toNat : Int) = -i.toInt := by
  have hneg := neg_iff.1 h
  have hword : (magnitude i).toNat = (2 ^ 64 - i.toUInt64.toNat) % 2 ^ 64 := by
    rw [magnitude, Int64.toUInt64_neg]
    exact UInt64.toNat_neg i.toUInt64
  -- a word from 2 ^ 63 on stands for the integer that is 2 ^ 64 below it
  have hsigned : i.toInt = if 2 * i.toUInt64.toNat < 2 ^ 64 then (i.toUInt64.toNat : Int)
      else i.toUInt64.toNat - (2 ^ 64 : Nat) := BitVec.toInt_eq_toNat_cond i.toBitVec
  have hlt := i.toUInt64.toNat_lt
  split at hsigned <;> omega

/-- Subtraction that stops at zero. -/
def saturatingSub (m n : UInt64) : UInt64 :=
  if n ≤ m then m - n else 0

/-- Subtraction that stops at zero is that of natural numbers. -/
theorem toNat_saturatingSub (m n : UInt64) : (saturatingSub m n).toNat = m.toNat - n.toNat := by
  unfold saturatingSub
  split
  · rename_i h
    exact UInt64.toNat_sub_of_le m n h
  · rename_i h
    have hlt := mt UInt64.le_iff_toNat_le.2 h
    rw [UInt64.toNat_zero]
    omega

/-! ## Bounds

  A bound is first brought inside, to a place between 0 and the length, and then both bounds make a
  slice.  A bound that is missing is an end of the sequence. -/

/-- The place that a bound of a slice means among `n` elements. -/
def clampBound (n : UInt64) (i : Int64) : UInt64 :=
  if i < 0 then saturatingSub n (magnitude i)
  else if i.toUInt64 ≤ n then i.toUInt64 else n

/-- A bound means the place in words that it means without limits. -/
theorem toNat_clampBound (n : UInt64) (i : Int64) :
    (clampBound n i).toNat = BlockQuery.clampBound n.toNat i.toInt := by
  unfold clampBound BlockQuery.clampBound
  by_cases hi : i < 0
  · have hback := toNat_magnitude hi
    rw [if_pos hi, if_pos (neg_iff.1 hi), toNat_saturatingSub]
    omega
  · have hnonneg := mt neg_iff.2 hi
    have hword := toNat_toUInt64 (nonneg_iff.2 (Int.not_lt.1 hnonneg))
    rw [if_neg hi, if_neg hnonneg, ← hword]
    split
    · rename_i h
      exact (Nat.min_eq_left (UInt64.le_iff_toNat_le.1 h)).symm
    · rename_i h
      have hlt := mt UInt64.le_iff_toNat_le.2 h
      exact (Nat.min_eq_right (by omega)).symm

/-- No bound means a place beyond the end. -/
theorem clampBound_le (n : UInt64) (i : Int64) : clampBound n i ≤ n := by
  rw [UInt64.le_iff_toNat_le, toNat_clampBound, BlockQuery.clampBound]
  split <;> omega

/-- The place of a bound that may be missing, `d` if it is. -/
theorem toNat_getD_clampBound (n d : UInt64) (bound : Option Int64) :
    ((bound.map (clampBound n)).getD d).toNat =
      ((bound.map Int64.toInt).map (BlockQuery.clampBound n.toNat)).getD d.toNat := by
  cases bound with
  | none => rfl
  | some i => exact toNat_clampBound n i

/-- Nor does a missing one, if what stands for it is inside. -/
theorem getD_clampBound_le {n d : UInt64} (h : d ≤ n) (bound : Option Int64) :
    (bound.map (clampBound n)).getD d ≤ n := by
  cases bound with
  | none => exact h
  | some i => exact clampBound_le n i

/-- The place from which a slice of `n` elements starts. -/
def firstPlace (n : UInt64) (start : Option Int64) : UInt64 :=
  (start.map (clampBound n)).getD 0

/-- The place before which a slice of `n` elements stops, if that is not before its start. -/
def lastPlace (n : UInt64) (stop : Option Int64) : UInt64 :=
  (stop.map (clampBound n)).getD n

/-- The places between which a slice of `n` elements lies.  Where they are crossed, the first one
    stands for both. -/
def slicePlaces (start stop : Option Int64) (n : UInt64) : UInt64 × UInt64 :=
  (firstPlace n start,
    if firstPlace n start ≤ lastPlace n stop then lastPlace n stop else firstPlace n start)

/-- The start of a slice, in words and without limits. -/
theorem toNat_firstPlace (n : UInt64) (start : Option Int64) :
    (firstPlace n start).toNat =
      ((start.map Int64.toInt).map (BlockQuery.clampBound n.toNat)).getD 0 :=
  toNat_getD_clampBound n 0 start

/-- Its stop, in words and without limits. -/
theorem toNat_lastPlace (n : UInt64) (stop : Option Int64) :
    (lastPlace n stop).toNat =
      ((stop.map Int64.toInt).map (BlockQuery.clampBound n.toNat)).getD n.toNat :=
  toNat_getD_clampBound n n stop

/-- The places are in order and none is beyond the end. -/
theorem slicePlaces_inside (start stop : Option Int64) (n : UInt64) :
    (slicePlaces start stop n).1 ≤ (slicePlaces start stop n).2 ∧
      (slicePlaces start stop n).2 ≤ n := by
  have hfirst : firstPlace n start ≤ n := getD_clampBound_le UInt64.zero_le start
  have hlast : lastPlace n stop ≤ n := getD_clampBound_le (UInt64.le_refl n) stop
  by_cases hle : firstPlace n start ≤ lastPlace n stop
  · rw [slicePlaces, if_pos hle]
    exact ⟨hle, hlast⟩
  · rw [slicePlaces, if_neg hle]
    exact ⟨UInt64.le_refl _, hfirst⟩

/-! ## Indices

  An index is not brought inside: counting back past the start finds nothing.  An index that counts
  from the start may be beyond the end, and finding nothing there is left to the look-up. -/

/-- The position that an index means in a sequence of length `n`. -/
def resolveIndex? (i : Int64) (n : UInt64) : Option UInt64 :=
  if 0 ≤ i then some i.toUInt64
  else if magnitude i ≤ n then some (n - magnitude i)
  else none

/-- An index means the position in words that it means without limits. -/
theorem map_toNat_resolveIndex? (i : Int64) (n : UInt64) :
    (resolveIndex? i n).map UInt64.toNat = BlockQuery.resolveIndex? i.toInt n.toNat := by
  unfold resolveIndex? BlockQuery.resolveIndex?
  by_cases hi : 0 ≤ i
  · rw [if_pos hi, if_pos (nonneg_iff.1 hi), Option.map_some, toNat_toUInt64 hi]
  · have hneg := mt nonneg_iff.2 hi
    have hback := toNat_magnitude (neg_iff.2 (Int.not_le.1 hneg))
    rw [if_neg hi, if_neg hneg]
    by_cases h : magnitude i ≤ n
    · have hle := UInt64.le_iff_toNat_le.1 h
      have hinside : (0 : Int) ≤ n.toNat + i.toInt := by omega
      rw [if_pos h, if_pos hinside, Option.map_some, UInt64.toNat_sub_of_le n _ h]
      congr 1
      omega
    · have hlt := mt UInt64.le_iff_toNat_le.2 h
      have houtside : ¬ (0 : Int) ≤ n.toNat + i.toInt := by omega
      rw [if_neg h, if_neg houtside, Option.map_none]

end BlockQuery.Word

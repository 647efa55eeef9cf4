/-
  A run of digits as a number.

  Every reader of digits goes from the left and keeps a mantissa below a bound.  As digits only make
  it greater, a reader gets through a run exactly when the number that it makes of the run, behind
  the mantissa it starts with, is below the bound; and then it holds that number.

  The number of a run is `natOfDigits`.  Where a reader starts with a mantissa `m`, the run makes `m
  * tenTo cs.length + natOfDigits cs` of it, and all laws here are stated with this expression.  The
  inductions go over the run with the mantissa left general, and each of them needs only that the
  first digit can be moved from the run into the mantissa (`mantissa_cons`).
-/
import BlockQuery.Json.Number
import BlockQuery.Proofs.DecimalText
import Mathlib.Tactic.Ring

namespace BlockQuery

open Decimal (digitValue)

/-- Powers of ten multiply. -/
theorem tenTo_add (j k : Nat) : tenTo (j + k) = tenTo j * tenTo k :=
  Nat.pow_add 10 j k

namespace NumberLiteral

variable {cs : List Char}

/-! ## The number of a run of digits

  The laws of `natOfDigits` on runs that are put together, and its bounds.  They are about digits
  that may have any value, up to where a bound is needed. -/

/-- No digits make zero. -/
@[simp] theorem natOfDigits_nil : natOfDigits [] = 0 := rfl

/-- A run behind a mantissa makes it greater by a power of ten. -/
theorem foldl_digits (m : Nat) (cs : List Char) :
    cs.foldl (fun m c => 10 * m + digitValue c) m = m * tenTo cs.length + natOfDigits cs := by
  induction cs generalizing m with
  | nil => simp [tenTo_zero]
  | cons c cs ih =>
    have hrun : natOfDigits (c :: cs) = (10 * 0 + digitValue c) * tenTo cs.length +
        natOfDigits cs := ih _
    rw [List.foldl_cons, ih, hrun, List.length_cons, tenTo_succ]
    ring

/-- The first digit counts with the power of ten of those behind it. -/
theorem natOfDigits_cons (c : Char) (cs : List Char) :
    natOfDigits (c :: cs) = digitValue c * tenTo cs.length + natOfDigits cs := by
  rw [natOfDigits, List.foldl_cons, foldl_digits, Nat.mul_zero, Nat.zero_add]

/-- Of two runs the first one counts with the power of ten of the second: so digits before and
    behind a point are one mantissa. -/
theorem natOfDigits_append (cs ds : List Char) :
    natOfDigits (cs ++ ds) = natOfDigits cs * tenTo ds.length + natOfDigits ds := by
  rw [natOfDigits, List.foldl_append, foldl_digits]
  rfl

/-- The mantissa that a reader holds behind a run is the one that it holds behind its first digit
    and the rest. -/
theorem mantissa_cons (m : Nat) (c : Char) (cs : List Char) :
    m * tenTo (c :: cs).length + natOfDigits (c :: cs) =
      (10 * m + digitValue c) * tenTo cs.length + natOfDigits cs := by
  rw [natOfDigits_cons, List.length_cons, tenTo_succ]
  ring

/-- Zeros make zero, however many there are. -/
@[simp] theorem natOfDigits_zeros (k : Nat) : natOfDigits (List.replicate k '0') = 0 := by
  induction k with
  | zero => rfl
  | succ k ih =>
    have hzero : digitValue '0' = 0 := by decide
    rw [List.replicate_succ, natOfDigits_cons, ih, hzero, Nat.zero_mul]

/-- The digits of a number make that number again, by induction on the number divided by ten, as it
    is written. -/
theorem natOfDigits_natChars (n : Nat) : natOfDigits (Text.natChars n) = n := by
  induction n using Nat.strong_induction_on with
  | _ n ih =>
    by_cases hn : n < 10
    · rw [Text.natChars_of_lt_ten hn, natOfDigits_cons, Decimal.digitValue_digitChar hn]
      simp [tenTo_zero]
    · rw [Text.natChars_of_ten_le (by omega), natOfDigits_append, ih (n / 10) (by omega),
        natOfDigits_cons, Decimal.digitValue_digitChar (Nat.mod_lt _ (by decide))]
      simp only [List.length_singleton, List.length_nil, natOfDigits_nil, tenTo_succ, tenTo_zero]
      omega

/-- The digits lie next to each other among the characters. -/
theorem toNat_of_isDigit {c : Char} (h : c.isDigit = true) :
    '0'.toNat ≤ c.toNat ∧ c.toNat ≤ '9'.toNat := by
  simpa [Char.isDigit, Char.le_def, UInt32.le_iff_toNat_le] using h

/-- A digit is less than ten. -/
theorem digitValue_lt {c : Char} (h : c.isDigit = true) : digitValue c < 10 := by
  have hc := toNat_of_isDigit h
  have hnine : '9'.toNat = '0'.toNat + 9 := rfl
  rw [digitValue]
  omega

/-- Only the digit zero has the value zero. -/
theorem eq_zero_of_digitValue {c : Char} (h : c.isDigit = true) (hzero : digitValue c = 0) :
    c = '0' := by
  have hc := toNat_of_isDigit h
  rw [digitValue] at hzero
  exact Char.toNat_inj.1 (by omega)

/-- A run of digits is less than the power of ten of its length. -/
theorem natOfDigits_lt (h : ∀ c ∈ cs, c.isDigit = true) : natOfDigits cs < tenTo cs.length := by
  induction cs with
  | nil => exact tenTo_pos 0
  | cons c cs ih =>
    rw [List.forall_mem_cons] at h
    have hhead : digitValue c * tenTo cs.length ≤ 9 * tenTo cs.length :=
      Nat.mul_le_mul_right _ (Nat.le_of_lt_succ (digitValue_lt h.1))
    have hrest := ih h.2
    rw [natOfDigits_cons, List.length_cons, tenTo_succ]
    omega

/-- Digits gathered into a significand are all taken when the number that they make fits. -/
theorem gather_eq {m : Nat} (h : m * tenTo cs.length + natOfDigits cs < significandLimit) :
    gather m cs = (m * tenTo cs.length + natOfDigits cs, 0) := by
  induction cs generalizing m with
  | nil => simp [gather, tenTo_zero]
  | cons c cs ih =>
    rw [mantissa_cons] at h ⊢
    have hfirst : 10 * m + digitValue c ≤ (10 * m + digitValue c) * tenTo cs.length :=
      Nat.le_mul_of_pos_right _ (tenTo_pos _)
    rw [gather, if_pos (by omega), ih h]

end NumberLiteral

namespace Decimal

open NumberLiteral

/-! ## Decimals

  The reader of decimals goes over the digits before the point and behind it with one mantissa.  It
  stops when the mantissa would not fit, and it rounds when there are too many digits behind the
  point.  Here it does neither. -/

/-- Digits before a point are read exactly when the number that they make is below the limit. -/
theorem readWhole?_eq {m : Nat} (hm : m < limit) (cs : List Char) :
    readWhole? m hm cs =
      if h : m * tenTo cs.length + natOfDigits cs < limit then
        some ⟨m * tenTo cs.length + natOfDigits cs, h⟩
      else none := by
  induction cs generalizing m with
  | nil => simp [readWhole?, tenTo_zero, hm]
  | cons c cs ih =>
    have hfirst : 10 * m + digitValue c ≤ (10 * m + digitValue c) * tenTo cs.length :=
      Nat.le_mul_of_pos_right _ (tenTo_pos _)
    simp only [readWhole?, ih, mantissa_cons]
    split
    · rfl
    · rw [dif_neg (by omega)]

/-- Digits behind a point are all kept when the number that they make fits and there are not too
    many of them. -/
theorem readFraction?_eq {negative : Bool} {m s : Nat} (hm : m < limit) (hs : s ≤ maxScale)
    {cs : List Char} (h : m * tenTo cs.length + natOfDigits cs < limit)
    (hlen : s + cs.length ≤ maxScale) :
    readFraction? negative m s hm hs cs =
      some ⟨negative, m * tenTo cs.length + natOfDigits cs, s + cs.length, h, hlen⟩ := by
  induction cs generalizing m s with
  | nil => simp [readFraction?, tenTo_zero]
  | cons c cs ih =>
    have hfirst : 10 * m + digitValue c ≤ (10 * m + digitValue c) * tenTo cs.length :=
      Nat.le_mul_of_pos_right _ (tenTo_pos _)
    simp only [mantissa_cons] at h ⊢
    rw [List.length_cons] at hlen
    rw [readFraction?, dif_pos ⟨by omega, by omega⟩, ih _ _ h (by omega)]
    simp only [List.length_cons, Nat.add_assoc, Nat.add_comm 1]

/-- Digits that fit are read without rounding: they are the mantissa, and the scale is the number of
    those behind the point. -/
theorem ofDigits?_eq {negative : Bool} {whole fraction : List Char}
    (h : natOfDigits (whole ++ fraction) < limit) (hlen : fraction.length ≤ maxScale) :
    ofDigits? negative whole fraction =
      some (unsignZero ⟨negative, natOfDigits (whole ++ fraction), fraction.length, h, hlen⟩) := by
  have happend := natOfDigits_append whole fraction
  have hwhole : natOfDigits whole < limit := by
    have hle : natOfDigits whole ≤ natOfDigits whole * tenTo fraction.length :=
      Nat.le_mul_of_pos_right _ (tenTo_pos _)
    omega
  have hread : readWhole? 0 zero.mantissa_lt whole = some ⟨natOfDigits whole, hwhole⟩ := by
    refine (readWhole?_eq (m := 0) zero.mantissa_lt whole).trans ?_
    simp [hwhole]
  rw [ofDigits?, hread, Option.bind_some, readFraction?_eq _ _ (happend ▸ h) (by omega)]
  simp only [happend, Nat.zero_add, Option.map_some]

end Decimal

end BlockQuery

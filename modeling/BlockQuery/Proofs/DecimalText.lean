/-
  The text of a decimal is read back.

  Reading works from the left on a mantissa, writing from the right on quotients by ten.  They meet
  in what one run of digits does to the mantissa: the digits of `n` make it `n`
  (`readWhole?_natChars`) and the last `k` digits of `n` make `m` into `m * tenTo k + n % tenTo k`
  (`readFraction?_lowDigits`).  Read again, a number keeps its digits and its scale; only a zero
  loses its sign.
-/
import BlockQuery.Proofs.PlainNumber

namespace BlockQuery

/-! ## The digits of a natural number

  The laws of the standard library about the digits of a number to the base ten, in the words of
  this project, and what they say about the first digit. -/

namespace Text

/-- A number below ten is one digit. -/
theorem natChars_of_lt_ten {n : Nat} (h : n < 10) : natChars n = [n.digitChar] :=
  Nat.toDigits_of_lt_base h

/-- Any other number has its last digit behind those of its tenth part. -/
theorem natChars_of_ten_le {n : Nat} (h : 10 ≤ n) :
    natChars n = natChars (n / 10) ++ [(n % 10).digitChar] :=
  Nat.toDigits_of_base_le (by decide) h

/-- A number has at least one digit. -/
theorem natChars_ne_nil (n : Nat) : natChars n ≠ [] :=
  Nat.toDigits_ne_nil

/-- All characters of a number are digits. -/
theorem isDigit_of_mem_natChars {n : Nat} {c : Char} (h : c ∈ natChars n) : c.isDigit = true :=
  Nat.isDigit_of_mem_toDigits (by decide) (by decide) h

/-- A digit is none of the signs and letters. -/
theorem ne_of_isDigit {c d : Char} (hc : c.isDigit = true) (hd : d.isDigit = false) : c ≠ d := by
  rintro rfl
  rw [hc] at hd
  cases hd

/-- Only the number zero starts with a zero. -/
theorem head?_natChars_ne_zero {n : Nat} (h : n ≠ 0) : (natChars n).head? ≠ some '0' := by
  induction n using Nat.strong_induction_on with
  | _ n ih =>
    by_cases hn : n < 10
    · rw [natChars_of_lt_ten hn]
      simpa using h
    · obtain ⟨c, cs, hcs⟩ := List.exists_cons_of_ne_nil (natChars_ne_nil (n / 10))
      have hhead := ih (n / 10) (by omega) (by omega)
      rw [natChars_of_ten_le (by omega), hcs]
      rwa [hcs] at hhead

end Text

namespace Decimal

/-- A digit has the value that it was written for. -/
theorem digitValue_digitChar {d : Nat} (h : d < 10) : digitValue d.digitChar = d :=
  Nat.toNat_digitChar_sub_48_of_lt_ten h

/-- The digits of a number may stand in front of a point. -/
theorem isWhole_natChars (n : Nat) : isWhole (Text.natChars n) = true := by
  obtain ⟨c, cs, hcs⟩ := List.exists_cons_of_ne_nil (Text.natChars_ne_nil n)
  by_cases hn : n = 0
  · subst hn
    decide
  · have hc : c ≠ '0' := by
      have hhead := Text.head?_natChars_ne_zero hn
      rw [hcs] at hhead
      simpa using hhead
    rw [hcs]
    unfold isWhole
    split
    · rename_i h
      exact absurd h (by simp)
    · rfl
    · rename_i h
      obtain ⟨rfl, -⟩ := List.cons.inj h
      simpa using hc

/-! ## Reading digits

  Both inductions leave a text behind the digits, because the reader goes on from there with the
  mantissa that it has.  The one is on the number divided by ten, as its digits are made, the other
  on how many of them are read. -/

/-- The digits of `n` make an empty mantissa `n`. -/
theorem readWhole?_natChars {n : Nat} (h : n < limit) (rest : List Char) :
    readWhole? 0 zero.mantissa_lt (Text.natChars n ++ rest) = readWhole? n h rest := by
  induction n using Nat.strong_induction_on generalizing rest with
  | _ n ih =>
    by_cases hn : n < 10
    · have hstep : 10 * 0 + digitValue n.digitChar = n := by
        rw [digitValue_digitChar hn]
        omega
      rw [Text.natChars_of_lt_ten hn]
      simp only [List.cons_append, List.nil_append, readWhole?, hstep, h, dite_true]
    · have hstep : 10 * (n / 10) + digitValue (n % 10).digitChar = n := by
        rw [digitValue_digitChar (Nat.mod_lt _ (by decide))]
        omega
      rw [Text.natChars_of_ten_le (by omega), List.append_assoc, ih (n / 10) (by omega) (by omega)]
      simp only [List.cons_append, List.nil_append, readWhole?, hstep, h, dite_true]

/-- The last digits of `n` go on with a mantissa. -/
theorem readFraction?_lowDigits {negative : Bool} {m s k n : Nat} (hm : m < limit)
    (hs : s ≤ maxScale) (h : m * tenTo k + n % tenTo k < limit) (hk : s + k ≤ maxScale)
    (rest : List Char) :
    readFraction? negative m s hm hs (lowDigits k n ++ rest) =
      readFraction? negative (m * tenTo k + n % tenTo k) (s + k) h hk rest := by
  induction k generalizing n rest with
  | zero =>
    have hzero : m * tenTo 0 + n % tenTo 0 = m := by
      rw [tenTo_zero]
      omega
    simp only [lowDigits, List.nil_append, hzero, Nat.add_zero]
  | succ k ih =>
    -- the mantissa before the last digit, and the step that the last digit makes
    have hsplit : m * tenTo (k + 1) + n % tenTo (k + 1) =
        10 * (m * tenTo k + n / 10 % tenTo k) + n % 10 := by
      have hmod : n % (10 * tenTo k) = n % 10 + 10 * (n / 10 % tenTo k) := Nat.mod_mul
      have hmul : m * (10 * tenTo k) = 10 * (m * tenTo k) := Nat.mul_left_comm m 10 (tenTo k)
      rw [tenTo_succ, Nat.mul_comm (tenTo k) 10, hmod]
      omega
    have hdigit : digitValue (n % 10).digitChar = n % 10 :=
      digitValue_digitChar (Nat.mod_lt _ (by decide))
    have hlast : 10 * (m * tenTo k + n / 10 % tenTo k) + n % 10 < limit := hsplit ▸ h
    have hbefore : m * tenTo k + n / 10 % tenTo k < limit := by omega
    rw [lowDigits, List.append_assoc, ih hbefore (by omega)]
    simp only [List.cons_append, List.nil_append, readFraction?, hdigit, hlast, Nat.add_assoc, hk,
      and_self, dite_true, hsplit]

/-- The digits that a decimal has before and after its point give the decimal back. -/
theorem ofDigits?_wholePart_lowDigits (d : Decimal) :
    ofDigits? d.negative (Text.natChars d.wholePart) (lowDigits d.scale d.mantissa) =
      some d.unsignZero := by
  have hmantissa : d.wholePart * tenTo d.scale + d.mantissa % tenTo d.scale = d.mantissa :=
    Nat.div_add_mod' d.mantissa (tenTo d.scale)
  have hwhole : d.wholePart < limit := Nat.lt_of_le_of_lt (Nat.div_le_self _ _) d.mantissa_lt
  have hlimit : d.wholePart * tenTo d.scale + d.mantissa % tenTo d.scale < limit := by
    rw [hmantissa]
    exact d.mantissa_lt
  have hscale : 0 + d.scale ≤ maxScale := by
    rw [Nat.zero_add]
    exact d.scale_le
  have hfraction : readFraction? d.negative d.wholePart 0 hwhole (Nat.zero_le _)
      (lowDigits d.scale d.mantissa ++ []) = _ :=
    readFraction?_lowDigits hwhole (Nat.zero_le _) hlimit hscale []
  have hread := readWhole?_natChars hwhole []
  rw [List.append_nil] at hfraction hread
  rw [ofDigits?, hread]
  simp only [readWhole?, Option.bind_some, hfraction, readFraction?, Option.map_some]
  simp only [hmantissa, Nat.zero_add]

/-! ## The characters of a decimal

  The text of a decimal is a sign, whole digits, and a point with a fixed number of digits.  It is
  one of the literals that both readers of numbers know (`PlainNumber`), so what is proved of those
  holds of it. -/

/-- All characters behind the point are digits. -/
theorem isDigit_of_mem_lowDigits {k n : Nat} {c : Char} (h : c ∈ lowDigits k n) :
    c.isDigit = true := by
  induction k generalizing n with
  | zero => simp [lowDigits] at h
  | succ k ih =>
    rcases List.mem_append.1 h with h | h
    · exact ih h
    · rw [List.mem_singleton.1 h, Nat.isDigit_digitChar]
      exact decide_eq_true (Nat.mod_lt _ (by decide))

/-- The point and the digits behind it, if there are any. -/
def fractionChars (d : Decimal) : List Char :=
  if d.scale = 0 then [] else '.' :: lowDigits d.scale d.mantissa

/-- The text of a decimal in its three parts. -/
theorem chars_eq_append (d : Decimal) :
    d.chars = (if d.negative then ['-'] else []) ++
      (Text.natChars d.wholePart ++ d.fractionChars) := by
  rw [chars, fractionChars, List.append_assoc]

/-- There is nothing but digits, a minus sign and a point in it. -/
theorem mem_chars {d : Decimal} {c : Char} (h : c ∈ d.chars) :
    c.isDigit = true ∨ c = '-' ∨ c = '.' := by
  rw [chars_eq_append, List.mem_append, List.mem_append] at h
  rcases h with h | h | h
  · split at h
    · exact Or.inr (Or.inl (List.mem_singleton.1 h))
    · exact absurd h (by simp)
  · exact Or.inl (Text.isDigit_of_mem_natChars h)
  · rw [fractionChars] at h
    split at h
    · exact absurd h (by simp)
    · rcases List.mem_cons.1 h with h | h
      · exact Or.inr (Or.inr h)
      · exact Or.inl (isDigit_of_mem_lowDigits h)

/-- A decimal starts with a digit, or with a minus sign and a digit. -/
theorem chars_cases (d : Decimal) :
    ∃ c cs, c.isDigit = true ∧ (d.chars = c :: cs ∨ d.chars = '-' :: c :: cs) := by
  obtain ⟨c, cs, hcs⟩ := List.exists_cons_of_ne_nil (Text.natChars_ne_nil d.wholePart)
  have hc : c.isDigit = true :=
    Text.isDigit_of_mem_natChars (n := d.wholePart) (by rw [hcs]; exact List.mem_cons_self)
  refine ⟨c, cs ++ d.fractionChars, hc, ?_⟩
  rw [chars_eq_append, hcs]
  cases d.negative
  · exact Or.inl rfl
  · exact Or.inr rfl

/-- The text of a decimal as a literal. -/
def plain (d : Decimal) : PlainNumber where
  negative := d.negative
  whole := Text.natChars d.wholePart
  fraction := lowDigits d.scale d.mantissa
  isWhole := isWhole_natChars _
  isDigit_whole _ := Text.isDigit_of_mem_natChars
  isDigit_fraction _ := isDigit_of_mem_lowDigits

/-- The literal of a decimal has its text. -/
theorem plain_chars (d : Decimal) : d.plain.chars = d.chars := by
  have hnone : lowDigits d.scale d.mantissa = [] ↔ d.scale = 0 := by
    cases d.scale with
    | zero => simp [lowDigits]
    | succ k => simp [lowDigits]
  rw [chars_eq_append, fractionChars]
  simp only [← hnone]
  rfl

end Decimal

namespace Block

open Decimal

/-- The text of a decimal is taken apart into its sign and its digits. -/
theorem numberParts?_chars (d : Decimal) :
    numberParts? d.chars =
      some (d.negative, Text.natChars d.wholePart, lowDigits d.scale d.mantissa) := by
  rw [← d.plain_chars, numberParts?_plain]
  rfl

/-- The text of a decimal is read as the decimal; a zero has no sign then. -/
theorem plainNumber?_chars (d : Decimal) : plainNumber? d.chars = some d.unsignZero := by
  rw [plainNumber?, numberParts?_chars]
  exact ofDigits?_wholePart_lowDigits d

end Block

end BlockQuery

/-
  Literals of numbers without an exponent.

  Such a literal has one meaning in block text and in JSON text: a sign, digits before the point and
  digits behind it.  Block text is read by its first character and its point, which is why these
  laws stand apart from what number the digits make.  The text of a decimal is a literal of this
  kind.

  The structure carries what makes it a literal: digits in front that do not start with a zero
  unless they are one, and digits behind.  So its laws have no hypotheses, and a decimal becomes a
  literal once, with its proofs.
-/
import BlockQuery.Block.Scalar
import BlockQuery.Proofs.Blank

namespace BlockQuery

/-- The literal of a number without an exponent.  If there are no digits behind the point, there is
    no point. -/
structure PlainNumber where
  negative : Bool
  whole : List Char
  fraction : List Char
  isWhole : Decimal.isWhole whole = true
  isDigit_whole : ∀ c ∈ whole, c.isDigit = true
  isDigit_fraction : ∀ c ∈ fraction, c.isDigit = true

namespace PlainNumber

variable (l : PlainNumber)

/-- The point and the digits behind it, if there are any. -/
def fractionChars : List Char :=
  if l.fraction = [] then [] else '.' :: l.fraction

/-- The text of a literal without its sign. -/
def unsignedChars : List Char :=
  l.whole ++ l.fractionChars

/-- The text of a literal. -/
def chars : List Char :=
  (if l.negative then ['-'] else []) ++ l.unsignedChars

/-! ## The first character

  A literal is told from everything else by a digit or a minus sign in front. -/

/-- Without its sign, a literal starts with a digit. -/
theorem unsignedChars_cases : ∃ c cs, c.isDigit = true ∧ l.unsignedChars = c :: cs := by
  obtain ⟨negative, whole, fraction, hwhole, hdigits, -⟩ := l
  cases whole with
  | nil => exact absurd hwhole Bool.false_ne_true
  | cons c cs => exact ⟨c, _, hdigits c List.mem_cons_self, rfl⟩

/-- The first character behind the sign is a digit. -/
theorem unsignedChars_head (c : Char) (h : c ∈ l.unsignedChars.head?) : c.isDigit = true := by
  obtain ⟨d, ds, hd, heq⟩ := l.unsignedChars_cases
  rw [heq] at h
  obtain rfl := Option.some.inj h
  exact hd

/-- A literal starts with a digit or a minus sign. -/
theorem chars_head (c : Char) (h : c ∈ l.chars.head?) : c.isDigit = true ∨ c = '-' := by
  rw [chars] at h
  split at h
  · exact Or.inr (Option.some.inj h).symm
  · exact Or.inl (l.unsignedChars_head c h)

/-- So a literal does not start with any other sign. -/
theorem chars_head_ne {c : Char} (hdigit : c.isDigit = false) (hdash : c ≠ '-') :
    l.chars.head? ≠ some c := by
  intro h
  rcases l.chars_head c h with hc | hc
  · rw [hdigit] at hc
    exact absurd hc Bool.false_ne_true
  · exact hdash hc

end PlainNumber

namespace Block

/-! ## In block text

  The reader of scalars tries quotes and words before numbers, and it takes a text for a number by
  its shape alone: what looks like a number but is out of range stays a string. -/

/-- A text without a minus sign in front is taken apart at its point. -/
theorem numberParts?_unsigned {cs : List Char} (h : ∀ c ∈ cs.head?, c ≠ '-') :
    numberParts? cs =
      if Decimal.isWhole (cs.takeWhile Char.isDigit) then
        match cs.dropWhile Char.isDigit with
        | [] => some (false, cs.takeWhile Char.isDigit, [])
        | '.' :: fraction =>
            if !fraction.isEmpty && fraction.all Char.isDigit then
              some (false, cs.takeWhile Char.isDigit, fraction)
            else none
        | _ => none
      else none := by
  cases cs with
  | nil => rfl
  | cons c cs =>
    unfold numberParts?
    split
    rename_i heq
    split at heq
    · rename_i hminus
      obtain ⟨rfl, -⟩ := List.cons.inj hminus
      exact absurd rfl (h '-' rfl)
    · obtain ⟨rfl, rfl⟩ := Prod.mk.inj heq
      rfl

/-- A minus sign in front only changes the sign. -/
theorem numberParts?_minus {cs : List Char} (h : ∀ c ∈ cs.head?, c ≠ '-') :
    numberParts? ('-' :: cs) = (numberParts? cs).map fun p => (true, p.2) := by
  rw [numberParts?_unsigned h]
  simp only [numberParts?]
  cases Decimal.isWhole (cs.takeWhile Char.isDigit) with
  | false => rfl
  | true =>
    cases cs.dropWhile Char.isDigit with
    | nil => rfl
    | cons c fraction =>
      by_cases hc : c = '.'
      · subst hc
        simp only [if_true]
        split <;> rfl
      · simp [hc]

variable (l : PlainNumber)

/-- The text of a literal is taken apart into its sign and its digits. -/
theorem numberParts?_plain : numberParts? l.chars = some (l.negative, l.whole, l.fraction) := by
  have hpoint : ∀ c ∈ l.fractionChars.head?, c.isDigit = false := by
    intro c hc
    rw [PlainNumber.fractionChars] at hc
    split at hc
    · exact absurd hc (by simp)
    · obtain rfl := Option.some.inj hc
      decide
  have hminus : ∀ c ∈ l.unsignedChars.head?, c ≠ '-' := by
    rintro c hc rfl
    exact absurd (l.unsignedChars_head '-' hc) (by decide)
  have hbody : numberParts? l.unsignedChars = some (false, l.whole, l.fraction) := by
    rw [numberParts?_unsigned hminus, PlainNumber.unsignedChars,
      takeWhile_run_append l.isDigit_whole hpoint, dropWhile_run_append l.isDigit_whole hpoint,
      if_pos l.isWhole, PlainNumber.fractionChars]
    by_cases hnone : l.fraction = []
    · simp [hnone]
    · have hall : l.fraction.all Char.isDigit = true := List.all_eq_true.2 l.isDigit_fraction
      simp [hnone, hall]
  rw [PlainNumber.chars]
  cases l.negative with
  | true =>
    rw [if_pos rfl, List.cons_append, List.nil_append, numberParts?_minus hminus, hbody]
    rfl
  | false => exact hbody

/-- The number of a literal is the number of its digits. -/
theorem plainNumber?_plain :
    plainNumber? l.chars = Decimal.ofDigits? l.negative l.whole l.fraction := by
  rw [plainNumber?, numberParts?_plain]
  rfl

/-- A literal is none of the words. -/
theorem plainScalar?_plain : plainScalar? l.chars = (plainNumber? l.chars).map .number := by
  have hword : ∀ c w, c.isDigit = false → c ≠ '-' → l.chars ≠ c :: w := by
    intro c w hdigit hdash h
    exact l.chars_head_ne hdigit hdash (congrArg List.head? h)
  have htrue : l.chars ≠ Text.trueWord := hword 't' _ (by decide) (by decide)
  have hfalse : l.chars ≠ Text.falseWord := hword 'f' _ (by decide) (by decide)
  have hnull : l.chars ≠ Text.nullWord := hword 'n' _ (by decide) (by decide)
  have htilde : l.chars ≠ ['~'] := hword '~' _ (by decide) (by decide)
  have hsequence : l.chars ≠ ['[', ']'] := hword '[' _ (by decide) (by decide)
  have hmapping : l.chars ≠ ['{', '}'] := hword '{' _ (by decide) (by decide)
  rw [plainScalar?, if_neg htrue, if_neg hfalse, if_neg (not_or.2 ⟨hnull, htilde⟩),
    if_neg hsequence, if_neg hmapping]

/-- A text that starts with no quote is not quoted. -/
theorem readQuoted_of_head {cs : List Char} (hdouble : cs.head? ≠ some '"')
    (hsingle : cs.head? ≠ some '\'') : readQuoted cs = .notQuoted := by
  unfold readQuoted
  split
  · exact absurd rfl hdouble
  · exact absurd rfl hsingle
  · rfl

/-- A literal is not quoted. -/
theorem readQuoted_plain : readQuoted l.chars = .notQuoted :=
  readQuoted_of_head (l.chars_head_ne (by decide) (by decide))
    (l.chars_head_ne (by decide) (by decide))

/-- A literal is read as the number of its digits, or as a string if they are out of range. -/
theorem readScalar?_plain_iff {d : Decimal} :
    readScalar? l.chars = some (.number d) ↔
      Decimal.ofDigits? l.negative l.whole l.fraction = some d := by
  rw [readScalar?, readQuoted_plain, plainScalar?_plain, plainNumber?_plain]
  cases Decimal.ofDigits? l.negative l.whole l.fraction <;> simp

end Block

end BlockQuery

/-
  Escapes are undone.

  One character is written, one is read: `readDouble` and `splitDouble?` go over the written form of
  a character in one step (`readDouble_escapeChar`, `splitDouble?_escapeChar`), so whole texts
  follow by induction over their characters.  Both stop at the closing quote and only there, since
  a quote in the text has a backslash in front.

  `escapeChar_cases` is what makes this work: there are three forms of a written character, and each
  of them is one branch of both readers.  The first form is a backslash and a letter that is not
  `u`, the second one has four hexadecimal digits, and in the third one the character stands for
  itself.
-/
import BlockQuery.Block.Key
import BlockQuery.Proofs.Blank

namespace BlockQuery

/-! ## Hexadecimal digits

  A control character is written with four digits, of which the first two are zeros.  The digits are
  found by computation on the sixteen that there are. -/

namespace Text

/-- A digit has the value that it was written for. -/
theorem hexValue?_hexDigit (n : Nat) : hexValue? (hexDigit n) = some (n % 16) := by
  have hall : ∀ d < 16, hexValue? (Nat.digitChar d) = some d := by decide
  exact hall (n % 16) (Nat.mod_lt _ (by decide))

/-- Two digits name a number below 256. -/
theorem hexNumber?_hexDigits {n : Nat} (h : n < 256) :
    hexNumber? 0 ['0', '0', hexDigit (n / 16), hexDigit n] = some n := by
  have hzero : hexValue? '0' = some 0 := by decide
  have hsplit : 16 * (16 * (16 * (16 * 0 + 0) + 0) + n / 16 % 16) + n % 16 = n := by omega
  simp only [hexNumber?, hzero, hexValue?_hexDigit, Option.bind_some, hsplit]

/-- Control characters have small numbers, so two digits are enough for them. -/
theorem isControl_lt {c : Char} (h : isControl c = true) : c.toNat < 256 := by
  simp only [isControl, Bool.or_eq_true, Bool.and_eq_true, decide_eq_true_eq] at h
  omega

/-- The forms that an escaped character takes. -/
theorem escapeChar_cases (c : Char) :
    (∃ e, escapeChar c = ['\\', e] ∧ e ≠ 'u' ∧ isControl e = false ∧
      Block.decodeEscape e = [c]) ∨
    (escapeChar c = '\\' :: 'u' :: ['0', '0', hexDigit (c.toNat / 16), hexDigit c.toNat] ∧
      c.toNat < 256) ∨
    (escapeChar c = [c] ∧ c ≠ '"' ∧ c ≠ '\\' ∧ isControl c = false) := by
  unfold escapeChar
  split
  · rename_i h
    subst h
    exact Or.inl ⟨'"', rfl, by decide, by decide, by decide⟩
  split
  · rename_i h
    subst h
    exact Or.inl ⟨'\\', rfl, by decide, by decide, by decide⟩
  split
  · rename_i h
    subst h
    exact Or.inl ⟨'n', rfl, by decide, by decide, by decide⟩
  split
  · rename_i h
    subst h
    exact Or.inl ⟨'r', rfl, by decide, by decide, by decide⟩
  split
  · rename_i h
    subst h
    exact Or.inl ⟨'t', rfl, by decide, by decide, by decide⟩
  split
  · rename_i h
    exact Or.inr (Or.inl ⟨rfl, isControl_lt h⟩)
  · rename_i hquote hslash _ _ _ hcontrol
    exact Or.inr (Or.inr ⟨rfl, hquote, hslash, by simpa using hcontrol⟩)

end Text

namespace Block

open Text

/-! ## Decoding

  What stands between quotes is decoded up to the closing quote.  The lemmas go over one written
  character with any text behind it, so the induction over the characters needs nothing else. -/

/-- The four digits of a control character are decoded to it. -/
theorem decodeUnicode_hexDigits {c : Char} (h : c.toNat < 256) :
    decodeUnicode ['0', '0', hexDigit (c.toNat / 16), hexDigit c.toNat] = [c] := by
  have hchar : unicodeChar? ['0', '0', hexDigit (c.toNat / 16), hexDigit c.toNat] = some c := by
    have hvalid : c.toNat.isValidChar := c.valid
    show (hexNumber? 0 ['0', '0', hexDigit (c.toNat / 16), hexDigit c.toNat]).bind _ = _
    rw [hexNumber?_hexDigits h, Option.bind_some, if_pos hvalid, Char.ofNat_toNat]
  rw [decodeUnicode, hchar]

/-- A backslash takes the character behind it along, if that is not `u`. -/
theorem readDouble_backslash {e : Char} (h : e ≠ 'u') (cs : List Char) :
    readDouble ('\\' :: e :: cs) = (readDouble cs).prepend (decodeEscape e) := by
  rw [readDouble]
  · exact if_neg h
  · intro a b c d rest heq
    exact absurd heq h

/-- A character that is neither a quote nor a backslash stands for itself. -/
theorem readDouble_cons {c : Char} (hquote : c ≠ '"') (hslash : c ≠ '\\') (cs : List Char) :
    readDouble (c :: cs) = (readDouble cs).prepend [c] := by
  rw [readDouble] <;> simp_all

/-- One escaped character is decoded in one step. -/
theorem readDouble_escapeChar (c : Char) (tail : List Char) :
    readDouble (escapeChar c ++ tail) = (readDouble tail).prepend [c] := by
  rcases escapeChar_cases c with ⟨e, he, hu, -, hdecode⟩ | ⟨he, hlt⟩ | ⟨he, hquote, hslash, -⟩
  · rw [he, List.cons_append, List.cons_append, List.nil_append, readDouble_backslash hu, hdecode]
  · rw [he]
    simp only [List.cons_append, List.nil_append, readDouble]
    rw [decodeUnicode_hexDigits hlt]
  · rw [he, List.cons_append, List.nil_append, readDouble_cons hquote hslash]

/-- An escaped text and its closing quote are decoded. -/
theorem readDouble_escape (cs : List Char) : readDouble (escape cs ++ ['"']) = .closed cs := by
  induction cs with
  | nil => rfl
  | cons c cs ih =>
    rw [escape, List.flatMap_cons, List.append_assoc, readDouble_escapeChar, ← escape, ih]
    rfl

/-- A quoted text is decoded to the text, with nothing left behind it. -/
theorem readQuoted_quote (cs : List Char) : readQuoted (quote cs) = .closed cs :=
  readDouble_escape cs

/-! ## Splitting

  To find the end of a quoted key the reader goes over it without decoding.  It passes over a
  backslash and what follows it, so it stops at the same quote as the decoder does. -/

/-- A backslash takes the character behind it along, whatever it is. -/
theorem splitDouble?_backslash (e : Char) (cs : List Char) :
    splitDouble? ('\\' :: e :: cs) =
      (splitDouble? cs).map fun p => ('\\' :: e :: p.1, p.2) := by
  rw [splitDouble?]

/-- Any other character but a quote is passed over. -/
theorem splitDouble?_cons {c : Char} (hquote : c ≠ '"') (hslash : c ≠ '\\') (cs : List Char) :
    splitDouble? (c :: cs) = (splitDouble? cs).map fun p => (c :: p.1, p.2) := by
  rw [splitDouble?] <;> simp_all

/-- A hexadecimal digit is neither a quote nor a backslash. -/
theorem hexDigit_plain (n : Nat) : hexDigit n ≠ '"' ∧ hexDigit n ≠ '\\' := by
  have hall : ∀ d < 16, Nat.digitChar d ≠ '"' ∧ Nat.digitChar d ≠ '\\' := by decide
  exact hall (n % 16) (Nat.mod_lt _ (by decide))

/-- One escaped character is passed over in one step. -/
theorem splitDouble?_escapeChar (c : Char) (tail : List Char) :
    splitDouble? (escapeChar c ++ tail) =
      (splitDouble? tail).map fun p => (escapeChar c ++ p.1, p.2) := by
  rcases escapeChar_cases c with ⟨e, he, -⟩ | ⟨he, -⟩ | ⟨he, hquote, hslash, -⟩
  · rw [he, List.cons_append, List.cons_append, List.nil_append, splitDouble?_backslash]
    rfl
  · rw [he]
    simp only [List.cons_append, List.nil_append]
    -- the digits are passed over as four plain characters
    rw [splitDouble?_backslash, splitDouble?_cons (by decide) (by decide),
      splitDouble?_cons (by decide) (by decide),
      splitDouble?_cons (hexDigit_plain _).1 (hexDigit_plain _).2,
      splitDouble?_cons (hexDigit_plain _).1 (hexDigit_plain _).2]
    simp only [Option.map_map]
    rfl
  · rw [he, List.cons_append, List.nil_append, splitDouble?_cons hquote hslash]
    rfl

/-- What follows an opening quote is split behind the quote that closes the escaped text. -/
theorem splitDouble?_escape (cs rest : List Char) :
    splitDouble? (escape cs ++ '"' :: rest) = some (escape cs ++ ['"'], rest) := by
  induction cs with
  | nil => rfl
  | cons c cs ih =>
    rw [escape, List.flatMap_cons, List.append_assoc, splitDouble?_escapeChar, ← escape, ih,
      List.append_assoc]
    rfl

end Block

/-! ## The look of quoted text

  What the readers of lines see of a quoted text: it has no line break in it, it starts and ends
  with a quote, and so it is not trimmed. -/

namespace Text

/-- A hexadecimal digit is no control character. -/
theorem isControl_hexDigit (n : Nat) : isControl (hexDigit n) = false := by
  have hall : ∀ d < 16, isControl (Nat.digitChar d) = false := by decide
  exact hall (n % 16) (Nat.mod_lt _ (by decide))

/-- Escaped text holds no control character. -/
theorem isControl_of_mem_escape {cs : List Char} {d : Char} (h : d ∈ escape cs) :
    isControl d = false := by
  obtain ⟨c, -, hc⟩ := List.mem_flatMap.1 h
  rcases escapeChar_cases c with ⟨e, he, -, hcontrol, -⟩ | ⟨he, -⟩ | ⟨he, -, -, hcontrol⟩
  · rw [he] at hc
    rcases List.mem_cons.1 hc with rfl | hc
    · decide
    · rwa [List.mem_singleton.1 hc]
  · rw [he] at hc
    simp only [List.mem_cons, List.not_mem_nil, or_false] at hc
    rcases hc with rfl | rfl | rfl | rfl | rfl | rfl
    · decide
    · decide
    · decide
    · decide
    · exact isControl_hexDigit _
    · exact isControl_hexDigit _
  · rw [he] at hc
    rwa [List.mem_singleton.1 hc]

/-- Quoted text holds no control character, so it stands on one line. -/
theorem isControl_of_mem_quote {cs : List Char} {d : Char} (h : d ∈ quote cs) :
    isControl d = false := by
  rcases List.mem_cons.1 h with rfl | h
  · decide
  · rcases List.mem_append.1 h with h | h
    · exact isControl_of_mem_escape h
    · rw [List.mem_singleton.1 h]
      decide

/-- Each character is written with at least one. -/
theorem length_le_length_escape (cs : List Char) : cs.length ≤ (escape cs).length := by
  induction cs with
  | nil => exact Nat.le_refl _
  | cons c cs ih =>
    have hone : 1 ≤ (escapeChar c).length := by
      rcases escapeChar_cases c with ⟨e, he, -⟩ | ⟨he, -⟩ | ⟨he, -⟩
      · simp [he]
      · simp [he]
      · simp [he]
    rw [escape, List.flatMap_cons, List.length_append, ← escape, List.length_cons]
    omega

/-- No text is its own quoted form. -/
theorem quote_ne_self (cs : List Char) : quote cs ≠ cs := by
  intro h
  have hlength := congrArg List.length h
  have hescape := length_le_length_escape cs
  -- escaping shortens no text, and the quotes come on top
  simp only [quote, List.length_cons, List.length_append, List.length_nil] at hlength
  omega

/-- A quote stands at both ends. -/
theorem trimmed_quote (cs : List Char) : Trimmed (quote cs) := by
  constructor
  · rintro _ ⟨⟩
    decide
  · exact endsTight_concat ('"' :: escape cs) (by decide)

end Text

end BlockQuery

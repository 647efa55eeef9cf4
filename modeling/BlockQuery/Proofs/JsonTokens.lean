/-
  The parts of written JSON are read back.

  A written string ends at its closing quote, since a quote inside has a backslash in front
  (`takes_readString?`); a word and a number end where the next character cannot go on with them,
  and no character behind a value can (`ClosesValue`).  A number of 64 bits comes back by its value:
  only `-0` is read as floating point.

  The writer escapes as the reader of blocks decodes, and the reader of JSON decodes as JSON does.
  On what is written the two agree, so the forms of an escaped character (`escapeChar_cases`) serve
  for both, and the only new fact is that the letters of escapes mean the same
  (`escaped?_of_decodeEscape`).
-/
import BlockQuery.Proofs.Escape
import BlockQuery.Proofs.NumberReaders

namespace BlockQuery

open Text (escape escapeChar quote hexDigit)
open NumberLiteral (natOfDigits significandLimit)

namespace Json

variable {cs rest : List Char}

/-! ## Strings

  The induction is on the characters of the text, and one written character is one step. -/

/-- An escape that is decoded to one character is one of JSON. -/
theorem escaped?_of_decodeEscape {e c : Char} (h : Block.decodeEscape e = [c]) :
    escaped? e = some c := by
  unfold Block.decodeEscape at h
  split at h
  all_goals cases h
  all_goals rfl

/-- One written character is read in one step.  It stands for itself, or it is an escape with a
    letter, or one with four digits. -/
theorem takes_stringChar? (c : Char) (tail : List Char) :
    Takes (stringChar? (escapeChar c ++ tail)) c tail := by
  rcases Text.escapeChar_cases c with
    ⟨e, he, hu, -, hdecode⟩ | ⟨he, hlt⟩ | ⟨he, hquote, hslash, hcontrol⟩
  · rw [he, List.cons_append, List.singleton_append, stringChar?]
    · rw [escaped?_of_decodeEscape hdecode]
      exact ⟨_, rfl, rfl, rfl⟩
    · intro _ _ _ _ _ heq
      exact absurd heq hu
  · -- a control character is no surrogate
    have hhigh : isHighSurrogate c.toNat = false := by
      simp only [isHighSurrogate, Bool.and_eq_false_iff, decide_eq_false_iff_not]
      omega
    have hlow : isLowSurrogate c.toNat = false := by
      simp only [isLowSurrogate, Bool.and_eq_false_iff, decide_eq_false_iff_not]
      omega
    rw [he]
    show Takes (stringChar? ('\\' :: 'u' :: '0' :: '0' :: hexDigit (c.toNat / 16) ::
      hexDigit c.toNat :: tail)) c tail
    rw [stringChar?, Text.hexNumber?_hexDigits hlt]
    simp only [hhigh, hlow]
    exact ⟨_, rfl, Char.ofNat_toNat c, rfl⟩
  · have hprintable : ¬ (c = '"' ∨ c = '\\' ∨ c.toNat < 0x20) := by
      simp only [Text.isControl, Bool.or_eq_false_iff, decide_eq_false_iff_not] at hcontrol
      exact not_or.2 ⟨hquote, not_or.2 ⟨hslash, hcontrol.1⟩⟩
    rw [he, List.singleton_append, stringChar?]
    · rw [if_neg hprintable]
      exact ⟨_, rfl, rfl, rfl⟩
    · intro _ _ _ _ _ heq
      exact absurd heq hslash
    · intro _ _ heq
      exact absurd heq hslash

/-- No written character looks like the closing quote. -/
theorem head?_escapeChar_ne (c : Char) (tail : List Char) :
    (escapeChar c ++ tail).head? ≠ some '"' := by
  rcases Text.escapeChar_cases c with ⟨e, he, -⟩ | ⟨he, -⟩ | ⟨he, hquote, -⟩
  · simp [he]
  · simp [he]
  · simpa [he] using hquote

/-- A written string is read up to its closing quote.  By induction on its characters: none of them
    looks like that quote, so each is a step of its own. -/
theorem takes_readString? (s : List Char) (hcs : cs = escape s ++ '"' :: rest) :
    Takes (readString? cs) s rest := by
  subst hcs
  induction s with
  | nil =>
    have hopen : Takes (takeFirst? (fun c => if c = '"' then some () else none) ('"' :: rest)) ()
        rest := takes_takeFirst? rfl (if_pos rfl)
    obtain ⟨close, hclose, -, hrest⟩ := hopen
    show Takes (readString? ('"' :: rest)) [] rest
    rw [readString?, hclose]
    exact ⟨_, rfl, rfl, hrest⟩
  | cons c s ih =>
    have hsplit : escape (c :: s) ++ '"' :: rest = escapeChar c ++ (escape s ++ '"' :: rest) := by
      rw [escape, List.flatMap_cons, List.append_assoc, ← escape]
    have hopen : takeFirst? (fun c => if c = '"' then some () else none)
        (escape (c :: s) ++ '"' :: rest) = none := by
      refine takeFirst?_eq_none fun d hd => if_neg ?_
      rintro rfl
      rw [hsplit] at hd
      exact head?_escapeChar_ne c _ hd
    obtain ⟨⟨d, behind, hshorter⟩, hchar, hd, hbehind⟩ :=
      hsplit ▸ takes_stringChar? c (escape s ++ '"' :: rest)
    dsimp only at hd hbehind
    subst hd hbehind
    obtain ⟨string, hstring, hvalue, hrest⟩ := ih
    rw [readString?, hopen]
    simp only [hchar, hstring]
    exact ⟨_, rfl, congrArg (d :: ·) hvalue, hrest⟩

/-! ## What stands behind a value

  A word and a number have no end of their own.  In written JSON a value is followed by blanks, by a
  comma or by the bracket that closes what it stands in, and these go on with nothing. -/

/-- Whether a text goes on as behind a value: with a blank, a comma or a closing bracket.  The empty
    text does, too. -/
def ClosesValue (rest : List Char) : Prop :=
  ∀ c ∈ rest.head?, isBlank c = true ∨ c ∈ [',', ']', '}']

/-- No character behind a value belongs to a word or to a number. -/
theorem not_alphanumeric_of_closes {c : Char} (h : isBlank c = true ∨ c ∈ [',', ']', '}']) :
    c.isAlpha = false ∧ c.isDigit = false ∧ c ≠ '.' := by
  simp only [isBlank, Bool.or_eq_true, beq_iff_eq, List.mem_cons, List.not_mem_nil] at h
  rcases h with (((rfl | rfl) | rfl) | rfl) | rfl | rfl | rfl | h
  all_goals first | decide | cases h

/-- What closes a value ends a literal. -/
theorem ClosesValue.endsLiteral (h : ClosesValue rest) : EndsLiteral rest := by
  intro c hc
  obtain ⟨halpha, hdigit, hpoint⟩ := not_alphanumeric_of_closes (h c hc)
  refine ⟨hdigit, hpoint, ?_, ?_⟩
  · rintro rfl
    cases halpha
  · rintro rfl
    cases halpha

/-! ## Words and numbers

  An integer of 64 bits is kept by JSON as it is, up to its form: a decimal with a scale, as 1.0, is
  no integer in the text.  So `FitsWord` asks for no scale, and the value that comes back has
  none. -/

/-- A word ends where no letter follows. -/
theorem takes_readWord? {letters : List Char} {j : Json} (hword : word? letters = some j)
    (hletters : ∀ c ∈ letters, c.isAlpha = true) (hrest : ClosesValue rest)
    (hcs : cs = letters ++ rest) : Takes (readWord? cs) j rest := by
  subst hcs
  obtain ⟨c, more, rfl⟩ : ∃ c more, letters = c :: more := by
    cases letters with
    | nil => cases hword
    | cons c more => exact ⟨c, more, rfl⟩
  rw [List.forall_mem_cons] at hletters
  have hstop : ∀ c ∈ rest.head?, c.isAlpha = false := fun c hc =>
    (not_alphanumeric_of_closes (hrest c hc)).1
  have hfirst : takeFirst? (fun c => if c.isAlpha then some c else none) (c :: (more ++ rest)) =
      some ⟨c, more ++ rest, Nat.lt_succ_self _⟩ := by
    rw [takeFirst?, if_pos hletters.1]
    rfl
  rw [List.cons_append, readWord?, hfirst]
  simp only [takeWhile_run_append hletters.2 hstop, hword]
  exact ⟨_, rfl, rfl, dropWhile_run_append hletters.2 hstop⟩

end Json

/-- Whether a decimal is an integer of 64 bits, with or without a sign, and is written as one.
    These are the numbers that JSON text keeps. -/
structure Decimal.FitsWord (d : Decimal) : Prop where
  scale : d.scale = 0
  lower : -2 ^ 63 ≤ d.signed
  upper : d.signed ≤ 2 ^ 64 - 1

namespace Decimal.FitsWord

instance : DecidablePred Decimal.FitsWord := fun d =>
  decidable_of_iff (d.scale = 0 ∧ -2 ^ 63 ≤ d.signed ∧ d.signed ≤ 2 ^ 64 - 1)
    ⟨fun h => ⟨h.1, h.2.1, h.2.2⟩, fun h => ⟨h.scale, h.lower, h.upper⟩⟩

variable {d : Decimal}

/-- An integer has no digits behind a point. -/
theorem fraction_plain (h : d.FitsWord) : d.plain.fraction = [] := by
  show lowDigits d.scale d.mantissa = []
  rw [h.scale]
  rfl

/-- So all its digits are those of its mantissa. -/
theorem digits_plain (h : d.FitsWord) : d.plain.digits = d.mantissa := by
  have hwhole : d.wholePart = d.mantissa := by
    rw [wholePart, h.scale]
    exact Nat.div_one _
  rw [PlainNumber.digits, h.fraction_plain, List.append_nil, ← hwhole]
  exact NumberLiteral.natOfDigits_natChars _

/-- Only `-0` is no integer of JSON text.  Every other literal of this size has one, since its
    digits fit into a word. -/
theorem mantissa_eq_zero (h : d.FitsWord) (hi : d.plain.literal.integer? = none) :
    d.mantissa = 0 := by
  have hdigits : natOfDigits d.plain.whole = d.mantissa := by
    rw [← h.digits_plain, PlainNumber.digits, h.fraction_plain, List.append_nil]
  have hlower := h.lower
  have hupper := h.upper
  simp only [NumberLiteral.integer?, PlainNumber.literal, h.fraction_plain, if_true, hdigits,
    Option.isSome_none, Bool.or_self, Bool.false_eq_true, if_false, significandLimit] at hi
  have hsign : d.plain.negative = d.negative := rfl
  rw [hsign] at hi
  rw [signed] at hlower hupper
  by_cases hneg : d.negative = true
  · rw [if_pos hneg] at hi hlower
    split at hi
    · cases hi
    · omega
  · rw [if_neg hneg] at hi hupper
    split at hi
    · cases hi
    · omega

/-- The literal of an integer of 64 bits has a number, and that is the integer. -/
theorem exists_number? (h : d.FitsWord) :
    ∃ n e, d.plain.literal.number? = some n ∧ n.decimal? = some e ∧ e.sameValue d = true := by
  have hdigits := Decimal.ofDigits?_wholePart_lowDigits d
  have hvalue : ∀ {e : Decimal}, e.sameValue d.unsignZero = true → e.sameValue d = true :=
    fun he => sameValue_iff.2
      ((sameValue_iff.1 he).trans (sameValue_iff.1 d.sameValue_unsignZero))
  rw [NumberLiteral.number?]
  cases hi : d.plain.literal.integer? with
  | some i =>
    obtain ⟨e, he, hsame⟩ := d.plain.sameValue_integer hi hdigits
    exact ⟨_, e, rfl, he, hvalue hsame⟩
  | none =>
    have hfew : d.plain.digits < tenTo 15 := by
      rw [h.digits_plain, h.mantissa_eq_zero hi]
      exact tenTo_pos 15
    have hplaces : d.plain.fraction.length ≤ 22 := by
      rw [h.fraction_plain]
      exact Nat.zero_le _
    obtain ⟨x, e, hx, he, hsame⟩ := PlainNumber.exists_decimal? hfew hplaces hdigits
    exact ⟨_, e, by rw [hx]; rfl, he, hvalue hsame⟩

end Decimal.FitsWord

end BlockQuery

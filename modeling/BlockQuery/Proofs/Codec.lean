/-
  Scalars and keys as text.

  A scalar on one line is read as the scalar, a key as the key: in quotes because escapes are
  undone, bare because `needsQuoting` has checked that the text is no other scalar (`Bare`).
  Whether the line with the text is read as a scalar or a key at all is another question.

  The writer has one test for quotes, made of ten conditions, and `Bare` is the text of which none
  holds.  Each condition excludes one way in which the reader would see something else in the text,
  so what is proved of bare text uses them one by one, by name.  For quoted text there is nothing to
  check but that escapes are undone.
-/
import BlockQuery.Proofs.DecimalText
import BlockQuery.Proofs.Escape
import BlockQuery.Proofs.Tree

namespace BlockQuery.Block

open Text

variable {cs k tail : List Char}

/-! ## Bare text

  A string or a key is written bare or in quotes, and which of the two shows in its first
  character. -/

/-- What holds of a string that is written without quotes. -/
structure Bare (cs : List Char) : Prop where
  ne_nil : cs ≠ []
  ne_marker : cs ≠ marker
  trimmed : Trimmed cs
  no_control : ∀ c ∈ cs, isControl c = false
  head : ∀ c ∈ cs.head?, indicators.contains c = false
  no_item : isItem cs = false
  no_entry : hasPair ':' ' ' cs = false
  last : cs.getLast? ≠ some ':'
  no_comment : hasPair ' ' '#' cs = false
  no_scalar : plainScalar? cs = none

/-- The test of the writer, as a list of facts. -/
theorem bare_iff : Bare cs ↔ needsQuoting cs = false := by
  have hany : cs.head?.any (indicators.contains ·) = false ↔
      ∀ c ∈ cs.head?, indicators.contains c = false := by
    cases cs.head? <;> simp
  simp only [needsQuoting, Bool.or_eq_false_iff, List.isEmpty_eq_false_iff, beq_eq_false_iff_ne,
    bne_eq_false_iff_eq, List.any_eq_false, hany, Option.isSome_eq_false_iff,
    Option.isNone_iff_eq_none, Bool.not_eq_true, eq_comm (a := cs) (b := trim cs),
    trim_eq_self_iff]
  -- the ten facts are the ten tests, in their order
  constructor
  · intro h
    exact ⟨⟨⟨⟨⟨⟨⟨⟨⟨h.ne_nil, h.ne_marker⟩, h.trimmed⟩, h.no_control⟩, h.head⟩, h.no_item⟩,
      h.no_entry⟩, h.last⟩, h.no_comment⟩, h.no_scalar⟩
  · rintro ⟨⟨⟨⟨⟨⟨⟨⟨⟨hnil, hmarker⟩, htrim⟩, hcontrol⟩, hhead⟩, hitem⟩, hentry⟩, hlast⟩, hcomment⟩,
      hscalar⟩
    exact ⟨hnil, hmarker, htrim, hcontrol, hhead, hitem, hentry, hlast, hcomment, hscalar⟩

/-- A string is written as it stands or in quotes. -/
theorem renderString_cases (cs : List Char) :
    (renderString cs = cs ∧ Bare cs) ∨ renderString cs = quote cs := by
  unfold renderString
  split
  · exact Or.inr rfl
  · rename_i h
    exact Or.inl ⟨rfl, bare_iff.2 (by simpa using h)⟩

/-- A key is written as it stands, and then holds no colon and no `#`, or in quotes. -/
theorem renderKey_cases (k : List Char) :
    (renderKey k = k ∧ Bare k ∧ ':' ∉ k ∧ '#' ∉ k) ∨ renderKey k = quote k := by
  unfold renderKey
  split
  · exact Or.inr rfl
  · rename_i h
    simp only [Bool.or_eq_true, List.contains_iff_mem, not_or, Bool.not_eq_true] at h
    exact Or.inl ⟨rfl, bare_iff.2 h.2, h.1.1, h.1.2⟩

/-- A string that is written as it stands is bare, since no text is its own quoted form. -/
theorem bare_of_renderString (h : renderString cs = cs) : Bare cs := by
  rcases renderString_cases cs with ⟨-, hbare⟩ | hquote
  · exact hbare
  · exact absurd (hquote.symm.trans h) (quote_ne_self cs)

/-- So is a key, and it holds no colon and no `#`. -/
theorem bare_of_renderKey (h : renderKey k = k) : Bare k ∧ ':' ∉ k ∧ '#' ∉ k := by
  rcases renderKey_cases k with ⟨-, hbare⟩ | hquote
  · exact hbare
  · exact absurd (hquote.symm.trans h) (quote_ne_self k)

/-- A bare text starts with no sign that means something to the reader. -/
theorem Bare.head_ne {c : Char} (h : Bare cs) (hc : indicators.contains c = true) :
    cs.head? ≠ some c := by
  intro hhead
  have hfalse := h.head c hhead
  rw [hc] at hfalse
  exact absurd hfalse (by decide)

/-- It starts with no quote, so it is read as it stands. -/
theorem Bare.readQuoted (h : Bare cs) : readQuoted cs = .notQuoted :=
  readQuoted_of_head (h.head_ne (by decide)) (h.head_ne (by decide))

/-! ## Scalars are read back

  A scalar has one text, and the reader tries its kinds in turn: quotes, the words, a number, and a
  string if it is none of these.  For each kind the ones before are excluded by its first
  character. -/

/-- Any string is read back from its text. -/
theorem readScalar?_renderString (cs : List Char) :
    readScalar? (renderString cs) = some (.string (String.ofList cs)) := by
  rcases renderString_cases cs with ⟨heq, hbare⟩ | heq
  · rw [heq, readScalar?, hbare.readQuoted, hbare.no_scalar]
    rfl
  · rw [heq, readScalar?, readQuoted_quote]

/-- A number starts with a digit or a minus sign. -/
theorem head?_chars_ne {d : Decimal} {c : Char} (hdigit : c.isDigit = false) (hdash : c ≠ '-') :
    d.chars.head? ≠ some c := by
  rw [← d.plain_chars]
  exact d.plain.chars_head_ne hdigit hdash

/-- The text of a number is none of the words. -/
theorem plainScalar?_chars (d : Decimal) :
    plainScalar? d.chars = some (.number d.unsignZero) := by
  rw [← d.plain_chars, plainScalar?_plain, Decimal.plain_chars, plainNumber?_chars]
  rfl

/-- Nor does it start with a quote. -/
theorem readQuoted_chars (d : Decimal) : readQuoted d.chars = .notQuoted := by
  rw [← d.plain_chars]
  exact readQuoted_plain _

/-- A value on one line is read back; a zero loses its sign. -/
theorem readScalar?_renderScalar {v : Value} (h : v.isBlock = false) :
    readScalar? (renderScalar v) = some v.unsignZeros := by
  cases v with
  | null => rfl
  | boolean b => cases b <;> rfl
  | number n =>
    rw [renderScalar, readScalar?, readQuoted_chars, plainScalar?_chars]
    rfl
  | string s =>
    rw [renderScalar, readScalar?_renderString, String.ofList_toList]
    rfl
  | sequence items =>
    obtain rfl := Value.eq_nil_of_isBlock_sequence h
    rfl
  | mapping es =>
    obtain rfl := Value.eq_nil_of_isBlock_mapping h
    rfl

/-! ## Keys are read back

  A key is only decoded or trimmed, so it need not be told from anything else. -/

/-- Any key is read back from its text. -/
theorem readKey?_renderKey (k : List Char) : readKey? (renderKey k) = some k := by
  rcases renderKey_cases k with ⟨heq, hbare, -, -⟩ | heq
  · rw [heq, readKey?, hbare.readQuoted, trim_eq_self_iff.2 hbare.trimmed]
  · rw [heq, readKey?, readQuoted_quote]

end BlockQuery.Block

/-
  Scalars, keys and quoted text are read back exactly.

  `Codec` has the writers' quoting undone in its own terms.  Here the readers stand as the reader of
  documents calls them, and what they give is spelled out: a scalar comes back as the value it was,
  whether or not its text is in quotes, and a number keeps its digits and its scale, so that only a
  negative zero is changed, by its sign.  Single quotes are a second form, which is read and never
  written; a text with each single quote doubled (`doubled`) comes back from between them as well.
-/
import BlockQuery.Proofs.BlockSteps
import BlockQuery.Proofs.Codec

namespace BlockQuery.Block

open Text (quote)
open Value

/-! ## Single quotes

  Between single quotes only the quote itself is special, and two of them stand for one.  So the
  reader goes over a doubled text in steps of one character of the text. -/

/-- A text with each single quote in it written twice. -/
def doubled (cs : List Char) : List Char :=
  cs.flatMap fun c => if c = '\'' then ['\'', '\''] else [c]

/-- Two quotes stand for one. -/
theorem readSingle_pair (cs : List Char) :
    readSingle ('\'' :: '\'' :: cs) = (readSingle cs).prepend ['\''] := by
  rw [readSingle]

/-- Any other character stands for itself. -/
theorem readSingle_cons {c : Char} (h : c ≠ '\'') (cs : List Char) :
    readSingle (c :: cs) = (readSingle cs).prepend [c] := by
  rw [readSingle] <;> simp_all

/-- A doubled text and its closing quote are decoded. -/
theorem readSingle_doubled (cs : List Char) : readSingle (doubled cs ++ ['\'']) = .closed cs := by
  induction cs with
  | nil => rfl
  | cons c cs ih =>
    rw [doubled, List.flatMap_cons, List.append_assoc, ← doubled]
    split
    · rename_i hc
      rw [List.cons_append, List.singleton_append, readSingle_pair, ih, hc]
      rfl
    · rename_i hc
      rw [List.singleton_append, readSingle_cons hc, ih]
      rfl

/-! ## Values on one line

  The readers take a line and a number for its errors.  None of what is written here has an error,
  so the number is arbitrary. -/

/-- Apart from numbers, nothing on one line has a sign to lose. -/
theorem unsignZeros_of_kind {v : Value} (hv : v.isBlock = false) (h : v.kind ≠ .number) :
    v.unsignZeros = v := by
  cases v with
  | number d => exact absurd rfl h
  | sequence items =>
    obtain rfl := eq_nil_of_isBlock_sequence hv
    rfl
  | mapping es =>
    obtain rfl := eq_nil_of_isBlock_mapping hv
    rfl
  | _ => rfl

/-- A text that is read as a value is read as that value on any line. -/
theorem readScalar_ofList {cs : List Char} {v : Value} (h : readScalar? cs = some v) (line : Nat) :
    readScalar (String.ofList cs) line = .ok v := by
  rw [readScalar, String.toList_ofList]
  exact readScalarLines_singleton h line

/-- A quoted text is read as a string, whatever is in it. -/
theorem readScalar?_quote (cs : List Char) :
    readScalar? (quote cs) = some (.string (String.ofList cs)) := by
  rw [readScalar?, readQuoted_quote]

/-- **Scalars and keys are exact on all text.**  A number is read back from its text with its digits
    and its scale, and with its sign unless it is zero.  Every other value on one line is read back
    as it was.  A string is read back from its text, and also from its quoted text if it needs no
    quotes.  Every key is read back from its text, and every text from between single quotes with
    the single quotes in it doubled. -/
theorem codecs_exact :
    (∀ (d : Decimal) (line : Nat), readScalar (String.ofList (renderScalar (.number d))) line =
      .ok (.number { d with negative := d.negative && !d.isZero })) ∧
    (∀ v : Value, v.isBlock = false → v.kind ≠ .number → ∀ line,
      readScalar (String.ofList (renderScalar v)) line = .ok v) ∧
    (∀ (s : String) (line : Nat),
      readScalar (String.ofList (renderString s.toList)) line = .ok (.string s) ∧
        readScalar (String.ofList (quote s.toList)) line = .ok (.string s)) ∧
    (∀ k, readKey? (renderKey k) = some k) ∧
    ∀ cs, readQuoted ('\'' :: (doubled cs ++ ['\''])) = .closed cs := by
  refine ⟨?_, ?_, ?_, readKey?_renderKey, readSingle_doubled⟩
  · intro d line
    exact readScalar_ofList (readScalar?_renderScalar (v := .number d) rfl) line
  · intro v hv hkind line
    have hread := readScalar?_renderScalar hv
    rw [unsignZeros_of_kind hv hkind] at hread
    exact readScalar_ofList hread line
  · intro s line
    have hstring := readScalar?_renderString s.toList
    have hquoted := readScalar?_quote s.toList
    rw [String.ofList_toList] at hstring hquoted
    exact ⟨readScalar_ofList hstring line, readScalar_ofList hquoted line⟩

/-- A string that starts and ends like a quoted number, and an empty collection. -/
theorem codecs_exact_quotes :
    let text := Value.string "'1\\'"
    (text.isBlock = false ∧ text.kind ≠ .number ∧ renderScalar text = "\"'1\\\\'\"".toList ∧
      ∀ line, readScalar (String.ofList (renderScalar text)) line = .ok text) ∧
    isBlock (.mapping []) = false ∧ kind (.mapping []) ≠ .number ∧
      ∀ line, readScalar (String.ofList (renderScalar (.mapping []))) line = .ok (.mapping []) := by
  intro text
  have htext : text.isBlock = false := rfl
  have hkind : text.kind ≠ .number := by decide
  exact ⟨⟨htext, hkind, by decide, codecs_exact.2.1 text htext hkind⟩, rfl, by decide,
    codecs_exact.2.1 (.mapping []) rfl (by decide)⟩

/-- A negative zero loses its sign and keeps its two decimal places. -/
example :
    let zero : Decimal := ⟨true, 0, 2, by decide, by decide⟩
    renderScalar (.number zero) = "-0.00".toList ∧
      readScalar? "-0.00".toList = some (.number { zero with negative := false }) :=
  ⟨by decide, by cbv⟩

end BlockQuery.Block

/-
  Block text is not taken for JSON.

  The reader of a document looks at one character: JSON opens with a brace or a bracket, behind any
  blanks.  Written block text opens with the text of its first row, which no blank stands in front
  of.  That text starts with a dash, with a key or with a scalar; a string or a key that starts with
  a brace or a bracket is written in quotes, and numbers and words start otherwise.  So only the two
  empty collections are left (`Layout.opensJson`), and these are the same in both formats.

  The format is chosen before anything is read, so the theorem compares two whole readers.  Where
  the text opens as JSON they are two readers of one short text, and it is read alike by both;
  otherwise the choice falls on the block reader, and nothing has to be compared.
-/
import BlockQuery.Command
import BlockQuery.Proofs.Written

namespace BlockQuery

namespace Block

open Text (StartsTight trimStart quote)

variable {cs k tail : List Char}

/-! ## How text opens

  The first character of each kind of text that the writer can put first.  It is a fact about
  layouts, so it holds of every writer that makes one. -/

/-- Whether a text opens as JSON text of a collection does. -/
def OpensJson (cs : List Char) : Prop :=
  cs.head? = some '{' ∨ cs.head? = some '['

/-- What is written bare starts with no bracket, as a bracket would need quotes. -/
theorem Bare.not_opensJson (h : Bare cs) : ¬ OpensJson cs :=
  not_or.2 ⟨h.head_ne (by decide), h.head_ne (by decide)⟩

/-- Quoted text starts with its quote. -/
theorem not_opensJson_quote (cs : List Char) : ¬ OpensJson (quote cs) :=
  not_or.2 ⟨by simp [quote], by simp [quote]⟩

/-- A number starts with a digit or a minus sign. -/
theorem not_opensJson_chars (d : Decimal) : ¬ OpensJson d.chars :=
  not_or.2 ⟨head?_chars_ne (by decide) (by decide), head?_chars_ne (by decide) (by decide)⟩

/-- What stands behind a text does not change how it opens. -/
theorem opensJson_append (h : cs ≠ []) (tail : List Char) :
    OpensJson (cs ++ tail) ↔ OpensJson cs := by
  rw [OpensJson, List.head?_append_of_ne_nil _ h, OpensJson]

/-- Of the scalars only the empty collections open as JSON. -/
theorem isEmptyCollection_of_opensJson {v : Value} (hv : v.isBlock = false)
    (h : OpensJson (renderScalar v)) : v = .sequence [] ∨ v = .mapping [] := by
  cases v with
  | null => exact absurd h (by simp [OpensJson, renderScalar, Text.nullWord])
  | boolean b =>
    cases b with
    | true => exact absurd h (by simp [OpensJson, renderScalar, Text.booleanWord, Text.trueWord])
    | false => exact absurd h (by simp [OpensJson, renderScalar, Text.booleanWord, Text.falseWord])
  | number d => exact absurd h (not_opensJson_chars d)
  | string s =>
    rw [renderScalar] at h
    rcases renderString_cases s.toList with ⟨heq, hbare⟩ | heq
    · rw [heq] at h
      exact absurd h hbare.not_opensJson
    · rw [heq] at h
      exact absurd h (not_opensJson_quote _)
  | sequence items =>
    obtain rfl := Value.eq_nil_of_isBlock_sequence hv
    exact Or.inl rfl
  | mapping es =>
    obtain rfl := Value.eq_nil_of_isBlock_mapping hv
    exact Or.inr rfl

/-- No entry opens as JSON. -/
theorem not_opensJson_renderKey (k tail : List Char) : ¬ OpensJson (renderKey k ++ tail) := by
  rw [opensJson_append (lineText_renderKey k).ne_nil]
  rcases renderKey_cases k with ⟨heq, hbare, -⟩ | heq
  · rw [heq]
    exact hbare.not_opensJson
  · rw [heq]
    exact not_opensJson_quote k

/-- A layout whose first row opens as JSON is one of an empty collection. -/
theorem Layout.opensJson {v : Value} {c : Nat} {rows : List Row} (h : Layout v c rows) :
    ∀ r ∈ rows.head?, OpensJson r.text → v = .sequence [] ∨ v = .mapping [] := by
  cases h with
  | line hv =>
    rintro r ⟨⟩ hopens
    exact isEmptyCollection_of_opensJson hv hopens
  | mapping hne hentries =>
    cases hentries with
    | nil => exact absurd rfl hne
    | behind _ _ =>
      rintro r ⟨⟩ hopens
      exact absurd hopens (not_opensJson_renderKey _ _)
    | under _ _ _ =>
      rintro r ⟨⟩ hopens
      exact absurd hopens (not_opensJson_renderKey _ _)
  | sequence hne hitems =>
    cases hitems with
    | nil => exact absurd rfl hne
    | behind _ _ =>
      rintro r ⟨⟩ hopens
      exact absurd hopens (by simp [OpensJson])
    | under _ _ _ =>
      rintro r ⟨⟩ hopens
      exact absurd hopens (by simp [OpensJson])

/-! ## Written text

  The writer starts in the first column, so there is nothing in front of its first row. -/

/-- Written text starts with the text of its first row. -/
theorem exists_chars_eq (step : Nat) (v : Value) :
    ∃ r ∈ (writtenRows (max step 1) 0 v).head?, ∃ tail, chars step v = r.text ++ tail := by
  have hstep := zero_lt_max_one step
  obtain ⟨text, below, hrows⟩ := (layout_writtenRows hstep v 0).exists_row
  have hfirst : Row.piece ⟨0, text⟩ [] = text := piece_nil ⟨0, text⟩
  refine ⟨⟨0, text⟩, by rw [hrows]; rfl, ?_⟩
  rw [chars, blockLines_eq_pieces hstep, hrows, List.map_cons, hfirst]
  cases below.map fun r => r.piece [] with
  | nil => exact ⟨[], by simp⟩
  | cons line lines =>
    rw [List.intercalate_cons_cons, List.append_assoc]
    exact ⟨_, rfl⟩

/-- No blank stands in front of written text. -/
theorem trimStart_chars (step : Nat) (v : Value) : trimStart (chars step v) = chars step v := by
  obtain ⟨r, hr, tail, hchars⟩ := exists_chars_eq step v
  have hlayout := layout_writtenRows (zero_lt_max_one step) v 0
  have htext := hlayout.lineText r (List.mem_of_mem_head? hr)
  rw [Text.trimStart_eq_self_iff, hchars, StartsTight, List.head?_append_of_ne_nil _ htext.ne_nil]
  exact htext.trimmed.1

/-- Written text opens as JSON when it is that of an empty collection. -/
theorem opensJson_chars_iff (step : Nat) (v : Value) :
    OpensJson (chars step v) ↔ v = .sequence [] ∨ v = .mapping [] := by
  constructor
  · obtain ⟨r, hr, tail, hchars⟩ := exists_chars_eq step v
    have hlayout := layout_writtenRows (zero_lt_max_one step) v 0
    rw [hchars, opensJson_append (hlayout.lineText r (List.mem_of_mem_head? hr)).ne_nil]
    exact hlayout.opensJson r hr
  · rintro (rfl | rfl)
    · exact Or.inr rfl
    · exact Or.inl rfl

/-- An empty collection is read back from its block text. -/
theorem readChars_chars_empty (step : Nat) {v : Value} (h : v = .sequence [] ∨ v = .mapping []) :
    readChars (chars step v) = .ok v := by
  have hrows := map_row_significantLines_chars step v
  rw [readChars_chars]
  rcases h with rfl | rfl
  · exact readBelow_scalar (v := .sequence []) rfl (by simp) hrows
  · exact readBelow_scalar (v := .mapping []) rfl (by simp) hrows

end Block

namespace Command

open Block (OpensJson opensJson_chars_iff trimStart_chars readChars_chars_empty)

/-- What the choice of the format looks at. -/
theorem looksLikeJson_iff {cs : List Char} :
    looksLikeJson cs = true ↔ OpensJson (Text.trimStart cs) := by
  rw [looksLikeJson, OpensJson]
  cases (Text.trimStart cs).head? with
  | none => simp
  | some c => simp

/-- **Block text is never misread as JSON.**  What is read from the block text of a value as a
    document is what is read from it as block text, be it a value or an error; and behind any blanks
    in front the text opens with a brace or a bracket only if the value is an empty collection. -/
theorem readDocument_write (step : Nat) (v : Value) :
    readDocument (Block.write step v) = (Block.read (Block.write step v)).mapError .document ∧
      (OpensJson (Text.trimStart (Block.write step v).toList) ↔
        v = .sequence [] ∨ v = .mapping []) := by
  have hopens : OpensJson (Text.trimStart (Block.write step v).toList) ↔
      v = .sequence [] ∨ v = .mapping [] := by
    rw [Block.write, String.toList_ofList, trimStart_chars]
    exact opensJson_chars_iff step v
  refine ⟨?_, hopens⟩
  rw [readDocument]
  split
  · rename_i hjson
    have hempty := hopens.1 (looksLikeJson_iff.1 hjson)
    rw [Block.read, Block.write, String.toList_ofList, readChars_chars_empty step hempty]
    -- both readers know the empty collections
    rcases hempty with rfl | rfl
    · show readJson ['[', ']'] = .ok (.sequence [])
      cbv
    · show readJson ['{', '}'] = .ok (.mapping [])
      cbv
  · rfl

/-- A key and a string that open as JSON stand in quotes. -/
example :
    Block.chars 2 (.sequence [.mapping [("[a", .string "\x7b")]]) =
      "- \"[a\": \"\x7b\"".toList := by
  decide

end Command

end BlockQuery

/-
  The steps of the block reader on written rows.

  A row with a dash or with a key is read as the writer meant it, if the key is not misread: each
  lemma here takes lines whose first row has one of the written forms, and says which lines the
  element or the entry is read from and which are left.  Line numbers play no part.

  In each lemma the lines are given only by their rows: some rows that belong to the element or
  entry, and some that are left.  A row belongs below another one by its column, so the hypotheses
  are about columns: all rows that belong are deeper, and the first one that is left is not.  That
  is what the writer makes, and all that the reader looks at when it cuts.
-/
import BlockQuery.Proofs.BlockSteps
import BlockQuery.Proofs.Rows

namespace BlockQuery.Block

open Text

variable {c d n : Nat} {text : List Char} {ls : List Line} {belowRows restRows : List Row}

/-! ## Lines and their rows

  A line has a number that its row forgets.  These lemmas take a fact about rows back to the lines
  that are read. -/

/-- Lines whose rows are one row, some rows and some more come apart in the same way. -/
theorem exists_of_map_row {r : Row} (h : ls.map Line.row = r :: (belowRows ++ restRows)) :
    ∃ l below rest, ls = l :: (below ++ rest) ∧ l.row = r ∧ below.map Line.row = belowRows ∧
      rest.map Line.row = restRows := by
  obtain ⟨l, ms, rfl, hl, hms⟩ := List.map_eq_cons_iff.1 h
  obtain ⟨below, rest, rfl, hbelow, hrest⟩ := List.map_eq_append_iff.1 hms
  exact ⟨l, below, rest, rfl, hl, hbelow, hrest⟩

/-- What holds of all rows holds of the rows of all lines. -/
theorem forall_of_map_row {P : Row → Prop} (h : ls.map Line.row = restRows)
    (hrows : ∀ r ∈ restRows, P r) : ∀ l ∈ ls, P l.row := by
  intro l hl
  exact hrows _ (h ▸ List.mem_map_of_mem hl)

/-- What holds of the first row holds of the row of the first line. -/
theorem forall_head?_of_map_row {P : Row → Prop} (h : ls.map Line.row = restRows)
    (hrows : ∀ r ∈ restRows.head?, P r) : ∀ l ∈ ls.head?, P l.row := by
  intro l hl
  refine hrows _ ?_
  rw [← h, List.head?_map]
  exact Option.mem_map_of_mem Line.row hl

/-! ## Elements

  A writer puts a scalar behind the dash, and a collection too, except when it is a sequence in a
  sequence, which goes below a bare dash.  So there are two forms of an element. -/

/-- Spaces are one byte each, so the column of what is behind them can be told. -/
theorem byteLength_spaces (n : Nat) : byteLength (List.replicate n ' ') = n := by
  induction n with
  | zero => rfl
  | succ n ih =>
    have hspace : ' '.utf8Size = 1 := by decide
    rw [List.replicate_succ, byteLength, ih, hspace]
    omega

/-- The text behind a dash and spaces starts behind them. -/
theorem row_afterDash {l : Line} (htext : StartsTight text)
    (hl : l.row = ⟨c, '-' :: (List.replicate n ' ' ++ text)⟩) :
    (afterDash l).row = ⟨c + 1 + n, text⟩ := by
  obtain ⟨rfl, hdash⟩ : l.indent = c ∧ l.text = '-' :: (List.replicate n ' ' ++ text) :=
    Row.mk.inj hl
  have hblanks : ∀ e ∈ List.replicate n ' ', isBlank e = true := fun e => isBlank_of_mem_spaces
  simp only [afterDash, Line.row, hdash, List.tail_cons]
  rw [takeWhile_run_append hblanks htext, byteLength_spaces, trimStart_blanks_append htext hblanks]

/-- An element behind its dash is read from the rest of the dash line and the deeper lines. -/
theorem readItems_behind (htext : LineText text) (hbelow : ∀ r ∈ belowRows, c < r.column)
    (hrest : ∀ r ∈ restRows.head?, r.column ≤ c)
    (hls : ls.map Line.row =
      ⟨c, '-' :: (List.replicate (n + 1) ' ' ++ text)⟩ :: (belowRows ++ restRows)) :
    ∃ item rest, item.map Line.row = ⟨c + 1 + (n + 1), text⟩ :: belowRows ∧
      rest.map Line.row = restRows ∧
      readItems c ls = do
        let v ← readBelow item
        let vs ← readItems c rest
        return v :: vs := by
  obtain ⟨l, below, rest, rfl, hl, hb, hr⟩ := exists_of_map_row hls
  have hcolumn : l.indent = c := congrArg Row.column hl
  have hitem : isItem l.text = true := by
    rw [show l.text = _ from congrArg Row.text hl]
    exact isItem_dash n text
  have hafter := row_afterDash htext.trimmed.1 hl
  have hdash : dashBlock l below = afterDash l :: below := by
    have hne : (afterDash l).text ≠ [] := by
      rw [show (afterDash l).text = text from congrArg Row.text hafter]
      exact htext.ne_nil
    rw [dashBlock, if_neg (by simpa using hne)]
  refine ⟨afterDash l :: below, rest, ?_, hr, ?_⟩
  · rw [List.map_cons, hafter, hb]
  · rw [readItems_append hcolumn hitem (forall_of_map_row hb hbelow)
      (forall_head?_of_map_row hr hrest), hdash]

/-- An element below its dash is read from the deeper lines. -/
theorem readItems_under (hbelow : ∀ r ∈ belowRows, c < r.column)
    (hrest : ∀ r ∈ restRows.head?, r.column ≤ c)
    (hls : ls.map Line.row = ⟨c, ['-']⟩ :: (belowRows ++ restRows)) :
    ∃ item rest, item.map Line.row = belowRows ∧ rest.map Line.row = restRows ∧
      readItems c ls = do
        let v ← readBelow item
        let vs ← readItems c rest
        return v :: vs := by
  obtain ⟨l, below, rest, rfl, hl, hb, hr⟩ := exists_of_map_row hls
  have hcolumn : l.indent = c := congrArg Row.column hl
  have htext : l.text = ['-'] := congrArg Row.text hl
  have hitem : isItem l.text = true := by
    rw [htext]
    rfl
  have hdash : dashBlock l below = below := by
    rw [dashBlock, afterDash, htext]
    rfl
  refine ⟨below, rest, hb, hr, ?_⟩
  rw [readItems_append hcolumn hitem (forall_of_map_row hb hbelow)
    (forall_head?_of_map_row hr hrest), hdash]

/-! ## Entries

  A scalar stands behind the key and nothing belongs below; a collection stands below.  What is
  below is deeper, or it is a sequence in the column of the key, and then it ends where the dashes
  do. -/

/-- The text behind a colon and spaces is what is written there. -/
theorem inlineText?_spaces (htext : LineText text) :
    inlineText? (List.replicate (n + 1) ' ' ++ text) = some (some text) := by
  have hblanks : ∀ e ∈ List.replicate n ' ', isBlank e = true := fun e => isBlank_of_mem_spaces
  have htrim : trim (List.replicate n ' ' ++ text) = text := by
    rw [trim, trimStart_blanks_append htext.trimmed.1 hblanks,
      trimEnd_eq_self_iff.2 htext.trimmed.2]
  have hne : text.isEmpty = false := List.isEmpty_eq_false_iff.2 htext.ne_nil
  rw [List.replicate_succ, List.cons_append, inlineText?, if_pos isBlank_space]
  simp only [htrim, hne]
  rfl

/-- An entry with a scalar behind its key is read from its line. -/
theorem readEntries_behind {k : List Char} {v : Value} (hkey : ¬ MisreadKey k)
    (hv : v.isBlock = false) (hrest : ∀ r ∈ restRows.head?, r.column ≤ c)
    (hls : ls.map Line.row =
      ⟨c, renderKey k ++ ':' :: (List.replicate (n + 1) ' ' ++ renderScalar v)⟩ :: restRows) :
    ∃ rest, rest.map Line.row = restRows ∧
      readEntries c ls = do
        let es ← readEntries c rest
        return (String.ofList k, v.unsignZeros) :: es := by
  have hnone : ls.map Line.row = _ :: ([] ++ restRows) := hls
  obtain ⟨l, below, rest, rfl, hl, hb, hr⟩ := exists_of_map_row hnone
  obtain rfl := List.map_eq_nil_iff.1 hb
  have hcolumn : l.indent = c := congrArg Row.column hl
  have htext : l.text = _ := congrArg Row.text hl
  have hitem : isItem l.text = false := by
    rw [htext]
    exact isItem_renderKey k _
  have hentry : keyLine? l.text = some ⟨renderKey k, some (renderScalar v)⟩ := by
    rw [htext, keyLine?_renderKey hkey, inlineText?_spaces (lineText_renderScalar hv)]
    rfl
  refine ⟨rest, hr, ?_⟩
  rw [readEntries_inline hcolumn hitem hentry (readKey?_renderKey k) rfl (by simp)
    (forall_head?_of_map_row hr hrest), List.map_nil,
    readScalarLines_singleton (readScalar?_renderScalar hv)]
  rfl

/-- An entry with its value below its key is read from the lines that belong there. -/
theorem readEntries_under {k : List Char} (hkey : ¬ MisreadKey k)
    (hbelongs : ∀ r ∈ belowRows, c < r.column ∨ (r.column = c ∧ isItem r.text = true))
    (hdeep : (∀ r ∈ belowRows, c < r.column) ∨ ∀ r ∈ belowRows.head?, r.column ≤ c)
    (hrest : ∀ r ∈ restRows.head?, r.column ≤ c ∧ (r.column = c → isItem r.text = false))
    (hls : ls.map Line.row = ⟨c, renderKey k ++ [':']⟩ :: (belowRows ++ restRows)) :
    ∃ value rest, value.map Line.row = belowRows ∧ rest.map Line.row = restRows ∧
      readEntries c ls = do
        let v ← readBelow value
        let es ← readEntries c rest
        return (String.ofList k, v) :: es := by
  obtain ⟨l, below, rest, rfl, hl, hb, hr⟩ := exists_of_map_row hls
  have hcolumn : l.indent = c := congrArg Row.column hl
  have htext : l.text = _ := congrArg Row.text hl
  have hitem : isItem l.text = false := by
    rw [htext]
    exact isItem_renderKey k _
  have hentry : keyLine? l.text = some ⟨renderKey k, none⟩ := by
    rw [htext, keyLine?_renderKey hkey]
    rfl
  have howned : OwnedBelow c below rest := by
    refine ⟨forall_of_map_row hb hbelongs, ?_, forall_head?_of_map_row hr hrest⟩
    rcases hdeep with hdeep | hdeep
    · exact Or.inl (forall_of_map_row hb hdeep)
    · exact Or.inr (forall_head?_of_map_row hb hdeep)
  refine ⟨below, rest, hb, hr, ?_⟩
  exact readEntries_below hcolumn hitem hentry (readKey?_renderKey k) rfl howned

end BlockQuery.Block

/-
  The layout that the writer chooses.

  Written at a column, a value takes the rows `writtenRows`; moving the lines of the writer to that
  column gives exactly these rows, with no blanks behind them (`map_moved_blockLines`).  The rows
  are a layout, so all that is known of layouts holds of written text.

  The writer makes lines, and the lines of a part are moved to the right when they are put into the
  lines of the whole: behind a key by the step, behind a dash by two.  So the column of a row is a
  sum of such moves, which the rows carry from the start, and the comparison is an induction on the
  value for all columns at once.
-/
import BlockQuery.Block.Writer
import BlockQuery.Proofs.Layout

namespace BlockQuery.Block

open Value

/-! ## Written rows

  These functions follow the writer, with a column where it has lines.  A step of no columns would
  put a mapping below its key at the column of the key, so the laws have a positive step, and the
  writer sees to it. -/

/-- The rows of an element, the first behind its dash. -/
def hungRows (c : Nat) : List Row → List Row
  | [] => []
  | first :: rest => ⟨c, '-' :: ' ' :: first.text⟩ :: rest

mutual
/-- The rows of a value that is written at a column. -/
def writtenRows (step c : Nat) : Value → List Row
  | .sequence items =>
      if items.isEmpty then [⟨c, renderScalar (.sequence items)⟩] else writtenItems step c items
  | .mapping es =>
      if es.isEmpty then [⟨c, renderScalar (.mapping es)⟩] else writtenEntries step c es
  | .null => [⟨c, renderScalar .null⟩]
  | .boolean b => [⟨c, renderScalar (.boolean b)⟩]
  | .number n => [⟨c, renderScalar (.number n)⟩]
  | .string s => [⟨c, renderScalar (.string s)⟩]
termination_by structural v => v

/-- The rows of elements. -/
def writtenItems (step c : Nat) : List Value → List Row
  | [] => []
  | v :: vs => hungRows c (writtenRows step (c + 2) v) ++ writtenItems step c vs
termination_by structural items => items

/-- The rows of entries. -/
def writtenEntries (step c : Nat) : Entries → List Row
  | [] => []
  | (k, v) :: es =>
      (if v.isBlock then
        ⟨c, renderKey k.toList ++ [':']⟩ :: writtenRows step (c + step) v
      else [⟨c, renderKey k.toList ++ ':' :: ' ' :: renderScalar v⟩]) ++ writtenEntries step c es
termination_by structural es => es
end

/-- A value on one line has one row. -/
theorem writtenRows_scalar {v : Value} (h : v.isBlock = false) (step c : Nat) :
    writtenRows step c v = [⟨c, renderScalar v⟩] := by
  cases v with
  | sequence items =>
    obtain rfl := eq_nil_of_isBlock_sequence h
    rfl
  | mapping es =>
    obtain rfl := eq_nil_of_isBlock_mapping h
    rfl
  | _ => rfl

/-- A sequence that is not empty has the rows of its elements. -/
theorem writtenRows_sequence {items : List Value} (h : items ≠ []) (step c : Nat) :
    writtenRows step c (.sequence items) = writtenItems step c items := by
  rw [writtenRows, if_neg (by simpa using h)]

/-- A mapping that is not empty has the rows of its entries. -/
theorem writtenRows_mapping {es : Entries} (h : es ≠ []) (step c : Nat) :
    writtenRows step c (.mapping es) = writtenEntries step c es := by
  rw [writtenRows, if_neg (by simpa using h)]

/-! ## Written rows are a layout

  The choices of the writer are among those of a layout: an element always hangs behind its dash,
  and a collection always stands below its key. -/

/-- Elements that are written as layouts are written as a layout of elements. -/
theorem itemsLayout_writtenItems {step c : Nat} {items : List Value}
    (h : ∀ v ∈ items, ∀ c, Layout v c (writtenRows step c v)) :
    ItemsLayout items c (writtenItems step c items) := by
  induction items with
  | nil => exact .nil
  | cons v items ih =>
    rw [List.forall_mem_cons] at h
    have hv := h.1 (c + 2)
    obtain ⟨text, below, hrows⟩ := hv.exists_row
    rw [hrows] at hv
    rw [writtenItems, hrows]
    exact .behind (n := 0) hv (ih h.2)

/-- Entries whose values are written as layouts are written as a layout of entries. -/
theorem entriesLayout_writtenEntries {step c : Nat} {es : Entries} (hstep : 0 < step)
    (h : ∀ e ∈ es, ∀ c, Layout e.2 c (writtenRows step c e.2)) :
    EntriesLayout es c (writtenEntries step c es) := by
  induction es with
  | nil => exact .nil
  | cons e es ih =>
    rw [List.forall_mem_cons] at h
    obtain ⟨k, v⟩ := e
    rw [writtenEntries]
    split
    · exact .under (Or.inl (by omega)) (h.1 (c + step)) (ih h.2)
    · rename_i hv
      exact .behind (n := 0) (by simpa using hv) (ih h.2)

/-- A value is written as a layout of it. -/
theorem layout_writtenRows {step : Nat} (hstep : 0 < step) (v : Value) (c : Nat) :
    Layout v c (writtenRows step c v) := by
  induction v using Value.induct generalizing c with
  | null => exact .line rfl
  | boolean b => exact .line rfl
  | number n => exact .line rfl
  | string s => exact .line rfl
  | sequence items ih =>
    by_cases hne : items = []
    · subst hne
      exact .line rfl
    · rw [writtenRows_sequence hne]
      exact .sequence hne (itemsLayout_writtenItems ih)
  | mapping es ih =>
    by_cases hne : es = []
    · subst hne
      exact .line rfl
    · rw [writtenRows_mapping hne]
      exact .mapping hne (entriesLayout_writtenEntries hstep ih)

/-- Elements are written as a layout of them. -/
theorem layout_writtenItems {step : Nat} (hstep : 0 < step) (items : List Value) (c : Nat) :
    ItemsLayout items c (writtenItems step c items) :=
  itemsLayout_writtenItems fun v _ c => layout_writtenRows hstep v c

/-- Entries are written as a layout of them. -/
theorem layout_writtenEntries {step : Nat} (hstep : 0 < step) (es : Entries) (c : Nat) :
    EntriesLayout es c (writtenEntries step c es) :=
  entriesLayout_writtenEntries hstep fun e _ c => layout_writtenRows hstep e.2 c

/-! ## Written rows are the lines of the writer

  The text of a row that hangs behind a dash is the first line of the element, and the other lines
  are moved by two.  That is where the column of the first row is needed. -/

/-- A step of no columns is written as one of one column. -/
theorem zero_lt_max_one (step : Nat) : 0 < max step 1 :=
  Nat.lt_of_lt_of_le Nat.zero_lt_one (Nat.le_max_right step 1)

/-- Two moves are one. -/
theorem moved_moved (m n : Nat) (line : List Char) :
    moved m (moved n line) = moved (m + n) line := by
  rw [moved, moved, moved, ← List.append_assoc, List.replicate_append_replicate]

/-- A row with no blanks behind it is its text, moved to its column. -/
theorem piece_nil (r : Row) : r.piece [] = moved r.column r.text := by
  rw [Row.piece, List.append_nil, moved]

/-- Hanging lines behind a dash hangs their rows behind it. -/
theorem map_moved_dashed {c : Nat} {lines : List (List Char)} {rows : List Row}
    (hhead : ∀ r ∈ rows.head?, r.column = c + 2)
    (h : lines.map (moved (c + 2)) = rows.map fun r => r.piece []) :
    (dashed lines).map (moved c) = (hungRows c rows).map fun r => r.piece [] := by
  cases rows with
  | nil =>
    obtain rfl := List.map_eq_nil_iff.1 h
    rfl
  | cons r rows =>
    obtain ⟨first, rest, rfl, hfirst, hrest⟩ := List.map_eq_cons_iff.1 h
    -- the first line is the text of the first row, since both stand at one column
    have hcolumn : r.column = c + 2 := hhead r rfl
    have htext : moved (c + 2) first = moved (c + 2) r.text := by
      rw [hfirst, ← hcolumn]
      exact piece_nil r
    obtain rfl := List.append_cancel_left htext
    rw [dashed, hungRows, List.map_cons, List.map_cons, piece_nil, ← hrest, List.map_map]
    congr 1
    exact List.map_congr_left fun line _ => moved_moved c 2 line

/-- The lines of elements are their rows, if that holds of each of them. -/
theorem map_moved_itemLines {step c : Nat} (hstep : 0 < step) {items : List Value}
    (h : ∀ v ∈ items, ∀ c, (blockLines step v).map (moved c) =
      (writtenRows step c v).map fun r => r.piece []) :
    (itemLines step items).map (moved c) = (writtenItems step c items).map fun r => r.piece [] := by
  induction items with
  | nil => rfl
  | cons v items ih =>
    rw [List.forall_mem_cons] at h
    have hhead := (layout_writtenRows hstep v (c + 2)).head
    rw [itemLines, writtenItems, List.map_append, List.map_append,
      map_moved_dashed hhead (h.1 (c + 2)), ih h.2]

/-- The lines of entries are their rows, if that holds of each of their values. -/
theorem map_moved_entryLines {step c : Nat} {es : Entries}
    (h : ∀ e ∈ es, ∀ c, (blockLines step e.2).map (moved c) =
      (writtenRows step c e.2).map fun r => r.piece []) :
    (entryLines step es).map (moved c) =
      (writtenEntries step c es).map fun r => r.piece [] := by
  induction es with
  | nil => rfl
  | cons e es ih =>
    rw [List.forall_mem_cons] at h
    obtain ⟨k, v⟩ := e
    rw [entryLines, writtenEntries, List.map_append, List.map_append, ih h.2]
    congr 1
    -- the value stands below its key, one step deeper, or on the line of its key
    split
    · rw [List.map_cons, List.map_cons, piece_nil, ← h.1 (c + step), List.map_map]
      congr 1
      exact List.map_congr_left fun line _ => moved_moved c step line
    · rw [List.map_singleton, List.map_singleton, piece_nil]

/-- Moved to a column, the lines of the writer are the written rows. -/
theorem map_moved_blockLines {step : Nat} (hstep : 0 < step) (v : Value) (c : Nat) :
    (blockLines step v).map (moved c) = (writtenRows step c v).map fun r => r.piece [] := by
  induction v using Value.induct generalizing c with
  | sequence items ih =>
    rw [blockLines, writtenRows]
    split
    · rw [List.map_singleton, List.map_singleton, piece_nil]
    · exact map_moved_itemLines hstep ih
  | mapping es ih =>
    rw [blockLines, writtenRows]
    split
    · rw [List.map_singleton, List.map_singleton, piece_nil]
    · exact map_moved_entryLines ih
  | _ => rw [blockLines, writtenRows, List.map_singleton, List.map_singleton, piece_nil]

/-- The lines of the writer are the written rows at the first column. -/
theorem blockLines_eq_pieces {step : Nat} (hstep : 0 < step) (v : Value) :
    blockLines step v = (writtenRows step 0 v).map fun r => r.piece [] := by
  rw [← map_moved_blockLines hstep v 0]
  exact (List.map_id' _).symm

/-- The lines of the writer show the written rows. -/
theorem opened_blockLines {step : Nat} (hstep : 0 < step) (v : Value) :
    Opened (writtenRows step 0 v) (blockLines step v) := by
  rw [blockLines_eq_pieces hstep]
  refine .shown ?_
  -- no row has anything behind it or in front of it but its indentation
  induction writtenRows step 0 v with
  | nil => exact .nil
  | cons r rows ih => exact ih.plain

/-- The significant lines of written text are the written rows. -/
theorem map_row_significantLines_chars (step : Nat) (v : Value) :
    (significantLines (chars step v)).map Line.row = writtenRows (max step 1) 0 v := by
  have hstep := zero_lt_max_one step
  have hlayout := layout_writtenRows hstep v 0
  have hopened := opened_blockLines hstep v
  exact map_row_significantLines hopened (hopened.ne_nil hlayout.ne_nil) hlayout.lineText

/-- Written text is read as the block of its significant lines. -/
theorem readChars_chars (step : Nat) (v : Value) :
    readChars (chars step v) = readBelow (significantLines (chars step v)) := by
  have hstep := zero_lt_max_one step
  have hrows := map_row_significantLines_chars step v
  have hlayout := layout_writtenRows hstep v 0
  exact readLines_eq_readBelow (forall_head?_of_map_row hrows hlayout.head)
    (forall_of_map_row hrows hlayout.columns)

end BlockQuery.Block

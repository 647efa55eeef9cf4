/-
  Layouts: the ways to write a value as rows.

  A layout fixes what the writer of a block leaves open: how far a collection stands below its key,
  whether an element hangs behind its dash or stands below it, how many spaces are in between.  The
  reader recovers the value from every layout.  The induction is on the layout; what carries it is
  where the rows are (`Layout.columns`) and how the rows of entries and of elements start, for that
  is what the reader cuts by.

  The three relations say what a writer may do, and the three readers are matched with them: a block
  with `Layout`, elements with `ItemsLayout`, entries with `EntriesLayout`.  A rule of a relation
  puts the rows of a part between its first row and the rows behind it, and the reader must cut at
  the same two places.  It does, since the rows of a part are deeper than the row in front of it,
  and the next row is not; only a sequence below a key in its own column needs the second half of
  the argument, that its rows are elements and the next row is none.
-/
import BlockQuery.Proofs.RowSteps

namespace BlockQuery.Block

open Text Value

/-! ## Layouts

  A layout says nothing about the text between rows, which is for `Shown` to say.  The number of
  spaces and the depth of each part are parameters of its rule, chosen anew for every part. -/

mutual
/-- Whether rows lay a value out at a column.  A value on one line is laid out as the writer writes
    it, and a collection with parts by the two relations below. -/
inductive Layout : Value → Nat → List Row → Prop
  | line {v c} : v.isBlock = false → Layout v c [⟨c, renderScalar v⟩]
  | mapping {es c rows} : es ≠ [] → EntriesLayout es c rows → Layout (.mapping es) c rows
  | sequence {items c rows} : items ≠ [] → ItemsLayout items c rows →
      Layout (.sequence items) c rows

/-- Whether rows lay entries out at a column: a value behind its key, or deeper below it, or, when
    it is a sequence, below it at the same column. -/
inductive EntriesLayout : Entries → Nat → List Row → Prop
  | nil {c} : EntriesLayout [] c []
  | behind {k v es c n rows} : v.isBlock = false → EntriesLayout es c rows →
      EntriesLayout ((k, v) :: es) c
        (⟨c, renderKey k.toList ++ ':' :: (List.replicate (n + 1) ' ' ++ renderScalar v)⟩ :: rows)
  | under {k v es c d valueRows rows} :
      (c < d ∨ d = c ∧ ∃ items, items ≠ [] ∧ v = .sequence items) → Layout v d valueRows →
      EntriesLayout es c rows →
      EntriesLayout ((k, v) :: es) c (⟨c, renderKey k.toList ++ [':']⟩ :: (valueRows ++ rows))

/-- Whether rows lay elements out at a column: each behind its dash, where its first row is the rest
    of the dash line, or deeper below it. -/
inductive ItemsLayout : List Value → Nat → List Row → Prop
  | nil {c} : ItemsLayout [] c []
  | behind {v vs c n text below rows} :
      Layout v (c + 1 + (n + 1)) (⟨c + 1 + (n + 1), text⟩ :: below) → ItemsLayout vs c rows →
      ItemsLayout (v :: vs) c
        (⟨c, '-' :: (List.replicate (n + 1) ' ' ++ text)⟩ :: (below ++ rows))
  | under {v vs c d valueRows rows} : c < d → Layout v d valueRows → ItemsLayout vs c rows →
      ItemsLayout (v :: vs) c (⟨c, ['-']⟩ :: (valueRows ++ rows))
end

/-! ## Where the rows are

  These are the facts that the reader cuts by.  They are stated for each relation, by recursion on
  the layout, and none of them depends on what the texts of the rows are. -/

mutual
/-- No row of a layout stands left of its column. -/
theorem Layout.columns {v : Value} {c : Nat} {rows : List Row} :
    Layout v c rows → ∀ r ∈ rows, c ≤ r.column
  | .line _ => by simp
  | .mapping _ h => h.columns
  | .sequence _ h => h.columns

/-- The rows of entries are at their column or right of it. -/
theorem EntriesLayout.columns {es : Entries} {c : Nat} {rows : List Row} :
    EntriesLayout es c rows → ∀ r ∈ rows, c ≤ r.column
  | .nil => by simp
  | .behind _ h => List.forall_mem_cons.2 ⟨Nat.le_refl c, h.columns⟩
  | .under hd hv h => by
    refine List.forall_mem_cons.2 ⟨Nat.le_refl c, List.forall_mem_append.2 ⟨?_, h.columns⟩⟩
    intro r hr
    have hcolumn := hv.columns r hr
    rcases hd with hd | ⟨hd, -⟩
    · omega
    · omega

/-- So are the rows of elements. -/
theorem ItemsLayout.columns {items : List Value} {c : Nat} {rows : List Row} :
    ItemsLayout items c rows → ∀ r ∈ rows, c ≤ r.column
  | .nil => by simp
  | .behind hv h => by
    refine List.forall_mem_cons.2 ⟨Nat.le_refl c, List.forall_mem_append.2 ⟨?_, h.columns⟩⟩
    intro r hr
    have hcolumn := hv.columns r (List.mem_cons_of_mem _ hr)
    omega
  | .under hd hv h => by
    refine List.forall_mem_cons.2 ⟨Nat.le_refl c, List.forall_mem_append.2 ⟨?_, h.columns⟩⟩
    intro r hr
    have hcolumn := hv.columns r hr
    omega
end

/-- The rows of entries start with an entry at their column. -/
theorem EntriesLayout.head {es : Entries} {c : Nat} {rows : List Row} :
    EntriesLayout es c rows → ∀ r ∈ rows.head?, r.column = c ∧ isItem r.text = false
  | .nil => by simp
  | .behind _ _ => by
    rintro r ⟨⟩
    exact ⟨rfl, isItem_renderKey _ _⟩
  | .under _ _ _ => by
    rintro r ⟨⟩
    exact ⟨rfl, isItem_renderKey _ _⟩

/-- A value in front of entries stops where they start: their first row is at their column and no
    element, so it belongs to no value above it. -/
theorem EntriesLayout.stops {es : Entries} {c : Nat} {rows : List Row}
    (h : EntriesLayout es c rows) :
    ∀ r ∈ rows.head?, r.column ≤ c ∧ (r.column = c → isItem r.text = false) := by
  intro r hr
  obtain ⟨hcolumn, hitem⟩ := h.head r hr
  exact ⟨Nat.le_of_eq hcolumn, fun _ => hitem⟩

/-- The rows of elements start with an element at their column. -/
theorem ItemsLayout.head {items : List Value} {c : Nat} {rows : List Row} :
    ItemsLayout items c rows → ∀ r ∈ rows.head?, r.column = c ∧ isItem r.text = true
  | .nil => by simp
  | .behind _ _ => by
    rintro r ⟨⟩
    exact ⟨rfl, isItem_dash _ _⟩
  | .under _ _ _ => by
    rintro r ⟨⟩
    exact ⟨rfl, rfl⟩

/-- Every row of elements is an element or stands deeper.  This is what belongs below a key in the
    same column. -/
theorem ItemsLayout.deeper_or_item {items : List Value} {c : Nat} {rows : List Row} :
    ItemsLayout items c rows →
      ∀ r ∈ rows, c < r.column ∨ (r.column = c ∧ isItem r.text = true)
  | .nil => by simp
  | .behind hv h => by
    refine List.forall_mem_cons.2 ⟨Or.inr ⟨rfl, isItem_dash _ _⟩,
      List.forall_mem_append.2 ⟨?_, h.deeper_or_item⟩⟩
    intro r hr
    have hcolumn := hv.columns r (List.mem_cons_of_mem _ hr)
    exact Or.inl (by omega)
  | .under hd hv h => by
    refine List.forall_mem_cons.2 ⟨Or.inr ⟨rfl, rfl⟩,
      List.forall_mem_append.2 ⟨?_, h.deeper_or_item⟩⟩
    intro r hr
    have hcolumn := hv.columns r hr
    exact Or.inl (by omega)

/-- The rows of a value below its key belong to the entry, and they are either deeper or start in
    the column of the key.  The reader decides by the first row which of the two it is. -/
theorem Layout.belongs {v : Value} {c d : Nat} {rows : List Row} (h : Layout v d rows)
    (hd : c < d ∨ d = c ∧ ∃ items, items ≠ [] ∧ v = .sequence items) :
    (∀ r ∈ rows, c < r.column ∨ (r.column = c ∧ isItem r.text = true)) ∧
      ((∀ r ∈ rows, c < r.column) ∨ ∀ r ∈ rows.head?, r.column ≤ c) := by
  rcases hd with hd | ⟨rfl, items, hne, rfl⟩
  · have hdeep : ∀ r ∈ rows, c < r.column := fun r hr => Nat.lt_of_lt_of_le hd (h.columns r hr)
    exact ⟨fun r hr => Or.inl (hdeep r hr), Or.inl hdeep⟩
  · cases h with
    | line hv => exact absurd hv (by simpa [Value.isBlock] using hne)
    | sequence _ h => exact ⟨h.deeper_or_item, Or.inr fun r hr => Nat.le_of_eq (h.head r hr).1⟩

/-- A layout has rows. -/
theorem Layout.ne_nil {v : Value} {c : Nat} {rows : List Row} (h : Layout v c rows) :
    rows ≠ [] := by
  cases h with
  | line _ => simp
  | mapping hne h =>
    cases h with
    | nil => exact absurd rfl hne
    | behind _ _ => simp
    | under _ _ _ => simp
  | sequence hne h =>
    cases h with
    | nil => exact absurd rfl hne
    | behind _ _ => simp
    | under _ _ _ => simp

/-- The first row of a layout is at its column. -/
theorem Layout.head {v : Value} {c : Nat} {rows : List Row} (h : Layout v c rows) :
    ∀ r ∈ rows.head?, r.column = c := by
  cases h with
  | line _ =>
    rintro r ⟨⟩
    rfl
  | mapping _ h => exact fun r hr => (h.head r hr).1
  | sequence _ h => exact fun r hr => (h.head r hr).1

/-- A layout is its first row and the rows below.  The first row is what may stand behind a dash. -/
theorem Layout.exists_row {v : Value} {c : Nat} {rows : List Row} (h : Layout v c rows) :
    ∃ text below, rows = ⟨c, text⟩ :: below := by
  obtain ⟨r, below, rfl⟩ := List.exists_cons_of_ne_nil h.ne_nil
  obtain rfl : r.column = c := h.head r rfl
  exact ⟨r.text, below, rfl⟩

/-- Lines that show a layout have a first line. -/
theorem Layout.exists_cons {v : Value} {c : Nat} {rows : List Row} (h : Layout v c rows)
    {ls : List Line} (hls : ls.map Line.row = rows) : ∃ l rest, ls = l :: rest := by
  apply List.exists_cons_of_ne_nil
  rintro rfl
  exact h.ne_nil hls.symm

mutual
/-- The rows of a layout may stand as lines. -/
theorem Layout.lineText {v : Value} {c : Nat} {rows : List Row} :
    Layout v c rows → ∀ r ∈ rows, LineText r.text
  | .line hv => by
    rintro r hr
    rw [List.mem_singleton.1 hr]
    exact lineText_renderScalar hv
  | .mapping _ h => h.lineText
  | .sequence _ h => h.lineText

/-- The rows of entries may, since a key, a colon and a scalar do. -/
theorem EntriesLayout.lineText {es : Entries} {c : Nat} {rows : List Row} :
    EntriesLayout es c rows → ∀ r ∈ rows, LineText r.text
  | .nil => by simp
  | .behind hv h =>
    List.forall_mem_cons.2
      ⟨(lineText_renderKey _).entry _ (lineText_renderScalar hv), h.lineText⟩
  | .under _ hv h =>
    List.forall_mem_cons.2
      ⟨(lineText_renderKey _).key, List.forall_mem_append.2 ⟨hv.lineText, h.lineText⟩⟩

/-- The rows of elements may, since a dash and a first row do. -/
theorem ItemsLayout.lineText {items : List Value} {c : Nat} {rows : List Row} :
    ItemsLayout items c rows → ∀ r ∈ rows, LineText r.text
  | .nil => by simp
  | .behind hv h => by
    have hrows := List.forall_mem_cons.1 hv.lineText
    exact List.forall_mem_cons.2
      ⟨hrows.1.beside _, List.forall_mem_append.2 ⟨hrows.2, h.lineText⟩⟩
  | .under _ hv h =>
    List.forall_mem_cons.2
      ⟨lineText_dash, List.forall_mem_append.2 ⟨hv.lineText, h.lineText⟩⟩
end

/-! ## Reading a layout

  `Legible` asks of all texts in a value that none is misread, which is more than is needed where
  the layout is known: here any element may stand on a line of its own. -/

/-- Whether every layout of a value is read as the value: its keys are distinct, and none of its
    keys and strings is misread.  A string behind a key could be let off, but not every layout puts
    it there. -/
structure Legible (v : Value) : Prop where
  distinct : v.DistinctKeys
  keys : v.EveryKey fun k => ¬ MisreadKey k.toList
  strings : v.EveryString fun s => ¬ MisreadString s.toList

/-- The elements of a legible sequence are legible. -/
theorem legible_sequence {items : List Value} (h : Legible (.sequence items)) :
    ∀ v ∈ items, Legible v := by
  intro v hv
  exact ⟨distinctKeys_sequence.1 h.distinct v hv, everyKey_sequence.1 h.keys v hv,
    everyString_sequence.1 h.strings v hv⟩

/-- So are the values of a legible mapping, and its keys are distinct and none is misread. -/
theorem legible_mapping {es : Entries} (h : Legible (.mapping es)) :
    (Entries.keys es).Nodup ∧ ∀ e ∈ es, ¬ MisreadKey e.1.toList ∧ Legible e.2 := by
  obtain ⟨hnodup, hdistinct⟩ := distinctKeys_mapping.1 h.distinct
  refine ⟨hnodup, fun e he => ?_⟩
  obtain ⟨hkey, hkeys⟩ := everyKey_mapping.1 h.keys e he
  exact ⟨hkey, hdistinct e he, hkeys, everyString_mapping.1 h.strings e he⟩

/-- A line with a scalar that is not misread is read as the scalar.  It is no element and no entry,
    so the line is read as it is. -/
theorem readBelow_scalar {v : Value} {c : Nat} {ls : List Line} (hv : v.isBlock = false)
    (hstring : ∀ s, v = .string s → ¬ MisreadString s.toList)
    (hls : ls.map Line.row = [⟨c, renderScalar v⟩]) : readBelow ls = .ok v.unsignZeros := by
  obtain ⟨l, rest, rfl, hl, hrest⟩ := List.map_eq_cons_iff.1 hls
  obtain rfl := List.map_eq_nil_iff.1 hrest
  have htext : l.text = renderScalar v := congrArg Row.text hl
  have hitem : isItem l.text = false := by
    rw [htext]
    exact isItem_renderScalar hv
  have hentry : keyLine? l.text = none := by
    rw [htext, ← Option.not_isSome_iff_eq_none, isSome_keyLine?_renderScalar hv]
    rintro ⟨s, hs, hmisread⟩
    exact hstring s hs hmisread
  rw [readBelow_cons, readBlock_of_scalar hitem hentry, htext]
  exact readScalarLines_singleton (readScalar?_renderScalar hv) _

/-- The first row of entries is an entry, which makes the block a mapping. -/
theorem EntriesLayout.head_entry {es : Entries} {c : Nat} {rows : List Row}
    (h : EntriesLayout es c rows) (hkeys : ∀ e ∈ es, ¬ MisreadKey e.1.toList) :
    ∀ r ∈ rows.head?, (keyLine? r.text).isSome = true := by
  cases h with
  | nil => simp
  | behind hv _ =>
    rintro r ⟨⟩
    rw [keyLine?_renderKey (hkeys _ List.mem_cons_self),
      inlineText?_spaces (lineText_renderScalar hv)]
    rfl
  | under _ _ _ =>
    rintro r ⟨⟩
    rw [keyLine?_renderKey (hkeys _ List.mem_cons_self)]
    rfl

mutual
/-- **Every layout of a legible value is read as the value.** The recursion is on the layout,
    through all three relations; a rule of a relation is one round of the reader. -/
theorem Layout.read {v : Value} {c : Nat} {rows : List Row} :
    Layout v c rows → Legible v → ∀ ls : List Line, ls.map Line.row = rows →
      readBelow ls = .ok v.unsignZeros
  | .line hv => by
    intro hlegible ls hls
    refine readBelow_scalar hv ?_ hls
    rintro s rfl
    exact everyString_string.1 hlegible.strings
  | .mapping hne h => by
    intro hlegible ls hls
    -- the entries are read one by one, and gathering them changes nothing
    obtain ⟨hnodup, hentries⟩ := legible_mapping hlegible
    have hread := h.read hentries ls hls
    obtain ⟨l, rest, rfl⟩ := (Layout.mapping hne h).exists_cons hls
    have hfirst := forall_head?_of_map_row hls h.head l rfl
    have hentry := forall_head?_of_map_row hls (h.head_entry fun e he => (hentries e he).1) l rfl
    rw [readBelow_cons, readBlock_of_entry hfirst.2 hentry, show l.indent = c from hfirst.1, hread]
    have hgather := Entries.ofPairs_of_nodup ((keys_unsignEntries _).symm ▸ hnodup)
    exact congrArg (fun es => Except.ok (mapping es)) hgather
  | .sequence hne h => by
    intro hlegible ls hls
    have hread := h.read (legible_sequence hlegible) ls hls
    obtain ⟨l, rest, rfl⟩ := (Layout.sequence hne h).exists_cons hls
    have hfirst := forall_head?_of_map_row hls h.head l rfl
    rw [readBelow_cons, readBlock_of_item hfirst.2, show l.indent = c from hfirst.1, hread]
    rfl

/-- Entries are read from their rows, in their order: each from its first row and those below, and
    the others from the rows behind. -/
theorem EntriesLayout.read {es : Entries} {c : Nat} {rows : List Row} :
    EntriesLayout es c rows → (∀ e ∈ es, ¬ MisreadKey e.1.toList ∧ Legible e.2) →
      ∀ ls : List Line, ls.map Line.row = rows → readEntries c ls = .ok (unsignEntries es)
  | .nil => by
    intro _ ls hls
    obtain rfl := List.map_eq_nil_iff.1 hls
    rw [readEntries]
    rfl
  | .behind hv h => by
    intro hes ls hls
    rw [List.forall_mem_cons] at hes
    have hrest := fun r hr => (h.stops r hr).1
    obtain ⟨rest, hr, hstep⟩ := readEntries_behind hes.1.1 hv hrest hls
    rw [hstep, h.read hes.2 rest hr, String.ofList_toList]
    rfl
  | .under hd hv h => by
    intro hes ls hls
    rw [List.forall_mem_cons] at hes
    -- the rows of the value are deeper, or they are elements at the column of the key
    obtain ⟨hbelongs, hdeep⟩ := hv.belongs hd
    obtain ⟨value, rest, hval, hr, hstep⟩ :=
      readEntries_under hes.1.1 hbelongs hdeep h.stops hls
    rw [hstep, hv.read hes.1.2 value hval, h.read hes.2 rest hr, String.ofList_toList]
    rfl

/-- Elements are read from their rows in the same way. -/
theorem ItemsLayout.read {items : List Value} {c : Nat} {rows : List Row} :
    ItemsLayout items c rows → (∀ v ∈ items, Legible v) →
      ∀ ls : List Line, ls.map Line.row = rows → readItems c ls = .ok (unsignItems items)
  | .nil => by
    intro _ ls hls
    obtain rfl := List.map_eq_nil_iff.1 hls
    rw [readItems]
    rfl
  | .behind hv h => by
    intro hitems ls hls
    rw [List.forall_mem_cons] at hitems
    have hrest := fun r hr => Nat.le_of_eq (h.head r hr).1
    -- the first row of the element is the rest of the dash line, and the others are deeper
    have hrows := List.forall_mem_cons.1 hv.lineText
    have hdeep := fun r hr => hv.columns r (List.mem_cons_of_mem _ hr)
    have hbelow := fun r hr => Nat.lt_of_lt_of_le (by omega : c < c + 1 + (_ + 1)) (hdeep r hr)
    obtain ⟨item, rest, hitem, hr, hstep⟩ := readItems_behind hrows.1 hbelow hrest hls
    rw [hstep, hv.read hitems.1 item hitem, h.read hitems.2 rest hr]
    rfl
  | .under hd hv h => by
    intro hitems ls hls
    rw [List.forall_mem_cons] at hitems
    have hrest := fun r hr => Nat.le_of_eq (h.head r hr).1
    have hbelow := fun r hr => Nat.lt_of_lt_of_le hd (hv.columns r hr)
    obtain ⟨item, rest, hitem, hr, hstep⟩ := readItems_under hbelow hrest hls
    rw [hstep, hv.read hitems.1 item hitem, h.read hitems.2 rest hr]
    rfl
end

/-! ## Layouts in a text

  The text around the rows is taken away first, and what is left is the theorem about lines.  A text
  with a layout has nothing left of its first row, so it is read as a block. -/

/-- A text that shows a layout of a legible value is read as the value. -/
theorem Layout.readChars {v : Value} {c : Nat} {rows : List Row} {ps : List (List Char)}
    (h : Layout v c rows) (hps : Opened rows ps) (hv : Legible v) :
    readChars (List.intercalate ['\n'] ps) = .ok v.unsignZeros := by
  have hrows := map_row_significantLines hps (hps.ne_nil h.ne_nil) h.lineText
  rw [Block.readChars, readLines_eq_readBelow (forall_head?_of_map_row hrows h.head)
    (forall_of_map_row hrows h.columns)]
  exact h.read hv _ hrows

/-- **Every layout is read exactly.** A text that shows a layout of a value, at any column, with
    empty lines, comments and blanks at the ends of lines anywhere and with markers in front, is
    read as that value, only zeros losing their sign.  The keys of a mapping are distinct, no text
    in the value has a blank beyond ASCII, and no key starts with a closing bracket or brace. -/
theorem readChars_of_layout {v : Value} {c : Nat} {rows : List Row} {ps : List (List Char)}
    (h : Layout v c rows) (hps : Opened rows ps) (hdistinct : v.DistinctKeys)
    (hstrings : v.EveryString fun s => AsciiBlanks s.toList)
    (hkeys : v.EveryKey fun k => AsciiBlanks k.toList ∧ k.toList.head? ≠ some ']' ∧
      k.toList.head? ≠ some '}') :
    readChars (List.intercalate ['\n'] ps) = .ok v.unsignZeros ∧ v.unsignZeros.same v = true := by
  have hlegible : Legible v := by
    refine ⟨hdistinct, hkeys.mono ?_, hstrings.mono ?_⟩
    · rintro k ⟨hascii, hbracket, hbrace⟩
      exact not_misreadKey hascii hbracket hbrace
    · intro s hascii
      exact not_misreadString hascii
  exact ⟨h.readChars hps hlegible, same_unsignZeros hdistinct⟩

/-- Each kind of layout once, a negative zero among the scalars, in a text with a marker, a comment,
    an empty line and blanks behind a key. -/
theorem readChars_of_layout_mixed :
    let minusZero : Decimal := ⟨true, 0, 1, by decide, by decide⟩
    let v : Value := .mapping [
      ("a", .sequence [.mapping [("b", .number minusZero), ("c: d", .string "x: y")], .null]),
      ("g", .sequence [])]
    readChars
      "---\n a:  \n -  b: -0.0\n# note\n    \"c: d\":\n     \"x: y\"\n\n -\n  null\n g: []".toList =
        .ok v.unsignZeros ∧ v.unsignZeros.same v = true := by
  intro minusZero v
  have hitem : Layout (.mapping [("b", .number minusZero), ("c: d", .string "x: y")]) 4 _ :=
    .mapping (by simp)
      (.behind (n := 0) rfl (.under (d := 5) (Or.inl (by decide)) (.line rfl) .nil))
  have hlayout : Layout v 1 _ :=
    .mapping (by simp) (.under (Or.inr ⟨rfl, _, by simp, rfl⟩)
      (.sequence (by simp) (.behind (n := 1) hitem (.under (d := 2) (by decide) (.line rfl) .nil)))
      (.behind (n := 0) rfl .nil))
  have hempty : Filler [] := ⟨by simp, Or.inl (by simp)⟩
  have hcomment : Filler "# note".toList := ⟨by decide, Or.inr ⟨0, " note".toList, by decide⟩⟩
  have hnone : '\n' ∉ ([] : List Char) := by simp
  have hspaces : '\n' ∉ [' ', ' '] := by decide
  have hdistinct : v.DistinctKeys := by
    simp [v, DistinctKeys, Throughout, descendants, itemDescendants, entryDescendants, Entries.keys]
  have hstrings : v.EveryString fun s => AsciiBlanks s.toList := by
    simp [v, EveryString, Throughout, descendants, itemDescendants, entryDescendants, AsciiBlanks]
  have hkeys : v.EveryKey fun k => AsciiBlanks k.toList ∧ k.toList.head? ≠ some ']' ∧
      k.toList.head? ≠ some '}' := by
    simp [v, EveryKey, Throughout, descendants, itemDescendants, entryDescendants, Entries.keys,
      AsciiBlanks, or_imp, forall_and]
  have h := readChars_of_layout hlayout
    (.marker (n := 0) hnone (by simp)
      (.shown (.row hspaces (fun _ => isBlank_of_mem_spaces (n := 2)) (.plain
        (.filler hcomment (.plain (.plain (.filler hempty (.plain (.plain (.plain .nil)))))))))))
    hdistinct hstrings hkeys
  -- what is left is that the pieces make this text
  convert h using 3
  decide +kernel

end BlockQuery.Block

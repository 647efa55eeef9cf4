/-
  The steps of the block reader.

  The reader cuts the lines behind an element or an entry by their indentation.  Where the cut is
  known, a step is an equation: the lines in front are a block of their own, and reading goes on
  behind them.  An element with text on its dash line owns that text as the first line of its block
  (`dashBlock`), so both kinds of element are one case.

  The equations are stated twice: for lines as they come, with `takeWhile` and `dropWhile` for the
  cuts, and for lines that are given in two parts, with the condition that the cut is between them.
  The first form serves proofs that start from a text that was read, the second one those that start
  from something to be written.
-/
import BlockQuery.Block.Reader
import BlockQuery.Proofs.Blank

namespace BlockQuery.Block

variable {c : Nat} {l : Line} {below rest : List Line}

/-! ## What a block is

  The first line decides: an element, an entry, or a scalar that goes on over all lines. -/

/-- Lines below an element or an entry are a block, if there are any. -/
theorem readBelow_cons (l : Line) (ls : List Line) : readBelow (l :: ls) = readBlock l ls := by
  rw [readBelow]

/-- A block that starts with an element is a sequence. -/
theorem readBlock_of_item (h : isItem l.text = true) (ls : List Line) :
    readBlock l ls = (readItems l.indent (l :: ls)).map .sequence := by
  rw [readBlock, if_pos h]

/-- A block that starts with an entry is a mapping. -/
theorem readBlock_of_entry (hitem : isItem l.text = false)
    (hentry : (keyLine? l.text).isSome = true) (ls : List Line) :
    readBlock l ls =
      (readEntries l.indent (l :: ls)).map fun es => .mapping (Entries.ofPairs es) := by
  rw [readBlock, if_neg (by rw [hitem]; decide), if_pos hentry]

/-- Every other block is a scalar. -/
theorem readBlock_of_scalar (hitem : isItem l.text = false) (hentry : keyLine? l.text = none)
    (ls : List Line) :
    readBlock l ls = readScalarLines l.number (l.text :: ls.map (·.text)) := by
  rw [readBlock, if_neg (by rw [hitem]; decide), hentry, if_neg (by decide)]

/-- Where no line stands left of the first, the lines of a text are one block. -/
theorem readLines_eq_readBelow {ls : List Line} (hfirst : ∀ l ∈ ls.head?, l.indent = c)
    (hall : ∀ l ∈ ls, c ≤ l.indent) : readLines ls = readBelow ls := by
  cases ls with
  | nil => rw [readLines, readBelow]
  | cons l ls =>
    have hnone : (ls.find? fun m => m.indent < l.indent) = none := by
      rw [List.find?_eq_none, hfirst l rfl]
      intro m hm
      simpa using hall m (List.mem_cons_of_mem l hm)
    rw [readLines, hnone, readBelow_cons]

/-- A text that is one scalar is read as this scalar. -/
theorem readScalarLines_singleton {text : List Char} {v : Value} (h : readScalar? text = some v)
    (number : Nat) : readScalarLines number [text] = .ok v := by
  have hjoin : List.intercalate [' '] [text] = text := by simp
  rw [readScalarLines, hjoin, h]

/-! ## Elements

  The lines of an element are the deeper ones behind its dash.  Everything up to the first line that
  is not deeper belongs to it, whatever it is. -/

/-- A line is deeper if it starts in a column further right. -/
@[simp] theorem isDeeper_iff : isDeeper c l = true ↔ c < l.indent :=
  decide_eq_true_iff

/-- It is not if it starts further left or in the same column. -/
theorem isDeeper_eq_false_iff : isDeeper c l = false ↔ l.indent ≤ c := by
  simp [isDeeper]

/-- The lines of an element: its text behind the dash, if there is any, and the lines below. -/
def dashBlock (l : Line) (below : List Line) : List Line :=
  if (afterDash l).text.isEmpty then below else afterDash l :: below

/-- The deeper lines in front of one that is not are those that are cut off. -/
theorem takeWhile_isDeeper (hbelow : ∀ m ∈ below, c < m.indent)
    (hrest : ∀ m ∈ rest.head?, m.indent ≤ c) : (below ++ rest).takeWhile (isDeeper c) = below := by
  apply takeWhile_run_append
  · intro m hm
    exact isDeeper_iff.2 (hbelow m hm)
  · intro m hm
    exact isDeeper_eq_false_iff.2 (hrest m hm)

/-- The other lines are those that are left. -/
theorem dropWhile_isDeeper (hbelow : ∀ m ∈ below, c < m.indent)
    (hrest : ∀ m ∈ rest.head?, m.indent ≤ c) : (below ++ rest).dropWhile (isDeeper c) = rest := by
  apply dropWhile_run_append
  · intro m hm
    exact isDeeper_iff.2 (hbelow m hm)
  · intro m hm
    exact isDeeper_eq_false_iff.2 (hrest m hm)

/-- Without lines there are no elements. -/
@[simp] theorem readItems_nil (c : Nat) : readItems c [] = .ok [] := by
  rw [readItems]

/-- An element is read from its lines, and the other elements from the lines behind them. -/
theorem readItems_cons (hcolumn : l.indent = c) (hitem : isItem l.text = true) (rest : List Line) :
    readItems c (l :: rest) = do
      let v ← readBelow (dashBlock l (rest.takeWhile (isDeeper c)))
      let vs ← readItems c (rest.dropWhile (isDeeper c))
      return v :: vs := by
  rw [readItems, if_neg (not_not_intro hcolumn), dif_pos hitem, dashBlock]
  split
  · rfl
  · rw [readBelow_cons]

/-- A line in another column is an error. -/
theorem readItems_of_indent_ne (h : l.indent ≠ c) (rest : List Line) :
    readItems c (l :: rest) = .error (.unexpectedIndent l.number) := by
  rw [readItems, if_pos h]

/-- So is a line in the right column that has no dash. -/
theorem readItems_of_not_item (hcolumn : l.indent = c) (h : ¬ isItem l.text = true)
    (rest : List Line) : readItems c (l :: rest) = .error (.mixedBlock l.number) := by
  rw [readItems, if_neg (not_not_intro hcolumn), dif_neg h]

/-- The lines of an element go on as long as they are deeper. -/
theorem readItems_append (hcolumn : l.indent = c) (hitem : isItem l.text = true)
    (hbelow : ∀ m ∈ below, c < m.indent) (hrest : ∀ m ∈ rest.head?, m.indent ≤ c) :
    readItems c (l :: (below ++ rest)) = do
      let v ← readBelow (dashBlock l below)
      let vs ← readItems c rest
      return v :: vs := by
  rw [readItems_cons hcolumn hitem, takeWhile_isDeeper hbelow hrest,
    dropWhile_isDeeper hbelow hrest]

/-! ## Entries

  An entry with text behind its colon owns the deeper lines, which go on with that text.  One
  without owns more: the elements of a sequence need not be deeper than the key, so it is the first
  line below that decides which lines belong (`OwnedBelow`). -/

/-- The lines below an entry are deeper than it, or are the elements of a sequence as deep as it,
    and the next line is not. -/
structure OwnedBelow (c : Nat) (below rest : List Line) : Prop where
  belongs : ∀ m ∈ below, c < m.indent ∨ (m.indent = c ∧ isItem m.text = true)
  deep : (∀ m ∈ below, c < m.indent) ∨ ∀ m ∈ below.head?, m.indent ≤ c
  stops : ∀ m ∈ rest.head?, m.indent ≤ c ∧ (m.indent = c → isItem m.text = false)

/-- A line that is not deeper, and no element as deep as the entry, does not belong to it. -/
theorem belongsBelow_eq_false (hle : l.indent ≤ c) (hitem : l.indent = c → isItem l.text = false)
    (ls : List Line) : belongsBelow c ls l = false := by
  have hshallow : isDeeper c l = false := isDeeper_eq_false_iff.2 hle
  unfold belongsBelow
  split
  · exact hshallow
  · simpa [hshallow] using hitem

/-- The lines that an entry owns are those that are cut off for it. -/
theorem OwnedBelow.split (h : OwnedBelow c below rest) :
    (below ++ rest).takeWhile (belongsBelow c (below ++ rest)) = below ∧
      (below ++ rest).dropWhile (belongsBelow c (below ++ rest)) = rest := by
  have hrun : ∀ m ∈ below, belongsBelow c (below ++ rest) m = true := by
    intro m hm
    -- the first line decides whether deeper lines belong here, or elements too
    unfold belongsBelow
    split
    · rename_i hdeep
      rcases h.deep with hall | hhead
      · exact isDeeper_iff.2 (hall m hm)
      · -- the first line is not deeper
        obtain ⟨b, bs, rfl⟩ := List.exists_cons_of_ne_nil (List.ne_nil_of_mem hm)
        have hlt : c < b.indent := by simpa [isDeeper] using hdeep
        exact absurd (hhead b rfl) (Nat.not_le.2 hlt)
    · rcases h.belongs m hm with hm | ⟨hcol, hitem⟩
      · simp [isDeeper, hm]
      · simp [hcol, hitem]
  have hstop : ∀ m ∈ rest.head?, belongsBelow c (below ++ rest) m = false := fun m hm =>
    belongsBelow_eq_false (h.stops m hm).1 (h.stops m hm).2 _
  exact ⟨takeWhile_run_append hrun hstop, dropWhile_run_append hrun hstop⟩

/-- Without lines there are no entries. -/
@[simp] theorem readEntries_nil (c : Nat) : readEntries c [] = .ok [] := by
  rw [readEntries]

/-- One round of reading entries. -/
theorem readEntries_cons (c : Nat) (l : Line) (rest : List Line) :
    readEntries c (l :: rest) =
      if l.indent ≠ c then .error (.unexpectedIndent l.number)
      else if isItem l.text then .error (.mixedBlock l.number)
      else
        match keyLine? l.text with
        | none => .error (.mixedBlock l.number)
        | some k =>
            match readKey? k.key with
            | none => .error (.unterminatedQuote l.number)
            | some key =>
                match k.inline with
                | some text => do
                    let v ← readScalarLines l.number
                      (text :: (rest.takeWhile (isDeeper c)).map (·.text))
                    let es ← readEntries c (rest.dropWhile (isDeeper c))
                    return (String.ofList key, v) :: es
                | none => do
                    let v ← readBelow (rest.takeWhile (belongsBelow c rest))
                    let es ← readEntries c (rest.dropWhile (belongsBelow c rest))
                    return (String.ofList key, v) :: es :=
  readEntries.eq_def c (l :: rest)

/-- An entry with a text behind its colon is read from this text and the deeper lines. -/
theorem readEntries_inline {k : KeyLine} {key text : List Char} (hcolumn : l.indent = c)
    (hitem : isItem l.text = false) (hentry : keyLine? l.text = some k)
    (hkey : readKey? k.key = some key) (htext : k.inline = some text)
    (hbelow : ∀ m ∈ below, c < m.indent) (hrest : ∀ m ∈ rest.head?, m.indent ≤ c) :
    readEntries c (l :: (below ++ rest)) = do
      let v ← readScalarLines l.number (text :: below.map (·.text))
      let es ← readEntries c rest
      return (String.ofList key, v) :: es := by
  rw [readEntries, if_neg (not_not_intro hcolumn), if_neg (by rw [hitem]; decide), hentry]
  simp only [hkey, htext]
  rw [takeWhile_isDeeper hbelow hrest, dropWhile_isDeeper hbelow hrest]

/-- An entry with nothing behind its colon is read from the lines below. -/
theorem readEntries_below {k : KeyLine} {key : List Char} (hcolumn : l.indent = c)
    (hitem : isItem l.text = false) (hentry : keyLine? l.text = some k)
    (hkey : readKey? k.key = some key) (htext : k.inline = none) (h : OwnedBelow c below rest) :
    readEntries c (l :: (below ++ rest)) = do
      let v ← readBelow below
      let es ← readEntries c rest
      return (String.ofList key, v) :: es := by
  rw [readEntries, if_neg (not_not_intro hcolumn), if_neg (by rw [hitem]; decide), hentry]
  simp only [hkey, htext]
  rw [h.split.1, h.split.2]

/-- A document of one line that is an entry is a mapping with this entry, if the key closes. -/
theorem readLines_entry {k : KeyLine} {text : List Char} (hitem : isItem l.text = false)
    (hentry : keyLine? l.text = some k) (htext : k.inline = some text) :
    readLines [l] =
      match readKey? k.key with
      | none => .error (.unterminatedQuote l.number)
      | some key =>
          (readScalarLines l.number [text]).map fun v => .mapping [(String.ofList key, v)] := by
  rw [readLines, List.find?_nil]
  show readBlock l [] = _
  rw [readBlock_of_entry hitem (by rw [hentry]; rfl), readEntries_cons, if_neg (not_not_intro rfl),
    if_neg (by rw [hitem]; decide), hentry]
  simp only [htext]
  cases readKey? k.key with
  | none => rfl
  | some key =>
    show Except.map _ (do
      let v ← readScalarLines l.number [text]
      let es ← readEntries l.indent []
      return (String.ofList key, v) :: es) = _
    rw [readEntries_nil]
    cases readScalarLines l.number [text] <;> rfl

end BlockQuery.Block

/-
  Rows: what the lines of a text come down to.

  A row is a column and the text that starts there.  A text shows rows when its lines are these
  rows, in order, with blanks behind them and with empty lines and comments in between (`Shown`);
  markers may stand before the first (`Opened`).  The significant lines of a text that shows rows
  are the rows, so nothing else about the text matters to the reader, apart from the line numbers in
  its errors.

  The writer makes rows, and so does every other layout of a document, so the proofs about what is
  written and about what layouts may differ in share everything from here on: they are about rows
  and their columns, and never about characters between them.  The step from a text to its rows is
  an induction on how the pieces of the text show them, in which the number of a line changes and
  the row does not.
-/
import BlockQuery.Block.Reader
import BlockQuery.Proofs.LineText

namespace BlockQuery.Block

open Text

/-! ## Pieces between line feeds

  Splitting a text at its line feeds undoes putting pieces together with line feeds between them. -/

/-- A text without a line feed is one piece. -/
theorem pieces_of_not_mem {p : List Char} (h : '\n' ∉ p) : pieces p = [p] := by
  induction p with
  | nil => rfl
  | cons c p ih =>
    have hc : c ≠ '\n' := fun heq => h (heq ▸ List.mem_cons_self)
    have hp : '\n' ∉ p := fun hmem => h (List.mem_cons_of_mem c hmem)
    rw [pieces, if_neg hc, ih hp]

/-- There is always a piece; it may be empty. -/
theorem pieces_ne_nil (cs : List Char) : pieces cs ≠ [] := by
  cases cs with
  | nil => simp [pieces]
  | cons c cs =>
    rw [pieces]
    split
    · simp
    · split <;> simp

/-- A line feed ends a piece. -/
theorem pieces_append_newline (cs ds : List Char) :
    pieces (cs ++ '\n' :: ds) = pieces cs ++ pieces ds := by
  induction cs with
  | nil => simp [pieces]
  | cons c cs ih =>
    rw [List.cons_append, pieces, pieces, ih]
    split
    · rfl
    · cases hp : pieces cs with
      | nil => exact absurd hp (pieces_ne_nil cs)
      | cons p ps => rfl

/-- A first piece is split off at its line feed. -/
theorem pieces_append {p : List Char} (h : '\n' ∉ p) (cs : List Char) :
    pieces (p ++ '\n' :: cs) = p :: pieces cs := by
  rw [pieces_append_newline, pieces_of_not_mem h, List.singleton_append]

/-- No piece has a line feed in it. -/
theorem newline_not_mem_of_mem_pieces {cs p : List Char} (h : p ∈ pieces cs) : '\n' ∉ p := by
  induction cs generalizing p with
  | nil =>
    obtain rfl := List.mem_singleton.1 h
    exact List.not_mem_nil
  | cons c cs ih =>
    rw [pieces] at h
    split at h
    · rcases List.mem_cons.1 h with rfl | h
      · exact List.not_mem_nil
      · exact ih h
    · rename_i hc
      cases hps : pieces cs with
      | nil => exact absurd hps (pieces_ne_nil cs)
      | cons q qs =>
        rw [hps] at h ih
        rcases List.mem_cons.1 h with rfl | h
        · exact List.not_mem_cons_of_ne_of_not_mem (Ne.symm hc) (ih List.mem_cons_self)
        · exact ih (List.mem_cons_of_mem q h)

/-- Pieces that are put together with line feeds come apart again.  There must be one at least,
    since no text has no pieces. -/
theorem pieces_intercalate {ps : List (List Char)} (hne : ps ≠ []) (h : ∀ p ∈ ps, '\n' ∉ p) :
    pieces (List.intercalate ['\n'] ps) = ps := by
  induction ps with
  | nil => exact absurd rfl hne
  | cons p ps ih =>
    rw [List.forall_mem_cons] at h
    cases ps with
    | nil =>
      rw [List.intercalate_singleton]
      exact pieces_of_not_mem h.1
    | cons q ps =>
      rw [List.intercalate_cons_cons, List.append_assoc, List.singleton_append, pieces_append h.1,
        ih (by simp) h.2]

/-! ## Rows in a text

  Markers may stand in front of a document, as many as it likes, and are left out.  Behind the first
  row a marker is text like any other, so `Opened` has them in front of the rows only. -/

/-- A text and the column in which it starts. -/
structure Row where
  column : Nat
  text : List Char
deriving DecidableEq, Repr

/-- The row that a line is, whatever its number. -/
def Line.row (l : Line) : Row := ⟨l.indent, l.text⟩

/-- A piece of text that is no line: only blanks, or a comment behind spaces.  A comment behind
    other blanks is text. -/
def Filler (p : List Char) : Prop :=
  '\n' ∉ p ∧ ((∀ c ∈ p, isBlank c = true) ∨ ∃ n rest, p = List.replicate n ' ' ++ '#' :: rest)

/-- The piece of text that a row makes: spaces up to its column, its text, and blanks. -/
def Row.piece (r : Row) (blanks : List Char) : List Char :=
  List.replicate r.column ' ' ++ (r.text ++ blanks)

/-- Whether pieces of text are the given rows, with fillers in between.  Each row has blanks of its
    own behind it. -/
inductive Shown : List Row → List (List Char) → Prop
  | nil : Shown [] []
  | filler {rows p ps} : Filler p → Shown rows ps → Shown rows (p :: ps)
  | row {r blanks rows ps} : '\n' ∉ blanks → (∀ c ∈ blanks, isBlank c = true) → Shown rows ps →
      Shown (r :: rows) (r.piece blanks :: ps)

/-- Whether pieces of text are the given rows behind any number of markers, with fillers in
    between. -/
inductive Opened : List Row → List (List Char) → Prop
  | shown {rows ps} : Shown rows ps → Opened rows ps
  | filler {rows p ps} : Filler p → Opened rows ps → Opened rows (p :: ps)
  | marker {n blanks rows ps} : '\n' ∉ blanks → (∀ c ∈ blanks, isBlank c = true) →
      Opened rows ps → Opened rows (Row.piece ⟨n, marker⟩ blanks :: ps)

/-- A row without blanks behind it is shown. -/
theorem Shown.plain {r : Row} {rows : List Row} {ps : List (List Char)} (h : Shown rows ps) :
    Shown (r :: rows) (r.piece [] :: ps) :=
  .row (by simp) (by simp) h

/-- Rows are shown by at least one piece, if there are any. -/
theorem Opened.ne_nil {rows : List Row} {ps : List (List Char)} (h : Opened rows ps)
    (hne : rows ≠ []) : ps ≠ [] := by
  rintro rfl
  cases h with
  | shown h =>
    cases h
    exact hne rfl

/-! ## Rows as lines

  The reader takes a piece as a line by trimming its end, counting the spaces in front and looking
  whether anything is left that is no comment.  For fillers nothing is left.  For a row this is its
  column and its text, if the text is trimmed and starts no comment, which is part of `LineText`. -/

/-- An indent is made of spaces. -/
theorem beq_space_of_mem_spaces {n : Nat} {c : Char} (h : c ∈ List.replicate n ' ') :
    (c == ' ') = true := by
  rw [List.eq_of_mem_replicate h]
  decide

/-- A filler is no line. -/
theorem line?_filler {p : List Char} (h : Filler p) (number : Nat) : line? p number = none := by
  rcases h.2 with hblank | ⟨n, rest, rfl⟩
  · rw [line?, trimEnd_blanks hblank]
    rfl
  · have hspaces : ∀ c ∈ List.replicate n ' ', (c == ' ') = true :=
      fun c => beq_space_of_mem_spaces
    have hhash : ∀ c ∈ ('#' :: trimEnd rest).head?, (c == ' ') = false := by
      rintro _ ⟨⟩
      decide
    have hcontent : withoutIndent (trimEnd (List.replicate n ' ' ++ '#' :: rest)) =
        '#' :: trimEnd rest := by
      rw [trimEnd_append_cons (by decide)]
      exact dropWhile_run_append hspaces hhash
    simp only [line?, hcontent]
    rfl

/-- A row is found as it is, whatever blanks are behind it.  Its text says where it starts, as it
    starts with no space, and where it ends, as it ends with no blank. -/
theorem line?_piece {r : Row} {blanks : List Char} (htrimmed : Trimmed r.text) (hne : r.text ≠ [])
    (hcomment : r.text.head? ≠ some '#') (hblanks : ∀ c ∈ blanks, isBlank c = true)
    (number : Nat) : line? (r.piece blanks) number = some ⟨number, r.column, r.text⟩ := by
  have hspaces : ∀ c ∈ List.replicate r.column ' ', (c == ' ') = true :=
    fun c => beq_space_of_mem_spaces
  have hhead : ∀ c ∈ r.text.head?, (c == ' ') = false := by
    intro c hc
    have hblank := htrimmed.1 c hc
    by_contra hspace
    obtain rfl : c = ' ' := by simpa using hspace
    exact absurd hblank (by decide)
  -- trimming takes the blanks and stops at the text; the indentation ends where the text starts
  have hshown : trimEnd (r.piece blanks) = List.replicate r.column ' ' ++ r.text := by
    rw [Row.piece, ← List.append_assoc]
    exact trimEnd_append_blanks (htrimmed.2.append hne) hblanks
  have hcontent : withoutIndent (List.replicate r.column ' ' ++ r.text) = r.text :=
    dropWhile_run_append hspaces hhead
  have hleading : leadingSpaces (List.replicate r.column ' ' ++ r.text) =
      List.replicate r.column ' ' :=
    takeWhile_run_append hspaces hhead
  have hsignificant : isInsignificant r.text = false := by
    obtain ⟨c, rest, heq⟩ := List.exists_cons_of_ne_nil hne
    rw [heq] at hcomment ⊢
    simpa [isInsignificant] using hcomment
  simp only [line?, hshown, hcontent, hleading, hsignificant, List.length_replicate]
  rfl

/-- A marker is found with the column it stands in. -/
theorem line?_marker {column : Nat} {blanks : List Char} (hblanks : ∀ c ∈ blanks, isBlank c = true)
    (number : Nat) :
    line? (Row.piece ⟨column, marker⟩ blanks) number = some ⟨number, column, marker⟩ := by
  have htrimmed : Trimmed marker := trimmed_of_no_blank (by decide)
  have hne : marker ≠ [] := by decide
  have hcomment : marker.head? ≠ some '#' := by decide
  exact line?_piece (r := ⟨column, marker⟩) htrimmed hne hcomment hblanks number

/-- The lines among some pieces.  A piece that is no line counts for the numbers of those behind
    it. -/
def linesOf (number : Nat) (ps : List (List Char)) : List Line :=
  (ps.zipIdx number).filterMap fun p => line? p.1 p.2

/-- The first piece is a line or none, and the others are numbered from the next number on. -/
theorem linesOf_cons (number : Nat) (p : List Char) (ps : List (List Char)) :
    linesOf number (p :: ps) = (line? p number).toList ++ linesOf (number + 1) ps := by
  rw [linesOf, List.zipIdx_cons, List.filterMap_cons]
  cases line? p number <;> rfl

/-- Pieces in two parts, with the numbers going on. -/
theorem linesOf_append (number : Nat) (ps qs : List (List Char)) :
    linesOf number (ps ++ qs) = linesOf number ps ++ linesOf (number + ps.length) qs := by
  rw [linesOf, List.zipIdx_append, List.filterMap_append]
  rfl

/-- Fillers alone have no lines. -/
theorem linesOf_fillers {ps : List (List Char)} (h : ∀ p ∈ ps, Filler p) (number : Nat) :
    linesOf number ps = [] := by
  induction ps generalizing number with
  | nil => rfl
  | cons p ps ih =>
    rw [List.forall_mem_cons] at h
    rw [linesOf_cons, line?_filler h.1, ih h.2]
    rfl

/-- The lines of pieces that show rows are the rows, by induction on how they are shown, from
    whatever number on. -/
theorem Shown.map_row {rows : List Row} {ps : List (List Char)} (h : Shown rows ps)
    (hrows : ∀ r ∈ rows, LineText r.text) (number : Nat) :
    (linesOf number ps).map Line.row = rows := by
  -- the number of the line changes along the induction, and no row depends on it
  induction h generalizing number with
  | nil => rfl
  | filler hp _ ih =>
    rw [linesOf_cons, line?_filler hp]
    exact ih hrows (number + 1)
  | row _ hblanks _ ih =>
    rw [List.forall_mem_cons] at hrows
    obtain ⟨hr, hrows⟩ := hrows
    rw [linesOf_cons, line?_piece hr.trimmed hr.ne_nil hr.no_comment hblanks, List.map_append,
      ih hrows (number + 1)]
    rfl

/-- Lines that are no markers stay. -/
theorem dropWhile_marker {ls : List Line} (h : ∀ l ∈ ls, LineText l.row.text) :
    (ls.dropWhile fun l => l.text == marker) = ls := by
  rw [dropWhile_eq_self_iff_head?]
  intro l hl
  have hne : l.text ≠ marker := (h l (List.mem_of_mem_head? hl)).ne_marker
  simpa using hne

/-- Markers in front of the rows are left out, and no row is.  A marker is found as a line like
    others, and the first line that is none ends the search for them. -/
theorem Opened.map_row {rows : List Row} {ps : List (List Char)} (h : Opened rows ps)
    (hrows : ∀ r ∈ rows, LineText r.text) (number : Nat) :
    ((linesOf number ps).dropWhile fun l => l.text == Block.marker).map Line.row = rows := by
  induction h generalizing number with
  | shown h =>
    -- no row is a marker, so nothing more is left out
    have hmap := h.map_row hrows number
    rw [dropWhile_marker fun l hl => hrows _ (hmap ▸ List.mem_map_of_mem hl), hmap]
  | filler hp _ ih =>
    rw [linesOf_cons, line?_filler hp]
    exact ih hrows (number + 1)
  | marker _ hblanks _ ih =>
    rw [linesOf_cons, line?_marker hblanks]
    exact ih hrows (number + 1)

/-- The piece of a row has no line feed in it. -/
theorem newline_not_mem_piece {r : Row} {blanks : List Char} (htext : '\n' ∉ r.text)
    (hblanks : '\n' ∉ blanks) : '\n' ∉ r.piece blanks := by
  simp only [Row.piece, List.mem_append, List.mem_replicate, not_or]
  exact ⟨fun h => absurd h.2 (by decide), htext, hblanks⟩

/-- So no piece that shows rows has one. -/
theorem Shown.newline_not_mem {rows : List Row} {ps : List (List Char)} (h : Shown rows ps)
    (hrows : ∀ r ∈ rows, LineText r.text) : ∀ p ∈ ps, '\n' ∉ p := by
  induction h with
  | nil => simp
  | filler hp _ ih => exact List.forall_mem_cons.2 ⟨hp.1, ih hrows⟩
  | row hnewline _ _ ih =>
    rw [List.forall_mem_cons] at hrows
    exact List.forall_mem_cons.2
      ⟨newline_not_mem_piece hrows.1.no_newline hnewline, ih hrows.2⟩

/-- Nor has one that stands in front of them. -/
theorem Opened.newline_not_mem {rows : List Row} {ps : List (List Char)} (h : Opened rows ps)
    (hrows : ∀ r ∈ rows, LineText r.text) : ∀ p ∈ ps, '\n' ∉ p := by
  induction h with
  | shown h => exact h.newline_not_mem hrows
  | filler hp _ ih => exact List.forall_mem_cons.2 ⟨hp.1, ih hrows⟩
  | marker hnewline _ _ ih =>
    have hmarker : '\n' ∉ Block.marker := by decide
    exact List.forall_mem_cons.2 ⟨newline_not_mem_piece hmarker hnewline, ih hrows⟩

/-- The lines of a text, with the markers in front of it left out. -/
theorem significantLines_eq (cs : List Char) :
    significantLines cs = (linesOf 1 (pieces cs)).dropWhile fun l => l.text == marker := rfl

/-- The same of a text that is put together from pieces. -/
theorem significantLines_intercalate {ps : List (List Char)} (hne : ps ≠ [])
    (h : ∀ p ∈ ps, '\n' ∉ p) :
    significantLines (List.intercalate ['\n'] ps) =
      (linesOf 1 ps).dropWhile fun l => l.text == marker := by
  rw [significantLines_eq, pieces_intercalate hne h]

/-- The significant lines of a text that shows rows are the rows.  This is all that the reader of
    blocks gets to see of the text. -/
theorem map_row_significantLines {rows : List Row} {ps : List (List Char)} (h : Opened rows ps)
    (hne : ps ≠ []) (hrows : ∀ r ∈ rows, LineText r.text) :
    (significantLines (List.intercalate ['\n'] ps)).map Line.row = rows := by
  rw [significantLines_intercalate hne (h.newline_not_mem hrows)]
  exact h.map_row hrows 1

end BlockQuery.Block

/-
  Block text depends on relative layout only.

  Three changes to a text leave its lines where they are to each other: all of them move to the
  right together (`indented`), pieces that say nothing come in between, and blanks come behind
  (`padded`).  Each is carried out piece by piece, and the lines of the new pieces are the old lines
  in another place (`linesOf_map_moved`, `linesOf_paddedFrom`); so what is read is the same, and an
  error names the line that it named before, by its new number.

  A text with a change is described by its pieces, and a change of pieces is a change of lines: the
  lines are the same but for their columns and numbers, which is what `Line.placed` says.  So one
  lemma (`readChars_of_linesOf`) turns each of the three changes into the theorem about placed
  lines, and the work is to follow the numbers.
-/
import BlockQuery.Block.Writer
import BlockQuery.Proofs.Placement
import BlockQuery.Proofs.Rows

namespace BlockQuery.Block

open Text

variable {k : Nat} {ρ : Nat → Nat}

/-! ## Lines in another place

  One piece makes one line or none.  Spaces in front move the line, blanks behind do nothing, and
  the number is handed through. -/

/-- A piece behind spaces and in front of blanks makes the same line further right. -/
theorem line?_moved (k : Nat) (p : List Char) (number : Nat) :
    line? (moved k p) number = (line? p number).map (Line.placed k id) := by
  rw [moved]
  by_cases hempty : trimEnd p = []
  · have hblank : ∀ c ∈ List.replicate k ' ' ++ p, isBlank c = true :=
      List.forall_mem_append.2 ⟨fun _ => isBlank_of_mem_spaces, trimEnd_eq_nil_iff.1 hempty⟩
    rw [line?, line?, trimEnd_blanks hblank, hempty]
    rfl
  · have hspaces : ∀ c ∈ List.replicate k ' ', (c == ' ') = true := fun _ => beq_space_of_mem_spaces
    have hshown : trimEnd (List.replicate k ' ' ++ p) = List.replicate k ' ' ++ trimEnd p := by
      rw [trimEnd_append, if_neg hempty]
    have hcontent : withoutIndent (List.replicate k ' ' ++ trimEnd p) =
        withoutIndent (trimEnd p) :=
      List.dropWhile_append_of_pos hspaces
    have hleading : (leadingSpaces (List.replicate k ' ' ++ trimEnd p)).length =
        (leadingSpaces (trimEnd p)).length + k := by
      rw [leadingSpaces, List.takeWhile_append_of_pos hspaces, List.length_append,
        List.length_replicate, Nat.add_comm]
      rfl
    simp only [line?, hshown, hcontent, hleading]
    split <;> rfl

/-- The number of a piece is the number of its line. -/
theorem line?_renumber (ρ : Nat → Nat) (p : List Char) (number : Nat) :
    line? p (ρ number) = (line? p number).map (Line.placed 0 ρ) := by
  simp only [line?]
  split <;> rfl

/-- Blanks behind a piece do not count. -/
theorem line?_append_blank {blanks : List Char} (h : ∀ c ∈ blanks, isBlank c = true)
    (p : List Char) (number : Nat) : line? (p ++ blanks) number = line? p number := by
  simp only [line?, trimEnd_append_blank h]

/-- The numbers of lines count on from the number of the first piece. -/
theorem linesOf_add (number d : Nat) (ps : List (List Char)) :
    linesOf (number + d) ps = (linesOf number ps).map (Line.placed 0 (· + d)) := by
  induction ps generalizing number with
  | nil => rfl
  | cons p ps ih =>
    rw [linesOf_cons, linesOf_cons, line?_renumber (· + d), Nat.add_right_comm, ih,
      List.map_append]
    cases line? p number <;> rfl

/-- Moving all pieces moves all lines. -/
theorem linesOf_map_moved (k number : Nat) (ps : List (List Char)) :
    linesOf number (ps.map (moved k)) = (linesOf number ps).map (Line.placed k id) := by
  induction ps generalizing number with
  | nil => rfl
  | cons p ps ih =>
    rw [List.map_cons, linesOf_cons, linesOf_cons, line?_moved, ih, List.map_append]
    cases line? p number <;> rfl

/-- Markers are found by their text. -/
theorem dropWhile_marker_placed (ls : List Line) :
    ((ls.map (Line.placed k ρ)).dropWhile fun l => l.text == marker) =
      (ls.dropWhile fun l => l.text == marker).map (Line.placed k ρ) := by
  rw [List.dropWhile_map]
  rfl

/-- A text whose pieces make the lines of another text in another place is read like that text. -/
theorem readChars_of_linesOf {t t' : List Char}
    (h : linesOf 1 (pieces t') = (linesOf 1 (pieces t)).map (Line.placed k ρ)) :
    readChars t' = (readChars t).mapError (DocumentError.renumber ρ) := by
  have hlines : significantLines t' = (significantLines t).map (Line.placed k ρ) := by
    rw [significantLines_eq, h, dropWhile_marker_placed, significantLines_eq]
  rw [readChars, hlines, readLines_placed, readChars]

/-! ## Indented text

  The spaces go in front of every piece, the empty ones and the comments included, so no number
  changes. -/

/-- The text with `k` spaces in front of every piece. -/
def indented (k : Nat) (t : List Char) : List Char :=
  List.intercalate ['\n'] ((pieces t).map (moved k))

/-- The pieces of an indented text are the moved ones, since spaces bring no line feed. -/
theorem pieces_indented (k : Nat) (t : List Char) :
    pieces (indented k t) = (pieces t).map (moved k) := by
  refine pieces_intercalate (by simpa using pieces_ne_nil t) (List.forall_mem_map.2 fun p hp => ?_)
  simp only [moved, List.mem_append, List.mem_replicate, not_or]
  exact ⟨fun h => absurd h.2 (by decide), newline_not_mem_of_mem_pieces hp⟩

/-- So its lines are the moved lines. -/
theorem linesOf_pieces_indented (k number : Nat) (t : List Char) :
    linesOf number (pieces (indented k t)) =
      (linesOf number (pieces t)).map (Line.placed k id) := by
  rw [pieces_indented, linesOf_map_moved]

/-! ## Padded text

  A padding may differ from piece to piece, and the number of a piece in the new text is the sum of
  what was put in front of it and of those before.  A line at fault is looked up by that number, so
  the theorem says that an error can be traced to its place. -/

/-- What is put around a piece: pieces in front of it, and characters behind it. -/
structure Padding where
  before : List (List Char)
  behind : List Char

/-- Whether a padding says nothing: only fillers in front, only blanks behind. -/
structure Padding.Idle (pad : Padding) : Prop where
  fillers : ∀ p ∈ pad.before, Filler p
  blanks : ∀ c ∈ pad.behind, isBlank c = true
  no_newline : '\n' ∉ pad.behind

/-- The pieces from number `number` on, each with its padding; what would be in front of one piece
    more stands at the end. -/
def paddedFrom (pad : Nat → Padding) (number : Nat) : List (List Char) → List (List Char)
  | [] => (pad number).before
  | p :: ps => (pad number).before ++ (p ++ (pad number).behind) :: paddedFrom pad (number + 1) ps

/-- The text with a padding around each piece. -/
def padded (pad : Nat → Padding) (t : List Char) : List Char :=
  List.intercalate ['\n'] (paddedFrom pad 1 (pieces t))

/-- The number that a piece has in the padded text. -/
def paddedNumber (pad : Nat → Padding) : Nat → Nat
  | 0 => 0
  | n + 1 => paddedNumber pad n + (pad (n + 1)).before.length + 1

section Padded

variable {pad : Nat → Padding}

/-- The pieces of a padded text are the padded pieces, since a padding has no line feed in it. -/
theorem pieces_padded (hidle : ∀ n, (pad n).Idle) (t : List Char) :
    pieces (padded pad t) = paddedFrom pad 1 (pieces t) := by
  have hnewline : ∀ (ps : List (List Char)) number, (∀ p ∈ ps, '\n' ∉ p) →
      ∀ p ∈ paddedFrom pad number ps, '\n' ∉ p := by
    intro ps
    induction ps with
    | nil => exact fun number _ p hp => ((hidle number).fillers p hp).1
    | cons q ps ih =>
      intro number hps
      rw [List.forall_mem_cons] at hps
      rw [paddedFrom, List.forall_mem_append, List.forall_mem_cons]
      refine ⟨fun p hp => ((hidle number).fillers p hp).1, ?_, ih (number + 1) hps.2⟩
      rw [List.mem_append, not_or]
      exact ⟨hps.1, (hidle number).no_newline⟩
  refine pieces_intercalate ?_ (hnewline _ 1 fun p => newline_not_mem_of_mem_pieces)
  obtain ⟨p, ps, hps⟩ := List.exists_cons_of_ne_nil (pieces_ne_nil t)
  rw [hps, paddedFrom]
  simp

/-- The lines of padded pieces are the lines of the pieces, by their new numbers. -/
theorem linesOf_paddedFrom (hidle : ∀ n, (pad n).Idle) (ps : List (List Char)) (n : Nat) :
    linesOf (paddedNumber pad n + 1) (paddedFrom pad (n + 1) ps) =
      (linesOf (n + 1) ps).map (Line.placed 0 (paddedNumber pad)) := by
  induction ps generalizing n with
  | nil => exact linesOf_fillers (hidle _).fillers _
  | cons p ps ih =>
    have hnumber : paddedNumber pad n + 1 + (pad (n + 1)).before.length =
        paddedNumber pad (n + 1) := by
      rw [paddedNumber]
      omega
    rw [paddedFrom, linesOf_append, linesOf_fillers (hidle _).fillers, List.nil_append, hnumber,
      linesOf_cons, line?_append_blank (hidle _).blanks, ih, linesOf_cons, List.map_append,
      line?_renumber]
    cases line? p (n + 1) <;> rfl

/-- A piece stands in the padded pieces at its new number, with blanks behind it. -/
theorem exists_paddedFrom_append (pad : Nat → Padding) (ps : List (List Char)) (p : List Char)
    (qs : List (List Char)) (n : Nat) :
    ∃ front back,
      paddedFrom pad (n + 1) (ps ++ p :: qs) =
        front ++ (p ++ (pad (n + ps.length + 1)).behind) :: back ∧
      paddedNumber pad n + front.length + 1 = paddedNumber pad (n + ps.length + 1) := by
  induction ps generalizing n with
  | nil => exact ⟨_, _, rfl, rfl⟩
  | cons q ps ih =>
    obtain ⟨front, back, hpieces, hnumber⟩ := ih (n + 1)
    have hlength : n + (q :: ps).length + 1 = n + 1 + ps.length + 1 := by
      rw [List.length_cons]
      omega
    refine ⟨(pad (n + 1)).before ++ (q ++ (pad (n + 1)).behind) :: front, back, ?_, ?_⟩
    · rw [List.cons_append, paddedFrom, hpieces, hlength, List.append_assoc, List.cons_append]
    · rw [paddedNumber] at hnumber
      rw [hlength, ← hnumber, List.length_append, List.length_cons]
      omega

/-- The number of a line is the number of a piece. -/
theorem exists_piece_of_mem_linesOf {l : Line} {ps : List (List Char)} (h : l ∈ linesOf 1 ps) :
    ∃ before p after, ps = before ++ p :: after ∧ l.number = before.length + 1 := by
  obtain ⟨⟨p, number⟩, hmem, hline⟩ := List.mem_filterMap.1 h
  have hnumber : l.number = number := by
    simp only [line?] at hline
    split at hline
    · cases hline
    · exact (congrArg Line.number (Option.some.inj hline)).symm
  obtain ⟨hle, hlt, hp⟩ := List.mem_zipIdx hmem
  have hindex : number - 1 < ps.length := by omega
  refine ⟨ps.take (number - 1), p, ps.drop (number - 1 + 1), ?_, ?_⟩
  · rw [hp, ← List.drop_eq_getElem_cons hindex, List.take_append_drop]
  · rw [hnumber, List.length_take]
    omega

/-- A line at fault is found in the padded text by its new number. -/
theorem exists_piece_of_error (pad : Nat → Padding) {t : List Char} {e : DocumentError}
    (h : readChars t = .error e) :
    ∃ p, (pieces t)[e.line - 1]? = some p ∧
      (paddedFrom pad 1 (pieces t))[paddedNumber pad e.line - 1]? =
        some (p ++ (pad e.line).behind) := by
  obtain ⟨l, hl, hnumber⟩ := exists_line_of_error h
  rw [significantLines_eq] at hl
  obtain ⟨before, p, after, hps, hbefore⟩ :=
    exists_piece_of_mem_linesOf ((List.dropWhile_suffix _).subset hl)
  obtain ⟨front, back, hpadded, hfront⟩ := exists_paddedFrom_append pad before p after 0
  have hnew : paddedNumber pad e.line - 1 = front.length := by
    rw [← hnumber, hbefore, ← Nat.zero_add before.length, ← hfront, paddedNumber]
    omega
  refine ⟨p, ?_, ?_⟩
  · rw [hps, ← hnumber, hbefore, Nat.add_sub_cancel, List.getElem?_append_right (Nat.le_refl _),
      Nat.sub_self]
    rfl
  · rw [hnew, hps, hpadded, List.getElem?_append_right (Nat.le_refl _), Nat.sub_self, ← hnumber,
      hbefore, Nat.zero_add]
    rfl

end Padded

/-! ## Documents

  The changes may follow each other, as each is about any text. -/

/-- **What is read of a text depends on where its lines stand to each other, and on nothing else
    about their places**: spaces in front of all pieces change nothing.  Pieces that say nothing put
    in anywhere, and blanks put behind any piece, leave the value, or the error but for the number
    of its line; and by the new number one finds the line that was at fault. -/
theorem readChars_relative (t : List Char) :
    (∀ k, readChars (indented k t) = readChars t) ∧
      ∀ pad : Nat → Padding, (∀ n, (pad n).Idle) →
        readChars (padded pad t) =
            (readChars t).mapError (DocumentError.renumber (paddedNumber pad)) ∧
          ∀ e, readChars t = .error e →
            ∃ p, (pieces t)[e.line - 1]? = some p ∧
              (pieces (padded pad t))[paddedNumber pad e.line - 1]? =
                some (p ++ (pad e.line).behind) := by
  refine ⟨fun k => ?_, fun pad hidle => ⟨?_, fun e he => ?_⟩⟩
  · rw [readChars_of_linesOf (linesOf_pieces_indented k 1 t)]
    -- no number changes
    rcases readChars t with e | v
    · cases e <;> rfl
    · rfl
  · refine readChars_of_linesOf (k := 0) ?_
    rw [pieces_padded hidle]
    exact linesOf_paddedFrom hidle (pieces t) 0
  · rw [pieces_padded hidle]
    exact exists_piece_of_error pad he

/-- A scalar among elements, with a comment and an empty line in front of it and blanks behind. -/
theorem readChars_relative_mixed :
    let pad : Nat → Padding := fun n =>
      if n = 2 then ⟨[" # c".toList, []], [' ', '\t']⟩ else ⟨[], []⟩
    (∀ n, (pad n).Idle) ∧
      readChars "-\nb".toList = .error (.mixedBlock 2) ∧
      readChars "-\n # c\n\nb \t".toList = .error (.mixedBlock 4) := by
  intro pad
  have hidle : ∀ n, (pad n).Idle := by
    intro n
    simp only [pad]
    split
    · refine ⟨List.forall_mem_cons.2 ⟨?_, List.forall_mem_singleton.2 ?_⟩,
        List.all_eq_true.1 rfl, by decide⟩
      · exact ⟨by decide, Or.inr ⟨1, " c".toList, by decide⟩⟩
      · exact ⟨by simp, Or.inl (by simp)⟩
    · exact ⟨by simp, by simp, by simp⟩
  have hplain : readChars "-\nb".toList = .error (.mixedBlock 2) := by
    have hlines : significantLines "-\nb".toList = [⟨1, 0, ['-']⟩, ⟨2, 0, ['b']⟩] := by
      decide +kernel
    -- the first line is an element with nothing in it, the second is none
    have hitems : readItems 0 [⟨1, 0, ['-']⟩, ⟨2, 0, ['b']⟩] = .error (.mixedBlock 2) := by
      have hrest : readItems 0 [⟨2, 0, ['b']⟩] = .error (.mixedBlock 2) :=
        readItems_of_not_item (l := ⟨2, 0, ['b']⟩) rfl (by decide) []
      have hfirst := @readItems_append 0 ⟨1, 0, ['-']⟩ [] [⟨2, 0, ['b']⟩] rfl rfl (by simp)
        (by simp)
      rw [hrest, show dashBlock ⟨1, 0, ['-']⟩ [] = [] from rfl, readBelow] at hfirst
      exact hfirst
    rw [readChars, hlines, readLines_eq_readBelow (c := 0) (by decide) (by decide), readBelow_cons,
      readBlock_of_item rfl, hitems]
    rfl
  have hpadded : padded pad "-\nb".toList = "-\n # c\n\nb \t".toList := by decide +kernel
  have h := ((readChars_relative "-\nb".toList).2 pad hidle).1
  rw [hplain, hpadded] at h
  exact ⟨hidle, hplain, h⟩

end BlockQuery.Block

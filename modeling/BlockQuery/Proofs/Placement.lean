/-
  Lines in another place.

  The reader compares columns with each other and only hands line numbers on.  So lines that are
  all moved by the same number of columns, and numbered anew, are read as before; an error names
  the new number of its line (`placedAlike`).  The induction is on the weight of the lines,
  which being placed does not change; each function of the reader cuts placed lines where it cuts
  the lines themselves (`takeWhile_isDeeper_placed` and its companions).

  An error that follows every renumbering must name one of the lines (`exists_line_of_error`).

  Numbers and columns are moved in one step, because the two go together wherever a line is cut off:
  what is read of an element starts behind its dash, in a column and on a line of its own.  The
  renumbering is an arbitrary function, so the theorem also says what an error may depend on.
-/
import BlockQuery.Proofs.DistinctKeys

namespace BlockQuery

/-- The error with the number of its line exchanged. -/
def DocumentError.renumber (ρ : Nat → Nat) : DocumentError → DocumentError
  | unexpectedIndent n => unexpectedIndent (ρ n)
  | mixedBlock n => mixedBlock (ρ n)
  | unterminatedQuote n => unterminatedQuote (ρ n)

/-- Renumbering an error renumbers its line. -/
@[simp] theorem DocumentError.line_renumber (ρ : Nat → Nat) (e : DocumentError) :
    (e.renumber ρ).line = ρ e.line := by
  cases e <;> rfl

namespace Block

/-- The line moved to the right by `k` columns and with its number exchanged. -/
def Line.placed (k : Nat) (ρ : Nat → Nat) (l : Line) : Line :=
  ⟨ρ l.number, l.indent + k, l.text⟩

variable {k : Nat} {ρ : Nat → Nat} {c : Nat}

/-- The text of a line stays. -/
@[simp] theorem text_placed (l : Line) : (l.placed k ρ).text = l.text := rfl

/-- Its column is moved. -/
@[simp] theorem indent_placed (l : Line) : (l.placed k ρ).indent = l.indent + k := rfl

/-- Its number is exchanged. -/
@[simp] theorem number_placed (l : Line) : (l.placed k ρ).number = ρ l.number := rfl

/-! ## Cuts

  The reader cuts its lines at the first one that is not deeper than a column, or at the first one
  that does not belong below a key.  Both tests compare columns, and moving all of them by the same
  number changes no comparison. -/

/-- Moved lines are deeper than a moved column when they were before. -/
theorem isDeeper_placed (l : Line) : isDeeper (c + k) (l.placed k ρ) = isDeeper c l := by
  simp [isDeeper]

/-- The deeper lines that are cut off are the placed ones. -/
theorem takeWhile_isDeeper_placed (ls : List Line) :
    (ls.map (Line.placed k ρ)).takeWhile (isDeeper (c + k)) =
      (ls.takeWhile (isDeeper c)).map (Line.placed k ρ) := by
  rw [List.takeWhile_map]
  exact congrArg _ (congrArg (ls.takeWhile ·) (funext isDeeper_placed))

/-- So are those that are left. -/
theorem dropWhile_isDeeper_placed (ls : List Line) :
    (ls.map (Line.placed k ρ)).dropWhile (isDeeper (c + k)) =
      (ls.dropWhile (isDeeper c)).map (Line.placed k ρ) := by
  rw [List.dropWhile_map]
  exact congrArg _ (congrArg (ls.dropWhile ·) (funext isDeeper_placed))

/-- Whether a line belongs below a key is a question of columns and of its dash. -/
theorem belongsBelow_placed (rest : List Line) (l : Line) :
    belongsBelow (c + k) (rest.map (Line.placed k ρ)) (l.placed k ρ) = belongsBelow c rest l := by
  have hhead : (rest.map (Line.placed k ρ)).head?.any (isDeeper (c + k)) =
      rest.head?.any (isDeeper c) := by
    cases rest with
    | nil => rfl
    | cons m rest => exact isDeeper_placed m
  have hcolumn : (l.indent + k == c + k) = (l.indent == c) := by simp
  rw [belongsBelow, belongsBelow, hhead, isDeeper_placed, indent_placed, hcolumn, text_placed]

/-- What belongs below a key is cut off as it was. -/
theorem takeWhile_belongsBelow_placed (rest : List Line) :
    (rest.map (Line.placed k ρ)).takeWhile (belongsBelow (c + k) (rest.map (Line.placed k ρ))) =
      (rest.takeWhile (belongsBelow c rest)).map (Line.placed k ρ) := by
  rw [List.takeWhile_map]
  exact congrArg _ (congrArg (rest.takeWhile ·) (funext (belongsBelow_placed rest)))

/-- So is what is left behind it. -/
theorem dropWhile_belongsBelow_placed (rest : List Line) :
    (rest.map (Line.placed k ρ)).dropWhile (belongsBelow (c + k) (rest.map (Line.placed k ρ))) =
      (rest.dropWhile (belongsBelow c rest)).map (Line.placed k ρ) := by
  rw [List.dropWhile_map]
  exact congrArg _ (congrArg (rest.dropWhile ·) (funext (belongsBelow_placed rest)))

/-- The text behind a dash moves with its line. -/
theorem afterDash_placed (l : Line) :
    afterDash (l.placed k ρ) = (afterDash l).placed k ρ := by
  simp only [afterDash, Line.placed, Line.mk.injEq, true_and, and_true]
  omega

/-- The block of an element is the placed one. -/
theorem dashBlock_placed (l : Line) (below : List Line) :
    dashBlock (l.placed k ρ) (below.map (Line.placed k ρ)) =
      (dashBlock l below).map (Line.placed k ρ) := by
  rw [dashBlock, dashBlock, afterDash_placed, text_placed]
  split <;> rfl

/-- The texts of lines stay, as a scalar on several lines is read from them alone. -/
theorem map_text_placed (ls : List Line) :
    (ls.map (Line.placed k ρ)).map (·.text) = ls.map (·.text) := by
  rw [List.map_map]
  rfl

/-! ## Reading

  The three readers are compared at once, by strong induction on the weight of the lines.  For one
  line and those behind it there is a lemma for elements and one for entries; each assumes the claim
  for all lighter lines. -/

/-- A scalar is read the same on whatever line it stands. -/
theorem readScalarLines_renumber (number : Nat) (texts : List (List Char)) :
    readScalarLines (ρ number) texts =
      (readScalarLines number texts).mapError (DocumentError.renumber ρ) := by
  rw [readScalarLines, readScalarLines]
  cases readScalar? (List.intercalate [' '] texts) <;> rfl

/-- Whether placed lines are read as before, whatever is read of them; an error names the new number
    of its line. -/
structure PlacedAlike (k : Nat) (ρ : Nat → Nat) (ls : List Line) : Prop where
  items : ∀ c, readItems (c + k) (ls.map (Line.placed k ρ)) =
    (readItems c ls).mapError (DocumentError.renumber ρ)
  entries : ∀ c, readEntries (c + k) (ls.map (Line.placed k ρ)) =
    (readEntries c ls).mapError (DocumentError.renumber ρ)
  below : readBelow (ls.map (Line.placed k ρ)) =
    (readBelow ls).mapError (DocumentError.renumber ρ)

/-- Without lines nothing is read. -/
theorem placedAlike_nil : PlacedAlike k ρ [] where
  items c := by
    rw [List.map_nil, readItems, readItems]
    rfl
  entries c := by
    rw [List.map_nil, readEntries, readEntries]
    rfl
  below := by
    rw [List.map_nil, readBelow]
    rfl

section Cons

variable {l : Line} {rest : List Line}
  (ih : ∀ ms : List Line, weight ms < weight (l :: rest) → PlacedAlike k ρ ms)

include ih

/-- Elements are read alike when the lines below the first one, and those behind them, are. -/
theorem readItems_placed (c : Nat) :
    readItems (c + k) ((l :: rest).map (Line.placed k ρ)) =
      (readItems c (l :: rest)).mapError (DocumentError.renumber ρ) := by
  rw [List.map_cons]
  by_cases hcolumn : l.indent = c
  · have hcolumn' : (l.placed k ρ).indent = c + k := by rw [indent_placed, hcolumn]
    by_cases hitem : isItem l.text = true
    · have htake := weight_takeWhile_le (isDeeper c) rest
      have hdrop := weight_dropWhile_le (isDeeper c) rest
      have hdash := weight_dashBlock_lt hitem (rest.takeWhile (isDeeper c))
      simp only [weight] at ih hdash
      have hbelow := (ih (dashBlock l (rest.takeWhile (isDeeper c))) (by omega)).below
      have hbehind := (ih (rest.dropWhile (isDeeper c)) (by omega)).items c
      rw [readItems_cons hcolumn' hitem, readItems_cons hcolumn hitem, takeWhile_isDeeper_placed,
        dropWhile_isDeeper_placed, dashBlock_placed, hbelow, hbehind]
      simp only [mapError_bind]
      rfl
    · rw [readItems_of_not_item hcolumn' hitem, readItems_of_not_item hcolumn hitem]
      rfl
  · have hcolumn' : (l.placed k ρ).indent ≠ c + k := by rw [indent_placed]; omega
    rw [readItems_of_indent_ne hcolumn', readItems_of_indent_ne hcolumn]
    rfl

/-- Entries are read alike when the lines below the first one, and those behind them, are. -/
theorem readEntries_placed (c : Nat) :
    readEntries (c + k) ((l :: rest).map (Line.placed k ρ)) =
      (readEntries c (l :: rest)).mapError (DocumentError.renumber ρ) := by
  have hdeeper := weight_dropWhile_le (isDeeper c) rest
  have htake := weight_takeWhile_le (belongsBelow c rest) rest
  have hdrop := weight_dropWhile_le (belongsBelow c rest) rest
  simp only [weight] at ih
  have hinline := (ih (rest.dropWhile (isDeeper c)) (by omega)).entries c
  have hbelow := (ih (rest.takeWhile (belongsBelow c rest)) (by omega)).below
  have hbehind := (ih (rest.dropWhile (belongsBelow c rest)) (by omega)).entries c
  have hcolumn : (l.indent + k ≠ c + k) ↔ (l.indent ≠ c) := by omega
  rw [List.map_cons, readEntries_cons, readEntries_cons, takeWhile_isDeeper_placed,
    dropWhile_isDeeper_placed, takeWhile_belongsBelow_placed, dropWhile_belongsBelow_placed,
    map_text_placed, hbelow, hinline, hbehind]
  simp only [indent_placed, text_placed, number_placed, hcolumn, readScalarLines_renumber]
  -- what the line is does not depend on its place; only the steps hand numbers on
  split
  · rfl
  split
  · rfl
  split
  · rfl
  split
  · rfl
  split
  · simp only [mapError_bind]
    rfl
  · simp only [mapError_bind]
    rfl

/-- A block is a scalar, or elements or entries by its first line. -/
theorem PlacedAlike.cons : PlacedAlike k ρ (l :: rest) where
  items := readItems_placed ih
  entries := readEntries_placed ih
  below := by
    have hitems := readItems_placed ih l.indent
    have hentries := readEntries_placed ih l.indent
    rw [List.map_cons] at hitems hentries ⊢
    rw [readBelow_cons, readBelow_cons, readBlock, readBlock, text_placed, number_placed,
      indent_placed, hitems, hentries, map_text_placed, readScalarLines_renumber]
    split
    · rw [mapError_map]
    split
    · rw [mapError_map]
    · rfl

end Cons

/-- **Placed lines are read as before.**  Elements and entries are read from blocks and blocks from
    them, so the three go together, by the weight of the lines. -/
theorem placedAlike (ls : List Line) : PlacedAlike k ρ ls := by
  induction hw : weight ls using Nat.strong_induction_on generalizing ls with
  | _ n ih =>
    subst hw
    cases ls with
    | nil => exact placedAlike_nil
    | cons l rest => exact .cons fun ms hms => ih _ hms ms rfl

/-- The number of a line comes with its text: lines that are only moved are read alike. -/
theorem readLines_placed (ls : List Line) :
    readLines (ls.map (Line.placed k ρ)) =
      (readLines ls).mapError (DocumentError.renumber ρ) := by
  cases ls with
  | nil => rfl
  | cons l rest =>
    have hbelow := (placedAlike (k := k) (ρ := ρ) (l :: rest)).below
    have hfind : (rest.map (Line.placed k ρ)).find? (fun m => m.indent < (l.placed k ρ).indent) =
        (rest.find? fun m => m.indent < l.indent).map (Line.placed k ρ) := by
      rw [List.find?_map]
      refine congrArg _ (congrArg (rest.find? ·) (funext fun m => ?_))
      simp
    rw [List.map_cons, readBelow_cons, readBelow_cons] at hbelow
    rw [List.map_cons, readLines, readLines, hfind, hbelow]
    cases rest.find? fun m => m.indent < l.indent <;> rfl

/-- An error names one of the lines. -/
theorem exists_line_of_error {ls : List Line} {e : DocumentError} (h : readLines ls = .error e) :
    ∃ l ∈ ls, l.number = e.line := by
  classical
  -- numbers of lines stay, all others change
  let ρ : Nat → Nat := fun n => if n ∈ ls.map (·.number) then n else n + 1
  have hstay : ls.map (Line.placed 0 ρ) = ls := by
    refine (List.map_congr_left fun l hl => ?_).trans (List.map_id ls)
    have hnumber : ρ l.number = l.number := if_pos (List.mem_map_of_mem hl)
    rw [Line.placed, hnumber]
    rfl
  have hread := readLines_placed (k := 0) (ρ := ρ) ls
  rw [hstay, h] at hread
  have hline : e.line = ρ e.line :=
    (congrArg DocumentError.line (Except.error.inj hread)).trans (e.line_renumber ρ)
  by_contra hnone
  have hmem : e.line ∉ ls.map (·.number) := by simpa using hnone
  simp only [ρ, hmem, if_false] at hline
  omega

end Block

end BlockQuery

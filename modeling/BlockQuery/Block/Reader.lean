/-
  Reading block text.

  A block is a run of lines; its first line sets its indentation and says what it is: a sequence of
  elements, a mapping of entries, or a scalar that goes on over all its lines.  An element or entry
  owns the deeper lines behind it.  An element with text on its own line is a block of its own whose
  first line starts where that text starts, so the reader goes back to lines it has seen, less
  their dash: what shrinks from a block to the blocks in it is the sum of the lengths of its lines
  (`weight`), and on that the recursion is founded.
-/
import BlockQuery.Block.Key

namespace BlockQuery

/-- The reasons why a text is no document, each with the number of the line at fault. -/
inductive DocumentError where
  | unexpectedIndent (line : Nat)
  | mixedBlock (line : Nat)
  | unterminatedQuote (line : Nat)
deriving DecidableEq, Repr

/-- The number of the line at fault. -/
def DocumentError.line : DocumentError → Nat
  | unexpectedIndent n => n
  | mixedBlock n => n
  | unterminatedQuote n => n

/-- The wording of an error. -/
def DocumentError.message (e : DocumentError) : String :=
  let fault :=
    match e with
    | unexpectedIndent _ => "unexpected indentation"
    | mixedBlock _ => "cannot mix mapping entries and sequence elements in one block"
    | unterminatedQuote _ => "unterminated quoted string"
  "line " ++ toString e.line ++ ": " ++ fault

namespace Block

/-! ## The size of a block

  A line counts one more than its characters, so an empty line still weighs something and dropping
  it makes a block smaller. -/

/-- The characters of some lines, each line counting one more. -/
def weight : List Line → Nat
  | [] => 0
  | l :: ls => l.text.length + 1 + weight ls

/-- The lines up to some place weigh no more than all of them. -/
theorem weight_takeWhile_le (p : Line → Bool) (ls : List Line) :
    weight (ls.takeWhile p) ≤ weight ls := by
  induction ls with
  | nil => simp [weight]
  | cons l ls ih =>
    simp only [List.takeWhile_cons]
    split <;> simp only [weight] <;> omega

/-- The lines from some place on weigh no more than all of them. -/
theorem weight_dropWhile_le (p : Line → Bool) (ls : List Line) :
    weight (ls.dropWhile p) ≤ weight ls := by
  induction ls with
  | nil => simp [weight]
  | cons l ls ih =>
    simp only [List.dropWhile_cons]
    split <;> simp only [weight] <;> omega

/-! ## Lines and what they own

  What an element or entry owns is a run of lines behind its own, found by indentation alone: it
  ends at the first line that is not deeper.  One case is wider (`belongsBelow`): the sequence under
  a key may stand at the indentation of the key. -/

/-- Whether a line is deeper than an indentation. -/
def isDeeper (indent : Nat) (l : Line) : Bool :=
  indent < l.indent

/-- Whether a line belongs to an entry without a value on its own line.  Deeper lines do; if the
    line behind the entry is not deeper, the elements of a sequence at the same indentation do as
    well. -/
def belongsBelow (indent : Nat) (rest : List Line) (l : Line) : Bool :=
  if rest.head?.any (isDeeper indent) then isDeeper indent l
  else isDeeper indent l || (l.indent == indent && isItem l.text)

/-- The number of bytes that characters take in UTF-8. -/
def byteLength : List Char → Nat
  | [] => 0
  | c :: cs => c.utf8Size + byteLength cs

/-- The line that the text behind a dash makes: it starts where that text starts. -/
def afterDash (l : Line) : Line :=
  let rest := l.text.tail
  ⟨l.number, l.indent + 1 + byteLength (rest.takeWhile Text.isBlank), Text.trimStart rest⟩

/-- The line behind a dash is shorter than the line with it: the step on which the recursion from an
    element to the block in it is founded. -/
theorem length_afterDash_lt {l : Line} (h : isItem l.text = true) :
    (afterDash l).text.length < l.text.length := by
  have := Text.length_trimStart_le l.text.tail
  have : l.text ≠ [] := by intro h'; simp [h', isItem] at h
  have := List.length_pos_iff.2 this
  simp only [afterDash, List.length_tail] at *
  omega

/-- The scalar that some lines are together, folded into one text with single spaces. -/
def readScalarLines (number : Nat) (texts : List (List Char)) : Except DocumentError Value :=
  match readScalar? (List.intercalate [' '] texts) with
  | some v => .ok v
  | none => .error (.unterminatedQuote number)

/-! ## Blocks

  Four readers call each other.  A block chooses by its first line between elements, entries and a
  scalar; elements and entries are read in turn from the lines that the one before left over; and
  `readBelow` is a block that may be missing.  Their measure is the weight of the lines and, where a
  call passes its lines on unchanged, a rank: below a possible block stands the block, below the
  block its rows. -/

mutual
/-- The value of a block, which has at least one line. -/
def readBlock (first : Line) (rest : List Line) : Except DocumentError Value :=
  if isItem first.text then
    (readItems first.indent (first :: rest)).map .sequence
  else if (keyLine? first.text).isSome then
    (readEntries first.indent (first :: rest)).map fun es => .mapping (Entries.ofPairs es)
  else readScalarLines first.number (first.text :: rest.map (·.text))
termination_by (weight (first :: rest), 1)

/-- The value of the lines that an entry or an element owns, null if there are none. -/
def readBelow (ls : List Line) : Except DocumentError Value :=
  match ls with
  | [] => .ok .null
  | first :: rest => readBlock first rest
termination_by (weight ls, 2)

/-- The elements of a sequence at an indentation. -/
def readItems (indent : Nat) (ls : List Line) : Except DocumentError (List Value) :=
  match ls with
  | [] => .ok []
  | l :: rest =>
      if l.indent ≠ indent then .error (.unexpectedIndent l.number)
      else if h : isItem l.text then do
        have := length_afterDash_lt h
        let below := rest.takeWhile (isDeeper indent)
        let v ←
          if (afterDash l).text.isEmpty then readBelow below else readBlock (afterDash l) below
        let vs ← readItems indent (rest.dropWhile (isDeeper indent))
        return v :: vs
      else .error (.mixedBlock l.number)
termination_by (weight ls, 0)
decreasing_by
  all_goals
    refine Prod.Lex.left _ _ ?_
    have := weight_takeWhile_le (isDeeper indent) rest
    have := weight_dropWhile_le (isDeeper indent) rest
    simp only [weight]
    omega

/-- The entries of a mapping at an indentation. -/
def readEntries (indent : Nat) (ls : List Line) : Except DocumentError (List (String × Value)) :=
  match ls with
  | [] => .ok []
  | l :: rest =>
      if l.indent ≠ indent then .error (.unexpectedIndent l.number)
      else if isItem l.text then .error (.mixedBlock l.number)
      else
        match keyLine? l.text with
        | none => .error (.mixedBlock l.number)
        | some k =>
            match readKey? k.key with
            | none => .error (.unterminatedQuote l.number)
            | some key =>
                match k.inline with
                | some text => do
                    let below := rest.takeWhile (isDeeper indent)
                    let v ← readScalarLines l.number (text :: below.map (·.text))
                    let es ← readEntries indent (rest.dropWhile (isDeeper indent))
                    return (String.ofList key, v) :: es
                | none => do
                    let v ← readBelow (rest.takeWhile (belongsBelow indent rest))
                    let es ← readEntries indent (rest.dropWhile (belongsBelow indent rest))
                    return (String.ofList key, v) :: es
termination_by (weight ls, 0)
decreasing_by
  all_goals
    refine Prod.Lex.left _ _ ?_
    have := weight_dropWhile_le (isDeeper indent) rest
    have := weight_takeWhile_le (belongsBelow indent rest) rest
    have := weight_dropWhile_le (belongsBelow indent rest) rest
    simp only [weight]
    omega
end

/-! ## Documents

  A document is the block of its significant lines, at whatever indentation the first of them has.
  A line that is further out than the first one belongs to nothing and is reported here, before any
  block is read. -/

/-- The value of significant lines.  No line may be less indented than the first. -/
def readLines (ls : List Line) : Except DocumentError Value :=
  match ls with
  | [] => .ok .null
  | first :: rest =>
      match rest.find? fun l => l.indent < first.indent with
      | some l => .error (.unexpectedIndent l.number)
      | none => readBlock first rest

/-- The value of a text; one without significant lines holds null. -/
def readChars (cs : List Char) : Except DocumentError Value :=
  readLines (significantLines cs)

/-- The value of a scalar text that stands on a line. -/
def readScalar (text : String) (line : Nat) : Except DocumentError Value :=
  readScalarLines line [text.toList]

/-- The document that a block text holds. -/
def read (text : String) : Except DocumentError Value :=
  readChars text.toList

end Block

end BlockQuery

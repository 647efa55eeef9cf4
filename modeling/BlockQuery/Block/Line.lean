/-
  The significant lines of block text.

  A line ends at a line feed.  Blanks at its end do not count, nor do the spaces in front, except
  that their number is its indentation; lines that are empty then, and those that start with `#`,
  are left out, and so are the `---` lines before the first other line.  Every line keeps its
  number in the text.
-/
import BlockQuery.Text.Blank

namespace BlockQuery.Block

/-- A line that counts: its number from 1, its indentation, and its text without blanks at the
    ends. -/
structure Line where
  number : Nat
  indent : Nat
  text : List Char
deriving DecidableEq, Repr

/-- The pieces of a text between its line feeds. -/
def pieces : List Char → List (List Char)
  | [] => [[]]
  | c :: cs =>
      if c = '\n' then [] :: pieces cs
      else
        match pieces cs with
        | [] => [[c]]
        | piece :: rest => (c :: piece) :: rest

/-- The spaces in front of a text. -/
def leadingSpaces (cs : List Char) : List Char :=
  cs.takeWhile (· == ' ')

/-- The text behind its leading spaces. -/
def withoutIndent (cs : List Char) : List Char :=
  cs.dropWhile (· == ' ')

/-- Whether a text, without blanks at its ends, says nothing. -/
def isInsignificant (content : List Char) : Bool :=
  content.head?.all (· == '#')

/-- The line that a piece of text makes, if it counts. -/
def line? (piece : List Char) (number : Nat) : Option Line :=
  let shown := Text.trimEnd piece
  let content := withoutIndent shown
  if isInsignificant content then none
  else some ⟨number, (leadingSpaces shown).length, content⟩

/-- The marker that may stand in front of a document and stands between documents. -/
def marker : List Char := ['-', '-', '-']

/-- The lines of a text that count. -/
def significantLines (cs : List Char) : List Line :=
  let lines := ((pieces cs).zipIdx 1).filterMap fun p => line? p.1 p.2
  lines.dropWhile fun l => l.text == marker

/-- Whether a text stands for an element of a sequence: a dash, alone or before a space. -/
def isItem : List Char → Bool
  | ['-'] => true
  | '-' :: ' ' :: _ => true
  | _ => false

end BlockQuery.Block

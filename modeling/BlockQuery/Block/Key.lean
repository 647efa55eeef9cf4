/-
  The lines that are entries of a mapping, and the text of keys.

  An entry is a key, a colon, and either nothing more or a blank and a text.  Its key is quoted, and
  then ends at the closing quote, or it is plain, and then ends at the first colon of the line.
-/
import BlockQuery.Block.Scalar

namespace BlockQuery.Block

/-- A line taken apart at the colon of its key.  The key is as written, quotes included. -/
structure KeyLine where
  key : List Char
  inline : Option (List Char)
deriving DecidableEq, Repr

/-! ## Keys as written

  A line is split before anything in it is decoded.  The splitters of quoted keys look for the
  closing quote only; what stands between the quotes is kept as written and decoded later, by
  `readKey?`, with rules of its own. -/

/-- Splits what follows an opening double quote behind the closing one.  A backslash hides the
    character after it. -/
def splitDouble? : List Char → Option (List Char × List Char)
  | [] => none
  | '"' :: cs => some (['"'], cs)
  | ['\\'] => none
  | '\\' :: c :: cs => (splitDouble? cs).map fun p => ('\\' :: c :: p.1, p.2)
  | c :: cs => (splitDouble? cs).map fun p => (c :: p.1, p.2)

/-- Splits what follows an opening single quote behind the closing one.  Two quotes in a row do not
    close. -/
def splitSingle? : List Char → Option (List Char × List Char)
  | [] => none
  | '\'' :: '\'' :: cs => (splitSingle? cs).map fun p => ('\'' :: '\'' :: p.1, p.2)
  | '\'' :: cs => some (['\''], cs)
  | c :: cs => (splitSingle? cs).map fun p => (c :: p.1, p.2)

/-- The characters that start no plain key, apart from a dash before a word. -/
def keyIndicators : List Char := ['"', '\'', '#', '[', ']', '{', '}', ':', '-']

/-- Whether a plain key may start like this. -/
def startsPlainKey : List Char → Bool
  | [] => false
  | '-' :: c :: _ => !Text.isBlank c && c != ':'
  | c :: _ => !Text.isBlank c && !keyIndicators.contains c

/-- Splits a line behind its key. -/
def splitKey? (cs : List Char) : Option (List Char × List Char) :=
  match cs with
  | '"' :: inner => (splitDouble? inner).map fun p => ('"' :: p.1, p.2)
  | '\'' :: inner => (splitSingle? inner).map fun p => ('\'' :: p.1, p.2)
  | cs =>
      if startsPlainKey cs then
        some (Text.trimEnd (cs.takeWhile (· != ':')), cs.dropWhile (· != ':'))
      else none

/-- The text behind a colon, if nothing or a blank follows the colon.  No text is left when there
    are only blanks. -/
def inlineText? : List Char → Option (Option (List Char))
  | [] => some none
  | c :: cs =>
      if Text.isBlank c then
        let text := Text.trim cs
        some (if text.isEmpty then none else some text)
      else none

/-- The entry that a line is, if it is one. -/
def keyLine? (cs : List Char) : Option KeyLine :=
  (splitKey? cs).bind fun p =>
    match Text.trimStart p.2 with
    | ':' :: rest => (inlineText? rest).map fun inline => ⟨p.1, inline⟩
    | _ => none

/-! ## Keys as text

  A plain key is its own text less the blanks around it.  Writing quotes a key where it quotes a
  string (`needsQuoting`), and also for the two characters that end a plain key or start a
  comment. -/

/-- The key that is written like this; none if its quote does not close. -/
def readKey? (cs : List Char) : Option (List Char) :=
  match readQuoted cs with
  | .closed content => some content
  | .unterminated => none
  | .notQuoted => some (Text.trim cs)

/-- How a key is written: in quotes also when it holds a colon or `#`. -/
def renderKey (cs : List Char) : List Char :=
  if cs.contains ':' || cs.contains '#' || needsQuoting cs then Text.quote cs else cs

end BlockQuery.Block

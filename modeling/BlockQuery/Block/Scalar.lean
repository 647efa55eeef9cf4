/-
  Scalars in block text.

  A scalar is quoted or plain.  `readQuoted` decodes both quoted forms and tells a text that only
  starts like one (something follows the closing quote) from one that never closes.
  `plainScalar?` knows the plain texts that are not strings; every other text is a string as it
  stands.  `renderScalar` writes a scalar, in quotes exactly when `needsQuoting` says that the plain
  text would not be read back.
-/
import BlockQuery.Block.Line
import BlockQuery.Decimal.Text
import BlockQuery.Text.Escape
import BlockQuery.Value.Basic
import BlockQuery.Value.Json

namespace BlockQuery.Block

/-! ## Quoted text

  Both readers decode on the way to the first closing quote, and anything that stands behind that
  quote makes the text plain again: the three outcomes are those of one recursion. -/

/-- What a text is as a quoted scalar. -/
inductive Quoted where
  | closed (content : List Char)
  | notQuoted
  | unterminated
deriving DecidableEq, Repr

/-- Puts decoded characters in front of the content. -/
def Quoted.prepend (front : List Char) : Quoted → Quoted
  | closed content => closed (front ++ content)
  | notQuoted => notQuoted
  | unterminated => unterminated

/-- The character that four digits behind `\u` name.  A plus sign may stand for the first digit; a
    surrogate is no character. -/
def unicodeChar? (hex : List Char) : Option Char :=
  let digits :=
    match hex with
    | '+' :: digits => digits
    | digits => digits
  (Text.hexNumber? 0 digits).bind fun n =>
    if n.isValidChar then some (Char.ofNat n) else none

/-- The decoded form of `\u` and four characters; what names no character stays as it is. -/
def decodeUnicode (hex : List Char) : List Char :=
  match unicodeChar? hex with
  | some c => [c]
  | none => '\\' :: 'u' :: hex

/-- The decoded form of a backslash and one other character. -/
def decodeEscape (c : Char) : List Char :=
  match c with
  | 'n' => ['\n']
  | 't' => ['\t']
  | 'r' => ['\r']
  | '"' => ['"']
  | '\\' => ['\\']
  | '/' => ['/']
  | c => ['\\', c]

/-- Decodes what follows an opening double quote. -/
def readDouble : List Char → Quoted
  | [] => .unterminated
  | ['"'] => .closed []
  | '"' :: _ :: _ => .notQuoted
  | ['\\'] => .unterminated
  | '\\' :: 'u' :: a :: b :: c :: d :: cs =>
      (readDouble cs).prepend (decodeUnicode [a, b, c, d])
  | '\\' :: c :: cs =>
      if c = 'u' then .unterminated else (readDouble cs).prepend (decodeEscape c)
  | c :: cs => (readDouble cs).prepend [c]

/-- Decodes what follows an opening single quote; a doubled quote stands for one. -/
def readSingle : List Char → Quoted
  | [] => .unterminated
  | ['\''] => .closed []
  | '\'' :: '\'' :: cs => (readSingle cs).prepend ['\'']
  | '\'' :: _ :: _ => .notQuoted
  | c :: cs => (readSingle cs).prepend [c]

/-- Decodes a text that may be quoted. -/
def readQuoted : List Char → Quoted
  | '"' :: cs => readDouble cs
  | '\'' :: cs => readSingle cs
  | _ => .notQuoted

/-! ## Plain text

  A text is looked up among the words, then tried as a number.  A text with the form of a number
  that is out of range is a string like any other. -/

/-- The parts of a number in a document: its sign, the digits before the point, those after it. -/
def numberParts? (cs : List Char) : Option (Bool × List Char × List Char) :=
  let (negative, cs) :=
    match cs with
    | '-' :: cs => (true, cs)
    | cs => (false, cs)
  let whole := cs.takeWhile Char.isDigit
  if Decimal.isWhole whole then
    match cs.dropWhile Char.isDigit with
    | [] => some (negative, whole, [])
    | '.' :: fraction =>
        if !fraction.isEmpty && fraction.all Char.isDigit then some (negative, whole, fraction)
        else none
    | _ => none
  else none

/-- The number that a text denotes, if it has the form of one and is in range. -/
def plainNumber? (cs : List Char) : Option Decimal :=
  (numberParts? cs).bind fun p => Decimal.ofDigits? p.1 p.2.1 p.2.2

/-- The value of a plain text that is not a string. -/
def plainScalar? (cs : List Char) : Option Value :=
  if cs = Text.trueWord then some (.boolean true)
  else if cs = Text.falseWord then some (.boolean false)
  else if cs = Text.nullWord ∨ cs = ['~'] then some .null
  else if cs = ['[', ']'] then some (.sequence [])
  else if cs = ['{', '}'] then some (.mapping [])
  else (plainNumber? cs).map .number

/-- The value of a scalar; none if its quote does not close. -/
def readScalar? (cs : List Char) : Option Value :=
  match readQuoted cs with
  | .closed content => some (.string (String.ofList content))
  | .unterminated => none
  | .notQuoted => some ((plainScalar? cs).getD (.string (String.ofList cs)))

/-! ## Writing

  Most conditions of `needsQuoting` are those under which a reader would take the plain text for
  something else: a comment, a quoted text, an element, an entry, the marker between documents or a
  value that is no string.  The others keep blanks at the ends and control characters, or are there
  for other readers of such text, as most of the indicators are. -/

/-- The characters that start no plain string. -/
def indicators : List Char :=
  ['#', '"', '\'', '[', '{', '&', '*', '!', '|', '>', '%', '@', '\x60']

/-- Whether `a` stands right before `b` somewhere. -/
def hasPair (a b : Char) : List Char → Bool
  | c :: d :: cs => (c == a && d == b) || hasPair a b (d :: cs)
  | _ => false

/-- Whether a string has to be quoted to be read back as the same string. -/
def needsQuoting (cs : List Char) : Bool :=
  cs.isEmpty || cs == marker || cs != Text.trim cs || cs.any Text.isControl ||
    cs.head?.any (indicators.contains ·) || isItem cs || hasPair ':' ' ' cs ||
    cs.getLast? == some ':' || hasPair ' ' '#' cs || (plainScalar? cs).isSome

/-- A string as a scalar. -/
def renderString (cs : List Char) : List Char :=
  if needsQuoting cs then Text.quote cs else cs

/-- A value on one line; of collections only the empty ones have one. -/
def renderScalar : Value → List Char
  | .null => Text.nullWord
  | .boolean b => Text.booleanWord b
  | .number n => n.chars
  | .string s => renderString s.toList
  | .sequence _ => ['[', ']']
  | .mapping _ => ['{', '}']

end BlockQuery.Block

/-
  Values as JSON text.

  `toJson` writes a value on one line with no blanks outside strings; `toPrettyJson` gives every
  element and entry a line of its own, indented by two spaces a level, and keeps empty collections
  closed up.  Entries come in their order and numbers with their own digits.

  Both forms are written by one recursion on the value.  A comma stands behind an element unless it
  is the last, so each list of elements can be opened at its head, which is how the proofs about the
  text go through it.

  Both forms are written by one recursion on the value.  A comma stands behind an element unless it
  is the last, so each list of elements can be opened at its head, which is how the proofs about the
  text go through it.
-/
import BlockQuery.Decimal.Text
import BlockQuery.Text.Escape
import BlockQuery.Value.Basic

namespace BlockQuery.Value

open Text (quote)

/-! ## Compact

  Nothing in compact text but a string can hold a blank, and a line feed is escaped there, so a
  value never takes more than one line. -/

mutual
/-- The compact JSON of a value as characters. -/
def jsonChars : Value → List Char
  | null => Text.nullWord
  | boolean b => Text.booleanWord b
  | number n => n.chars
  | string s => quote s.toList
  | sequence items => '[' :: (jsonItems items ++ [']'])
  | mapping es => '{' :: (jsonEntries es ++ ['}'])
termination_by structural v => v

/-- Elements with commas between them. -/
def jsonItems : List Value → List Char
  | [] => []
  | v :: vs => jsonChars v ++ (if vs.isEmpty then [] else ',' :: jsonItems vs)
termination_by structural items => items

/-- Entries with commas between them. -/
def jsonEntries : List (String × Value) → List Char
  | [] => []
  | (k, v) :: es =>
      quote k.toList ++ ':' :: jsonChars v ++ (if es.isEmpty then [] else ',' :: jsonEntries es)
termination_by structural es => es
end

/-- The JSON of a value on one line. -/
def toJson (v : Value) : String :=
  String.ofList v.jsonChars

/-- One line of JSON for each value. -/
def streamToJson (values : List Value) : String :=
  String.ofList (List.intercalate ['\n'] (values.map jsonChars))

/-! ## Pretty

  The level is that of the line on which the value starts: its own first character is not indented,
  and its closing bracket stands at that level again. -/

/-- The spaces in front of a line at a level. -/
def jsonIndent (level : Nat) : List Char :=
  List.replicate (2 * level) ' '

mutual
/-- The pretty JSON of a value that stands at `level`. -/
def prettyChars (level : Nat) : Value → List Char
  | null => Text.nullWord
  | boolean b => Text.booleanWord b
  | number n => n.chars
  | string s => quote s.toList
  | sequence items =>
      if items.isEmpty then ['[', ']']
      else '[' :: '\n' :: prettyItems level items ++ jsonIndent level ++ [']']
  | mapping es =>
      if es.isEmpty then ['{', '}']
      else '{' :: '\n' :: prettyEntries level es ++ jsonIndent level ++ ['}']
termination_by structural v => v

/-- The lines of the elements, each with its line feed. -/
def prettyItems (level : Nat) : List Value → List Char
  | [] => []
  | v :: vs =>
      jsonIndent (level + 1) ++ prettyChars (level + 1) v ++
        (if vs.isEmpty then ['\n'] else ',' :: '\n' :: prettyItems level vs)
termination_by structural items => items

/-- The lines of the entries, each with its line feed. -/
def prettyEntries (level : Nat) : List (String × Value) → List Char
  | [] => []
  | (k, v) :: es =>
      jsonIndent (level + 1) ++ quote k.toList ++ ':' :: ' ' :: prettyChars (level + 1) v ++
        (if es.isEmpty then ['\n'] else ',' :: '\n' :: prettyEntries level es)
termination_by structural es => es
end

/-- The JSON of a value over several lines. -/
def toPrettyJson (v : Value) : String :=
  String.ofList (prettyChars 0 v)

end BlockQuery.Value

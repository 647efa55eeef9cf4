/-
  Writing block text.

  A value takes the lines `blockLines` gives, which start at column 0; inside another value the same
  lines stand further right.  A collection below a key is moved by the chosen step.  A collection in
  a sequence is moved by two columns, and its first line hangs behind the dash.
-/
import BlockQuery.Block.Key

namespace BlockQuery.Block

/-- The line moved to the right by `n` columns. -/
def moved (n : Nat) (line : List Char) : List Char :=
  List.replicate n ' ' ++ line

/-- Lines moved by two columns, with a dash in front of the first. -/
def dashed : List (List Char) → List (List Char)
  | [] => []
  | first :: rest => ('-' :: ' ' :: first) :: rest.map (moved 2)

mutual
/-- The lines of a value, a collection below a key being moved by `step` columns. -/
def blockLines (step : Nat) : Value → List (List Char)
  | .sequence items =>
      if items.isEmpty then [renderScalar (.sequence items)] else itemLines step items
  | .mapping es =>
      if es.isEmpty then [renderScalar (.mapping es)] else entryLines step es
  | .null => [renderScalar .null]
  | .boolean b => [renderScalar (.boolean b)]
  | .number n => [renderScalar (.number n)]
  | .string s => [renderScalar (.string s)]
termination_by structural v => v

/-- The lines of the elements of a sequence. -/
def itemLines (step : Nat) : List Value → List (List Char)
  | [] => []
  | v :: vs => dashed (blockLines step v) ++ itemLines step vs
termination_by structural items => items

/-- The lines of the entries of a mapping. -/
def entryLines (step : Nat) : List (String × Value) → List (List Char)
  | [] => []
  | (k, v) :: es =>
      (if v.isBlock then
        (renderKey k.toList ++ [':']) :: (blockLines step v).map (moved step)
      else [renderKey k.toList ++ ':' :: ' ' :: renderScalar v]) ++ entryLines step es
termination_by structural es => es
end

/-- The block text of a value as characters; a step is at least 1. -/
def chars (step : Nat) (v : Value) : List Char :=
  List.intercalate ['\n'] (blockLines (max step 1) v)

/-- The step of block text when none is chosen. -/
def defaultStep : Nat := 2

/-- The block text of a value. -/
def write (step : Nat) (v : Value) : String :=
  String.ofList (chars step v)

end BlockQuery.Block

/-
  JSON text as a tree, and the tree as a value.

  `Json.ofChars?` reads one JSON text: nothing but blanks stands around the value, no comma is left
  over, and at most 127 containers are nested.  `Json.toValue` then turns numbers into decimals,
  which fails for a number out of range.  A member whose key comes again is replaced while the
  tree is read, before its numbers are looked at.

  The readers recurse on the length of the text.  A container is entered behind its bracket, hence
  with a shorter text; from a list of elements to its first element the text stays the same, and the
  second part of the measure goes down instead.  The depth that is left is an argument and not part
  of the measure: it only decides whether one more container may be opened.
-/
import BlockQuery.Json.Lexical
import BlockQuery.Value.Basic

namespace BlockQuery

/-- A JSON text. -/
inductive Json where
  | null
  | boolean (b : Bool)
  | number (n : JsonNumber)
  | string (s : String)
  | array (items : List Json)
  | object (members : List (String × Json))
deriving Repr, Inhabited

namespace Json

/-! ## Reading

  Blanks are skipped in front of a mark or a value and never behind one, so a reader that has taken
  its part leaves the blanks to whoever comes next.  All readers return `Taken`, and the proofs in
  them only add up that each part is shorter than what it was read from. -/

/-- The most containers that may be nested. -/
def maxNesting : Nat := 127

/-- A character of punctuation, with blanks in front of it. -/
def readMark? (mark : Char) (cs : List Char) : Option (Taken Char Unit cs.length) :=
  (takeFirst? (fun c => if c = mark then some () else none) (skip cs)).map
    (·.widen (length_skip_le cs))

/-- The words of JSON. -/
def word? (letters : List Char) : Option Json :=
  if letters = Text.nullWord then some null
  else if letters = Text.trueWord then some (boolean true)
  else if letters = Text.falseWord then some (boolean false)
  else none

/-- A word: all the letters at the front. -/
def readWord? (cs : List Char) : Option (Taken Char Json cs.length) :=
  match takeFirst? (fun c => if c.isAlpha then some c else none) cs with
  | none => none
  | some first =>
      (word? (first.value :: first.rest.takeWhile Char.isAlpha)).map fun j =>
        ⟨j, first.rest.dropWhile Char.isAlpha,
          Nat.lt_of_le_of_lt (List.dropWhile_suffix Char.isAlpha).length_le first.shorter⟩

/-- A value that is no container, without blanks in front of it. -/
def readScalar? (cs : List Char) : Option (Taken Char Json cs.length) :=
  match readMark? '"' cs with
  | some quote => do
      let s ← readString? quote.rest
      return (s.map fun s => string (String.ofList s)).widen (Nat.le_of_lt quote.shorter)
  | none =>
      match readWord? cs with
      | some w => some w
      | none => (readNumber? cs).map (·.map number)

mutual
/-- A value, with blanks in front of it and at most `depth` containers nested. -/
def readValue? (depth : Nat) (cs : List Char) : Option (Taken Char Json cs.length) :=
  match readMark? '[' cs with
  | some bracket =>
      match depth with
      | 0 => none
      | depth + 1 =>
          match readMark? ']' bracket.rest with
          | some close =>
              some ((close.map fun _ => array []).widen (Nat.le_of_lt bracket.shorter))
          | none => do
              let items ← readItems? depth bracket.rest
              return (items.map array).widen (Nat.le_of_lt bracket.shorter)
  | none =>
      match readMark? '{' cs with
      | some brace =>
          match depth with
          | 0 => none
          | depth + 1 =>
              match readMark? '}' brace.rest with
              | some close =>
                  some ((close.map fun _ => object []).widen (Nat.le_of_lt brace.shorter))
              | none => do
                  let members ← readMembers? depth brace.rest
                  return (members.map fun ms => object (Entries.ofPairs ms)).widen
                    (Nat.le_of_lt brace.shorter)
      | none => (readScalar? (skip cs)).map (·.widen (length_skip_le cs))
termination_by (cs.length, 1)
decreasing_by
  · exact Prod.Lex.left _ _ bracket.shorter
  · exact Prod.Lex.left _ _ brace.shorter

/-- Elements with commas between them, up to the closing bracket. -/
def readItems? (depth : Nat) (cs : List Char) : Option (Taken Char (List Json) cs.length) := do
  let item ← readValue? depth cs
  match readMark? ',' item.rest with
  | some comma =>
      let more ← readItems? depth comma.rest
      return (more.map (item.value :: ·)).widen (by
        have := item.shorter; have := comma.shorter; omega)
  | none =>
      let close ← readMark? ']' item.rest
      return (close.map fun _ => [item.value]).widen (Nat.le_of_lt item.shorter)
termination_by (cs.length, 2)
decreasing_by
  · exact Prod.Lex.right _ (by decide)
  · exact Prod.Lex.left _ _ (Nat.lt_trans comma.shorter item.shorter)

/-- Members with commas between them, up to the closing brace. -/
def readMembers? (depth : Nat) (cs : List Char) :
    Option (Taken Char (List (String × Json)) cs.length) := do
  let quote ← readMark? '"' cs
  let key ← readString? quote.rest
  let colon ← readMark? ':' key.rest
  let value ← readValue? depth colon.rest
  let member := (String.ofList key.value, value.value)
  match readMark? ',' value.rest with
  | some comma =>
      let more ← readMembers? depth comma.rest
      return (more.map (member :: ·)).widen (by
        have := quote.shorter; have := key.shorter; have := colon.shorter
        have := value.shorter; have := comma.shorter; omega)
  | none =>
      let close ← readMark? '}' value.rest
      return (close.map fun _ => [member]).widen (by
        have := quote.shorter; have := key.shorter; have := colon.shorter
        have := value.shorter; omega)
termination_by (cs.length, 2)
decreasing_by
  · refine Prod.Lex.left _ _ ?_
    have := quote.shorter; have := key.shorter; have := colon.shorter; omega
  · refine Prod.Lex.left _ _ ?_
    have := quote.shorter; have := key.shorter; have := colon.shorter
    have := value.shorter; have := comma.shorter; omega
end

/-- One JSON text with nothing but blanks around it. -/
def ofChars? (cs : List Char) : Option Json :=
  match readValue? maxNesting cs with
  | none => none
  | some t => if (skip t.rest).isEmpty then some t.value else none

/-! ## As a value -/

mutual
/-- The value of a tree, or the first number in it that no decimal holds. -/
def toValue : Json → Except JsonNumber Value
  | null => .ok .null
  | boolean b => .ok (.boolean b)
  | number n =>
      match n.decimal? with
      | some d => .ok (.number d)
      | none => .error n
  | string s => .ok (.string s)
  | array items => (itemValues items).map .sequence
  | object members => (memberValues members).map fun es => .mapping (Entries.ofPairs es)
termination_by structural j => j

/-- The values of elements, or the first number among them that no decimal holds. -/
def itemValues : List Json → Except JsonNumber (List Value)
  | [] => .ok []
  | j :: js => do
      let v ← toValue j
      let vs ← itemValues js
      return v :: vs
termination_by structural js => js

/-- The entries of members.  In a tree that was read their keys are distinct already; `ofPairs` in
    `toValue` makes them so in every tree. -/
def memberValues : List (String × Json) → Except JsonNumber (List (String × Value))
  | [] => .ok []
  | (k, j) :: ms => do
      let v ← toValue j
      let es ← memberValues ms
      return (k, v) :: es
termination_by structural ms => ms
end

end Json

end BlockQuery

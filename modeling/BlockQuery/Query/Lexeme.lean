/-
  Lexemes: the tokens of a query with their places, and the fault where reading them stops.

  Between tokens stand gaps, which are blanks and `#` comments up to the end of the line.  A token
  is read from its first characters alone (`readToken`), always the longest that fits.  A text
  that is no token ends the reading with a fault; what comes behind it is not looked at.
-/
import BlockQuery.Query.Token
import BlockQuery.Taken
import BlockQuery.Text.Blank
import BlockQuery.Text.Letter

namespace BlockQuery

/-- The reasons why a text is no token. -/
inductive LexFault where
  | badEscape (c : Char)
  | unterminatedString
  | numberOutOfRange (digits : String)
  | loneBang
  | unexpectedChar (c : Char)
deriving DecidableEq, Repr

/-- The wording of a fault. -/
def LexFault.message : LexFault → String
  | badEscape c => "invalid escape sequence \\" ++ String.ofList [c]
  | unterminatedString => "unterminated string"
  | numberOutOfRange digits => "number " ++ digits ++ " is out of range"
  | loneBang => "unexpected '!' (did you mean '!='?)"
  | unexpectedChar c => "unexpected character '" ++ String.ofList [c] ++ "'"

/-- The wording of a place in a query. -/
def columnText (offset : Nat) : String :=
  "column " ++ toString (offset + 1)

/-- A fault with the number of characters in front of it. -/
structure LexError where
  fault : LexFault
  offset : Nat
deriving DecidableEq, Repr

/-- The wording of a fault with its place. -/
def LexError.message (e : LexError) : String :=
  e.fault.message ++ " at " ++ columnText e.offset

/-- A token with its place: the number of characters in front of it, and the number of characters up
    to its end. -/
structure Lexeme where
  token : Token
  offset : Nat
  stop : Nat
deriving DecidableEq, Repr

/-- The tokens of a query, and the fault that ended them, if one did. -/
structure Lexemes where
  list : List Lexeme
  fault : Option LexError
deriving DecidableEq, Repr

namespace Lexeme

/-! ## Gaps

  A comment ends with its line and a gap may hold several, so the two functions call each other.
  Nothing is counted here: the place of the next token is what the length of the rest says. -/

mutual
/-- Drops the blanks and comments at the front. -/
def skipGap : List Char → List Char
  | [] => []
  | c :: cs =>
      if Text.isBlank c then skipGap cs
      else if c = '#' then skipComment cs
      else c :: cs
termination_by structural cs => cs

/-- Drops the rest of a comment and the gap behind it. -/
def skipComment : List Char → List Char
  | [] => []
  | c :: cs => if c = '\n' then skipGap cs else skipComment cs
termination_by structural cs => cs
end

mutual
/-- Skipping a gap makes a text no longer, which is all that the recursion of `scanFrom` needs to
    know.  By mutual induction with the same fact for a comment. -/
theorem length_skipGap_le : (cs : List Char) → (skipGap cs).length ≤ cs.length
  | [] => Nat.le_refl _
  | c :: cs => by
      have gap := length_skipGap_le cs
      have comment := length_skipComment_le cs
      unfold skipGap
      split
      · simp only [List.length_cons]; omega
      · split
        · simp only [List.length_cons]; omega
        · exact Nat.le_refl _

/-- Leaving a comment makes a text no longer. -/
theorem length_skipComment_le : (cs : List Char) → (skipComment cs).length ≤ cs.length
  | [] => Nat.le_refl _
  | c :: cs => by
      have gap := length_skipGap_le cs
      have comment := length_skipComment_le cs
      unfold skipComment
      split <;> simp only [List.length_cons] <;> omega
end

/-! ## Tokens

  Each reader gets the text behind the character that chose it and returns the rest with a proof
  that it is shorter (`Taken`).  Every token is the longest that its first characters allow, so no
  reader looks at what the token before it was.  A fault carries the rest at the place where it was
  found; how far that place is from the start is worked out once, in `scanFrom`. -/

/-- A fault, and the rest of the query from the place of the fault on. -/
abbrev Fault := LexFault × List Char

/-- The character that a letter stands for behind a backslash. -/
def escaped? : Char → Option Char
  | 'n' => some '\n'
  | 't' => some '\t'
  | 'r' => some '\r'
  | '"' => some '"'
  | '\'' => some '\''
  | '\\' => some '\\'
  | _ => none

/-- Reads a string behind its opening quote. -/
def readString (quote : Char) : (cs : List Char) → Except Fault (Taken Char (List Char) cs.length)
  | [] => .error (.unterminatedString, [])
  | c :: cs =>
      if c = quote then .ok ⟨[], cs, Nat.lt_succ_self _⟩
      else if c = '\\' then
        match cs with
        | [] => .error (.unterminatedString, [])
        | e :: cs =>
            match escaped? e with
            | none => .error (.badEscape e, e :: cs)
            | some d =>
                (readString quote cs).map fun s =>
                  (s.map (d :: ·)).widen (Nat.le_add_right cs.length 2)
      else (readString quote cs).map fun s => (s.map (c :: ·)).widen (Nat.le_succ _)

/-- The longest name at the front. -/
def readName (cs : List Char) : Taken Char (List Char) (cs.length + 1) :=
  ⟨cs.takeWhile Text.continuesName, cs.dropWhile Text.continuesName,
    Nat.lt_succ_of_le (List.dropWhile_suffix _).length_le⟩

/-- The digits of a fraction, if a point with a digit behind it comes next. -/
def fractionDigits : List Char → List Char
  | '.' :: cs => cs.takeWhile Char.isDigit
  | _ => []

/-- Reads the number that starts with the digit `c`. -/
def readNumber (c : Char) (cs : List Char) : Except Fault (Taken Char Token (cs.length + 1)) :=
  let whole := cs.takeWhile Char.isDigit
  let fraction := fractionDigits (cs.dropWhile Char.isDigit)
  let more := if fraction.isEmpty then whole else whole ++ '.' :: fraction
  match Decimal.ofDigits? false (c :: whole) fraction with
  | some n =>
      .ok ⟨.number n, cs.drop more.length, by simp only [List.length_drop]; omega⟩
  | none => .error (.numberOutOfRange (String.ofList (c :: more)), c :: cs)

/-- The token that a name is. -/
def nameToken (name : List Char) : Token :=
  if name = Text.trueWord then .boolean true
  else if name = Text.falseWord then .boolean false
  else if name = Text.nullWord then .null
  else .identifier (String.ofList name)

/-- The token `double` if `second` comes next, else `single`. -/
def oneOrTwo (second : Char) (double single : Token) (cs : List Char) :
    Taken Char Token (cs.length + 1) :=
  match takeFirst? (fun c => if c = second then some double else none) cs with
  | some t => t.widen (Nat.le_succ _)
  | none => ⟨single, cs, Nat.lt_succ_self _⟩

/-- Reads a token that starts with a dot, from behind the dot. -/
def readDotted (cs : List Char) : Except Fault (Taken Char Token (cs.length + 1)) :=
  match cs with
  | [] => .ok ⟨.dot, [], Nat.lt_succ_self _⟩
  | c :: rest =>
      if c = '.' then .ok ⟨.dotDot, rest, Nat.lt_succ_of_lt (Nat.lt_succ_self _)⟩
      else if Text.startsName c then
        .ok ((readName (c :: rest)).map fun name => .field (String.ofList name))
      else if c = '"' ∨ c = '\'' then
        (readString c rest).map fun s =>
          (s.map fun name => .field (String.ofList name)).widen (Nat.le_add_right rest.length 2)
      else .ok ⟨.dot, c :: rest, Nat.lt_succ_self _⟩

/-- The sign that a character is on its own. -/
def sign? : Char → Option Token
  | ',' => some .comma
  | '+' => some .plus
  | '-' => some .minus
  | '*' => some .star
  | ':' => some .colon
  | '(' => some .leftParen
  | ')' => some .rightParen
  | '[' => some .leftBracket
  | ']' => some .rightBracket
  | _ => none

/-- The sign that a character starts and another may go on: the other character, the token with it
    and the token without it. -/
def longSign? : Char → Option (Char × Token × Token)
  | '|' => some ('=', .updateAssign, .pipe)
  | '/' => some ('/', .alternative, .slash)
  | '=' => some ('=', .equal, .assign)
  | '<' => some ('=', .lessEqual, .less)
  | '>' => some ('=', .greaterEqual, .greater)
  | _ => none

/-- Reads the token that starts with `c`. -/
def readToken (c : Char) (cs : List Char) : Except Fault (Taken Char Token (cs.length + 1)) :=
  if c = '.' then readDotted cs
  else if c = '!' then
    match takeFirst? (fun c => if c = '=' then some Token.notEqual else none) cs with
    | some t => .ok (t.widen (Nat.le_succ _))
    | none => .error (.loneBang, c :: cs)
  else if c = '"' ∨ c = '\'' then
    (readString c cs).map fun s =>
      (s.map fun content => .string (String.ofList content)).widen (Nat.le_succ _)
  else if Text.startsName c then .ok ((readName cs).map fun name => nameToken (c :: name))
  else if c.isDigit then readNumber c cs
  else
    match sign? c, longSign? c with
    | some t, _ => .ok ⟨t, cs, Nat.lt_succ_self _⟩
    | none, some (second, double, single) => .ok (oneOrTwo second double single cs)
    | none, none => .error (.unexpectedChar c, c :: cs)

/-! ## The whole query

  The length of the whole query is known from the start, and every reader says what is left; a place
  is the difference of the two. -/

/-- The lexemes of the end of a query that is `total` characters long. -/
def scanFrom (total : Nat) (cs : List Char) : Lexemes :=
  match takeFirst? some (skipGap cs) with
  | none => ⟨[], none⟩
  | some c =>
      match readToken c.value c.rest with
      | .error (fault, place) => ⟨[], some ⟨fault, total - place.length⟩⟩
      | .ok t =>
          let more := scanFrom total t.rest
          let lexeme := ⟨t.value, total - (c.rest.length + 1), total - t.rest.length⟩
          { more with list := lexeme :: more.list }
termination_by cs.length
decreasing_by
  have := t.shorter; have := c.shorter; have := length_skipGap_le cs; omega

end Lexeme

/-- The lexemes of a query. -/
def Lexemes.ofChars (cs : List Char) : Lexemes :=
  Lexeme.scanFrom cs.length cs

end BlockQuery

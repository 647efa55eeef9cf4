/-
  Tokens: the words and signs of a query, and their texts in messages.

  A field carries its name without the dot or quotes, a number its decimal, a string its decoded
  text.  The end of a query is not a token; it is where the tokens stop.

  Signs of two characters are tokens of their own, and so is a dot with the name behind it.  Whether
  an identifier names a function is not asked here but by the parser, which also turns a minus sign
  in front of a number into a part of it.
-/
import BlockQuery.Decimal.Text

namespace BlockQuery

/-- A word or sign of a query. -/
inductive Token where
  | number (n : Decimal)
  | string (s : String)
  | boolean (b : Bool)
  | null
  | identifier (name : String)
  | field (name : String)
  | dot
  | dotDot
  | pipe
  | alternative
  | comma
  | assign
  | updateAssign
  | equal
  | notEqual
  | less
  | greater
  | lessEqual
  | greaterEqual
  | plus
  | minus
  | star
  | slash
  | leftParen
  | rightParen
  | leftBracket
  | rightBracket
  | colon
deriving DecidableEq, Repr

namespace Token

/-- The text of a token in messages: a sign stands in single quotes, a word for itself. -/
def text : Token → String
  | number n => n.text
  | string s => "\"" ++ s ++ "\""
  | boolean b => if b then "true" else "false"
  | null => "null"
  | identifier name => name
  | field name => "." ++ name
  | dot => "'.'"
  | dotDot => "'..'"
  | pipe => "'|'"
  | alternative => "'//'"
  | comma => "','"
  | assign => "'='"
  | updateAssign => "'|='"
  | equal => "'=='"
  | notEqual => "'!='"
  | less => "'<'"
  | greater => "'>'"
  | lessEqual => "'<='"
  | greaterEqual => "'>='"
  | plus => "'+'"
  | minus => "'-'"
  | star => "'*'"
  | slash => "'/'"
  | leftParen => "'('"
  | rightParen => "')'"
  | leftBracket => "'['"
  | rightBracket => "']'"
  | colon => "':'"

/-- The text that stands for the end of a query. -/
def endText : String := "end of input"

end Token

end BlockQuery

/-
  The text of an expression: the expression written as a query again.

  It names the operation at fault in messages.  Parentheses are not written; literals are compact
  JSON.
-/
import BlockQuery.Query.Expr
import BlockQuery.Value.Json

namespace BlockQuery

/-- The text of a path as characters. -/
def Path.chars (path : Path) : List Char :=
  match path with
  | [] => ['.']
  | path => path.flatMap Step.chars

namespace Expr

/-- The text of a bound of a slice. -/
def boundChars : Option Int → List Char
  | none => []
  | some i => Text.intChars i

mutual
/-- The text of an expression as characters. -/
def chars : Expr → List Char
  | identity => ['.']
  | recursiveDescent => ['.', '.']
  | literal v => v.jsonChars
  | field name => '.' :: name.toList
  | index i => '.' :: '[' :: Text.intChars i ++ [']']
  | slice start stop => '.' :: '[' :: boundChars start ++ ':' :: boundChars stop ++ [']']
  | iterate => ['.', '[', ']']
  | emptyCollection => ['[', ']']
  | collect inner => '[' :: chars inner ++ [']']
  | pipe left right => chars left ++ [' ', '|', ' '] ++ chars right
  | descendPipe inner => '.' :: '.' :: ' ' :: '|' :: ' ' :: chars inner
  | comma left right => chars left ++ [',', ' '] ++ chars right
  | alternative left right => chars left ++ [' ', '/', '/', ' '] ++ chars right
  | concat parts => List.intercalate [' ', '+', ' '] (charsAll parts)
  | arithmetic op left right =>
      chars left ++ ' ' :: op.symbol.toList ++ ' ' :: chars right
  | compare op left right =>
      chars left ++ ' ' :: op.symbol.toList ++ ' ' :: chars right
  | call function args =>
      function.name.toList ++
        (if args.isEmpty then []
        else '(' :: List.intercalate [';', ' '] (charsAll args) ++ [')'])
  | assign path value => path.chars ++ [' ', '=', ' '] ++ chars value
  | update path change => path.chars ++ [' ', '|', '=', ' '] ++ chars change
termination_by structural e => e

/-- The texts of some expressions. -/
def charsAll : List Expr → List (List Char)
  | [] => []
  | e :: es => chars e :: charsAll es
termination_by structural es => es
end

/-- The text of an expression. -/
def text (e : Expr) : String :=
  String.ofList e.chars

end Expr

/-- The wording of the complaint about an expression that is no path. -/
def NotAPath.message (e : NotAPath) : String :=
  e.fragment.text ++ " is not a path; only .field and [index] steps can be assigned or deleted"

end BlockQuery

/-
  The reasons why a text is no query, and their wording.
-/
import BlockQuery.Query.Lexeme
import BlockQuery.Query.Text

namespace BlockQuery

/-- What a query may go on with at a place. -/
inductive Expectation where
  | token (t : Token)
  | expression
  | operatorOrEnd
  | integer
  | bracketAfterDot
  | stepInBrackets
deriving DecidableEq, Repr

/-- The wording of an expectation. -/
def Expectation.text : Expectation → String
  | token t => t.text
  | expression => "an expression"
  | operatorOrEnd => "an operator or end of query"
  | integer => "an integer"
  | bracketAfterDot => "'[' after '.'"
  | stepInBrackets => "an index, a slice or ']'"

/-- The operations that work on a path. -/
inductive PathOperation where
  | assignment (op : AssignOp)
  | del
deriving DecidableEq, Repr

/-- The wording of an operation. -/
def PathOperation.text : PathOperation → String
  | assignment op => "'" ++ op.symbol ++ "'"
  | del => "del"

/-- A reason why a text is no query. -/
inductive SyntaxError where
  | lex (e : LexError)
  | unexpectedToken (found : Lexeme) (expected : Expectation)
  | unexpectedEnd (expected : Expectation)
  | unknownFunction (name : String) (offset : Nat)
  | wrongArity (function : Builtin) (given : Nat)
  | invalidPath (operation : PathOperation) (cause : NotAPath)
deriving Repr

/-- The wording of a reason. -/
def SyntaxError.message : SyntaxError → String
  | lex e => e.message
  | unexpectedToken found expected =>
      "expected " ++ expected.text ++ ", found " ++ found.token.text ++ " at " ++
        columnText found.offset
  | unexpectedEnd expected => "unexpected end of query, expected " ++ expected.text
  | unknownFunction name offset =>
      "unknown function '" ++ name ++ "' at " ++ columnText offset
  | wrongArity function given =>
      function.name ++ " takes " ++ toString function.arity ++ " argument(s), " ++
        toString given ++ " given"
  | invalidPath operation cause =>
      "invalid target for " ++ operation.text ++ ": " ++ cause.message

end BlockQuery

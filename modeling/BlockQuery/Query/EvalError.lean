/-
  The reasons why an expression has no stream on an input, and their wording.

  An error carries the operation that failed; the wording names it by its text.
-/
import BlockQuery.Query.Text

namespace BlockQuery

/-- A reason why an evaluation fails. -/
inductive EvalError where
  /-- an operation on a value of a kind that it does not work on -/
  | wrongKind (operation : Expr) (expected : String) (found : Kind)
  /-- a call with a number of arguments that the function does not take -/
  | wrongArity (function : Builtin) (given : Nat)
  /-- a path that cannot be followed for writing or removing -/
  | path (cause : PathError)
  /-- a `del` of something that is no path -/
  | notAPath (cause : NotAPath)
  | divisionByZero
  /-- a number out of range -/
  | overflow (operation : Expr)
  /-- several values where one is used, in strict mode -/
  | cardinality (operation : Expr) (count : Nat)
deriving Repr

namespace EvalError

/-- What could not be applied to what, and what was expected instead. -/
def kindMessage (operation expected found : String) : String :=
  operation ++ " cannot be applied to " ++ found ++ " (expected " ++ expected ++ ")"

/-- What could not be followed through what. -/
def pathMessage (step obstacle : String) : String :=
  "cannot follow " ++ step ++ " through " ++ obstacle

/-- The wording of a reason. -/
def message : EvalError → String
  | wrongKind operation expected found => kindMessage operation.text expected found.name
  | wrongArity function given =>
      kindMessage (function.name ++ " with " ++ toString given ++ " argument(s)") "builtin arity"
        "call"
  | path cause => pathMessage cause.step.text cause.obstacle
  | notAPath cause => pathMessage cause.fragment.text "expression"
  | divisionByZero => "division by zero"
  | overflow operation => "numeric overflow in " ++ operation.text
  | cardinality operation count =>
      operation.text ++ " produced " ++ toString count ++ " values where one was expected"

end EvalError

end BlockQuery

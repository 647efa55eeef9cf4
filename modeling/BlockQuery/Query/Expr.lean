/-
  Expressions: queries as trees.

  An expression maps one input value to a stream of values.  Operators group, from loose to tight:
  `|` (right), `,` (left), `=` and `|=` (none), `//` (right), comparison (none), `+` and `-` (left),
  `*` and `/` (left), steps behind an expression (left).  A chain of steps is a pipe as well.

  `path?` recognises the expressions that only walk to one node; they are what `=`, `|=` and `del`
  take as a target.
-/
import BlockQuery.Value.Path

namespace BlockQuery

/-- The operators of arithmetic. -/
inductive ArithOp where
  | add
  | subtract
  | multiply
  | divide
deriving DecidableEq, Repr

/-- The operators of comparison. -/
inductive CompareOp where
  | equal
  | notEqual
  | less
  | greater
  | lessEqual
  | greaterEqual
deriving DecidableEq, Repr

/-- The operators that put a value at a path: the value of an expression, or what an expression
    makes of the value that is there. -/
inductive AssignOp where
  | store
  | change
deriving DecidableEq, Repr

/-- The functions that a query can call. -/
inductive Builtin where
  | length
  | keys
  | toEntries
  | has
  | map
  | select
  | del
deriving DecidableEq, Repr

/-- A query as a tree. -/
inductive Expr where
  /-- the input itself, `.` -/
  | identity
  /-- the input and all nodes in it, `..` -/
  | recursiveDescent
  | literal (v : Value)
  | field (name : String)
  | index (i : Int)
  /-- the elements from `start` up to `stop`, which is not included -/
  | slice (start stop : Option Int)
  /-- all elements or values, `.[]` -/
  | iterate
  /-- the empty sequence, `[]` -/
  | emptyCollection
  /-- the stream of `inner` as one sequence -/
  | collect (inner : Expr)
  | pipe (left right : Expr)
  /-- the stream of `inner` on the input and all nodes in it, `.. | inner` -/
  | descendPipe (inner : Expr)
  | comma (left right : Expr)
  | alternative (left right : Expr)
  /-- the texts of a sum with a string literal in it, joined -/
  | concat (parts : List Expr)
  | arithmetic (op : ArithOp) (left right : Expr)
  | compare (op : CompareOp) (left right : Expr)
  | call (function : Builtin) (args : List Expr)
  | assign (path : Path) (value : Expr)
  | update (path : Path) (change : Expr)
deriving Repr, Inhabited

/-- The operator as it is written. -/
def ArithOp.symbol : ArithOp → String
  | add => "+"
  | subtract => "-"
  | multiply => "*"
  | divide => "/"

/-- The operator as it is written. -/
def CompareOp.symbol : CompareOp → String
  | equal => "=="
  | notEqual => "!="
  | less => "<"
  | greater => ">"
  | lessEqual => "<="
  | greaterEqual => ">="

/-- The operator as it is written. -/
def AssignOp.symbol : AssignOp → String
  | store => "="
  | change => "|="

namespace Builtin

/-- The name by which a query calls a function. -/
def name : Builtin → String
  | length => "length"
  | keys => "keys"
  | toEntries => "to_entries"
  | has => "has"
  | map => "map"
  | select => "select"
  | del => "del"

/-- All functions. -/
def all : List Builtin := [length, keys, toEntries, has, map, select, del]

/-- The function with a name. -/
def ofName? (s : String) : Option Builtin :=
  all.find? fun f => f.name == s

/-- The number of arguments that a function takes. -/
def arity : Builtin → Nat
  | length => 0
  | keys => 0
  | toEntries => 0
  | has => 1
  | map => 1
  | select => 1
  | del => 1

/-- The table of functions has each of them under its own name: finding a function by its name gives
    it back. -/
theorem ofName?_name (f : Builtin) : ofName? f.name = some f := by
  cases f <;> decide

end Builtin

/-! ## Paths

  An assignment holds a `Path` and not an expression: its target is turned into one while the query
  is read, and a target that is none is an error of the query.  The argument of `del` stays an
  expression and is turned into a path by the evaluator. -/

/-- The part of an expression that keeps it from being a path. -/
structure NotAPath where
  fragment : Expr
deriving Repr

/-- The path that an expression of field and index steps walks. -/
def Expr.path? : Expr → Except NotAPath Path
  | identity => .ok []
  | field name => .ok [.field name]
  | index i => .ok [.index i]
  | pipe left right => do
      let p ← left.path?
      let q ← right.path?
      return p ++ q
  | other => .error ⟨other⟩

end BlockQuery

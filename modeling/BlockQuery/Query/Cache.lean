/-
  Compiled queries, and a store of them by source text.

  A store compiles a source once: later requests find the query that is there.  A source that is no
  query leaves the store as it was.
-/
import BlockQuery.Query.Eval
import BlockQuery.Query.Grammar
import Std.Data.HashMap

namespace BlockQuery

/-- A query with the text that it was compiled from. -/
structure Query where
  source : String
  expr : Expr
deriving Repr

namespace Query

/-- A text as a query, or the reason why it is none. -/
def compile (source : String) : Except SyntaxError Query :=
  (Expr.ofChars source.toList).map fun e => ⟨source, e⟩

/-- The result stream of a query on a document. -/
def run (q : Query) (options : EvalOptions) (document : Value) : Except EvalError Stream :=
  q.expr.eval options document

end Query

/-- Compiled queries by their sources. -/
structure QueryCache where
  compiled : Std.HashMap String Query

namespace QueryCache

/-- The store without queries. -/
def empty : QueryCache := ⟨∅⟩

/-- The number of queries in a store. -/
def size (c : QueryCache) : Nat :=
  c.compiled.size

/-- Whether a store holds no query. -/
def isEmpty (c : QueryCache) : Bool :=
  c.compiled.isEmpty

/-- The query of a source, from the cache or compiled now, and the cache afterwards. -/
def getOrCompile (c : QueryCache) (source : String) : Except SyntaxError Query × QueryCache :=
  match c.compiled[source]? with
  | some q => (.ok q, c)
  | none =>
      match Query.compile source with
      | .ok q => (.ok q, ⟨c.compiled.insert source q⟩)
      | .error e => (.error e, c)

end QueryCache

end BlockQuery

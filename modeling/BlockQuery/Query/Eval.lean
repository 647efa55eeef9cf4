/-
  Evaluation: the stream of values that an expression makes of one input.

  `Expr.eval` is recursive on the expression.  A stream is whole or not at all: the first error ends
  the evaluation, and the order in which operands are evaluated decides which one is first.  An
  operand that is used as one value is the first of its stream, null if there is none; in strict
  mode more than one is an error.

  The order in which operands are evaluated is part of the behaviour, because the first error is the
  one that is reported: arithmetic takes its left operand first and looks at how many values it
  gives before the right one is evaluated, a comparison takes the right operand first.

  No fuel is needed.  Every recursive call is on a part of the expression, and the two walks that
  follow the input instead, `descendWith` and `mapItems`, take the evaluator of the inner expression
  as a function.
-/
import BlockQuery.Query.Operation

namespace BlockQuery

/-- How an expression is evaluated. -/
structure EvalOptions where
  /-- several values where one is used are an error -/
  strict : Bool := false
  /-- keys in nested mappings count for `has` too -/
  nestedHas : Bool := false
deriving DecidableEq, Repr

/-! ## Streams

  What is done with a stream whatever expression made it.  `bind` and `traverse` evaluate for one
  value after the other and stop at the first error; neither returns the part before it. -/

/-- A stream of values. -/
abbrev Stream := List Value

namespace Stream

/-- The streams that `f` makes of some values, one after the other. -/
def bind (f : Value → Except EvalError Stream) : Stream → Except EvalError Stream
  | [] => .ok []
  | v :: vs => do
      let front ← f v
      let back ← bind f vs
      return front ++ back

/-- What `f` makes of each value. -/
def traverse {α : Type} (f : Value → Except EvalError α) : Stream → Except EvalError (List α)
  | [] => .ok []
  | v :: vs => do
      let a ← f v
      let as ← traverse f vs
      return a :: as

/-- The one value that an operation uses: the first of a stream, null of an empty one.  In strict
    mode a stream of more than one is an error, which names the operation and counts the values. -/
def single (options : EvalOptions) (operation : Expr) (vs : Stream) : Except EvalError Value :=
  if options.strict ∧ 1 < vs.length then .error (.cardinality operation vs.length)
  else .ok (vs.head?.getD .null)

/-- Whether a stream says nothing, so that an alternative takes over: it is empty or a lone null,
    also as text. -/
def isMissing : Stream → Bool
  | [] => true
  | [.null] => true
  | [.string s] => s == "null"
  | _ => false

end Stream

/-! ## Walks over the input

  Two expressions follow the tree of the input and not their own: `.. | f` and `map`.  The walks are
  structural on the value, with the evaluator of the inner expression as a parameter. -/

mutual
/-- The streams that `f` makes of a value and of all values inside it, each made when its value is
    reached. -/
def descendWith (f : Value → Except EvalError Stream) : Value → Except EvalError Stream
  | .sequence items => do
      let own ← f (.sequence items)
      let below ← descendItems f items
      return own ++ below
  | .mapping es => do
      let own ← f (.mapping es)
      let below ← descendEntries f es
      return own ++ below
  | .null => f .null
  | .boolean b => f (.boolean b)
  | .number n => f (.number n)
  | .string s => f (.string s)
termination_by structural v => v

/-- The walk over the elements of a sequence, in order. -/
def descendItems (f : Value → Except EvalError Stream) : List Value → Except EvalError Stream
  | [] => .ok []
  | v :: vs => do
      let front ← descendWith f v
      let back ← descendItems f vs
      return front ++ back
termination_by structural items => items

/-- The walk over the values of a mapping, in the order of its entries. -/
def descendEntries (f : Value → Except EvalError Stream) :
    List (String × Value) → Except EvalError Stream
  | [] => .ok []
  | (_, v) :: es => do
      let front ← descendWith f v
      let back ← descendEntries f es
      return front ++ back
termination_by structural es => es
end

/-- The elements of a mapped sequence: one for each element on which `f` gives anything. -/
def mapItems (options : EvalOptions) (operation : Expr) (f : Value → Except EvalError Stream) :
    List Value → Except EvalError (List Value)
  | [] => .ok []
  | v :: vs => do
      let results ← f v
      if results.isEmpty then mapItems options operation f vs
      else do
        let w ← Stream.single options operation results
        let ws ← mapItems options operation f vs
        return w :: ws

/-! ## The evaluator -/

/-- Errors of paths as errors of evaluation. -/
def liftPath {α : Type} (r : Except PathError α) : Except EvalError α :=
  r.mapError .path

/-- Whether an expression is the literal null.  A comparison with it on the right takes a missing
    left operand as null. -/
def Expr.isNullLiteral : Expr → Bool
  | literal .null => true
  | _ => false

/-- Whether an expression is the empty sequence as written. -/
def Expr.isEmptyCollection : Expr → Bool
  | emptyCollection => true
  | _ => false

namespace Expr

mutual
/-- The stream that an expression makes of an input.

    A call with a wrong number of arguments has no equation of its own: it falls through to the one
    for `wrongArity`, which no compiled query reaches. -/
def eval (options : EvalOptions) : Expr → Value → Except EvalError Stream
  | identity, input => .ok [input]
  | literal v, _ => .ok [v]
  | field name, input => .ok [(input.get? name).getD .null]
  | index i, input => elementAt (index i) i input
  | slice start stop, input => (sliceOf (slice start stop) start stop input).map ([·])
  | iterate, input => childrenOf iterate input
  | emptyCollection, _ => .ok [.sequence []]
  | collect inner, input => (eval options inner input).map fun vs => [.sequence vs]
  | pipe left right, input => do
      let vs ← eval options left input
      vs.bind fun v => eval options right v
  | comma left right, input => do
      let front ← eval options left input
      let back ← eval options right input
      return front ++ back
  | recursiveDescent, input => .ok input.descendants
  | descendPipe inner, input => descendWith (fun v => eval options inner v) input
  | alternative left right, input => do
      let vs ← eval options left input
      if !Stream.isMissing vs then return vs
      else if right.isEmptyCollection then return []
      else eval options right input
  | concat parts, input => do
      let text ← evalTexts options (concat parts) parts input
      return [.string (String.ofList text)]
  | arithmetic op left right, input => do
      let vs ← eval options left input
      let a ← Stream.single options (arithmetic op left right) vs
      let ws ← eval options right input
      let b ← Stream.single options (arithmetic op left right) ws
      let c ← op.apply (arithmetic op left right) a b
      return [c]
  | compare op left right, input => do
      let ws ← eval options right input
      let b ← Stream.single options (compare op left right) ws
      let vs ← eval options left input
      let vs := if vs.isEmpty && right.isNullLiteral then [.null] else vs
      return vs.map fun a => .boolean (op.holds a b)
  | call .length args, input => (lengthOf (call .length args) input).map ([·])
  | call .keys args, input => (keysOf (call .keys args) input).map ([·])
  | call .toEntries args, input => (toEntriesOf (call .toEntries args) input).map ([·])
  | call .has [key], input => do
      let keys ← eval options key input
      keys.traverse fun k =>
        (hasKey (call .has [key]) options.nestedHas input k).map .boolean
  | call .map [mapper], input =>
      match input with
      | .sequence items =>
          (mapItems options (call .map [mapper]) (fun v => eval options mapper v) items).map
            fun vs => [.sequence vs]
      | other => .error (.wrongKind (call .map [mapper]) "sequence" other.kind)
  | call .select [condition], input => do
      let vs ← eval options condition input
      return if vs.any Value.isTruthy then [input] else []
  | call .del [target], input =>
      match target.path? with
      | .error cause => .error (.notAPath cause)
      | .ok path => (liftPath (input.delete path)).map ([·])
  | call function args, _ => .error (.wrongArity function args.length)
  | assign path value, input => do
      let vs ← eval options value input
      vs.traverse fun v => liftPath (input.assign path v)
  | update path change, input => do
      let vs ← eval options change ((input.lookup? path).getD .null)
      if vs.isEmpty then (liftPath (input.delete path)).map ([·])
      else do
        let v ← Stream.single options (update path change) vs
        (liftPath (input.assign path v)).map ([·])
termination_by structural e => e

/-- The texts that some expressions make of an input, joined. -/
def evalTexts (options : EvalOptions) (operation : Expr) :
    List Expr → Value → Except EvalError (List Char)
  | [], _ => .ok []
  | e :: es, input => do
      let vs ← eval options e input
      let v ← Stream.single options operation vs
      let more ← evalTexts options operation es input
      return v.textChars ++ more
termination_by structural es => es
end

end Expr

end BlockQuery

/-
  What the operators and functions of queries do with values, apart from evaluating operands.

  Arithmetic works on numbers; `+` also joins strings, sequences and mappings and takes null as
  nothing, `-` also removes elements.  Slices count characters of a string like elements of a
  sequence.  Bounds and indices are integers of any size; a negative one counts from the end.

  Every operation gets the expression that it is evaluated for, for its errors alone: the value does
  not depend on it.  What an operation does not work on is always an error and never null, with two
  exceptions that are written out: null has no elements and its slice is null.

  Every operation gets the expression that it is evaluated for, for its errors alone: the value does
  not depend on it.  What an operation does not work on is always an error and never null, with two
  exceptions that are written out: null has no element at any index, and its slice is null.
-/
import BlockQuery.Decimal.Arith
import BlockQuery.Query.EvalError
import BlockQuery.Value.Order

namespace BlockQuery

/-! ## Slices

  A bound may be any integer; it is moved to the nearest end of the sequence, and a slice whose
  bounds cross is empty. -/

/-- The place that a bound of a slice means among `n` elements. -/
def clampBound (n : Nat) (i : Int) : Nat :=
  if i < 0 then (n + i).toNat else min i.toNat n

/-- The elements from one bound up to the other. -/
def sliceList {α : Type} (start stop : Option Int) (items : List α) : List α :=
  let first := (start.map (clampBound items.length)).getD 0
  let last := (stop.map (clampBound items.length)).getD items.length
  (items.take last).drop first

/-! ## Comparison

  Equality is loose and the order is not: a string and a number of the same text are equal, while by
  `compare` the number comes first, so `==` and `<=` may disagree on them. -/

/-- The verdict of a comparison. -/
def CompareOp.holds (op : CompareOp) (a b : Value) : Bool :=
  match op with
  | equal => a.looseSame b
  | notEqual => !a.looseSame b
  | less => a.compare b == .lt
  | greater => a.compare b == .gt
  | lessEqual => a.compare b != .gt
  | greaterEqual => a.compare b != .lt

/-! ## Arithmetic

  One table of operators and kinds of value; what is not in it is a mismatch.  Null on either side
  of a sum is looked at before anything else. -/

/-- What an operator works on, in messages. -/
def ArithOp.operands : ArithOp → String
  | add => "numbers, strings, sequences or mappings"
  | subtract => "numbers or sequences"
  | multiply => "numbers"
  | divide => "numbers"

/-- The number that an operation gives, or an overflow. -/
def numberOr (operation : Expr) (n : Option Decimal) : Except EvalError Value :=
  match n with
  | some d => .ok (.number d)
  | none => .error (.overflow operation)

/-- The error of an operator on values that it does not work on.  The one at fault is the first that
    is no number. -/
def ArithOp.mismatch (operation : Expr) (op : ArithOp) (a b : Value) : EvalError :=
  let found :=
    match a with
    | .number _ => b.kind
    | a => a.kind
  .wrongKind operation op.operands found

/-- The value of an operator on two values; `operation` is named in errors. -/
def ArithOp.apply (operation : Expr) (op : ArithOp) (a b : Value) : Except EvalError Value :=
  match op, a, b with
  | add, .null, b => .ok b
  | add, a, .null => .ok a
  | add, .number m, .number n => numberOr operation (m.add? n)
  | add, .string s, .string t => .ok (.string (s ++ t))
  | add, .sequence xs, .sequence ys => .ok (.sequence (xs ++ ys))
  | add, .mapping es, .mapping fs => .ok (.mapping (Entries.extend es fs))
  | subtract, .number m, .number n => numberOr operation (m.sub? n)
  | subtract, .sequence xs, .sequence ys =>
      .ok (.sequence (xs.filter fun x => !ys.any fun y => y.same x))
  | multiply, .number m, .number n => numberOr operation (m.mul? n)
  | divide, .number m, .number n =>
      if n.isZero then .error .divisionByZero else numberOr operation (m.div? n)
  | op, a, b => .error (op.mismatch operation a b)

/-! ## Functions

  The functions without an expression to evaluate, and the steps of paths as far as they can fail.
  Each lists the kinds of value that it works on and is an error on every other kind, with what it
  would have taken. -/

/-- The one-entry-a-key view of a mapping. -/
def entryValues (es : List (String × Value)) : List Value :=
  es.map fun e => .mapping [("key", .string e.1), ("value", e.2)]

/-- Whether a container has a key or an index.  With `nested`, a key may also be in a mapping inside
    a mapping. -/
def hasKey (operation : Expr) (nested : Bool) (input key : Value) : Except EvalError Bool :=
  match input, key with
  | .mapping es, .string name =>
      .ok (if nested then (Value.mapping es).hasNestedKey name else Entries.hasKey name es)
  | .sequence items, .number n =>
      .ok (!n.negative && n.isInteger && n.wholePart < items.length)
  | .mapping _, other => .error (.wrongKind operation "string key" other.kind)
  | .sequence _, other => .error (.wrongKind operation "numeric index" other.kind)
  | other, _ => .error (.wrongKind operation "mapping or sequence" other.kind)

/-- The number of elements or entries. -/
def lengthOf (operation : Expr) (input : Value) : Except EvalError Value :=
  match input with
  | .sequence items => .ok (.ofNat items.length)
  | .mapping es => .ok (.ofNat es.length)
  | other => .error (.wrongKind operation "sequence or mapping" other.kind)

/-- The keys of a mapping or the indices of a sequence. -/
def keysOf (operation : Expr) (input : Value) : Except EvalError Value :=
  match input with
  | .mapping es => .ok (.sequence ((Entries.keys es).map .string))
  | .sequence items => .ok (.sequence ((List.range items.length).map .ofNat))
  | other => .error (.wrongKind operation "mapping or sequence" other.kind)

/-- The entries of a mapping as mappings of their own. -/
def toEntriesOf (operation : Expr) (input : Value) : Except EvalError Value :=
  match input with
  | .mapping es => .ok (.sequence (entryValues es))
  | other => .error (.wrongKind operation "mapping" other.kind)

/-- The element at an index, if there is one; null has none. -/
def elementAt (operation : Expr) (i : Int) (input : Value) : Except EvalError (List Value) :=
  match input with
  | .sequence items =>
      .ok (((resolveIndex? i items.length).bind fun n => items[n]?).toList)
  | .null => .ok []
  | other => .error (.wrongKind operation "sequence" other.kind)

/-- A part of a sequence or of a string; of null it is null. -/
def sliceOf (operation : Expr) (start stop : Option Int) (input : Value) :
    Except EvalError Value :=
  match input with
  | .sequence items => .ok (.sequence (sliceList start stop items))
  | .string s => .ok (.string (String.ofList (sliceList start stop s.toList)))
  | .null => .ok .null
  | other => .error (.wrongKind operation "sequence or string" other.kind)

/-- The elements of a sequence or the values of a mapping. -/
def childrenOf (operation : Expr) (input : Value) : Except EvalError (List Value) :=
  match input with
  | .sequence items => .ok items
  | .mapping es => .ok (es.map (·.2))
  | other => .error (.wrongKind operation "sequence or mapping" other.kind)

end BlockQuery

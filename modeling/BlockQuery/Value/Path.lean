/-
  Paths: how one node of a document is reached, read, written and removed.

  A path is a list of steps, each a key of a mapping or an index of a sequence; a negative index
  counts from the end.  `lookup?` reads, `assign` writes and `delete` removes.  Writing creates
  what is missing: null turns into the container that the step needs, a new key goes to the end, a
  sequence is filled up with nulls as far as `maxPadding` allows.  Both fail when a step meets a
  value that cannot hold it, and both leave everything off the path alone.
-/
import BlockQuery.Text.Word
import BlockQuery.Value.Basic

namespace BlockQuery

/-- One step from a node to a child. -/
inductive Step where
  | field (name : String)
  | index (i : Int)
deriving DecidableEq, Repr

/-- The steps from the root of a document to a node. -/
abbrev Path := List Step

/-- The text of a step as characters. -/
def Step.chars : Step → List Char
  | .field name => '.' :: name.toList
  | .index i => '[' :: Text.intChars i ++ [']']

/-- The text of a step in messages. -/
def Step.text (step : Step) : String :=
  String.ofList step.chars

/-- The reasons why a path cannot be followed for writing. -/
inductive PathError where
  | blocked (step : Step) (found : Kind)
  | beforeStart (step : Step)
  | beyondPadding (step : Step)
deriving DecidableEq, Repr

/-- The step that could not be taken. -/
def PathError.step : PathError → Step
  | blocked s _ => s
  | beforeStart s => s
  | beyondPadding s => s

/-- What stood in the way. -/
def PathError.obstacle : PathError → String
  | blocked _ found => found.name
  | beforeStart _ => "sequence too short"
  | beyondPadding _ => "index too far past the end"

/-- The position that an index means in a sequence of length `n`.  An index that is not negative
    may point past the end; a negative one must land inside. -/
def resolveIndex? (i : Int) (n : Nat) : Option Nat :=
  if 0 ≤ i then some i.toNat
  else if 0 ≤ n + i then some (n + i).toNat
  else none

/-- The most nulls that one step of an assignment may add before the new element. -/
def maxPadding : Nat := 65536

namespace Value

/-- The child that a step leads to. -/
def child? (v : Value) (step : Step) : Option Value :=
  match v, step with
  | mapping es, .field key => es.lookup key
  | sequence items, .index i => (resolveIndex? i items.length).bind fun n => items[n]?
  | _, _ => none

/-- The node at a path. -/
def lookup? (v : Value) : Path → Option Value
  | [] => some v
  | step :: path => (v.child? step).bind fun c => c.lookup? path

/-! ## Writing

  The recursion follows the path and rebuilds the containers on the way back.  At every step null
  stands for the empty container that the step needs, so a path that is not there yet is created in
  full, and the limit on padding is looked at before anything below the step is. -/

/-- The empty container that a step can be taken in. -/
def emptyFor : Step → Value
  | .field _ => mapping []
  | .index _ => sequence []

/-- What a step of an assignment starts from: null gives way to an empty container. -/
def orEmptyFor (v : Value) (step : Step) : Value :=
  match v with
  | null => emptyFor step
  | v => v

/-- The elements with nulls behind them, so that there is one at position `n`. -/
def padTo (items : List Value) (n : Nat) : List Value :=
  items ++ List.replicate (n + 1 - items.length) null

/-- The document with `new` at the path. -/
def assign (v : Value) (path : Path) (new : Value) : Except PathError Value :=
  match path with
  | [] => .ok new
  | step :: path =>
      match v.orEmptyFor step, step with
      | mapping es, .field key => do
          let c ← assign ((es.lookup key).getD null) path new
          return mapping (Entries.put key c es)
      | sequence items, .index i =>
          match resolveIndex? i items.length with
          | none => .error (.beforeStart step)
          | some n =>
              if maxPadding < n - items.length then .error (.beyondPadding step)
              else do
                let c ← assign ((items[n]?).getD null) path new
                return sequence ((padTo items n).set n c)
      | other, _ => .error (.blocked step other.kind)

/-! ## Removing

  Removing looks a step ahead, because the last step takes the child out of its container while
  every other one replaces it.  Unlike writing it creates nothing: null and a missing child end it,
  with nothing changed. -/

/-- Removes the node at the path `step :: path`; a node that is not there is removed already. -/
def deleteBelow (v : Value) (step : Step) (path : Path) : Except PathError Value :=
  match v, step with
  | null, _ => .ok null
  | mapping es, .field key =>
      match path with
      | [] => .ok (mapping (Entries.without key es))
      | next :: rest =>
          match es.lookup key with
          | none => .ok (mapping es)
          | some c => do
              let c ← deleteBelow c next rest
              return mapping (Entries.put key c es)
  | sequence items, .index i =>
      match (resolveIndex? i items.length).filter (· < items.length) with
      | none => .ok (sequence items)
      | some n =>
          match path with
          | [] => .ok (sequence (items.eraseIdx n))
          | next :: rest => do
              let c ← deleteBelow ((items[n]?).getD null) next rest
              return sequence (items.set n c)
  | other, _ => .error (.blocked step other.kind)

/-- The document without the node at the path; removing the root leaves null. -/
def delete (v : Value) : Path → Except PathError Value
  | [] => .ok null
  | step :: path => deleteBelow v step path

end Value

end BlockQuery

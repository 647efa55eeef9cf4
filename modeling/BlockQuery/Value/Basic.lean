/-
  Values: the trees that documents hold and queries work on.

  A value is a scalar, a sequence of values or a mapping from keys to values, which is a list of
  entries in the order in which the keys came.

  Equality (`same`) looks at numbers by value and at mappings without regard to order.

  The type allows a key more than once; no function of the library makes such a mapping (`Entries`),
  and `foundIn` relies on that: it looks up one entry for a key.

  The type allows a key more than once; no function of the library makes such a mapping (`Entries`),
  and `foundIn` relies on that: it looks up one entry for a key.
-/
import BlockQuery.Decimal.Basic
import BlockQuery.Entries

namespace BlockQuery

/-- A node of a document. -/
inductive Value where
  | null
  | boolean (b : Bool)
  | number (n : Decimal)
  | string (s : String)
  | sequence (items : List Value)
  | mapping (entries : List (String × Value))
deriving Repr, Inhabited

/-- The entries of a mapping, in order. -/
abbrev Entries := List (String × Value)

/-- The kinds of value that messages tell apart. -/
inductive Kind where
  | null
  | boolean
  | number
  | string
  | sequence
  | mapping
deriving DecidableEq, Repr

/-- The name of a kind in messages. -/
def Kind.name : Kind → String
  | .null => "null"
  | .boolean => "boolean"
  | .number => "number"
  | .string => "string"
  | .sequence => "sequence"
  | .mapping => "mapping"

namespace Value

/-- The kind of a value. -/
def kind : Value → Kind
  | null => .null
  | boolean _ => .boolean
  | number _ => .number
  | string _ => .string
  | sequence _ => .sequence
  | mapping _ => .mapping

/-- A natural number as a value. -/
def ofNat (n : Nat) : Value :=
  number (Decimal.ofNat n)

/-- The value under a key; a value that is no mapping has no keys. -/
def get? (key : String) : Value → Option Value
  | mapping es => es.lookup key
  | _ => none

/-- Whether a value is null. -/
def isNull : Value → Bool
  | null => true
  | _ => false

/-- Whether `select` keeps a value.  Only null, false and the text `false` fail; zero and all that
    is empty pass. -/
def isTruthy : Value → Bool
  | null => false
  | boolean b => b
  | string s => s ≠ "false"
  | _ => true

/-- Whether a value is a sequence or mapping that is not empty, which takes lines of its own in
    block text. -/
def isBlock : Value → Bool
  | sequence items => !items.isEmpty
  | mapping es => !es.isEmpty
  | _ => false

/-! ## Equality

  Two mappings are equal when they have as many entries and each of the first is in the second.
  That is symmetric as long as keys are distinct. -/

mutual
/-- Structural equality: numbers by value, mappings without regard to the order of entries. -/
def same : Value → Value → Bool
  | null, null => true
  | boolean a, boolean b => a == b
  | number a, number b => a.sameValue b
  | string a, string b => a == b
  | sequence a, sequence b => sameItems a b
  | mapping a, mapping b => a.length == b.length && foundIn a b
  | _, _ => false
termination_by structural v => v

/-- Equality element by element. -/
def sameItems : List Value → List Value → Bool
  | [], [] => true
  | a :: as, b :: bs => same a b && sameItems as bs
  | _, _ => false
termination_by structural items => items

/-- Whether every entry has an equal one in `other`. -/
def foundIn : List (String × Value) → List (String × Value) → Bool
  | [], _ => true
  | (k, v) :: es, other =>
      (match other.lookup k with
        | some w => same v w
        | none => false) && foundIn es other
termination_by structural es => es
end

/-! ## Trees

  Functions on all values inside a value, by structural recursion through the two kinds of list. -/

mutual
/-- The value and all values inside it, each before its children, children in order. -/
def descendants : Value → List Value
  | sequence items => sequence items :: itemDescendants items
  | mapping es => mapping es :: entryDescendants es
  | null => [null]
  | boolean b => [boolean b]
  | number n => [number n]
  | string s => [string s]
termination_by structural v => v

/-- All values in some elements. -/
def itemDescendants : List Value → List Value
  | [] => []
  | v :: vs => descendants v ++ itemDescendants vs
termination_by structural items => items

/-- All values in some entries. -/
def entryDescendants : List (String × Value) → List Value
  | [] => []
  | (_, v) :: es => descendants v ++ entryDescendants es
termination_by structural es => es
end

mutual
/-- Whether some mapping in the tree has the key. -/
def hasNestedKey (key : String) : Value → Bool
  | sequence items => itemsHaveKey key items
  | mapping es => Entries.hasKey key es || entriesHaveKey key es
  | _ => false
termination_by structural v => v

/-- Whether some mapping in the elements has the key. -/
def itemsHaveKey (key : String) : List Value → Bool
  | [] => false
  | v :: vs => hasNestedKey key v || itemsHaveKey key vs
termination_by structural items => items

/-- Whether some mapping in the values of the entries has the key. -/
def entriesHaveKey (key : String) : List (String × Value) → Bool
  | [] => false
  | (_, v) :: es => hasNestedKey key v || entriesHaveKey key es
termination_by structural es => es
end

end Value

end BlockQuery

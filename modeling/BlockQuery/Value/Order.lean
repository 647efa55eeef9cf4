/-
  The order of values and the equality of queries.

  `compare` puts every two values in order: null, false, true, numbers, strings, sequences,
  mappings.  Sequences compare like words; mappings first by their sorted keys and then by the
  values in the order of the keys.  `looseSame` is the `==` of queries: a string and another
  scalar are equal when their texts are.

  Values of different classes are ordered by `rank`; false and true have ranks of their own.
  Verdicts are joined with `Ordering.then`, so a comparison of containers is the first verdict that
  is not equality.

  Values of different classes are ordered by `rank`; false and true have ranks of their own.
  Verdicts are joined with `Ordering.then`, so a comparison of containers is the first verdict that
  is not equality.
-/
import BlockQuery.Value.Json

namespace BlockQuery.Value

/-- The place of a value's class in the order. -/
def rank : Value → Nat
  | null => 0
  | boolean false => 1
  | boolean true => 2
  | number _ => 3
  | string _ => 4
  | sequence _ => 5
  | mapping _ => 6

/-- The order of strings by code points. -/
def compareStrings (a b : String) : Ordering :=
  compareOfLessAndEq a b

/-- The order of lists like words: the first difference decides, then the length. -/
def compareKeys : List String → List String → Ordering
  | [], [] => .eq
  | [], _ :: _ => .lt
  | _ :: _, [] => .gt
  | a :: as, b :: bs => (compareStrings a b).then (compareKeys as bs)

/-- The keys of a mapping, sorted. -/
def sortedKeys (es : Entries) : List String :=
  (Entries.keys es).mergeSort fun a b => decide (a ≤ b)

/-- The first verdict that is not equality, in the order of the keys. -/
def firstVerdict (verdicts : List (String × Ordering)) : Ordering :=
  (verdicts.mergeSort fun a b => decide (a.1 ≤ b.1)).foldr (fun e rest => e.2.then rest) .eq

mutual
/-- The order of all values. -/
def compare : Value → Value → Ordering
  | number a, number b => a.compare b
  | string a, string b => compareStrings a b
  | sequence a, sequence b => compareItems a b
  | mapping a, mapping b =>
      (compareKeys (sortedKeys a) (sortedKeys b)).then (firstVerdict (compareEntries a b))
  | a, b => Ord.compare a.rank b.rank
termination_by structural v => v

/-- The order of sequences: the first difference decides, then the length. -/
def compareItems : List Value → List Value → Ordering
  | [], [] => .eq
  | [], _ :: _ => .lt
  | _ :: _, [] => .gt
  | a :: as, b :: bs => (compare a b).then (compareItems as bs)
termination_by structural items => items

/-- The verdict on each entry against the entry of the same key. -/
def compareEntries : List (String × Value) → List (String × Value) → List (String × Ordering)
  | [], _ => []
  | (k, v) :: es, other =>
      (k, match other.lookup k with
        | some w => compare v w
        | none => .eq) :: compareEntries es other
termination_by structural es => es
end

/-! ## Text and loose equality

  The plain text is what a string holds and what every other value is written as in JSON.  Loose
  equality compares these texts for a string against a scalar, and it is no equivalence: the strings
  `1` and `1.0` equal the numbers of these texts, and the two numbers are equal while the strings
  are not. -/

/-- The plain text of a value: a string is its own text, a collection its compact JSON. -/
def textChars : Value → List Char
  | string s => s.toList
  | v => v.jsonChars

/-- The plain text of a value. -/
def text (v : Value) : String :=
  String.ofList v.textChars

/-- Whether a value is a number, a truth value or null. -/
def isPlainScalar : Value → Bool
  | null => true
  | boolean _ => true
  | number _ => true
  | _ => false

/-- The equality of queries.  A string equals a number, a truth value or null of the same text;
    every other pair is compared by `same`. -/
def looseSame (a b : Value) : Bool :=
  match a, b with
  | string s, v => if v.isPlainScalar then s.toList == v.textChars else same (string s) v
  | v, string s => if v.isPlainScalar then s.toList == v.textChars else same v (string s)
  | v, w => same v w

end BlockQuery.Value

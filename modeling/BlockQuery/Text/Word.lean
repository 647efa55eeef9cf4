/-
  The words that queries, JSON text and block text have in common, and the text of integers.

  Texts that take part in reading and writing are lists of characters throughout, so that a text
  written by one function can be taken apart by another without a change of form.
-/

namespace BlockQuery.Text

/-- The word for null. -/
def nullWord : List Char := ['n', 'u', 'l', 'l']

/-- The word for true. -/
def trueWord : List Char := ['t', 'r', 'u', 'e']

/-- The word for false. -/
def falseWord : List Char := ['f', 'a', 'l', 's', 'e']

/-- The word for a truth value. -/
def booleanWord (b : Bool) : List Char :=
  if b then trueWord else falseWord

/-- The decimal digits of a natural number. -/
def natChars (n : Nat) : List Char :=
  Nat.toDigits 10 n

/-- The digits of an integer, with a minus sign if it is negative. -/
def intChars (i : Int) : List Char :=
  if i < 0 then '-' :: natChars i.natAbs else natChars i.natAbs

end BlockQuery.Text

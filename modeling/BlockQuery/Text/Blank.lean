/-
  Blanks: the characters with the Unicode property White_Space.

  One set serves the whole library: it separates the words of a query, it may stand around the
  colon of a block entry, and it is trimmed from the ends of block lines.  Text is a `List Char`
  here and everywhere below the surface, so trimming is `dropWhile` at either end.
-/

namespace BlockQuery.Text

/-- Whether a character has the Unicode property White_Space. -/
def isBlank (c : Char) : Bool :=
  let n := c.toNat
  (9 ≤ n && n ≤ 13) || n == 0x20 || n == 0x85 || n == 0xa0 || n == 0x1680 ||
    (0x2000 ≤ n && n ≤ 0x200a) || n == 0x2028 || n == 0x2029 || n == 0x202f || n == 0x205f ||
    n == 0x3000

/-- Drops the blanks at the front. -/
def trimStart (cs : List Char) : List Char :=
  cs.dropWhile isBlank

/-- Drops the blanks at the end. -/
def trimEnd (cs : List Char) : List Char :=
  (cs.reverse.dropWhile isBlank).reverse

/-- Drops the blanks at both ends. -/
def trim (cs : List Char) : List Char :=
  trimEnd (trimStart cs)

/-! ## Trimming only shortens

  Readers that trim a text before they go on need this for their recursion to end. -/

/-- A text without its leading blanks is no longer than before. -/
theorem length_trimStart_le (cs : List Char) : (trimStart cs).length ≤ cs.length :=
  (List.dropWhile_suffix isBlank).length_le

/-- A text without its trailing blanks is no longer than before. -/
theorem length_trimEnd_le (cs : List Char) : (trimEnd cs).length ≤ cs.length := by
  have h := (List.dropWhile_suffix (l := cs.reverse) isBlank).length_le
  simpa [trimEnd] using h

end BlockQuery.Text

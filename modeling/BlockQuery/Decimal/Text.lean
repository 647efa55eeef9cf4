/-
  The text of a decimal, in both directions.

  Written, a decimal has exactly `scale` digits after the point, no point when the scale is 0, and
  no exponent; a sign is written even before a zero.  Read, digits enter the mantissa from left to
  right.  A digit of the whole part that does not fit makes the text unreadable; the first digit of
  the fraction that does not fit decides the rounding (a digit of 5 or more rounds away from zero),
  and what follows it is not looked at.
-/
import BlockQuery.Decimal.Basic
import BlockQuery.Text.Word

namespace BlockQuery.Decimal

/-! ## Writing

  Whole part and fraction are cut from one mantissa, the fraction by counting its digits, so zeros
  right behind the point are written too. -/

/-- The last `k` digits of `n`, zeros in front included. -/
def lowDigits : Nat → Nat → List Char
  | 0, _ => []
  | k + 1, n => lowDigits k (n / 10) ++ [Nat.digitChar (n % 10)]

/-- The text of a decimal as characters. -/
def chars (d : Decimal) : List Char :=
  let sign := if d.negative then ['-'] else []
  let fraction := if d.scale = 0 then [] else '.' :: lowDigits d.scale d.mantissa
  sign ++ Text.natChars d.wholePart ++ fraction

/-- The text of a decimal. -/
def text (d : Decimal) : String :=
  String.ofList d.chars

/-! ## Reading

  Reading is exact as long as the digits fit, which is why what was written is read back as the same
  data and not only as the same value, apart from the sign of a zero.  Only text that no decimal is
  written as is rounded. -/

/-- The value of a decimal digit. -/
def digitValue (c : Char) : Nat :=
  c.toNat - '0'.toNat

/-- Whether digits may stand in front of the point of a number: there is one, and only a lone one is
    `0`. -/
def isWhole : List Char → Bool
  | [] => false
  | ['0'] => true
  | c :: _ => c != '0'

/-- Reads the digits of a whole part behind a mantissa `m`, if it stays below the limit. -/
def readWhole? (m : Nat) (hm : m < limit) : List Char → Option { k : Nat // k < limit }
  | [] => some ⟨m, hm⟩
  | c :: cs =>
      if h : 10 * m + digitValue c < limit then readWhole? (10 * m + digitValue c) h cs
      else none

/-- Adds 1 to the last place.  A mantissa that is full drops that place; at scale 0 there is none
    to drop. -/
def bump? (negative : Bool) (m s : Nat) (hs : s ≤ maxScale) : Option Decimal :=
  if h : m + 1 < limit then some ⟨negative, m + 1, s, h, hs⟩
  else if s = 0 then none
  else some ⟨negative, limit / 10 + 1, s - 1, by decide, Nat.le_trans (Nat.sub_le s 1) hs⟩

/-- Reads the digits of a fraction after a mantissa `m` of scale `s`. -/
def readFraction? (negative : Bool) (m s : Nat) (hm : m < limit) (hs : s ≤ maxScale) :
    List Char → Option Decimal
  | [] => some ⟨negative, m, s, hm, hs⟩
  | c :: cs =>
      if h : 10 * m + digitValue c < limit ∧ s + 1 ≤ maxScale then
        readFraction? negative (10 * m + digitValue c) (s + 1) h.1 h.2 cs
      else if 5 ≤ digitValue c then bump? negative m s hs
      else some ⟨negative, m, s, hm, hs⟩

/-- A zero keeps its scale and loses its sign. -/
def unsignZero (d : Decimal) : Decimal :=
  { d with negative := d.negative && !d.isZero }

/-- Reads a number from its sign, the digits before the point and the digits after it. -/
def ofDigits? (negative : Bool) (whole fraction : List Char) : Option Decimal :=
  (readWhole? 0 zero.mantissa_lt whole).bind fun m =>
    (readFraction? negative m.1 0 m.2 (Nat.zero_le _) fraction).map unsignZero

end BlockQuery.Decimal

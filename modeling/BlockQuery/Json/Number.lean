/-
  The numbers of JSON text.

  A literal of an integer that fits 64 bits, with or without a sign, is exact.  Every other literal
  is taken as binary floating point: its digits are gathered into a 64-bit significand as long as
  they fit, the places that are left over go into a power of ten, and significand and power are
  multiplied with rounding.  A number is then used through its text: the digits of the integer,
  or the shortest digits of the floating point value, which are positional from `1e-5` up to `1e16`
  and scientific outside.

  The number of a literal is used twice through text, and both times digits can be lost:
  `magnitude?` rounds what was written to binary, and `decimal?` reads the printed digits of that,
  not the literal.  An integer beyond 64 bits goes this way as well, though a decimal could hold it
  exactly up to 96 bits.
-/
import BlockQuery.Decimal.Text
import BlockQuery.Json.Binary64

namespace BlockQuery

/-- The literal of a number, taken apart. -/
structure NumberLiteral where
  negative : Bool
  whole : List Char
  fraction : Option (List Char)
  /-- the sign of the exponent, true for minus, and its digits -/
  exponent : Option (Bool × List Char)
deriving DecidableEq, Repr

/-- A number of JSON text. -/
inductive JsonNumber where
  | integer (i : Int)
  | float (negative : Bool) (magnitude : Binary64)
deriving DecidableEq, Repr

namespace NumberLiteral

open Decimal (digitValue)

/-- Significands are below this bound. -/
def significandLimit : Nat := 18446744073709551616

/-- Gathers digits behind the significand `m` as long as it fits: the new significand, and the
    number of digits that are left over. -/
def gather (m : Nat) : List Char → Nat × Nat
  | [] => (m, 0)
  | c :: cs =>
      if 10 * m + digitValue c < significandLimit then gather (10 * m + digitValue c) cs
      else (m, cs.length + 1)

/-- The number that a run of digits denotes. -/
def natOfDigits (cs : List Char) : Nat :=
  cs.foldl (fun m c => 10 * m + digitValue c) 0

/-- An exponent from here on is not added up: the value is zero or out of range. -/
def exponentLimit : Nat := 2147483648

/-- The magnitude of a literal as floating point; none when it is out of range. -/
def magnitude? (l : NumberLiteral) : Option Binary64 :=
  let whole := gather 0 l.whole
  let fraction := l.fraction.getD []
  let all := gather whole.1 fraction
  let places : Int := (whole.2 : Int) - ((fraction.length - all.2 : Nat) : Int)
  match l.exponent with
  | none => Binary64.ofParts? all.1 places
  | some (minus, digits) =>
      let e := natOfDigits digits
      if e < exponentLimit then
        Binary64.ofParts? all.1 (if minus then places - e else places + e)
      else if all.1 ≠ 0 ∧ minus = false then none
      else some ⟨0⟩

/-- Whether a literal is an integer that fits: one without a minus sign below 2 to the 64th, or
    a negative one of at most 2 to the 63rd in magnitude. -/
def integer? (l : NumberLiteral) : Option Int :=
  if l.fraction.isSome || l.exponent.isSome then none
  else
    let n := natOfDigits l.whole
    if l.negative then
      if 0 < n ∧ n ≤ significandLimit / 2 then some (-(n : Int)) else none
    else if n < significandLimit then some n else none

/-- The number that a literal denotes; none when it is out of range. -/
def number? (l : NumberLiteral) : Option JsonNumber :=
  match l.integer? with
  | some i => some (.integer i)
  | none => l.magnitude?.map (JsonNumber.float l.negative)

end NumberLiteral

namespace JsonNumber

/-! ## Printing -/

/-- The digits of a positive floating point value without zeros at the end, and the exponent of the
    first of them. -/
def scientific (x : Binary64) : List Char × Int :=
  let s := x.shortest
  let ds := Text.natChars s.1
  let trimmed := (ds.reverse.dropWhile (· == '0')).reverse
  (trimmed, s.2 + ds.length - 1)

/-- Whether digits that start at the exponent `e` are written without it. -/
def isPositional (e : Int) : Bool :=
  -5 ≤ e && e < 16

/-- The digits on both sides of the point when the first digit has the exponent `e`; there is at
    least one on each side. -/
def positional (ds : List Char) (e : Int) : List Char × List Char :=
  if e < 0 then (['0'], List.replicate (-e - 1).toNat '0' ++ ds)
  else
    let n := e.toNat + 1
    let padded := ds ++ List.replicate (n + 1 - ds.length) '0'
    (padded.take n, padded.drop n)

/-- A mantissa of decimal digits, a point behind the first. -/
def scientificChars (ds : List Char) (e : Int) : List Char :=
  let mantissa :=
    match ds with
    | [] => []
    | [d] => [d]
    | d :: rest => d :: '.' :: rest
  let sign := if e < 0 then '-' else '+'
  mantissa ++ 'e' :: sign :: Text.natChars e.natAbs

/-- The text of a number. -/
def chars : JsonNumber → List Char
  | integer i => Text.intChars i
  | float negative x =>
      let sign := if negative then ['-'] else []
      if x.isZero then sign ++ ['0', '.', '0']
      else
        let s := scientific x
        if isPositional s.2 then
          let p := positional s.1 s.2
          sign ++ p.1 ++ '.' :: p.2
        else sign ++ scientificChars s.1 s.2

/-! ## The decimal of a number

  The printed digits are read the way decimals are read elsewhere when they are positional
  (`Decimal.ofDigits?`).  Scientific ones are scaled here. -/

/-- The decimal `± m * tenTo e`. -/
def scaledUp? (negative : Bool) (m e : Nat) : Option Decimal :=
  if h : m * tenTo e < Decimal.limit then some ⟨negative, m * tenTo e, 0, h, Nat.zero_le _⟩
  else none

/-- The decimal `± m / tenTo s`.  Places beyond the greatest scale are dropped, and the first of
    them rounds. -/
def scaledDown? (negative : Bool) (m s : Nat) : Option Decimal :=
  let excess := s - Decimal.maxScale
  let kept :=
    if excess = 0 then m
    else m / tenTo excess + (if 5 ≤ m / tenTo (excess - 1) % 10 then 1 else 0)
  if h : kept < Decimal.limit then
    some ⟨negative, kept, min s Decimal.maxScale, h, Nat.min_le_right _ _⟩
  else none

/-- The decimal that scientific digits denote.  An exponent below the greatest scale is out of
    range. -/
def ofScientific? (negative : Bool) (ds : List Char) (e : Int) : Option Decimal :=
  let m := NumberLiteral.natOfDigits ds
  let places : Int := e - (ds.length - 1 : Nat)
  if 0 ≤ e then
    if 0 ≤ places then scaledUp? negative m places.toNat
    else scaledDown? negative m (-places).toNat
  else if -e ≤ Decimal.maxScale then scaledDown? negative m (-places).toNat
  else none

/-- The decimal of a number, none when it is out of range. -/
def decimal? : JsonNumber → Option Decimal
  | integer i => Decimal.ofInt? i
  | float negative x =>
      if x.isZero then Decimal.ofDigits? negative ['0'] ['0']
      else
        let s := scientific x
        if isPositional s.2 then
          let p := positional s.1 s.2
          Decimal.ofDigits? negative p.1 p.2
        else ofScientific? negative s.1 s.2

end JsonNumber

end BlockQuery

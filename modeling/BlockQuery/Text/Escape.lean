/-
  Escaped text: how a string stands between double quotes.

  The same escapes are written in JSON output and in quoted block scalars.  A quote and a
  backslash get a backslash; line feed, carriage return and tab have a letter; every other
  control character (general category Cc) is `\u` and four hexadecimal digits; all else stands
  for itself.
-/

namespace BlockQuery.Text

/-- Whether a character has the general category Cc. -/
def isControl (c : Char) : Bool :=
  c.toNat < 0x20 || (0x7f ≤ c.toNat && c.toNat ≤ 0x9f)

/-- The digit of a number below 16, in lower case. -/
def hexDigit (n : Nat) : Char :=
  Nat.digitChar (n % 16)

/-- The value of a hexadecimal digit, in either case. -/
def hexValue? (c : Char) : Option Nat :=
  if '0' ≤ c ∧ c ≤ '9' then some (c.toNat - 0x30)
  else if 'a' ≤ c ∧ c ≤ 'f' then some (c.toNat - 0x57)
  else if 'A' ≤ c ∧ c ≤ 'F' then some (c.toNat - 0x37)
  else none

/-- The value of a run of hexadecimal digits, after `acc`. -/
def hexNumber? (acc : Nat) : List Char → Option Nat
  | [] => some acc
  | c :: cs => (hexValue? c).bind fun d => hexNumber? (16 * acc + d) cs

/-- The written form of one character between double quotes. -/
def escapeChar (c : Char) : List Char :=
  if c = '"' then ['\\', '"']
  else if c = '\\' then ['\\', '\\']
  else if c = '\n' then ['\\', 'n']
  else if c = '\r' then ['\\', 'r']
  else if c = '\t' then ['\\', 't']
  else if isControl c then ['\\', 'u', '0', '0', hexDigit (c.toNat / 16), hexDigit c.toNat]
  else [c]

/-- The written form of a text between double quotes. -/
def escape (cs : List Char) : List Char :=
  cs.flatMap escapeChar

/-- A text in double quotes, escaped. -/
def quote (cs : List Char) : List Char :=
  '"' :: (escape cs ++ ['"'])

end BlockQuery.Text

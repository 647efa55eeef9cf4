/-
  The smallest parts of JSON text: blanks, characters of strings, and literals of numbers.

  The only blanks are space, tab, line feed and carriage return.  A string holds no raw control
  character below U+0020, and a surrogate in it only as one half of a pair.  A number has a whole
  part without zeros in front, and digits on both sides of a point and behind an exponent mark.
-/
import BlockQuery.Json.Number
import BlockQuery.Taken
import BlockQuery.Text.Escape

namespace BlockQuery.Json

open Text (hexNumber?)
open Decimal (isWhole)

/-! ## Blanks and strings

  A string is read one character at a time (`stringChar?`), and what one character is may be a pair
  of escapes: two surrogates, the high one first, are one character, and a surrogate without its
  partner is none. -/

/-- Whether a character is a blank of JSON.  These are fewer than the blanks of queries and of block
    text, for which see `Text.isBlank`. -/
def isBlank (c : Char) : Bool :=
  c == ' ' || c == '\t' || c == '\n' || c == '\r'

/-- Drops the blanks at the front. -/
def skip (cs : List Char) : List Char :=
  cs.dropWhile isBlank

/-- Skipping blanks makes a text no longer. -/
theorem length_skip_le (cs : List Char) : (skip cs).length ≤ cs.length :=
  (List.dropWhile_suffix isBlank).length_le

/-- The character that a letter stands for behind a backslash. -/
def escaped? : Char → Option Char
  | '"' => some '"'
  | '\\' => some '\\'
  | '/' => some '/'
  | 'b' => some (Char.ofNat 8)
  | 'f' => some (Char.ofNat 12)
  | 'n' => some '\n'
  | 'r' => some '\r'
  | 't' => some '\t'
  | _ => none

/-- Whether a code unit is the first half of a pair. -/
def isHighSurrogate (n : Nat) : Bool :=
  0xd800 ≤ n && n ≤ 0xdbff

/-- Whether a code unit is the second half of a pair. -/
def isLowSurrogate (n : Nat) : Bool :=
  0xdc00 ≤ n && n ≤ 0xdfff

/-- The character that two surrogates stand for together. -/
def pairedChar (high low : Nat) : Char :=
  Char.ofNat (0x10000 + (high - 0xd800) * 0x400 + (low - 0xdc00))

/-- The first character of a string behind its opening quote, none if there is no proper one.  The
    quote that ends the string is not read here. -/
def stringChar? : (cs : List Char) → Option (Taken Char Char cs.length)
  | '\\' :: 'u' :: a :: b :: c :: d :: cs =>
      match hexNumber? 0 [a, b, c, d] with
      | none => none
      | some n =>
          if isHighSurrogate n then
            match cs with
            | '\\' :: 'u' :: e :: f :: g :: h :: cs =>
                match hexNumber? 0 [e, f, g, h] with
                | none => none
                | some m =>
                    if isLowSurrogate m then
                      some ⟨pairedChar n m, cs, by simp only [List.length_cons]; omega⟩
                    else none
            | _ => none
          else if isLowSurrogate n then none
          else some ⟨Char.ofNat n, cs, by simp only [List.length_cons]; omega⟩
  | '\\' :: c :: cs =>
      (escaped? c).map fun c => ⟨c, cs, by simp only [List.length_cons]; omega⟩
  | c :: cs =>
      if c = '"' ∨ c = '\\' ∨ c.toNat < 0x20 then none
      else some ⟨c, cs, by simp only [List.length_cons]; omega⟩
  | [] => none

/-- The rest of a string behind its opening quote, and what follows the closing one. -/
def readString? (cs : List Char) : Option (Taken Char (List Char) cs.length) :=
  match takeFirst? (fun c => if c = '"' then some () else none) cs with
  | some close => some (close.map fun _ => [])
  | none =>
      match stringChar? cs with
      | none => none
      | some c =>
          match readString? c.rest with
          | none => none
          | some s => some ((s.map (c.value :: ·)).widen (Nat.le_of_lt c.shorter))
termination_by cs.length
decreasing_by exact c.shorter

/-! ## Numbers

  The literal is taken apart first and valued afterwards (`NumberLiteral.number?`), since which kind
  of number it is depends on the whole of it: a point or an exponent mark anywhere makes it a
  floating point number. -/

/-- The digits at the front, perhaps none. -/
def readDigits (cs : List Char) : Taken Char (List Char) (cs.length + 1) :=
  ⟨cs.takeWhile Char.isDigit, cs.dropWhile Char.isDigit,
    Nat.lt_succ_of_le (List.dropWhile_suffix Char.isDigit).length_le⟩

/-- A whole part has at least one digit, so reading it takes something off the text. -/
theorem shorter_of_isWhole {cs : List Char} (h : isWhole (readDigits cs).value = true) :
    (readDigits cs).rest.length < cs.length := by
  cases cs with
  | nil => simp [readDigits, isWhole] at h
  | cons c cs =>
    by_cases hc : c.isDigit = true
    · have := (List.dropWhile_suffix (l := cs) Char.isDigit).length_le
      simp only [readDigits, List.dropWhile_cons, hc, if_true, List.length_cons]
      omega
    · simp [readDigits, hc, isWhole] at h

/-- The digits before the point. -/
def readWhole? (cs : List Char) : Option (Taken Char (List Char) cs.length) :=
  if h : isWhole (readDigits cs).value then
    some ⟨(readDigits cs).value, (readDigits cs).rest, shorter_of_isWhole h⟩
  else none

/-- Digits that must be there. -/
def readSomeDigits? (cs : List Char) : Option (Taken Char (List Char) (cs.length + 1)) :=
  if (readDigits cs).value.isEmpty then none else some (readDigits cs)

/-- A fraction, if the text starts with a point; none if the point has no digit behind it. -/
def readFraction? (cs : List Char) : Option (Taken Char (Option (List Char)) (cs.length + 1)) :=
  match cs with
  | '.' :: cs => (readSomeDigits? cs).map fun ds => (ds.map some).widen (by simp)
  | cs => some ⟨none, cs, by simp⟩

/-- The sign in front of an exponent, true for minus. -/
def readExponentSign (cs : List Char) : Taken Char Bool (cs.length + 1) :=
  match cs with
  | '+' :: cs => ⟨false, cs, by simp only [List.length_cons]; omega⟩
  | '-' :: cs => ⟨true, cs, by simp only [List.length_cons]; omega⟩
  | cs => ⟨false, cs, by simp⟩

/-- An exponent, if the text starts with its mark; none if it has no digits. -/
def readExponent? (cs : List Char) :
    Option (Taken Char (Option (Bool × List Char)) (cs.length + 1)) :=
  match takeFirst? (fun c => if c = 'e' ∨ c = 'E' then some () else none) cs with
  | none => some ⟨none, cs, by simp⟩
  | some mark =>
      let sign := readExponentSign mark.rest
      (readSomeDigits? sign.rest).map fun ds =>
        (ds.map fun ds => some (sign.value, ds)).widen (by
          have := mark.shorter; have := sign.shorter; omega)

/-- The minus sign in front of a number, true if it is there. -/
def readMinus (cs : List Char) : Taken Char Bool (cs.length + 1) :=
  match cs with
  | '-' :: cs => ⟨true, cs, by simp only [List.length_cons]; omega⟩
  | cs => ⟨false, cs, by simp⟩

/-- The literal of a number. -/
def readLiteral? (cs : List Char) : Option (Taken Char NumberLiteral cs.length) := do
  let sign := readMinus cs
  let whole ← readWhole? sign.rest
  let fraction ← readFraction? whole.rest
  let exponent ← readExponent? fraction.rest
  return ⟨⟨sign.value, whole.value, fraction.value, exponent.value⟩, exponent.rest, by
    have := sign.shorter; have := whole.shorter; have := fraction.shorter
    have := exponent.shorter; omega⟩

/-- A number in range. -/
def readNumber? (cs : List Char) : Option (Taken Char JsonNumber cs.length) := do
  let l ← readLiteral? cs
  let n ← l.value.number?
  return l.map fun _ => n

end BlockQuery.Json

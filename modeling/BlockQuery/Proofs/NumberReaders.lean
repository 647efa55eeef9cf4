/-
  A number in block text and the same number in JSON text.

  Block text takes a literal by its digits.  JSON text does so only for an integer of 64 bits; every
  other literal becomes floating point, and a decimal again by its shortest digits.  With at most
  fifteen digits, not more than 22 of them behind the point, the literal is rounded once, and its
  digits are the shortest that are rounded to the same value; so nothing is lost.  With more than 17
  digits something is lost always.

  The literal is followed through the JSON reader: its digits are gathered into a significand,
  scaled by a power of ten, rounded, and written out again.  With few digits only the rounding does
  anything, and `Shortest` undoes it.  An integer of 64 bits goes another way, on which nothing is
  rounded; so the theorem has three parts, an exact condition, one that is enough for floating
  point, and one that rules it out.
-/
import BlockQuery.Proofs.JsonNumber

namespace BlockQuery

open NumberLiteral (natOfDigits natOfDigits_append gather gather_eq significandLimit)
open Decimal (signOf HasDigits maxScale)

/-- An integer in range has its decimal. -/
theorem Decimal.ofInt?_value {i : Int} (h : i.natAbs < limit) :
    ∃ d, ofInt? i = some d ∧ d.value = i := by
  refine ⟨_, dif_pos h, ?_⟩
  rw [value_mk, pow_zero, div_one, Nat.cast_natAbs]
  by_cases hneg : i < 0
  · have hsign : signOf (decide (i < 0)) = -1 := by simp [signOf, hneg]
    rw [hsign, abs_of_neg hneg]
    push_cast
    ring
  · have hsign : signOf (decide (i < 0)) = 1 := by simp [signOf, hneg]
    rw [hsign, abs_of_nonneg (Int.not_lt.1 hneg), one_mul]

namespace PlainNumber

variable (l : PlainNumber)

/-- The number of all the digits of a literal. -/
def digits : Nat :=
  natOfDigits (l.whole ++ l.fraction)

/-- The number of a literal that is not rounded: all its digits over the power of ten for those
    behind the point. -/
theorem value_of_ofDigits? {n : Decimal} (h : l.digits < Decimal.limit)
    (hplaces : l.fraction.length ≤ maxScale)
    (hn : Decimal.ofDigits? l.negative l.whole l.fraction = some n) :
    n.value = signOf l.negative * (l.digits / 10 ^ l.fraction.length) := by
  obtain ⟨d, hd, -, hvalue⟩ := Decimal.ofDigits?_value l.negative h hplaces
  obtain rfl := Option.some.inj (hd.symm.trans hn)
  exact hvalue

/-! ## Integers of 64 bits

  A literal is an integer of JSON if it has no point and its digits fit into a word, with its sign.
  Only `-0` is none, as an integer has no sign at zero. -/

/-- What a literal is that is read as an integer: it has no point, its digits fit into a word, and
    its value is the integer. -/
theorem integer?_cases {i : Int} (h : l.literal.integer? = some i) :
    l.fraction = [] ∧ l.digits < significandLimit ∧ i.natAbs = l.digits ∧
      (i : ℚ) = signOf l.negative * l.digits := by
  have hnone : l.fraction = [] := by
    by_contra hne
    simp [NumberLiteral.integer?, literal, hne] at h
  have hdigits : natOfDigits l.whole = l.digits := by rw [digits, hnone, List.append_nil]
  simp only [NumberLiteral.integer?, literal, hnone, if_true, Option.isSome_none, Bool.or_self,
    Bool.false_eq_true, if_false, hdigits] at h
  refine ⟨hnone, ?_⟩
  cases hsign : l.negative with
  | true =>
    rw [hsign, if_pos rfl] at h
    split at h
    · rename_i hfits
      obtain rfl := Option.some.inj h
      refine ⟨by omega, by omega, ?_⟩
      rw [signOf]
      simp
    · cases h
  | false =>
    rw [hsign] at h
    simp only [Bool.false_eq_true, if_false] at h
    split at h
    · rename_i hfits
      obtain rfl := Option.some.inj h
      refine ⟨hfits, by omega, ?_⟩
      rw [signOf]
      simp
    · cases h

/-- It has the value that block text reads.  Every integer of 64 bits is in the range of decimals,
    so nothing is lost on this way. -/
theorem sameValue_integer {i : Int} {n : Decimal} (hi : l.literal.integer? = some i)
    (hn : Decimal.ofDigits? l.negative l.whole l.fraction = some n) :
    ∃ d, (JsonNumber.integer i).decimal? = some d ∧ d.sameValue n = true := by
  obtain ⟨hnone, hword, habs, hvalue⟩ := l.integer?_cases hi
  have hlimit : l.digits < Decimal.limit := lt_trans hword (by decide)
  have hplaces : l.fraction.length = 0 := by rw [hnone, List.length_nil]
  have hrange : i.natAbs < Decimal.limit := habs ▸ hlimit
  obtain ⟨d, hd, hdvalue⟩ := Decimal.ofInt?_value hrange
  refine ⟨d, hd, Decimal.sameValue_iff.2 ?_⟩
  rw [hdvalue, hvalue, l.value_of_ofDigits? hlimit (by omega) hn, hplaces, pow_zero, div_one]

/-! ## Floating point

  All digits are gathered when they fit into a word, and a quotient by a power of ten follows.
  Fifteen digits are below 2 ^ 53, and up to 22 places are a power of ten that is exact, so this
  quotient is the only step that rounds. -/

/-- A literal of few digits is gathered without loss. -/
theorem magnitude?_eq (h : l.digits < significandLimit) :
    l.literal.magnitude? = Binary64.ofParts? l.digits (-(l.fraction.length : Int)) := by
  have happend : l.digits = natOfDigits l.whole * tenTo l.fraction.length +
      natOfDigits l.fraction := natOfDigits_append _ _
  have hwhole : gather 0 l.whole = (natOfDigits l.whole, 0) := by
    have hle : natOfDigits l.whole ≤ natOfDigits l.whole * tenTo l.fraction.length :=
      Nat.le_mul_of_pos_right _ (tenTo_pos _)
    rw [gather_eq (by omega), Nat.zero_mul, Nat.zero_add]
  have hfraction : l.literal.fraction.getD [] = l.fraction := by
    rw [literal]
    split
    · rename_i hnone
      exact hnone.symm
    · rfl
  have hall : gather (natOfDigits l.whole) l.fraction = (l.digits, 0) := by
    rw [gather_eq (happend ▸ h), happend]
  have hparts : l.literal.whole = l.whole ∧ l.literal.exponent = none := ⟨rfl, rfl⟩
  simp only [NumberLiteral.magnitude?, hparts, hwhole, hfraction, hall]
  simp

section Few

variable {l} (hdigits : l.digits < tenTo 15) (hplaces : l.fraction.length ≤ 22)

include hdigits hplaces

/-- A literal of at most fifteen digits, of which at most 22 are behind the point, is rounded once.
    Its digits and the power of ten are both exact, so the quotient is rounded as it is. -/
theorem exists_magnitude? : ∃ x, l.literal.magnitude? = some x ∧
    Binary64.ofRatio? l.digits (tenTo l.fraction.length) = some x := by
  have htop : tenTo 15 = 1000000000000000 := by decide
  have hpos := tenTo_pos l.fraction.length
  have hrange : l.digits ≤ 2 ^ 64 * tenTo l.fraction.length := by omega
  obtain ⟨x, hx⟩ := Binary64.exists_ofRatio? hpos hrange
  refine ⟨x, ?_, hx⟩
  rw [l.magnitude?_eq (lt_trans hdigits (by decide)), Binary64.ofParts?_eq (by omega) hplaces, hx]

/-- Its digits are then the shortest decimal of its value.  With fifteen digits there is no other
    decimal as short in the same interval of rounding. -/
theorem shortest_of_ofRatio? {x : Binary64} (hpos : 0 < l.digits)
    (hx : Binary64.ofRatio? l.digits (tenTo l.fraction.length) = some x) :
    x.isZero = false ∧
      (x.shortest.1 * 10 ^ x.shortest.2 : ℚ) = l.digits / 10 ^ l.fraction.length := by
  have hratio : (l.digits / tenTo l.fraction.length : ℚ) =
      l.digits * 10 ^ (-(l.fraction.length : Int)) := by
    rw [zpow_neg, zpow_natCast, cast_tenTo, div_eq_mul_inv]
  have hread : x.readsAs l.digits (-(l.fraction.length : Int)) = true :=
    (Binary64.readsAs_iff (tenTo_pos _) hratio).2 hx
  have hlarge : 1 ≤ (l.digits * 10 ^ (-(l.fraction.length : Int)) * 10 ^ 28 : ℚ) := by
    have hpower : (1 : ℚ) ≤ 10 ^ (28 - l.fraction.length : Int) :=
      one_le_zpow₀ (by norm_num) (by omega)
    have hsum : -(l.fraction.length : Int) + (28 : Nat) = 28 - l.fraction.length := by omega
    have hone : (1 : ℚ) ≤ l.digits := by exact_mod_cast hpos
    rw [mul_assoc, zpow_mul_pow hsum]
    exact one_le_mul_of_one_le_of_one_le hone hpower
  have hshortest := Binary64.shortest_of_readsAs hread hdigits hlarge
  rw [← hratio, cast_tenTo] at hshortest
  exact ⟨Binary64.isZero_of_readsAs hread (by linarith), hshortest⟩

/-- So the decimal of its value is the number of the literal. -/
theorem exists_decimal? {n : Decimal}
    (hn : Decimal.ofDigits? l.negative l.whole l.fraction = some n) :
    ∃ x d, l.literal.magnitude? = some x ∧
      (JsonNumber.float l.negative x).decimal? = some d ∧ d.sameValue n = true := by
  have hlimit : l.digits < Decimal.limit := lt_trans hdigits (by decide)
  have hscale : l.fraction.length ≤ maxScale := le_trans hplaces (by decide)
  have hvalue := l.value_of_ofDigits? hlimit hscale hn
  obtain ⟨x, hmagnitude, hx⟩ := exists_magnitude? hdigits hplaces
  rcases Nat.eq_zero_or_pos l.digits with hzero | hpos
  · have hxzero : x.isZero = true := Binary64.isZero_of_ofRatio? (hzero ▸ hx)
    obtain ⟨d, hd, -, hdvalue⟩ := JsonNumber.decimal?_zero l.negative hxzero
    refine ⟨x, d, hmagnitude, hd, Decimal.sameValue_iff.2 ?_⟩
    rw [hdvalue, hvalue, hzero]
    simp
  · obtain ⟨hxne, hshortest⟩ := shortest_of_ofRatio? hdigits hplaces hpos hx
    obtain ⟨d, hd, hdvalue⟩ :=
      JsonNumber.decimal?_float l.negative hxne hpos hlimit hscale hshortest
    exact ⟨x, d, hmagnitude, hd, Decimal.sameValue_iff.2 (hdvalue.trans hvalue.symm)⟩

end Few

end PlainNumber

namespace Command

/-- Whether the document of a literal in brackets is a sequence of one number, which has the value
    of `n`. -/
def ReadsInBrackets (l : PlainNumber) (n : Decimal) : Prop :=
  ∃ d, readDocument (String.ofList ('[' :: (l.chars ++ [']']))) = .ok (.sequence [.number d]) ∧
    d.sameValue n = true

/-- The document is read when its literal has a number, and the number has a decimal. -/
theorem readsInBrackets_iff {l : PlainNumber} {n : Decimal} :
    ReadsInBrackets l n ↔
      ∃ d, l.literal.number?.bind JsonNumber.decimal? = some d ∧ d.sameValue n = true := by
  rw [ReadsInBrackets, readDocument_bracketed]
  cases l.literal.number? with
  | none => simp
  | some j =>
    simp only [Option.bind_some]
    cases j.decimal? <;> simp

instance (l : PlainNumber) (n : Decimal) : Decidable (ReadsInBrackets l n) :=
  decidable_of_iff ((l.literal.number?.bind JsonNumber.decimal?).any (·.sameValue n) = true) <| by
    rw [readsInBrackets_iff, Option.any_eq_true]

/-- A literal that block text reads as a number is read as this number in JSON text exactly when it
    is an integer of 64 bits or the shortest decimal of its floating point value is this number.  So
    it is with at most fifteen digits, of which at most 22 are behind the point; and it is not with
    more than 17 significant digits, but for integers of 64 bits. -/
theorem readsInBrackets_number (l : PlainNumber) {n : Decimal}
    (h : Block.readScalar? l.chars = some (.number n)) :
    (ReadsInBrackets l n ↔ l.literal.integer?.isSome = true ∨
      ∃ x d, l.literal.magnitude? = some x ∧
        (JsonNumber.float l.negative x).decimal? = some d ∧ d.sameValue n = true) ∧
    (l.digits < tenTo 15 → l.fraction.length ≤ 22 → ReadsInBrackets l n) ∧
    (l.literal.integer? = none → ¬ HasDigits 17 n → ¬ ReadsInBrackets l n) := by
  have hn := (Block.readScalar?_plain_iff l).1 h
  have hsign : l.literal.negative = l.negative := rfl
  have hiff : ReadsInBrackets l n ↔ l.literal.integer?.isSome = true ∨
      ∃ x d, l.literal.magnitude? = some x ∧
        (JsonNumber.float l.negative x).decimal? = some d ∧ d.sameValue n = true := by
    rw [readsInBrackets_iff, NumberLiteral.number?]
    cases hi : l.literal.integer? with
    | some i =>
      obtain ⟨d, hd, hsame⟩ := l.sameValue_integer hi hn
      exact iff_of_true ⟨d, hd, hsame⟩ (Or.inl rfl)
    | none =>
      rw [hsign]
      cases l.literal.magnitude? <;> simp
  refine ⟨hiff, ?_, ?_⟩
  · intro hdigits hplaces
    exact hiff.2 (Or.inr (PlainNumber.exists_decimal? hdigits hplaces hn))
  · intro hnone hmany hread
    rcases hiff.1 hread with hword | ⟨x, d, -, hd, hsame⟩
    · rw [hnone] at hword
      cases hword
    · exact hmany ((JsonNumber.HasDigits.of_decimal? hd).of_sameValue hsame)

/-- `-12.50` is the same number in both. -/
theorem readsInBrackets_number_short :
    let n : Decimal := ⟨true, 1250, 2, by decide, by decide⟩
    n.plain.chars = ['-', '1', '2', '.', '5', '0'] ∧ ReadsInBrackets n.plain n := by
  intro n
  have h : Block.readScalar? n.plain.chars = some (.number n) := by
    rw [Block.readScalar?_plain_iff]
    exact Decimal.ofDigits?_wholePart_lowDigits n
  exact ⟨by decide +kernel, (readsInBrackets_number n.plain h).2.1 (by decide) (by decide)⟩

/-- The greatest decimal is out of range in JSON text, and nineteen places are not kept. -/
theorem not_readsInBrackets_long :
    let n : Decimal := .ofNat 79228162514264337593543950335
    let m : Decimal := ⟨false, 1234567890123456789, 19, by decide, by decide⟩
    Block.readScalar? n.plain.chars = some (.number n) ∧ ¬ ReadsInBrackets n.plain n ∧
      Block.readScalar? m.plain.chars = some (.number m) ∧ ¬ ReadsInBrackets m.plain m := by
  have hblock : ∀ n : Decimal, n.unsignZero = n →
      Block.readScalar? n.plain.chars = some (.number n) := by
    intro n hn
    rw [Block.readScalar?_plain_iff]
    exact (Decimal.ofDigits?_wholePart_lowDigits n).trans (congrArg some hn)
  intro n m
  exact ⟨hblock n (by decide), by decide +kernel, hblock m (by decide), by decide +kernel⟩

end Command

end BlockQuery

/-
  Powers of ten, and rounding a ratio of natural numbers to the nearest integer.

  Decimal arithmetic and binary floating point both round halves to the even neighbour; they differ
  only in the grid that the ratio is scaled to first.
-/

namespace BlockQuery

/-- The power of ten with the exponent `k`.  Proofs open it by the lemmas below, one step at a
    time. -/
def tenTo (k : Nat) : Nat :=
  Nat.pow 10 k

/-- The power with exponent 0 is 1. -/
theorem tenTo_zero : tenTo 0 = 1 := rfl

/-- One more in the exponent is a factor of ten behind. -/
theorem tenTo_succ (k : Nat) : tenTo (k + 1) = tenTo k * 10 := rfl

/-- A power of ten is positive, so it may be divided by. -/
theorem tenTo_pos (k : Nat) : 0 < tenTo k :=
  Nat.pow_pos (by decide)

/-- The integer nearest to `num / den`; a half goes to the even neighbour. -/
def roundHalfEven (num den : Nat) : Nat :=
  let q := num / den
  let r := num % den
  if 2 * r < den then q else if den < 2 * r then q + 1 else q + q % 2

/-- Rounding gives no less than the quotient cut off at the point. -/
theorem div_le_roundHalfEven (num den : Nat) : num / den ≤ roundHalfEven num den := by
  simp only [roundHalfEven]
  split
  · exact Nat.le_refl _
  · split <;> omega

/-- Rounding gives at most one more than the quotient cut off at the point, so the quotient bounds
    it on both sides. -/
theorem roundHalfEven_le_div_add_one (num den : Nat) :
    roundHalfEven num den ≤ num / den + 1 := by
  simp only [roundHalfEven]
  split
  · omega
  · split <;> omega

end BlockQuery

/-
  Laws of rounding to the nearest integer.

  A rounded ratio is at least `k` exactly when the ratio is at least `k - 1/2`, where the half
  itself counts if `k` is even (`le_roundHalfEven_iff`).  That fixes the rounded ratio, so the laws
  of its size come from this one: it is within a half of the ratio, and an integer bound of the
  ratio is one of the rounded ratio.

  All of them are about natural numbers, with the half written as twice a difference.  The
  characterisation compares with every integer at once, so the other laws are that law at one
  integer and arithmetic; only the law of a common factor goes back to quotient and rest.
-/
import BlockQuery.Rounding
import Mathlib.Tactic.Ring

namespace BlockQuery

variable {num den k : Nat}

/-- A rounded ratio reaches `k` when the ratio reaches `k - 1/2`; the half goes to an even `k`. -/
theorem le_roundHalfEven_iff (hden : 0 < den) :
    k ≤ roundHalfEven num den ↔
      2 * (k * den) < 2 * num + den ∨ (2 * (k * den) = 2 * num + den ∧ k % 2 = 0) := by
  have hsplit : den * (num / den) + num % den = num := Nat.div_add_mod num den
  have hrest : num % den < den := Nat.mod_lt num hden
  simp only [roundHalfEven]
  generalize num / den = q at *
  generalize num % den = r at *
  -- `k` is the next integer above the ratio, or it lies on one side of both neighbours
  rcases Nat.lt_trichotomy k (q + 1) with hk | rfl | hk
  · have hmul : k * den ≤ q * den := Nat.mul_le_mul_right den (by omega)
    rw [Nat.mul_comm den q] at hsplit
    split
    · omega
    · split <;> omega
  · have hmul : (q + 1) * den = den * q + den := by ring
    split
    · omega
    · split <;> omega
  · have hmul : (q + 2) * den ≤ k * den := Nat.mul_le_mul_right den (by omega)
    have hadd : (q + 2) * den = den * q + 2 * den := by ring
    split
    · omega
    · split <;> omega

/-- A rounded ratio is within a half of the ratio. -/
theorem roundHalfEven_bounds (num : Nat) (hden : 0 < den) :
    2 * (roundHalfEven num den * den) ≤ 2 * num + den ∧
      2 * num ≤ 2 * (roundHalfEven num den * den) + den := by
  constructor
  · rcases (le_roundHalfEven_iff hden).1 (Nat.le_refl (roundHalfEven num den)) with h | h
    · omega
    · omega
  · have hnext : ¬ roundHalfEven num den + 1 ≤ roundHalfEven num den := by omega
    rw [le_roundHalfEven_iff hden, Nat.add_mul] at hnext
    omega

/-- An integer is rounded to itself. -/
theorem roundHalfEven_mul (k : Nat) (hden : 0 < den) : roundHalfEven (k * den) den = k := by
  rw [roundHalfEven, Nat.mul_div_cancel k hden, Nat.mul_mod_left]
  simp [hden]

/-- A common factor does not matter. -/
theorem roundHalfEven_mul_mul {c : Nat} (hc : 0 < c) (num den : Nat) :
    roundHalfEven (c * num) (c * den) = roundHalfEven num den := by
  have hlt : ∀ a b, c * a < c * b ↔ a < b := fun a b => Nat.mul_lt_mul_left hc
  simp only [roundHalfEven, Nat.mul_div_mul_left _ _ hc, Nat.mul_mod_mul_left,
    Nat.mul_left_comm 2 c, hlt]

/-- A rounded ratio is below an integer bound when the ratio is not above the integer before. -/
theorem roundHalfEven_le (hden : 0 < den) (h : num ≤ k * den) : roundHalfEven num den ≤ k := by
  by_contra hlt
  have hreach : k + 1 ≤ roundHalfEven num den := by omega
  rw [le_roundHalfEven_iff hden, Nat.add_mul] at hreach
  omega

/-- A ratio less than a half away from an integer is rounded to it. -/
theorem roundHalfEven_eq (hden : 0 < den) (hlower : 2 * (k * den) < 2 * num + den)
    (hupper : 2 * num < 2 * (k * den) + den) : roundHalfEven num den = k := by
  refine Nat.le_antisymm ?_ ((le_roundHalfEven_iff hden).2 (Or.inl hlower))
  by_contra hlt
  have hreach : k + 1 ≤ roundHalfEven num den := by omega
  rw [le_roundHalfEven_iff hden, Nat.add_mul] at hreach
  omega

/-- A rounded ratio is above an integer bound when the ratio is. -/
theorem le_roundHalfEven (hden : 0 < den) (h : k * den ≤ num) : k ≤ roundHalfEven num den :=
  (le_roundHalfEven_iff hden).2 (Or.inl (by omega))

end BlockQuery

/-
  What rounding to 53 bits does to a ratio, in rational numbers.

  A rounded ratio is so close to the ratio (`dist_of_ofRatio?`) that decimals of fifteen digits,
  which stand farther apart, are told apart by it.

  A floating point value is kept as a number of units, each `2 ^ -1074`, so all of its arithmetic is
  on natural numbers; the rational numbers only come in to say how close a result is.  Rounding to
  53 bits is rounding to a multiple of the last place (`step`), half to even, and the last place is
  at most `2 ^ -52` of the ratio as long as the ratio is not too small.  That is the only error
  bound, and everything about reading a decimal follows from it.
-/
import BlockQuery.Json.Binary64
import BlockQuery.Proofs.Rounding
import Mathlib.Algebra.Order.Field.Power
import Mathlib.Algebra.Order.Field.Rat
import Mathlib.Tactic.FieldSimp
import Mathlib.Tactic.Linarith
import Mathlib.Tactic.NormNum
import Mathlib.Tactic.Positivity

namespace BlockQuery

/-- The powers of ten of the program, as rational numbers. -/
theorem cast_tenTo (k : Nat) : (tenTo k : ℚ) = 10 ^ k :=
  Nat.cast_pow 10 k

/-- Powers of ten with exponents that need not be natural. -/
theorem zpow_mul_pow {i j : Int} {k : Nat} (h : i + k = j) : (10 : ℚ) ^ i * 10 ^ k = 10 ^ j := by
  rw [← zpow_natCast, ← zpow_add₀ (by norm_num), h]

namespace Binary64

variable {x : Binary64} {num den : Nat}

/-- One is a positive number of units. -/
theorem one_pos : 0 < one := by
  decide +kernel

/-- The rational number that a value is. -/
def value (x : Binary64) : ℚ :=
  x.units / one

/-! ## Rounding a ratio

  The bounds are about naturals, with the denominator multiplied out, and they are turned into a
  distance of rational numbers at the end (`dist_of_ofRatio?`).  Ratios that are exact, as naturals
  of 53 bits are, are the second use: they are rounded to themselves. -/

/-- The number of units that the last of 53 significant bits of a ratio stands for. -/
def step (num den : Nat) : Nat :=
  Nat.pow 2 (Nat.log2 (num * one / den) + 1 - 53)

/-- The last place is at least one unit. -/
theorem step_pos (num den : Nat) : 0 < step num den :=
  Nat.pow_pos (by decide)

/-- The last place is one unit, or its value is at most `2 ^ -52` of the ratio. -/
theorem mul_step_le (num den : Nat) : 2 ^ 52 * step num den ≤ 2 ^ 52 + num * one / den := by
  rw [step]
  generalize num * one / den = q
  by_cases hbits : Nat.log2 q ≤ 52
  · have hzero : Nat.log2 q + 1 - 53 = 0 := by omega
    rw [hzero]
    exact Nat.le_add_right _ _
  · have hq : q ≠ 0 := by
      rintro rfl
      exact hbits (by decide)
    have hsplit : 52 + (Nat.log2 q + 1 - 53) = Nat.log2 q := by omega
    calc 2 ^ 52 * 2 ^ (Nat.log2 q + 1 - 53) = 2 ^ Nat.log2 q := by rw [← Nat.pow_add, hsplit]
      _ ≤ q := Nat.log2_self_le hq
      _ ≤ 2 ^ 52 + q := Nat.le_add_left _ _

/-- A ratio rounded to 53 significant bits, in units. -/
def roundedUnits (num den : Nat) : Nat :=
  roundHalfEven (num * one) (den * step num den) * step num den

/-- A ratio has a value when it is in range after rounding. -/
theorem ofRatio?_eq (num den : Nat) :
    ofRatio? num den = if roundedUnits num den < limit then some ⟨roundedUnits num den⟩ else none :=
  rfl

/-- The value is the rounded ratio. -/
theorem ofRatio?_eq_some (h : ofRatio? num den = some x) : x.units = roundedUnits num den := by
  rw [ofRatio?_eq] at h
  split at h
  · obtain rfl := Option.some.inj h
    rfl
  · cases h

/-- A rounded ratio is within half of the last place of the ratio. -/
theorem roundedUnits_bounds (num : Nat) (hden : 0 < den) :
    2 * (roundedUnits num den * den) ≤ 2 * (num * one) + den * step num den ∧
      2 * (num * one) ≤ 2 * (roundedUnits num den * den) + den * step num den := by
  have hpos : 0 < den * step num den := Nat.mul_pos hden (step_pos num den)
  have hbounds := roundHalfEven_bounds (num * one) hpos
  rw [roundedUnits]
  generalize roundHalfEven (num * one) (den * step num den) = r at *
  have hmul : r * step num den * den = r * (den * step num den) := by ring
  rwa [hmul]

/-- The last place compared with the ratio, multiplied out. -/
theorem mul_den_step_le (num den : Nat) :
    2 ^ 52 * (den * step num den) ≤ 2 ^ 52 * den + num * one := by
  calc 2 ^ 52 * (den * step num den) = den * (2 ^ 52 * step num den) := by ring
    _ ≤ den * (2 ^ 52 + num * one / den) := Nat.mul_le_mul_left den (mul_step_le num den)
    _ = 2 ^ 52 * den + den * (num * one / den) := by ring
    _ ≤ 2 ^ 52 * den + num * one := Nat.add_le_add_left (Nat.mul_div_le _ _) _

/-- A ratio that is not too great is in range. -/
theorem exists_ofRatio? (hden : 0 < den) (h : num ≤ 2 ^ 64 * den) :
    ∃ x, ofRatio? num den = some x := by
  have hlast := mul_den_step_le num den
  have hupper := (roundedUnits_bounds num hden).1
  have hlimit : 2 ^ 66 * one ≤ limit := by decide +kernel
  have hone := one_pos
  refine ⟨_, (ofRatio?_eq num den).trans (if_pos ?_)⟩
  refine lt_of_lt_of_le (Nat.lt_of_mul_lt_mul_right (a := den) ?_) hlimit
  have hnum : num * one ≤ 2 ^ 64 * (one * den) := by
    calc num * one ≤ 2 ^ 64 * den * one := Nat.mul_le_mul_right one h
      _ = 2 ^ 64 * (one * den) := by ring
  have hsmall : den ≤ one * den := Nat.le_mul_of_pos_left den hone
  rw [Nat.mul_assoc]
  omega

/-- One is a power of two in units, so shifting a natural number keeps it exact. -/
theorem exists_one_eq : ∃ q, one = 2 ^ q :=
  ⟨1074, by decide +kernel⟩

/-- A multiple of the last place is rounded to itself. -/
theorem roundedUnits_of_dvd (h : step num 1 ∣ num * one) : roundedUnits num 1 = num * one := by
  obtain ⟨c, hc⟩ := h
  rw [roundedUnits, Nat.one_mul, hc, Nat.mul_comm (step num 1) c,
    roundHalfEven_mul _ (step_pos _ _)]

/-- A natural number of 53 bits, shifted, is exact. -/
theorem ofRatio?_exact {a j : Nat} (ha : a < 2 ^ 53) (hj : a * 2 ^ j < 2 ^ 100) :
    ofRatio? (a * 2 ^ j) 1 = some ⟨a * 2 ^ j * one⟩ := by
  have hlimit : 2 ^ 100 * one ≤ limit := by decide +kernel
  have hrange : a * 2 ^ j * one < limit :=
    lt_of_lt_of_le (Nat.mul_lt_mul_of_pos_right hj one_pos) hlimit
  obtain ⟨q, hq⟩ := exists_one_eq
  have hdvd : step (a * 2 ^ j) 1 ∣ a * 2 ^ j * one := by
    have hsplit : a * 2 ^ j * one = a * 2 ^ (j + q) := by rw [hq, Nat.mul_assoc, ← Nat.pow_add]
    rw [step, Nat.div_one, hsplit]
    refine Dvd.dvd.mul_left (Nat.pow_dvd_pow 2 ?_) a
    by_cases hzero : a * 2 ^ (j + q) = 0
    · rw [hzero]
      exact Nat.zero_le _
    · have hbits : (a * 2 ^ (j + q)).log2 < 53 + (j + q) := by
        rw [Nat.log2_lt hzero, Nat.pow_add 2 53]
        exact Nat.mul_lt_mul_of_pos_right ha (Nat.two_pow_pos _)
      omega
  rw [ofRatio?_eq, roundedUnits_of_dvd hdvd, if_pos hrange]

/-- There is room for thirty decimal places and the last bit below one. -/
theorem le_one : 2 ^ 52 * 10 ^ 30 ≤ one := by
  decide +kernel

/-- A rounded ratio that is not too small differs from the ratio by at most `2 ^ -52` of it. -/
theorem dist_of_ofRatio? (hden : 0 < den) (h : ofRatio? num den = some x)
    (hnormal : 1 ≤ (num / den : ℚ) * 10 ^ 30) :
    |x.value - num / den| ≤ num / den / 2 ^ 52 := by
  have hbounds := roundedUnits_bounds num hden
  rw [← ofRatio?_eq_some h] at hbounds
  have hstep := mul_den_step_le num den
  have hone := le_one
  have hpos := one_pos
  rw [value]
  generalize step num den = s at *
  generalize one = o at *
  have hden' : (0 : ℚ) < den := Nat.cast_pos.2 hden
  have hone' : (0 : ℚ) < o := Nat.cast_pos.2 hpos
  have hupper : (2 * (x.units * den) : ℚ) ≤ 2 * (num * o) + den * s := by
    exact_mod_cast hbounds.1
  have hlower : (2 * (num * o) : ℚ) ≤ 2 * (x.units * den) + den * s := by
    exact_mod_cast hbounds.2
  have hlast : (2 ^ 52 * (den * s) : ℚ) ≤ 2 ^ 52 * den + num * o := by
    exact_mod_cast hstep
  have hsmall : (2 ^ 52 * den : ℚ) ≤ num * o := by
    have hmany : (2 ^ 52 * 10 ^ 30 : ℚ) ≤ o := by exact_mod_cast hone
    rw [div_mul_eq_mul_div, le_div_iff₀ hden', one_mul] at hnormal
    calc (2 ^ 52 * den : ℚ) ≤ 2 ^ 52 * (num * 10 ^ 30) := by gcongr
      _ = num * (2 ^ 52 * 10 ^ 30) := by ring
      _ ≤ num * o := by gcongr
  -- the distance in parts of `1 / (den * o)`
  have hdist : |(x.units * den - num * o : ℚ)| ≤ num * o / 2 ^ 52 := by
    rw [abs_le]
    constructor
    · linarith
    · linarith
  have hsplit : (x.units / o - num / den : ℚ) = (x.units * den - num * o) / (o * den) := by
    field_simp
  have hquotient : (num / den / 2 ^ 52 : ℚ) = num * o / 2 ^ 52 / (o * den) := by
    field_simp
  rw [hsplit, hquotient, abs_div, abs_of_pos (mul_pos hone' hden')]
  gcongr

/-- A common factor does not matter. -/
theorem ofRatio?_mul_mul {c : Nat} (hc : 0 < c) (num den : Nat) :
    ofRatio? (c * num) (c * den) = ofRatio? num den := by
  have hfloor : c * (num * one) / (c * den) = num * one / den := Nat.mul_div_mul_left _ _ hc
  simp only [ofRatio?, hfloor, Nat.mul_assoc, roundHalfEven_mul_mul hc]

/-- Only the ratio matters. -/
theorem ofRatio?_congr {num' den' : Nat} (hden : 0 < den) (hden' : 0 < den')
    (h : (num / den : ℚ) = num' / den') : ofRatio? num den = ofRatio? num' den' := by
  have hcross : den' * num = den * num' := by
    rw [div_eq_div_iff (Nat.cast_pos.2 hden).ne' (Nat.cast_pos.2 hden').ne'] at h
    have hcast : den' * num = num' * den := by
      rw [Nat.mul_comm]
      exact_mod_cast h
    rw [hcast, Nat.mul_comm]
  calc ofRatio? num den = ofRatio? (den' * num) (den' * den) := (ofRatio?_mul_mul hden' _ _).symm
    _ = ofRatio? (den * num') (den * den') := by rw [hcross, Nat.mul_comm den' den]
    _ = ofRatio? num' den' := ofRatio?_mul_mul hden _ _

/-! ## Significands and powers of ten

  Reading a number multiplies its significand by a power of ten or divides it by one.  As long as
  the power is at most the 22nd, both sides are exact, and the one operation rounds once. -/

section Parts

variable {m k : Nat}

/-- A product of two values is a ratio of their units. -/
theorem mul?_mk (m k : Nat) : (mk m).mul? ⟨k⟩ = ofRatio? (m * k) (one * one) := rfl

/-- So is a quotient. -/
theorem div?_mk (m k : Nat) : (mk m).div? ⟨k⟩ = ofRatio? m k := rfl

/-- A significand of 53 bits is exact. -/
theorem ofRatio?_significand (hm : m < 2 ^ 53) : ofRatio? m 1 = some ⟨m * one⟩ := by
  have hexact := ofRatio?_exact (j := 0) hm (by omega)
  rwa [Nat.pow_zero, Nat.mul_one] at hexact

/-- The powers of ten up to the 22nd are exact. -/
theorem ten?_eq (hk : k ≤ 22) : ten? k = some ⟨tenTo k * one⟩ := by
  have hsplit : tenTo k = 5 ^ k * 2 ^ k := by
    rw [← Nat.mul_pow]
    rfl
  have hfive : 5 ^ k ≤ 5 ^ 22 := Nat.pow_le_pow_right (by decide) hk
  have hten : 5 ^ k * 2 ^ k ≤ 5 ^ 22 * 2 ^ 22 :=
    Nat.mul_le_mul hfive (Nat.pow_le_pow_right (by decide) hk)
  rw [ten?, hsplit]
  exact ofRatio?_exact (by omega) (by omega)

/-- Scaling up within the powers that there are is one product. -/
theorem scaleUp?_eq {y : Binary64} (hk : k ≤ maxTen) (hten : ten? k = some y) :
    x.scaleUp? k = x.mul? y := by
  rw [scaleUp?, if_pos hk, hten, Option.bind_some]

/-- Scaling down within them is one quotient. -/
theorem scaleDown?_eq {y : Binary64} (hk : k - 1 < maxTen) (hten : ten? k = some y) :
    x.scaleDown? k = x.div? y := by
  have hparts : (k - 1) / maxTen = 0 := Nat.div_eq_of_lt hk
  rw [scaleDown?, hparts, divideByMaxTen?, Option.bind_some, Nat.zero_mul, Nat.sub_zero, hten,
    Option.bind_some]

/-- A significand of 53 bits and up to 22 places are rounded once. -/
theorem ofParts?_eq (hm : m < 2 ^ 53) (hk : k ≤ 22) :
    ofParts? m (-(k : Int)) = ofRatio? m (tenTo k) := by
  rw [ofParts?, ofRatio?_significand hm, Option.bind_some]
  rcases Nat.eq_zero_or_pos k with rfl | hpos
  · rw [if_pos (by decide), Nat.cast_zero, neg_zero, Int.toNat_zero,
      scaleUp?_eq (Nat.zero_le _) (ten?_eq hk), mul?_mk, tenTo_zero, Nat.one_mul]
    calc ofRatio? (m * one * one) (one * one)
        = ofRatio? (one * one * m) (one * one * 1) := by
          rw [Nat.mul_one, Nat.mul_assoc, Nat.mul_comm m]
      _ = ofRatio? m 1 := ofRatio?_mul_mul (Nat.mul_pos one_pos one_pos) _ _
  · have hsmall : k - 1 < maxTen := by
      rw [maxTen]
      omega
    rw [if_neg (by omega), neg_neg, Int.toNat_natCast, scaleDown?_eq hsmall (ten?_eq hk), div?_mk,
      Nat.mul_comm m, Nat.mul_comm (tenTo k)]
    exact ofRatio?_mul_mul one_pos _ _

end Parts

/-! ## Decimals

  A decimal, given by digits and an exponent, reads as a value when the ratio that it is rounds to
  the value.  So two decimals of one value read as the same, however many zeros they have. -/

/-- The denominator of a decimal is positive, with an exponent of either sign. -/
theorem decimalRatio_pos (m : Nat) (e : Int) : 0 < (decimalRatio m e).2 := by
  rw [decimalRatio]
  split
  · exact Nat.one_pos
  · exact tenTo_pos _

/-- The ratio of a decimal is its digits times a power of ten. -/
theorem decimalRatio_eq (m : Nat) (e : Int) :
    ((decimalRatio m e).1 / (decimalRatio m e).2 : ℚ) = m * 10 ^ e := by
  rw [decimalRatio]
  split
  · rename_i he
    obtain ⟨k, rfl⟩ := Int.eq_ofNat_of_zero_le he
    simp [cast_tenTo]
  · rename_i he
    obtain ⟨k, hk⟩ := Int.eq_ofNat_of_zero_le (show 0 ≤ -e by omega)
    obtain rfl : e = -(k : Int) := by omega
    simp [cast_tenTo, div_eq_mul_inv]

/-- A decimal reads as a value when a ratio that is equal to it is rounded to the value. -/
theorem readsAs_iff {m : Nat} {e : Int} (hden : 0 < den) (h : (num / den : ℚ) = m * 10 ^ e) :
    x.readsAs m e = true ↔ ofRatio? num den = some x := by
  rw [readsAs, beq_iff_eq,
    ofRatio?_congr (decimalRatio_pos m e) hden ((decimalRatio_eq m e).trans h.symm)]

/-- A value is close to each decimal that reads as it. -/
theorem dist_of_readsAs {m : Nat} {e : Int} (h : x.readsAs m e = true)
    (hnormal : 1 ≤ (m * 10 ^ e * 10 ^ 30 : ℚ)) :
    |x.value - m * 10 ^ e| ≤ m * 10 ^ e / 2 ^ 52 := by
  have heq := decimalRatio_eq m e
  rw [← heq] at hnormal ⊢
  exact dist_of_ofRatio? (decimalRatio_pos m e)
    ((readsAs_iff (decimalRatio_pos m e) heq).1 h) hnormal

/-- Zero is rounded to zero. -/
theorem isZero_of_ofRatio? (h : ofRatio? 0 den = some x) : x.isZero = true := by
  have hround : roundHalfEven 0 (den * step 0 den) = 0 := by
    rw [roundHalfEven, Nat.zero_div, Nat.zero_mod]
    split
    · rfl
    · split
      · omega
      · rfl
  rw [isZero, ofRatio?_eq_some h, roundedUnits, Nat.zero_mul, hround, Nat.zero_mul]
  rfl

/-- What is not too small does not read as zero. -/
theorem isZero_of_readsAs {m : Nat} {e : Int} (h : x.readsAs m e = true)
    (hnormal : 1 ≤ (m * 10 ^ e * 10 ^ 30 : ℚ)) : x.isZero = false := by
  by_contra hzero
  rw [Bool.not_eq_false, isZero, beq_iff_eq] at hzero
  have hvalue : x.value = 0 := by rw [value, hzero, Nat.cast_zero, zero_div]
  have hdist := dist_of_readsAs h hnormal
  rw [hvalue, zero_sub, abs_neg] at hdist
  have hle := le_abs_self (m * 10 ^ e : ℚ)
  linarith

/-- Two decimals with the same value read as the same. -/
theorem readsAs_congr {a c : Nat} {b d : Int} (h : (a * 10 ^ b : ℚ) = c * 10 ^ d)
    (hread : x.readsAs a b = true) : x.readsAs c d = true :=
  (readsAs_iff (decimalRatio_pos a b) ((decimalRatio_eq a b).trans h)).2
    ((readsAs_iff (decimalRatio_pos a b) (decimalRatio_eq a b)).1 hread)

end Binary64

end BlockQuery

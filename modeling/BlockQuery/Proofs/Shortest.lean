/-
  Digits of a floating point value.

  Of each length there are two decimals next to a value, and one of them may read back.  Decimals of
  fifteen digits stand farther apart than rounding moves them: so when one of them reads as a value,
  it is the only one, and the shortest decimal of the value is this number (`shortest_of_readsAs`).

  The search tries one digit, then two, and so on up to seventeen, and it takes the first decimal
  that reads back as the value.  That the number it finds is the one that was read takes three
  steps: with fifteen digits that number is found, as it is the nearest of its length
  (`digitsOfLength?_of_near`); so the search stops at fifteen or earlier (`exists_shortest`); and
  whatever it stops at is counted in the same unit and is as near to the value, so that it is the
  same number (`eq_of_dist_lt`).
-/
import BlockQuery.Proofs.Binary64
import BlockQuery.Proofs.Digits
import Mathlib.Data.Nat.Digits.Defs

namespace BlockQuery.Binary64

variable {x : Binary64}

/-! ## Digits of a value

  The magnitude of a value is the power of ten next above it.  It is found by counting the digits of
  a whole number, and the bounds here say that the count is right. -/

/-- The whole part of a ratio. -/
theorem div_bounds (num : Nat) (hden : 0 < den) :
    ((num / den : Nat) : ℚ) ≤ num / den ∧ (num / den : ℚ) < (num / den : Nat) + 1 := by
  have hden' : (0 : ℚ) < den := Nat.cast_pos.2 hden
  constructor
  · rw [le_div_iff₀ hden']
    exact_mod_cast Nat.div_mul_le_self num den
  · rw [div_lt_iff₀ hden']
    exact_mod_cast Nat.lt_mul_of_div_lt (Nat.lt_succ_self _) hden

/-- A number is below the power of ten of its length. -/
theorem lt_tenTo_length (n : Nat) : n < tenTo (Text.natChars n).length := by
  have hdigits := NumberLiteral.natOfDigits_lt fun _ => Text.isDigit_of_mem_natChars (n := n)
  rwa [NumberLiteral.natOfDigits_natChars] at hdigits

/-- It is at least the power of ten before, unless it is zero, since its first digit is not zero. -/
theorem tenTo_length_le {n : Nat} (hn : 0 < n) : tenTo ((Text.natChars n).length - 1) ≤ n := by
  by_contra hlt
  have hpred : 0 < (Text.natChars n).length - 1 := by
    refine Nat.pos_of_ne_zero fun hzero => hlt ?_
    rw [hzero]
    exact hn
  have hle := Nat.toDigits_length 10 n _ hpred (Nat.lt_of_not_le hlt)
  have hlen : (Text.natChars n).length = (Nat.toDigits 10 n).length := rfl
  omega

section Magnitude

variable {k n : Nat}

/-- The whole part of a value with its point moved.  The search works with whole numbers, and this
    says what they are of the value. -/
theorem shift_bounds (x : Binary64) (k : Nat) :
    ((x.units * tenTo k / one : Nat) : ℚ) ≤ x.value * 10 ^ k ∧
      x.value * 10 ^ k < (x.units * tenTo k / one : Nat) + 1 := by
  have hshift : x.value * 10 ^ k = (x.units * tenTo k : Nat) / one := by
    rw [value, Nat.cast_mul, cast_tenTo, div_mul_eq_mul_div]
  rw [hshift]
  exact div_bounds _ one_pos

/-- The length of this whole part bounds the value from above. -/
theorem value_lt_of_length (hn : (Text.natChars (x.units * tenTo k / one)).length = n) :
    x.value < 10 ^ ((n : Int) - k) := by
  have hten : (0 : ℚ) < 10 ^ k := by positivity
  have hlt := lt_tenTo_length (x.units * tenTo k / one)
  rw [hn] at hlt
  refine lt_of_mul_lt_mul_right ?_ hten.le
  calc x.value * 10 ^ k < (x.units * tenTo k / one : Nat) + 1 := (shift_bounds x k).2
    _ ≤ tenTo n := by exact_mod_cast hlt
    _ = 10 ^ ((n : Int) - k) * 10 ^ k := by
        rw [zpow_mul_pow (Int.sub_add_cancel (n : Int) k), zpow_natCast, cast_tenTo]

/-- If it is not zero, its length bounds the value from below too. -/
theorem le_value_of_length (hn : (Text.natChars (x.units * tenTo k / one)).length = n)
    (h : 1 ≤ x.value * 10 ^ k) : 10 ^ ((n : Int) - k - 1) ≤ x.value := by
  have hten : (0 : ℚ) < 10 ^ k := by positivity
  have hlen : 1 ≤ n := hn ▸ List.length_pos_iff.2 (Text.natChars_ne_nil _)
  have hpos : 0 < x.units * tenTo k / one := by
    have hlt := lt_of_le_of_lt h (shift_bounds x k).2
    have hcast : (0 : ℚ) < (x.units * tenTo k / one : Nat) := by linarith
    exact_mod_cast hcast
  have hle := tenTo_length_le hpos
  rw [hn] at hle
  refine le_of_mul_le_mul_right ?_ hten
  calc (10 : ℚ) ^ ((n : Int) - k - 1) * 10 ^ k = tenTo (n - 1) := by
        have hsum : (n : Int) - k - 1 + k = (n - 1 : Nat) := by omega
        rw [zpow_mul_pow hsum, zpow_natCast, cast_tenTo]
    _ ≤ (x.units * tenTo k / one : Nat) := by exact_mod_cast hle
    _ ≤ x.value * 10 ^ k := (shift_bounds x k).1

end Magnitude

/-- A value is below the power of ten that its magnitude names. -/
theorem value_lt_magnitude (x : Binary64) : x.value < 10 ^ x.magnitude :=
  value_lt_of_length rfl

/-- A value that is not too small is at least the power of ten before.  The magnitude is counted
    with the point moved by a fixed number of places, so a value with all its digits further down is
    not seen. -/
theorem magnitude_le_value (h : 1 ≤ x.value * 10 ^ 30) : 10 ^ (x.magnitude - 1) ≤ x.value := by
  refine le_value_of_length rfl (h.trans ?_)
  have hpos : 0 ≤ x.value := by
    rw [value]
    positivity
  gcongr
  · norm_num
  · norm_num

/-! ## Decimals of one length

  For each length the search computes the whole part of the value in units of its last digit, and
  tries this number and the next.  What it returns is therefore next to the value, whether it is the
  nearest or not. -/

section Digits

variable {n d : Nat} {e : Int}

/-- A power of ten is a positive ratio. -/
theorem decimalRatio_one_pos (e : Int) : 0 < (decimalRatio 1 e).1 := by
  rw [decimalRatio]
  split
  · exact Nat.mul_pos Nat.one_pos (tenTo_pos _)
  · exact Nat.one_pos

/-- A value as a multiple of a power of ten.  The power may be a fraction, and then it stands on the
    other side of the quotient. -/
theorem scaled_eq (x : Binary64) (e : Int) :
    ((x.units * (decimalRatio 1 e).2 : Nat) / (one * (decimalRatio 1 e).1 : Nat) : ℚ) =
      x.value / 10 ^ e := by
  have hunit := decimalRatio_eq 1 e
  rw [Nat.cast_one, one_mul] at hunit
  rw [← hunit, value, div_div_div_eq, Nat.cast_mul, Nat.cast_mul]

/-- The unit of the last digit is positive. -/
theorem scaled_den_pos (e : Int) : 0 < one * (decimalRatio 1 e).1 :=
  Nat.mul_pos one_pos (decimalRatio_one_pos e)

/-- What is found of one length reads back, and it is one of two neighbours: the whole number of
    units in the value, or the next one. -/
theorem digitsOfLength?_cases (h : x.digitsOfLength? n = some (d, e)) :
    e = x.magnitude - n ∧ x.readsAs d e = true ∧
      x.units * (decimalRatio 1 e).2 / (one * (decimalRatio 1 e).1) ≤ d ∧
      d ≤ x.units * (decimalRatio 1 e).2 / (one * (decimalRatio 1 e).1) + 1 := by
  rw [digitsOfLength?] at h
  obtain ⟨m, hm⟩ : ∃ m, m = x.magnitude - n := ⟨_, rfl⟩
  rw [← hm] at h ⊢
  generalize hbelow : x.units * (decimalRatio 1 m).2 / (one * (decimalRatio 1 m).1) = below at h
  have hlower := div_le_roundHalfEven (x.units * (decimalRatio 1 m).2) (one * (decimalRatio 1 m).1)
  have hupper :=
    roundHalfEven_le_div_add_one (x.units * (decimalRatio 1 m).2) (one * (decimalRatio 1 m).1)
  rw [hbelow] at hlower hupper
  generalize roundHalfEven (x.units * (decimalRatio 1 m).2) (one * (decimalRatio 1 m).1) = r at *
  obtain ⟨other, hother⟩ : ∃ c, c = if r = below then below + 1 else below := ⟨_, rfl⟩
  rw [← hother] at h
  by_cases hread : x.readsAs r m = true
  · rw [if_pos hread] at h
    obtain ⟨rfl, rfl⟩ := Prod.mk.inj (Option.some.inj h)
    rw [hbelow]
    exact ⟨rfl, hread, hlower, hupper⟩
  · rw [if_neg hread] at h
    by_cases hread' : x.readsAs other m = true
    · rw [if_pos hread'] at h
      obtain ⟨rfl, rfl⟩ := Prod.mk.inj (Option.some.inj h)
      rw [hbelow]
      refine ⟨rfl, hread', ?_, ?_⟩
      · rw [hother]
        split <;> omega
      · rw [hother]
        split <;> omega
    · rw [if_neg hread'] at h
      cases h

/-- What is found of one length is next to the value. -/
theorem digitsOfLength?_eq_some (h : x.digitsOfLength? n = some (d, e)) :
    e = x.magnitude - n ∧ x.readsAs d e = true ∧
      (d : ℚ) ≤ x.value / 10 ^ e + 1 ∧ x.value / 10 ^ e < d + 1 := by
  obtain ⟨he, hread, hlower, hupper⟩ := digitsOfLength?_cases h
  obtain ⟨hfloor, hceil⟩ := div_bounds (x.units * (decimalRatio 1 e).2) (scaled_den_pos e)
  rw [scaled_eq] at hfloor hceil
  generalize x.units * (decimalRatio 1 e).2 / (one * (decimalRatio 1 e).1) = below at *
  have hlower' : (below : ℚ) ≤ d := by exact_mod_cast hlower
  have hupper' : (d : ℚ) ≤ below + 1 := by exact_mod_cast hupper
  exact ⟨he, hread, by linarith, by linarith⟩

/-- A decimal that reads back is found of its length when it is nearer than half of its last place.
    It is then the neighbour that the search tries first. -/
theorem digitsOfLength?_of_near (hread : x.readsAs d (x.magnitude - n) = true)
    (hnear : |x.value / 10 ^ (x.magnitude - n) - d| < 1 / 2) :
    x.digitsOfLength? n = some (d, x.magnitude - n) := by
  have hden := scaled_den_pos (x.magnitude - n)
  have hround : roundHalfEven (x.units * (decimalRatio 1 (x.magnitude - n)).2)
      (one * (decimalRatio 1 (x.magnitude - n)).1) = d := by
    rw [← scaled_eq] at hnear
    generalize x.units * (decimalRatio 1 (x.magnitude - n)).2 = num at *
    generalize one * (decimalRatio 1 (x.magnitude - n)).1 = den at *
    have hden' : (0 : ℚ) < den := Nat.cast_pos.2 hden
    obtain ⟨hlower, hupper⟩ := abs_lt.1 hnear
    rw [lt_sub_iff_add_lt, lt_div_iff₀ hden'] at hlower
    rw [sub_lt_iff_lt_add, div_lt_iff₀ hden'] at hupper
    refine roundHalfEven_eq hden ?_ ?_
    · have hcast : (2 * (d * den) : ℚ) < 2 * num + den := by linarith
      exact_mod_cast hcast
    · have hcast : (2 * num : ℚ) < 2 * (d * den) + den := by linarith
      exact_mod_cast hcast
  simp only [digitsOfLength?]
  rw [hround, if_pos hread]

/-- A decimal that is found of a length has that many digits, or it is the power of ten behind
    them. -/
theorem digits_bounds (hn : 1 ≤ n) (h : x.digitsOfLength? n = some (d, e)) :
    d ≤ tenTo n ∧ (1 ≤ x.value * 10 ^ 30 → tenTo (n - 1) ≤ d) := by
  obtain ⟨rfl, -, hupper, hlower⟩ := digitsOfLength?_eq_some h
  have hten : (0 : ℚ) < 10 ^ (x.magnitude - n) := by positivity
  constructor
  · have hlt : x.value / 10 ^ (x.magnitude - n) < 10 ^ n := by
      rw [div_lt_iff₀ hten, mul_comm, zpow_mul_pow (Int.sub_add_cancel _ _)]
      exact x.value_lt_magnitude
    have hcast : (d : ℚ) < tenTo n + 1 := by
      rw [cast_tenTo]
      linarith
    exact Nat.le_of_lt_succ (by exact_mod_cast hcast)
  · intro hx
    have hsum : x.magnitude - n + (n - 1 : Nat) = x.magnitude - 1 := by omega
    have hle : 10 ^ (n - 1) ≤ x.value / 10 ^ (x.magnitude - n) := by
      rw [le_div_iff₀ hten, mul_comm, zpow_mul_pow hsum]
      exact magnitude_le_value hx
    have hcast : (tenTo (n - 1) : ℚ) < d + 1 := by
      rw [cast_tenTo]
      linarith
    exact Nat.le_of_lt_succ (by exact_mod_cast hcast)

end Digits

/-! ## The shortest decimal

  The first length that has a decimal, and what is known of the digits there. -/

/-- The shortest decimal is found at most as late as another one, because the search takes the first
    that it finds. -/
theorem exists_shortest {k : Nat} (hk : k < 17) {p : Nat × Int}
    (h : x.digitsOfLength? (k + 1) = some p) :
    ∃ n, n ≤ k ∧ x.digitsOfLength? (n + 1) = some x.shortest := by
  have hsome : ((List.range (k + 1)).findSome? fun n => x.digitsOfLength? (n + 1)).isSome := by
    rw [List.findSome?_isSome_iff]
    exact ⟨k, List.mem_range.2 (Nat.lt_succ_self k), by rw [h]; rfl⟩
  obtain ⟨q, hq⟩ := Option.isSome_iff_exists.1 hsome
  have hshortest : x.shortest = q := by
    have hsplit : 17 = k + 1 + (16 - k) := by omega
    rw [shortest, hsplit, List.range_add, List.findSome?_append, hq]
    rfl
  obtain ⟨n, hn, hfound⟩ := List.exists_of_findSome?_eq_some hq
  exact ⟨n, Nat.le_of_lt_succ (List.mem_range.1 hn), hshortest ▸ hfound⟩

/-- The shortest decimal never has more than seventeen digits. -/
theorem shortest_le (x : Binary64) : x.shortest.1 ≤ tenTo 17 := by
  rw [shortest]
  cases hfound : (List.range 17).findSome? fun n => x.digitsOfLength? (n + 1) with
  | none => exact Nat.zero_le _
  | some p =>
    obtain ⟨n, hn, hdigits⟩ := List.exists_of_findSome?_eq_some hfound
    have hle : tenTo (n + 1) ≤ tenTo 17 :=
      Nat.pow_le_pow_right (by decide) (List.mem_range.1 hn)
    exact ((digits_bounds (Nat.le_add_left 1 n) hdigits).1).trans hle

/-! ## Fifteen digits

  Everything is measured in units of the fifteenth digit of the value.  A decimal that reads as the
  value is less than half a unit from it, and a decimal with at most fifteen digits is a multiple of
  the unit.  The hard part is the second one, since the decimal might have its digits further
  down. -/

section Fifteen

variable {a n : Nat} {b : Int}

/-- The unit of the fifteenth digit of a value. -/
def fifteenth (x : Binary64) : ℚ :=
  10 ^ (x.magnitude - 15)

/-- The unit is positive. -/
theorem fifteenth_pos (x : Binary64) : 0 < x.fifteenth :=
  zpow_pos (by norm_num) _

/-- Fifteen digits make the power of ten of the magnitude. -/
theorem fifteenth_mul (x : Binary64) : x.fifteenth * 10 ^ 15 = 10 ^ x.magnitude :=
  zpow_mul_pow (Int.sub_add_cancel _ _)

/-- A decimal of which the last digit stands before the sixteenth is counted in units of the
    fifteenth. -/
theorem eq_mul_fifteenth (a : Nat) {k : Nat} (h : x.magnitude - 15 + k = b) :
    (a * 10 ^ b : ℚ) = (a * tenTo k : Nat) * x.fifteenth := by
  rw [← zpow_mul_pow h, ← fifteenth, Nat.cast_mul, cast_tenTo]
  ring

/-- What is rounded to a value is nearer to it than half of the unit of the fifteenth digit.  A
    floating point value has 53 bits, and these are more than fifteen digits. -/
theorem dist_lt_half {q : ℚ} (hdist : |x.value - q| ≤ q / 2 ^ 52) :
    |x.value - q| < x.fifteenth / 2 := by
  have hlt := x.value_lt_magnitude
  rw [← fifteenth_mul] at hlt
  have hpos := x.fifteenth_pos
  have hlow := (abs_le.1 hdist).1
  linarith

/-- A decimal of fifteen digits has its last digit at most fifteen places below the magnitude of the
    value that it reads as.  If it stood further down, the decimal would be below the power of ten
    that the value reaches, and by more than rounding could make up for. -/
theorem le_exponent (hdigits : a < tenTo 15) (hlower : 10 ^ (x.magnitude - 1) ≤ x.value)
    (hdist : |x.value - a * 10 ^ b| ≤ a * 10 ^ b / 2 ^ 52) : x.magnitude - 15 ≤ b := by
  by_contra hlt
  have hunit : (0 : ℚ) < 10 ^ b := by positivity
  have hle : (10 : ℚ) ^ b * 10 ^ 15 ≤ 10 ^ (x.magnitude - 1) := by
    rw [zpow_mul_pow rfl]
    exact zpow_le_zpow_right₀ (by norm_num) (by push_cast; omega)
  have ha : (a + 1 : ℚ) ≤ 10 ^ 15 := by
    rw [← cast_tenTo]
    exact_mod_cast hdigits
  -- the decimal is a whole unit below the power of ten that the value reaches
  have hgap : a * 10 ^ b + 10 ^ b ≤ x.value := by
    calc (a * 10 ^ b + 10 ^ b : ℚ) = (a + 1) * 10 ^ b := by ring
      _ ≤ 10 ^ 15 * 10 ^ b := by gcongr
      _ = 10 ^ b * 10 ^ 15 := mul_comm _ _
      _ ≤ x.value := hle.trans hlower
  have hsmall : (a * 10 ^ b / 2 ^ 52 : ℚ) < 10 ^ b := by
    rw [div_lt_iff₀ (by norm_num), mul_comm]
    have ha' : (a : ℚ) < 2 ^ 52 := by
      have hnum : (10 : ℚ) ^ 15 < 2 ^ 52 := by norm_num
      linarith
    gcongr
  have := (abs_le.1 hdist).2
  linarith

/-- A decimal that is found with at most fifteen digits is counted in units of the fifteenth, and it
    is nearer to the value than half of one.  With fewer digits its unit is a multiple of this
    one. -/
theorem digitsOfLength?_fifteen {p : Nat × Int} (hn : n ≤ 14) (hnormal : 1 ≤ x.value * 10 ^ 29)
    (h : x.digitsOfLength? (n + 1) = some p) :
    ∃ c : Nat, (p.1 * 10 ^ p.2 : ℚ) = c * x.fifteenth ∧
      |x.value - c * x.fifteenth| < x.fifteenth / 2 := by
  obtain ⟨d, e⟩ := p
  obtain ⟨he, hread, -, -⟩ := digitsOfLength?_eq_some h
  have hunits := x.eq_mul_fifteenth d (b := e) (k := 14 - n) (by omega)
  refine ⟨d * tenTo (14 - n), hunits, ?_⟩
  rw [← hunits]
  -- with all its digits the decimal is too great to be rounded coarsely
  have hleast : x.value ≤ d * 10 ^ e * 10 := by
    have hdigits : (tenTo n : ℚ) ≤ d := by
      exact_mod_cast (digits_bounds (Nat.le_add_left 1 n) h).2 (by linarith)
    have hsum : e + (n + 1 : Nat) = x.magnitude := by omega
    calc x.value ≤ 10 ^ x.magnitude := x.value_lt_magnitude.le
      _ = 10 ^ e * 10 ^ n * 10 := by rw [← zpow_mul_pow hsum, pow_succ, mul_assoc]
      _ ≤ 10 ^ e * d * 10 := by
          rw [← cast_tenTo]
          gcongr
      _ = d * 10 ^ e * 10 := by rw [mul_comm (10 ^ e : ℚ)]
  exact dist_lt_half (dist_of_readsAs hread (by linarith))

/-- Multiples of a unit that are less than the unit apart are equal. -/
theorem eq_of_dist_lt {c d : Nat} {u : ℚ} (h : |c * u - d * u| < u) : c = d := by
  have hu : 0 < u := (abs_nonneg _).trans_lt h
  rw [← sub_mul, abs_mul, abs_of_pos hu, mul_lt_iff_lt_one_left hu] at h
  have hcast : |(c - d : Int)| < 1 := by exact_mod_cast h
  have hzero := Int.abs_lt_one_iff.1 hcast
  omega

/-- A decimal of at most fifteen digits is the shortest decimal of the value that it reads as.  Both
    are multiples of one unit, and both are nearer to the value than half of it, so they are less
    than a unit apart and equal. -/
theorem shortest_of_readsAs (hread : x.readsAs a b = true) (hdigits : a < tenTo 15)
    (hlarge : 1 ≤ (a * 10 ^ b * 10 ^ 28 : ℚ)) :
    (x.shortest.1 * 10 ^ x.shortest.2 : ℚ) = a * 10 ^ b := by
  have hdist := dist_of_readsAs hread (by linarith)
  have hnormal : 1 ≤ x.value * 10 ^ 29 := by
    have hlow := (abs_le.1 hdist).1
    linarith
  have hmagnitude := magnitude_le_value (x := x) (by linarith)
  -- both decimals are counted in units of the fifteenth digit
  obtain ⟨k, hk⟩ :=
    Int.eq_ofNat_of_zero_le (Int.sub_nonneg.2 (le_exponent hdigits hmagnitude hdist))
  have hunits := x.eq_mul_fifteenth a (b := b) (k := k) (by omega)
  have hread15 : x.readsAs (a * tenTo k) (x.magnitude - (15 : Nat)) = true :=
    readsAs_congr hunits hread
  have hhalf := dist_lt_half hdist
  rw [hunits] at hhalf ⊢
  generalize a * tenTo k = c at *
  have hpos := x.fifteenth_pos
  have hnear : |x.value / x.fifteenth - c| < 1 / 2 := by
    have hsplit : x.value / x.fifteenth - c = (x.value - c * x.fifteenth) / x.fifteenth := by
      field_simp
    rw [hsplit, abs_div, abs_of_pos hpos, div_lt_iff₀ hpos]
    linarith
  rw [fifteenth] at hnear
  obtain ⟨n, hn, hfound⟩ := exists_shortest (by decide) (digitsOfLength?_of_near hread15 hnear)
  obtain ⟨c', hunits', hhalf'⟩ := digitsOfLength?_fifteen hn hnormal hfound
  have hclose : |c' * x.fifteenth - c * x.fifteenth| < x.fifteenth := by
    obtain ⟨hlow, hup⟩ := abs_lt.1 hhalf
    obtain ⟨hlow', hup'⟩ := abs_lt.1 hhalf'
    rw [abs_lt]
    constructor
    · linarith
    · linarith
  rw [hunits', eq_of_dist_lt hclose]

end Fifteen

end BlockQuery.Binary64

/-
  The decimal of a JSON number.

  A floating point value becomes a decimal through its shortest digits: without zeros at the end,
  and with a point among them or with an exponent.  Either way the decimal has the value of these
  digits when a decimal has it at all; and it never has more digits than they are.

  A decimal has two limits, its mantissa and its scale, and the digits of a value must meet both.
  When they are positional they do, since they are few; when they have an exponent they do if some
  decimal has their value, as digits without zeros at the end are the least mantissa with the least
  scale for it (`places_le`).  The other direction counts digits: a decimal made of a value has at
  most seventeen that are significant, so a literal with more cannot come back.
-/
import BlockQuery.Proofs.JsonReads
import BlockQuery.Proofs.Shortest
import BlockQuery.Proofs.Tree
import BlockQuery.Proofs.Verdict

namespace BlockQuery

open NumberLiteral

/-! ## Values and signs

  The sign and the size of a decimal are kept apart here, because digits have a size only and the
  sign is put back at the end. -/

namespace Decimal

/-- The factor that a sign stands for. -/
def signOf (negative : Bool) : ℚ :=
  if negative then -1 else 1

variable (negative : Bool) {m s : Nat}

/-- The value of a decimal by its parts. -/
theorem value_mk (hm : m < limit) (hs : s ≤ maxScale) :
    (mk negative m s hm hs).value = signOf negative * (m / 10 ^ s) := by
  rw [value, cast_tenTo, signed, signOf]
  cases negative
  · simp
  · simp [neg_div]

/-- Digits that fit are read as the number that they make. -/
theorem ofDigits?_value {whole fraction : List Char} (h : natOfDigits (whole ++ fraction) < limit)
    (hlen : fraction.length ≤ maxScale) :
    ∃ d, ofDigits? negative whole fraction = some d ∧
      d.mantissa = natOfDigits (whole ++ fraction) ∧
      d.value = signOf negative * (natOfDigits (whole ++ fraction) / 10 ^ fraction.length) := by
  refine ⟨_, ofDigits?_eq h hlen, rfl, ?_⟩
  rw [sameValue_iff.1 (sameValue_unsignZero _), value_mk]

/-! ## Significant digits

  Zeros at the end of a mantissa are not significant, and neither is the scale.  So the number of
  digits is one of the value, which is what makes it fit for a statement about loss. -/

/-- A number has at most `k` significant digits: but for zeros at its end, its mantissa is at most
    the power of ten behind the numbers of `k` digits.  That power itself is let in, since it has
    one digit. -/
def HasDigits (k : Nat) (d : Decimal) : Prop :=
  ∃ c z, c ≤ tenTo k ∧ d.mantissa = c * tenTo z

/-- Equal decimals have equal mantissas when each is scaled by the other.  Signs play no part. -/
theorem mantissa_mul_of_sameValue {a b : Decimal} (h : a.sameValue b = true) :
    a.mantissa * tenTo b.scale = b.mantissa * tenTo a.scale := by
  have habs : ∀ d : Decimal, d.signed.natAbs = d.mantissa := by
    intro d
    rw [signed]
    split
    · rw [Int.natAbs_neg, Int.natAbs_natCast]
    · rw [Int.natAbs_natCast]
  have hsigned := congrArg Int.natAbs (eq_of_beq h)
  rwa [Int.natAbs_mul, Int.natAbs_mul, habs, habs, Int.natAbs_natCast, Int.natAbs_natCast]
    at hsigned

/-- How many significant digits a number has is seen from its value.  Two decimals of one value
    differ by zeros at the end of the mantissa only. -/
theorem HasDigits.of_sameValue {a b : Decimal} {k : Nat} (h : a.sameValue b = true)
    (ha : HasDigits k a) : HasDigits k b := by
  obtain ⟨c, z, hc, hmantissa⟩ := ha
  have hcross := mantissa_mul_of_sameValue h
  rw [hmantissa, Nat.mul_assoc, ← tenTo_add] at hcross
  rcases Nat.le_total a.scale (z + b.scale) with hle | hle
  · refine ⟨c, z + b.scale - a.scale, hc, ?_⟩
    refine Nat.eq_of_mul_eq_mul_right (tenTo_pos a.scale) (hcross.symm.trans ?_)
    rw [Nat.mul_assoc, ← tenTo_add, Nat.sub_add_cancel hle]
  · refine ⟨b.mantissa, 0, ?_, by rw [tenTo_zero, Nat.mul_one]⟩
    have hfactor : c = b.mantissa * tenTo (a.scale - (z + b.scale)) := by
      refine Nat.eq_of_mul_eq_mul_right (tenTo_pos (z + b.scale)) (hcross.trans ?_)
      rw [Nat.mul_assoc, ← tenTo_add, Nat.sub_add_cancel hle]
    refine le_trans ?_ hc
    rw [hfactor]
    exact Nat.le_mul_of_pos_right _ (tenTo_pos _)

end Decimal

namespace JsonNumber

open Decimal (signOf HasDigits maxScale)

/-! ## Digits without zeros at the end

  The program writes a value in scientific form: its digits without zeros at the end, and the
  exponent of the first.  Taking zeros off changes the digits and keeps the exponent, so the value
  stays. -/

/-- The value of digits of which the first has the exponent `e`: the last one then has the exponent
    less the number of the others. -/
def digitsValue (ds : List Char) (e : Int) : ℚ :=
  natOfDigits ds * 10 ^ (e + 1 - ds.length)

/-- Digits without the zeros at their end. -/
def trimmed (ds : List Char) : List Char :=
  (ds.reverse.dropWhile (· == '0')).reverse

/-- What is taken off the end are zeros. -/
theorem exists_zeros (ds : List Char) : ∃ k, ds = trimmed ds ++ List.replicate k '0' := by
  have hzero : ∀ c ∈ ds.reverse.takeWhile (· == '0'), c = '0' := fun c hc =>
    eq_of_beq (List.mem_takeWhile_imp (p := (· == '0')) hc)
  obtain ⟨k, hk⟩ : ∃ k, ds.reverse.takeWhile (· == '0') = List.replicate k '0' :=
    ⟨_, List.eq_replicate_iff.2 ⟨rfl, hzero⟩⟩
  refine ⟨k, ?_⟩
  calc ds = (ds.reverse.takeWhile (· == '0') ++ ds.reverse.dropWhile (· == '0')).reverse := by
        rw [List.takeWhile_append_dropWhile, List.reverse_reverse]
    _ = trimmed ds ++ List.replicate k '0' := by
        rw [List.reverse_append, hk, List.reverse_replicate, trimmed]

/-- Digits that are trimmed make no multiple of ten but zero. -/
theorem natOfDigits_trimmed_mod {ds : List Char} (hds : ∀ c ∈ trimmed ds, c.isDigit = true)
    (hne : natOfDigits (trimmed ds) ≠ 0) : natOfDigits (trimmed ds) % 10 ≠ 0 := by
  have hlast := List.head?_dropWhile_not (· == '0') ds.reverse
  rw [trimmed] at *
  cases hrest : ds.reverse.dropWhile (· == '0') with
  | nil =>
    rw [hrest] at hne
    exact absurd rfl hne
  | cons c cs =>
    rw [hrest] at hlast hds
    have hdigit := hds c (by simp)
    have hc : c ≠ '0' := by simpa using hlast
    have hpos : Decimal.digitValue c ≠ 0 := fun hzero => hc (eq_zero_of_digitValue hdigit hzero)
    have hlt := digitValue_lt hdigit
    rw [List.reverse_cons, natOfDigits_append, natOfDigits_cons]
    simp only [List.length_singleton, List.length_nil, natOfDigits_nil, tenTo_succ, tenTo_zero]
    omega

variable {x : Binary64}

/-- The digits of a value are those of its shortest decimal but for the zeros at the end.  How many
    zeros were taken off is kept, since the exponent makes up for them. -/
theorem exists_natChars_shortest (x : Binary64) :
    ∃ k, Text.natChars x.shortest.1 = (scientific x).1 ++ List.replicate k '0' ∧
      x.shortest.1 = natOfDigits (scientific x).1 * tenTo k := by
  obtain ⟨k, hk⟩ : ∃ k, Text.natChars x.shortest.1 = (scientific x).1 ++ List.replicate k '0' :=
    exists_zeros _
  refine ⟨k, hk, ?_⟩
  calc x.shortest.1 = natOfDigits (Text.natChars x.shortest.1) := (natOfDigits_natChars _).symm
    _ = natOfDigits (scientific x).1 * tenTo k := by
        rw [hk, natOfDigits_append, natOfDigits_zeros, List.length_replicate, Nat.add_zero]

/-- The digits of a value and their exponent have the value of its shortest decimal.  Each zero that
    was taken off would have moved the last digit by one place. -/
theorem digitsValue_scientific (x : Binary64) :
    digitsValue (scientific x).1 (scientific x).2 = x.shortest.1 * 10 ^ x.shortest.2 := by
  obtain ⟨k, hk, hnat⟩ := exists_natChars_shortest x
  have hexponent : x.shortest.2 + k = (scientific x).2 + 1 - (scientific x).1.length := by
    have hlen : (Text.natChars x.shortest.1).length = (scientific x).1.length + k := by
      rw [hk, List.length_append, List.length_replicate]
    have hsecond : (scientific x).2 = x.shortest.2 + (Text.natChars x.shortest.1).length - 1 := rfl
    rw [hsecond, hlen]
    push_cast
    ring
  rw [digitsValue, ← hexponent, ← zpow_mul_pow rfl, hnat, Nat.cast_mul, cast_tenTo]
  ring

/-- The digits of a value are digits. -/
theorem isDigit_scientific {c : Char} (h : c ∈ (scientific x).1) : c.isDigit = true := by
  obtain ⟨k, hk, -⟩ := exists_natChars_shortest x
  refine Text.isDigit_of_mem_natChars (n := x.shortest.1) ?_
  rw [hk]
  exact List.mem_append_left _ h

/-- There are at most eighteen: seventeen, or a one with seventeen zeros. -/
theorem length_scientific_le (x : Binary64) : (scientific x).1.length ≤ 18 := by
  obtain ⟨k, hk, -⟩ := exists_natChars_shortest x
  have hlt : x.shortest.1 < 10 ^ 18 := Nat.lt_of_le_of_lt x.shortest_le (by decide)
  have hall : (Text.natChars x.shortest.1).length ≤ 18 :=
    Nat.toDigits_length 10 x.shortest.1 18 (by decide) hlt
  rw [hk, List.length_append] at hall
  omega

/-- As a number they are at most the power of ten behind seventeen digits. -/
theorem natOfDigits_scientific_le (x : Binary64) : natOfDigits (scientific x).1 ≤ tenTo 17 := by
  obtain ⟨k, -, hnat⟩ := exists_natChars_shortest x
  refine le_trans ?_ x.shortest_le
  rw [hnat]
  exact Nat.le_mul_of_pos_right _ (tenTo_pos k)

/-! ## Digits with a point among them

  Exponents near zero are written out, with zeros between the digits and the point where they are
  needed.  There are at most sixteen places on either side, so a decimal always holds the number. -/

/-- Zeros at the end and places behind the point make up the exponent. -/
theorem mul_tenTo_div {m z s : Nat} {i : Int} (h : i + s = z) :
    ((m * tenTo z : Nat) / 10 ^ s : ℚ) = m * 10 ^ i := by
  have hs : (10 : ℚ) ^ s ≠ 0 := by positivity
  rw [div_eq_iff hs, mul_assoc, zpow_mul_pow h, zpow_natCast, Nat.cast_mul, cast_tenTo]

/-- Zeros around digits fill the places up to the point and behind it.  There are three forms, by
    where the point falls: behind the digits, among them, or in front of them. -/
theorem positional_spec {ds : List Char} {e : Int} (he : isPositional e = true)
    (hlen : ds.length ≤ 18) :
    ∃ z, natOfDigits ((positional ds e).1 ++ (positional ds e).2) = natOfDigits ds * tenTo z ∧
      ds.length + z ≤ 18 ∧ (positional ds e).2.length ≤ maxScale ∧
      e + 1 - ds.length + (positional ds e).2.length = z := by
  simp only [isPositional, Bool.and_eq_true, decide_eq_true_eq] at he
  rw [positional]
  by_cases hneg : e < 0
  · refine ⟨0, ?_, hlen, ?_, ?_⟩
    · rw [if_pos hneg, natOfDigits_append, natOfDigits_append, natOfDigits_zeros]
      have hzero : natOfDigits ['0'] = 0 := natOfDigits_zeros 1
      rw [hzero, tenTo_zero]
      omega
    · rw [if_pos hneg, List.length_append, List.length_replicate, maxScale]
      omega
    · rw [if_pos hneg, List.length_append, List.length_replicate]
      push_cast
      omega
  · refine ⟨e.toNat + 1 + 1 - ds.length, ?_, ?_, ?_, ?_⟩
    · rw [if_neg hneg]
      simp only [List.take_append_drop]
      rw [natOfDigits_append, natOfDigits_zeros, List.length_replicate, Nat.add_zero]
    · omega
    · rw [if_neg hneg, List.length_drop, List.length_append, List.length_replicate, maxScale]
      omega
    · rw [if_neg hneg, List.length_drop, List.length_append, List.length_replicate]
      omega

/-- Positional digits are read as the number that they are.  With the zeros they are eighteen at
    most in front of the point, and within the greatest scale behind it. -/
theorem ofDigits?_positional (negative : Bool) (he : isPositional (scientific x).2 = true) :
    ∃ d, Decimal.ofDigits? negative (positional (scientific x).1 (scientific x).2).1
        (positional (scientific x).1 (scientific x).2).2 = some d ∧ HasDigits 17 d ∧
      d.value = signOf negative * (x.shortest.1 * 10 ^ x.shortest.2) := by
  obtain ⟨z, hnat, hplaces, hscale, hsum⟩ := positional_spec he (length_scientific_le x)
  have hlimit : natOfDigits (scientific x).1 * tenTo z < Decimal.limit := by
    have hlt := natOfDigits_lt fun c hc => isDigit_scientific (x := x) (c := c) hc
    calc natOfDigits (scientific x).1 * tenTo z
        < tenTo (scientific x).1.length * tenTo z := Nat.mul_lt_mul_of_pos_right hlt (tenTo_pos z)
      _ = tenTo ((scientific x).1.length + z) := (tenTo_add _ _).symm
      _ ≤ tenTo 18 := Nat.pow_le_pow_right (by decide) hplaces
      _ < Decimal.limit := by decide
  rw [← hnat] at hlimit
  obtain ⟨d, hd, hmantissa, hvalue⟩ := Decimal.ofDigits?_value negative hlimit hscale
  refine ⟨d, hd, ⟨_, z, natOfDigits_scientific_le x, hmantissa.trans hnat⟩, ?_⟩
  rw [hvalue, hnat, mul_tenTo_div hsum, ← digitsValue_scientific]
  rfl

/-! ## Digits with an exponent

  An exponent makes the mantissa greater or the scale greater, and the program does the one or the
  other by its sign.  Places beyond the greatest scale are rounded off; that happens to no number
  that a decimal holds. -/

section Exponent

variable {negative : Bool} {m k s : Nat} {d : Decimal}

/-- Zeros that are put at the end add no significant digit. -/
theorem HasDigits.of_scaledUp? (hm : m ≤ tenTo 17) (h : scaledUp? negative m k = some d) :
    HasDigits 17 d := by
  rw [scaledUp?] at h
  split at h
  · obtain rfl := Option.some.inj h
    exact ⟨m, k, hm, rfl⟩
  · cases h

/-- Places that are dropped leave no more digits than there were.  Rounding may carry into a digit
    more, and then what is left is a power of ten. -/
theorem HasDigits.of_scaledDown? (hm : m ≤ tenTo 17) (h : scaledDown? negative m s = some d) :
    HasDigits 17 d := by
  simp only [scaledDown?] at h
  obtain ⟨kept, hkept⟩ : ∃ c, c = if s - maxScale = 0 then m
      else m / tenTo (s - maxScale) +
        (if 5 ≤ m / tenTo (s - maxScale - 1) % 10 then 1 else 0) := ⟨_, rfl⟩
  have hle : kept ≤ tenTo 17 := by
    rw [hkept]
    split
    · exact hm
    · rename_i hexcess
      have hten : tenTo 1 ≤ tenTo (s - maxScale) := Nat.pow_le_pow_right (by decide) (by omega)
      have hdiv : m / tenTo (s - maxScale) ≤ m / 10 := Nat.div_le_div_left hten (by decide)
      have htop : tenTo 17 = 100000000000000000 := by decide
      split <;> omega
  rw [← hkept] at h
  by_cases hfits : kept < Decimal.limit
  · rw [dif_pos hfits] at h
    obtain rfl := Option.some.inj h
    exact ⟨kept, 0, hle, by rw [tenTo_zero, Nat.mul_one]⟩
  · rw [dif_neg hfits] at h
    cases h

/-- So digits with an exponent are as many as they were. -/
theorem HasDigits.of_ofScientific? {ds : List Char} {e : Int} (hds : natOfDigits ds ≤ tenTo 17)
    (h : ofScientific? negative ds e = some d) : HasDigits 17 d := by
  simp only [ofScientific?] at h
  split at h
  · split at h
    · exact HasDigits.of_scaledUp? hds h
    · exact HasDigits.of_scaledDown? hds h
  · split at h
    · exact HasDigits.of_scaledDown? hds h
    · cases h

/-- A number that a decimal holds is not rounded. -/
theorem scaledDown?_eq (hm : m < Decimal.limit) (hs : s ≤ maxScale) :
    scaledDown? negative m s = some ⟨negative, m, s, hm, hs⟩ := by
  have hexcess : s - maxScale = 0 := Nat.sub_eq_zero_of_le hs
  simp only [scaledDown?, hexcess, if_true, hm, dite_true, Nat.min_eq_left hs]

/-- A number without zeros at its end has no more places than it is written with: written with fewer
    it would be a multiple of ten. -/
theorem places_le {c : Nat} (hlast : c % 10 ≠ 0) (h : (c / 10 ^ s : ℚ) = m / 10 ^ k) : s ≤ k := by
  have hpos : ∀ j, (0 : ℚ) < 10 ^ j := fun j => by positivity
  rw [div_eq_div_iff (hpos s).ne' (hpos k).ne', ← cast_tenTo, ← cast_tenTo] at h
  have hcross : c * tenTo k = m * tenTo s := by exact_mod_cast h
  by_contra hlt
  have hsplit : tenTo s = tenTo (s - k - 1) * 10 * tenTo k := by
    rw [← tenTo_succ, ← tenTo_add]
    congr 1
    omega
  rw [hsplit, ← Nat.mul_assoc, ← Nat.mul_assoc] at hcross
  have hten := Nat.eq_of_mul_eq_mul_right (tenTo_pos k) hcross
  exact hlast (by rw [hten, Nat.mul_mod_left])

section Held

variable {ds : List Char} {e : Int}

/-- Digits behind the point are no more places than a decimal with their value has, so none of them
    is rounded off. -/
theorem scaledDown?_value (hlast : natOfDigits ds % 10 ≠ 0) (hds : natOfDigits ds < Decimal.limit)
    (hk : k ≤ maxScale) (hvalue : digitsValue ds e = m / 10 ^ k)
    (hs : e + 1 - ds.length = -(s : Int)) :
    s ≤ k ∧ ∃ d, scaledDown? negative (natOfDigits ds) s = some d ∧
      d.value = signOf negative * digitsValue ds e := by
  have hshift : digitsValue ds e = natOfDigits ds / 10 ^ s := by
    rw [digitsValue, hs, zpow_neg, zpow_natCast, div_eq_mul_inv]
  have hle := places_le hlast (hshift.symm.trans hvalue)
  refine ⟨hle, _, scaledDown?_eq hds (hle.trans hk), ?_⟩
  rw [Decimal.value_mk, hshift]

/-- Digits before the point make no more than the mantissa of a decimal with their value. -/
theorem scaledUp?_value {j : Nat} (hm : m < Decimal.limit)
    (hvalue : digitsValue ds e = m / 10 ^ k) (hj : e + 1 - ds.length = j) :
    ∃ d, scaledUp? negative (natOfDigits ds) j = some d ∧
      d.value = signOf negative * digitsValue ds e := by
  have hshift : digitsValue ds e = (natOfDigits ds * tenTo j : Nat) := by
    rw [digitsValue, hj, zpow_natCast, Nat.cast_mul, cast_tenTo]
  have hlimit : natOfDigits ds * tenTo j < Decimal.limit := by
    have hpos : (0 : ℚ) < 10 ^ k := by positivity
    rw [hshift, eq_div_iff hpos.ne', ← cast_tenTo] at hvalue
    have hmul : natOfDigits ds * tenTo j * tenTo k = m := by exact_mod_cast hvalue
    exact lt_of_le_of_lt (Nat.le_mul_of_pos_right _ (tenTo_pos k)) (hmul ▸ hm)
  rw [scaledUp?, dif_pos hlimit]
  refine ⟨_, rfl, ?_⟩
  rw [Decimal.value_mk, hshift, pow_zero, div_one]

/-- Digits with an exponent are read as the number that they are if a decimal holds it.  Whether
    they lie behind the point or in front of it is seen from the exponent. -/
theorem ofScientific?_value (hlast : natOfDigits ds % 10 ≠ 0) (hds : natOfDigits ds < Decimal.limit)
    (hm : m < Decimal.limit) (hk : k ≤ maxScale) (hvalue : digitsValue ds e = m / 10 ^ k) :
    ∃ d, ofScientific? negative ds e = some d ∧ d.value = signOf negative * digitsValue ds e := by
  have hlen : 1 ≤ ds.length := by
    refine List.length_pos_iff.2 ?_
    rintro rfl
    exact hlast rfl
  have hplaces : e - (ds.length - 1 : Nat) = e + 1 - ds.length := by omega
  simp only [ofScientific?, hplaces]
  by_cases hup : 0 ≤ e + 1 - ds.length
  · obtain ⟨j, hj⟩ := Int.eq_ofNat_of_zero_le hup
    rw [if_pos (by omega), if_pos hup, hj, Int.toNat_natCast]
    exact scaledUp?_value hm hvalue hj
  · obtain ⟨s, hs⟩ := Int.eq_ofNat_of_zero_le (show 0 ≤ -(e + 1 - ds.length : Int) by omega)
    have hplace : e + 1 - ds.length = -(s : Int) := by omega
    obtain ⟨hle, hread⟩ := scaledDown?_value hlast hds hk hvalue hplace
    have hrange : -e ≤ maxScale := by omega
    rw [if_neg hup, if_pos hrange, ite_self, hs, Int.toNat_natCast]
    exact hread

end Held

end Exponent

/-! ## Decimals of floating point values

  The two forms are one case each, and zero is a third, which is written as `0.0` whatever its
  sign. -/

section Float

variable {d : Decimal} {m k : Nat}

/-- The decimal of a value is its shortest decimal if a decimal holds that.  The digits have no
    zeros at their end, so they are the least mantissa for it. -/
theorem decimal?_float (negative : Bool) (hx : x.isZero = false) (hpos : 0 < m)
    (hm : m < Decimal.limit) (hk : k ≤ maxScale)
    (h : (x.shortest.1 * 10 ^ x.shortest.2 : ℚ) = m / 10 ^ k) :
    ∃ d, (float negative x).decimal? = some d ∧ d.value = signOf negative * (m / 10 ^ k) := by
  simp only [decimal?, hx, Bool.false_eq_true, if_false]
  by_cases he : isPositional (scientific x).2 = true
  · obtain ⟨d, hd, -, hvalue⟩ := ofDigits?_positional negative he
    rw [if_pos he]
    exact ⟨d, hd, h ▸ hvalue⟩
  · have hdigits := (digitsValue_scientific x).trans h
    have hne : natOfDigits (scientific x).1 ≠ 0 := by
      intro hzero
      rw [digitsValue, hzero, Nat.cast_zero, zero_mul] at hdigits
      have hpos' : (0 : ℚ) < m / 10 ^ k := by positivity
      exact hpos'.ne hdigits
    have hlast := natOfDigits_trimmed_mod (fun c hc => isDigit_scientific (x := x) hc) hne
    have hsmall : natOfDigits (scientific x).1 < Decimal.limit :=
      lt_of_le_of_lt (natOfDigits_scientific_le x) (by decide)
    obtain ⟨d, hd, hvalue⟩ := ofScientific?_value hlast hsmall hm hk hdigits
    rw [if_neg he]
    exact ⟨d, hd, hdigits ▸ hvalue⟩

/-- The decimal of a zero. -/
theorem decimal?_zero (negative : Bool) (hx : x.isZero = true) :
    ∃ d, (float negative x).decimal? = some d ∧ d.mantissa = 0 ∧ d.value = 0 := by
  have hzero : natOfDigits (['0'] ++ ['0']) = 0 := natOfDigits_zeros 2
  have hfits : natOfDigits (['0'] ++ ['0']) < Decimal.limit := by decide
  obtain ⟨d, hd, hmantissa, hvalue⟩ := Decimal.ofDigits?_value negative hfits (by decide)
  rw [hzero] at hmantissa hvalue
  refine ⟨d, ?_, hmantissa, ?_⟩
  · rw [decimal?, if_pos hx, hd]
  · rw [hvalue]
    simp

/-- The decimal of a floating point value has at most 17 significant digits. -/
theorem HasDigits.of_decimal? {negative : Bool} (h : (float negative x).decimal? = some d) :
    HasDigits 17 d := by
  by_cases hx : x.isZero = true
  · obtain ⟨d', hd, hmantissa, -⟩ := decimal?_zero negative hx
    obtain rfl := Option.some.inj (hd.symm.trans h)
    exact ⟨0, 0, Nat.zero_le _, by rw [hmantissa, Nat.zero_mul]⟩
  · simp only [decimal?, hx, Bool.false_eq_true, if_false] at h
    by_cases he : isPositional (scientific x).2 = true
    · obtain ⟨d', hd, hdigits, -⟩ := ofDigits?_positional negative he
      rw [if_pos he, hd] at h
      obtain rfl := Option.some.inj h
      exact hdigits
    · rw [if_neg he] at h
      exact HasDigits.of_ofScientific? (natOfDigits_scientific_le x) h

end Float

end JsonNumber

end BlockQuery

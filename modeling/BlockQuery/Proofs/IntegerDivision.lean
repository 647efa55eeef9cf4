/-
  Division of integers.

  The quotient of two integers is rounded at the greatest scale at which its digits fit, and only
  then cut off at the point.  So it is the truncated quotient unless rounding has already reached
  the next integer away from zero, and then it is that integer (`PassesInteger`).  No dividend below
  a fifth of the greatest mantissa gets that far (`not_passesInteger`).

  The scale is found by trying: from the greatest one down until the rounded digits fit.  As that is
  a search for the greatest scale with a property, it is given as `Nat.findGreatest`, and what is
  known of the scale is that its digits fit and those of the next do not.  The second fact is what
  bounds the error: room for one more place would have been used.
-/
import BlockQuery.Proofs.Except
import BlockQuery.Proofs.Rounding
import BlockQuery.Query.Eval
import Mathlib.Data.Nat.Find

namespace BlockQuery.Decimal

/-! ## The scale that is kept

  The recursion of the program is compared with the greatest scale, one scale after the other. -/

/-- Whether the digits of a ratio fit when it is rounded at a scale. -/
def Fits (num den s : Nat) : Prop :=
  roundHalfEven (num * tenTo s) den < limit

instance (num den : Nat) : DecidablePred (Fits num den) :=
  fun _ => inferInstanceAs (Decidable (_ < limit))

/-- The greatest scale at which the digits of a rounded ratio fit.  It exists as soon as the ratio
    fits without a scale, which a quotient of integers does. -/
def keptScale (num den : Nat) : Nat :=
  Nat.findGreatest (Fits num den) maxScale

/-- From a given scale down, the first scale at which the digits fit is the greatest one.  The
    induction follows the recursion; where digits do not fit, the next scale is tried. -/
theorem ofRatioUpTo?_eq (negative : Bool) {num den : Nat} (h : Fits num den 0) :
    ∀ s hs, ∃ d, ofRatioUpTo? negative num den s hs = some d ∧ d.negative = negative ∧
      d.scale = Nat.findGreatest (Fits num den) s ∧
      d.mantissa = roundHalfEven (num * tenTo d.scale) den
  | 0, hs => by
      have hzero : roundHalfEven (num * tenTo 0) den = roundHalfEven num den := by
        rw [tenTo_zero, Nat.mul_one]
      rw [Fits, hzero] at h
      exact ⟨_, dif_pos h, rfl, rfl, hzero.symm⟩
  | s + 1, hs => by
      rw [ofRatioUpTo?]
      by_cases hfits : Fits num den (s + 1)
      · rw [Nat.findGreatest_eq hfits]
        exact ⟨_, dif_pos hfits, rfl, rfl, rfl⟩
      · rw [Nat.findGreatest_of_not hfits]
        rw [dif_neg (show ¬ roundHalfEven (num * tenTo (s + 1)) den < limit from hfits)]
        exact ofRatioUpTo?_eq negative h s (by omega)

/-- A ratio that is in range is rounded at the scale that is kept. -/
theorem ofRatio?_eq (negative : Bool) {num den : Nat} (h : Fits num den 0) :
    ∃ d, ofRatio? negative num den = some d ∧ d.negative = negative ∧
      d.mantissa = roundHalfEven (num * tenTo (keptScale num den)) den ∧
      d.scale = keptScale num den := by
  obtain ⟨d, hd, hsign, hscale, hmantissa⟩ :=
    ofRatioUpTo?_eq negative h maxScale (Nat.le_refl _)
  rw [hscale] at hmantissa
  exact ⟨d, hd, hsign, hmantissa, hscale⟩

/-! ## Rounding and cutting off

  A ratio that is rounded to a multiple of `1 / unit` and then cut off differs from the ratio cut
  off only if rounding went up across an integer.  The condition is put into numbers: how far the
  next integer is from the ratio. -/

/-- Whether `m / n`, rounded to a multiple of `1 / unit`, gives the next integer: its distance to
    that integer is at most half of `1 / unit`, and exactly half only if the rounded digits are
    even.  Nothing in it is rounded, so it can be decided. -/
def RoundsToNext (m n unit : Nat) : Prop :=
  2 * ((n - m % n) * unit) < n ∨ (2 * ((n - m % n) * unit) = n ∧ (m / n + 1) * unit % 2 = 0)

instance (m n unit : Nat) : Decidable (RoundsToNext m n unit) :=
  inferInstanceAs (Decidable (_ ∨ _))

/-- Whether `m / n` becomes the next integer when it is rounded at the scale that is kept. -/
def PassesInteger (m n : Nat) : Prop :=
  RoundsToNext m n (tenTo (keptScale m n))

instance (m n : Nat) : Decidable (PassesInteger m n) :=
  inferInstanceAs (Decidable (RoundsToNext _ _ _))

/-- A rounded ratio, cut off at the point, is the whole part of the ratio or the next integer.  It
    is at least the whole part, as this is a multiple of the unit, and at most the next integer for
    the same reason. -/
theorem roundHalfEven_mul_div {m n unit : Nat} (hn : 0 < n) (hunit : 0 < unit) :
    roundHalfEven (m * unit) n / unit = if RoundsToNext m n unit then m / n + 1 else m / n := by
  have hrest : m % n < n := Nat.mod_lt m hn
  have hm : n * (m / n) + m % n = m := Nat.div_add_mod m n
  -- the distance to the next integer, as a number of `1 / n`
  have hgap : (m / n + 1) * unit * n = m * unit + (n - m % n) * unit := by
    have hwhole : (m / n + 1) * n = m + (n - m % n) := by
      rw [Nat.add_mul, Nat.mul_comm (m / n) n]
      omega
    rw [Nat.mul_right_comm, hwhole, Nat.add_mul]
  have hreach : (m / n + 1) * unit ≤ roundHalfEven (m * unit) n ↔ RoundsToNext m n unit := by
    rw [le_roundHalfEven_iff hn, hgap, RoundsToNext]
    omega
  have hlower : m / n * unit ≤ roundHalfEven (m * unit) n := by
    refine le_roundHalfEven hn ?_
    rw [Nat.mul_right_comm, Nat.mul_comm (m / n) n]
    exact Nat.mul_le_mul_right unit (by omega)
  have hupper : roundHalfEven (m * unit) n ≤ (m / n + 1) * unit := by
    refine roundHalfEven_le hn ?_
    rw [hgap]
    exact Nat.le_add_right _ _
  split
  · rename_i hnext
    rw [Nat.le_antisymm hupper (hreach.2 hnext), Nat.mul_div_cancel _ hunit]
  · rename_i hstay
    have hlt : roundHalfEven (m * unit) n < (m / n + 1) * unit := Nat.not_le.1 (mt hreach.1 hstay)
    exact Nat.div_eq_of_lt_le hlower hlt

/-- A quotient that passes an integer has a divisor of at least two units of the scale, and a
    dividend that comes close to it.  Counted in the divisor, the distance to the next integer is at
    least one. -/
theorem PassesInteger.dist_le {m n : Nat} (h : PassesInteger m n) :
    2 * ((n - m % n) * tenTo (keptScale m n)) ≤ n := by
  rcases h with h | h
  · omega
  · omega

/-- A dividend below a fifth of the limit never passes an integer: a divisor that is great enough
    for it leaves a quotient that has room for one place more.  At the greatest scale, where there
    is no further place, the dividend would have to be about twice the power of ten of that
    scale. -/
theorem not_passesInteger {m n : Nat} (hpos : 0 < n) (hm : 5 * m + 1 < limit) :
    ¬ PassesInteger m n := by
  intro hpass
  have hdist := hpass.dist_le
  have hrest : m % n < n := Nat.mod_lt m hpos
  have hpart : m % n ≤ m := Nat.mod_le m n
  rcases Nat.lt_or_ge (keptScale m n) maxScale with hscale | hscale
  · -- one place more would not fit, but the rounded digits with it are at most `5 * m`
    have hmore : ¬ Fits m n (keptScale m n + 1) :=
      Nat.findGreatest_is_greatest (Nat.lt_succ_self _) hscale
    have hunit : 1 * tenTo (keptScale m n) ≤ (n - m % n) * tenTo (keptScale m n) :=
      Nat.mul_le_mul_right _ (by omega)
    have hdigits : m * tenTo (keptScale m n + 1) ≤ 5 * m * n := by
      calc m * tenTo (keptScale m n + 1) = 5 * m * (2 * tenTo (keptScale m n)) := by
            rw [tenTo_succ]; ring
        _ ≤ 5 * m * n := Nat.mul_le_mul_left _ (by omega)
    have hround := roundHalfEven_le hpos hdigits
    exact hmore (show roundHalfEven _ _ < limit by omega)
  · -- the divisor is at least `2 * 10 ^ 28` and the dividend at most 3 below it
    have hfull : keptScale m n = maxScale :=
      Nat.le_antisymm (Nat.findGreatest_le maxScale) hscale
    have hunit : tenTo maxScale = 10000000000000000000000000000 := by decide
    rw [hfull, hunit] at hdist
    simp only [limit] at hm
    omega

/-! ## The operation

  Signs are put in last.  Both the quotient of the program and the truncated quotient have the sign
  of the product and the size of the quotient of digits. -/

/-- A number that is cut off at the point has its whole part with its sign, also where it is 0. -/
theorem signed_truncate (d : Decimal) :
    d.truncate.signed = if d.negative then -(d.wholePart : Int) else d.wholePart := by
  simp only [signed, truncate, Bool.and_eq_true, Bool.not_eq_true']
  by_cases hzero : d.isZero = true
  · have hwhole : d.wholePart = 0 := by
      rw [wholePart, eq_of_beq hzero, Nat.zero_div]
    simp [hzero, hwhole]
  · simp [hzero]

/-- The truncated quotient of two integers is the quotient of their digits with the common sign.
    The whole part of a quotient without signs rounds toward zero, and the sign does not change
    that. -/
theorem tdiv_signed (a b : Decimal) :
    a.signed.tdiv b.signed =
      if a.negative != b.negative then -((a.mantissa / b.mantissa : Nat) : Int)
      else (a.mantissa / b.mantissa : Nat) := by
  unfold signed
  cases a.negative <;> cases b.negative <;> simp [Int.neg_tdiv, Int.tdiv_neg]

/-- The sign of a product, by the signs of its factors. -/
theorem sign_mul_signed {a b : Decimal} (ha : a.mantissa ≠ 0) (hb : b.mantissa ≠ 0) :
    (a.signed * b.signed).sign = if a.negative != b.negative then -1 else 1 := by
  have hone : ∀ {k : Nat}, k ≠ 0 → (k : Int).sign = 1 := fun hk =>
    Int.sign_eq_one_of_pos (by omega)
  unfold signed
  cases a.negative <;> cases b.negative <;> simp [Int.sign_mul, hone ha, hone hb]

/-- Zero divided by anything does not pass an integer. -/
theorem PassesInteger.left_ne_zero {m n : Nat} (hpos : 0 < n) (h : PassesInteger m n) : m ≠ 0 := by
  rintro rfl
  have hdist := h.dist_le
  have hunit : n * 1 ≤ n * tenTo (keptScale 0 n) := Nat.mul_le_mul_left n (tenTo_pos _)
  rw [Nat.zero_mod, Nat.sub_zero] at hdist
  omega

/-- The quotient of two integers is the truncated one, or the next integer away from zero.  The
    result is cut off at the point, so its scale is zero. -/
theorem div?_of_scale_zero {a b : Decimal} (ha : a.scale = 0) (hb : b.scale = 0)
    (hzero : b.mantissa ≠ 0) :
    ∃ d, a.div? b = some d ∧ d.scale = 0 ∧ d.signed =
      if PassesInteger a.mantissa b.mantissa then
        a.signed.tdiv b.signed + (a.signed * b.signed).sign
      else a.signed.tdiv b.signed := by
  have hpos : 0 < b.mantissa := Nat.pos_of_ne_zero hzero
  have hfits : Fits a.mantissa b.mantissa 0 := by
    refine Nat.lt_of_le_of_lt (roundHalfEven_le hpos ?_) a.mantissa_lt
    exact Nat.mul_le_mul_left a.mantissa hpos
  obtain ⟨r, hr, hsign, hmantissa, hscale⟩ := ofRatio?_eq (a.negative != b.negative) hfits
  refine ⟨r.truncate, ?_, rfl, ?_⟩
  · rw [div?, if_pos ⟨ha, hb⟩, ha, hb, tenTo_zero, Nat.mul_one, Nat.mul_one, hr]
    rfl
  have hwhole : r.wholePart =
      if PassesInteger a.mantissa b.mantissa then a.mantissa / b.mantissa + 1
      else a.mantissa / b.mantissa := by
    rw [wholePart, hmantissa, hscale]
    exact roundHalfEven_mul_div hpos (tenTo_pos _)
  rw [signed_truncate, hsign, hwhole, tdiv_signed]
  by_cases hpass : PassesInteger a.mantissa b.mantissa
  · rw [if_pos hpass, if_pos hpass, sign_mul_signed (hpass.left_ne_zero hpos) hzero]
    split
    · omega
    · omega
  · rw [if_neg hpass, if_neg hpass]

end BlockQuery.Decimal

namespace BlockQuery.Expr

open Decimal (PassesInteger not_passesInteger div?_of_scale_zero)

variable {options : EvalOptions} {left right : Expr} {input : Value} {a b : Decimal}

/-- An operation is made of what its operands come to, the left one first.  An operand that fails
    makes the operation fail with its error. -/
theorem eval_arithmetic_map {op : ArithOp} {x y : Except EvalError Value}
    (hleft : left.eval options input = x.map ([·])) (hright : right.eval options input = y.map ([·])) :
    (arithmetic op left right).eval options input =
      (x >>= fun v => y >>= op.apply (arithmetic op left right) v).map ([·]) := by
  have hone : ∀ v : Value, Stream.single options (arithmetic op left right) [v] = .ok v := by
    intro v
    rw [Stream.single, if_neg (by simp)]
    rfl
  rw [eval, hleft, hright]
  cases x with
  | error e => rfl
  | ok v =>
    cases y with
    | error e => simp only [Except.map, bind, Except.bind, hone]
    | ok w =>
      simp only [Except.map, bind, Except.bind, hone]
      cases op.apply (arithmetic op left right) v w <;> rfl

/-- Operands with one value each are used as these values. -/
theorem eval_arithmetic {op : ArithOp} {v w : Value} (hleft : left.eval options input = .ok [v])
    (hright : right.eval options input = .ok [w]) :
    (arithmetic op left right).eval options input =
      (op.apply (arithmetic op left right) v w).map ([·]) :=
  eval_arithmetic_map (x := .ok v) (y := .ok w) hleft hright

/-- The value of a quotient of two expressions that are numbers, the divisor not zero. -/
theorem eval_divide (hleft : left.eval options input = .ok [.number a])
    (hright : right.eval options input = .ok [.number b]) (hzero : b.mantissa ≠ 0) :
    (arithmetic .divide left right).eval options input =
      (numberOr (arithmetic .divide left right) (a.div? b)).map ([·]) := by
  have hdivisor : b.isZero = false := beq_false_of_ne hzero
  rw [eval_arithmetic hleft hright, ArithOp.apply, if_neg (by simp [hdivisor])]

/-- Division of integers has a result, which is an integer.  It is the truncated quotient exactly
    when rounding does not pass an integer, as it never does for a dividend below a fifth of the
    limit; and where it does, the result is the next integer away from zero. -/
theorem eval_divide_integers (hleft : left.eval options input = .ok [.number a])
    (hright : right.eval options input = .ok [.number b]) (ha : a.scale = 0) (hb : b.scale = 0)
    (hzero : b.mantissa ≠ 0) :
    ∃ d, (arithmetic .divide left right).eval options input = .ok [.number d] ∧ d.scale = 0 ∧
      (d.signed = a.signed.tdiv b.signed ↔ ¬ PassesInteger a.mantissa b.mantissa) ∧
      (PassesInteger a.mantissa b.mantissa →
        d.signed = a.signed.tdiv b.signed + (a.signed * b.signed).sign) ∧
      (5 * a.mantissa + 1 < Decimal.limit → d.signed = a.signed.tdiv b.signed) := by
  obtain ⟨d, hd, hscale, hsigned⟩ := div?_of_scale_zero ha hb hzero
  refine ⟨d, ?_, hscale, ?_, ?_, ?_⟩
  · rw [eval_divide hleft hright hzero, hd]
    rfl
  · by_cases hpass : PassesInteger a.mantissa b.mantissa
    · have hsign : (a.signed * b.signed).sign ≠ 0 := by
        rw [Decimal.sign_mul_signed (hpass.left_ne_zero (Nat.pos_of_ne_zero hzero)) hzero]
        split <;> decide
      rw [hsigned, if_pos hpass]
      exact iff_of_false (by omega) (not_not.2 hpass)
    · rw [hsigned, if_neg hpass]
      exact iff_of_true rfl hpass
  · intro hpass
    rw [hsigned, if_pos hpass]
  · intro hsmall
    rw [hsigned, if_neg (not_passesInteger (Nat.pos_of_ne_zero hzero) hsmall)]

/-- Minus seven by two is minus three. -/
theorem eval_divide_integers_seven :
    let a : Decimal := ⟨true, 7, 0, by decide, by decide⟩
    let b : Decimal := ⟨false, 2, 0, by decide, by decide⟩
    ∃ d, (arithmetic .divide (.literal (.number a)) (.literal (.number b))).eval {} .null =
      .ok [.number d] ∧ d.scale = 0 ∧ d.signed = -3 := by
  intro a b
  have hleft : (literal (.number a)).eval {} .null = .ok [.number a] := rfl
  have hright : (literal (.number b)).eval {} .null = .ok [.number b] := rfl
  obtain ⟨d, hd, hscale, -, -, htrunc⟩ := eval_divide_integers hleft hright rfl rfl (by decide)
  exact ⟨d, hd, hscale, (htrunc (by decide)).trans (by decide)⟩

/-- The greatest integer by two is rounded up before it is cut off: its quotient has no room for
    the half. -/
theorem divide_integers_passes :
    let a : Decimal := .ofNat 79228162514264337593543950335
    let b : Decimal := .ofNat 2
    (arithmetic .divide (.literal (.number a)) (.literal (.number b))).eval {} .null =
        .ok [.number (.ofNat 39614081257132168796771975168)] ∧
      a.signed.tdiv b.signed = 39614081257132168796771975167 := by
  exact ⟨rfl, by decide +kernel⟩

end BlockQuery.Expr

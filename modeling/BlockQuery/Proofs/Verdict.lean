/-
  Verdicts, and how they add up.

  A verdict is the outcome of comparing two things.  A comparison is transitive when its verdicts on
  `a` and `b` and on `b` and `c` fix the one on `a` and `c` wherever they do not oppose each other;
  `Follows` says this of three verdicts.  It is stated of verdicts, not of comparisons, because the
  order of trees is put together from the verdicts on their parts: what follows part by part follows
  for the first verdict that decides (`Follows.then`, `follows_firstOf`).

  Decimals are compared by value (`Decimal.compare_eq`) and lists of keys as lists of strings
  (`compareKeys_eq`), so that their laws are those of the rational numbers and of strings.

  All laws of an order are instances of `Follows`: for a verdict and its opposite it gives
  antisymmetry, for two that agree it gives transitivity, and for two equalities it gives that what
  is equal may be exchanged.
-/
import BlockQuery.Value.Order
import Mathlib.Algebra.Order.Field.Rat
import Mathlib.Algebra.Order.Ring.Cast
import Mathlib.Tactic.FieldSimp

namespace BlockQuery

/-! ## Three verdicts

  `Follows x y z` says nothing where `x` and `y` oppose each other, since then `a` and `c` can lie
  in any order.  The condition is written as `x.then y = y.then x`: of two verdicts that do not
  oppose each other it does not matter which one is asked first. -/

/-- Whether `z` can be the verdict on `a` and `c`, where `x` is the one on `a` and `b` and `y` the
    one on `b` and `c`. -/
def Follows (x y z : Ordering) : Prop :=
  x.then y = y.then x → z = x.then y

/-- Transitivity: if neither verdict says greater, the third does not. -/
theorem Follows.isLE {x y z : Ordering} (h : Follows x y z) (hx : x.isLE) (hy : y.isLE) :
    z.isLE := by
  cases x with
  | gt => cases hx
  | eq =>
    have hz : z = y := h Ordering.then_eq.symm
    exact hz ▸ hy
  | lt =>
    have hz : z = .lt := h (by cases y <;> first | rfl | cases hy)
    exact hz ▸ rfl

/-- Two verdicts that agree give the third. -/
theorem Follows.of_eq {x y z : Ordering} (h : Follows x y z) (hxy : y = x) : z = x := by
  subst hxy
  have hz : z = y.then y := h rfl
  cases y <;> exact hz

/-- The comparison of an order follows. -/
theorem follows_compare {α : Type} [Ord α] [Std.TransOrd α] (a b c : α) :
    Follows (compare a b) (compare b c) (compare a c) := by
  intro hxy
  cases hab : compare a b with
  | eq => exact Std.TransCmp.congr_left hab
  | lt =>
    cases hbc : compare b c with
    | lt => exact Std.TransCmp.lt_trans hab hbc
    | eq => exact Std.TransCmp.lt_of_lt_of_eq hab hbc
    | gt =>
      rw [hab, hbc] at hxy
      cases hxy
  | gt =>
    cases hbc : compare b c with
    | gt => exact Std.TransCmp.gt_trans hab hbc
    | eq => exact Std.TransCmp.gt_of_gt_of_eq hab hbc
    | lt =>
      rw [hab, hbc] at hxy
      cases hxy

/-! ## One verdict after the other

  A tree is compared part by part, and the first part that differs decides.  For two parts this is
  `Ordering.then`, for the keys of a mapping it is `firstOf`.  Both keep `Follows`, provided that
  the verdicts on the later parts are only asked for when the earlier parts are equal. -/

/-- The second verdict is only asked for when the first one says nothing. -/
theorem then_congr {x y y' : Ordering} (h : x = .eq → y = y') : x.then y = x.then y' := by
  cases x with
  | eq => exact h rfl
  | lt => rfl
  | gt => rfl

/-- What follows first, and next where the first says nothing, follows of both together. -/
theorem Follows.then {x y z x' y' z' : Ordering} (h : Follows x y z)
    (h' : x = .eq → y = .eq → Follows x' y' z') :
    Follows (x.then x') (y.then y') (z.then z') := by
  cases x with
  | eq =>
    have hz : z = y := h Ordering.then_eq.symm
    subst hz
    cases z with
    | eq => exact h' rfl rfl
    | lt => exact Eq.symm
    | gt => exact Eq.symm
  | lt =>
    cases y with
    | gt => exact nofun
    | _ =>
      have hz : z = .lt := h rfl
      subst hz
      exact fun _ => rfl
  | gt =>
    cases y with
    | lt => exact nofun
    | _ =>
      have hz : z = .gt := h rfl
      subst hz
      exact fun _ => rfl

/-- The first verdict on some keys that is not equality. -/
def firstOf (ks : List String) (verdict : String → Ordering) : Ordering :=
  ks.foldr (fun k rest => (verdict k).then rest) .eq

variable {ks : List String} {f g h : String → Ordering}

/-- All verdicts are equality exactly when none of them decides. -/
theorem firstOf_eq_iff : firstOf ks f = .eq ↔ ∀ k ∈ ks, f k = .eq := by
  induction ks with
  | nil => simp [firstOf]
  | cons k ks ih =>
    rw [List.forall_mem_cons, ← ih]
    exact Ordering.then_eq_eq

/-- The other way round each verdict is the opposite one, and so is the first that decides. -/
theorem firstOf_swap (hk : ∀ k ∈ ks, g k = (f k).swap) : firstOf ks g = (firstOf ks f).swap := by
  induction ks with
  | nil => rfl
  | cons k ks ih =>
    rw [List.forall_mem_cons] at hk
    show (g k).then (firstOf ks g) = ((f k).then (firstOf ks f)).swap
    rw [Ordering.swap_then, hk.1, ih hk.2]

/-- What follows key by key follows for the first key that decides: by induction on the keys, with
    `Follows.then` for the first one and the others. -/
theorem follows_firstOf (hk : ∀ k ∈ ks, Follows (f k) (g k) (h k)) :
    Follows (firstOf ks f) (firstOf ks g) (firstOf ks h) := by
  induction ks with
  | nil => exact fun _ => rfl
  | cons k ks ih =>
    rw [List.forall_mem_cons] at hk
    exact hk.1.then fun _ _ => ih hk.2

/-! ## Decimals

  The comparison brings both mantissas to the same scale with signed integers.  That is comparing
  the rational numbers, so nothing about scales has to be proved again for transitivity. -/

namespace Decimal

/-- The rational number that a decimal denotes. -/
def value (d : Decimal) : ℚ :=
  d.signed / tenTo d.scale

/-- Decimals are compared as the numbers that they denote, whatever their scales. -/
theorem compare_eq (a b : Decimal) : a.compare b = Ord.compare a.value b.value := by
  have hpos : ∀ k, (0 : ℚ) < tenTo k := fun k => Nat.cast_pos.2 (tenTo_pos k)
  have ha := hpos a.scale
  have hb := hpos b.scale
  -- both sides of the comparison are values times the same power of ten
  have hcross : ∀ c d : Decimal, ((c.signed * tenTo d.scale : ℤ) : ℚ) =
      c.value * (tenTo c.scale * tenTo d.scale) := by
    intro c d
    have hc := (hpos c.scale).ne'
    rw [value]
    push_cast
    field_simp
  have hcmp : cmp (a.signed * tenTo b.scale : ℤ) (b.signed * tenTo a.scale) =
      cmp a.value b.value := by
    rw [← Int.cast_strictMono (R := ℚ).cmp_map_eq, hcross, hcross,
      mul_comm (tenTo b.scale : ℚ), cmp_mul_pos_right (mul_pos ha hb)]
  rw [cmp_eq_compare, cmp_eq_compare] at hcmp
  exact hcmp

/-- The verdict of equality is the test for equality. -/
theorem compare_eq_eq_iff {a b : Decimal} : a.compare b = .eq ↔ a.sameValue b = true := by
  rw [compare, Int.compare_eq_eq, sameValue, beq_iff_eq]

/-- Decimals are equal, as 1.0 and 1.00 are, when they denote the same number. -/
theorem sameValue_iff {a b : Decimal} : a.sameValue b = true ↔ a.value = b.value := by
  rw [← compare_eq_eq_iff, compare_eq, compare_eq_iff_eq]

end Decimal

/-! ## Keys

  The keys of two mappings are compared in order, as lists are. -/

/-- The comparison of keys goes through both lists by recursion of its own; it is the comparison of
    lists of strings. -/
theorem Value.compareKeys_eq (as bs : List String) :
    compareKeys as bs = Ord.compare as bs := by
  induction as generalizing bs with
  | nil => cases bs <;> rfl
  | cons a as ih =>
    cases bs with
    | nil => rfl
    | cons b bs =>
      rw [compareKeys, ih, List.compare_cons_cons]
      rfl

end BlockQuery

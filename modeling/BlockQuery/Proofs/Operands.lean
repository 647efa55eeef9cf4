/-
  Expressions, operand by operand.

  An expression is put together from its `operands`, and `Expr.induct` is induction along them.  A
  property holds `Throughout` an expression when it holds of everything that occurs in it; whether
  it does is decided at the top and in the operands (`throughout_iff`).

  Expressions are a nested inductive type, with lists of parts and of arguments in it, so the
  induction that comes with the type has a hypothesis for each kind of expression.  Most proofs are
  about a few kinds and say the same of all others; for them one hypothesis about all operands is
  enough.
-/
import BlockQuery.Query.Expr

namespace BlockQuery.Expr

/-- The expressions that an expression is put together from, in the order in which they stand. -/
def operands : Expr → List Expr
  | collect inner => [inner]
  | pipe left right => [left, right]
  | descendPipe inner => [inner]
  | comma left right => [left, right]
  | alternative left right => [left, right]
  | concat parts => parts
  | arithmetic _ left right => [left, right]
  | compare _ left right => [left, right]
  | call _ args => args
  | assign _ value => [value]
  | update _ change => [change]
  | _ => []

/-- An operand is smaller than the expression.  The induction ends by this. -/
theorem sizeOf_operand_lt {c e : Expr} (h : c ∈ e.operands) : sizeOf c < sizeOf e := by
  cases e with
  | concat parts =>
    have hc : sizeOf c < sizeOf parts := List.sizeOf_lt_of_mem h
    rw [concat.sizeOf_spec]
    omega
  | call f args =>
    have hc : sizeOf c < sizeOf args := List.sizeOf_lt_of_mem h
    rw [call.sizeOf_spec]
    omega
  | _ =>
    -- all others have no operand, one or two
    simp only [operands, List.mem_cons, List.not_mem_nil, or_false] at h <;>
      rcases h with rfl | rfl <;> simp <;> omega

/-- Induction over expressions: what holds of an expression when it holds of its operands holds of
    every expression. -/
@[elab_as_elim]
theorem induct {motive : Expr → Prop} (step : ∀ e, (∀ c ∈ e.operands, motive c) → motive e)
    (e : Expr) : motive e :=
  step e fun c _ => induct step c
termination_by sizeOf e
decreasing_by exact sizeOf_operand_lt ‹_›

/-- `n` occurs in an expression: it is the expression itself, or it occurs in an operand. -/
inductive OccursIn (n : Expr) : Expr → Prop where
  | self : OccursIn n n
  | operand {c e : Expr} (hc : c ∈ e.operands) (h : OccursIn n c) : OccursIn n e

/-- Whether everything that occurs in an expression has a property. -/
def Throughout (P : Expr → Prop) (e : Expr) : Prop :=
  ∀ n, OccursIn n e → P n

/-- What holds throughout an expression holds of it and throughout its operands. -/
theorem throughout_iff {P : Expr → Prop} {e : Expr} :
    e.Throughout P ↔ P e ∧ ∀ c ∈ e.operands, c.Throughout P := by
  constructor
  · intro h
    exact ⟨h e .self, fun c hc n hn => h n (.operand hc hn)⟩
  · rintro ⟨hself, hoperands⟩ n hn
    cases hn with
    | self => exact hself
    | operand hc hn => exact hoperands _ hc n hn

/-- Without operands there is only the expression itself. -/
theorem Throughout.of_none {P : Expr → Prop} {e : Expr} (hself : P e) (h : e.operands = []) :
    e.Throughout P :=
  throughout_iff.2 ⟨hself, by simp [h]⟩

/-- The form for expressions with one operand. -/
theorem Throughout.of_one {P : Expr → Prop} {e c : Expr} (hself : P e) (h : e.operands = [c])
    (hc : c.Throughout P) : e.Throughout P :=
  throughout_iff.2 ⟨hself, by simpa [h] using hc⟩

/-- The form for expressions with two operands. -/
theorem Throughout.of_two {P : Expr → Prop} {e left right : Expr} (hself : P e)
    (h : e.operands = [left, right]) (hleft : left.Throughout P) (hright : right.Throughout P) :
    e.Throughout P :=
  throughout_iff.2 ⟨hself, by simpa [h] using ⟨hleft, hright⟩⟩

end BlockQuery.Expr

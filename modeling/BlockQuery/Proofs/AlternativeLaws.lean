/-
  Alternatives in a row.

  `a // b` is the stream of `a`, or that of `b` where `a` says nothing.  On streams this choice is
  associative (`Stream.orElse_assoc`), failures included: a stream that fails is chosen like one
  that says something.  Expressions add a special case.  Written behind `//`, `[]` is no value at
  all and not the empty sequence, so what stands there is evaluated by a rule of its own
  (`fallback`).

  Regrouping three expressions changes the place of the middle one only: it stands behind the first
  `//` in the left grouping and in front of the second one in the right grouping.  The last one
  stands behind `//` in both.  So the groupings agree unless the middle one is `[]`.
-/
import BlockQuery.Query.Eval

namespace BlockQuery

/-! ## Streams

  A stream is missing when it is empty or has nothing but null in it.  The choice looks at the first
  stream and evaluates the second one only if it has to, which is why errors of the second one may
  not appear. -/

/-- The first stream, or where it says nothing the second one. -/
def Stream.orElse (x y : Except EvalError Stream) : Except EvalError Stream := do
  let vs ← x
  if isMissing vs then y else return vs

section Streams

variable {vs : Stream}

/-- A stream that says nothing is passed over. -/
theorem Stream.orElse_of_missing (h : isMissing vs = true) (y : Except EvalError Stream) :
    orElse (.ok vs) y = y :=
  if_pos h

/-- Any other stream is chosen. -/
theorem Stream.orElse_of_not_missing (h : isMissing vs = false) (y : Except EvalError Stream) :
    orElse (.ok vs) y = .ok vs :=
  if_neg (by rw [h]; exact Bool.false_ne_true)

/-- The choice between streams is associative. -/
theorem Stream.orElse_assoc (x y z : Except EvalError Stream) :
    orElse (orElse x y) z = orElse x (orElse y z) := by
  cases x with
  | error e => rfl
  | ok vs =>
    cases h : isMissing vs with
    | true => rw [orElse_of_missing h, orElse_of_missing h]
    | false => rw [orElse_of_not_missing h, orElse_of_not_missing h, orElse_of_not_missing h]

end Streams

namespace Expr

variable {options : EvalOptions} {e : Expr} {input : Value}

/-! ## What stands behind `//`

  The special case is put into one function, and an alternative becomes a choice between two
  streams.  The law of three expressions is then associativity and the question where `[]`
  stands. -/

/-- The stream that an expression stands for behind `//`: none of the values of `[]`, and its own
    stream otherwise. -/
def fallback (options : EvalOptions) (e : Expr) (input : Value) : Except EvalError Stream :=
  if e.isEmptyCollection then .ok [] else eval options e input

/-- Only the literal `[]` is the special case. -/
theorem isEmptyCollection_eq_false (h : e ≠ emptyCollection) : e.isEmptyCollection = false := by
  cases e with
  | emptyCollection => exact absurd rfl h
  | _ => rfl

/-- Every other expression has its own stream behind `//`. -/
theorem fallback_of_ne (h : e ≠ emptyCollection) : fallback options e input = eval options e input :=
  if_neg (by rw [isEmptyCollection_eq_false h]; exact Bool.false_ne_true)

/-- An alternative is the choice between its first expression and what the second one stands for. -/
theorem eval_alternative (options : EvalOptions) (a b : Expr) (input : Value) :
    eval options (alternative a b) input =
      Stream.orElse (eval options a input) (fallback options b input) := by
  have hstep : ∀ vs : Stream,
      (if !vs.isMissing then .ok vs
        else if b.isEmptyCollection then .ok [] else eval options b input) =
      if vs.isMissing then fallback options b input else .ok vs := by
    intro vs
    cases vs.isMissing with
    | true => rfl
    | false => rfl
  exact congrArg (eval options a input >>= ·) (funext hstep)

/-- **Alternatives are associative apart from `[]` in the middle.**  Grouped to the left or to the
    right, three expressions give the same stream or the same error unless the middle one is
    literally `[]`; the last one may be.  With `[]` in the middle the left grouping passes over it,
    and the right one ends at it with the empty sequence. -/
theorem eval_alternative_assoc (options : EvalOptions) (a c : Expr) (input : Value) :
    (∀ b, b ≠ emptyCollection →
      eval options (alternative (alternative a b) c) input =
        eval options (alternative a (alternative b c)) input) ∧
    eval options (alternative (alternative a emptyCollection) c) input =
      eval options (alternative a c) input ∧
    eval options (alternative a (alternative emptyCollection c)) input =
      eval options (alternative a (literal (.sequence []))) input := by
  have hright : ∀ b, eval options (alternative a (alternative b c)) input =
      Stream.orElse (eval options a input) (eval options (alternative b c) input) := by
    intro b
    rw [eval_alternative, fallback_of_ne (by simp)]
  refine ⟨?_, ?_, ?_⟩
  · intro b hb
    rw [hright, eval_alternative, eval_alternative, eval_alternative, fallback_of_ne hb,
      Stream.orElse_assoc]
  · -- `[]` behind `//` is a stream without values, so the choice goes on
    have hskip : fallback options emptyCollection input = .ok [] := rfl
    rw [eval_alternative, eval_alternative, eval_alternative, hskip, Stream.orElse_assoc,
      Stream.orElse_of_missing rfl]
  · -- `[]` in front of `//` is the empty sequence, and that is no missing value
    have hstop : eval options (alternative emptyCollection c) input = .ok [.sequence []] := rfl
    rw [hright, hstop, eval_alternative, fallback_of_ne (by simp)]
    rfl

/-- Three expressions on one document: a text `null`, a failure in the middle, and `[]` at the end;
    then a key that is not there in the middle. -/
theorem eval_alternative_assoc_missing :
    let input := Value.mapping [("a", .string "null"), ("b", .boolean true)]
    let failing := pipe (field "b") iterate
    let failure := EvalError.wrongKind iterate "sequence or mapping" .boolean
    (failing ≠ emptyCollection ∧
      eval {} (alternative (alternative (field "a") failing) emptyCollection) input =
        eval {} (alternative (field "a") (alternative failing emptyCollection)) input ∧
      eval {} (alternative (alternative (field "a") failing) emptyCollection) input =
        .error failure) ∧
    (field "c" ≠ emptyCollection ∧
      eval {} (alternative (alternative (field "a") (field "c")) emptyCollection) input =
        eval {} (alternative (field "a") (alternative (field "c") emptyCollection)) input ∧
      eval {} (alternative (alternative (field "a") (field "c")) emptyCollection) input =
        .ok []) := by
  intro input failing failure
  have hfailing : failing ≠ emptyCollection := by simp [failing]
  have hfield : field "c" ≠ emptyCollection := by simp
  have hassoc := (eval_alternative_assoc {} (field "a") emptyCollection input).1
  exact ⟨⟨hfailing, hassoc failing hfailing, rfl⟩, hfield, hassoc _ hfield, rfl⟩

end Expr

end BlockQuery

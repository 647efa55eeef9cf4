/-
  Computations that can fail, step by step.

  A computation has a result when each of its steps has one, and it fails when one of them fails
  after those before it have succeeded.  This takes a reader or an evaluator apart without opening
  what its steps do.  A property of results goes through a computation in the same way: it is
  ensured at the end when each step ensures what the next one needs (`Ensures.bind`).

  The law of `bind` has two halves, for a result and for an error, because a computation of several
  steps is taken apart one step at a time: what it returned is known, and the law gives the result
  of the first step and a shorter computation.  The errors of a program are kept in one type for
  each reader, so there is also the exchange of one kind of error for another, which commutes with
  everything.
-/
import BlockQuery.Value.Basic

namespace BlockQuery

variable {ε α β : Type}

/-- A computation in steps succeeds when each step does. -/
theorem bind_eq_ok {x : Except ε α} {f : α → Except ε β} {b : β} :
    x >>= f = .ok b ↔ ∃ a, x = .ok a ∧ f a = .ok b := by
  cases x with
  | error e =>
    constructor
    · intro h
      cases h
    · rintro ⟨a, ha, -⟩
      cases ha
  | ok a =>
    constructor
    · intro h
      exact ⟨a, rfl, h⟩
    · rintro ⟨a', ha, h⟩
      cases ha
      exact h

/-- A last step that cannot fail has a result when what is in front of it does. -/
theorem map_eq_ok {x : Except ε α} {f : α → β} {b : β} :
    x.map f = .ok b ↔ ∃ a, x = .ok a ∧ f a = b := by
  cases x with
  | error e => simp [Except.map]
  | ok a => simp [Except.map]

/-- A computation in steps fails in the first step that fails. -/
theorem bind_eq_error {x : Except ε α} {f : α → Except ε β} {e : ε} :
    x >>= f = .error e ↔ x = .error e ∨ ∃ a, x = .ok a ∧ f a = .error e := by
  cases x with
  | error e' =>
    constructor
    · intro h
      cases h
      exact Or.inl rfl
    · rintro (h | ⟨a, ha, -⟩)
      · cases h
        rfl
      · cases ha
  | ok a =>
    constructor
    · intro h
      exact Or.inr ⟨a, rfl, h⟩
    · rintro (h | ⟨a', ha, h⟩)
      · cases h
      · cases ha
        exact h

/-- A last step that cannot fail fails as what is in front of it does. -/
theorem map_eq_error {x : Except ε α} {f : α → β} {e : ε} :
    x.map f = .error e ↔ x = .error e := by
  cases x with
  | error e' => simp [Except.map]
  | ok a => simp [Except.map]

/-! ## Other errors

  A computation may be run with its errors renamed, as when a query is compiled and its syntax error
  becomes an error of the command.  Only the errors are touched. -/

section MapError

variable {ε' : Type} (r : ε → ε')

/-- Errors are exchanged step by step. -/
theorem mapError_bind (x : Except ε α) (f : α → Except ε β) :
    (x >>= f).mapError r = x.mapError r >>= fun a => (f a).mapError r := by
  cases x <;> rfl

/-- Errors and results are exchanged independently of each other. -/
theorem mapError_map (x : Except ε α) (f : α → β) :
    (x.map f).mapError r = (x.mapError r).map f := by
  cases x <;> rfl

end MapError

/-! ## Properties of results

  A property that all results have is stated of the computation: `Ensures P x` is true of one that
  fails.  The laws follow the computation, so a proof about a function that fails in many places has
  one line for each of its steps and none for its failures. -/

/-- Whether the result of a computation, if it has one, has a property. -/
def Ensures (P : α → Prop) (x : Except ε α) : Prop :=
  ∀ a, x = .ok a → P a

variable {P : α → Prop} {Q : β → Prop} {x : Except ε α}

/-- A result in hand has the property if it is shown to have it. -/
theorem Ensures.ok {a : α} (h : P a) : Ensures P (.ok a : Except ε α) := by
  rintro _ ⟨⟩
  exact h

/-- A failure has no result, so there is nothing to show. -/
theorem Ensures.error (e : ε) : Ensures P (.error e : Except ε α) :=
  nofun

/-- What the first step ensures is what the second one may rely on. -/
theorem Ensures.bind {f : α → Except ε β} (hx : Ensures P x) (hf : ∀ a, P a → Ensures Q (f a)) :
    Ensures Q (x >>= f) := by
  intro b hb
  obtain ⟨a, ha, hb⟩ := bind_eq_ok.1 hb
  exact hf a (hx a ha) b hb

/-- A last step that cannot fail carries one property to another. -/
theorem Ensures.map {f : α → β} (hx : Ensures P x) (hf : ∀ a, P a → Q (f a)) :
    Ensures Q (x.map f) := by
  intro b hb
  obtain ⟨a, ha, rfl⟩ := map_eq_ok.1 hb
  exact hf a (hx a ha)

/-- Which error is reported does not matter to the results. -/
theorem Ensures.mapError {ε' : Type} {f : ε → ε'} (hx : Ensures P x) :
    Ensures P (x.mapError f) := by
  cases x with
  | error e => exact .error _
  | ok a => exact .ok (hx a rfl)

end BlockQuery

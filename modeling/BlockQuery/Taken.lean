/-
  What a reader takes off the front of a list.

  The readers of JSON text and of queries are recursive functions on the symbols still to come.
  Each returns what it read and the rest, and with the rest the proof that it is shorter than a
  bound, which is the length of its own input: so the recursion ends because the input does.

  A reader that calls others gives their results its own bound with `widen` and builds its value
  with `map`.  Neither touches the rest, which is what the lemmas here say, so a proof about a
  reader speaks of `value` and `rest` and never looks at a bound.
-/

namespace BlockQuery

/-- A value read off the front of a list, and the rest, which has fewer than `n` symbols. -/
structure Taken (σ α : Type) (n : Nat) where
  value : α
  rest : List σ
  shorter : rest.length < n

namespace Taken

variable {σ α β : Type} {m n : Nat}

/-- Another value with the same rest. -/
def map (f : α → β) (t : Taken σ α n) : Taken σ β n :=
  ⟨f t.value, t.rest, t.shorter⟩

/-- The same under a greater bound. -/
def widen (t : Taken σ α m) (h : m ≤ n) : Taken σ α n :=
  ⟨t.value, t.rest, Nat.lt_of_lt_of_le t.shorter h⟩

/-- The new value is what the function makes of the old one. -/
@[simp] theorem map_value (f : α → β) (t : Taken σ α n) : (t.map f).value = f t.value := rfl

/-- Another value leaves the rest alone. -/
@[simp] theorem map_rest (f : α → β) (t : Taken σ α n) : (t.map f).rest = t.rest := rfl

/-- Another bound leaves the value alone. -/
@[simp] theorem widen_value (t : Taken σ α m) (h : m ≤ n) : (t.widen h).value = t.value := rfl

/-- Another bound leaves the rest alone. -/
@[simp] theorem widen_rest (t : Taken σ α m) (h : m ≤ n) : (t.widen h).rest = t.rest := rfl

end Taken

/-- The first symbol, if `f` accepts it. -/
def takeFirst? {σ α : Type} (f : σ → Option α) : (cs : List σ) → Option (Taken σ α cs.length)
  | [] => none
  | c :: cs => (f c).map fun a => ⟨a, cs, Nat.lt_succ_self _⟩

end BlockQuery

/-
  What a reader reads.

  The readers of queries and of their lexemes return their result with the symbols that are left and
  a proof that these are fewer.  `Reads x a rest` forgets the proof: the reader `x` has read `a` and
  left `rest`.

  The laws say `Reads … ↔ …`, so they can be used in both directions: from a reader that has a
  result back to the parts that it was read from, and from the parts to a reader that does not fail.
  A reader is put together by `bind`, by `map` and by handing a result on under a greater bound, and
  there is one law for each of these.  They are stated for any type of error, since what a reader
  reads does not depend on what it would have reported.
-/
import BlockQuery.Taken

namespace BlockQuery

variable {ε σ α β : Type} {m n : Nat} {a : α} {b : β} {rest : List σ}

/-- The reader `x` has read `a` off the front of some symbols and left `rest`. -/
def Reads (x : Except ε (Taken σ α n)) (a : α) (rest : List σ) : Prop :=
  ∃ t, x = .ok t ∧ t.value = a ∧ t.rest = rest

/-- What is left is shorter than the bound of the reader: the proof that `Reads` forgets can always
    be had back. -/
theorem Reads.shorter {x : Except ε (Taken σ α n)} (h : Reads x a rest) : rest.length < n := by
  obtain ⟨t, -, -, rfl⟩ := h
  exact t.shorter

/-- A reader that has its result in hand has read this and nothing else. -/
theorem reads_ok {x : Taken σ α n} :
    Reads (.ok x : Except ε (Taken σ α n)) a rest ↔ x.value = a ∧ x.rest = rest := by
  constructor
  · rintro ⟨x', h, hv, hr⟩
    obtain rfl := Except.ok.inj h
    exact ⟨hv, hr⟩
  · exact fun h => ⟨x, rfl, h⟩

/-- A reader that fails has read nothing. -/
theorem not_reads_error {e : ε} :
    ¬ Reads (.error e : Except ε (Taken σ α n)) a rest := by
  rintro ⟨x, h, -⟩
  exact absurd h (by simp)

/-- One reader behind another.  The second one may look at how far the first one came, but what it
    reads depends only on the value and on the symbols that are left. -/
theorem reads_bind {x : Except ε (Taken σ α m)}
    {g : Taken σ α m → Except ε (Taken σ β n)}
    {P : α → List σ → Prop} (h : ∀ y, Reads (g y) b rest ↔ P y.value y.rest) :
    Reads (x >>= g) b rest ↔ ∃ a mid, Reads x a mid ∧ P a mid := by
  cases x with
  | error e =>
    constructor
    · exact fun hb => absurd hb not_reads_error
    · rintro ⟨a, mid, hx, -⟩
      exact absurd hx not_reads_error
  | ok y =>
    constructor
    · exact fun hb => ⟨y.value, y.rest, reads_ok.2 ⟨rfl, rfl⟩, (h y).1 hb⟩
    · rintro ⟨a, mid, hx, hP⟩
      obtain ⟨rfl, rfl⟩ := reads_ok.1 hx
      exact (h y).2 hP

/-- A reader whose result is changed on the way out. -/
theorem reads_map {x : Except ε (Taken σ α m)} {f : α → β}
    {g : Taken σ α m → Taken σ β n}
    (h : ∀ y, (g y).value = f y.value ∧ (g y).rest = y.rest) :
    Reads (x.map g) b rest ↔ ∃ a, Reads x a rest ∧ f a = b := by
  cases x with
  | error e =>
    constructor
    · exact fun hb => absurd hb not_reads_error
    · rintro ⟨a, hx, -⟩
      exact absurd hx not_reads_error
  | ok y =>
    show Reads (.ok (g y)) b rest ↔ _
    rw [reads_ok, (h y).1, (h y).2]
    constructor
    · rintro ⟨hf, hr⟩
      exact ⟨y.value, reads_ok.2 ⟨rfl, hr⟩, hf⟩
    · rintro ⟨a, hx, hf⟩
      obtain ⟨rfl, hr⟩ := reads_ok.1 hx
      exact ⟨hf, hr⟩

/-- A reader whose result is changed on the way out, and stands under a greater bound. -/
theorem reads_map_widen {x : Except ε (Taken σ α m)} {f : α → β} {hle : m ≤ n} :
    Reads (x.map fun s => (s.map f).widen hle) b rest ↔ ∃ a, Reads x a rest ∧ f a = b :=
  reads_map fun _ => ⟨rfl, rfl⟩

/-- A reader whose result is handed on as it is. -/
theorem reads_same {x : Except ε (Taken σ α m)}
    {g : Taken σ α m → Taken σ α n}
    (h : ∀ y, (g y).value = y.value ∧ (g y).rest = y.rest) :
    Reads (x.map g) a rest ↔ Reads x a rest := by
  rw [reads_map (f := id) h]
  constructor
  · rintro ⟨a', hx, rfl⟩
    exact hx
  · exact fun hx => ⟨a, hx, rfl⟩

end BlockQuery

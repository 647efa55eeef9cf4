/-
  Laws of trimming.

  A text is `Trimmed` when neither its first nor its last character is a blank; that is when `trim`
  leaves it alone.  Blanks put around a trimmed text come off again, and a run of characters of one
  kind comes off a text that goes on with another kind.

  Trimming is all that the readers of lines do with blanks, and texts are put together before they
  are trimmed: a key, a colon, some blanks and a value.  So the laws say what trimming makes of a
  text in two parts, and the conditions are on the characters where the parts meet (`StartsTight`,
  `EndsTight`), not on the parts as a whole.
-/
import BlockQuery.Text.Blank
import Mathlib.Data.List.TakeWhile

namespace BlockQuery

/-! ## Runs

  A scan that takes characters of one kind from a text in two parts stops where they meet, or goes
  on.  It stops when the second part does not start with a character of that kind, and this is the
  hypothesis of each law (`rest.head?`), an empty second part included. -/

section Runs

variable {α : Type} {p : α → Bool} {run rest : List α}

/-- What is taken from a list in front of a rest that does not go on with it. -/
theorem takeWhile_append_of_head? (hrest : ∀ x ∈ rest.head?, p x = false) (xs : List α) :
    (xs ++ rest).takeWhile p = xs.takeWhile p := by
  induction xs with
  | nil =>
    cases rest with
    | nil => rfl
    | cons x rest => simp [hrest x rfl]
  | cons x xs ih => simp only [List.cons_append, List.takeWhile_cons, ih]

/-- What is left of a list in front of a rest that does not go on with it. -/
theorem dropWhile_append_of_head? (hrest : ∀ x ∈ rest.head?, p x = false) (xs : List α) :
    (xs ++ rest).dropWhile p = xs.dropWhile p ++ rest := by
  induction xs with
  | nil =>
    cases rest with
    | nil => rfl
    | cons x rest => simp [hrest x rfl]
  | cons x xs ih =>
    simp only [List.cons_append, List.dropWhile_cons, ih]
    split <;> rfl

/-- A run ends where the rest does not go on with it. -/
theorem takeWhile_run_append (hrun : ∀ x ∈ run, p x = true)
    (hrest : ∀ x ∈ rest.head?, p x = false) : (run ++ rest).takeWhile p = run := by
  rw [takeWhile_append_of_head? hrest, List.takeWhile_eq_self_iff.2 hrun]

/-- What is behind a run is the rest. -/
theorem dropWhile_run_append (hrun : ∀ x ∈ run, p x = true)
    (hrest : ∀ x ∈ rest.head?, p x = false) : (run ++ rest).dropWhile p = rest := by
  rw [dropWhile_append_of_head? hrest, List.dropWhile_eq_nil_iff.2 hrun, List.nil_append]

/-- Nothing is dropped exactly when the list does not start with a run. -/
theorem dropWhile_eq_self_iff_head? {xs : List α} :
    xs.dropWhile p = xs ↔ ∀ x ∈ xs.head?, p x = false := by
  constructor
  · intro h x hx
    cases xs with
    | nil => simp at hx
    | cons y ys =>
      obtain rfl : y = x := Option.some.inj hx
      -- a list from which something is dropped is shorter
      by_contra hy
      have hlen := (List.dropWhile_suffix (l := ys) p).length_le
      rw [List.dropWhile_cons_of_pos (by simpa using hy)] at h
      rw [h, List.length_cons] at hlen
      omega
  · intro h
    exact @dropWhile_run_append _ p [] xs (by simp) h

end Runs

namespace Text

/-! ## Trimmed text

  Both ends are looked at separately, because a line is trimmed at its end when it is split off and
  at its start when its indent is taken away. -/

/-- Whether no blank stands in front. -/
def StartsTight (cs : List Char) : Prop :=
  ∀ c ∈ cs.head?, isBlank c = false

/-- Whether no blank stands at the end. -/
def EndsTight (cs : List Char) : Prop :=
  ∀ c ∈ cs.getLast?, isBlank c = false

/-- Whether no blank stands at either end. -/
def Trimmed (cs : List Char) : Prop :=
  StartsTight cs ∧ EndsTight cs

/-- A text starts tight if its first character is known to be no blank. -/
theorem startsTight_of_head? {c : Char} {cs : List Char} (h : cs.head? = some c)
    (hc : isBlank c = false) : StartsTight cs := by
  intro d hd
  rw [h] at hd
  obtain rfl := Option.some.inj hd
  exact hc

/-- Nothing is trimmed off the start exactly when the text starts tight. -/
theorem trimStart_eq_self_iff {cs : List Char} : trimStart cs = cs ↔ StartsTight cs :=
  dropWhile_eq_self_iff_head?

/-- Nothing is trimmed off the end exactly when the text ends tight. -/
theorem trimEnd_eq_self_iff {cs : List Char} : trimEnd cs = cs ↔ EndsTight cs := by
  rw [trimEnd, List.reverse_eq_iff, dropWhile_eq_self_iff_head?, List.head?_reverse, EndsTight]

/-- A text that trimming leaves alone starts tight: trimming the end only shortens, so nothing was
    trimmed off the start either. -/
theorem startsTight_of_trim {cs : List Char} (h : trim cs = cs) : StartsTight cs := by
  have hlen := length_trimEnd_le (trimStart cs)
  rw [← trim, h] at hlen
  rw [← trimStart_eq_self_iff]
  exact (List.dropWhile_suffix (l := cs) isBlank).eq_of_length_le hlen

/-- The texts that trimming leaves alone are the trimmed ones. -/
theorem trim_eq_self_iff {cs : List Char} : trim cs = cs ↔ Trimmed cs := by
  constructor
  · intro h
    have hstart := startsTight_of_trim h
    rw [trim, trimStart_eq_self_iff.2 hstart] at h
    exact ⟨hstart, trimEnd_eq_self_iff.1 h⟩
  · rintro ⟨hstart, hend⟩
    rw [trim, trimStart_eq_self_iff.2 hstart, trimEnd_eq_self_iff.2 hend]

/-- What stands in front of a text does not change how it ends. -/
theorem EndsTight.append {front cs : List Char} (h : EndsTight cs) (hne : cs ≠ []) :
    EndsTight (front ++ cs) := by
  intro c hc
  rw [List.getLast?_append, List.getLast?_eq_some_getLast hne] at hc
  exact h c (by rw [List.getLast?_eq_some_getLast hne]; exact hc)

/-- A text ends tight if its last character is no blank. -/
theorem endsTight_concat {c : Char} (front : List Char) (h : isBlank c = false) :
    EndsTight (front ++ [c]) := by
  intro d hd
  rw [List.getLast?_concat] at hd
  obtain rfl := Option.some.inj hd
  exact h

/-! ## Blanks around a text

  Blanks that were put around a text come off, and nothing else does.  The end is the harder one, as
  blanks in the middle of a text may become blanks at its end when what is behind them comes off. -/

/-- What is trimmed off the end of a text in two parts. -/
theorem trimEnd_append (front cs : List Char) :
    trimEnd (front ++ cs) = if trimEnd cs = [] then trimEnd front else front ++ trimEnd cs := by
  simp only [trimEnd, List.reverse_append, List.dropWhile_append, List.isEmpty_iff,
    List.reverse_eq_nil_iff]
  split <;> simp

/-- Blanks are trimmed whole. -/
theorem trimEnd_eq_nil_iff {cs : List Char} : trimEnd cs = [] ↔ ∀ c ∈ cs, isBlank c = true := by
  simp [trimEnd]

/-- What is trimmed off the end are blanks. -/
theorem exists_trimEnd_append (cs : List Char) :
    ∃ blanks, cs = trimEnd cs ++ blanks ∧ ∀ c ∈ blanks, isBlank c = true := by
  refine ⟨(cs.reverse.takeWhile isBlank).reverse, ?_, fun c hc => ?_⟩
  · rw [trimEnd, ← List.reverse_append, List.takeWhile_append_dropWhile, List.reverse_reverse]
  · exact List.mem_takeWhile_imp (List.mem_reverse.1 hc)

/-- Blanks at the end come off with those in front of them. -/
theorem trimEnd_append_blank {blanks : List Char} (h : ∀ c ∈ blanks, isBlank c = true)
    (cs : List Char) : trimEnd (cs ++ blanks) = trimEnd cs := by
  rw [trimEnd_append, if_pos (trimEnd_eq_nil_iff.2 h)]

/-- Blanks at the end come off. -/
theorem trimEnd_append_blanks {cs blanks : List Char} (hcs : EndsTight cs)
    (hblanks : ∀ c ∈ blanks, isBlank c = true) : trimEnd (cs ++ blanks) = cs := by
  rw [trimEnd_append_blank hblanks, trimEnd_eq_self_iff.2 hcs]

/-- Blanks in front come off. -/
theorem trimStart_blanks_append {blanks cs : List Char} (hcs : StartsTight cs)
    (hblanks : ∀ c ∈ blanks, isBlank c = true) : trimStart (blanks ++ cs) = cs :=
  dropWhile_run_append hblanks hcs

/-- Of blanks alone nothing is left. -/
theorem trimEnd_blanks {blanks : List Char} (h : ∀ c ∈ blanks, isBlank c = true) :
    trimEnd blanks = [] :=
  trimEnd_eq_nil_iff.2 h

/-- Only what is behind a character that is no blank is trimmed. -/
theorem trimEnd_append_cons {c : Char} (hc : isBlank c = false) (front rest : List Char) :
    trimEnd (front ++ c :: rest) = front ++ c :: trimEnd rest := by
  have htight : trimEnd [c] = [c] := trimEnd_eq_self_iff.2 (endsTight_concat [] hc)
  have hbehind : trimEnd (c :: rest) = c :: trimEnd rest := by
    rw [← List.singleton_append, trimEnd_append, htight]
    split
    · rename_i hnil
      rw [hnil]
    · rfl
  rw [trimEnd_append, hbehind, if_neg (by simp)]

/-- A space is a blank. -/
theorem isBlank_space : isBlank ' ' = true := by decide

/-- An indent is made of blanks. -/
theorem isBlank_of_mem_spaces {n : Nat} {c : Char} (h : c ∈ List.replicate n ' ') :
    isBlank c = true := by
  obtain rfl := List.eq_of_mem_replicate h
  exact isBlank_space

end Text

end BlockQuery

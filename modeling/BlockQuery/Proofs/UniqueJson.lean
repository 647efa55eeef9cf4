/-
  JSON text determines the values that it is the text of.

  Nothing in front of a text says how long it is, and the text of one number may start that of
  another.  So uniqueness is stated of texts with something behind them: a value ends where a comma,
  a closing mark, a line feed or nothing follows (`Delimited`), and two texts that agree up to there
  are the texts of one value, with the same behind it (`ReadOnce`).  Of a number and a string this
  holds because digits and escapes can be read back; it passes on to elements with a separator
  between them (`joined_append_inj`), and so to collections by induction over trees and to streams.

  The property `ReadOnce` has the text of the second object, and what stands behind both, for all
  instances.  That makes it fit for induction: an element is read once, so the rest of the texts
  agree, and the rest is again a separator and elements.  The length of a list is not assumed to
  agree either; a list that ends meets a closing mark, where another one has a separator or a text,
  and none of these starts like one of the others.

  No reader of JSON takes part.  It would not do, as it turns the digits of a number into floating
  point, while the text has all of them.
-/
import BlockQuery.Proofs.DecimalText
import BlockQuery.Proofs.Escape
import BlockQuery.Proofs.Rows
import BlockQuery.Proofs.Tree
import BlockQuery.Value.Json

namespace BlockQuery

open Text

/-! ## Numbers

  The text of a number has no end of its own, so the law for numbers is about two numbers that both
  end where no digit and no point follows. -/

namespace Decimal

/-- Whether a text goes on with nothing that belongs to a number. -/
def EndsNumber (r : List Char) : Prop :=
  ∀ c ∈ r.head?, c.isDigit = false ∧ c ≠ '.'

variable {d e : Decimal} {r s : List Char}

/-- The fractions of two numbers agree, and what follows them.  A fraction is a point with its
    digits, or nothing for a number of scale zero; which one it is can be seen, as no point follows
    a number. -/
theorem fractionChars_append_inj (hr : EndsNumber r) (hs : EndsNumber s)
    (h : d.fractionChars ++ r = e.fractionChars ++ s) :
    lowDigits d.scale d.mantissa = lowDigits e.scale e.mantissa ∧ r = s := by
  -- behind a point stand all digits up to something that is none
  have digits : ∀ {f : Decimal} {t : List Char}, EndsNumber t →
      (lowDigits f.scale f.mantissa ++ t).takeWhile Char.isDigit =
        lowDigits f.scale f.mantissa := by
    intro f t ht
    exact takeWhile_run_append (fun c => isDigit_of_mem_lowDigits) fun c hc => (ht c hc).1
  rw [fractionChars, fractionChars] at h
  split at h
  · rename_i hd
    split at h
    · rename_i he
      rw [hd, he]
      exact ⟨rfl, h⟩
    · exact absurd rfl (hr '.' (congrArg List.head? h)).2
  · split at h
    · exact absurd rfl (hs '.' (congrArg List.head? h.symm)).2
    · have hbehind : lowDigits d.scale d.mantissa ++ r = lowDigits e.scale e.mantissa ++ s :=
        (List.cons.inj h).2
      have hlow : lowDigits d.scale d.mantissa = lowDigits e.scale e.mantissa := by
        rw [← digits hr, hbehind, digits hs]
      rw [hlow] at hbehind
      exact ⟨hlow, List.append_cancel_left hbehind⟩

/-- A number with the sign of its text taken off. -/
theorem chars_cases_sign (d : Decimal) :
    (d.negative = true ∧ d.chars = '-' :: (natChars d.wholePart ++ d.fractionChars)) ∨
    (d.negative = false ∧ d.chars = natChars d.wholePart ++ d.fractionChars) := by
  rw [chars_eq_append]
  cases d.negative with
  | true => exact Or.inl ⟨rfl, rfl⟩
  | false => exact Or.inr ⟨rfl, rfl⟩

/-- Texts of numbers that end at the same place are texts of one number, down to its sign and the
    zeros of its fraction.  The sign, the whole part and the fraction are read off the text in turn,
    each up to where it ends. -/
theorem chars_append_inj (hr : EndsNumber r) (hs : EndsNumber s)
    (h : d.chars ++ r = e.chars ++ s) : d = e ∧ r = s := by
  have hminus : ∀ {f : Decimal} {t u : List Char}, natChars f.wholePart ++ t ≠ '-' :: u := by
    intro f t u heq
    obtain ⟨c, cs, hcs⟩ := List.exists_cons_of_ne_nil (natChars_ne_nil f.wholePart)
    have hdigit : c.isDigit = true := isDigit_of_mem_natChars (hcs ▸ List.mem_cons_self)
    rw [hcs] at heq
    rw [(List.cons.inj heq).1] at hdigit
    exact absurd hdigit (by decide)
  -- the sign is in the first character
  have hbody : d.negative = e.negative ∧ natChars d.wholePart ++ (d.fractionChars ++ r) =
      natChars e.wholePart ++ (e.fractionChars ++ s) := by
    rcases chars_cases_sign d with ⟨hd, hdchars⟩ | ⟨hd, hdchars⟩
    · rcases chars_cases_sign e with ⟨he, hechars⟩ | ⟨he, hechars⟩
      · simp only [hdchars, hechars, List.cons_append, List.append_assoc] at h
        exact ⟨hd.trans he.symm, (List.cons.inj h).2⟩
      · simp only [hdchars, hechars, List.cons_append, List.append_assoc] at h
        exact absurd h.symm hminus
    · rcases chars_cases_sign e with ⟨he, hechars⟩ | ⟨he, hechars⟩
      · simp only [hdchars, hechars, List.cons_append, List.append_assoc] at h
        exact absurd h hminus
      · simp only [hdchars, hechars, List.append_assoc] at h
        exact ⟨hd.trans he.symm, h⟩
  obtain ⟨hsign, hbody⟩ := hbody
  -- the digits of the whole part end at the point or where the number does
  have digits : ∀ {f : Decimal} {t : List Char}, EndsNumber t →
      (natChars f.wholePart ++ (f.fractionChars ++ t)).takeWhile Char.isDigit =
        natChars f.wholePart := by
    intro f t ht
    refine takeWhile_run_append (fun c => isDigit_of_mem_natChars) ?_
    rw [fractionChars]
    split
    · exact fun c hc => (ht c hc).1
    · rintro c ⟨⟩
      decide
  have hwhole : natChars d.wholePart = natChars e.wholePart := by
    rw [← digits hr, hbody, digits hs]
  rw [hwhole] at hbody
  obtain ⟨hlow, hrest⟩ := fractionChars_append_inj hr hs (List.append_cancel_left hbody)
  -- sign and digits are all that is read back
  have hread : some d.unsignZero = some e.unsignZero := by
    rw [← ofDigits?_wholePart_lowDigits, ← ofDigits?_wholePart_lowDigits, hsign, hwhole, hlow]
  refine ⟨?_, hrest⟩
  cases d
  cases e
  simp only [unsignZero, Option.some.injEq, Decimal.mk.injEq] at hread
  simp only [Decimal.mk.injEq]
  exact ⟨hsign, hread.2⟩

end Decimal

/-! ## Strings

  A quoted text has an end of its own, as the reader of quoted keys finds it (`splitDouble?`). -/

/-- A quoted text ends at its closing quote, whatever follows.  The reader of quoted keys finds that
    quote, so both texts are cut at the same place, and what stands between the quotes can be
    unescaped. -/
theorem quote_append_inj {s t r r' : List Char} (h : quote s ++ r = quote t ++ r') :
    s = t ∧ r = r' := by
  have hsplit : ∀ cs rest, Block.splitDouble? ((quote cs ++ rest).tail) =
      some (escape cs ++ ['"'], rest) := by
    intro cs rest
    show Block.splitDouble? ((escape cs ++ ['"']) ++ rest) = _
    rw [List.append_assoc]
    exact Block.splitDouble?_escape cs rest
  have heq := hsplit s r
  rw [h, hsplit t r'] at heq
  obtain ⟨hescape, hrest⟩ := Prod.mk.inj (Option.some.inj heq)
  have hclosed : Block.Quoted.closed t = .closed s := by
    rw [← Block.readDouble_escape t, hescape, Block.readDouble_escape]
  exact ⟨(Block.Quoted.closed.inj hclosed).symm, hrest.symm⟩

/-- The same of strings. -/
theorem toList_quote_append_inj {s t : String} {r r' : List Char}
    (h : quote s.toList ++ r = quote t.toList ++ r') : s = t ∧ r = r' := by
  obtain ⟨hchars, hrest⟩ := quote_append_inj h
  exact ⟨String.toList_inj.1 hchars, hrest⟩

/-! ## What a text ends at

  Between the values of a text there are only four characters, and it may end.  A closing mark ends
  a list of elements, and each of the four ends a single value. -/

/-- Whether a text goes on with a separator or a closing mark, or not at all: what may stand behind
    a value wherever it is written. -/
def Delimited (r : List Char) : Prop :=
  ∀ c ∈ r.head?, c = ',' ∨ c = '\n' ∨ c = ']' ∨ c = '}'

/-- Whether a text goes on with a closing mark, or not at all: what may stand behind the last of
    several values. -/
def Closed (r : List Char) : Prop :=
  ∀ c ∈ r.head?, c = ']' ∨ c = '}'

/-- A closing mark ends a value too. -/
theorem Closed.delimited {r : List Char} (h : Closed r) : Delimited r :=
  fun c hc => Or.inr (Or.inr (h c hc))

/-- None of them belongs to a number. -/
theorem Delimited.endsNumber {r : List Char} (h : Delimited r) : Decimal.EndsNumber r := by
  intro c hc
  rcases h c hc with rfl | rfl | rfl | rfl
  · decide
  · decide
  · decide
  · decide

/-- Whether a text is that of no other object, where a delimiter follows.  The two texts need not be
    followed by the same; that they are is part of what is claimed. -/
def ReadOnce {α : Type} (text : α → List Char) (x : α) : Prop :=
  ∀ y r s, Delimited r → Delimited s → text x ++ r = text y ++ s → x = y ∧ r = s

/-! ## Texts with a separator between them

  Elements, entries and the lines of a stream are all written with a separator between two, and none
  behind the last.  The law is proved once for any objects and any text of them that starts with no
  closing mark. -/

section Joined

variable {α : Type} {text : α → List Char} {sep : Char}

/-- The texts of some objects with a separator between two. -/
def joined (text : α → List Char) (sep : Char) (xs : List α) : List Char :=
  List.intercalate [sep] (xs.map text)

/-- Of one object there is no separator. -/
theorem joined_singleton (x : α) : joined text sep [x] = text x := by
  simp [joined]

/-- Of more there is one behind the first. -/
theorem joined_cons (x y : α) (xs : List α) :
    joined text sep (x :: y :: xs) = text x ++ sep :: joined text sep (y :: xs) := by
  rw [joined, joined, List.map_cons, List.map_cons, List.intercalate_cons_cons, List.append_assoc]
  rfl

/-- A character of what is joined is the separator or stands in one of the texts. -/
theorem mem_joined {c : Char} {xs : List α} (h : c ∈ joined text sep xs) :
    c = sep ∨ ∃ x ∈ xs, c ∈ text x := by
  induction xs with
  | nil => cases h
  | cons x xs ih =>
    cases xs with
    | nil =>
      rw [joined_singleton] at h
      exact Or.inr ⟨x, List.mem_cons_self, h⟩
    | cons y xs =>
      rw [joined_cons, List.mem_append, List.mem_cons] at h
      rcases h with h | h | h
      · exact Or.inr ⟨x, List.mem_cons_self, h⟩
      · exact Or.inl h
      · exact (ih h).imp_right fun ⟨z, hz, hc⟩ => ⟨z, List.mem_cons_of_mem x hz, hc⟩

/-- What is joined starts with its first text. -/
theorem exists_joined_append (text : α → List Char) (sep : Char) (x : α) (xs : List α)
    (r : List Char) :
    ∃ t, joined text sep (x :: xs) ++ r = text x ++ t := by
  cases xs with
  | nil => exact ⟨r, by rw [joined_singleton]⟩
  | cons y xs => exact ⟨sep :: (joined text sep (y :: xs) ++ r), by rw [joined_cons]; simp⟩

/-- Texts that are read only one way stay so when they are joined, up to a closing mark.  The
    induction is on the first list.  Where one list has ended and the other has not, the one goes on
    with a closing mark and the other with a separator or a text, so this cannot be. -/
theorem joined_append_inj (hsep : sep = ',' ∨ sep = '\n')
    (hstart : ∀ x, ∃ c cs, text x = c :: cs ∧ c ≠ ']' ∧ c ≠ '}') {xs : List α}
    (hxs : ∀ x ∈ xs, ReadOnce text x) {ys : List α} {r s : List Char} (hr : Closed r)
    (hs : Closed s) (h : joined text sep xs ++ r = joined text sep ys ++ s) :
    xs = ys ∧ r = s := by
  -- something that starts with a text is not closed
  have hopen : ∀ x t, ¬ Closed (text x ++ t) := by
    intro x t hclosed
    obtain ⟨c, cs, hc, hbracket, hbrace⟩ := hstart x
    rw [hc] at hclosed
    exact (hclosed c rfl).elim hbracket hbrace
  have hseparated : ∀ t, Delimited (sep :: t) := by
    rintro t c ⟨⟩
    rcases hsep with rfl | rfl
    · exact Or.inl rfl
    · exact Or.inr (Or.inl rfl)
  have hclosed : ∀ {t u : List Char}, Closed t → t ≠ sep :: u := by
    rintro _ u ht rfl
    rcases ht sep rfl with rfl | rfl
    · exact absurd hsep (by decide)
    · exact absurd hsep (by decide)
  induction xs generalizing ys with
  | nil =>
    cases ys with
    | nil => exact ⟨rfl, h⟩
    | cons y ys =>
      obtain ⟨t, ht⟩ := exists_joined_append text sep y ys s
      rw [ht] at h
      exact absurd (h ▸ hr) (hopen y t)
  | cons x xs ih =>
    obtain ⟨hx, hxs⟩ := List.forall_mem_cons.1 hxs
    cases ys with
    | nil =>
      obtain ⟨t, ht⟩ := exists_joined_append text sep x xs r
      rw [ht] at h
      exact absurd (h ▸ hs) (hopen x t)
    | cons y ys =>
      -- the first texts agree, and then both go on with a separator or neither does
      cases xs with
      | nil =>
        cases ys with
        | nil =>
          rw [joined_singleton, joined_singleton] at h
          obtain ⟨rfl, hrest⟩ := hx y r s hr.delimited hs.delimited h
          exact ⟨rfl, hrest⟩
        | cons y' ys =>
          rw [joined_singleton, joined_cons, List.append_assoc] at h
          obtain ⟨-, hrest⟩ := hx y _ _ hr.delimited (hseparated _) h
          exact absurd hrest (hclosed hr)
      | cons x' xs =>
        cases ys with
        | nil =>
          rw [joined_singleton, joined_cons, List.append_assoc] at h
          obtain ⟨-, hrest⟩ := hx y _ _ (hseparated _) hs.delimited h
          exact absurd hrest.symm (hclosed hs)
        | cons y' ys =>
          rw [joined_cons, joined_cons, List.append_assoc, List.append_assoc] at h
          obtain ⟨rfl, hrest⟩ := hx y _ _ (hseparated _) (hseparated _) h
          obtain ⟨htail, hend⟩ := ih hxs (List.cons.inj hrest).2
          exact ⟨congrArg (x :: ·) htail, hend⟩

end Joined

/-! ## Values

  The first character of a text shows the kind of the value, so two values with the same text have
  one kind, and each case of the induction has a value of the same kind on the other side. -/

namespace Value

/-- The text of an entry. -/
def entryChars (e : String × Value) : List Char :=
  quote e.1.toList ++ ':' :: jsonChars e.2

/-- The elements of a sequence are joined by commas. -/
theorem jsonItems_eq_joined (items : List Value) :
    jsonItems items = joined jsonChars ',' items := by
  induction items with
  | nil => rfl
  | cons v items ih =>
    cases items with
    | nil => rw [joined_singleton, jsonItems, List.isEmpty_nil, if_pos rfl, List.append_nil]
    | cons w items =>
      rw [joined_cons, ← ih, jsonItems]
      rfl

/-- So are the entries of a mapping. -/
theorem jsonEntries_eq_joined (es : Entries) : jsonEntries es = joined entryChars ',' es := by
  induction es with
  | nil => rfl
  | cons e es ih =>
    obtain ⟨k, v⟩ := e
    cases es with
    | nil => rw [joined_singleton, jsonEntries, List.isEmpty_nil, if_pos rfl, List.append_nil]; rfl
    | cons f es =>
      rw [joined_cons, ← ih, jsonEntries]
      rfl

/-- The kind of value whose text starts with a character.  What is neither a letter nor a mark is
    the start of a number. -/
def kindOfHead (c : Char) : Kind :=
  if c = 'n' then .null
  else if c = 't' ∨ c = 'f' then .boolean
  else if c = '"' then .string
  else if c = '[' then .sequence
  else if c = '{' then .mapping
  else .number

/-- The first character of a text shows the kind of the value, and is no closing mark.  So a list
    whose closing mark follows at once has no elements. -/
theorem exists_head_jsonChars (v : Value) :
    ∃ c cs, v.jsonChars = c :: cs ∧ kindOfHead c = v.kind ∧ c ≠ ']' ∧ c ≠ '}' := by
  cases v with
  | null => exact ⟨'n', _, rfl, by decide⟩
  | boolean b =>
    cases b with
    | true => exact ⟨'t', _, rfl, by decide⟩
    | false => exact ⟨'f', _, rfl, by decide⟩
  | number n =>
    have digits : ∀ c : Char, c.isDigit = true → kindOfHead c = .number ∧ c ≠ ']' ∧ c ≠ '}' := by
      intro c hc
      have hother : ∀ d : Char, d.isDigit = false → c ≠ d := fun d => Text.ne_of_isDigit hc
      have hn := hother 'n' (by decide)
      have ht := hother 't' (by decide)
      have hf := hother 'f' (by decide)
      have hquote := hother '"' (by decide)
      have hbracket := hother '[' (by decide)
      have hbrace := hother '{' (by decide)
      refine ⟨?_, hother ']' (by decide), hother '}' (by decide)⟩
      simp only [kindOfHead, hn, ht, hf, hquote, hbracket, hbrace, or_self, if_false]
    obtain ⟨c, cs, hc, hchars | hchars⟩ := n.chars_cases
    · exact ⟨c, cs, hchars, digits c hc⟩
    · exact ⟨'-', c :: cs, hchars, rfl, by decide⟩
  | string s => exact ⟨'"', _, rfl, rfl, by decide⟩
  | sequence items => exact ⟨'[', _, rfl, rfl, by decide⟩
  | mapping es => exact ⟨'{', _, rfl, rfl, by decide⟩

/-- Values whose texts agree are of one kind, whatever follows them. -/
theorem kind_eq_of_jsonChars_append {v w : Value} {r s : List Char}
    (h : v.jsonChars ++ r = w.jsonChars ++ s) : v.kind = w.kind := by
  obtain ⟨c, cs, hv, hc, -⟩ := v.exists_head_jsonChars
  obtain ⟨d, ds, hw, hd, -⟩ := w.exists_head_jsonChars
  rw [hv, hw] at h
  rw [← hc, ← hd, (List.cons.inj h).1]

/-- The text of a value does not start with a closing mark. -/
theorem start_jsonChars (v : Value) :
    ∃ c cs, v.jsonChars = c :: cs ∧ c ≠ ']' ∧ c ≠ '}' := by
  obtain ⟨c, cs, hc, -, hclosing⟩ := v.exists_head_jsonChars
  exact ⟨c, cs, hc, hclosing⟩

/-- Nor does that of an entry, which starts with a quote. -/
theorem start_entryChars (e : String × Value) :
    ∃ c cs, entryChars e = c :: cs ∧ c ≠ ']' ∧ c ≠ '}' :=
  ⟨'"', _, rfl, by decide⟩

/-- An entry is read once if its value is: its key ends at the closing quote. -/
theorem readOnce_entryChars {e : String × Value} (h : ReadOnce jsonChars e.2) :
    ReadOnce entryChars e := by
  rintro ⟨k, w⟩ r s hr hs heq
  obtain ⟨l, v⟩ := e
  simp only [entryChars, List.append_assoc, List.cons_append] at heq
  obtain ⟨rfl, hvalue⟩ := toList_quote_append_inj heq
  obtain ⟨rfl, hrest⟩ := h w r s hr hs (List.cons.inj hvalue).2
  exact ⟨rfl, hrest⟩

/-- **The text of a value is that of no other**, where a delimiter follows.  By induction on the
    value: the other one is of the same kind, a scalar is read by the law of its kind, and a
    collection by that for joined texts. -/
theorem readOnce_jsonChars (v : Value) : ReadOnce jsonChars v := by
  induction v using Value.induct with
  | null =>
    intro w r s _ _ h
    have hkind := kind_eq_of_jsonChars_append h
    cases w with
    | null => exact ⟨rfl, List.append_cancel_left h⟩
    | _ => cases hkind
  | boolean b =>
    intro w r s _ _ h
    have hkind := kind_eq_of_jsonChars_append h
    cases w with
    | boolean c =>
      -- the words differ in the first character
      cases b with
      | true =>
        cases c with
        | true => exact ⟨rfl, List.append_cancel_left h⟩
        | false => exact absurd (List.cons.inj h).1 (by decide)
      | false =>
        cases c with
        | true => exact absurd (List.cons.inj h).1 (by decide)
        | false => exact ⟨rfl, List.append_cancel_left h⟩
    | _ => cases hkind
  | number n =>
    intro w r s hr hs h
    have hkind := kind_eq_of_jsonChars_append h
    cases w with
    | number m =>
      obtain ⟨rfl, hrest⟩ := Decimal.chars_append_inj hr.endsNumber hs.endsNumber h
      exact ⟨rfl, hrest⟩
    | _ => cases hkind
  | string t =>
    intro w r s _ _ h
    have hkind := kind_eq_of_jsonChars_append h
    cases w with
    | string u =>
      obtain ⟨rfl, hrest⟩ := toList_quote_append_inj h
      exact ⟨rfl, hrest⟩
    | _ => cases hkind
  | sequence items ih =>
    intro w r s _ _ h
    have hkind := kind_eq_of_jsonChars_append h
    cases w with
    | sequence others =>
      have hclosed : ∀ t, Closed (']' :: t) := by
        rintro t c ⟨⟩
        exact Or.inl rfl
      simp only [jsonChars, jsonItems_eq_joined, List.cons_append, List.append_assoc,
        List.nil_append, List.cons.injEq, true_and] at h
      obtain ⟨rfl, hrest⟩ :=
        joined_append_inj (Or.inl rfl) start_jsonChars ih (hclosed r) (hclosed s) h
      exact ⟨rfl, (List.cons.inj hrest).2⟩
    | _ => cases hkind
  | mapping es ih =>
    intro w r s _ _ h
    have hkind := kind_eq_of_jsonChars_append h
    cases w with
    | mapping others =>
      have hclosed : ∀ t, Closed ('}' :: t) := by
        rintro t c ⟨⟩
        exact Or.inr rfl
      simp only [jsonChars, jsonEntries_eq_joined, List.cons_append, List.append_assoc,
        List.nil_append, List.cons.injEq, true_and] at h
      obtain ⟨rfl, hrest⟩ := joined_append_inj (Or.inl rfl) start_entryChars
        (fun e he => readOnce_entryChars (ih e he)) (hclosed r) (hclosed s) h
      exact ⟨rfl, (List.cons.inj hrest).2⟩
    | _ => cases hkind

/-! ## Lines

  A line feed in a string is escaped, and none is written between the parts of a value.  So the text
  of a stream, one value on a line, comes apart at its line feeds. -/

/-- Quoted text has no line feed in it. -/
theorem newline_not_mem_quote (cs : List Char) : '\n' ∉ quote cs := by
  intro h
  exact absurd (isControl_of_mem_quote h) (by decide)

/-- The text of a value is one line: line feeds stand in it only escaped.  No separator and no mark
    is one, and numbers have none. -/
theorem newline_not_mem_jsonChars (v : Value) : '\n' ∉ v.jsonChars := by
  have joinedLines : ∀ {α : Type} (text : α → List Char) (xs : List α),
      (∀ x ∈ xs, '\n' ∉ text x) → '\n' ∉ joined text ',' xs := by
    intro α text xs hxs hmem
    obtain hsep | ⟨x, hx, hmem⟩ := mem_joined hmem
    · exact absurd hsep (by decide)
    · exact hxs x hx hmem
  induction v using Value.induct with
  | null => decide
  | boolean b => cases b <;> decide
  | number n =>
    intro h
    rcases Decimal.mem_chars h with h | h | h
    · exact absurd h (by decide)
    · exact absurd h (by decide)
    · exact absurd h (by decide)
  | string s => exact newline_not_mem_quote s.toList
  | sequence items ih =>
    have hitems := joinedLines jsonChars items ih
    simpa [jsonChars, jsonItems_eq_joined] using hitems
  | mapping es ih =>
    have hentries := joinedLines entryChars es fun e he hmem => by
      rcases List.mem_append.1 hmem with hmem | hmem
      · exact newline_not_mem_quote _ hmem
      · rcases List.mem_cons.1 hmem with hcolon | hmem
        · exact absurd hcolon (by decide)
        · exact ih e he hmem
    simpa [jsonChars, jsonEntries_eq_joined] using hentries

/-- The lines of a text, cut at its line feeds.  The empty text has none. -/
def linesOfText (text : String) : List String :=
  if text.isEmpty then [] else (Block.pieces text.toList).map String.ofList

/-- The text of a stream is that of its values, joined by line feeds. -/
theorem toList_streamToJson (values : List Value) :
    (streamToJson values).toList = joined jsonChars '\n' values :=
  String.toList_ofList

/-- The lines of the text of a stream are the texts of its values.  The stream is joined with line
    feeds, and cutting at line feeds undoes this, as none stands in a text. -/
theorem linesOfText_streamToJson (values : List Value) :
    linesOfText (streamToJson values) = values.map toJson := by
  cases values with
  | nil => rfl
  | cons v vs =>
    have hne : (streamToJson (v :: vs)).isEmpty = false := by
      obtain ⟨c, cs, hc, -⟩ := v.exists_head_jsonChars
      obtain ⟨t, ht⟩ := exists_joined_append jsonChars '\n' v vs []
      rw [Bool.eq_false_iff]
      intro hempty
      have hnil := congrArg String.toList (String.isEmpty_iff.1 hempty)
      rw [toList_streamToJson, ← List.append_nil (joined _ _ _), ht, hc] at hnil
      cases hnil
    have hpieces : Block.pieces (joined jsonChars '\n' (v :: vs)) = (v :: vs).map jsonChars := by
      refine Block.pieces_intercalate (by simp) ?_
      exact List.forall_mem_map.2 fun w _ => newline_not_mem_jsonChars w
    rw [linesOfText, hne, if_neg (by decide), toList_streamToJson, hpieces, List.map_map]
    rfl

/-- Different values have different texts. -/
theorem toJson_inj {v w : Value} : v.toJson = w.toJson ↔ v = w := by
  constructor
  · intro h
    have hend : Delimited [] := nofun
    have hchars : v.jsonChars ++ [] = w.jsonChars ++ [] := by
      rw [List.append_nil, List.append_nil]
      exact String.ofList_injective h
    exact (readOnce_jsonChars v w [] [] hend hend hchars).1
  · rintro rfl
    rfl

/-- **A stream of JSON can be decoded in one way only.**  Streams with the same text hold the same
    values, down to the sign, the digits and the scale of every number and the order of all entries;
    no value has a line feed in its text, so the lines are the texts of the values; and no two
    values have the same text. -/
theorem streamToJson_decodable :
    (∀ xs ys, streamToJson xs = streamToJson ys ↔ xs = ys) ∧
    (∀ v : Value, '\n' ∉ v.toJson.toList) ∧
    (∀ xs, linesOfText (streamToJson xs) = xs.map toJson ∧
      (linesOfText (streamToJson xs)).length = xs.length) ∧
    (∀ v w : Value, v.toJson = w.toJson ↔ v = w) := by
  refine ⟨?_, ?_, ?_, fun v w => toJson_inj⟩
  · intro xs ys
    constructor
    · intro h
      have hlines := congrArg linesOfText h
      rw [linesOfText_streamToJson, linesOfText_streamToJson] at hlines
      exact List.map_injective_iff.2 (fun v w => toJson_inj.1) hlines
    · rintro rfl
      rfl
  · intro v
    rw [toJson, String.toList_ofList]
    exact newline_not_mem_jsonChars v
  · intro xs
    have hlines := linesOfText_streamToJson xs
    exact ⟨hlines, by rw [hlines, List.length_map]⟩

end Value

end BlockQuery

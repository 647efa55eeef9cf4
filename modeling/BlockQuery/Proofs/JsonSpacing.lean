/-
  Pretty and compact JSON say the same.

  What the pretty text adds to the compact one are spaces and line feeds outside string literals.
  `unspaced` takes these out of any text: it goes over the characters from left to right and tells
  by the quotes and backslashes alone whether it is in a string literal.  A part of a text that
  starts and ends outside string literals is treated in the same way whatever follows it
  (`Condenses`), so the parts of JSON text are looked at one by one; a written string is such a part
  since every quote in it has a backslash in front.

  `Condenses` is stated with any text behind the part, and that is why it adds up: the place behind
  the part is outside string literals, so what follows is condensed as if it stood alone.  The
  induction over values then needs one lemma for a bracket, one for a line start and one for a
  string.
-/
import BlockQuery.Proofs.DecimalText
import BlockQuery.Proofs.Escape
import BlockQuery.Proofs.Tree

namespace BlockQuery

open Text (quote escape escapeChar)

namespace Json

/-! ## Texts without spacing

  The condensing function knows nothing of JSON but quotes and backslashes, so what it does to a
  text can be said without parsing the text.  In a string literal nothing is taken out, and a hidden
  quote does not end it. -/

/-- Where a character of a text stands: outside string literals, in one, or in one right behind a
    backslash that hides it. -/
inductive Place where
  | outside
  | inString
  | escaped
deriving DecidableEq, Repr

/-- The place behind a character. -/
def Place.next : Place → Char → Place
  | outside, c => if c = '"' then inString else outside
  | inString, c => if c = '"' then outside else if c = '\\' then escaped else inString
  | escaped, _ => inString

/-- Whether a character at a place is a space or a line feed between the parts of a text. -/
def Place.isSpacing : Place → Char → Bool
  | outside, c => c == ' ' || c == '\n'
  | inString, _ => false
  | escaped, _ => false

/-- A text that starts at a place, without its spacing. -/
def unspacedFrom (p : Place) : List Char → List Char
  | [] => []
  | c :: cs =>
      if p.isSpacing c then unspacedFrom (p.next c) cs else c :: unspacedFrom (p.next c) cs

/-- A text without the spaces and line feeds outside its string literals. -/
def unspaced (cs : List Char) : List Char :=
  unspacedFrom .outside cs

/-- Spacing does not open or close anything. -/
theorem Place.next_of_isSpacing {p : Place} {c : Char} (h : p.isSpacing c = true) :
    p.next c = p := by
  cases p with
  | outside =>
    have hquote : c ≠ '"' := by
      rintro rfl
      exact absurd h (by decide)
    exact if_neg hquote
  | inString => cases h
  | escaped => cases h

/-- Without spacing there is nothing left to take out. -/
theorem unspacedFrom_unspacedFrom (p : Place) (cs : List Char) :
    unspacedFrom p (unspacedFrom p cs) = unspacedFrom p cs := by
  induction cs generalizing p with
  | nil => rfl
  | cons c cs ih =>
    cases hc : p.isSpacing c with
    | true =>
      -- what is taken out does not change the place
      rw [unspacedFrom, hc, if_pos rfl, Place.next_of_isSpacing hc]
      exact ih p
    | false =>
      rw [unspacedFrom, hc, if_neg Bool.false_ne_true, unspacedFrom, hc,
        if_neg Bool.false_ne_true, ih]

/-! ## Parts of a text

  Marks, spaces and line feeds are parts of one character; longer parts are made of them. -/

/-- Whether a part of a text becomes another one without its spacing, and ends outside string
    literals. -/
def Condenses (part kept : List Char) : Prop :=
  ∀ rest, unspaced (part ++ rest) = kept ++ unspaced rest

variable {part part' kept kept' : List Char} {c : Char}

/-- A part that stands alone becomes what is kept of it. -/
theorem Condenses.unspaced_eq (h : Condenses part kept) : unspaced part = kept := by
  simpa [unspaced, unspacedFrom] using h []

/-- Two parts, one behind the other, are condensed one by one. -/
theorem Condenses.append (h : Condenses part kept) (h' : Condenses part' kept') :
    Condenses (part ++ part') (kept ++ kept') := by
  intro rest
  rw [List.append_assoc, h, h', List.append_assoc]

/-- A space or a line feed is taken out. -/
theorem Condenses.spacing (hc : c = ' ' ∨ c = '\n') (h : Condenses part kept) :
    Condenses (c :: part) kept := by
  intro rest
  rw [← h rest]
  rcases hc with rfl | rfl
  · rfl
  · rfl

/-- Whether a character outside string literals is kept and opens none. -/
def isMark (c : Char) : Bool :=
  c != '"' && c != ' ' && c != '\n'

/-- A mark is kept. -/
theorem Condenses.mark (hc : isMark c = true) (h : Condenses part kept) :
    Condenses (c :: part) (c :: kept) := by
  simp only [isMark, Bool.and_eq_true, bne_iff_ne] at hc
  obtain ⟨⟨hquote, hspace⟩, hnewline⟩ := hc
  intro rest
  have hkeep : Place.outside.isSpacing c = false := by simp [Place.isSpacing, hspace, hnewline]
  have hnext : Place.outside.next c = .outside := if_neg hquote
  rw [List.cons_append, List.cons_append, ← h rest, unspaced, unspacedFrom, hkeep,
    if_neg Bool.false_ne_true, hnext]
  rfl

/-- Of no character nothing is left. -/
theorem condenses_nil : Condenses [] [] := fun _ => rfl

/-- A run of marks is kept. -/
theorem condenses_marks (cs : List Char) (h : cs.all isMark = true) : Condenses cs cs := by
  induction cs with
  | nil => exact condenses_nil
  | cons c cs ih =>
    rw [List.all_cons, Bool.and_eq_true] at h
    exact (ih h.2).mark h.1

/-- The spaces in front of a line are taken out. -/
theorem condenses_jsonIndent (level : Nat) : Condenses (Value.jsonIndent level) [] := by
  unfold Value.jsonIndent
  induction 2 * level with
  | zero => exact condenses_nil
  | succ n ih => exact ih.spacing (Or.inl rfl)

/-! ## Strings

  Inside the quotes the place is never outside, so no character is taken out.  An escaped quote is
  the one that has to be looked at: the backslash in front of it hides it. -/

/-- In a string literal an escaped character is kept, and the literal goes on behind it. -/
theorem unspacedFrom_escapeChar (c : Char) (rest : List Char) :
    unspacedFrom .inString (escapeChar c ++ rest) =
      escapeChar c ++ unspacedFrom .inString rest := by
  have plain : ∀ {d : Char}, d ≠ '"' → d ≠ '\\' → ∀ tail,
      unspacedFrom .inString (d :: tail) = d :: unspacedFrom .inString tail := by
    intro d hquote hslash tail
    have hnext : Place.inString.next d = .inString := by
      rw [Place.next, if_neg hquote, if_neg hslash]
    rw [unspacedFrom, hnext]
    rfl
  rcases Text.escapeChar_cases c with ⟨e, he, -⟩ | ⟨he, -⟩ | ⟨he, hquote, hslash, -⟩
  · rw [he]
    rfl
  · rw [he]
    -- the digits behind the hidden letter are plain
    show '\\' :: 'u' :: unspacedFrom .inString ('0' :: '0' :: _ :: _ :: rest) = _
    rw [plain (by decide) (by decide), plain (by decide) (by decide),
      plain (Block.hexDigit_plain _).1 (Block.hexDigit_plain _).2,
      plain (Block.hexDigit_plain _).1 (Block.hexDigit_plain _).2]
    rfl
  · rw [he]
    exact plain hquote hslash rest

/-- So a whole escaped text is kept, and the literal goes on behind it. -/
theorem unspacedFrom_escape (cs rest : List Char) :
    unspacedFrom .inString (escape cs ++ rest) = escape cs ++ unspacedFrom .inString rest := by
  induction cs with
  | nil => rfl
  | cons c cs ih =>
    rw [escape, List.flatMap_cons, List.append_assoc, List.append_assoc, unspacedFrom_escapeChar,
      ← escape, ih]

/-- A written string is kept as it is. -/
theorem condenses_quote (cs : List Char) : Condenses (quote cs) (quote cs) := by
  intro rest
  have hquote : ∀ tail, quote cs ++ tail = '"' :: (escape cs ++ '"' :: tail) := by simp [quote]
  rw [hquote, hquote]
  show '"' :: unspacedFrom .inString (escape cs ++ '"' :: rest) = _
  rw [unspacedFrom_escape]
  rfl

/-! ## Values

  The pretty text is compared with the compact one, part by part, at any level of indentation. -/

/-- A digit is kept. -/
theorem isMark_of_isDigit (h : c.isDigit = true) : isMark c = true := by
  have hother : ∀ d : Char, d.isDigit = false → c ≠ d := fun d => Text.ne_of_isDigit h
  simp only [isMark, Bool.and_eq_true, bne_iff_ne]
  exact ⟨⟨hother _ rfl, hother _ rfl⟩, hother _ rfl⟩

/-- A number is kept as it is. -/
theorem condenses_chars (d : Decimal) : Condenses d.chars d.chars := by
  refine condenses_marks _ (List.all_eq_true.2 fun c hc => ?_)
  rcases Decimal.mem_chars hc with hdigit | rfl | rfl
  · exact isMark_of_isDigit hdigit
  · rfl
  · rfl

/-- Elements on lines of their own become elements with commas between them. -/
theorem condenses_prettyItems {level : Nat} {items : List Value}
    (h : ∀ v ∈ items, Condenses (v.prettyChars (level + 1)) v.jsonChars) :
    Condenses (Value.prettyItems level items) (Value.jsonItems items) := by
  induction items with
  | nil => exact condenses_nil
  | cons v vs ih =>
    rw [List.forall_mem_cons] at h
    have hfirst := (condenses_jsonIndent (level + 1)).append h.1
    rw [Value.prettyItems, Value.jsonItems]
    cases vs with
    | nil => exact hfirst.append (condenses_nil.spacing (Or.inr rfl))
    | cons w ws =>
      have hothers := (ih h.2).spacing (Or.inr rfl)
      exact hfirst.append (hothers.mark (by decide))

/-- Entries on lines of their own become entries with commas between them; the space behind a colon
    goes too. -/
theorem condenses_prettyEntries {level : Nat} {es : Entries}
    (h : ∀ e ∈ es, Condenses (e.2.prettyChars (level + 1)) e.2.jsonChars) :
    Condenses (Value.prettyEntries level es) (Value.jsonEntries es) := by
  induction es with
  | nil => exact condenses_nil
  | cons e es ih =>
    obtain ⟨k, v⟩ := e
    rw [List.forall_mem_cons] at h
    have hkey := (condenses_jsonIndent (level + 1)).append (condenses_quote k.toList)
    have hfirst := hkey.append ((h.1.spacing (Or.inl rfl)).mark (c := ':') (by decide))
    rw [Value.prettyEntries, Value.jsonEntries]
    cases es with
    | nil => exact hfirst.append (condenses_nil.spacing (Or.inr rfl))
    | cons e es =>
      have hothers := (ih h.2).spacing (Or.inr rfl)
      exact hfirst.append (hothers.mark (by decide))

/-- The pretty text of a value, at any level, becomes its compact text. -/
theorem condenses_prettyChars (v : Value) (level : Nat) :
    Condenses (v.prettyChars level) v.jsonChars := by
  induction v using Value.induct generalizing level with
  | null => exact condenses_marks Text.nullWord (by decide)
  | boolean b =>
    cases b with
    | true => exact condenses_marks Text.trueWord (by decide)
    | false => exact condenses_marks Text.falseWord (by decide)
  | number d => exact condenses_chars d
  | string s => exact condenses_quote s.toList
  | sequence items ih =>
    rw [Value.prettyChars, Value.jsonChars]
    cases items with
    | nil => exact condenses_marks ['[', ']'] (by decide)
    | cons v vs =>
      have hitems := condenses_prettyItems fun w hw => ih w hw (level + 1)
      have hopen := (hitems.spacing (Or.inr rfl)).mark (c := '[') (by decide)
      have hclose := condenses_marks [']'] (by decide)
      have hlines := (hopen.append (condenses_jsonIndent level)).append hclose
      rwa [List.append_nil] at hlines
  | mapping es ih =>
    rw [Value.prettyChars, Value.jsonChars]
    cases es with
    | nil => exact condenses_marks ['{', '}'] (by decide)
    | cons e es =>
      have hentries := condenses_prettyEntries fun f hf => ih f hf (level + 1)
      have hopen := (hentries.spacing (Or.inr rfl)).mark (c := '{') (by decide)
      have hclose := condenses_marks ['}'] (by decide)
      have hlines := (hopen.append (condenses_jsonIndent level)).append hclose
      rwa [List.append_nil] at hlines

end Json

/-- **Pretty and compact JSON say the same.**  Without the spaces and line feeds outside its string
    literals, the pretty text of a value is its compact text; and in that there are none. -/
theorem Value.unspaced_toPrettyJson (v : Value) :
    String.ofList (Json.unspaced v.toPrettyJson.toList) = v.toJson ∧
      String.ofList (Json.unspaced v.toJson.toList) = v.toJson := by
  have hpretty : Json.unspaced (v.prettyChars 0) = v.jsonChars :=
    (Json.condenses_prettyChars v 0).unspaced_eq
  constructor
  · rw [toPrettyJson, String.toList_ofList, hpretty, toJson]
  · rw [toJson, String.toList_ofList, ← hpretty]
    exact congrArg String.ofList (Json.unspacedFrom_unspacedFrom .outside _)

/-- Quotes and backslashes next to spaces, in a key and in a string. -/
example :
    let v := Value.mapping [("a\" b", .sequence [.string " \\", .string "\n ", .null])]
    String.ofList (Json.unspaced v.toPrettyJson.toList) =
      "\x7b\"a\\\" b\":[\" \\\\\",\"\\n \",null]\x7d" := by
  decide

end BlockQuery

/-
  What the lines of written text are.

  A line with a scalar is no element, and an entry only for a bare string that holds a colon with a
  blank behind it (`MisreadString`): the writer puts quotes around a string with a colon and a
  space, but the reader takes any blank.  A line with a key and a colon is no element, and an entry
  unless the key is bare and starts in a way in which no plain key does (`MisreadKey`).

  `LineText` is what makes a text survive as a line: nothing comes off at its ends, and it is
  neither a comment nor a marker.

  For each text that the writer can put on a line there are three questions: whether the line is an
  element, whether it is an entry and with which key, and whether the text comes back from the line
  as it was.  The sections answer them one after the other, for keys and for scalars; the two
  misread kinds are named in the first section, because they are the only exceptions to what one
  would expect.
-/
import BlockQuery.Proofs.Codec

namespace BlockQuery.Block

open Text

variable {cs k tail : List Char}

/-! ## Texts that are read as something else

  A key must be seen to start a key, and a string must not look as if it did.  Both conditions are
  on the text alone, so they say of a value whether writing it does harm. -/

/-- Whether no plain key starts like this: a closing bracket or brace, or a dash and a blank. -/
def OpensNoKey (cs : List Char) : Prop :=
  cs.head? = some ']' ∨ cs.head? = some '}' ∨ ∃ c rest, cs = '-' :: c :: rest ∧ isBlank c = true

/-- Whether a text starts like a plain key and a blank follows its first colon. -/
def LooksLikeEntry (cs : List Char) : Prop :=
  startsPlainKey cs = true ∧
    ∃ key c rest, cs = key ++ ':' :: c :: rest ∧ ':' ∉ key ∧ isBlank c = true

/-- Whether a key is written bare although no plain key starts like it.  The line with this key is
    then no entry, and its mapping is not read back. -/
def MisreadKey (k : List Char) : Prop :=
  renderKey k = k ∧ OpensNoKey k

/-- Whether a string is written bare although, on a line of its own, it is an entry.  Behind a key
    such a string is safe, as the line is split at its first colon. -/
def MisreadString (cs : List Char) : Prop :=
  renderString cs = cs ∧ LooksLikeEntry cs

/-! ## Entries

  The reader splits a line at a colon: at the first one, or at the one behind the closing quote if
  the line starts with a quote.  The line is an entry if the part in front can be a key and a blank
  or nothing is behind the colon. -/

/-- A line that starts with no quote is split at its first colon, if it starts like a plain key. -/
theorem splitKey?_of_head (hdouble : cs.head? ≠ some '"') (hsingle : cs.head? ≠ some '\'') :
    splitKey? cs =
      if startsPlainKey cs then
        some (trimEnd (cs.takeWhile (· != ':')), cs.dropWhile (· != ':'))
      else none := by
  unfold splitKey?
  split
  · exact absurd rfl hdouble
  · exact absurd rfl hsingle
  · rfl

/-- A text with no quote in front and no colon is no entry. -/
theorem keyLine?_of_no_colon (hdouble : cs.head? ≠ some '"') (hsingle : cs.head? ≠ some '\'')
    (hcolon : ':' ∉ cs) : keyLine? cs = none := by
  have hrest : cs.dropWhile (· != ':') = [] := by
    rw [List.dropWhile_eq_nil_iff]
    intro c hc
    have hne : c ≠ ':' := fun h => hcolon (h ▸ hc)
    simpa using hne
  rw [keyLine?, splitKey?_of_head hdouble hsingle, hrest]
  split <;> rfl

/-- A line is the entry that its text before the colon and its text behind it make, unless something
    other than a blank follows the colon at once. -/
theorem keyLine?_of_split (h : splitKey? cs = some (k, ':' :: tail)) :
    keyLine? cs = (inlineText? tail).map fun inline => ⟨k, inline⟩ := by
  have htight : trimStart (':' :: tail) = ':' :: tail := by
    rw [trimStart_eq_self_iff]
    rintro _ ⟨⟩
    decide
  rw [keyLine?, h, Option.bind_some, htight]
  rfl

/-- A plain key ends at the first colon, and there is no other one in it. -/
theorem keyLine?_append_colon (hdouble : (k ++ ':' :: tail).head? ≠ some '"')
    (hsingle : (k ++ ':' :: tail).head? ≠ some '\'') (hcolon : ':' ∉ k) :
    keyLine? (k ++ ':' :: tail) =
      if startsPlainKey (k ++ ':' :: tail) then
        (inlineText? tail).map fun inline => ⟨trimEnd k, inline⟩
      else none := by
  have hkey : ∀ c ∈ k, (c != ':') = true := by
    intro c hc
    have hne : c ≠ ':' := fun h => hcolon (h ▸ hc)
    simpa using hne
  have hstop : ∀ c ∈ (':' :: tail).head?, (c != ':') = false := by
    rintro _ ⟨⟩
    decide
  have hsplit := splitKey?_of_head hdouble hsingle
  rw [takeWhile_run_append hkey hstop, dropWhile_run_append hkey hstop] at hsplit
  split
  · rename_i hstart
    rw [if_pos hstart] at hsplit
    exact keyLine?_of_split hsplit
  · rename_i hstart
    rw [if_neg hstart] at hsplit
    rw [keyLine?, hsplit]
    rfl

/-- A key in quotes ends at its closing quote, so a colon in it does no harm. -/
theorem keyLine?_quote (k tail : List Char) :
    keyLine? (quote k ++ ':' :: tail) =
      (inlineText? tail).map fun inline => ⟨quote k, inline⟩ := by
  have hsplit : splitKey? (quote k ++ ':' :: tail) = some (quote k, ':' :: tail) := by
    show (splitDouble? ((escape k ++ ['"']) ++ ':' :: tail)).map _ = _
    rw [List.append_assoc, List.singleton_append, splitDouble?_escape]
    rfl
  exact keyLine?_of_split hsplit

/-- A text in quotes alone is no entry. -/
theorem keyLine?_quote_alone (cs : List Char) : keyLine? (quote cs) = none := by
  have hsplit : splitKey? (quote cs) = some (quote cs, []) := by
    show (splitDouble? (escape cs ++ '"' :: [])).map _ = _
    rw [splitDouble?_escape]
    rfl
  rw [keyLine?, hsplit]
  rfl

/-! ## Lines with a key

  A bare key has no colon in it, so the line is split where the writer put the colon.  What is left
  to ask is whether the key starts like one, and the answer is yes for all characters that need no
  quotes except two. -/

/-- Any character but a dash is judged by itself. -/
theorem startsPlainKey_cons {c : Char} (h : c ≠ '-') (rest : List Char) :
    startsPlainKey (c :: rest) = (!isBlank c && !keyIndicators.contains c) := by
  unfold startsPlainKey
  split
  · rename_i heq
    exact absurd heq (by simp)
  · rename_i heq
    exact absurd (List.cons.inj heq).1 h
  · rename_i heq
    obtain ⟨rfl, -⟩ := List.cons.inj heq
    rfl

/-- A plain key starts with anything else than the characters that open no key.  A key that is
    written bare starts with none of the signs that need quotes, and of what the reader refuses only
    these three starts are left. -/
theorem startsPlainKey_append_iff (hk : Bare k) (hcolon : ':' ∉ k) (hhash : '#' ∉ k) :
    startsPlainKey (k ++ ':' :: tail) = true ↔ ¬ OpensNoKey k := by
  obtain ⟨c, rest, rfl⟩ := List.exists_cons_of_ne_nil hk.ne_nil
  -- a dash is judged by what follows it, every other character by itself
  by_cases hdash : c = '-'
  · subst hdash
    cases rest with
    | nil => exact absurd hk.no_item (by decide)
    | cons d rest =>
      have hd : d ≠ ':' := by
        rintro rfl
        exact hcolon (by simp)
      show (!isBlank d && d != ':') = true ↔ _
      simp [OpensNoKey, hd]
  · have hblank : isBlank c = false := hk.trimmed.1 c rfl
    have hdouble : c ≠ '"' := fun h => hk.head_ne (c := c) (by rw [h]; decide) rfl
    have hsingle : c ≠ '\'' := fun h => hk.head_ne (c := c) (by rw [h]; decide) rfl
    have hbracket : c ≠ '[' := fun h => hk.head_ne (c := c) (by rw [h]; decide) rfl
    have hbrace : c ≠ '{' := fun h => hk.head_ne (c := c) (by rw [h]; decide) rfl
    have hc : c ≠ ':' ∧ c ≠ '#' := by
      constructor
      · rintro rfl
        exact hcolon (by simp)
      · rintro rfl
        exact hhash (by simp)
    -- of the characters that start no plain key, the closing ones are left
    have hindicator : keyIndicators.contains c = true ↔ c = ']' ∨ c = '}' := by
      simp only [keyIndicators, List.contains_iff_mem, List.mem_cons, List.not_mem_nil, hdouble,
        hsingle, hbracket, hbrace, hc.1, hc.2, hdash, false_or, or_false]
    have hopens : OpensNoKey (c :: rest) ↔ c = ']' ∨ c = '}' := by
      simp only [OpensNoKey, List.head?_cons, Option.some.injEq, List.cons.injEq, hdash, false_and,
        exists_false, or_false]
    rw [List.cons_append, startsPlainKey_cons hdash, hblank, hopens, ← hindicator]
    simp

/-- A bare key starts with no sign that means something. -/
theorem head?_append_colon_ne {c : Char} (hk : Bare k) (hc : indicators.contains c = true) :
    (k ++ ':' :: tail).head? ≠ some c := by
  have hhead := hk.head_ne hc
  obtain ⟨d, rest, rfl⟩ := List.exists_cons_of_ne_nil hk.ne_nil
  exact hhead

/-- A line with a key and a colon is an entry with that key, as it was written, whatever text
    follows the colon. -/
theorem keyLine?_renderKey (h : ¬ MisreadKey k) (tail : List Char) :
    keyLine? (renderKey k ++ ':' :: tail) =
      (inlineText? tail).map fun inline => ⟨renderKey k, inline⟩ := by
  rcases renderKey_cases k with ⟨heq, hbare, hcolon, hhash⟩ | heq
  · have hopens : ¬ OpensNoKey k := fun hopens => h ⟨heq, hopens⟩
    rw [heq, keyLine?_append_colon (head?_append_colon_ne hbare (by decide))
      (head?_append_colon_ne hbare (by decide)) hcolon,
      if_pos ((startsPlainKey_append_iff hbare hcolon hhash).2 hopens),
      trimEnd_eq_self_iff.2 hbare.trimmed.2]
  · rw [heq, keyLine?_quote]

/-- A line with a misread key is no entry: it is split nowhere, since it does not start like a plain
    key. -/
theorem keyLine?_misreadKey (h : MisreadKey k) (tail : List Char) :
    keyLine? (renderKey k ++ ':' :: tail) = none := by
  obtain ⟨heq, hopens⟩ := h
  obtain ⟨hbare, hcolon, hhash⟩ := bare_of_renderKey heq
  rw [heq, keyLine?_append_colon (head?_append_colon_ne hbare (by decide))
    (head?_append_colon_ne hbare (by decide)) hcolon, if_neg]
  rw [startsPlainKey_append_iff hbare hcolon hhash]
  exact not_not_intro hopens

/-! ## Lines with a scalar

  Of the scalars only a string can hold a colon.  A quoted one is split behind its closing quote,
  where nothing follows; a bare one may be split inside. -/

/-- A bare text is an entry when it looks like one.  Its first colon is then followed by a blank; it
    cannot be the last character, as a bare text does not end with a colon. -/
theorem isSome_keyLine?_iff (hcs : Bare cs) : (keyLine? cs).isSome = true ↔ LooksLikeEntry cs := by
  have hdouble : cs.head? ≠ some '"' := hcs.head_ne (by decide)
  have hsingle : cs.head? ≠ some '\'' := hcs.head_ne (by decide)
  constructor
  · intro h
    by_cases hcolon : ':' ∈ cs
    · obtain ⟨key, tail, rfl, hkey⟩ := List.eq_append_cons_of_mem hcolon
      -- something follows the first colon, since the text does not end with it
      obtain ⟨c, rest, rfl⟩ : ∃ c rest, tail = c :: rest := by
        apply List.exists_cons_of_ne_nil
        rintro rfl
        exact hcs.last (by simp)
      rw [keyLine?_append_colon hdouble hsingle hkey] at h
      split at h
      · rename_i hstart
        refine ⟨hstart, key, c, rest, rfl, hkey, ?_⟩
        by_contra hblank
        simp [inlineText?, hblank] at h
      · exact absurd h (by decide)
    · rw [keyLine?_of_no_colon hdouble hsingle hcolon] at h
      exact absurd h (by decide)
  · rintro ⟨hstart, key, c, rest, rfl, hkey, hblank⟩
    rw [keyLine?_append_colon hdouble hsingle hkey, if_pos hstart]
    simp [inlineText?, hblank]

/-- A line with a string alone is an entry exactly for a misread string. -/
theorem isSome_keyLine?_renderString (cs : List Char) :
    (keyLine? (renderString cs)).isSome = true ↔ MisreadString cs := by
  rcases renderString_cases cs with ⟨heq, hbare⟩ | heq
  · rw [heq, isSome_keyLine?_iff hbare, MisreadString, heq]
    exact (and_iff_right rfl).symm
  · rw [heq, keyLine?_quote_alone]
    constructor
    · intro h
      exact absurd h (by decide)
    · rintro ⟨hself, -⟩
      exact absurd (heq.symm.trans hself) (quote_ne_self cs)

/-- The misread strings are the only scalars that make an entry.  Numbers and words have no colon,
    and a quoted text has nothing behind its quote. -/
theorem isSome_keyLine?_renderScalar {v : Value} (h : v.isBlock = false) :
    (keyLine? (renderScalar v)).isSome = true ↔ ∃ s, v = .string s ∧ MisreadString s.toList := by
  have hnone : ∀ {t : List Char}, keyLine? t = none → (∀ s, v ≠ .string s) →
      ((keyLine? t).isSome = true ↔ ∃ s, v = .string s ∧ MisreadString s.toList) := by
    intro t ht hv
    rw [ht]
    constructor
    · intro h
      exact absurd h (by decide)
    · rintro ⟨s, hs, -⟩
      exact absurd hs (hv s)
  cases v with
  | string s =>
    rw [renderScalar, isSome_keyLine?_renderString]
    simp
  | null => exact hnone (by decide) (by simp)
  | boolean b => exact hnone (by cases b <;> decide) (by simp)
  | number n =>
    refine hnone ?_ (by simp)
    apply keyLine?_of_no_colon
    · exact head?_chars_ne (by decide) (by decide)
    · exact head?_chars_ne (by decide) (by decide)
    · intro hcolon
      rcases Decimal.mem_chars hcolon with h | h | h
      · exact absurd h (by decide)
      · exact absurd h (by decide)
      · exact absurd h (by decide)
  | sequence items => exact hnone (t := ['[', ']']) (by decide) (by simp)
  | mapping es => exact hnone (t := ['{', '}']) (by decide) (by simp)

/-! ## Where nothing is misread

  Both conditions are rare.  A misread string has a blank beyond ASCII in it, and so has a misread
  key, unless it starts with a closing bracket or brace. -/

/-- Whether the only blanks in a text are those of ASCII.  Of these the writer knows the space, and
    control characters are always quoted. -/
def AsciiBlanks (cs : List Char) : Prop :=
  ∀ c ∈ cs, isBlank c = true → c.toNat ≤ 0x7f

/-- A blank of ASCII is a space or a control character. -/
theorem eq_space_or_isControl {c : Char} (hblank : isBlank c = true) (hc : c.toNat ≤ 0x7f) :
    c = ' ' ∨ isControl c = true := by
  simp only [isBlank, isControl, Bool.or_eq_true, Bool.and_eq_true, decide_eq_true_eq,
    beq_iff_eq] at hblank ⊢
  by_cases hspace : c.toNat = 0x20
  · exact Or.inl (Char.toNat_inj.1 hspace)
  · exact Or.inr (by omega)

/-- A pair that stands in a text is found there. -/
theorem hasPair_append (a b : Char) (front tail : List Char) :
    hasPair a b (front ++ a :: b :: tail) = true := by
  induction front with
  | nil => simp [hasPair]
  | cons c front ih =>
    obtain ⟨d, rest, heq⟩ : ∃ d rest, front ++ a :: b :: tail = d :: rest :=
      List.exists_cons_of_ne_nil (by simp)
    rw [List.cons_append, heq, hasPair, ← heq, ih, Bool.or_true]

/-- A string with no blank beyond ASCII is not misread. -/
theorem not_misreadString (h : AsciiBlanks cs) : ¬ MisreadString cs := by
  rintro ⟨hself, -, key, c, rest, rfl, -, hblank⟩
  -- the blank behind the colon is a space or a control character, and neither is written bare
  have hbare := bare_of_renderString hself
  have hmem : c ∈ key ++ ':' :: c :: rest := by simp
  rcases eq_space_or_isControl hblank (h c hmem hblank) with rfl | hcontrol
  · exact absurd hbare.no_entry (by simp [hasPair_append])
  · exact absurd hcontrol (by simp [hbare.no_control c hmem])

/-- A key with no blank beyond ASCII and no closing bracket or brace in front is not misread. -/
theorem not_misreadKey (h : AsciiBlanks k) (hbracket : k.head? ≠ some ']')
    (hbrace : k.head? ≠ some '}') : ¬ MisreadKey k := by
  rintro ⟨hself, hopens⟩
  obtain ⟨hbare, -⟩ := bare_of_renderKey hself
  rcases hopens with hopens | hopens | ⟨c, rest, rfl, hblank⟩
  · exact hbracket hopens
  · exact hbrace hopens
  · have hmem : c ∈ '-' :: c :: rest := by simp
    rcases eq_space_or_isControl hblank (h c hmem hblank) with rfl | hcontrol
    · exact absurd hbare.no_item (by simp [isItem])
    · exact absurd hcontrol (by simp [hbare.no_control c hmem])

/-! ## Elements

  A line is an element if it starts with a dash that a space follows, or is a dash alone.  The
  writer quotes what starts with a dash and a space, so only its own dashes make elements. -/

/-- A line that starts with no dash is no element. -/
theorem isItem_of_head (h : cs.head? ≠ some '-') : isItem cs = false := by
  unfold isItem
  split
  · exact absurd rfl h
  · exact absurd rfl h
  · rfl

/-- Nor is one whose dash is followed by anything else than a space. -/
theorem isItem_of_dash_ne {c : Char} {rest : List Char} (h : c ≠ ' ') :
    isItem ('-' :: c :: rest) = false := by
  unfold isItem
  split
  · rename_i heq
    simp at heq
  · rename_i heq
    simp only [List.cons.injEq, true_and] at heq
    exact absurd heq.1 h
  · rfl

/-- Text behind a text that is no element makes no element of it. -/
theorem isItem_append (hk : isItem k = false) (hne : k ≠ []) (tail : List Char) :
    isItem (k ++ tail) = false := by
  obtain ⟨c, rest, rfl⟩ := List.exists_cons_of_ne_nil hne
  by_cases hc : c = '-'
  · subst hc
    cases rest with
    | nil => exact absurd hk (by decide)
    | cons d rest =>
      have hd : d ≠ ' ' := by
        rintro rfl
        exact absurd hk (by simp [isItem])
      exact isItem_of_dash_ne hd
  · exact isItem_of_head (by simpa using hc)

/-- A quoted text starts with its quote. -/
theorem isItem_quote (cs : List Char) : isItem (quote cs) = false :=
  isItem_of_head (by simp [quote])

/-- A dash with spaces behind it is an element. -/
theorem isItem_dash (n : Nat) (text : List Char) :
    isItem ('-' :: (List.replicate (n + 1) ' ' ++ text)) = true := by
  rw [List.replicate_succ]
  rfl

/-- A scalar is no element. -/
theorem isItem_renderScalar {v : Value} (h : v.isBlock = false) :
    isItem (renderScalar v) = false := by
  cases v with
  | null => decide
  | boolean b => cases b <;> decide
  | number n =>
    rw [renderScalar]
    obtain ⟨c, rest, hc, heq | heq⟩ := n.chars_cases
    · rw [heq]
      apply isItem_of_head
      rintro ⟨⟩
      exact absurd hc (by decide)
    · rw [heq]
      refine isItem_of_dash_ne ?_
      rintro rfl
      exact absurd hc (by decide)
  | string s =>
    rw [renderScalar]
    rcases renderString_cases s.toList with ⟨heq, hbare⟩ | heq
    · rw [heq]
      exact hbare.no_item
    · rw [heq]
      exact isItem_quote _
  | sequence items => rfl
  | mapping es => rfl

/-- A key and a colon are no element. -/
theorem isItem_renderKey (k tail : List Char) : isItem (renderKey k ++ ':' :: tail) = false := by
  rcases renderKey_cases k with ⟨heq, hbare, -⟩ | heq
  · rw [heq]
    exact isItem_append hbare.no_item hbare.ne_nil _
  · rw [heq]
    exact isItem_append (isItem_quote k) (by simp [quote]) _

/-- What is read as an entry starts with no blank, is no comment and no element, so it does not
    matter that the reader asks for elements first. -/
theorem starts_of_keyLine? {kl : KeyLine} (h : keyLine? cs = some kl) :
    StartsTight cs ∧ cs.head? ≠ some '#' ∧ isItem cs = false := by
  obtain ⟨p, hsplit, -⟩ := Option.bind_eq_some_iff.1 h
  by_cases hdouble : cs.head? = some '"'
  · exact ⟨startsTight_of_head? hdouble (by decide), by simp [hdouble],
      isItem_of_head (by simp [hdouble])⟩
  by_cases hsingle : cs.head? = some '\''
  · exact ⟨startsTight_of_head? hsingle (by decide), by simp [hsingle],
      isItem_of_head (by simp [hsingle])⟩
  rw [splitKey?_of_head hdouble hsingle] at hsplit
  have hstart : startsPlainKey cs = true := by
    by_contra hnot
    rw [if_neg hnot] at hsplit
    cases hsplit
  cases cs with
  | nil => cases hstart
  | cons c rest =>
    by_cases hc : c = '-'
    · subst hc
      refine ⟨startsTight_of_head? rfl (by decide), by simp, ?_⟩
      cases rest with
      | nil => exact absurd hstart (by decide)
      | cons d rest =>
        refine isItem_of_dash_ne ?_
        rintro rfl
        cases hstart
    · rw [startsPlainKey_cons hc, Bool.and_eq_true, Bool.not_eq_true', Bool.not_eq_true'] at hstart
      refine ⟨startsTight_of_head? rfl hstart.1, ?_, isItem_of_head (by simpa using hc)⟩
      rintro ⟨⟩
      exact absurd hstart.2 (by decide)

/-! ## Texts that stand as lines

  The texts of the writer are put together from a dash, a key, a colon and a scalar, with spaces
  between them.  `LineText` holds of the parts, and passes to what is put together of them. -/

/-- What a text needs to be the text of a line: it says something, nothing comes off at its ends,
    and it is neither a comment nor a marker. -/
structure LineText (cs : List Char) : Prop where
  ne_nil : cs ≠ []
  trimmed : Trimmed cs
  no_newline : '\n' ∉ cs
  no_comment : cs.head? ≠ some '#'
  ne_marker : cs ≠ marker

/-- A text without control characters has no line feed. -/
theorem newline_not_mem (h : ∀ c ∈ cs, isControl c = false) : '\n' ∉ cs := by
  intro hmem
  exact absurd (h _ hmem) (by decide)

/-- What is written bare may stand on a line. -/
theorem Bare.lineText (h : Bare cs) : LineText cs :=
  ⟨h.ne_nil, h.trimmed, newline_not_mem h.no_control, h.head_ne (by decide), h.ne_marker⟩

/-- So may a quoted text, whatever is in it. -/
theorem lineText_quote (cs : List Char) : LineText (quote cs) :=
  ⟨by simp [quote], trimmed_quote cs, newline_not_mem fun _ => isControl_of_mem_quote,
    by simp [quote], by simp [quote, marker]⟩

/-- A digit is no blank. -/
theorem isBlank_of_isDigit {c : Char} (h : c.isDigit = true) : isBlank c = false := by
  have hrange : 48 ≤ c.toNat ∧ c.toNat ≤ 57 := Char.isDigit_iff_toNat.1 h
  simp only [isBlank, Bool.or_eq_false_iff, Bool.and_eq_false_iff, decide_eq_false_iff_not,
    beq_eq_false_iff_ne]
  omega

/-- Nothing is trimmed off a text without blanks. -/
theorem trimmed_of_no_blank (h : cs.any isBlank = false) : Trimmed cs := by
  have hall : ∀ c ∈ cs, isBlank c = false := fun c hc => by
    simpa using List.any_eq_false.1 h c hc
  exact ⟨fun c hc => hall c (List.mem_of_mem_head? hc),
    fun c hc => hall c (List.mem_of_getLast? hc)⟩

/-- A word without blanks may stand on a line. -/
theorem lineText_of_no_blank (hne : cs ≠ []) (hblank : cs.any isBlank = false)
    (hcomment : cs.head? ≠ some '#') (hmarker : cs ≠ marker) : LineText cs := by
  refine ⟨hne, trimmed_of_no_blank hblank, ?_, hcomment, hmarker⟩
  intro hmem
  exact List.any_eq_false.1 hblank _ hmem (by decide)

/-- A number may stand on a line. -/
theorem lineText_chars (d : Decimal) : LineText d.chars := by
  obtain ⟨c, rest, hc, hcases⟩ := d.chars_cases
  apply lineText_of_no_blank
  · rcases hcases with heq | heq
    · simp [heq]
    · simp [heq]
  · rw [List.any_eq_false]
    intro e he
    rcases Decimal.mem_chars he with h | rfl | rfl
    · simp [isBlank_of_isDigit h]
    · decide
    · decide
  · exact head?_chars_ne (by decide) (by decide)
  · -- a digit stands in one of the first two places, and no dash is one
    rcases hcases with heq | heq
    · rw [heq]
      rintro ⟨⟩
      exact absurd hc (by decide)
    · rw [heq]
      rintro ⟨⟩
      exact absurd hc (by decide)

/-- A scalar may stand on a line. -/
theorem lineText_renderScalar {v : Value} (h : v.isBlock = false) : LineText (renderScalar v) := by
  cases v with
  | null => exact lineText_of_no_blank (by decide) (by decide) (by decide) (by decide)
  | boolean b =>
    cases b
    · exact lineText_of_no_blank (by decide) (by decide) (by decide) (by decide)
    · exact lineText_of_no_blank (by decide) (by decide) (by decide) (by decide)
  | number n => exact lineText_chars n
  | string s =>
    rw [renderScalar]
    rcases renderString_cases s.toList with ⟨heq, hbare⟩ | heq
    · rw [heq]
      exact hbare.lineText
    · rw [heq]
      exact lineText_quote _
  | sequence items =>
    show LineText ['[', ']']
    exact lineText_of_no_blank (by decide) (by decide) (by decide) (by decide)
  | mapping es =>
    show LineText ['{', '}']
    exact lineText_of_no_blank (by decide) (by decide) (by decide) (by decide)

/-- A key may stand on a line, in quotes or bare. -/
theorem lineText_renderKey (k : List Char) : LineText (renderKey k) := by
  rcases renderKey_cases k with ⟨heq, hbare, -⟩ | heq
  · rw [heq]
    exact hbare.lineText
  · rw [heq]
    exact lineText_quote k

/-- A key and a colon may stand on a line: the colon is no blank, and it makes no marker. -/
theorem LineText.key (h : LineText k) : LineText (k ++ [':']) := by
  obtain ⟨c, rest, rfl⟩ := List.exists_cons_of_ne_nil h.ne_nil
  refine ⟨by simp, ⟨h.trimmed.1, endsTight_concat _ (by decide)⟩, ?_, h.no_comment, ?_⟩
  · simpa using h.no_newline
  · -- a marker has no colon
    intro heq
    have hcolon : ':' ∈ marker := heq ▸ List.mem_append_right _ (List.mem_singleton_self ':')
    exact absurd hcolon (by decide)

/-- A key, a colon, spaces and a text may stand on a line.  It starts as the key does and ends as
    the text does, so nothing comes off. -/
theorem LineText.entry (h : LineText k) (n : Nat) (ht : LineText tail) :
    LineText (k ++ ':' :: (List.replicate n ' ' ++ tail)) := by
  obtain ⟨c, rest, rfl⟩ := List.exists_cons_of_ne_nil h.ne_nil
  have hends : EndsTight ((c :: rest ++ ':' :: List.replicate n ' ') ++ tail) :=
    ht.trimmed.2.append ht.ne_nil
  refine ⟨by simp, ⟨h.trimmed.1, by simpa using hends⟩, ?_, h.no_comment, ?_⟩
  · have hkey := h.no_newline
    have htail := ht.no_newline
    simp only [List.mem_append, List.mem_cons, List.mem_replicate, not_or] at hkey htail ⊢
    exact ⟨hkey, by decide, fun hspace => absurd hspace.2 (by decide), htail⟩
  · intro heq
    have hcolon : ':' ∈ marker :=
      heq ▸ List.mem_append_right _ List.mem_cons_self
    exact absurd hcolon (by decide)

/-- A dash alone may stand on a line. -/
theorem lineText_dash : LineText ['-'] :=
  lineText_of_no_blank (by decide) (by decide) (by decide) (by decide)

/-- A dash, spaces and a text may stand on a line. -/
theorem LineText.beside (n : Nat) (ht : LineText tail) :
    LineText ('-' :: (List.replicate (n + 1) ' ' ++ tail)) := by
  have hends : EndsTight (('-' :: List.replicate (n + 1) ' ') ++ tail) :=
    ht.trimmed.2.append ht.ne_nil
  refine ⟨by simp, ⟨?_, hends⟩, ?_, by simp, ?_⟩
  · rintro _ ⟨⟩
    decide
  · have htail := ht.no_newline
    simp only [List.mem_append, List.mem_cons, List.mem_replicate, not_or] at htail ⊢
    exact ⟨by decide, fun hspace => absurd hspace.2 (by decide), htail⟩
  · rw [List.replicate_succ]
    simp [marker]

end BlockQuery.Block

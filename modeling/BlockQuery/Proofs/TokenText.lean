/-
  A token is read from its own text.

  Every reader of tokens takes some characters and looks at most at one or two behind them, to see
  whether the token goes on.  A blank or a `#` goes on with no token (`Parting.of`), so the same
  characters are read as the same token whatever gap stands behind them (`ReadsOwnText`).

  The property is stated for readers of any kind, since a token is read by several of them in turn,
  and it goes through `map` and through equal readers.  For each kind of token the proof has two
  halves: the characters that were taken are named, and the reader is run again on them with a gap
  behind.  The second half is where a gap must not go on with the token, and `Parting` lists all the
  ways in which a character could.
-/
import BlockQuery.Proofs.Blank
import BlockQuery.Proofs.Reading
import BlockQuery.Query.Lexeme

namespace BlockQuery.Lexeme

open Text

/-! ## Where tokens end

  Two readings of one condition: a text starts like a gap, which is what the reader of gaps says,
  and it starts with a character that no token goes on with, which is what the readers of tokens
  need.  The first implies the second.  For the blanks, which are many, this is computed
  (`blankCodes`). -/

/-- Whether a text is empty or starts like a gap. -/
def StartsGap (cs : List Char) : Prop :=
  ∀ c ∈ cs.head?, isBlank c = true ∨ c = '#'

/-- The characters that, apart from those of names and numbers, may go on with a token. -/
def furtherSigns : List Char := ['.', '=', '/', '"', '\'']

/-- Whether a character goes on with no token: it stands in no name and no number, and it is neither
    the second character of a sign nor the quote of a quoted name. -/
structure Parting (c : Char) : Prop where
  name : continuesName c = false
  letter : startsName c = false
  digit : c.isDigit = false
  sign : c ∉ furtherSigns

/-- The code points of the blanks.  They are listed so that what is to be shown of each of them can
    be computed. -/
def blankCodes : List Nat :=
  [0x9, 0xa, 0xb, 0xc, 0xd, 0x20, 0x85, 0xa0, 0x1680, 0x2000, 0x2001, 0x2002, 0x2003, 0x2004,
    0x2005, 0x2006, 0x2007, 0x2008, 0x2009, 0x200a, 0x2028, 0x2029, 0x202f, 0x205f, 0x3000]

/-- A blank is one of finitely many characters. -/
theorem toNat_mem_blankCodes {c : Char} (h : isBlank c = true) : c.toNat ∈ blankCodes := by
  simp only [isBlank, Bool.or_eq_true, Bool.and_eq_true, decide_eq_true_eq, beq_iff_eq] at h
  simp only [blankCodes, List.mem_cons, List.not_mem_nil]
  omega

instance (c : Char) : Decidable (Parting c) :=
  decidable_of_iff
    (continuesName c = false ∧ startsName c = false ∧ c.isDigit = false ∧
      c ∉ furtherSigns)
    ⟨fun ⟨hn, hl, hd, hs⟩ => ⟨hn, hl, hd, hs⟩, fun h => ⟨h.name, h.letter, h.digit, h.sign⟩⟩

/-- No token goes on with a blank or a comment. -/
theorem Parting.of {c : Char} (h : isBlank c = true ∨ c = '#') : Parting c := by
  rcases h with hblank | rfl
  · have hall : ∀ n ∈ blankCodes, Parting (Char.ofNat n) := by decide +kernel
    rw [← Char.ofNat_toNat c]
    exact hall _ (toNat_mem_blankCodes hblank)
  · decide +kernel

/-- Whether no token in front of a text goes on with it. -/
def EndsToken (cs : List Char) : Prop :=
  ∀ c ∈ cs.head?, Parting c

/-- Where a gap starts, the token in front has ended. -/
theorem StartsGap.endsToken {cs : List Char} (h : StartsGap cs) : EndsToken cs :=
  fun c hc => Parting.of (h c hc)

/-- What starts a name may stand in it too. -/
theorem continuesName_of_startsName {c : Char} (h : startsName c = true) :
    continuesName c = true := by
  simp only [startsName, continuesName, isLetter, isAlphanumeric, Bool.or_eq_true] at h ⊢
  refine h.imp_left fun hletter => ?_
  split at hletter
  · rename_i hascii
    rw [if_pos hascii, Char.isAlphanum, hletter, Bool.true_or]
  · rename_i hascii
    rw [if_neg hascii, hletter, Bool.true_or]

/-! ## Readers

  A reader that fails on the whole text need not fail on a part of it, so the property is about what
  is read only. -/

/-- Whether a reader finds what it reads off the front of a text there again, whatever gap stands
    behind.  The text that it has taken is named, as the gap is put right behind it; how many
    characters the reader may look ahead is not said. -/
def ReadsOwnText {α : Type} {bound : List Char → Nat}
    (read : (cs : List Char) → Except Fault (Taken Char α (bound cs))) : Prop :=
  ∀ cs a rest, Reads (read cs) a rest →
    ∃ own, cs = own ++ rest ∧ ∀ gap, StartsGap gap → Reads (read (own ++ gap)) a gap

section

variable {α β : Type} {bound bound' : List Char → Nat}

/-- Another value may be made of what is read, as long as the same is left. -/
theorem ReadsOwnText.map {read : (cs : List Char) → Except Fault (Taken Char α (bound cs))}
    (h : ReadsOwnText read) (f : α → β)
    {g : (cs : List Char) → Taken Char α (bound cs) → Taken Char β (bound' cs)}
    (hg : ∀ cs t, (g cs t).value = f t.value ∧ (g cs t).rest = t.rest) :
    ReadsOwnText fun cs => (read cs).map (g cs) := by
  intro cs b rest hread
  obtain ⟨a, ha, rfl⟩ := (reads_map (hg cs)).1 hread
  obtain ⟨own, hcs, hown⟩ := h cs a rest ha
  exact ⟨own, hcs, fun gap hgap => (reads_map (hg _)).2 ⟨a, hown gap hgap, rfl⟩⟩

/-- A reader that does the same has the property too. -/
theorem ReadsOwnText.congr {read read' : (cs : List Char) → Except Fault (Taken Char α (bound cs))}
    (h : ReadsOwnText read) (heq : ∀ cs, read' cs = read cs) : ReadsOwnText read' :=
  (funext heq : read' = read) ▸ h

/-- A reader that takes nothing finds nothing again. -/
theorem readsOwnText_error (fault : List Char → Fault) :
    @ReadsOwnText α bound fun cs => .error (fault cs) :=
  fun _ _ _ h => absurd h not_reads_error

end

/-! ## Strings

  One law for each branch of the reader: the closing quote, a backslash with the character behind
  it, any other character, and the end of the text, where nothing is read. -/

section

variable {quote : Char} {cs rest : List Char} {content : List Char}

/-- The quote ends a string. -/
theorem reads_string_quote :
    Reads (readString quote (quote :: cs)) content rest ↔ [] = content ∧ cs = rest := by
  rw [readString.eq_def]
  simp only [if_pos]
  exact reads_ok

/-- A string that does not end is not read. -/
theorem not_reads_string_nil : ¬ Reads (readString quote []) content rest := by
  rw [readString.eq_def]
  exact not_reads_error

/-- A backslash in a string stands for a character together with the one behind it.  The two are
    taken at once, so a quote behind a backslash does not end the string. -/
theorem reads_string_escape (hquote : '\\' ≠ quote) :
    Reads (readString quote ('\\' :: cs)) content rest ↔
      ∃ e more d inner, cs = e :: more ∧ escaped? e = some d ∧
        Reads (readString quote more) inner rest ∧ d :: inner = content := by
  rw [readString.eq_def]
  simp only [if_neg hquote, if_pos]
  cases cs with
  | nil => exact iff_of_false not_reads_error (by simp)
  | cons e more =>
    cases hd : escaped? e with
    | none =>
      simp only [hd]
      refine iff_of_false not_reads_error ?_
      rintro ⟨e, more, d, inner, ⟨⟩, hd', -⟩
      rw [hd] at hd'
      cases hd'
    | some d =>
      simp only [hd]
      refine reads_map_widen.trans ?_
      constructor
      · rintro ⟨inner, hinner, rfl⟩
        exact ⟨e, more, d, inner, rfl, hd, hinner, rfl⟩
      · rintro ⟨e, more, d', inner, ⟨⟩, hd', hinner, rfl⟩
        rw [hd] at hd'
        obtain rfl := Option.some.inj hd'
        exact ⟨inner, hinner, rfl⟩

/-- Any other character stands for itself. -/
theorem reads_string_char {c : Char} (hquote : c ≠ quote) (hplain : c ≠ '\\') :
    Reads (readString quote (c :: cs)) content rest ↔
      ∃ inner, Reads (readString quote cs) inner rest ∧ c :: inner = content := by
  rw [readString.eq_def]
  simp only [if_neg hquote, if_neg hplain]
  exact reads_map_widen

end

/-- A string ends at its quote.  By the recursion of the reader; a string looks at nothing behind
    the quote, so anything may stand there, and not only a gap. -/
theorem readsOwnText_string (quote : Char) : ReadsOwnText (readString quote) := by
  intro cs
  -- whatever follows the closing quote is not looked at
  induction cs using readString.induct quote with
  | case1 => exact fun _ _ h => absurd h not_reads_string_nil
  | case2 cs =>
    intro content rest h
    obtain ⟨rfl, rfl⟩ := reads_string_quote.1 h
    exact ⟨[quote], rfl, fun gap _ => reads_string_quote.2 ⟨rfl, rfl⟩⟩
  | case3 hquote =>
    intro content rest h
    obtain ⟨e, more, d, inner, hcs, -⟩ := (reads_string_escape hquote).1 h
    cases hcs
  | case4 e cs he hquote =>
    intro content rest h
    obtain ⟨e, more, d, inner, ⟨⟩, hd, -⟩ := (reads_string_escape hquote).1 h
    rw [he] at hd
    cases hd
  | case5 e cs d he hquote ih =>
    intro content rest h
    obtain ⟨e, more, d, inner, ⟨⟩, hd, hinner, rfl⟩ := (reads_string_escape hquote).1 h
    obtain ⟨own, rfl, hown⟩ := ih inner rest hinner
    exact ⟨'\\' :: e :: own, rfl, fun gap hgap =>
      (reads_string_escape hquote).2 ⟨e, own ++ gap, d, inner, rfl, hd, hown gap hgap, rfl⟩⟩
  | case6 c cs hquote hplain ih =>
    intro content rest h
    obtain ⟨inner, hinner, rfl⟩ := (reads_string_char hquote hplain).1 h
    obtain ⟨own, rfl, hown⟩ := ih inner rest hinner
    exact ⟨c :: own, rfl, fun gap hgap =>
      (reads_string_char hquote hplain).2 ⟨inner, hown gap hgap, rfl⟩⟩

/-! ## Names and numbers

  A name is a run of characters.  A number is one run of digits or two with a point between them,
  and the point belongs to it only if a digit follows; that is the one place where a reader looks
  two characters ahead. -/

/-- A name ends where no character goes on with it. -/
theorem readsOwnText_name : ReadsOwnText fun cs => .ok (readName cs) := by
  intro cs name rest h
  obtain ⟨rfl, rfl⟩ := reads_ok.1 h
  refine ⟨cs.takeWhile continuesName, List.takeWhile_append_dropWhile.symm, fun gap hgap => ?_⟩
  have hrun : ∀ c ∈ cs.takeWhile continuesName, continuesName c = true := fun c hc =>
    List.mem_takeWhile_imp hc
  have hstop : ∀ c ∈ gap.head?, continuesName c = false := fun c hc => (hgap.endsToken c hc).name
  exact reads_ok.2 ⟨takeWhile_run_append hrun hstop, dropWhile_run_append hrun hstop⟩

/-- A name with one more character in front. -/
theorem readName_cons {c : Char} (h : continuesName c = true) (cs : List Char) :
    (readName (c :: cs)).value = c :: (readName cs).value ∧
      (readName (c :: cs)).rest = (readName cs).rest := by
  simp [readName, h]

/-- The text of a number behind its first digit. -/
def numberText (whole fraction : List Char) : List Char :=
  if fraction.isEmpty then whole else whole ++ '.' :: fraction

/-- The digits of a number are found in its text.  Behind its last digit stands a character that is
    neither a digit nor a point, so neither run goes on. -/
theorem digits_append {whole fraction gap : List Char} (hwhole : ∀ d ∈ whole, d.isDigit = true)
    (hfraction : ∀ d ∈ fraction, d.isDigit = true) (hgap : EndsToken gap) :
    (numberText whole fraction ++ gap).takeWhile Char.isDigit = whole ∧
      fractionDigits ((numberText whole fraction ++ gap).dropWhile Char.isDigit) = fraction := by
  have hstop : ∀ c ∈ gap.head?, c.isDigit = false := fun c hc => (hgap c hc).digit
  rw [numberText]
  split
  · rename_i hempty
    rw [takeWhile_run_append hwhole hstop, dropWhile_run_append hwhole hstop,
      List.isEmpty_iff.1 hempty]
    refine ⟨rfl, ?_⟩
    unfold fractionDigits
    split
    · exact absurd (hgap '.' rfl).sign (by decide)
    · rfl
  · have hpoint : ∀ c ∈ ('.' :: (fraction ++ gap)).head?, c.isDigit = false := by
      rintro _ ⟨⟩
      decide
    rw [List.append_assoc, List.cons_append, takeWhile_run_append hwhole hpoint,
      dropWhile_run_append hwhole hpoint]
    exact ⟨rfl, takeWhile_run_append hfraction hstop⟩

/-- What is read as a number, in terms of its two runs of digits.  Whether there is a point in the
    text is then told by whether the second run is empty. -/
theorem reads_number {c : Char} {cs rest : List Char} {t : Token} :
    Reads (readNumber c cs) t rest ↔
      ∃ n whole fraction, cs.takeWhile Char.isDigit = whole ∧
        fractionDigits (cs.dropWhile Char.isDigit) = fraction ∧
        Decimal.ofDigits? false (c :: whole) fraction = some n ∧ .number n = t ∧
        cs.drop (numberText whole fraction).length = rest := by
  generalize hwhole : cs.takeWhile Char.isDigit = whole
  generalize hfraction : fractionDigits (cs.dropWhile Char.isDigit) = fraction
  unfold readNumber
  simp only [hwhole, hfraction]
  split
  · rename_i n hn
    rw [reads_ok]
    constructor
    · rintro ⟨ht, hrest⟩
      exact ⟨n, whole, fraction, rfl, rfl, hn, ht, hrest⟩
    · rintro ⟨n', _, _, rfl, rfl, hn', ht, hrest⟩
      rw [hn] at hn'
      exact ⟨Option.some.inj hn' ▸ ht, hrest⟩
  · rename_i hn
    refine iff_of_false not_reads_error ?_
    rintro ⟨n, _, _, rfl, rfl, hn', -⟩
    rw [hn] at hn'
    cases hn'

/-- The digits behind a point are digits. -/
theorem forall_mem_fractionDigits {cs : List Char} :
    ∀ d ∈ fractionDigits cs, d.isDigit = true := by
  unfold fractionDigits
  split
  · exact fun d hd => List.mem_takeWhile_imp hd
  · simp

/-- The text of a number stands at the front. -/
theorem numberText_append_drop (cs : List Char) {whole fraction : List Char}
    (hwhole : cs.takeWhile Char.isDigit = whole)
    (hfraction : fractionDigits (cs.dropWhile Char.isDigit) = fraction) :
    numberText whole fraction ++ cs.drop (numberText whole fraction).length = cs := by
  have hprefix : numberText whole fraction <+: cs := by
    rw [numberText, ← List.takeWhile_append_dropWhile (p := Char.isDigit) (l := cs), hwhole]
    split
    · exact List.prefix_append _ _
    · rename_i hne
      rw [List.prefix_append_right_inj]
      unfold fractionDigits at hfraction
      split at hfraction
      · rename_i behind hpoint
        rw [hpoint, ← hfraction, List.cons_prefix_cons]
        exact ⟨rfl, List.takeWhile_prefix _⟩
      · exact absurd hfraction.symm (by simpa using hne)
  obtain ⟨behind, rfl⟩ := hprefix
  rw [List.drop_left]

/-- A number ends where no digit goes on with it, nor a point with a digit behind.  Its runs of
    digits are found again, and so the value is the same. -/
theorem readsOwnText_number (c : Char) : ReadsOwnText (readNumber c) := by
  intro cs t rest h
  obtain ⟨n, whole, fraction, hwhole, hfraction, hn, rfl, rfl⟩ := reads_number.1 h
  refine ⟨numberText whole fraction, (numberText_append_drop cs hwhole hfraction).symm,
    fun gap hgap => reads_number.2 ?_⟩
  have hall : ∀ d ∈ whole, d.isDigit = true := by
    rw [← hwhole]
    exact fun d hd => List.mem_takeWhile_imp hd
  have hdigits := digits_append hall (hfraction ▸ forall_mem_fractionDigits) hgap.endsToken
  exact ⟨n, whole, fraction, hdigits.1, hdigits.2, hn, rfl, List.drop_left⟩

/-! ## Signs

  Some signs are one character, and some may have a second one.  Behind a dot stands the most: a
  second dot, a name, or a name in quotes. -/

/-- A sign ends where the other character does not follow. -/
theorem readsOwnText_oneOrTwo {second : Char} (hsecond : second ∈ furtherSigns)
    (double single : Token) :
    ReadsOwnText fun cs => .ok (oneOrTwo second double single cs) := by
  have hshort : ∀ cs : List Char, cs.head? ≠ some second →
      (oneOrTwo second double single cs).value = single ∧
        (oneOrTwo second double single cs).rest = cs := by
    intro cs hcs
    rw [oneOrTwo]
    cases cs with
    | nil => exact ⟨rfl, rfl⟩
    | cons c cs =>
      rw [takeFirst?, if_neg fun hc => hcs (congrArg some hc)]
      exact ⟨rfl, rfl⟩
  have hlong : ∀ cs : List Char, (oneOrTwo second double single (second :: cs)).value = double ∧
      (oneOrTwo second double single (second :: cs)).rest = cs := by
    intro cs
    rw [oneOrTwo, takeFirst?, if_pos rfl]
    exact ⟨rfl, rfl⟩
  intro cs t rest h
  obtain ⟨rfl, rfl⟩ := reads_ok.1 h
  by_cases hcs : cs.head? = some second
  · obtain ⟨cs, rfl⟩ := List.head?_eq_some_iff.1 hcs
    rw [(hlong cs).1, (hlong cs).2]
    exact ⟨[second], rfl, fun gap _ => reads_ok.2 (hlong gap)⟩
  · rw [(hshort cs hcs).1, (hshort cs hcs).2]
    refine ⟨[], rfl, fun gap hgap => reads_ok.2 (hshort gap fun hhead => ?_)⟩
    exact (hgap.endsToken second hhead).sign hsecond

/-- A dot ends where neither another dot nor a name nor a quote follows. -/
theorem reads_dot {cs : List Char}
    (hcs : ∀ c ∈ cs.head?, startsName c = false ∧ c ∉ furtherSigns) :
    Reads (readDotted cs) .dot cs := by
  cases cs with
  | nil => exact reads_ok.2 ⟨rfl, rfl⟩
  | cons c cs =>
    obtain ⟨hname, hsign⟩ := hcs c rfl
    have hdot : c ≠ '.' := fun hc => hsign (by rw [hc]; decide)
    have hquote : ¬ (c = '"' ∨ c = '\'') := by
      rintro (rfl | rfl)
      · exact hsign (by decide)
      · exact hsign (by decide)
    rw [readDotted, if_neg hdot, if_neg (by simp [hname]), if_neg hquote]
    exact reads_ok.2 ⟨rfl, rfl⟩

/-- A dot with what belongs to it: a second dot, a name, or a name in quotes.  What stands behind
    the dot decides, so each case runs the reader again on the characters taken in that case. -/
theorem readsOwnText_dotted : ReadsOwnText readDotted := by
  have hgapDot : ∀ gap, StartsGap gap → Reads (readDotted ([] ++ gap)) .dot gap := fun gap hgap =>
    reads_dot fun c hc => ⟨(hgap.endsToken c hc).letter, (hgap.endsToken c hc).sign⟩
  intro cs t rest h
  cases cs with
  | nil =>
    obtain ⟨rfl, rfl⟩ := reads_ok.1 h
    exact ⟨[], rfl, hgapDot⟩
  | cons c cs =>
    rw [readDotted] at h
    split at h
    · -- two dots
      rename_i hc
      subst hc
      obtain ⟨rfl, rfl⟩ := reads_ok.1 h
      refine ⟨['.'], rfl, fun gap _ => ?_⟩
      rw [List.singleton_append, readDotted, if_pos rfl]
      exact reads_ok.2 ⟨rfl, rfl⟩
    rename_i hdots
    split at h
    · -- a plain name, which has at least the character that was looked at
      rename_i hname
      obtain ⟨rfl, rfl⟩ := reads_ok.1 h
      obtain ⟨own, hcs, hown⟩ := readsOwnText_name cs _ _ (reads_ok.2 ⟨rfl, rfl⟩)
      have hcontinues := readName_cons (continuesName_of_startsName hname)
      refine ⟨c :: own, ?_, fun gap hgap => ?_⟩
      · rw [Taken.map_rest, (hcontinues cs).2, List.cons_append, ← hcs]
      · obtain ⟨hvalue, hrest⟩ := reads_ok.1 (hown gap hgap)
        rw [List.cons_append, readDotted, if_neg hdots, if_pos hname]
        refine reads_ok.2 ⟨?_, (hcontinues _).2.trans hrest⟩
        rw [Taken.map_value, Taken.map_value, (hcontinues _).1, (hcontinues cs).1, hvalue]
    rename_i hname
    split at h
    · -- a name in quotes
      rename_i hquote
      obtain ⟨name, hread, rfl⟩ := reads_map_widen.1 h
      obtain ⟨own, rfl, hown⟩ := readsOwnText_string c cs name rest hread
      refine ⟨c :: own, rfl, fun gap hgap => ?_⟩
      rw [List.cons_append, readDotted, if_neg hdots, if_neg hname, if_pos hquote]
      exact reads_map_widen.2 ⟨name, hown gap hgap, rfl⟩
    · obtain ⟨rfl, rfl⟩ := reads_ok.1 h
      exact ⟨[], rfl, hgapDot⟩

/-- A sign that nothing goes on with. -/
theorem readsOwnText_sign (t : Token) :
    @ReadsOwnText Token (fun cs => cs.length + 1) fun cs => .ok ⟨t, cs, Nat.lt_succ_self _⟩ := by
  intro cs t rest h
  obtain ⟨rfl, rfl⟩ := reads_ok.1 h
  exact ⟨[], rfl, fun gap _ => reads_ok.2 ⟨rfl, rfl⟩⟩

/-- An exclamation mark is a sign only with an equals sign behind it. -/
theorem readsOwnText_bang : ReadsOwnText (readToken '!') := by
  intro cs t rest h
  cases cs with
  | nil => exact absurd h not_reads_error
  | cons c cs =>
    by_cases hc : c = '='
    · subst hc
      obtain ⟨rfl, rfl⟩ := reads_ok.1 h
      exact ⟨['='], rfl, fun gap _ => reads_ok.2 ⟨rfl, rfl⟩⟩
    · simp only [readToken, takeFirst?, if_neg hc] at h
      exact absurd h not_reads_error

/-- The signs that may have a second character all have one of those that no gap starts with, so in
    front of a gap they are read as short as they were. -/
theorem readsOwnText_longSign {c second : Char} {double single : Token}
    (h : longSign? c = some (second, double, single)) :
    ReadsOwnText fun cs => .ok (oneOrTwo second double single cs) := by
  refine readsOwnText_oneOrTwo ?_ double single
  unfold longSign? at h
  split at h
  all_goals cases h
  all_goals decide

/-- **A token is read from its own text**, whatever gap stands behind it. -/
theorem readsOwnText_token (c : Char) : ReadsOwnText (readToken c) := by
  by_cases hdot : c = '.'
  · exact readsOwnText_dotted.congr fun cs => by rw [readToken, if_pos hdot]
  by_cases hbang : c = '!'
  · subst hbang
    exact readsOwnText_bang
  by_cases hquote : c = '"' ∨ c = '\''
  · have hstring : ReadsOwnText fun cs => (readString c cs).map fun s =>
        (s.map fun content => Token.string (String.ofList content)).widen (Nat.le_succ cs.length) :=
      (readsOwnText_string c).map (fun content => Token.string (String.ofList content))
        fun cs t => ⟨rfl, rfl⟩
    exact hstring.congr fun cs => by rw [readToken, if_neg hdot, if_neg hbang, if_pos hquote]
  by_cases hname : startsName c
  · exact (readsOwnText_name.map (fun name => nameToken (c :: name)) fun cs t => ⟨rfl, rfl⟩).congr
      fun cs => by
        rw [readToken, if_neg hdot, if_neg hbang, if_neg hquote, if_pos hname]
        rfl
  by_cases hdigit : c.isDigit
  · exact (readsOwnText_number c).congr fun cs => by
      rw [readToken, if_neg hdot, if_neg hbang, if_neg hquote, if_neg hname, if_pos hdigit]
  have hsign : ∀ cs, readToken c cs = _ := fun cs => by
    rw [readToken, if_neg hdot, if_neg hbang, if_neg hquote, if_neg hname, if_neg hdigit]
  cases hshort : sign? c with
  | some t =>
    refine (readsOwnText_sign t).congr fun cs => ?_
    rw [hsign cs, hshort]
  | none =>
    cases hlong : longSign? c with
    | some signs =>
      refine (readsOwnText_longSign hlong).congr fun cs => ?_
      rw [hsign cs, hshort, hlong]
    | none =>
      refine (readsOwnText_error fun cs => (.unexpectedChar c, c :: cs)).congr fun cs => ?_
      rw [hsign cs, hshort, hlong]

end BlockQuery.Lexeme

/-
  Where a quoted key ends.

  Two scans go over a key in quotes.  `splitKey?` looks for the closing quote, and a backslash hides
  the one character behind it; `readQuoted` decodes the text between the quotes, and `\u` takes four
  characters with it, whatever they are.  In single quotes the two keep step.  In double quotes they
  do as long as the four characters are plain (`unicodeWhole`).  When a quote or a backslash is
  among them, the decoder can pass over the closing quote, or stop at one that closes nothing.

  Each scan has a description of its own, `KeyBody` and `Decodes`.  The decoder ends a text at the
  first quote that it comes to by whole escapes (`readDouble_of_decodes`), and is left without an
  end when it comes to none (`readDouble_eq_unterminated`).

  Both descriptions are inductive, with one rule for each step of the scan, and the main theorem is
  about a text that both describe.  Where all `\u` are whole, `KeyBody.exists_decodes` turns the
  first description into the second, by induction on the length, since the decoder takes up to six
  characters in a step where the search takes two.  The other two cases are those in which the
  descriptions part: the decoder comes to a quote that the search has passed over, or to none.
-/
import BlockQuery.Proofs.LineText
import BlockQuery.Proofs.ScalarCodec

namespace BlockQuery.Block

open Text (quote trimStart trim trimEnd)

variable {cs body content rest : List Char}

/-- A character that is matched neither alone nor in front of others is another one. -/
theorem ne_of_no_match {c d : Char} (halone : c = d → cs = [] → False)
    (hfront : ∀ e es, c = d → cs = e :: es → False) : c ≠ d := by
  intro h
  cases cs with
  | nil => exact halone h rfl
  | cons e es => exact hfront e es h rfl

/-! ## The search for the closing quote

  The search is by recursion on the text, and what it returns is a key and a rest.  These lemmas say
  which texts it has passed over; that it stops at the first quote it can stop at is not needed. -/

/-- The texts that the search for a closing double quote passes over.  It does not look at what
    stands behind a backslash, so an escape is no more than two characters to it. -/
inductive KeyBody : List Char → Prop where
  | nil : KeyBody []
  | plain {c : Char} {body : List Char} (hquote : c ≠ '"') (hslash : c ≠ '\\')
      (h : KeyBody body) : KeyBody (c :: body)
  | hidden {body : List Char} (c : Char) (h : KeyBody body) : KeyBody ('\\' :: c :: body)

/-- In double quotes the search passes over plain characters and over backslashes, each with the
    character that it hides. -/
theorem splitDouble?_eq_some {p : List Char × List Char} (h : splitDouble? cs = some p) :
    ∃ body, KeyBody body ∧ p.1 = body ++ ['"'] ∧ cs = p.1 ++ p.2 := by
  induction cs using splitDouble?.induct generalizing p with
  | case1 => cases h
  | case2 cs =>
    cases h
    exact ⟨[], .nil, rfl, rfl⟩
  | case3 => cases h
  | case4 c cs ih =>
    rw [splitDouble?_backslash] at h
    obtain ⟨q, hq, rfl⟩ := Option.map_eq_some_iff.1 h
    obtain ⟨body, hbody, hfront, hsplit⟩ := ih hq
    exact ⟨_, .hidden c hbody, by simp [hfront], by simp [hsplit]⟩
  | case5 c cs hquote hend hslash ih =>
    have hplain : c ≠ '\\' := ne_of_no_match hend hslash
    rw [splitDouble?_cons hquote hplain] at h
    obtain ⟨q, hq, rfl⟩ := Option.map_eq_some_iff.1 h
    obtain ⟨body, hbody, hfront, hsplit⟩ := ih hq
    exact ⟨_, .plain hquote hplain hbody, by simp [hfront], by simp [hsplit]⟩

/-- In single quotes the search passes over a text with its quotes doubled.  There are no escapes,
    and so what was written can be read off. -/
theorem splitSingle?_eq_some {p : List Char × List Char} (h : splitSingle? cs = some p) :
    ∃ content, p.1 = doubled content ++ ['\''] ∧ cs = p.1 ++ p.2 := by
  induction cs using splitSingle?.induct generalizing p with
  | case1 => cases h
  | case2 cs ih =>
    rw [splitSingle?] at h
    obtain ⟨q, hq, rfl⟩ := Option.map_eq_some_iff.1 h
    obtain ⟨content, hfront, hsplit⟩ := ih hq
    exact ⟨'\'' :: content, by simp [doubled, hfront], by simp [hsplit]⟩
  | case3 cs hnext =>
    rw [splitSingle?] at h
    · cases h
      exact ⟨[], rfl, rfl⟩
    · exact hnext
  | case4 c cs hpair hquote ih =>
    have hplain : c ≠ '\'' := hquote
    rw [splitSingle?] at h
    · obtain ⟨q, hq, rfl⟩ := Option.map_eq_some_iff.1 h
      obtain ⟨content, hfront, hsplit⟩ := ih hq
      exact ⟨c :: content, by simp [doubled, hplain, hfront], by simp [hsplit]⟩
    · exact hpair
    · exact hplain

/-! ## The decoder

  The decoder goes over whole escapes without looking ahead, so a description of what it has gone
  over can be put in front of any other text (`readDouble_append`). -/

/-- Texts between double quotes that are made of plain characters and whole escapes, each with what
    it stands for.  An escape with `u` is six characters, which may be any. -/
inductive Decodes : List Char → List Char → Prop where
  | nil : Decodes [] []
  | plain {c : Char} {body content : List Char} (hquote : c ≠ '"') (hslash : c ≠ '\\')
      (h : Decodes body content) : Decodes (c :: body) (c :: content)
  | escape {c : Char} {body content : List Char} (hc : c ≠ 'u') (h : Decodes body content) :
      Decodes ('\\' :: c :: body) (decodeEscape c ++ content)
  | unicode (a b c d : Char) {body content : List Char} (h : Decodes body content) :
      Decodes ('\\' :: 'u' :: a :: b :: c :: d :: body) (decodeUnicode [a, b, c, d] ++ content)

/-- What is decoded first stands first. -/
theorem Quoted.prepend_prepend (a b : List Char) (q : Quoted) :
    (q.prepend b).prepend a = q.prepend (a ++ b) := by
  cases q with
  | closed content => exact congrArg Quoted.closed (List.append_assoc a b content).symm
  | notQuoted => rfl
  | unterminated => rfl

/-- Whole escapes are decoded whatever follows them, by recursion on the description.  What follows
    is decoded as a text of its own. -/
theorem readDouble_append (h : Decodes body content) (tail : List Char) :
    readDouble (body ++ tail) = (readDouble tail).prepend content := by
  induction h with
  | nil =>
    rw [List.nil_append]
    cases readDouble tail <;> rfl
  | plain hquote hslash _ ih =>
    rw [List.cons_append, readDouble_cons hquote hslash, ih, Quoted.prepend_prepend]
    rfl
  | escape hc _ ih =>
    rw [List.cons_append, List.cons_append, readDouble_backslash hc, ih, Quoted.prepend_prepend]
  | unicode a b c d _ ih =>
    simp only [List.cons_append, readDouble]
    rw [ih, Quoted.prepend_prepend]

/-- The first quote behind whole escapes ends the text, which is quoted if nothing follows. -/
theorem readDouble_of_decodes (h : Decodes body content) (rest : List Char) :
    readDouble (body ++ '"' :: rest) = if rest = [] then .closed content else .notQuoted := by
  rw [readDouble_append h]
  cases rest with
  | nil =>
    show Quoted.closed (content ++ []) = _
    rw [List.append_nil, if_pos rfl]
  | cons c rest => rfl

/-- The decoder comes to a quote by whole escapes, or it comes to the end without one.  By the
    decoder's own recursion; where it takes a step, a quote that is reached behind the step is
    reached from its start. -/
theorem readDouble_eq_unterminated
    (h : ¬ ∃ front content rest, Decodes front content ∧ cs = front ++ '"' :: rest) :
    readDouble cs = .unterminated := by
  induction cs using readDouble.induct with
  | case1 => rfl
  | case2 => exact absurd ⟨[], [], [], .nil, rfl⟩ h
  | case3 c cs => exact absurd ⟨[], [], c :: cs, .nil, rfl⟩ h
  | case4 => rfl
  | case5 a b c d cs ih =>
    rw [readDouble, ih]
    · rfl
    · rintro ⟨front, content, rest, hfront, rfl⟩
      exact h ⟨_, _, rest, .unicode a b c d hfront, rfl⟩
  | case6 cs hshort =>
    rw [readDouble]
    · rfl
    · exact hshort
  | case7 c cs _ hc ih =>
    rw [readDouble_backslash hc, ih]
    · rfl
    · rintro ⟨front, content, rest, hfront, rfl⟩
      exact h ⟨_, _, rest, .escape hc hfront, rfl⟩
  | case8 c cs hend hquote hlast _ hslash ih =>
    have hnoQuote : c ≠ '"' := ne_of_no_match hend hquote
    have hnoSlash : c ≠ '\\' := ne_of_no_match hlast hslash
    rw [readDouble_cons hnoQuote hnoSlash, ih]
    · rfl
    · rintro ⟨front, content, rest, hfront, rfl⟩
      exact h ⟨_, _, rest, .plain hnoQuote hnoSlash hfront, rfl⟩

/-! ## Where the two scans keep step

  The condition counts the characters behind each `\u` up to the next quote or backslash.  It is a
  test on the text of the key, so it can be made before anything is read. -/

/-- Whether a character means nothing special between double quotes. -/
def isUnmarked (c : Char) : Bool :=
  c != '"' && c != '\\'

/-- Whether four plain characters stand behind every `\u` of a text between double quotes.  They
    need not be digits, as the decoder keeps what it cannot decode. -/
def unicodeWhole : List Char → Bool
  | '\\' :: c :: cs => (c != 'u' || 4 ≤ (cs.takeWhile isUnmarked).length) && unicodeWhole cs
  | _ :: cs => unicodeWhole cs
  | [] => true

/-- A plain character is neither a quote nor a backslash. -/
theorem ne_of_isUnmarked {c : Char} (h : isUnmarked c = true) : c ≠ '"' ∧ c ≠ '\\' := by
  simpa [isUnmarked] using h

/-- The test looks only at backslashes. -/
theorem unicodeWhole_cons {c : Char} (h : c ≠ '\\') (cs : List Char) :
    unicodeWhole (c :: cs) = unicodeWhole cs := by
  rw [unicodeWhole]
  intro d ds hc
  exact absurd hc h

/-- Behind a backslash it looks for a `u`, and then for four characters. -/
theorem unicodeWhole_backslash (c : Char) (cs : List Char) :
    unicodeWhole ('\\' :: c :: cs) =
      ((c != 'u' || 4 ≤ (cs.takeWhile isUnmarked).length) && unicodeWhole cs) := by
  rw [unicodeWhole]

/-- So plain characters in front do not matter, and the four behind an escape may be taken off. -/
theorem unicodeWhole_append {front : List Char} (h : ∀ c ∈ front, isUnmarked c = true)
    (cs : List Char) : unicodeWhole (front ++ cs) = unicodeWhole cs := by
  induction front with
  | nil => rfl
  | cons c front ih =>
    obtain ⟨hc, hfront⟩ := List.forall_mem_cons.1 h
    rw [List.cons_append, unicodeWhole_cons (ne_of_isUnmarked hc).2, ih hfront]

/-- A character that is no backslash hides nothing. -/
theorem KeyBody.of_cons {c : Char} (hc : c ≠ '\\') (h : KeyBody (c :: body)) : KeyBody body := by
  cases h with
  | plain _ _ h => exact h
  | hidden => exact absurd rfl hc

/-- Plain characters in front do not hide what follows.  A backslash among them would, which is what
    the condition on `\u` rules out. -/
theorem KeyBody.of_append {front : List Char} (h : ∀ c ∈ front, isUnmarked c = true)
    (hbody : KeyBody (front ++ cs)) : KeyBody cs := by
  induction front with
  | nil => exact hbody
  | cons c front ih =>
    obtain ⟨hc, hfront⟩ := List.forall_mem_cons.1 h
    exact ih hfront (hbody.of_cons (ne_of_isUnmarked hc).2)

/-- Four characters in front of the rest, if a run of plain ones is that long. -/
theorem exists_four_unmarked (h : 4 ≤ (cs.takeWhile isUnmarked).length) :
    ∃ a b c d tail, cs = a :: b :: c :: d :: tail ∧ ∀ e ∈ [a, b, c, d], isUnmarked e = true := by
  obtain ⟨run, hrun⟩ : ∃ run, cs.takeWhile isUnmarked = run := ⟨_, rfl⟩
  have hsplit : run ++ cs.dropWhile isUnmarked = cs := hrun ▸ List.takeWhile_append_dropWhile
  have hall : ∀ e ∈ run, isUnmarked e = true := fun e he =>
    List.mem_takeWhile_imp (hrun ▸ he)
  rw [hrun] at h
  match run, h with
  | a :: b :: c :: d :: run, _ =>
    refine ⟨a, b, c, d, run ++ cs.dropWhile isUnmarked, hsplit.symm, ?_⟩
    intro e he
    exact hall e (List.mem_append_left run he)

/-- A text that the search passes over is decoded as a whole if its `\u` are whole.  What stands
    behind the six characters of such an escape is again a text that the search passes over. -/
theorem KeyBody.exists_decodes (hbody : KeyBody body) (hwhole : unicodeWhole body = true) :
    ∃ content, Decodes body content := by
  -- the decoder takes up to six characters in a step, so the induction is on the length
  induction hn : body.length using Nat.strong_induction_on generalizing body with
  | _ n ih =>
    cases hbody with
    | nil => exact ⟨[], .nil⟩
    | @plain c body hquote hslash hbody =>
      rw [unicodeWhole_cons hslash] at hwhole
      have hlt : body.length < n := by simp only [List.length_cons] at hn; omega
      obtain ⟨content, hdecodes⟩ := ih _ hlt hbody hwhole rfl
      exact ⟨c :: content, .plain hquote hslash hdecodes⟩
    | @hidden body c hbody =>
      rw [unicodeWhole_backslash, Bool.and_eq_true] at hwhole
      simp only [List.length_cons] at hn
      by_cases hc : c = 'u'
      · subst hc
        obtain ⟨a, b, c, d, tail, rfl, hplain⟩ := exists_four_unmarked (by simpa using hwhole.1)
        have htail : KeyBody tail := hbody.of_append hplain
        have hwholeTail : unicodeWhole tail = true :=
          (unicodeWhole_append hplain tail).symm.trans hwhole.2
        have hlt : tail.length < n := by simp only [List.length_cons] at hn; omega
        obtain ⟨content, hdecodes⟩ := ih _ hlt htail hwholeTail rfl
        exact ⟨_, .unicode a b c d hdecodes⟩
      · have hlt : body.length < n := by omega
        obtain ⟨content, hdecodes⟩ := ih _ hlt hbody hwhole.2 rfl
        exact ⟨_, .escape hc hdecodes⟩

/-! ## The key of a line

  A line comes apart into its key, blanks, and a colon with the rest.  The key is taken with its
  quotes, and what is between them is one of the texts that the search passes over. -/

/-- A line is its key, blanks, and what is behind them. -/
theorem exists_of_splitKey? {p : List Char × List Char} (h : splitKey? cs = some p) :
    ∃ blanks, cs = p.1 ++ (blanks ++ p.2) ∧ ∀ c ∈ blanks, Text.isBlank c = true := by
  unfold splitKey? at h
  split at h
  · obtain ⟨q, hq, rfl⟩ := Option.map_eq_some_iff.1 h
    obtain ⟨body, -, -, hsplit⟩ := splitDouble?_eq_some hq
    exact ⟨[], congrArg ('"' :: ·) hsplit, nofun⟩
  · obtain ⟨q, hq, rfl⟩ := Option.map_eq_some_iff.1 h
    obtain ⟨content, -, hsplit⟩ := splitSingle?_eq_some hq
    exact ⟨[], congrArg ('\'' :: ·) hsplit, nofun⟩
  · split at h
    · cases h
      obtain ⟨blanks, hkey, hblanks⟩ := Text.exists_trimEnd_append (cs.takeWhile (· != ':'))
      refine ⟨blanks, ?_, hblanks⟩
      show cs = trimEnd (cs.takeWhile (· != ':')) ++ (blanks ++ cs.dropWhile (· != ':'))
      rw [← List.append_assoc, ← hkey, List.takeWhile_append_dropWhile]
    · cases h

/-- An entry is a line that is split at a colon, with what is behind the colon as its text. -/
theorem keyLine?_eq_some {k : KeyLine} (h : keyLine? cs = some k) : ∃ behind tail,
    splitKey? cs = some (k.key, behind) ∧ trimStart behind = ':' :: tail ∧
      inlineText? tail = some k.inline := by
  obtain ⟨p, hsplit, h⟩ := Option.bind_eq_some_iff.1 h
  split at h
  · rename_i tail hcolon
    obtain ⟨inline, hinline, rfl⟩ := Option.map_eq_some_iff.1 h
    exact ⟨p.2, tail, hsplit, hcolon, hinline⟩
  · cases h

/-- What stands between the quotes of a key.  Nothing more is known of a key in double quotes than
    that the search has passed over it. -/
theorem exists_of_quotedKey {k : KeyLine} (h : keyLine? cs = some k) :
    (k.key.head? = some '\'' → ∃ content, k.key = '\'' :: (doubled content ++ ['\''])) ∧
    (k.key.head? = some '"' → ∃ body, KeyBody body ∧ k.key = '"' :: (body ++ ['"'])) := by
  obtain ⟨behind, tail, hsplit, -, -⟩ := keyLine?_eq_some h
  obtain ⟨blanks, hcs, -⟩ := exists_of_splitKey? hsplit
  -- the line starts as its key does
  have hhead : ∀ {q}, k.key.head? = some q → ∃ inner, cs = q :: inner := by
    intro q hq
    obtain ⟨inner, hkey⟩ := List.head?_eq_some_iff.1 hq
    exact ⟨inner ++ (blanks ++ behind), by rw [hcs, hkey]; rfl⟩
  constructor
  · intro hq
    obtain ⟨inner, rfl⟩ := hhead hq
    have hinner : (splitSingle? inner).map _ = _ := hsplit
    obtain ⟨p, hp, heq⟩ := Option.map_eq_some_iff.1 hinner
    obtain ⟨content, hcontent, -⟩ := splitSingle?_eq_some hp
    refine ⟨content, ?_⟩
    rw [← hcontent]
    exact (congrArg Prod.fst heq).symm
  · intro hq
    obtain ⟨inner, rfl⟩ := hhead hq
    have hinner : (splitDouble? inner).map _ = _ := hsplit
    obtain ⟨p, hp, heq⟩ := Option.map_eq_some_iff.1 hinner
    obtain ⟨body, hbody, hfront, -⟩ := splitDouble?_eq_some hp
    refine ⟨body, hbody, ?_⟩
    rw [← hfront]
    exact (congrArg Prod.fst heq).symm

/-! ## Entries with a decoded key

  That a key is read as some text says little as long as it is not said what is read of the entry.
  So `KeyReadAs` compares the entry with the one that the writer makes of that text. -/

/-- A line with another key is read as the same entry if the two keys are read alike.  Number,
    column and the text behind the colon must agree, and the lines behind it are the same ones. -/
theorem readEntries_congr {l m : Line} {k k' : KeyLine} (hnumber : m.number = l.number)
    (hindent : m.indent = l.indent) (hl : keyLine? l.text = some k)
    (hm : keyLine? m.text = some k') (hinline : k'.inline = k.inline)
    (hkey : readKey? k'.key = readKey? k.key) (c : Nat) (rest : List Line) :
    readEntries c (m :: rest) = readEntries c (l :: rest) := by
  have hitemL : isItem l.text = false := (starts_of_keyLine? hl).2.2
  have hitemM : isItem m.text = false := (starts_of_keyLine? hm).2.2
  rw [readEntries_cons, readEntries_cons, hnumber, hindent, hitemL, hitemM, hl, hm]
  simp only [hinline, hkey]

/-- A key of a line that is read as `content`; the entry is the same as with this key in the quotes
    that the writer puts, whatever lines stand behind it. -/
structure KeyReadAs (cs : List Char) (k : KeyLine) (content : List Char) : Prop where
  key : readKey? k.key = some content
  entry : ∀ (l : Line) (rest : List Line) (c : Nat), l.text = cs →
    readEntries c (l :: rest) =
      readEntries c ({ l with text := quote content ++ cs.drop k.key.length } :: rest)

/-- A key that is decoded to its end is read as what it is decoded to: the writer's quotes around
    that text make a line with the same entry. -/
theorem keyReadAs_of_closed {k : KeyLine} (h : keyLine? cs = some k)
    (hclosed : readQuoted k.key = .closed content) : KeyReadAs cs k content := by
  have hkey : readKey? k.key = some content := by rw [readKey?, hclosed]
  refine ⟨hkey, ?_⟩
  rintro l rest c rfl
  obtain ⟨behind, tail, hsplit, hcolon, hinline⟩ := keyLine?_eq_some h
  obtain ⟨blanks, hcs, hblanks⟩ := exists_of_splitKey? hsplit
  have hdrop : l.text.drop k.key.length = blanks ++ behind :=
    (congrArg (List.drop k.key.length) hcs).trans List.drop_left
  have hquoted : keyLine? (quote content ++ (blanks ++ behind)) =
      some ⟨quote content, k.inline⟩ := by
    have hsplit : splitKey? (quote content ++ (blanks ++ behind)) =
        some (quote content, blanks ++ behind) := by
      show (splitDouble? ((Text.escape content ++ ['"']) ++ (blanks ++ behind))).map _ = _
      rw [List.append_assoc, List.singleton_append, splitDouble?_escape]
      rfl
    have hcolon : trimStart (blanks ++ behind) = ':' :: tail :=
      (List.dropWhile_append_of_pos hblanks).trans hcolon
    rw [keyLine?, hsplit, Option.bind_some, hcolon]
    show (inlineText? tail).map _ = _
    rw [hinline]
    rfl
  rw [hdrop]
  symm
  refine readEntries_congr ?_ ?_ h hquoted ?_ ?_ c rest
  · rfl
  · rfl
  · rfl
  · show readKey? (quote content) = _
    rw [hkey, readKey?, readQuoted_quote]

/-! ## The end of a key

  A key of a line starts with one of the two quotes or with none, and only the first two are keys in
  quotes.  The theorem goes through what can become of these. -/

/-- Nothing comes off at the ends of a key in quotes. -/
theorem trim_quoted (body : List Char) :
    trim ('"' :: (body ++ ['"'])) = '"' :: (body ++ ['"']) := by
  refine Text.trim_eq_self_iff.2 ⟨?_, ?_⟩
  · exact Text.startsTight_of_head? rfl (by decide)
  · exact Text.endsTight_concat ('"' :: body) (by decide)

/-- **Where a quoted key ends.**  A key in single quotes is decoded from quote to quote, whatever is
    in it.  A key in double quotes is if it is made of whole escapes, as it is when four plain
    characters stand behind every `\u` in it.  If the decoder comes to another quote first, the key
    is read with its quotes, as a plain one; if it comes to none, the entry is refused. -/
theorem readKey?_of_quotedKey {k : KeyLine} (h : keyLine? cs = some k) :
    (k.key.head? = some '\'' → ∃ content,
      k.key = '\'' :: (doubled content ++ ['\'']) ∧ KeyReadAs cs k content) ∧
    (k.key.head? = some '"' → ∃ body, KeyBody body ∧ k.key = '"' :: (body ++ ['"']) ∧
      (∀ content, Decodes body content → KeyReadAs cs k content) ∧
      (∀ front content rest, Decodes front content → body = front ++ '"' :: rest →
        readKey? k.key = some k.key) ∧
      ((¬ ∃ front content rest, Decodes front content ∧ body ++ ['"'] = front ++ '"' :: rest) →
        readKey? k.key = none) ∧
      (unicodeWhole body = true → ∃ content, Decodes body content)) := by
  obtain ⟨hsingle, hdouble⟩ := exists_of_quotedKey h
  constructor
  · intro hq
    obtain ⟨content, hkey⟩ := hsingle hq
    refine ⟨content, hkey, keyReadAs_of_closed h ?_⟩
    rw [hkey]
    exact readSingle_doubled content
  · intro hq
    obtain ⟨body, hbody, hkey⟩ := hdouble hq
    have hread : readQuoted k.key = readDouble (body ++ ['"']) := by rw [hkey, readQuoted]
    refine ⟨body, hbody, hkey, ?whole, ?early, ?missed, hbody.exists_decodes⟩
    case whole =>
      intro content hdecodes
      refine keyReadAs_of_closed h ?_
      rw [hread, readDouble_of_decodes hdecodes, if_pos rfl]
    case early =>
      rintro front content rest hfront rfl
      have hopen : readQuoted k.key = .notQuoted := by
        rw [hread, List.append_assoc, List.cons_append, readDouble_of_decodes hfront,
          if_neg (by simp)]
      rw [readKey?, hopen]
      show some (trim k.key) = _
      rw [hkey, trim_quoted]
    case missed =>
      intro hmissed
      rw [readKey?, hread, readDouble_eq_unterminated hmissed]

/-- A key with an escaped character and an escaped quote, and one with a quote in single quotes. -/
theorem readKey?_of_quotedKey_escapes :
    let double : KeyLine := ⟨"\"\\u0041\\\"\"".toList, some ['1']⟩
    let single : KeyLine := ⟨"'it''s'".toList, none⟩
    (keyLine? "\"\\u0041\\\"\" : 1".toList = some double ∧ double.key.head? = some '"' ∧
      unicodeWhole "\\u0041\\\"".toList = true ∧
      KeyReadAs "\"\\u0041\\\"\" : 1".toList double ['A', '"']) ∧
    (keyLine? "'it''s':".toList = some single ∧ single.key.head? = some '\'' ∧
      KeyReadAs "'it''s':".toList single "it's".toList) := by
  intro double single
  have hdouble : keyLine? "\"\\u0041\\\"\" : 1".toList = some double := by decide
  have hsingle : keyLine? "'it''s':".toList = some single := by decide
  refine ⟨⟨hdouble, rfl, by decide, ?_⟩, hsingle, rfl, ?_⟩
  · obtain ⟨body, -, hkey, hwhole, -⟩ := (readKey?_of_quotedKey hdouble).2 rfl
    obtain rfl : "\\u0041\\\"".toList = body :=
      List.append_cancel_right (List.cons.inj hkey).2
    exact hwhole _ (.unicode '0' '0' '4' '1' (.escape (c := '"') (by decide) .nil))
  · obtain ⟨content, hkey, hread⟩ := (readKey?_of_quotedKey hsingle).1 rfl
    obtain rfl : "it's".toList = content := by
      have hcontent : readKey? single.key = some "it's".toList := by decide
      exact Option.some.inj (hcontent.symm.trans hread.key)
    exact hread

/-- Two lines whose keys are closed and followed by a colon.  In one the escape takes the closing
    quote with it, and the document is refused; in the other it takes the backslash of a quote
    inside the key, and the key keeps its quotes. -/
theorem quotedKey_overrun :
    let missed := "\"\\u\"".toList
    let early := "\"\\uabc\\\"d\"".toList
    let one : Value := .number ⟨false, 1, 0, by decide, by decide⟩
    (keyLine? "\"\\u\": 1".toList = some ⟨missed, some ['1']⟩ ∧ readKey? missed = none ∧
      readChars "\"\\u\": 1".toList = .error (.unterminatedQuote 1)) ∧
    keyLine? "\"\\uabc\\\"d\": 1".toList = some ⟨early, some ['1']⟩ ∧ readKey? early = some early ∧
      readChars "\"\\uabc\\\"d\": 1".toList = .ok (.mapping [("\"\\uabc\\\"d\"", one)]) := by
  intro missed early one
  have hmissedLine : significantLines "\"\\u\": 1".toList = [⟨1, 0, "\"\\u\": 1".toList⟩] := by
    decide
  have hearlyLine : significantLines "\"\\uabc\\\"d\": 1".toList =
      [⟨1, 0, "\"\\uabc\\\"d\": 1".toList⟩] := by decide
  have hmissedEntry : keyLine? "\"\\u\": 1".toList = some ⟨missed, some ['1']⟩ := by decide
  have hearlyEntry : keyLine? "\"\\uabc\\\"d\": 1".toList = some ⟨early, some ['1']⟩ := by decide
  have hmissedKey : readKey? missed = none := by decide
  have hearlyKey : readKey? early = some early := by decide
  refine ⟨⟨hmissedEntry, hmissedKey, ?_⟩, hearlyEntry, hearlyKey, ?_⟩
  · rw [readChars, hmissedLine, readLines_entry rfl hmissedEntry rfl, hmissedKey]
  · rw [readChars, hearlyLine, readLines_entry rfl hearlyEntry rfl, hearlyKey]
    rfl

end BlockQuery.Block

/-
  The words of an expression.

  The text of an expression is made of the texts of tokens, with blanks around its operators.
  `words` are these tokens in their order, and reading the text gives them back
  (`puts_chars`), if its names are written without quotes and its texts without `\u`, which queries
  do not know, and no path starts with an index, which the text writes without its dot (`isPlain`).

  A text is taken apart from the left.  Some parts stand in front of any text (`Leads`), others only
  where no token goes on (`Puts`): a name in front of a blank or a bracket, but not of a letter.

  All statements are about a text with another one behind it, and `Scans` is closed under putting a
  token in front.  So `Leads` and `Puts` compose like functions: a part that leads may stand before
  anything, and a part that is put needs a parting character behind it, which an operator with its
  blanks and a closing bracket are.  The theorem is then an induction on the expression, with
  `Puts.between` and `Puts.enclosed` for most of its cases.
-/
import BlockQuery.Proofs.CompiledQuery
import BlockQuery.Proofs.Digits
import BlockQuery.Proofs.Escape
import BlockQuery.Proofs.QueryLayout
import BlockQuery.Query.Text

namespace BlockQuery

/-! ## Words

  The tokens of each part, in the order of the text.  A minus sign is a token, so a negative number
  has two.  Nothing here depends on characters. -/

/-- The tokens of a number; a sign is a token of its own. -/
def Decimal.words (n : Decimal) : List Token :=
  if n.negative then [.minus, .number n.neg] else [.number n]

/-- The tokens of an index.  They are those of an integer in brackets, where a number without its
    sign is expected. -/
def indexWords (i : Int) : List Token :=
  if i < 0 then [.minus, .number (.ofNat i.natAbs)] else [.number (.ofNat i.natAbs)]

/-- A number in the range of an index is not cut off. -/
theorem Decimal.wholePart_ofNat {k : Nat} (h : k ≤ Grammar.maxIndex) :
    (Decimal.ofNat k).wholePart = k := by
  have hlimit : k < Decimal.limit := Nat.lt_of_le_of_lt h (by decide)
  have hmin : min k (Decimal.limit - 1) = k := by omega
  show min k (Decimal.limit - 1) / tenTo 0 = k
  rw [hmin, tenTo_zero, Nat.div_one]

/-- The tokens of a bound of a slice. -/
def boundWords : Option Int → List Token
  | none => []
  | some i => indexWords i

/-- The tokens of a scalar. -/
def Value.words : Value → List Token
  | null => [.null]
  | boolean b => [.boolean b]
  | number n => n.words
  | string s => [.string s]
  | _ => []

/-- The tokens of a step on a path. -/
def Step.words : Step → List Token
  | .field name => [.field name]
  | .index i => .leftBracket :: (indexWords i ++ [.rightBracket])

/-- The tokens of a path. -/
def Path.words (path : Path) : List Token :=
  match path with
  | [] => [.dot]
  | path => path.flatMap Step.words

/-- The token of an operator. -/
def ArithOp.sign : ArithOp → Token
  | add => .plus
  | subtract => .minus
  | multiply => .star
  | divide => .slash

/-- The token of a comparison. -/
def CompareOp.sign : CompareOp → Token
  | equal => .equal
  | notEqual => .notEqual
  | less => .less
  | greater => .greater
  | lessEqual => .lessEqual
  | greaterEqual => .greaterEqual

namespace Expr

mutual
/-- The tokens of the text of an expression. -/
def words : Expr → List Token
  | identity => [.dot]
  | recursiveDescent => [.dotDot]
  | literal v => v.words
  | field name => [.field name]
  | index i => .dot :: .leftBracket :: (indexWords i ++ [.rightBracket])
  | slice start stop =>
      .dot :: .leftBracket :: (boundWords start ++ .colon :: (boundWords stop ++ [.rightBracket]))
  | iterate => [.dot, .leftBracket, .rightBracket]
  | emptyCollection => [.leftBracket, .rightBracket]
  | collect inner => .leftBracket :: (words inner ++ [.rightBracket])
  | pipe left right => words left ++ .pipe :: words right
  | descendPipe inner => .dotDot :: .pipe :: words inner
  | comma left right => words left ++ .comma :: words right
  | alternative left right => words left ++ .alternative :: words right
  | concat parts => List.intercalate [.plus] (wordsAll parts)
  | arithmetic op left right => words left ++ op.sign :: words right
  | compare op left right => words left ++ op.sign :: words right
  | call function args =>
      .identifier function.name ::
        (if args.isEmpty then [] else .leftParen :: ((wordsAll args).flatten ++ [.rightParen]))
  | assign path value => path.words ++ .assign :: words value
  | update path change => path.words ++ .updateAssign :: words change
termination_by structural e => e

/-- The tokens of the texts of some expressions. -/
def wordsAll : List Expr → List (List Token)
  | [] => []
  | e :: es => words e :: wordsAll es
termination_by structural es => es
end

/-- The words of some expressions are those of each. -/
theorem wordsAll_eq_map (es : List Expr) : wordsAll es = es.map words := by
  induction es with
  | nil => rfl
  | cons e es ih => rw [wordsAll, ih, List.map_cons]

/-- So are their texts. -/
theorem charsAll_eq_map (es : List Expr) : charsAll es = es.map chars := by
  induction es with
  | nil => rfl
  | cons e es ih => rw [charsAll, ih, List.map_cons]

end Expr

/-! ## Plain names and texts

  The condition is on each node by itself, and it is used throughout an expression.  It is
  decidable, so that it can be checked of a given expression. -/

namespace Text

/-- Whether a text is a name as it is, without quotes. -/
def isName (s : String) : Bool :=
  match s.toList with
  | [] => false
  | c :: cs => startsName c && cs.all continuesName

/-- Whether every character of a text stands for itself or has a letter behind a backslash.  These
    are the escapes that a query knows. -/
def isSpelled (s : String) : Bool :=
  s.toList.all fun c => !isControl c || c == '\n' || c == '\r' || c == '\t'

end Text

/-- Whether a path starts with a name and has only plain names. -/
def Path.isPlain (path : Path) : Bool :=
  (match path with
    | .index _ :: _ => false
    | _ => true) &&
  path.all fun
    | .field name => Text.isName name
    | .index _ => true

/-- Whether the names and texts of an expression can be written as they are, its operands apart. -/
def Expr.isPlain : Expr → Bool
  | field name => Text.isName name
  | literal (.string s) => Text.isSpelled s
  | assign path _ => path.isPlain
  | update path _ => path.isPlain
  | _ => true

namespace Lexeme

open Text

/-! ## Scanning

  A scan of a text makes its tokens and their places; only the tokens are of interest here, and that
  there is no fault.  Whether the text is scanned from its start or from the middle of a longer one
  only shows in the places (`total`). -/

/-- Whether a text is read to its end as some tokens.  It is said for every total length, so that it
    can be said of the end of a text. -/
def Scans (cs : List Char) (ws : List Token) : Prop :=
  ∀ total, (scanFrom total cs).fault = none ∧ (scanFrom total cs).list.map (·.token) = ws

/-- Whether a text in front of any other text adds its tokens to those of the other, as a bracket
    does, or an operator with its blanks. -/
def Leads (cs : List Char) (ws : List Token) : Prop :=
  ∀ rest more, Scans rest more → Scans (cs ++ rest) (ws ++ more)

/-- Whether a text adds its tokens where no token goes on.  A name does, but not in front of a
    letter. -/
def Puts (cs : List Char) (ws : List Token) : Prop :=
  ∀ rest more, EndsToken rest → Scans rest more → Scans (cs ++ rest) (ws ++ more)

variable {cs ds rest : List Char} {ws vs : List Token} {c : Char} {t : Token}

/-- The empty text has no tokens. -/
theorem scans_nil : Scans [] [] := fun total => by
  rw [scanFrom_last total rfl]
  exact ⟨rfl, rfl⟩

/-- One round of reading tokens: a token is read behind a gap, and the rest is read to its end. -/
theorem Scans.token {own : List Char} (hskip : skipGap cs = c :: own)
    (h : Reads (readToken c own) t rest) (hrest : Scans rest ws) : Scans cs (t :: ws) := by
  intro total
  obtain ⟨hfault, hlist⟩ := hrest total
  rw [scanFrom_token total hskip h]
  exact ⟨hfault, by rw [List.map_cons, hlist]⟩

/-- A blank in front adds none. -/
theorem Scans.blank (h : Scans cs ws) : Scans (' ' :: cs) ws := by
  intro total
  have hskip : skipGap (' ' :: cs) = skipGap cs := by
    rw [skipGap, if_pos (by decide)]
  rw [scanFrom_eq, hskip, ← scanFrom_eq]
  exact h total

/-- Nothing in front adds none. -/
theorem leads_nil : Leads [] [] := fun _ _ h => h

/-- Two parts that may stand in front of anything. -/
theorem Leads.append (h : Leads cs ws) (h' : Leads ds vs) : Leads (cs ++ ds) (ws ++ vs) := by
  intro rest more hrest
  rw [List.append_assoc, List.append_assoc]
  exact h _ _ (h' _ _ hrest)

/-- What may stand in front of anything may stand where no token goes on. -/
theorem Leads.puts (h : Leads cs ws) : Puts cs ws :=
  fun rest more _ hrest => h rest more hrest

/-- The second part decides what may stand behind both. -/
theorem Leads.append_puts (h : Leads cs ws) (h' : Puts ds vs) : Puts (cs ++ ds) (ws ++ vs) := by
  intro rest more hends hrest
  rw [List.append_assoc, List.append_assoc]
  exact h _ _ (h' _ _ hends hrest)

/-- Between two parts no token goes on from one to the other, if the second one starts with a
    parting character.  What stands behind both may be anything again. -/
theorem Puts.append_leads (h : Puts cs ws) (h' : Leads (c :: ds) vs) (hc : Parting c) :
    Leads (cs ++ c :: ds) (ws ++ vs) := by
  intro rest more hrest
  rw [List.append_assoc, List.append_assoc]
  refine h _ _ ?_ (h' _ _ hrest)
  rintro _ ⟨⟩
  exact hc

/-- Nothing behind a text goes on with it. -/
theorem Puts.scans (h : Puts cs ws) : Scans cs ws := by
  simpa using h [] [] (by simp [EndsToken]) scans_nil

/-- A token that is read in front of any text. -/
theorem leads_token (own : List Char) (hskip : ∀ rest, skipGap (c :: rest) = c :: rest)
    (h : ∀ rest, Reads (readToken c (own ++ rest)) t rest) : Leads (c :: own) [t] :=
  fun _ _ hrest => .token (hskip _) (h _) hrest

/-- A token that is read where it does not go on. -/
theorem puts_token (own : List Char) (hskip : ∀ rest, skipGap (c :: rest) = c :: rest)
    (h : ∀ rest, EndsToken rest → Reads (readToken c (own ++ rest)) t rest) :
    Puts (c :: own) [t] :=
  fun _ _ hends hrest => .token (hskip _) (h _ hends) hrest

/-- An operator with blanks around it.  The blank behind it belongs to it, so the reader of the sign
    sees that no second character follows. -/
theorem leads_between (own : List Char) (hskip : ∀ rest, skipGap (c :: rest) = c :: rest)
    (h : ∀ rest, Reads (readToken c (own ++ ' ' :: rest)) t (' ' :: rest)) :
    Leads (' ' :: c :: (own ++ [' '])) [t] := by
  intro rest more hrest
  refine .blank (.token (hskip _) (?_ : Reads _ t (' ' :: rest)) hrest.blank)
  rw [List.append_eq, List.append_assoc]
  exact h rest

/-! ## Signs

  One fact for each sign, by computation: the reader looks at its first character, and at a second
  one where the sign may have it.  Operators are written with blanks, so what stands behind is
  known. -/

/-- A sign that no character goes on with. -/
theorem leads_sign (hc : c ∈ ['-', ':', '(', ')', '[', ']']) (ht : sign? c = some t) :
    Leads [c] [t] := by
  simp only [List.mem_cons, List.not_mem_nil, or_false] at hc
  rcases hc with rfl | rfl | rfl | rfl | rfl | rfl <;> cases ht <;>
    exact leads_token [] (fun _ => rfl) fun _ => ⟨_, rfl, rfl, rfl⟩

/-- A comma has a blank behind it only. -/
theorem leads_comma : Leads [',', ' '] [.comma] := fun _ _ hrest =>
  .token rfl ⟨_, rfl, rfl, rfl⟩ hrest.blank

/-- The four operators of arithmetic. -/
theorem leads_arith (op : ArithOp) : Leads (' ' :: (op.symbol.toList ++ [' '])) [op.sign] := by
  cases op <;> exact leads_between [] (fun _ => rfl) fun _ => ⟨_, rfl, rfl, rfl⟩

/-- The six operators of comparison. -/
theorem leads_compare (op : CompareOp) :
    Leads (' ' :: (op.symbol.toList ++ [' '])) [op.sign] := by
  cases op
  · exact leads_between ['='] (fun _ => rfl) fun _ => ⟨_, rfl, rfl, rfl⟩
  · exact leads_between ['='] (fun _ => rfl) fun _ => ⟨_, rfl, rfl, rfl⟩
  · exact leads_between [] (fun _ => rfl) fun _ => ⟨_, rfl, rfl, rfl⟩
  · exact leads_between [] (fun _ => rfl) fun _ => ⟨_, rfl, rfl, rfl⟩
  · exact leads_between ['='] (fun _ => rfl) fun _ => ⟨_, rfl, rfl, rfl⟩
  · exact leads_between ['='] (fun _ => rfl) fun _ => ⟨_, rfl, rfl, rfl⟩

/-- A bar, which would be another sign with an equals sign behind it. -/
theorem leads_pipe : Leads [' ', '|', ' '] [.pipe] :=
  leads_between [] (fun _ => rfl) fun _ => ⟨_, rfl, rfl, rfl⟩

/-- Two slashes. -/
theorem leads_alternative : Leads [' ', '/', '/', ' '] [.alternative] :=
  leads_between ['/'] (fun _ => rfl) fun _ => ⟨_, rfl, rfl, rfl⟩

/-- An equals sign, which would be another sign with a second one behind it. -/
theorem leads_assign : Leads [' ', '=', ' '] [.assign] :=
  leads_between [] (fun _ => rfl) fun _ => ⟨_, rfl, rfl, rfl⟩

/-- A bar with an equals sign. -/
theorem leads_updateAssign : Leads [' ', '|', '=', ' '] [.updateAssign] :=
  leads_between ['='] (fun _ => rfl) fun _ => ⟨_, rfl, rfl, rfl⟩

/-- Two dots. -/
theorem leads_dotDot : Leads ['.', '.'] [.dotDot] :=
  leads_token _ (fun _ => rfl) fun _ => ⟨_, rfl, rfl, rfl⟩

/-! ## Words and names

  A word and a name behind a dot are runs of characters.  They may stand in front of everything that
  does not go on with a run: in a text that is a blank, a bracket, a parenthesis, or a dot. -/

/-- A character that may go on with a token starts no gap. -/
theorem skipGap_of_not_parting (hc : ¬ Parting c) (rest : List Char) :
    skipGap (c :: rest) = c :: rest := by
  have hgap : ¬ (isBlank c = true ∨ c = '#') := fun h => hc (Parting.of h)
  rw [not_or] at hgap
  rw [skipGap, if_neg hgap.1, if_neg hgap.2]

/-- A run is read up to where it ends. -/
theorem readName_append {own : List Char} (hown : ∀ d ∈ own, continuesName d = true)
    (hrest : ∀ d ∈ rest.head?, continuesName d = false) :
    (readName (own ++ rest)).value = own ∧ (readName (own ++ rest)).rest = rest :=
  ⟨takeWhile_run_append hown hrest, dropWhile_run_append hown hrest⟩

/-- A word ends where no character of a name follows.  Which token it is depends on the word, and
    for this nothing else matters. -/
theorem reads_word {own : List Char} (hc : startsName c = true)
    (hown : ∀ d ∈ own, continuesName d = true)
    (hrest : ∀ d ∈ rest.head?, continuesName d = false) :
    Reads (readToken c (own ++ rest)) (nameToken (c :: own)) rest := by
  have hsign : ¬ (c = '.' ∨ c = '!' ∨ c = '"' ∨ c = '\'') := by
    rintro (rfl | rfl | rfl | rfl) <;> exact absurd hc (by decide)
  simp only [not_or] at hsign
  rw [readToken, if_neg hsign.1, if_neg hsign.2.1, if_neg (not_or.2 hsign.2.2), if_pos hc]
  obtain ⟨hvalue, hleft⟩ := readName_append hown hrest
  exact reads_ok.2 ⟨by rw [Taken.map_value, hvalue], hleft⟩

/-- A word is a token where no token goes on. -/
theorem puts_word {own : List Char} (hc : startsName c = true)
    (hown : own.all continuesName = true) : Puts (c :: own) [nameToken (c :: own)] :=
  puts_token _ (skipGap_of_not_parting fun hparting => by simp [hparting.letter] at hc)
    fun _ hends => reads_word hc (List.all_eq_true.1 hown) fun d hd => (hends d hd).name

/-- The two truth values. -/
theorem puts_boolean (b : Bool) : Puts (booleanWord b) [.boolean b] := by
  cases b <;> exact puts_word (by decide) (by decide)

/-- The word for null. -/
theorem puts_null : Puts nullWord [.null] :=
  puts_word (by decide) (by decide)

/-- The name of a function. -/
theorem puts_function (f : Builtin) : Puts f.name.toList [.identifier f.name] := by
  cases f <;> exact puts_word (by decide) (by decide)

/-- A name behind its dot may be followed by a further step, since a step starts with no character
    of a name. -/
theorem reads_field {name : String} (hname : isName name = true)
    (hrest : ∀ d ∈ rest.head?, continuesName d = false) :
    Reads (readToken '.' (name.toList ++ rest)) (.field name) rest := by
  obtain ⟨c, own, hcs⟩ : ∃ c own, name.toList = c :: own := by
    cases hcs : name.toList with
    | nil => simp [isName, hcs] at hname
    | cons c own => exact ⟨c, own, rfl⟩
  simp only [isName, hcs, Bool.and_eq_true, List.all_eq_true] at hname
  have hdot : c ≠ '.' := by
    rintro rfl
    exact absurd hname.1 (by decide)
  have hall : ∀ d ∈ c :: own, continuesName d = true :=
    List.forall_mem_cons.2 ⟨continuesName_of_startsName hname.1, hname.2⟩
  obtain ⟨hvalue, hleft⟩ := readName_append hall hrest
  show Reads (readDotted (name.toList ++ rest)) (.field name) rest
  rw [List.cons_append] at hvalue hleft
  rw [hcs, List.cons_append, readDotted, if_neg hdot, if_pos hname.1]
  refine reads_ok.2 ⟨?_, hleft⟩
  rw [Taken.map_value, hvalue, ← hcs, String.ofList_toList]

/-! ## Numbers

  The text of a number has digits in front of a point and behind it, and they are read as the number
  again.  An index is written without a point and is a number as well. -/

/-- A digit starts a number and nothing else. -/
theorem readToken_of_isDigit (hc : c.isDigit = true) (cs : List Char) :
    readToken c cs = readNumber c cs := by
  have hsign : ¬ (c = '.' ∨ c = '!' ∨ c = '"' ∨ c = '\'') := by
    rintro (rfl | rfl | rfl | rfl) <;> exact absurd hc (by decide)
  have hletter : startsName c = false := by
    have hcode := NumberLiteral.toNat_of_isDigit hc
    have hall : ∀ n ∈ List.range' 48 10, startsName (Char.ofNat n) = false := by decide +kernel
    rw [← Char.ofNat_toNat c]
    exact hall _ (List.mem_range'_1.2 ⟨hcode.1, Nat.lt_succ_of_le hcode.2⟩)
  simp only [not_or] at hsign
  rw [readToken, if_neg hsign.1, if_neg hsign.2.1, if_neg (not_or.2 hsign.2.2), hletter,
    if_neg (by decide), if_pos hc]

/-- A decimal without a sign is one token.  It starts with a digit, and its point, if it has one,
    stands in front of a digit. -/
theorem puts_unsigned {n : Decimal} (h : n.negative = false) : Puts n.chars [.number n] := by
  obtain ⟨c, own, hcs⟩ := List.exists_cons_of_ne_nil (natChars_ne_nil n.wholePart)
  have hdigits : ∀ d ∈ c :: own, d.isDigit = true := hcs ▸ fun d => isDigit_of_mem_natChars
  rw [List.forall_mem_cons] at hdigits
  have hchars : n.chars = c :: numberText own (Decimal.lowDigits n.scale n.mantissa) := by
    have hempty : (Decimal.lowDigits n.scale n.mantissa).isEmpty = decide (n.scale = 0) := by
      cases n.scale <;> simp [Decimal.lowDigits]
    rw [Decimal.chars_eq_append, h, hcs, numberText, hempty, Decimal.fractionChars]
    by_cases hscale : n.scale = 0 <;> simp [hscale]
  rw [hchars]
  have hskip : ¬ Parting c := fun hparting => by simp [hparting.digit] at hdigits
  refine puts_token _ (skipGap_of_not_parting hskip) fun rest hends => ?_
  have hfraction : ∀ d ∈ Decimal.lowDigits n.scale n.mantissa, d.isDigit = true :=
    fun d => Decimal.isDigit_of_mem_lowDigits
  have hparts := digits_append hdigits.2 hfraction hends
  have hread := Decimal.ofDigits?_wholePart_lowDigits n
  have hsame : n.unsignZero = n := by
    rw [Decimal.unsignZero, h, Bool.false_and, ← h]
  rw [h, hcs, hsame] at hread
  rw [readToken_of_isDigit hdigits.1]
  exact reads_number.2 ⟨n, own, _, hparts.1, hparts.2, hread, rfl, List.drop_left⟩

/-- A number is one token, or two with a sign. -/
theorem puts_number (n : Decimal) : Puts n.chars n.words := by
  cases h : n.negative with
  | false =>
    rw [Decimal.words, h]
    exact puts_unsigned h
  | true =>
    have hneg : n.neg.negative = false := by simp [Decimal.neg, h]
    have hchars : n.chars = ['-'] ++ n.neg.chars := by
      rw [Decimal.chars_eq_append, Decimal.chars_eq_append, h, hneg]
      rfl
    rw [Decimal.words, h, hchars]
    exact (leads_sign (by decide) rfl).append_puts (puts_unsigned hneg)

/-- An index is the number of its digits, if it is in range.  Written as a decimal it has no point,
    and the decimal has the digits of the index. -/
theorem puts_index {i : Int} (h : i.natAbs ≤ Grammar.maxIndex) :
    Puts (intChars i) (indexWords i) := by
  have hchars : (Decimal.ofNat i.natAbs).chars = natChars i.natAbs := by
    rw [Decimal.chars_eq_append, Decimal.wholePart_ofNat h]
    simp [Decimal.ofNat, Decimal.fractionChars]
  have hdigits : Puts (natChars i.natAbs) [.number (.ofNat i.natAbs)] :=
    hchars ▸ puts_unsigned rfl
  rw [intChars, indexWords]
  split
  · exact (leads_sign (c := '-') (by decide) rfl).append_puts hdigits
  · exact hdigits

/-- A bound is an index, or nothing. -/
theorem puts_bound {bound : Option Int} (h : ∀ i ∈ bound, i.natAbs ≤ Grammar.maxIndex) :
    Puts (Expr.boundChars bound) (boundWords bound) := by
  cases bound with
  | none => exact leads_nil.puts
  | some i => exact puts_index (h i rfl)

/-! ## Strings

  Strings are written with the escapes of blocks, and queries know only some of these.  A character
  that needs `\u` is not read back, which is what `isSpelled` excludes. -/

/-- A character that is written plainly or with a letter is read back.  A quote and a backslash are
    written with themselves behind a backslash, and so are read as themselves. -/
theorem reads_escapeChar {tail inner : List Char} (hc : isControl c = true → c ∈ ['\n', '\r', '\t'])
    (h : Reads (readString '"' tail) inner rest) :
    Reads (readString '"' (escapeChar c ++ tail)) (c :: inner) rest := by
  have hescape : ∀ e, escaped? e = some c → escapeChar c = ['\\', e] →
      Reads (readString '"' (escapeChar c ++ tail)) (c :: inner) rest := by
    intro e he hwritten
    rw [hwritten]
    exact (reads_string_escape (by decide)).2 ⟨e, tail, c, inner, rfl, he, h, rfl⟩
  by_cases hquote : c = '"'
  · subst hquote
    exact hescape '"' rfl rfl
  by_cases hslash : c = '\\'
  · subst hslash
    exact hescape '\\' rfl rfl
  cases hcontrol : isControl c with
  | true =>
    have hmem := hc hcontrol
    simp only [List.mem_cons, List.not_mem_nil, or_false] at hmem
    rcases hmem with rfl | rfl | rfl
    · exact hescape 'n' rfl rfl
    · exact hescape 'r' rfl rfl
    · exact hescape 't' rfl rfl
  | false =>
    have hplain : escapeChar c = [c] := by
      have hne : c ≠ '\n' ∧ c ≠ '\r' ∧ c ≠ '\t' := by
        refine ⟨?_, ?_, ?_⟩ <;> rintro rfl <;> exact absurd hcontrol (by decide)
      rw [escapeChar, if_neg hquote, if_neg hslash, if_neg hne.1, if_neg hne.2.1, if_neg hne.2.2,
        hcontrol, if_neg (by decide)]
    rw [hplain]
    exact (reads_string_char hquote hslash).2 ⟨inner, h, rfl⟩

/-- A quoted text is one token, whatever stands behind it: its closing quote says where it ends. -/
theorem leads_quote {s : String} (hs : isSpelled s = true) :
    Leads (quote s.toList) [.string s] := by
  have hread : ∀ cs : List Char,
      (∀ c ∈ cs, isControl c = true → c ∈ ['\n', '\r', '\t']) → ∀ rest,
        Reads (readString '"' (escape cs ++ '"' :: rest)) cs rest := by
    intro cs hcs rest
    induction cs with
    | nil => exact reads_string_quote.2 ⟨rfl, rfl⟩
    | cons c cs ih =>
      rw [List.forall_mem_cons] at hcs
      rw [escape, List.flatMap_cons, List.append_assoc]
      exact reads_escapeChar hcs.1 (ih hcs.2)
  refine leads_token _ (fun _ => rfl) fun rest => ?_
  have hcontent : ∀ c ∈ s.toList, isControl c = true → c ∈ ['\n', '\r', '\t'] := by
    intro c hc hcontrol
    have hcase := List.all_eq_true.1 hs c hc
    simpa [hcontrol, or_assoc] using hcase
  rw [List.append_assoc]
  show Reads ((readString '"' _).map _) _ _
  refine reads_map_widen.2 ⟨s.toList, hread s.toList hcontent rest, ?_⟩
  rw [String.ofList_toList]

/-! ## Paths

  A path is written as its steps, without blanks, and with a single dot if it has none.  A field
  ends where the next step starts, with a dot or a bracket. -/

/-- A dot by itself. -/
theorem puts_dot : Puts ['.'] [.dot] :=
  puts_token [] (fun _ => rfl) fun _ hends =>
    reads_dot fun d hd => ⟨(hends d hd).letter, (hends d hd).sign⟩

/-- An index in brackets. -/
theorem leads_index {i : Int} (h : i.natAbs ≤ Grammar.maxIndex) :
    Leads ('[' :: (intChars i ++ [']'])) (.leftBracket :: (indexWords i ++ [.rightBracket])) :=
  (leads_sign (c := '[') (by decide) rfl).append
    ((puts_index h).append_leads (leads_sign (by decide) rfl) (by decide +kernel))

/-- The first character of a step goes on with no name. -/
theorem continuesName_steps {path : Path} (hrest : ∀ d ∈ rest.head?, continuesName d = false) :
    ∀ d ∈ (path.flatMap Step.chars ++ rest).head?, continuesName d = false := by
  match path with
  | [] => exact hrest
  | .field name :: path =>
    rintro _ ⟨⟩
    decide
  | .index i :: path =>
    rintro _ ⟨⟩
    decide

/-- The steps of a path are read in front of a text with which no name goes on.  By induction on the
    path from its end, where each field needs to know how what follows it starts. -/
theorem scans_steps {path : Path} {more : List Token}
    (hnames : ∀ name, Step.field name ∈ path → isName name = true) (hrange : path.InRange)
    (hrest : ∀ d ∈ rest.head?, continuesName d = false) (h : Scans rest more) :
    Scans (path.flatMap Step.chars ++ rest) (path.flatMap Step.words ++ more) := by
  induction path with
  | nil => exact h
  | cons step path ih =>
    have hlater : Scans (path.flatMap Step.chars ++ rest) (path.flatMap Step.words ++ more) :=
      ih (fun name hname => hnames name (List.mem_cons_of_mem _ hname))
        fun i hi => hrange i (List.mem_cons_of_mem _ hi)
    rw [List.flatMap_cons, List.flatMap_cons, List.append_assoc, List.append_assoc]
    cases step with
    | field name =>
      exact .token (skipGap_of_not_parting (by decide) _)
        (reads_field (hnames name List.mem_cons_self) (continuesName_steps hrest)) hlater
    | index i => exact leads_index (hrange i List.mem_cons_self) _ _ hlater

/-- A path that starts with a name.  Its first name has the dot that the text starts with, and the
    empty path is the dot alone. -/
theorem puts_path {path : Path} (hplain : path.isPlain = true) (hrange : path.InRange) :
    Puts path.chars path.words := by
  cases path with
  | nil => exact puts_dot
  | cons step path =>
    unfold Path.isPlain at hplain
    rw [Bool.and_eq_true, List.all_eq_true] at hplain
    intro rest more hends hrest
    exact scans_steps (fun name hname => hplain.2 _ hname) hrange (fun d hd => (hends d hd).name)
      hrest

/-! ## Expressions

  The induction goes over the expression with its operands written where they stand.  What is needed
  of the expression, plain names and indices in range, is a hypothesis on all nodes. -/

/-- Two parts with an operator between them: the first may end with a name, as the operator starts
    with a blank, and the second decides what may follow. -/
theorem Puts.between {sign : List Char} (h : Puts cs ws) (hsign : Leads (c :: sign) [t])
    (hc : Parting c) (h' : Puts ds vs) : Puts (cs ++ (c :: sign) ++ ds) (ws ++ t :: vs) := by
  have hrow := (h.append_leads hsign hc).append_puts h'
  simpa using hrow

/-- A part in brackets. -/
theorem Puts.enclosed {opening closing : Token} {d : Char} (hopen : Leads [c] [opening])
    (h : Puts cs ws) (hclose : Leads [d] [closing]) (hd : Parting d) :
    Leads (c :: (cs ++ [d])) (opening :: (ws ++ [closing])) :=
  hopen.append (h.append_leads hclose hd)

/-- Texts that are concatenated have a plus sign between two. -/
theorem puts_concat {parts : List Expr} (h : ∀ c ∈ parts, Puts c.chars c.words) :
    Puts (List.intercalate [' ', '+', ' '] (parts.map Expr.chars))
      (List.intercalate [.plus] (parts.map Expr.words)) := by
  induction parts with
  | nil => exact leads_nil.puts
  | cons a parts ih =>
    rw [List.forall_mem_cons] at h
    cases parts with
    | nil => simpa [List.intercalate] using h.1
    | cons b parts =>
      have hmore := h.1.between (leads_arith .add) (by decide +kernel) (ih h.2)
      simpa [List.intercalate, ArithOp.sign, ArithOp.symbol] using hmore

/-- A function has its argument in parentheses, or none. -/
theorem puts_call {f : Builtin} {args : List Expr} (hfits : (Expr.call f args).CallFits)
    (h : ∀ c ∈ args, Puts c.chars c.words) :
    Puts (Expr.call f args).chars (Expr.call f args).words := by
  have harity : args.length ≤ 1 := by
    rw [hfits.1]
    cases f <;> decide
  match args with
  | [] => simpa [Expr.chars, Expr.words] using puts_function f
  | [a] =>
    have hargument := Puts.enclosed (leads_sign (c := '(') (by decide) rfl)
      (h a List.mem_cons_self) (leads_sign (c := ')') (by decide) rfl) (by decide +kernel)
    have hcall := ((puts_function f).append_leads hargument (by decide +kernel)).puts
    simpa [Expr.chars, Expr.words, Expr.charsAll, Expr.wordsAll, List.intercalate] using hcall
  | _ :: _ :: _ => simp at harity

/-- **The text of an expression is made of its words**, if its names and texts are plain.  By
    induction on the expression; each kind of expression is a part between two others, a part in
    brackets, or a single token. -/
theorem puts_chars {e : Expr} (hplain : e.Throughout fun n => n.isPlain = true)
    (hformed : e.Throughout Expr.Formed) : Puts e.chars e.words := by
  have hblank : Parting ' ' := by decide +kernel
  induction e using Expr.induct with
  | step e ih =>
    have hself := hplain e .self
    have hform := hformed e .self
    have hoperand : ∀ c ∈ e.operands, Puts c.chars c.words := fun c hc =>
      ih c hc ((Expr.throughout_iff.1 hplain).2 c hc) ((Expr.throughout_iff.1 hformed).2 c hc)
    have hbracket : Leads ['.', '['] [.dot, .leftBracket] :=
      puts_dot.append_leads (leads_sign (c := '[') (by decide) rfl) (by decide +kernel)
    have hclose : Leads [']'] [.rightBracket] := leads_sign (by decide) rfl
    have hparting : Parting ']' := by decide +kernel
    cases e with
    | identity => exact puts_dot
    | recursiveDescent => exact leads_dotDot.puts
    | literal v =>
      cases v with
      | null => exact puts_null
      | boolean b => exact puts_boolean b
      | number n => exact puts_number n
      | string s => exact (leads_quote hself).puts
      | sequence items => exact hform.elim
      | mapping es => exact hform.elim
    | field name =>
      exact puts_token _ (fun _ => rfl) fun rest hends =>
        reads_field hself fun d hd => (hends d hd).name
    | index i => exact (hbracket.append ((puts_index hform).append_leads hclose hparting)).puts
    | slice start stop =>
      have hcolon := ((puts_bound hform.1).append_leads (leads_sign (c := ':') (by decide) rfl)
        (by decide +kernel)).append ((puts_bound hform.2).append_leads hclose hparting)
      have hslice := (hbracket.append hcolon).puts
      simpa [Expr.chars, Expr.words] using hslice
    | iterate => exact (hbracket.append hclose).puts
    | emptyCollection => exact ((leads_sign (c := '[') (by decide) rfl).append hclose).puts
    | collect inner =>
      exact (Puts.enclosed (leads_sign (by decide) rfl) (hoperand inner (by simp [Expr.operands]))
        hclose hparting).puts
    | pipe left right =>
      exact (hoperand left (by simp [Expr.operands])).between leads_pipe hblank
        (hoperand right (by simp [Expr.operands]))
    | descendPipe inner =>
      exact leads_dotDot.puts.between leads_pipe hblank (hoperand inner (by simp [Expr.operands]))
    | comma left right =>
      exact (hoperand left (by simp [Expr.operands])).between leads_comma (by decide +kernel)
        (hoperand right (by simp [Expr.operands]))
    | alternative left right =>
      exact (hoperand left (by simp [Expr.operands])).between leads_alternative hblank
        (hoperand right (by simp [Expr.operands]))
    | concat parts =>
      rw [Expr.chars, Expr.words, Expr.charsAll_eq_map, Expr.wordsAll_eq_map]
      exact puts_concat hoperand
    | arithmetic op left right =>
      have hrow := (hoperand left (by simp [Expr.operands])).between (leads_arith op) hblank
        (hoperand right (by simp [Expr.operands]))
      simpa [Expr.chars, Expr.words] using hrow
    | compare op left right =>
      have hrow := (hoperand left (by simp [Expr.operands])).between (leads_compare op) hblank
        (hoperand right (by simp [Expr.operands]))
      simpa [Expr.chars, Expr.words] using hrow
    | call f args => exact puts_call hform.callFits hoperand
    | assign path value =>
      exact (puts_path hself hform).between leads_assign hblank
        (hoperand value (by simp [Expr.operands]))
    | update path change =>
      exact (puts_path hself hform).between leads_updateAssign hblank
        (hoperand change (by simp [Expr.operands]))

end Lexeme

end BlockQuery

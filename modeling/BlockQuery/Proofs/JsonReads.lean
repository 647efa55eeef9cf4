/-
  JSON text of one number in brackets.

  A reader `Takes` a value off a text when it succeeds with that value and a certain rest.  How much
  shorter the rest is does not matter any more then, so that one may go from reader to reader by
  what they take.  A literal without an exponent is taken whole when nothing that belongs to a
  number follows; the number that it then is decides whether the reader of values goes on.

  A reader of this program returns the rest of the text together with a proof that it got shorter,
  and two texts that are equal do not have the same type of result.  So every law here takes an
  equation for the text that is read (`hcs`) and states the rest on its own; the proofs put the
  equation in and take the reader apart.

  The tests for other values are all of one kind: a mark that the first character is not.  They are
  met by one lemma about the first character of a literal (`head?_plain_ne`).
-/
import BlockQuery.Command
import BlockQuery.Proofs.PlainNumber

namespace BlockQuery

/-! ## What a reader takes

  `Takes r a rest` forgets the bound.  It goes through the steps of a reader (`Takes.bind`), through
  functions of the value and through a wider bound, which is all that the readers are made of. -/

section Takes

variable {σ α β : Type} {m n : Nat} {rest : List σ} {a : α}

/-- A reader succeeds with a value and a rest. -/
def Takes (r : Option (Taken σ α n)) (a : α) (rest : List σ) : Prop :=
  ∃ t, r = some t ∧ t.value = a ∧ t.rest = rest

variable {r : Option (Taken σ α m)}

/-- What is read next is read from the rest. -/
theorem Takes.bind (h : Takes r a rest) {f : Taken σ α m → Option (Taken σ β n)} {b : β}
    {rest' : List σ} (hf : ∀ t : Taken σ α m, t.value = a → t.rest = rest → Takes (f t) b rest') :
    Takes (r >>= f) b rest' := by
  obtain ⟨t, rfl, hvalue, hrest⟩ := h
  exact hf t hvalue hrest

/-- What is made of a value is made of it with the same rest. -/
theorem Takes.map (h : Takes r a rest) (f : α → β) : Takes (r.map (·.map f)) (f a) rest := by
  obtain ⟨t, rfl, rfl, rfl⟩ := h
  exact ⟨_, rfl, rfl, rfl⟩

/-- A wider bound changes neither the value nor the rest. -/
theorem Takes.widen (h : Takes r a rest) (hle : m ≤ n) : Takes (r.map (·.widen hle)) a rest := by
  obtain ⟨t, rfl, rfl, rfl⟩ := h
  exact ⟨_, rfl, rfl, rfl⟩

/-- A first character that is accepted is taken. -/
theorem takes_takeFirst? {f : σ → Option α} {cs : List σ} {c : σ} (hcs : cs = c :: rest)
    (hc : f c = some a) : Takes (takeFirst? f cs) a rest := by
  subst hcs
  rw [takeFirst?, hc]
  exact ⟨_, rfl, rfl, rfl⟩

/-- Nothing is taken of a text that does not start with what is accepted. -/
theorem takeFirst?_eq_none {f : σ → Option α} {cs : List σ} (h : ∀ c ∈ cs.head?, f c = none) :
    takeFirst? f cs = none := by
  cases cs with
  | nil => rfl
  | cons c cs => rw [takeFirst?, h c rfl]; rfl

end Takes

namespace PlainNumber

/-- A literal without an exponent among all literals. -/
def literal (l : PlainNumber) : NumberLiteral :=
  ⟨l.negative, l.whole, if l.fraction = [] then none else some l.fraction, none⟩

end PlainNumber

namespace Json

variable {cs rest : List Char}

/-! ## Literals

  The parts of a literal, in the order in which they are read: a sign, whole digits, a fraction and
  an exponent.  Each part ends where the next one starts, so the hypothesis on what follows is on
  the first character only (`EndsLiteral`). -/

/-- Whether a text goes on with nothing that belongs to a number. -/
def EndsLiteral (rest : List Char) : Prop :=
  ∀ c ∈ rest.head?, c.isDigit = false ∧ c ≠ '.' ∧ c ≠ 'e' ∧ c ≠ 'E'

/-- A run of digits is read up to where no digit follows. -/
theorem readDigits_run {run : List Char} (hrun : ∀ c ∈ run, c.isDigit = true)
    (hrest : ∀ c ∈ rest.head?, c.isDigit = false) (hcs : cs = run ++ rest) :
    (readDigits cs).value = run ∧ (readDigits cs).rest = rest := by
  subst hcs
  exact ⟨takeWhile_run_append hrun hrest, dropWhile_run_append hrun hrest⟩

/-- Without a minus sign nothing is read of it. -/
theorem readMinus_of_head (h : ∀ c ∈ cs.head?, c ≠ '-') :
    (readMinus cs).value = false ∧ (readMinus cs).rest = cs := by
  unfold readMinus
  split
  · exact absurd rfl (h '-' rfl)
  · exact ⟨rfl, rfl⟩

/-- Without a point there is no fraction. -/
theorem readFraction?_of_ends (hend : EndsLiteral rest) (hcs : cs = rest) :
    Takes (readFraction? cs) none rest := by
  subst hcs
  unfold readFraction?
  split
  · exact absurd rfl (hend '.' rfl).2.1
  · exact ⟨_, rfl, rfl, rfl⟩

/-- Behind a point stands a fraction of one digit or more. -/
theorem readFraction?_point {run : List Char} (hne : run ≠ [])
    (hrun : ∀ c ∈ run, c.isDigit = true) (hrest : ∀ c ∈ rest.head?, c.isDigit = false)
    (hcs : cs = '.' :: (run ++ rest)) : Takes (readFraction? cs) (some run) rest := by
  subst hcs
  obtain ⟨hvalue, hbehind⟩ := readDigits_run hrun hrest rfl
  have hsome : (readDigits (run ++ rest)).value.isEmpty = false := by
    rw [hvalue]
    simpa using hne
  have hdigits : readSomeDigits? (run ++ rest) = some (readDigits (run ++ rest)) := by
    rw [readSomeDigits?, hsome]
    rfl
  simp only [readFraction?, hdigits]
  exact ⟨_, rfl, congrArg some hvalue, hbehind⟩

variable (l : PlainNumber)

/-- The sign of a literal is read, and its digits are left. -/
theorem readMinus_plain (hcs : cs = l.chars ++ rest) :
    (readMinus cs).value = l.negative ∧ (readMinus cs).rest = l.unsignedChars ++ rest := by
  subst hcs
  have hminus : ∀ c ∈ (l.unsignedChars ++ rest).head?, c ≠ '-' := by
    obtain ⟨c, ds, hc, hunsigned⟩ := l.unsignedChars_cases
    rw [hunsigned]
    rintro _ ⟨⟩ rfl
    exact absurd hc (by decide)
  rw [PlainNumber.chars]
  cases l.negative with
  | true => exact ⟨rfl, rfl⟩
  | false => exact readMinus_of_head hminus

/-- The whole digits are read.  They do not start with a zero unless they are one. -/
theorem readWhole?_plain (hrest : ∀ c ∈ rest.head?, c.isDigit = false)
    (hcs : cs = l.whole ++ rest) : Takes (readWhole? cs) l.whole rest := by
  obtain ⟨hvalue, hrest⟩ := readDigits_run l.isDigit_whole hrest hcs
  rw [readWhole?, dif_pos (by rw [hvalue]; exact l.isWhole)]
  exact ⟨_, rfl, hvalue, hrest⟩

/-- The fraction is read, if the literal has one. -/
theorem readFraction?_plain (hend : EndsLiteral rest) (hcs : cs = l.fractionChars ++ rest) :
    Takes (readFraction? cs) l.literal.fraction rest := by
  rw [PlainNumber.fractionChars] at hcs
  rw [PlainNumber.literal]
  by_cases hnone : l.fraction = []
  · rw [if_pos hnone, List.nil_append] at hcs
    rw [if_pos hnone]
    exact readFraction?_of_ends hend hcs
  · rw [if_neg hnone] at hcs
    rw [if_neg hnone]
    exact readFraction?_point hnone l.isDigit_fraction (fun c hc => (hend c hc).1) hcs

/-- Without its letter there is no exponent. -/
theorem readExponent?_of_ends (hend : EndsLiteral rest) (hcs : cs = rest) :
    Takes (readExponent? cs) none rest := by
  subst hcs
  have hmark : takeFirst? (fun c => if c = 'e' ∨ c = 'E' then some () else none) cs = none := by
    refine takeFirst?_eq_none fun c hc => if_neg ?_
    rintro (rfl | rfl)
    · exact (hend 'e' hc).2.2.1 rfl
    · exact (hend 'E' hc).2.2.2 rfl
  unfold readExponent?
  simp only [hmark]
  exact ⟨_, rfl, rfl, rfl⟩

/-- A literal is read whole. -/
theorem readLiteral?_plain (hend : EndsLiteral rest) (hcs : cs = l.chars ++ rest) :
    Takes (readLiteral? cs) l.literal rest := by
  obtain ⟨hsign, hunsigned⟩ := readMinus_plain l hcs
  have hpoint : ∀ c ∈ (l.fractionChars ++ rest).head?, c.isDigit = false := by
    rw [PlainNumber.fractionChars]
    split
    · exact fun c hc => (hend c hc).1
    · rintro _ ⟨⟩
      decide
  rw [PlainNumber.unsignedChars, List.append_assoc] at hunsigned
  rw [readLiteral?]
  refine (readWhole?_plain l hpoint hunsigned).bind fun whole hwhole hbehind => ?_
  refine (readFraction?_plain l hend hbehind).bind fun fraction hfraction hbehind => ?_
  refine (readExponent?_of_ends hend hbehind).bind fun exponent hexponent hbehind => ?_
  refine ⟨_, rfl, ?_, hbehind⟩
  simp only [hsign, hwhole, hfraction, hexponent]
  rfl

/-- What a literal is read as is decided by its number. -/
theorem readNumber?_plain (hend : EndsLiteral rest) (hcs : cs = l.chars ++ rest) :
    (∀ n, l.literal.number? = some n → Takes (readNumber? cs) n rest) ∧
      (l.literal.number? = none → readNumber? cs = none) := by
  obtain ⟨t, ht, hvalue, hrest⟩ := readLiteral?_plain l hend hcs
  rw [readNumber?, ht]
  constructor
  · intro n hn
    rw [← hvalue] at hn
    refine ⟨t.map fun _ => n, ?_, rfl, hrest⟩
    simp [hn]
  · intro hn
    rw [← hvalue] at hn
    simp [hn]

/-! ## Values

  A literal is reached behind tests for everything else that a value can start with.  It starts with
  a digit or a minus sign, and with no blank, and that answers all of them. -/

/-- Nothing is skipped in front of a character that is no blank. -/
theorem skip_eq_self (h : ∀ c ∈ cs.head?, isBlank c = false) : skip cs = cs :=
  dropWhile_eq_self_iff_head?.2 h

/-- A mark is taken with the blanks in front of it. -/
theorem takes_readMark?_of_skip {mark : Char} (hskip : skip cs = mark :: rest) :
    Takes (readMark? mark cs) () rest :=
  (takes_takeFirst? hskip (if_pos rfl)).widen _

/-- A mark that stands first is taken. -/
theorem takes_readMark? {mark : Char} (hmark : isBlank mark = false) (hcs : cs = mark :: rest) :
    Takes (readMark? mark cs) () rest := by
  refine takes_readMark?_of_skip ?_
  rw [hcs]
  exact skip_eq_self fun c hc => by rwa [← Option.some.inj hc]

/-- No mark is taken where another character comes first behind blanks. -/
theorem readMark?_eq_none_of_skip {mark : Char} (h : (skip cs).head? ≠ some mark) :
    readMark? mark cs = none := by
  rw [readMark?, takeFirst?_eq_none]
  · rfl
  · rintro c hc
    refine if_neg ?_
    rintro rfl
    exact h hc

/-- Nor where no blanks stand in front. -/
theorem readMark?_eq_none {mark : Char} (hskip : skip cs = cs) (h : cs.head? ≠ some mark) :
    readMark? mark cs = none :=
  readMark?_eq_none_of_skip (hskip.symm ▸ h)

/-- A literal starts like no other value. -/
theorem head?_plain_ne {c : Char} (hdigit : c.isDigit = false) (hdash : c ≠ '-')
    (hcs : cs = l.chars ++ rest) : cs.head? ≠ some c := by
  obtain ⟨d, ds, -, hunsigned⟩ := l.unsignedChars_cases
  have hhead : cs.head? = l.chars.head? := by
    rw [hcs, PlainNumber.chars, hunsigned]
    cases l.negative <;> rfl
  rw [hhead]
  exact l.chars_head_ne hdigit hdash

/-- No blank stands in front of a literal. -/
theorem skip_plain (hcs : cs = l.chars ++ rest) : skip cs = cs := by
  refine skip_eq_self fun c hc => ?_
  by_contra hblank
  simp only [Bool.not_eq_false, isBlank, Bool.or_eq_true, beq_iff_eq] at hblank
  rcases hblank with ((rfl | rfl) | rfl) | rfl <;>
    exact head?_plain_ne l (by decide) (by decide) hcs hc

/-- A literal starts with no mark. -/
theorem readMark?_plain {mark : Char} (hdigit : mark.isDigit = false) (hdash : mark ≠ '-')
    (hcs : cs = l.chars ++ rest) : readMark? mark cs = none :=
  readMark?_eq_none (skip_plain l hcs) (head?_plain_ne l hdigit hdash hcs)

/-- Letters stand behind the digits. -/
theorem isDigit_of_isAlpha {c : Char} (h : c.isAlpha = true) : c.isDigit = false := by
  have hcode : 'A'.val ≤ c.val := by
    rcases Bool.or_eq_true_iff.1 h with hupper | hlower
    · exact (of_decide_eq_true hupper).1
    · exact UInt32.le_trans (by decide) (of_decide_eq_true (Bool.and_eq_true_iff.1 hlower).1)
  refine Bool.and_eq_false_iff.2 (Or.inr (decide_eq_false fun hnine => ?_))
  exact absurd (UInt32.le_trans hcode hnine) (by decide)

/-- A literal is no string and no word. -/
theorem readScalar?_plain (hcs : cs = l.chars ++ rest) :
    readScalar? cs = (readNumber? cs).map (·.map number) := by
  have hword : readWord? cs = none := by
    rw [readWord?, takeFirst?_eq_none]
    intro c hc
    refine if_neg fun halpha => head?_plain_ne l (isDigit_of_isAlpha halpha) ?_ hcs hc
    rintro rfl
    exact absurd halpha (by decide)
  rw [readScalar?, readMark?_plain l (by decide) (by decide) hcs, hword]

/-- A literal is no container. -/
theorem readValue?_plain (depth : Nat) (hcs : cs = l.chars ++ rest) :
    readValue? depth cs = (readScalar? (skip cs)).map (·.widen (length_skip_le cs)) := by
  rw [readValue?, readMark?_plain l (by decide) (by decide) hcs,
    readMark?_plain l (by decide) (by decide) hcs]

/-- The only element of a sequence. -/
theorem readItems?_plain (depth : Nat) (hcs : cs = l.chars ++ [']']) :
    (∀ n, l.literal.number? = some n → Takes (readItems? depth cs) [number n] []) ∧
      (l.literal.number? = none → readItems? depth cs = none) := by
  have hend : EndsLiteral [']'] := by
    rintro _ ⟨⟩
    decide
  have hskip : skip cs = l.chars ++ [']'] := (skip_plain l hcs).trans hcs
  obtain ⟨hnumber, hnone⟩ := readNumber?_plain l hend hskip
  have hvalue := readValue?_plain l depth hcs
  rw [readScalar?_plain l hskip] at hvalue
  rw [readItems?]
  constructor
  · intro n hn
    have hitem : Takes (readValue? depth cs) (number n) [']'] := by
      rw [hvalue]
      exact ((hnumber n hn).map number).widen _
    refine hitem.bind fun item hitem hrest => ?_
    have hcomma : readMark? ',' item.rest = none := by
      rw [hrest]
      decide
    obtain ⟨close, hclose, -, hempty⟩ := takes_readMark? (by decide) hrest
    rw [hcomma, hclose]
    exact ⟨_, rfl, congrArg (fun j => [j]) hitem, hempty⟩
  · intro hn
    rw [hvalue, hnone hn]
    rfl

/-- A text that is a value up to its end is the text of this value. -/
theorem ofChars?_of_takes {cs : List Char} {j : Json} (h : Takes (readValue? maxNesting cs) j []) :
    ofChars? cs = some j := by
  obtain ⟨t, ht, rfl, hrest⟩ := h
  rw [ofChars?, ht]
  simp only [hrest]
  rfl

/-- A text of one literal in brackets is a sequence of one number, if the literal has one. -/
theorem ofChars?_bracketed :
    ofChars? ('[' :: (l.chars ++ [']'])) = l.literal.number?.map fun n => array [number n] := by
  have hopen : Takes (readMark? '[' ('[' :: (l.chars ++ [']']))) () (l.chars ++ [']']) :=
    takes_readMark? (by decide) rfl
  obtain ⟨bracket, hbracket, -, hrest⟩ := hopen
  have hclose : readMark? ']' bracket.rest = none :=
    readMark?_plain l (by decide) (by decide) hrest
  obtain ⟨hitems, hnone⟩ := readItems?_plain l 126 hrest
  rw [ofChars?, maxNesting, readValue?, hbracket]
  simp only [hclose]
  cases hn : l.literal.number? with
  | none =>
    rw [hnone hn]
    rfl
  | some n =>
    obtain ⟨items, hread, hvalue, hempty⟩ := hitems n hn
    rw [hread]
    simp [hvalue, hempty, skip]

end Json

namespace Command

/-- A document of one literal in brackets is a sequence of the decimal of its number. -/
theorem readDocument_bracketed (l : PlainNumber) :
    readDocument (String.ofList ('[' :: (l.chars ++ [']']))) =
      match l.literal.number? with
      | none => .error .malformedJson
      | some n =>
          match n.decimal? with
          | none => .error (.numberRange n)
          | some d => .ok (.sequence [.number d]) := by
  have hjson : looksLikeJson ('[' :: (l.chars ++ [']'])) = true := by
    rw [looksLikeJson, Text.trimStart_eq_self_iff.2]
    · rfl
    · rintro _ ⟨⟩
      decide
  rw [readDocument, String.toList_ofList, if_pos hjson, readJson, Json.ofChars?_bracketed]
  cases l.literal.number? with
  | none => rfl
  | some n =>
    rw [Option.map_some]
    simp only [Json.toValue, Json.itemValues]
    cases n.decimal? <;> rfl

end Command

end BlockQuery

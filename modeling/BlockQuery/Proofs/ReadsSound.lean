/-
  What the functions of the grammar read is derived by the rules.

  A reader that has read a tree has taken a word that stands for it.  The induction is the recursion
  of the readers, on the lexemes that are left and the level.  The readers of lists, products and
  walks carry the tree of what came before along, so what they take is only the end of a word, and
  the derivation of the front is given (`moreCommas_sound`, `moreProduct_sound`, `steps_sound`).

  The steps of a path call no other level, and for them both directions are proved at once.

  The law of each reader (`reads_pipe` and the others) says what was read, alternative by
  alternative, and each alternative is a rule of the derivation.  What the rules ask for besides the
  shape of a word is what the readers have checked, so nothing is left over to prove but the
  arithmetic of the words.

  Nothing asks the reader to come to the end of the query.  What it leaves may be any lexemes, so
  the lemma for a level can be used in the middle of a longer word, and the end of the query is
  looked at once, when all is put together.
-/
import BlockQuery.Proofs.Derivation
import BlockQuery.Proofs.Reads

namespace BlockQuery.Grammar

open BlockQuery.Derivation

variable {ts rest : List Lexeme} {e : Expr}

/-! ## Operators

  The readers decide on the token, the rules have a relation.  Both name the same operator. -/

/-- A token is read as an operator if it is a sign of it, on each level that has operators.  There
    are finitely many kinds of token, and for each of them both sides can be computed. -/
theorem operator_iff_sign (t : Token) :
    (∀ op, compareOp? t = some op ↔ CompareSign t op) ∧
      (∀ op, sumOp? t = some op ↔ TermSign t op) ∧
      ∀ op, productOp? t = some op ↔ FactorSign t op := by
  -- for each token both sides have the same operator, or none
  cases t
  all_goals
    refine ⟨fun op => ?_, fun op => ?_, fun op => ?_⟩
    all_goals
      constructor
      · intro h
        cases h <;> constructor
      · intro h
        cases h <;> rfl

/-- The operators between sums. -/
theorem compareOp?_eq_some {t : Token} {op : CompareOp} :
    compareOp? t = some op ↔ CompareSign t op :=
  (operator_iff_sign t).1 op

/-- The operators between products. -/
theorem sumOp?_eq_some {t : Token} {op : ArithOp} : sumOp? t = some op ↔ TermSign t op :=
  (operator_iff_sign t).2.1 op

/-- The operators between operands. -/
theorem productOp?_eq_some {t : Token} {op : ArithOp} :
    productOp? t = some op ↔ FactorSign t op :=
  (operator_iff_sign t).2.2 op

/-! ## Trees

  Where the readers put a tree together by cases on what stands on its left, the rules have one rule
  for each case.  These lemmas pick the case. -/

/-- A pipe is a pipe, unless all nodes stand in front of the bar.  The rules have that case as a
    rule of its own. -/
theorem pipeOf_of_ne {l : Expr} (h : l ≠ .recursiveDescent) (r : Expr) :
    pipeOf l r = .pipe l r := by
  cases l <;> first | rfl | exact absurd rfl h

/-- A step is a pipe, unless it is the first one from the input. -/
theorem stepOf_of_ne {l : Expr} (h : l ≠ .identity) (step : Expr) :
    stepOf l step = .pipe l step := by
  cases l <;> first | rfl | exact absurd rfl h

/-- A minus sign is a subtraction from zero, unless it stands in front of a number, which it makes
    negative. -/
theorem negated_of_ne (h : ∀ n, e ≠ .literal (.number n)) :
    negated e = .arithmetic .subtract (.literal (.number .zero)) e := by
  cases e with
  | literal v =>
    cases v with
    | number n => exact absurd rfl (h n)
    | _ => rfl
  | _ => rfl

/-- The string literals, as a test and as a shape. -/
theorem isStringLiteral_iff : isStringLiteral e = true ↔ ∃ s, .literal (.string s) = e := by
  constructor
  · intro h
    cases e with
    | literal v =>
      cases v with
      | string s => exact ⟨s, rfl⟩
      | _ => cases h
    | _ => cases h
  · rintro ⟨s, rfl⟩
    rfl

/-- The rule for a concatenation of texts, as the reader tests it.  A group around a string does not
    hide it, since a group leaves nothing in the tree. -/
theorem concatenates_iff {first : Expr} {more : List (ArithOp × Expr)} :
    Concatenates first more ↔ (more.all (·.1 == .add) &&
      (first :: more.map (·.2)).any isStringLiteral && !more.isEmpty) = true := by
  simp only [Concatenates, Bool.and_eq_true, List.all_eq_true, List.any_eq_true, beq_iff_eq,
    isStringLiteral_iff, Bool.not_eq_true', List.isEmpty_eq_false_iff]
  constructor
  · rintro ⟨hne, hadd, s, hs⟩
    exact ⟨⟨hadd, _, hs, s, rfl⟩, hne⟩
  · rintro ⟨⟨hadd, _, hs, s, rfl⟩, hne⟩
    exact ⟨hne, hadd, s, hs⟩

/-- Terms that concatenate make one tree of all of them. -/
theorem sumOf_of_concatenates {first : Expr} {more : List (ArithOp × Expr)}
    (h : Concatenates first more) : sumOf first more = .concat (first :: more.map (·.2)) :=
  if_pos (concatenates_iff.1 h)

/-- All other terms are added and subtracted one after the other, from the left. -/
theorem sumOf_of_not_concatenates {first : Expr} {more : List (ArithOp × Expr)}
    (h : ¬ Concatenates first more) : sumOf first more = summed first more :=
  if_neg fun h' => h (concatenates_iff.2 h')

/-! ## Steps are read as they are derived

  Here one statement is proved for both directions, from the inside out: an integer, a bound, what
  stands in brackets, a step.  The backward direction has to show in each case that the alternatives
  tried before do not apply, and that follows from the first token (`Next.unique`). -/

/-- A token is an index if it is a number without a fraction that is in range. -/
theorem index?_eq_some {t : Token} {i : Int} :
    index? t = some i ↔ ∃ n, t = .number n ∧ n.isInteger = true ∧ n.wholePart ≤ maxIndex ∧
      (n.wholePart : Int) = i := by
  cases t with
  | number n =>
    simp only [index?, Bool.and_eq_true, decide_eq_true_eq, Option.ite_none_right_eq_some,
      Option.some.injEq, Token.number.injEq, exists_eq_left', and_assoc]
  | _ => simp [index?]

/-- An integer is read as it is derived: with a minus sign or without one, and in range either
    way. -/
theorem reads_integer_iff {i : Int} :
    Reads (integer none ts) i rest ↔ ∃ w, Spells w ts rest ∧ Integer w i := by
  rw [reads_integer]
  constructor
  · rintro (⟨-, t, ht, hi⟩ | ⟨mid, hminus, k, ⟨t, ht, hk⟩, rfl⟩)
    · obtain ⟨n, rfl, hwhole, hsmall, rfl⟩ := index?_eq_some.1 hi
      exact ⟨_, spells_singleton.2 ht, .plain hwhole hsmall⟩
    · obtain ⟨n, rfl, hwhole, hsmall, rfl⟩ := index?_eq_some.1 hk
      exact ⟨_, spells_cons.2 ⟨mid, hminus, spells_singleton.2 ht⟩,
        .negative hwhole hsmall⟩
  · rintro ⟨w, hw, h⟩
    cases h with
    | @plain n hwhole hsmall =>
      have ht := spells_singleton.1 hw
      refine Or.inl ⟨?_, _, ht, index?_eq_some.2 ⟨n, rfl, hwhole, hsmall, rfl⟩⟩
      intro mid' hminus
      exact absurd (ht.unique hminus).1 (by simp)
    | @negative n hwhole hsmall =>
      obtain ⟨mid, hminus, hw⟩ := spells_cons.1 hw
      have ht := spells_singleton.1 hw
      exact Or.inr ⟨mid, hminus, _, ⟨_, ht, index?_eq_some.2 ⟨n, rfl, hwhole, hsmall, rfl⟩⟩, rfl⟩

/-- A bound is read as it is derived, in front of the bracket that ends the slice.  The bracket is
    part of the statement, because a missing bound takes no token and is known only by what follows
    it. -/
theorem reads_bound_iff {b : Option Int} {mid : List Lexeme}
    (hclose : Next mid .rightBracket rest) :
    Reads (bound none ts) b mid ↔ ∃ w, Spells w ts mid ∧ Bound w b := by
  rw [reads_bound]
  constructor
  · rintro (⟨-, i, hi, rfl⟩ | ⟨-, -, rfl, rfl⟩)
    · obtain ⟨w, hw, h⟩ := reads_integer_iff.1 hi
      exact ⟨w, hw, .given h⟩
    · exact ⟨[], spells_nil.2 rfl, .missing⟩
  · rintro ⟨w, hw, h⟩
    cases h with
    | missing =>
      obtain rfl := spells_nil.1 hw
      exact Or.inr ⟨rest, hclose, rfl, rfl⟩
    | given h =>
      have hi := reads_integer_iff.2 ⟨w, hw, h⟩
      refine Or.inl ⟨?_, _, hi, rfl⟩
      -- an integer starts with no bracket
      intro mid' hbracket
      rcases reads_integer.1 hi with ⟨-, t, ht, hindex⟩ | ⟨mid'', hminus, -⟩
      · obtain ⟨n, rfl, -⟩ := index?_eq_some.1 hindex
        exact absurd (ht.unique hbracket).1 (by simp)
      · exact absurd (hminus.unique hbracket).1 (by simp)

/-- What stands behind the colon of a slice is read as it is derived. -/
theorem reads_sliceEnd_iff {start : Option Int} :
    Reads (sliceEnd none start ts) e rest ↔ ∃ w stop, Spells (w ++ [.rightBracket]) ts rest ∧
      Bound w stop ∧ .slice start stop = e := by
  rw [reads_sliceEnd]
  constructor
  · rintro ⟨stop, mid, hstop, hclose, he⟩
    obtain ⟨w, hw, h⟩ := (reads_bound_iff hclose).1 hstop
    exact ⟨w, stop, spells_concat.2 ⟨mid, hw, hclose⟩, h, he⟩
  · rintro ⟨w, stop, hw, h, he⟩
    obtain ⟨mid, hv, hclose⟩ := spells_concat.1 hw
    exact ⟨stop, mid, (reads_bound_iff hclose).2 ⟨w, hv, h⟩, hclose, he⟩

/-- What the token that an integer starts with is. -/
theorem Integer.starts {w : List Token} {i : Int} (h : Integer w i) {mid : List Lexeme}
    (hw : Spells w ts mid) : ∃ t mid', Next ts t mid' ∧ startsInteger t = true := by
  cases h with
  | plain _ _ =>
    obtain ⟨mid', ht, -⟩ := spells_cons.1 hw
    exact ⟨_, mid', ht, rfl⟩
  | negative _ _ =>
    obtain ⟨mid', ht, -⟩ := spells_cons.1 hw
    exact ⟨_, mid', ht, rfl⟩

/-- What stands in brackets is read as it is derived.  Backward, each form is told from the others
    by its first token, and a slice from an index by the colon behind the integer. -/
theorem reads_brackets_iff :
    Reads (brackets none ts) e rest ↔ ∃ w, Spells w ts rest ∧ Bracketed w e := by
  rw [reads_brackets]
  constructor
  · rintro (⟨h, rfl⟩ | ⟨mid, hcolon, h⟩ | ⟨name, mid, hname, hclose, rfl⟩ | ⟨-, -, -, -, h⟩)
    · exact ⟨_, spells_singleton.2 h, .iterate⟩
    · obtain ⟨w, stop, hw, hstop, rfl⟩ := reads_sliceEnd_iff.1 h
      exact ⟨_, spells_cons.2 ⟨mid, hcolon, hw⟩, .slice .missing hstop⟩
    · exact ⟨_, spells_cons.2 ⟨mid, hname, spells_singleton.2 hclose⟩,
        .field name⟩
    · obtain ⟨i, mid, hi, h⟩ := reads_indexOrSlice.1 h
      obtain ⟨v, hv, hint⟩ := reads_integer_iff.1 hi
      rcases h with ⟨-, hclose, rfl⟩ | ⟨mid', hcolon, h⟩
      · exact ⟨_, spells_concat.2 ⟨mid, hv, hclose⟩,
          .index hint⟩
      · obtain ⟨w, stop, hw, hstop, rfl⟩ := reads_sliceEnd_iff.1 h
        exact ⟨_, spells_append.2 ⟨mid, hv, spells_cons.2 ⟨mid', hcolon, hw⟩⟩,
          .slice (.given hint) hstop⟩
  · rintro ⟨w, hw, h⟩
    cases h with
    | iterate =>
      have hclose := spells_singleton.1 hw
      exact Or.inl ⟨hclose, rfl⟩
    | field name =>
      obtain ⟨mid, hname, hw⟩ := spells_cons.1 hw
      have hclose := spells_singleton.1 hw
      exact Or.inr (Or.inr (Or.inl ⟨name, mid, hname, hclose, rfl⟩))
    | index hint =>
      obtain ⟨mid, hv, hclose⟩ := spells_concat.1 hw
      obtain ⟨t, mid', ht, hstarts⟩ := Integer.starts hint hv
      refine Or.inr (Or.inr (Or.inr ⟨t, mid', ht, hstarts, ?_⟩))
      have hi := reads_integer_iff.2 ⟨_, hv, hint⟩
      refine reads_indexOrSlice.2 ⟨_, mid, hi, Or.inl ⟨?_, hclose, rfl⟩⟩
      intro mid'' hcolon
      exact absurd (hclose.unique hcolon).1 (by simp)
    | slice lower upper =>
      obtain ⟨mid, hv, hw⟩ := spells_append.1 hw
      obtain ⟨mid', hcolon, hw⟩ := spells_cons.1 hw
      have hend := fun start => reads_sliceEnd_iff.2 ⟨_, _, hw, upper, Eq.refl (Expr.slice start _)⟩
      cases lower with
      | missing =>
        obtain rfl := spells_nil.1 hv
        exact Or.inr (Or.inl ⟨mid', hcolon, hend none⟩)
      | given hint =>
        obtain ⟨t, mid'', ht, hstarts⟩ := Integer.starts hint hv
        refine Or.inr (Or.inr (Or.inr ⟨t, mid'', ht, hstarts, ?_⟩))
        exact reads_indexOrSlice.2 ⟨_, mid, reads_integer_iff.2 ⟨_, hv, hint⟩,
          Or.inr ⟨mid', hcolon, hend _⟩⟩

/-- A step is read as it is derived.  This closes the part of the grammar that calls no other level,
    and the walk below is the first reader that goes on. -/
theorem readsStep_iff_isStep : ReadsStep ts e rest ↔ ∃ w, Spells w ts rest ∧ IsStep w e := by
  rw [readsStep_iff]
  constructor
  · rintro (⟨name, hname, rfl⟩ | ⟨mid, hopen, h⟩ | ⟨mid, mid', hdot, hopen, h⟩)
    · exact ⟨_, spells_singleton.2 hname, .field name⟩
    · obtain ⟨w, hw, hb⟩ := reads_brackets_iff.1 h
      exact ⟨_, spells_cons.2 ⟨mid, hopen, hw⟩, .brackets hb⟩
    · obtain ⟨w, hw, hb⟩ := reads_brackets_iff.1 h
      exact ⟨_, spells_cons.2 ⟨mid, hdot, spells_cons.2 ⟨mid', hopen, hw⟩⟩, .dotted hb⟩
  · rintro ⟨w, hw, h⟩
    cases h with
    | field name =>
      have hname := spells_singleton.1 hw
      exact Or.inl ⟨name, hname, rfl⟩
    | brackets hb =>
      obtain ⟨mid, hopen, hw⟩ := spells_cons.1 hw
      exact Or.inr (Or.inl ⟨mid, hopen, reads_brackets_iff.2 ⟨_, hw, hb⟩⟩)
    | dotted hb =>
      obtain ⟨mid, hdot, hw⟩ := spells_cons.1 hw
      obtain ⟨mid', hopen, hw⟩ := spells_cons.1 hw
      exact Or.inr (Or.inr ⟨mid, mid', hdot, hopen, reads_brackets_iff.2 ⟨_, hw, hb⟩⟩)

/-! ## Sound: what is read is derived

  One lemma for each reader, by mutual recursion on the lexemes that are left.  A reader of a level
  that goes to the left has an accumulator, and its lemma is about the word that it adds: given any
  word for the accumulator, the two words together stand for the result.  The measure is sixteen for
  each lexeme and one for each level, so a call of a tighter level on the same lexemes gets smaller
  as well. -/

/-- What stands behind a walk is read as its continuation: any word for the walk so far, with the
    word taken behind it, stands for the whole walk.  The recursion is on the lexemes, as each step
    takes some. -/
theorem steps_sound {ts rest : List Lexeme} {l e : Expr} (h : Reads (steps none l ts) e rest) :
    ∃ w, Spells w ts rest ∧ ∀ v, Derives .walk v l → Derives .walk (v ++ w) e := by
  rcases reads_steps.1 h with ⟨-, rfl, rfl⟩ | ⟨step, mid, hstep, hmore⟩
  · refine ⟨[], spells_nil.2 rfl, fun v hv => ?_⟩
    rw [List.append_nil]
    exact hv
  · have := hstep.shorter
    obtain ⟨w, hw, hs⟩ := readsStep_iff_isStep.1 hstep
    obtain ⟨w', hw', more⟩ := steps_sound hmore
    refine ⟨w ++ w', spells_append.2 ⟨mid, hw, hw'⟩, fun v hv => ?_⟩
    -- the walk with this step is the front for the steps behind it
    rw [← List.append_assoc]
    refine more (v ++ w) ?_
    by_cases hl : l = .identity
    · subst hl
      exact .walkFromInput hv hs
    · rw [stepOf_of_ne hl]
      exact .walk hv hl hs
termination_by ts.length

/-- The atoms of one token. -/
theorem literal_derives {t : Token} (h : literal? t = some e) : Derives .atom [t] e := by
  cases t <;> first | (cases h; constructor) | cases h

/-- A call that is accepted is derived, without an argument or with one.  The number of arguments
    decides which of the two rules applies, and what `del` asks of its argument is asked by the rule
    too. -/
theorem call_derives {f : Builtin} {args : List Expr} (h : callOf f args = .ok e) :
    (args = [] → Derives .atom [.identifier f.name] e) ∧
    ∀ target w, args = [target] → Derives .pipe w target →
      Derives .atom (.identifier f.name :: .leftParen :: (w ++ [.rightParen])) e := by
  obtain ⟨hlen, hdel, rfl⟩ := callOf_eq_ok.1 h
  constructor
  · rintro rfl
    exact .call hlen.symm
  · rintro target w rfl hw
    exact .callOn hlen.symm hw fun hf => hdel hf target rfl

/-- A function that is found by a name has that name. -/
theorem name_of_ofName? {name : String} {f : Builtin} (h : Builtin.ofName? name = some f) :
    f.name = name := by
  have := List.find?_some h
  simpa using this

mutual
/-- A pipe that is read is derived; the tree on the left of the bar decides by which rule.  The word
    of the left side, the bar and the word of the right side make the word of the pipe. -/
theorem pipe_sound {ts rest : List Lexeme} {e : Expr} (h : Reads (pipe none ts) e rest) :
    ∃ w, Spells w ts rest ∧ Derives .pipe w e := by
  obtain ⟨l, mid, hl, h⟩ := reads_pipe.1 h
  obtain ⟨v, hv, dl⟩ := list_sound hl
  rcases h with ⟨-, rfl, rfl⟩ | ⟨mid', hbar, r, hr, rfl⟩
  · exact ⟨v, hv, .pipeEnd dl⟩
  · have := hl.shorter
    have := hbar.shorter
    obtain ⟨w, hw, dr⟩ := pipe_sound hr
    refine ⟨_, spells_append.2 ⟨mid, hv, spells_cons.2 ⟨mid', hbar, hw⟩⟩, ?_⟩
    by_cases hne : l = .recursiveDescent
    · subst hne
      exact .descendPipe dl dr
    · rw [pipeOf_of_ne hne]
      exact .pipe dl hne dr
termination_by 16 * ts.length + 8

/-- A list that is read is derived: its first member, and what the reader adds to it. -/
theorem list_sound {ts rest : List Lexeme} {e : Expr} (h : Reads (commas none ts) e rest) :
    ∃ w, Spells w ts rest ∧ Derives .list w e := by
  obtain ⟨l, mid, hl, h⟩ := reads_commas.1 h
  have := hl.shorter
  obtain ⟨v, hv, dl⟩ := assignment_sound hl
  obtain ⟨w, hw, more⟩ := moreCommas_sound h
  exact ⟨v ++ w, spells_append.2 ⟨mid, hv, hw⟩, more v (.listStart dl)⟩
termination_by 16 * ts.length + 7

/-- What is read behind a list adds a word to it.  The word of the list itself is any that stands
    for the tree in hand. -/
theorem moreCommas_sound {ts rest : List Lexeme} {l e : Expr}
    (h : Reads (moreCommas none l ts) e rest) :
    ∃ w, Spells w ts rest ∧ ∀ v, Derives .list v l → Derives .list (v ++ w) e := by
  rcases reads_moreCommas.1 h with ⟨-, rfl, rfl⟩ | ⟨mid, hcomma, r, mid', hr, hmore⟩
  · refine ⟨[], spells_nil.2 rfl, fun v hv => ?_⟩
    rw [List.append_nil]
    exact hv
  · have := hcomma.shorter
    have := hr.shorter
    obtain ⟨w, hw, dr⟩ := assignment_sound hr
    obtain ⟨w', hw', more⟩ := moreCommas_sound hmore
    refine ⟨.comma :: (w ++ w'), spells_cons.2 ⟨mid, hcomma, spells_append.2 ⟨mid', hw, hw'⟩⟩, ?_⟩
    intro v hv
    have d := more _ (.list hv dr)
    rwa [List.append_assoc, List.cons_append] at d
termination_by 16 * ts.length + 7

/-- An assignment that is read is derived; its target was found to walk a path. -/
theorem assignment_sound {ts rest : List Lexeme} {e : Expr}
    (h : Reads (assignment none ts) e rest) :
    ∃ w, Spells w ts rest ∧ Derives .assignment w e := by
  obtain ⟨l, mid, hl, h⟩ := reads_assignment.1 h
  obtain ⟨v, hv, dl⟩ := alternative_sound hl
  rcases h with ⟨-, rfl, rfl⟩ | ⟨t, op, mid', ht, hop, p, hp, r, hr, rfl⟩
  · exact ⟨v, hv, .noAssignment dl⟩
  · have := hl.shorter
    have := ht.shorter
    obtain ⟨w, hw, dr⟩ := alternative_sound hr
    refine ⟨_, spells_append.2 ⟨mid, hv, spells_cons.2 ⟨mid', ht, hw⟩⟩, ?_⟩
    cases t with
    | assign =>
      cases hop
      exact .assign dl hp dr
    | updateAssign =>
      cases hop
      exact .update dl hp dr
    | _ => cases hop
termination_by 16 * ts.length + 6

/-- An alternative that is read is derived.  It is grouped to the right, so both parts are known
    when the tree is made and no accumulator is needed. -/
theorem alternative_sound {ts rest : List Lexeme} {e : Expr}
    (h : Reads (alternative none ts) e rest) :
    ∃ w, Spells w ts rest ∧ Derives .alternative w e := by
  obtain ⟨l, mid, hl, h⟩ := reads_alternative.1 h
  obtain ⟨v, hv, dl⟩ := comparison_sound hl
  rcases h with ⟨-, rfl, rfl⟩ | ⟨mid', ht, r, hr, rfl⟩
  · exact ⟨v, hv, .alternativeEnd dl⟩
  · have := hl.shorter
    have := ht.shorter
    obtain ⟨w, hw, dr⟩ := alternative_sound hr
    exact ⟨_, spells_append.2 ⟨mid, hv, spells_cons.2 ⟨mid', ht, hw⟩⟩, .alternative dl dr⟩
termination_by 16 * ts.length + 5

/-- A comparison that is read is derived, with one operator or with none. -/
theorem comparison_sound {ts rest : List Lexeme} {e : Expr}
    (h : Reads (comparison none ts) e rest) :
    ∃ w, Spells w ts rest ∧ Derives .comparison w e := by
  obtain ⟨l, mid, hl, h⟩ := reads_comparison.1 h
  obtain ⟨v, hv, dl⟩ := sum_sound hl
  rcases h with ⟨-, rfl, rfl⟩ | ⟨t, op, mid', ht, hop, r, hr, rfl⟩
  · exact ⟨v, hv, .noComparison dl⟩
  · have := hl.shorter
    have := ht.shorter
    obtain ⟨w, hw, dr⟩ := sum_sound hr
    exact ⟨_, spells_append.2 ⟨mid, hv, spells_cons.2 ⟨mid', ht, hw⟩⟩,
      .compare dl (compareOp?_eq_some.1 hop) dr⟩
termination_by 16 * ts.length + 4

/-- A sum that is read is derived, as a concatenation or as a sum of numbers.  Its terms are
    collected first, and their row is a derivation of its own (`Terms`). -/
theorem sum_sound {ts rest : List Lexeme} {e : Expr} (h : Reads (sum none ts) e rest) :
    ∃ w, Spells w ts rest ∧ Derives .sum w e := by
  obtain ⟨first, mid, hfirst, more, hmore, rfl⟩ := reads_sum.1 h
  have := hfirst.shorter
  obtain ⟨v, hv, dfirst⟩ := product_sound hfirst
  obtain ⟨w, hw, dmore⟩ := moreSum_sound hmore
  have terms := dmore v first [] (.start dfirst)
  refine ⟨v ++ w, spells_append.2 ⟨mid, hv, hw⟩, ?_⟩
  -- which tree the terms make is decided once all of them are there
  by_cases htexts : Concatenates first more
  · rw [sumOf_of_concatenates htexts]
    exact .concat terms htexts
  · rw [sumOf_of_not_concatenates htexts]
    exact .sum terms htexts
termination_by 16 * ts.length + 3

/-- What is read behind a term adds terms to those in front.  Here the accumulator is the list of
    terms, since a sum has no tree until its last term is there. -/
theorem moreSum_sound {ts rest : List Lexeme} {more : List (ArithOp × Expr)}
    (h : Reads (moreSum none ts) more rest) :
    ∃ w, Spells w ts rest ∧
      ∀ v first before, Terms v first before → Terms (v ++ w) first (before ++ more) := by
  rcases reads_moreSum.1 h with ⟨-, rfl, rfl⟩ |
    ⟨t, op, mid, ht, hop, r, mid', hr, more', hmore, rfl⟩
  · refine ⟨[], spells_nil.2 rfl, fun v first before hv => ?_⟩
    rw [List.append_nil, List.append_nil]
    exact hv
  · have := ht.shorter
    have := hr.shorter
    obtain ⟨w, hw, dr⟩ := product_sound hr
    obtain ⟨w', hw', dmore⟩ := moreSum_sound hmore
    refine ⟨t :: (w ++ w'), spells_cons.2 ⟨mid, ht, spells_append.2 ⟨mid', hw, hw'⟩⟩, ?_⟩
    intro v first before hv
    have d := dmore _ first _ (.more hv (sumOp?_eq_some.1 hop) dr)
    rwa [List.append_assoc, List.cons_append, List.append_assoc, List.singleton_append] at d
termination_by 16 * ts.length + 3

/-- A product that is read is derived: its first operand, and what the reader adds to it. -/
theorem product_sound {ts rest : List Lexeme} {e : Expr} (h : Reads (product none ts) e rest) :
    ∃ w, Spells w ts rest ∧ Derives .product w e := by
  obtain ⟨l, mid, hl, h⟩ := reads_product.1 h
  have := hl.shorter
  obtain ⟨v, hv, dl⟩ := operand_sound hl
  obtain ⟨w, hw, more⟩ := moreProduct_sound h
  exact ⟨v ++ w, spells_append.2 ⟨mid, hv, hw⟩, more v (.productStart dl)⟩
termination_by 16 * ts.length + 2

/-- What is read behind a product adds a word to it, as for a list: the product so far is any tree
    with a word that stands for it. -/
theorem moreProduct_sound {ts rest : List Lexeme} {l e : Expr}
    (h : Reads (moreProduct none l ts) e rest) :
    ∃ w, Spells w ts rest ∧ ∀ v, Derives .product v l → Derives .product (v ++ w) e := by
  rcases reads_moreProduct.1 h with ⟨-, rfl, rfl⟩ | ⟨t, op, mid, ht, hop, r, mid', hr, hmore⟩
  · refine ⟨[], spells_nil.2 rfl, fun v hv => ?_⟩
    rw [List.append_nil]
    exact hv
  · have := ht.shorter
    have := hr.shorter
    obtain ⟨w, hw, dr⟩ := operand_sound hr
    obtain ⟨w', hw', more⟩ := moreProduct_sound hmore
    refine ⟨t :: (w ++ w'), spells_cons.2 ⟨mid, ht, spells_append.2 ⟨mid', hw, hw'⟩⟩, ?_⟩
    intro v hv
    have d := more _ (.product hv (productOp?_eq_some.1 hop) dr)
    rwa [List.append_assoc, List.cons_append] at d
termination_by 16 * ts.length + 2

/-- An operand that is read is derived.  Whether the minus sign is part of a number is decided by
    the tree behind it, and so is the rule. -/
theorem operand_sound {ts rest : List Lexeme} {e : Expr} (h : Reads (operand none ts) e rest) :
    ∃ w, Spells w ts rest ∧ Derives .operand w e := by
  rcases reads_operand.1 h with ⟨-, l, mid, hl, hsteps⟩ | ⟨mid, hminus, r, hr, rfl⟩
  · obtain ⟨v, hv, dl⟩ := atom_sound hl
    obtain ⟨w, hw, more⟩ := steps_sound hsteps
    exact ⟨v ++ w, spells_append.2 ⟨mid, hv, hw⟩, .positive (more v dl)⟩
  · have := hminus.shorter
    obtain ⟨w, hw, dr⟩ := operand_sound hr
    refine ⟨.minus :: w, spells_cons.2 ⟨mid, hminus, hw⟩, ?_⟩
    by_cases hnumber : ∃ n, r = .literal (.number n)
    · obtain ⟨n, rfl⟩ := hnumber
      exact .negativeNumber dr
    · have hother : ∀ n, r ≠ .literal (.number n) := fun n hn => hnumber ⟨n, hn⟩
      rw [negated_of_ne hother]
      exact .negative dr hother
termination_by 16 * ts.length + 1

/-- An atom is read as the start of a walk: a bracket behind a dot is read with the dot, and this is
    a step from the input, which no atom of the rules has. -/
theorem atom_sound {ts rest : List Lexeme} {e : Expr} (h : Reads (atom none ts) e rest) :
    ∃ w, Spells w ts rest ∧ Derives .walk w e := by
  rcases reads_atom.1 h with ⟨t, ht, hlit⟩ | ⟨mid, hdot, h⟩ |
    ⟨mid, hopen, inner, mid', hin, hclose, rfl⟩ | ⟨mid, hopen, h⟩ |
    ⟨name, mid, hname, f, hf, args, hargs, hcall⟩
  · exact ⟨_, spells_singleton.2 ht, .walkStart (literal_derives hlit)⟩
  · rcases h with ⟨-, rfl, rfl⟩ | ⟨mid', hopen, hb⟩
    · exact ⟨_, spells_singleton.2 hdot, .walkStart .identity⟩
    · -- the dot is the walk, and the brackets are its first step
      obtain ⟨w, hw, hb⟩ := reads_brackets_iff.1 hb
      exact ⟨[.dot] ++ .leftBracket :: w,
        spells_cons.2 ⟨mid, hdot, spells_cons.2 ⟨mid', hopen, hw⟩⟩,
        .walkFromInput (.walkStart .identity) (.brackets hb)⟩
  · have := hopen.shorter
    obtain ⟨w, hw, d⟩ := pipe_sound hin
    exact ⟨_, spells_cons.2 ⟨mid, hopen, spells_concat.2 ⟨mid', hw, hclose⟩⟩, .walkStart (.group d)⟩
  · rcases h with ⟨-, inner, mid', hin, hclose, rfl⟩ | ⟨mid', hclose, rfl, rfl⟩
    · have := hopen.shorter
      obtain ⟨w, hw, d⟩ := pipe_sound hin
      exact ⟨_, spells_cons.2 ⟨mid, hopen, spells_concat.2 ⟨mid', hw, hclose⟩⟩,
        .walkStart (.collect d)⟩
    · exact ⟨_, spells_cons.2 ⟨mid, hopen, spells_singleton.2 hclose⟩,
        .walkStart .emptyCollection⟩
  · obtain rfl := name_of_ofName? hf
    obtain ⟨plain, applied⟩ := call_derives hcall
    rcases reads_arguments.1 hargs with ⟨-, rfl, rfl⟩ |
      ⟨mid', hopen, inner, mid'', hin, hclose, rfl⟩
    · exact ⟨_, spells_singleton.2 hname, .walkStart (plain rfl)⟩
    · have := hname.shorter
      have := hopen.shorter
      obtain ⟨w, hw, d⟩ := pipe_sound hin
      exact ⟨_, spells_cons.2 ⟨mid, hname, spells_cons.2 ⟨mid', hopen, spells_append.2 ⟨mid'', hw,
        spells_singleton.2 hclose⟩⟩⟩, .walkStart (applied inner w rfl d)⟩
termination_by 16 * ts.length
end

end BlockQuery.Grammar

/-
  What parentheses are needed for.

  A word may have tokens that the text of its tree has not, and the other way round: a group has
  parentheses, a chain of steps leaves out the pipes of the text, and a minus sign in front of
  anything but a number leaves out the zero that it is taken from.  These are the only differences,
  and two counts show them (`Faithful`).  A word has at least as many opening parentheses as the
  text of its tree; if it has as many, it has at most as many pipes and numbers; and if it has as
  many of these too, then all operands stand in their places as they are.

  So if the text of an expression is read as the expression, grouped as it is read, then the
  expression needs no parentheses (`ungrouped_of_derives`).

  The counts are compared one after the other, as in an ordering by two keys: the pipes and numbers
  are only looked at when the parentheses agree, and what follows is only claimed when both agree.
  `Covers` is this comparison, and what makes it work is that it adds up: words in a row count like
  texts in a row (`Covers.append`).  The induction is on the derivation, with one lemma for each
  rule that says more than that its parts stand in a row.
-/
import BlockQuery.Proofs.Places

namespace BlockQuery

open BlockQuery.Derivation

/-! ## Counts

  A token counts for one of the two counts or for none.  Where an index has a sign in front, the
  sign does not count, so that the index counts once either way. -/

/-- The number of opening parentheses in a word. -/
def parens (w : List Token) : Nat :=
  w.count .leftParen

/-- Whether a token is a pipe or a number without a sign. -/
def Token.isMark : Token → Bool
  | pipe => true
  | number n => !n.negative
  | _ => false

/-- The number of pipes and numbers in a word.  These are the tokens that the text of a tree may
    have in addition to the word. -/
def marks (w : List Token) : Nat :=
  w.countP Token.isMark

section Counts

variable (v w : List Token) (t : Token)

/-- No token is no parenthesis. -/
@[simp] theorem parens_nil : parens [] = 0 := rfl

/-- And no mark. -/
@[simp] theorem marks_nil : marks [] = 0 := rfl

/-- Only an opening parenthesis counts as one. -/
@[simp] theorem parens_cons : parens (t :: w) = parens w + if t = .leftParen then 1 else 0 := by
  simp [parens, List.count_cons]

/-- Only a pipe and a number count as a mark. -/
@[simp] theorem marks_cons : marks (t :: w) = marks w + if t.isMark then 1 else 0 := by
  simp [marks, List.countP_cons]

/-- Parentheses add up. -/
@[simp] theorem parens_append : parens (v ++ w) = parens v + parens w :=
  List.count_append

/-- Marks add up. -/
@[simp] theorem marks_append : marks (v ++ w) = marks v + marks w :=
  List.countP_append

end Counts

/-- An index has no parentheses. -/
@[simp] theorem parens_indexWords (i : Int) : parens (indexWords i) = 0 := by
  rw [indexWords]
  split <;> rfl

/-- An index is one number. -/
@[simp] theorem marks_indexWords (i : Int) : marks (indexWords i) = 1 := by
  rw [indexWords]
  split <;> rfl

/-- A bound has no parentheses. -/
@[simp] theorem parens_boundWords (bound : Option Int) : parens (boundWords bound) = 0 := by
  cases bound <;> simp [boundWords]

/-- A path has no parentheses, whatever its steps. -/
@[simp] theorem parens_path (path : Path) : parens path.words = 0 := by
  have hsteps : ∀ steps : List Step, parens (steps.flatMap Step.words) = 0 := by
    intro steps
    induction steps with
    | nil => rfl
    | cons step steps ih => cases step <;> simp [Step.words, ih]
  cases path with
  | nil => rfl
  | cons step path => exact hsteps _

/-- The dot of an empty path is no mark. -/
theorem marks_path (path : Path) : marks path.words = marks (path.flatMap Step.words) := by
  cases path <;> rfl

/-- An integer is read from one number at most. -/
theorem marks_le_of_integer {w : List Token} {i : Int} (h : Integer w i) : marks w ≤ 1 := by
  cases h <;> simp [Token.isMark] <;> split <;> simp

/-- A bound has as many numbers in any of its words: none if it is missing, and else one. -/
theorem marks_le_of_bound {w : List Token} {bound : Option Int} (h : Bound w bound) :
    marks w ≤ marks (boundWords bound) := by
  cases h with
  | missing => simp
  | given h => simpa [boundWords] using marks_le_of_integer h

namespace Expr

/-! ## Words that count like their trees

  `Faithful level w e` is the claim of the induction: a word that stands for a tree counts like the
  text of the tree, and when it counts the same, the tree is ungrouped and fits the level.  The
  lemmas are for the shapes that rules have: no operand, one operand and two. -/

/-- Whether a word counts like a text, up to parentheses, chains of steps and minus signs, and `P`
    holds if it counts the same.  The second count is compared only where the first one agrees. -/
structure Covers (w text : List Token) (P : Prop) : Prop where
  parens_le : parens text ≤ parens w
  marks_le : parens w = parens text → marks w ≤ marks text
  exact : parens w = parens text → marks w = marks text → P

section Covers

variable {v w s t : List Token} {P Q : Prop}

/-- A word counts like itself. -/
theorem Covers.refl (w : List Token) : Covers w w True :=
  ⟨Nat.le_refl _, fun _ => Nat.le_refl _, fun _ _ => trivial⟩

/-- Less may be claimed of a word that counts the same. -/
theorem Covers.imp (h : Covers w s P) (hPQ : P → Q) : Covers w s Q :=
  ⟨h.parens_le, h.marks_le, fun hparens hmarks => hPQ (h.exact hparens hmarks)⟩

/-- Words in a row count like texts in a row.  If the two words together have as many parentheses as
    the two texts, each has as many as its own, since neither has fewer; so both hypotheses can be
    used. -/
theorem Covers.append (h : Covers v s P) (h' : Covers w t Q) :
    Covers (v ++ w) (s ++ t) (P ∧ Q) := by
  have hle := h.parens_le
  have hle' := h'.parens_le
  have hsplit : parens (v ++ w) = parens (s ++ t) →
      parens v = parens s ∧ parens w = parens t := by
    simp only [parens_append]
    omega
  have hmarks : parens (v ++ w) = parens (s ++ t) →
      marks v ≤ marks s ∧ marks w ≤ marks t := fun heq =>
    ⟨h.marks_le (hsplit heq).1, h'.marks_le (hsplit heq).2⟩
  refine ⟨?_, fun heq => ?_, fun heq hsame => ?_⟩
  · simp only [parens_append]
    omega
  · have hboth := hmarks heq
    simp only [marks_append]
    omega
  · have hboth := hmarks heq
    simp only [marks_append] at hsame
    exact ⟨h.exact (hsplit heq).1 (by omega), h'.exact (hsplit heq).2 (by omega)⟩

/-- A word counts like a text without parentheses when it has no more pipes and numbers. -/
theorem Covers.of_marks (hparens : parens s = 0) (hmarks : parens w = 0 → marks w ≤ marks s) :
    Covers w s True :=
  ⟨by omega, fun heq => hmarks (by omega), fun _ _ => trivial⟩

/-- A word with a group in it has parentheses that the text has not, so nothing is said of it beyond
    the first count. -/
theorem Covers.of_more_parens (h : Covers w s P) (hv : parens w < parens v) : Covers v s Q := by
  have hle := h.parens_le
  exact ⟨by omega, fun heq => absurd heq (by omega), fun heq => absurd heq (by omega)⟩

/-- A text with a pipe or number that the word has not.  The counts cannot agree then, so there is
    nothing to be shown for that case. -/
theorem Covers.of_more_marks (h : Covers w s P) (hparens : parens t = parens s)
    (hmarks : marks s < marks t) : Covers w t Q := by
  have hle : parens w = parens t → marks w ≤ marks s := fun heq => h.marks_le (heq.trans hparens)
  refine ⟨hparens ▸ h.parens_le, fun heq => ?_, fun heq hsame => ?_⟩
  · exact Nat.le_trans (hle heq) (Nat.le_of_lt hmarks)
  · exact absurd hsame (Nat.ne_of_lt (Nat.lt_of_le_of_lt (hle heq) hmarks))

end Covers

/-- Whether a word that stands for a tree at a level counts like the text of the tree, and the same
    only if the tree stands there without parentheses.  This is what the induction on derivations
    shows of every word. -/
def Faithful (level : Level) (w : List Token) (e : Expr) : Prop :=
  Covers w e.words (e.Ungrouped ∧ level.rank ≤ e.level.rank)

section Faithful

variable {level level' other : Level} {v w : List Token} {e left right : Expr} {t : Token}

/-- What fits a level fits a looser one. -/
theorem Faithful.loosen (h : Faithful level w e) (hle : level'.rank ≤ level.rank) :
    Faithful level' w e :=
  h.imp (And.imp_right (Nat.le_trans hle))

/-- An expression without operands is ungrouped. -/
theorem Faithful.of_leaf (hplaces : e.places = []) (h : Covers w e.words True)
    (hlevel : level.rank ≤ e.level.rank) : Faithful level w e := by
  refine h.imp fun _ => ⟨.of (by simp [hplaces]) ?_ (by simp [hplaces]), hlevel⟩
  intro hsum
  rw [(places_of_terms hsum.1).2] at hplaces
  cases hplaces

/-- Two operands with an operator between them.  That each fits its place is what the hypotheses say
    where the counts agree. -/
theorem Faithful.two (hl : Faithful level v left) (hr : Faithful level' w right)
    (hwords : e.words = left.words ++ t :: right.words)
    (hplaces : e.places = [(level, left), (level', right)]) (hterms : e.terms.2 = [])
    (hlevel : other.rank ≤ e.level.rank) : Faithful other (v ++ t :: w) e := by
  have hrow := hl.append ((Covers.refl [t]).append hr)
  rw [Faithful, hwords]
  refine hrow.imp fun ⟨hleft, _, hright⟩ => ⟨.of ?_ (fun hsum => hsum.1 hterms) ?_, hlevel⟩
  · simpa [hplaces] using ⟨hleft.2, hright.2⟩
  · simpa [hplaces] using ⟨hleft.1, hright.1⟩

/-- One operand with tokens in front of it and behind. -/
theorem Faithful.one {front text back : List Token} (h : Faithful level w right)
    (hfront : Covers front text True) (hwords : e.words = text ++ (right.words ++ back))
    (hplaces : e.places = [(level, right)]) (hterms : e.terms.2 = [])
    (hlevel : other.rank ≤ e.level.rank) : Faithful other (front ++ (w ++ back)) e := by
  have hrow := hfront.append (h.append (Covers.refl back))
  rw [Faithful, hwords]
  refine hrow.imp fun ⟨_, hright, _⟩ => ⟨.of ?_ (fun hsum => hsum.1 hterms) ?_, hlevel⟩
  · simpa [hplaces] using hright.2
  · simpa [hplaces] using hright.1

/-! ### Steps

  A step has no operands, so its words and its text differ in nothing that counts.  Behind an
  expression its text has a pipe that the word has not; only behind the input it has none. -/

/-- A step is an expression without operands, and no word of it has more pipes and numbers than its
    text. -/
structure CountsStep (w : List Token) (e : Expr) : Prop where
  places : e.places = []
  parens : parens e.words = 0
  marks_le : marks w ≤ marks e.words
  level : Level.walk.rank ≤ e.level.rank

/-- What stands in brackets. -/
theorem countsStep_of_bracketed (h : Bracketed w e) : CountsStep w e := by
  cases h with
  | iterate => exact ⟨rfl, rfl, Nat.le_refl _, Nat.le_refl _⟩
  | index hindex =>
    have hle := marks_le_of_integer hindex
    exact ⟨rfl, by simp [words], by simpa [words, Token.isMark] using hle, Nat.le_refl _⟩
  | slice lower upper =>
    have hle := Nat.add_le_add (marks_le_of_bound lower) (marks_le_of_bound upper)
    refine ⟨rfl, by simp [words], ?_, Nat.le_refl _⟩
    simpa [words, Token.isMark] using hle
  | field name => exact ⟨rfl, rfl, Nat.le_refl _, Nat.le_succ _⟩

/-- A step, with a dot or without. -/
theorem countsStep_of_isStep (h : IsStep w e) : CountsStep w e := by
  cases h with
  | field name => exact ⟨rfl, rfl, Nat.le_refl _, Nat.le_succ _⟩
  | brackets h =>
    have hcounts := countsStep_of_bracketed h
    exact { hcounts with marks_le := by simpa [Token.isMark] using hcounts.marks_le }
  | dotted h =>
    have hcounts := countsStep_of_bracketed h
    exact { hcounts with marks_le := by simpa [Token.isMark] using hcounts.marks_le }

/-- A step counts like its text. -/
theorem CountsStep.covers (h : CountsStep w e) : Covers w e.words True :=
  .of_marks h.parens fun _ => h.marks_le

/-- The first step from the input is an expression of its own. -/
theorem Faithful.stepFromInput (hl : Faithful .walk v .identity) (step : IsStep w e) :
    Faithful .walk (v ++ w) e := by
  have hcounts := countsStep_of_isStep step
  have hrow := hl.append hcounts.covers
  refine .of_leaf hcounts.places (.of_marks hcounts.parens fun hparens => ?_) hcounts.level
  have hdot : parens (identity.words ++ e.words) = 0 ∧
      marks (identity.words ++ e.words) = marks e.words := by
    simp [words, hcounts.parens, Token.isMark]
  have hle := hrow.marks_le (hparens.trans hdot.1.symm)
  rwa [hdot.2] at hle

/-- The text of a step behind an expression has a pipe, which the chain has not.  A chain of steps
    is therefore never its own text, and nothing has to be said of its places. -/
theorem Faithful.step (hl : Faithful .walk v left) (step : IsStep w e) :
    Faithful .walk (v ++ w) (.pipe left e) :=
  (hl.append (countsStep_of_isStep step).covers).of_more_marks (by simp [words])
    (by simp [words, Token.isMark])

/-- The walk over all nodes has only its pipe in the text. -/
theorem Faithful.descendPipe (hl : Faithful .list v .recursiveDescent)
    (hr : Faithful .pipe w right) : Faithful .pipe (v ++ .pipe :: w) (.descendPipe right) := by
  have hfront := (hl.append (Covers.refl [.pipe])).imp fun _ => trivial
  have hall : Faithful .pipe (v ++ [.pipe] ++ (w ++ [])) (.descendPipe right) :=
    hr.one hfront (by simp [words]) rfl rfl (Nat.le_refl _)
  simpa using hall

/-! ### Signs

  A minus sign in front of a number becomes the sign of the number, and the word counts as before.
  In front of anything else the text has one number more, the zero. -/

/-- A number token is a number without a sign. -/
theorem faithful_number (n : Decimal) : Faithful .atom [.number n] (literal (.number n)) := by
  have hwords : (literal (.number n)).words = n.words := rfl
  cases hn : n.negative with
  | false =>
    have hword : (literal (.number n)).words = [.number n] := by simp [hwords, Decimal.words, hn]
    refine .of_leaf rfl ?_ (by simp [level, hn])
    rw [hword]
    exact .refl _
  | true =>
    have hword : (literal (.number n)).words = [.minus, .number n.neg] := by
      simp [hwords, Decimal.words, hn]
    refine (Covers.refl [.number n]).of_more_marks ?_ ?_
    · simp [hword]
    · simp [hword, Token.isMark, Decimal.neg, hn]

/-- A number has one token for its digits, whatever its sign. -/
theorem count_words_number (n : Decimal) : parens n.words = 0 ∧ marks n.words = 1 := by
  rw [Decimal.words]
  cases hn : n.negative <;> simp [Token.isMark, Decimal.neg, hn]

/-- A minus sign in front of a number.  If the number had a sign already it needed parentheses, and
    the counts show them: the text of the number has no second sign. -/
theorem Faithful.negativeNumber {n : Decimal} (h : Faithful .operand w (literal (.number n))) :
    Faithful .operand (.minus :: w) (literal (.number n.neg)) := by
  have hmarks : parens w = parens n.words → marks w ≤ marks n.words := h.marks_le
  rw [(count_words_number n).1, (count_words_number n).2] at hmarks
  refine .of_leaf rfl (.of_marks (count_words_number n.neg).1 fun hparens => ?_) ?_
  · have hle := hmarks (by simpa using hparens)
    show marks (.minus :: w) ≤ marks n.neg.words
    rw [(count_words_number n.neg).2]
    simpa [Token.isMark] using hle
  · rw [level]
    split <;> decide

/-- The text of a negated operand has the zero that it is taken from. -/
theorem Faithful.negative (h : Faithful .operand w e) :
    Faithful .operand (.minus :: w) (.arithmetic .subtract (.literal (.number .zero)) e) := by
  have hwords : (arithmetic .subtract (literal (.number .zero)) e).words =
      .number .zero :: .minus :: e.words := rfl
  refine ((Covers.refl [.minus]).append h).of_more_marks ?_ ?_
  · simp [hwords]
  · rw [hwords]
    simp [Token.isMark, Decimal.zero]

/-! ### Rows of terms

  A sum is read as a row, and what is made of the row is decided by its terms.  So the claim is
  stated of the row first, and both kinds of tree take it from there. -/

/-- Whether a word that stands for terms in a row counts like their texts, and the same only if they
    stand there without parentheses. -/
structure FaithfulRow (w : List Token) (first : Expr) (more : List (ArithOp × Expr)) : Prop where
  covers : Covers w (rowWords first more)
    (∀ c ∈ first :: more.map (·.2), c.Ungrouped ∧ Level.product.rank ≤ c.level.rank)
  signs : ∀ m ∈ more, TermSign m.1.sign m.1

/-- A row of one term. -/
theorem FaithfulRow.start (h : Faithful .product w e) : FaithfulRow w e [] := by
  have hwords : rowWords e [] = e.words := by simp [rowWords]
  refine ⟨?_, by simp⟩
  rw [hwords]
  exact h.imp (by simp)

/-- A row with one more term behind its sign. -/
theorem FaithfulRow.more {first : Expr} {more : List (ArithOp × Expr)} {op : ArithOp}
    (hl : FaithfulRow v first more) (sign : TermSign t op) (hr : Faithful .product w right) :
    FaithfulRow (v ++ t :: w) first (more ++ [(op, right)]) := by
  obtain rfl : t = op.sign := by cases sign <;> rfl
  have hwords : rowWords first (more ++ [(op, right)]) =
      rowWords first more ++ ([op.sign] ++ right.words) := by simp [rowWords]
  constructor
  · rw [hwords]
    refine (hl.covers.append ((Covers.refl [op.sign]).append hr)).imp fun hall => ?_
    obtain ⟨hrow, -, hright⟩ := hall
    rw [List.map_append, ← List.cons_append, List.forall_mem_append]
    exact ⟨hrow, by simpa using hright⟩
  · exact List.forall_mem_append.2 ⟨hl.signs, by simpa using sign⟩

/-- A row that is a concatenation. -/
theorem FaithfulRow.concat {first : Expr} {more : List (ArithOp × Expr)}
    (h : FaithfulRow w first more) (texts : Concatenates first more) :
    Faithful .sum w (.concat (first :: more.map (·.2))) := by
  rw [Faithful, words_concat texts.2.1]
  refine h.covers.imp fun hrow => ⟨.of ?_ (fun hsum => hsum.1 rfl) ?_, Nat.le_refl _⟩
  · intro p hp
    obtain ⟨c, hc, rfl⟩ := List.mem_map.1 hp
    exact (hrow c hc).2
  · intro p hp
    obtain ⟨c, hc, rfl⟩ := List.mem_map.1 hp
    exact (hrow c hc).1

/-- A row that is added and subtracted.  Where the counts agree no operand is a sum itself, so
    opening the sum gives the row back. -/
theorem FaithfulRow.sum {first : Expr} {more : List (ArithOp × Expr)}
    (h : FaithfulRow w first more) (numbers : ¬ Concatenates first more) :
    Faithful .sum w (summed first more) := by
  have hterms : (summed first more).terms = (first.terms.1, first.terms.2 ++ more) :=
    terms_summed h.signs
  have hwords : (summed first more).words = rowWords first more := by
    rw [words_eq_rowWords, hterms, rowWords, List.flatMap_append, ← List.append_assoc, ← rowWords,
      ← words_eq_rowWords, ← rowWords]
  rw [Faithful, hwords]
  refine h.covers.imp fun hrow => ?_
  have hfirst := hrow first List.mem_cons_self
  by_cases hmore : more = []
  · subst hmore
    exact ⟨hfirst.1, Nat.le_trans (by decide) hfirst.2⟩
  -- no operand is a sum of its own, so the terms of the sum are those of the row
  rw [terms_of_tight hfirst.2, List.nil_append] at hterms
  obtain ⟨hlevel, hplaces⟩ := places_of_terms (e := summed first more) (by rwa [hterms])
  rw [hterms] at hplaces
  have hall : ∀ p ∈ (summed first more).places, p.1 = .product ∧ p.2 ∈ first :: more.map (·.2) := by
    rw [hplaces]
    simp only [List.mem_cons, List.mem_map]
    rintro p (rfl | ⟨m, hm, rfl⟩)
    · exact ⟨rfl, Or.inl rfl⟩
    · exact ⟨rfl, Or.inr ⟨m, hm, rfl⟩⟩
  refine ⟨.of ?_ (by rwa [hterms]) ?_, by rw [hlevel]⟩
  · intro p hp
    rw [(hall p hp).1]
    exact (hrow _ (hall p hp).2).2
  · exact fun p hp => (hrow _ (hall p hp).2).1

end Faithful

/-! ### Targets

  What stands in front of a sign of assignment is read as an expression and kept as a path.  Its
  words and the text of the path have the same steps; what the words can have on top is
  parentheses. -/

/-- A step has no more marks than the path that it is. -/
theorem marks_le_of_stepTarget {w : List Token} {e : Expr} (h : IsStep w e) {p : Path}
    (hp : e.path? = .ok p) : marks w ≤ marks (p.flatMap Step.words) := by
  have hcounts := (countsStep_of_isStep h).marks_le
  have hwords : marks e.words ≤ marks (p.flatMap Step.words) := by
    cases e with
    | identity => exact Nat.zero_le _
    | field name => exact Nat.zero_le _
    | index i =>
      cases hp
      simp [words, Step.words, Token.isMark]
    | pipe left right => cases (countsStep_of_isStep h).places
    | _ => cases hp
  exact Nat.le_trans hcounts hwords

mutual
/-- A target without parentheses has no more pipes and numbers than the text of its path: a pipe
    would have to stand in parentheses.  The recursion is on the derivation; most rules make no
    path, and are ruled out by that. -/
theorem marks_le_of_target {level : Level} {w : List Token} {e : Expr} :
    Derives level w e → ∀ {p : Path}, e.path? = .ok p → parens w = 0 → level ≠ .pipe →
      marks w ≤ marks (p.flatMap Step.words)
  | .pipeEnd _, _, _, _, hlevel => absurd rfl hlevel
  | .pipe _ _ _, _, _, _, hlevel => absurd rfl hlevel
  | .descendPipe _ _, _, _, _, hlevel => absurd rfl hlevel
  | .listStart only, _, hp, hw, _ => marks_le_of_target only hp hw (by simp)
  | .list _ _, _, hp, _, _ => by cases hp
  | .noAssignment only, _, hp, hw, _ => marks_le_of_target only hp hw (by simp)
  | .assign _ _ _, _, hp, _, _ => by cases hp
  | .update _ _ _, _, hp, _, _ => by cases hp
  | .alternativeEnd only, _, hp, hw, _ => marks_le_of_target only hp hw (by simp)
  | .alternative _ _, _, hp, _, _ => by cases hp
  | .noComparison only, _, hp, hw, _ => marks_le_of_target only hp hw (by simp)
  | .compare _ _ _, _, hp, _, _ => by cases hp
  | .concat _ _, _, hp, _, _ => by cases hp
  | .sum terms _, _, hp, hw, _ => marks_le_of_targetTerms terms hp hw
  | .productStart only, _, hp, hw, _ => marks_le_of_target only hp hw (by simp)
  | .product _ _ _, _, hp, _, _ => by cases hp
  | .positive only, _, hp, hw, _ => marks_le_of_target only hp hw (by simp)
  | .negativeNumber _, _, hp, _, _ => by cases hp
  | .negative _ _, _, hp, _, _ => by cases hp
  | .walkStart only, _, hp, hw, _ => marks_le_of_target only hp hw (by simp)
  | .walkFromInput left step, _, hp, hw, _ => by
      rw [parens_append, Nat.add_eq_zero_iff] at hw
      have hleft := marks_le_of_target left (p := []) rfl hw.1 (by simp)
      have hstep := marks_le_of_stepTarget step hp
      rw [marks_append]
      exact Nat.add_le_add hleft hstep |>.trans (by simp)
  | .walk left _ step, _, hp, hw, _ => by
      rw [parens_append, Nat.add_eq_zero_iff] at hw
      obtain ⟨front, hfront, hp⟩ := bind_eq_ok.1 hp
      obtain ⟨back, hback, hp⟩ := bind_eq_ok.1 hp
      cases hp
      have hleft := marks_le_of_target left hfront hw.1 (by simp)
      have hstep := marks_le_of_stepTarget step hback
      rw [marks_append, List.flatMap_append, marks_append]
      exact Nat.add_le_add hleft hstep
  | .identity, _, _, _, _ => Nat.zero_le _
  | .recursiveDescent, _, hp, _, _ => by cases hp
  | .field _, _, _, _, _ => Nat.zero_le _
  | .number _, _, hp, _, _ => by cases hp
  | .string _, _, hp, _, _ => by cases hp
  | .boolean _, _, hp, _, _ => by cases hp
  | .null, _, hp, _, _ => by cases hp
  | .group _, _, _, hw, _ => by simp at hw
  | .emptyCollection, _, hp, _, _ => by cases hp
  | .collect _, _, hp, _, _ => by cases hp
  | .call _, _, hp, _, _ => by cases hp
  | .callOn _ _ _, _, hp, _, _ => by cases hp

/-- The same of terms in a row, of which there can be only one. -/
theorem marks_le_of_targetTerms {w : List Token} {first : Expr} {more : List (ArithOp × Expr)} :
    Terms w first more → ∀ {p : Path}, (summed first more).path? = .ok p → parens w = 0 →
      marks w ≤ marks (p.flatMap Step.words)
  | .start only, _, hp, hw => marks_le_of_target only hp hw (by simp)
  | .more _ _ _, _, hp, _ => by
      rw [summed, List.foldl_append] at hp
      cases hp
end

/-- A target and what is put at its path.  The words of the target count like the text of the path,
    and the rest is as for one operand. -/
theorem Faithful.edit {v w : List Token} {l r e : Expr} {p : Path} {t : Token}
    (hl : Derives .alternative v l) (hp : l.path? = .ok p) (hr : Faithful .alternative w r)
    (hwords : e.words = p.words ++ t :: r.words) (hplaces : e.places = [(.alternative, r)])
    (hterms : e.terms.2 = []) (hlevel : e.level = .assignment) :
    Faithful .assignment (v ++ t :: w) e := by
  have htarget : Covers v p.words True := .of_marks (parens_path p) fun hv =>
    marks_path p ▸ marks_le_of_target hl hp hv (by simp)
  have hfront := (htarget.append (Covers.refl [t])).imp fun _ => trivial
  have hall : Faithful .assignment (v ++ [t] ++ (w ++ [])) e :=
    hr.one hfront (by simp [hwords]) hplaces hterms (by rw [hlevel])
  simpa using hall

mutual
/-- What a word stands for counts like the word.  By recursion on the derivation, one rule after the
    other; a rule that only passes on to a tighter level loosens the level and nothing else. -/
theorem faithful_of_derives {level : Level} {w : List Token} {e : Expr} :
    Derives level w e → Faithful level w e
  | .pipeEnd only => (faithful_of_derives only).loosen (by decide)
  | .pipe left _ right =>
      ((faithful_of_derives left).loosen (by decide : Level.pipe.rank ≤ Level.list.rank)).two
        (faithful_of_derives right) rfl rfl rfl (Nat.le_refl _)
  | .descendPipe left right => (faithful_of_derives left).descendPipe (faithful_of_derives right)
  | .listStart only => (faithful_of_derives only).loosen (by decide)
  | .list left right =>
      (faithful_of_derives left).two
        ((faithful_of_derives right).loosen (by decide : Level.list.rank ≤ Level.assignment.rank))
        rfl rfl rfl (Nat.le_refl _)
  | .noAssignment only => (faithful_of_derives only).loosen (by decide)
  | .assign left target right =>
      .edit left target (faithful_of_derives right) rfl rfl rfl rfl
  | .update left target right =>
      .edit left target (faithful_of_derives right) rfl rfl rfl rfl
  | .alternativeEnd only => (faithful_of_derives only).loosen (by decide)
  | .alternative left right =>
      (faithful_of_derives left).two (faithful_of_derives right) rfl rfl rfl (Nat.le_refl _)
  | .noComparison only => (faithful_of_derives only).loosen (by decide)
  | .compare left sign right => by
      cases sign <;>
        exact (faithful_of_derives left).two (faithful_of_derives right) rfl rfl rfl (Nat.le_refl _)
  | .concat terms texts => (faithfulRow_of_terms terms).concat texts
  | .sum terms numbers => (faithfulRow_of_terms terms).sum numbers
  | .productStart only => (faithful_of_derives only).loosen (by decide)
  | .product left sign right => by
      cases sign <;>
        exact (faithful_of_derives left).two (faithful_of_derives right) rfl rfl rfl (Nat.le_refl _)
  | .positive only => (faithful_of_derives only).loosen (by decide)
  | .negativeNumber h => (faithful_of_derives h).negativeNumber
  | .negative h _ => (faithful_of_derives h).negative
  | .walkStart only => (faithful_of_derives only).loosen (by decide)
  | .walkFromInput left step => (faithful_of_derives left).stepFromInput step
  | .walk left _ step => (faithful_of_derives left).step step
  | .identity => .of_leaf rfl (.refl _) (Nat.le_refl _)
  | .recursiveDescent => .of_leaf rfl (.refl _) (Nat.le_refl _)
  | .field _ => .of_leaf rfl (.refl _) (Nat.le_refl _)
  | .number n => faithful_number n
  | .string _ => .of_leaf rfl (.refl _) (Nat.le_refl _)
  | .boolean _ => .of_leaf rfl (.refl _) (Nat.le_refl _)
  | .null => .of_leaf rfl (.refl _) (Nat.le_refl _)
  | .group inner => (faithful_of_derives inner).of_more_parens (by simp)
  | .emptyCollection => .of_leaf rfl (.refl _) (Nat.le_refl _)
  | .collect inner =>
      (faithful_of_derives inner).one (.refl [.leftBracket]) rfl rfl rfl (Nat.le_refl _)
  | .call _ => .of_leaf rfl (.refl _) (Nat.le_refl _)
  | .callOn (f := f) _ argument _ =>
      (faithful_of_derives argument).one (.refl [.identifier f.name, .leftParen])
        (by simp [words, wordsAll]) rfl rfl (Nat.le_refl _)

/-- The same of terms in a row. -/
theorem faithfulRow_of_terms {w : List Token} {first : Expr} {more : List (ArithOp × Expr)} :
    Terms w first more → FaithfulRow w first more
  | .start only => .start (faithful_of_derives only)
  | .more left sign right => (faithfulRow_of_terms left).more sign (faithful_of_derives right)
end

/-! ## Expressions

  The text of an expression counts like itself.  So if it stands for the expression, the two counts
  agree, and everything that the induction claims in this case holds. -/

/-- **An expression that its own words stand for needs no parentheses.** -/
theorem ungrouped_of_derives {e : Expr} (h : Derives .pipe e.words e.regrouped) : e.Ungrouped := by
  have hwords := words_regrouped e
  exact ungrouped_of_regrouped ((faithful_of_derives h).exact (by rw [hwords]) (by rw [hwords])).1

end Expr

end BlockQuery

/-
  What the rules derive is read by the functions of the grammar.

  On a word that stands for a tree a reader does not stop early, does not fail and does not read on.
  How far a reader goes depends on the token behind the word; `reach` orders the tokens by the level
  that goes on with them, and `ReadsAt` says what a word has the reader of a level do when the token
  behind it is out of reach.  There is one lemma for each rule; the induction on the derivation only
  puts them together.

  A reader that goes to the left cannot be asked to read one word, since it reads on as long as its
  operator comes.  For the levels of lists, products and walks the statement is therefore in two
  parts: whatever the reader makes of the rest with the tree of the word in hand, that is what it
  makes of the word and the rest.  This way the rules for these levels need no induction of their
  own.
-/
import BlockQuery.Proofs.ReadsSound

namespace BlockQuery.Grammar

open BlockQuery.Derivation

variable {ts rest : List Lexeme} {e : Expr}

/-! ## How far a reader goes

  A reader of a level stops in front of a token exactly if the token belongs to a looser level, or
  to none.  `reach` gives each token its level as a number, and `Stops k` says of what is left that
  no level up to `k` would take more of it. -/

/-- The level that goes on with a token, from tight to loose: arguments, steps, products, sums,
    comparisons, alternatives, assignments, lists, pipes; no level goes on with any other token. -/
def reach : Token → Nat
  | .leftParen => 0
  | .field _ => 1
  | .leftBracket => 1
  | .dot => 1
  | .star => 2
  | .slash => 2
  | .plus => 3
  | .minus => 3
  | .equal => 4
  | .notEqual => 4
  | .less => 4
  | .greater => 4
  | .lessEqual => 4
  | .greaterEqual => 4
  | .alternative => 5
  | .assign => 6
  | .updateAssign => 6
  | .comma => 7
  | .pipe => 8
  | _ => 9

/-- No level up to `k` goes on with the next token. -/
def Stops (k : Nat) (ts : List Lexeme) : Prop :=
  ∀ t mid, Next ts t mid → k < reach t

/-- Where a loose level stops, a tighter one stops too. -/
theorem Stops.mono {j k : Nat} (h : Stops k ts) (hjk : j ≤ k) : Stops j ts :=
  fun t mid ht => Nat.lt_of_le_of_lt hjk (h t mid ht)

/-- A token of a looser level stops all tighter ones. -/
theorem Next.stops {k : Nat} {t : Token} (h : Next ts t rest) (hk : k < reach t) : Stops k ts := by
  intro t' mid ht'
  obtain ⟨rfl, -⟩ := h.unique ht'
  exact hk

/-- Where a level stops, none of its tokens comes next. -/
theorem Stops.notNext {k : Nat} {t : Token} (h : Stops k ts) (ht : reach t ≤ k) : NotNext ts t :=
  fun mid hn => absurd (h t mid hn) (Nat.not_lt.2 ht)

/-- One token that comes next keeps all others from coming. -/
theorem Next.notNext {t t' : Token} (h : Next ts t rest) (ht : t ≠ t') : NotNext ts t' :=
  fun _ hn => ht (h.unique hn).1

/-- Where a level stops, none of its operators is found. -/
theorem Stops.no_operator {α : Type} {k : Nat} {f : Token → Option α} (h : Stops k ts)
    (hf : ∀ t a, f t = some a → reach t ≤ k) : ∀ t mid, Next ts t mid → f t = none := by
  intro t mid ht
  cases hft : f t with
  | none => rfl
  | some a => exact absurd (h t mid ht) (Nat.not_lt.2 (hf t a hft))

/-- Plus and minus belong to sums. -/
theorem reach_of_termSign {t : Token} {op : ArithOp} (h : TermSign t op) : reach t = 3 := by
  cases h <;> rfl

/-- The signs of products belong to products. -/
theorem reach_of_factorSign {t : Token} {op : ArithOp} (h : FactorSign t op) : reach t = 2 := by
  cases h <;> rfl

/-- The signs of comparison belong to comparisons. -/
theorem reach_of_compareSign {t : Token} {op : CompareOp} (h : CompareSign t op) :
    reach t = 4 := by
  cases h <;> rfl

/-- The signs of assignment belong to assignments. -/
theorem reach_of_assignOp? {t : Token} {op : AssignOp} (h : assignOp? t = some op) :
    reach t = 6 := by
  cases t <;> first | rfl | cases h

/-- The tokens that start a step belong to walks. -/
theorem reach_of_startsStep {t : Token} (h : startsStep t = true) : reach t = 1 := by
  cases t <;> first | rfl | cases h

/-- Behind a walk that is at its end no step is read. -/
theorem steps_stop (h : Stops 1 ts) : Reads (steps none e ts) e ts := by
  refine reads_steps.2 (Or.inl ⟨fun t mid ht => ?_, rfl, rfl⟩)
  cases hs : startsStep t with
  | false => rfl
  | true =>
    have := h t mid ht
    rw [reach_of_startsStep hs] at this
    omega

/-- Behind a product that is at its end no factor is read. -/
theorem moreProduct_stop (h : Stops 2 ts) : Reads (moreProduct none e ts) e ts := by
  refine reads_moreProduct.2 (Or.inl ⟨h.no_operator fun t op hop => ?_, rfl, rfl⟩)
  exact Nat.le_of_eq (reach_of_factorSign (productOp?_eq_some.1 hop))

/-- Behind a sum that is at its end no term is read. -/
theorem moreSum_stop (h : Stops 3 ts) : Reads (moreSum none ts) [] ts := by
  refine reads_moreSum.2 (Or.inl ⟨h.no_operator fun t op hop => ?_, rfl, rfl⟩)
  exact Nat.le_of_eq (reach_of_termSign (sumOp?_eq_some.1 hop))

/-! ## Rule by rule

  For each rule of the derivation there is one lemma: if the parts have their readers do what they
  stand for, then so has the whole.  Between two parts stands a token, and the part in front stops
  there because its level is tighter than that of the token. -/

/-- What a word that stands for `e` at a level has its reader do.  A list, a product or a walk may
    go on behind the word, so its reader does there what it does with `e` in hand. -/
def ReadsAt (level : Level) (w : List Token) (e : Expr) : Prop :=
  match level with
  | .pipe => ∀ ts rest, Spells w ts rest → Stops 8 rest → Reads (pipe none ts) e rest
  | .list => ∀ ts mid, Spells w ts mid → Stops 6 mid →
      ∀ all rest, Reads (moreCommas none e mid) all rest → Reads (commas none ts) all rest
  | .assignment => ∀ ts rest, Spells w ts rest → Stops 6 rest → Reads (assignment none ts) e rest
  | .alternative => ∀ ts rest, Spells w ts rest → Stops 5 rest → Reads (alternative none ts) e rest
  | .comparison => ∀ ts rest, Spells w ts rest → Stops 4 rest → Reads (comparison none ts) e rest
  | .sum => ∀ ts rest, Spells w ts rest → Stops 3 rest → Reads (sum none ts) e rest
  | .product => ∀ ts mid, Spells w ts mid → Stops 1 mid →
      ∀ all rest, Reads (moreProduct none e mid) all rest → Reads (product none ts) all rest
  | .operand => ∀ ts rest, Spells w ts rest → Stops 1 rest → Reads (operand none ts) e rest
  | .walk => ∀ ts mid, Spells w ts mid → Stops 0 mid →
      ∀ all rest, Reads (steps none e mid) all rest → Reads (operand none ts) all rest
  | .atom => ∀ ts mid, Spells w ts mid → Stops 0 mid →
      ∀ all rest, Reads (steps none e mid) all rest → Reads (operand none ts) all rest

/-- What the terms of a sum have its reader do; more terms may stand behind them. -/
def ReadsTerms (w : List Token) (first : Expr) (more : List (ArithOp × Expr)) : Prop :=
  ∀ ts mid, Spells w ts mid → Stops 2 mid →
    ∀ more' rest, Reads (moreSum none mid) more' rest →
      ∃ start, Reads (product none ts) first start ∧ Reads (moreSum none start) (more ++ more') rest

/-! ### Pipes, lists and assignments

  The bar and the comma are out of reach of everything in front of them. -/

/-- A pipe behind a bar.  Its tree is put together from both sides. -/
theorem readsAt_pipe {v w : List Token} {l r : Expr} (left : ReadsAt .list v l)
    (right : ReadsAt .pipe w r) : ReadsAt .pipe (v ++ .pipe :: w) (pipeOf l r) := by
  intro ts rest hw hstop
  obtain ⟨mid, hv, hw⟩ := spells_append.1 hw
  obtain ⟨mid', hbar, hw⟩ := spells_cons.1 hw
  have hl : Reads (commas none ts) l mid := by
    refine left ts mid hv (hbar.stops (by decide)) l mid ?_
    exact reads_moreCommas.2 (Or.inl ⟨hbar.notNext (by decide), rfl, rfl⟩)
  exact reads_pipe.2 ⟨l, mid, hl, Or.inr ⟨mid', hbar, r, right mid' rest hw hstop, rfl⟩⟩

/-- A list alone is a pipe, if no bar follows. -/
theorem readsAt_pipeEnd {w : List Token} (only : ReadsAt .list w e) : ReadsAt .pipe w e := by
  intro ts rest hw hstop
  have hl : Reads (commas none ts) e rest := by
    refine only ts rest hw (hstop.mono (by decide)) e rest ?_
    exact reads_moreCommas.2 (Or.inl ⟨hstop.notNext (by decide), rfl, rfl⟩)
  exact reads_pipe.2 ⟨e, rest, hl, Or.inl ⟨hstop.notNext (by decide), rfl, rfl⟩⟩

/-- A list with one member more.  The list in front is read with the new member as a part of what
    comes behind it. -/
theorem readsAt_list {v w : List Token} {l r : Expr} (left : ReadsAt .list v l)
    (right : ReadsAt .assignment w r) : ReadsAt .list (v ++ .comma :: w) (.comma l r) := by
  intro ts mid hw hstop all rest hmore
  obtain ⟨mid₁, hv, hw⟩ := spells_append.1 hw
  obtain ⟨mid₂, hcomma, hw⟩ := spells_cons.1 hw
  refine left ts mid₁ hv (hcomma.stops (by decide)) all rest ?_
  exact reads_moreCommas.2 (Or.inr ⟨mid₂, hcomma, r, mid, right mid₂ mid hw hstop, hmore⟩)

/-- A list of one member. -/
theorem readsAt_listStart {w : List Token} (only : ReadsAt .assignment w e) :
    ReadsAt .list w e := by
  intro ts mid hw hstop all rest hmore
  exact reads_commas.2 ⟨e, mid, only ts mid hw hstop, hmore⟩

/-- Both kinds of assignment; the target walks a path, as the reader checks. -/
theorem readsAt_assign {v w : List Token} {l r : Expr} {p : Path} {t : Token} {op : AssignOp}
    (hop : assignOp? t = some op) (left : ReadsAt .alternative v l) (target : l.path? = .ok p)
    (right : ReadsAt .alternative w r) : ReadsAt .assignment (v ++ t :: w) (assignOf op p r) := by
  intro ts rest hw hstop
  obtain ⟨mid, hv, hw⟩ := spells_append.1 hw
  obtain ⟨mid', ht, hw⟩ := spells_cons.1 hw
  have hl := left ts mid hv (ht.stops (by rw [reach_of_assignOp? hop]; decide))
  have hr := right mid' rest hw (hstop.mono (by decide))
  exact reads_assignment.2 ⟨l, mid, hl, Or.inr ⟨t, op, mid', ht, hop, p, target, r, hr, rfl⟩⟩

/-- An alternative alone is an assignment, if no sign of assignment follows. -/
theorem readsAt_noAssignment {w : List Token} (only : ReadsAt .alternative w e) :
    ReadsAt .assignment w e := by
  intro ts rest hw hstop
  have hl := only ts rest hw (hstop.mono (by decide))
  refine reads_assignment.2 ⟨e, rest, hl, Or.inl ⟨?_, rfl, rfl⟩⟩
  exact hstop.no_operator fun t op hop => Nat.le_of_eq (reach_of_assignOp? hop)

/-! ### Alternatives and comparisons

  Both levels read an operand of the next tighter level and then at most one sign.  An alternative
  may go on behind its sign with another one, a comparison may not: its operands are sums, so two
  signs of comparison in a row are no word of any level. -/

/-- An alternative behind its sign. -/
theorem readsAt_alternative {v w : List Token} {l r : Expr} (left : ReadsAt .comparison v l)
    (right : ReadsAt .alternative w r) :
    ReadsAt .alternative (v ++ .alternative :: w) (.alternative l r) := by
  intro ts rest hw hstop
  obtain ⟨mid, hv, hw⟩ := spells_append.1 hw
  obtain ⟨mid', ht, hw⟩ := spells_cons.1 hw
  have hl := left ts mid hv (ht.stops (by decide))
  exact reads_alternative.2 ⟨l, mid, hl, Or.inr ⟨mid', ht, r, right mid' rest hw hstop, rfl⟩⟩

/-- A comparison alone is an alternative, if its sign does not follow. -/
theorem readsAt_alternativeEnd {w : List Token} (only : ReadsAt .comparison w e) :
    ReadsAt .alternative w e := by
  intro ts rest hw hstop
  exact reads_alternative.2 ⟨e, rest, only ts rest hw (hstop.mono (by decide)),
    Or.inl ⟨hstop.notNext (by decide), rfl, rfl⟩⟩

/-- A comparison of two sums. -/
theorem readsAt_compare {v w : List Token} {l r : Expr} {t : Token} {op : CompareOp}
    (sign : CompareSign t op) (left : ReadsAt .sum v l) (right : ReadsAt .sum w r) :
    ReadsAt .comparison (v ++ t :: w) (.compare op l r) := by
  intro ts rest hw hstop
  obtain ⟨mid, hv, hw⟩ := spells_append.1 hw
  obtain ⟨mid', ht, hw⟩ := spells_cons.1 hw
  have hl := left ts mid hv (ht.stops (by rw [reach_of_compareSign sign]; decide))
  have hr := right mid' rest hw (hstop.mono (by decide))
  exact reads_comparison.2
    ⟨l, mid, hl, Or.inr ⟨t, op, mid', ht, compareOp?_eq_some.2 sign, r, hr, rfl⟩⟩

/-- A sum alone is a comparison, if no sign of comparison follows. -/
theorem readsAt_noComparison {w : List Token} (only : ReadsAt .sum w e) :
    ReadsAt .comparison w e := by
  intro ts rest hw hstop
  have hl := only ts rest hw (hstop.mono (by decide))
  refine reads_comparison.2 ⟨e, rest, hl, Or.inl ⟨?_, rfl, rfl⟩⟩
  exact hstop.no_operator fun t op hop =>
    Nat.le_of_eq (reach_of_compareSign (compareOp?_eq_some.1 hop))

/-! ### Sums and products

  The terms of a sum are read one by one and joined at the end, so the statement about them is of
  its own kind (`ReadsTerms`): behind the terms of the word the reader finds whatever terms come
  there. -/

/-- A sum is what its terms make together. -/
theorem readsAt_sum {w : List Token} {first : Expr} {more : List (ArithOp × Expr)}
    (terms : ReadsTerms w first more) : ReadsAt .sum w (sumOf first more) := by
  intro ts rest hw hstop
  obtain ⟨mid, hfirst, hmore⟩ :=
    terms ts rest hw (hstop.mono (by decide)) [] rest (moreSum_stop hstop)
  rw [List.append_nil] at hmore
  exact reads_sum.2 ⟨first, mid, hfirst, more, hmore, rfl⟩

/-- One term alone. -/
theorem readsTerms_start {w : List Token} (only : ReadsAt .product w e) : ReadsTerms w e [] := by
  intro ts mid hw hstop more' rest hmore
  refine ⟨mid, ?_, hmore⟩
  exact only ts mid hw (hstop.mono (by decide)) e mid (moreProduct_stop hstop)

/-- One term more, at the end. -/
theorem readsTerms_more {v w : List Token} {first : Expr} {more : List (ArithOp × Expr)}
    {t : Token} {op : ArithOp} (left : ReadsTerms v first more) (sign : TermSign t op)
    (right : ReadsAt .product w e) : ReadsTerms (v ++ t :: w) first (more ++ [(op, e)]) := by
  intro ts mid hw hstop more' rest hmore
  obtain ⟨mid₁, hv, hw⟩ := spells_append.1 hw
  obtain ⟨mid₂, ht, hw⟩ := spells_cons.1 hw
  -- the term is read first, and then it is the first of those behind the front
  have hr : Reads (product none mid₂) e mid :=
    right mid₂ mid hw (hstop.mono (by decide)) e mid (moreProduct_stop hstop)
  have hmore' : Reads (moreSum none mid₁) ((op, e) :: more') rest :=
    reads_moreSum.2 (Or.inr
      ⟨t, op, mid₂, ht, sumOp?_eq_some.2 sign, e, mid, hr, more', hmore, rfl⟩)
  rw [List.append_assoc]
  exact left ts mid₁ hv (ht.stops (by rw [reach_of_termSign sign]; decide)) _ rest hmore'

/-- A product with one factor more. -/
theorem readsAt_product {v w : List Token} {l r : Expr} {t : Token} {op : ArithOp}
    (sign : FactorSign t op) (left : ReadsAt .product v l) (right : ReadsAt .operand w r) :
    ReadsAt .product (v ++ t :: w) (.arithmetic op l r) := by
  intro ts mid hw hstop all rest hmore
  obtain ⟨mid₁, hv, hw⟩ := spells_append.1 hw
  obtain ⟨mid₂, ht, hw⟩ := spells_cons.1 hw
  refine left ts mid₁ hv (ht.stops (by rw [reach_of_factorSign sign]; decide)) all rest ?_
  exact reads_moreProduct.2 (Or.inr
    ⟨t, op, mid₂, ht, productOp?_eq_some.2 sign, r, mid, right mid₂ mid hw hstop, hmore⟩)

/-- A product of one factor. -/
theorem readsAt_productStart {w : List Token} (only : ReadsAt .operand w e) :
    ReadsAt .product w e := by
  intro ts mid hw hstop all rest hmore
  exact reads_product.2 ⟨e, mid, only ts mid hw hstop, hmore⟩

/-! ### Operands, walks and atoms

  Walks and atoms are read inside of an operand, with all steps that follow, so their statements are
  about the reader of operands.  Behind an atom nothing may come that would make it another atom,
  which is only an opening parenthesis behind a name. -/

/-- An operand behind a minus sign. -/
theorem readsAt_negative {w : List Token} (h : ReadsAt .operand w e) :
    ReadsAt .operand (.minus :: w) (negated e) := by
  intro ts rest hw hstop
  obtain ⟨mid, hminus, hw⟩ := spells_cons.1 hw
  exact reads_operand.2 (Or.inr ⟨mid, hminus, e, h mid rest hw hstop, rfl⟩)

/-- A walk to its end is an operand. -/
theorem readsAt_positive {w : List Token} (only : ReadsAt .walk w e) : ReadsAt .operand w e := by
  intro ts rest hw hstop
  exact only ts rest hw (hstop.mono (by decide)) e rest (steps_stop hstop)

/-- A walk with one step more. -/
theorem readsAt_walk {v w : List Token} {l step : Expr} (left : ReadsAt .walk v l)
    (hstep : IsStep w step) : ReadsAt .walk (v ++ w) (stepOf l step) := by
  intro ts mid hw hstop all rest hmore
  obtain ⟨mid₁, hv, hw⟩ := spells_append.1 hw
  have hs : ReadsStep mid₁ step mid := readsStep_iff_isStep.2 ⟨w, hw, hstep⟩
  -- every token that starts a step is out of reach of the arguments of a call
  have hfirst : Stops 0 mid₁ := by
    rcases readsStep_iff.1 hs with ⟨name, ht, -⟩ | ⟨mid₂, ht, -⟩ | ⟨mid₂, mid₃, ht, -⟩
    · exact ht.stops (Nat.zero_lt_one)
    · exact ht.stops (by decide)
    · exact ht.stops (by decide)
  exact left ts mid₁ hv hfirst all rest (reads_steps.2 (Or.inr ⟨step, mid, hs, hmore⟩))

/-- A walk without a step is an atom; both are read alike. -/
theorem readsAt_walkStart {w : List Token} (only : ReadsAt .atom w e) : ReadsAt .walk w e :=
  only

/-- An atom whose reader reads it is read as an operand, with the steps behind it. -/
theorem operand_of_atom {mid mid' : List Lexeme} {t : Token} {all : Expr} (ht : Next ts t mid')
    (hminus : t ≠ .minus) (hatom : Reads (atom none ts) e mid)
    (hmore : Reads (steps none e mid) all rest) : Reads (operand none ts) all rest :=
  reads_operand.2 (Or.inl ⟨ht.notNext hminus, e, mid, hatom, hmore⟩)

/-- The atoms of one token. -/
theorem readsAt_literal {t : Token} (h : literal? t = some e) : ReadsAt .atom [t] e := by
  intro ts mid hw hstop all rest hmore
  have ht := spells_singleton.1 hw
  refine operand_of_atom ht ?_ (reads_atom.2 (Or.inl ⟨t, ht, h⟩)) hmore
  rintro rfl
  cases h

/-- A dot is the input itself, unless a bracket is behind it: then the two are read together, and
    what is read is the step that would have been read behind the input. -/
theorem readsAt_identity : ReadsAt .atom [.dot] .identity := by
  intro ts mid hw hstop all rest hmore
  have hdot := spells_singleton.1 hw
  by_cases hopen : ∃ inner, Next mid .leftBracket inner
  · obtain ⟨inner, hopen⟩ := hopen
    rcases reads_steps.1 hmore with ⟨hno, -⟩ | ⟨step, behind, hstep, hmore⟩
    · exact absurd (hno _ inner hopen) (by decide)
    · have hb : Reads (brackets none inner) step behind := by
        rcases readsStep_iff.1 hstep with ⟨name, ht, -⟩ | ⟨inner', ht, hb⟩ | ⟨inner', _, ht, -⟩
        · exact absurd (hopen.unique ht).1 (by simp)
        · obtain ⟨-, rfl⟩ := hopen.unique ht
          exact hb
        · exact absurd (hopen.unique ht).1 (by decide)
      refine operand_of_atom hdot (by decide) (reads_atom.2 ?_) hmore
      exact Or.inr (Or.inl ⟨mid, hdot, Or.inr ⟨inner, hopen, hb⟩⟩)
  · have hno : NotNext mid .leftBracket := fun inner h => hopen ⟨inner, h⟩
    refine operand_of_atom hdot (by decide) (reads_atom.2 ?_) hmore
    exact Or.inr (Or.inl ⟨mid, hdot, Or.inl ⟨hno, rfl, rfl⟩⟩)

/-- A pipe in parentheses. -/
theorem readsAt_group {w : List Token} (inner : ReadsAt .pipe w e) :
    ReadsAt .atom (.leftParen :: (w ++ [.rightParen])) e := by
  intro ts mid hw hstop all rest hmore
  obtain ⟨mid₁, hopen, hw⟩ := spells_cons.1 hw
  obtain ⟨mid₂, hw, hclose⟩ := spells_concat.1 hw
  have hin := inner mid₁ mid₂ hw (hclose.stops (by decide))
  refine operand_of_atom hopen (by decide) (reads_atom.2 ?_) hmore
  exact Or.inr (Or.inr (Or.inl ⟨mid₁, hopen, e, mid₂, hin, hclose, rfl⟩))

/-- The empty collection is recognised by its closing bracket. -/
theorem readsAt_emptyCollection :
    ReadsAt .atom [.leftBracket, .rightBracket] .emptyCollection := by
  intro ts mid hw hstop all rest hmore
  obtain ⟨mid₁, hopen, hw⟩ := spells_cons.1 hw
  have hclose := spells_singleton.1 hw
  refine operand_of_atom hopen (by decide) (reads_atom.2 ?_) hmore
  exact Or.inr (Or.inr (Or.inr (Or.inl ⟨mid₁, hopen, Or.inr ⟨mid, hclose, rfl, rfl⟩⟩)))

/-- Every pipe starts with an operand. -/
theorem operand_of_pipe (h : Reads (pipe none ts) e rest) :
    ∃ e' rest', Reads (operand none ts) e' rest' := by
  -- down through the levels, each of which reads the next one first
  obtain ⟨_, _, h, -⟩ := reads_pipe.1 h
  obtain ⟨_, _, h, -⟩ := reads_commas.1 h
  obtain ⟨_, _, h, -⟩ := reads_assignment.1 h
  obtain ⟨_, _, h, -⟩ := reads_alternative.1 h
  obtain ⟨_, _, h, -⟩ := reads_comparison.1 h
  obtain ⟨_, _, h, -⟩ := reads_sum.1 h
  obtain ⟨_, _, h, -⟩ := reads_product.1 h
  exact ⟨_, _, h⟩

/-- No pipe starts with a token that starts no operand. -/
theorem notNext_of_pipe (h : Reads (pipe none ts) e rest) :
    NotNext ts .rightBracket ∧ NotNext ts .pipe := by
  obtain ⟨e', rest', h⟩ := operand_of_pipe h
  rcases reads_operand.1 h with ⟨-, l, mid, hatom, -⟩ | ⟨mid, ht, -⟩
  · rcases reads_atom.1 hatom with ⟨t, ht, hlit⟩ | ⟨_, ht, -⟩ | ⟨_, ht, -⟩ | ⟨_, ht, -⟩ |
      ⟨_, _, ht, -⟩
    · constructor
      · exact ht.notNext (by rintro rfl; cases hlit)
      · exact ht.notNext (by rintro rfl; cases hlit)
    · exact ⟨ht.notNext (by decide), ht.notNext (by decide)⟩
    · exact ⟨ht.notNext (by decide), ht.notNext (by decide)⟩
    · exact ⟨ht.notNext (by decide), ht.notNext (by decide)⟩
    · exact ⟨ht.notNext (by simp), ht.notNext (by simp)⟩
  · exact ⟨ht.notNext (by decide), ht.notNext (by decide)⟩

/-- A pipe in brackets.  No pipe starts with a closing bracket, so it is not taken for the empty
    collection. -/
theorem readsAt_collect {w : List Token} (inner : ReadsAt .pipe w e) :
    ReadsAt .atom (.leftBracket :: (w ++ [.rightBracket])) (.collect e) := by
  intro ts mid hw hstop all rest hmore
  obtain ⟨mid₁, hopen, hw⟩ := spells_cons.1 hw
  obtain ⟨mid₂, hw, hclose⟩ := spells_concat.1 hw
  have hin := inner mid₁ mid₂ hw (hclose.stops (by decide))
  refine operand_of_atom hopen (by decide) (reads_atom.2 ?_) hmore
  exact Or.inr (Or.inr (Or.inr (Or.inl ⟨mid₁, hopen,
    Or.inl ⟨(notNext_of_pipe hin).1, e, mid₂, hin, hclose, rfl⟩⟩)))

/-- A function without arguments, if no parenthesis follows. -/
theorem readsAt_call {f : Builtin} (arity : f.arity = 0) :
    ReadsAt .atom [.identifier f.name] (.call f []) := by
  intro ts mid hw hstop all rest hmore
  have hname := spells_singleton.1 hw
  have hargs : Reads (arguments none mid) [] mid :=
    reads_arguments.2 (Or.inl ⟨hstop.notNext (by decide), rfl, rfl⟩)
  have hcall : callOf f [] = .ok (.call f []) :=
    callOf_eq_ok.2 ⟨arity.symm, fun _ target h => absurd h (by simp), rfl⟩
  refine operand_of_atom hname (by simp) (reads_atom.2 ?_) hmore
  exact Or.inr (Or.inr (Or.inr (Or.inr
    ⟨f.name, mid, hname, f, Builtin.ofName?_name f, [], hargs, hcall⟩)))

/-- A function with its argument. -/
theorem readsAt_callOn {f : Builtin} {w : List Token} (arity : f.arity = 1)
    (argument : ReadsAt .pipe w e) (target : f = .del → ∃ p, e.path? = .ok p) :
    ReadsAt .atom (.identifier f.name :: .leftParen :: (w ++ [.rightParen])) (.call f [e]) := by
  intro ts mid hw hstop all rest hmore
  obtain ⟨mid₁, hname, hw⟩ := spells_cons.1 hw
  obtain ⟨mid₂, hopen, hw⟩ := spells_cons.1 hw
  obtain ⟨mid₃, hw, hclose⟩ := spells_concat.1 hw
  have hin := argument mid₂ mid₃ hw (hclose.stops (by decide))
  have hargs : Reads (arguments none mid₁) [e] mid :=
    reads_arguments.2 (Or.inr ⟨mid₂, hopen, e, mid₃, hin, hclose, rfl⟩)
  have hcall : callOf f [e] = .ok (.call f [e]) := by
    refine callOf_eq_ok.2 ⟨arity.symm, fun hf target' he => ?_, rfl⟩
    obtain rfl := (List.cons.inj he).1
    exact target hf
  refine operand_of_atom hname (by simp) (reads_atom.2 ?_) hmore
  exact Or.inr (Or.inr (Or.inr (Or.inr
    ⟨f.name, mid₁, hname, f, Builtin.ofName?_name f, [e], hargs, hcall⟩)))

/-! ### Every derivation

  The rules put together, by recursion on the derivation. -/

mutual
/-- **A word is read as what it stands for.** -/
theorem readsAt_of_derives {level : Level} {w : List Token} {e : Expr} :
    Derives level w e → ReadsAt level w e
  | .pipeEnd only => readsAt_pipeEnd (readsAt_of_derives only)
  | .pipe left plain right => by
      rw [← pipeOf_of_ne plain]
      exact readsAt_pipe (readsAt_of_derives left) (readsAt_of_derives right)
  | .descendPipe left right => readsAt_pipe (readsAt_of_derives left) (readsAt_of_derives right)
  | .listStart only => readsAt_listStart (readsAt_of_derives only)
  | .list left right => readsAt_list (readsAt_of_derives left) (readsAt_of_derives right)
  | .noAssignment only => readsAt_noAssignment (readsAt_of_derives only)
  | .assign left target right =>
      have hop : assignOp? .assign = some .store := rfl
      readsAt_assign hop (readsAt_of_derives left) target (readsAt_of_derives right)
  | .update left target right =>
      have hop : assignOp? .updateAssign = some .change := rfl
      readsAt_assign hop (readsAt_of_derives left) target (readsAt_of_derives right)
  | .alternativeEnd only => readsAt_alternativeEnd (readsAt_of_derives only)
  | .alternative left right =>
      readsAt_alternative (readsAt_of_derives left) (readsAt_of_derives right)
  | .noComparison only => readsAt_noComparison (readsAt_of_derives only)
  | .compare left sign right =>
      readsAt_compare sign (readsAt_of_derives left) (readsAt_of_derives right)
  | .concat terms texts => by
      rw [← sumOf_of_concatenates texts]
      exact readsAt_sum (readsTerms_of_terms terms)
  | .sum terms numbers => by
      rw [← sumOf_of_not_concatenates numbers]
      exact readsAt_sum (readsTerms_of_terms terms)
  | .productStart only => readsAt_productStart (readsAt_of_derives only)
  | .product left sign right =>
      readsAt_product sign (readsAt_of_derives left) (readsAt_of_derives right)
  | .positive only => readsAt_positive (readsAt_of_derives only)
  | .negativeNumber h => readsAt_negative (readsAt_of_derives h)
  | .negative h other => by
      rw [← negated_of_ne other]
      exact readsAt_negative (readsAt_of_derives h)
  | .walkStart only => readsAt_walkStart (readsAt_of_derives only)
  | .walkFromInput left step => readsAt_walk (readsAt_of_derives left) step
  | .walk left further step => by
      rw [← stepOf_of_ne further]
      exact readsAt_walk (readsAt_of_derives left) step
  | .identity => readsAt_identity
  | .recursiveDescent => readsAt_literal rfl
  | .field _ => readsAt_literal rfl
  | .number _ => readsAt_literal rfl
  | .string _ => readsAt_literal rfl
  | .boolean _ => readsAt_literal rfl
  | .null => readsAt_literal rfl
  | .group inner => readsAt_group (readsAt_of_derives inner)
  | .emptyCollection => readsAt_emptyCollection
  | .collect inner => readsAt_collect (readsAt_of_derives inner)
  | .call arity => readsAt_call arity
  | .callOn arity argument target => readsAt_callOn arity (readsAt_of_derives argument) target

/-- The terms of a sum are read as what they stand for. -/
theorem readsTerms_of_terms {w : List Token} {first : Expr} {more : List (ArithOp × Expr)} :
    Terms w first more → ReadsTerms w first more
  | .start only => readsTerms_start (readsAt_of_derives only)
  | .more left sign right =>
      readsTerms_more (readsTerms_of_terms left) sign (readsAt_of_derives right)
end

end BlockQuery.Grammar

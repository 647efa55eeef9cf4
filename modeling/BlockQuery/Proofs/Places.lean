/-
  Operands in their places.

  The text of an expression has no parentheses: an operand stands there as it is.  So it has to fit
  its place (`places`), where the grammar takes what is at least as tight as the place asks for, and
  the terms of a sum must not read as a concatenation.  `Ungrouped` says that this is so in all of
  an expression.

  Pipes and lists ask for nothing, as what is grouped otherwise is read in one grouping.  The
  grouping shows neither in the words (`words_regrouped`) nor in the places
  (`ungrouped_of_regrouped`).

  The text of a sum needs care, because its terms are read in one row and put together only when all
  are known (`terms`).  A sum on the left of a sum is part of the row, so the operands in the text
  of an expression are not its operands: `places` lists them, with the levels that the grammar has
  there.

  That an operand fits is not decided operator by operator.  The rules of the grammar ask for
  levels, a word at one level is a word at every looser one, and so the ranks of the two levels are
  compared.
-/
import BlockQuery.Proofs.QueryWords
import BlockQuery.Proofs.Regrouped

namespace BlockQuery

open BlockQuery.Derivation

/-! ## Levels

  The levels of the grammar in their order, as numbers.  What stands at one level stands at every
  looser one, so a place asks for a rank and gets at least that. -/

namespace Derivation

/-- The place of a level in the order from loose to tight. -/
def Level.rank : Level → Nat
  | pipe => 0
  | list => 1
  | assignment => 2
  | alternative => 3
  | comparison => 4
  | sum => 5
  | product => 6
  | operand => 7
  | walk => 8
  | atom => 9

/-- What stands at a level also stands at the next looser one.  The grammar has one rule for this on
    each level, in which nothing is joined. -/
theorem Level.exists_looser {level : Level} (h : 0 < level.rank) :
    ∃ looser : Level, looser.rank + 1 = level.rank ∧
      ∀ w e, Derives level w e → Derives looser w e := by
  cases level with
  | pipe => cases h
  | list => exact ⟨.pipe, rfl, fun _ _ => .pipeEnd⟩
  | assignment => exact ⟨.list, rfl, fun _ _ => .listStart⟩
  | alternative => exact ⟨.assignment, rfl, fun _ _ => .noAssignment⟩
  | comparison => exact ⟨.alternative, rfl, fun _ _ => .alternativeEnd⟩
  | sum => exact ⟨.comparison, rfl, fun _ _ => .noComparison⟩
  | product => exact ⟨.sum, rfl, fun _ _ h => .sum (.start h) fun hmore => hmore.1 rfl⟩
  | operand => exact ⟨.product, rfl, fun _ _ => .productStart⟩
  | walk => exact ⟨.operand, rfl, fun _ _ => .positive⟩
  | atom => exact ⟨.walk, rfl, fun _ _ => .walkStart⟩

/-- Different levels have different ranks. -/
theorem Level.rank_inj {level level' : Level} (h : level.rank = level'.rank) : level = level' := by
  cases level <;> cases level' <;> first | rfl | cases h

/-- What stands at a level stands at all looser ones, one level after the other.  By induction on
    how many ranks lie between. -/
theorem Derives.loosen {level level' : Level} {w : List Token} {e : Expr} (h : Derives level w e)
    (hle : level'.rank ≤ level.rank) : Derives level' w e := by
  induction hn : level.rank - level'.rank generalizing level with
  | zero =>
    obtain rfl : level = level' := Level.rank_inj (by omega)
    exact h
  | succ n ih =>
    have hpos : 0 < level.rank := by omega
    obtain ⟨looser, hlooser, hderives⟩ := Level.exists_looser hpos
    exact ih (hderives w e h) (by omega) (by omega)

end Derivation

namespace Expr

/-- The tightest level at which the words of an expression can stand.  A negative number is written
    with its sign, which makes it an operand; an index written alone is a step behind a dot. -/
def level : Expr → Level
  | pipe _ _ => .pipe
  | descendPipe _ => .pipe
  | comma _ _ => .list
  | assign _ _ => .assignment
  | update _ _ => .assignment
  | alternative _ _ => .alternative
  | compare _ _ _ => .comparison
  | concat _ => .sum
  | arithmetic .add _ _ => .sum
  | arithmetic .subtract _ _ => .sum
  | arithmetic .multiply _ _ => .product
  | arithmetic .divide _ _ => .product
  | literal (.number n) => if n.negative then .operand else .atom
  | index _ => .walk
  | slice _ _ => .walk
  | iterate => .walk
  | _ => .atom

/-! ## Places

  What an operand must be in the text is a condition on its level alone, apart from sums.  The
  condition goes through all of the expression, so the induction to use it is one along the places
  and not along the operands (`induct_places`). -/

/-- The terms of a sum, the first one apart, each with the operator in front of it.  Sums on the
    left are opened, since their words are the front of the same row; a sum on the right is one
    term, which has no place there. -/
def terms : Expr → Expr × List (ArithOp × Expr)
  | arithmetic .add left right => ((terms left).1, (terms left).2 ++ [(.add, right)])
  | arithmetic .subtract left right => ((terms left).1, (terms left).2 ++ [(.subtract, right)])
  | e => (e, [])

/-- The operands in the text of an expression, each with the level that its place asks for. -/
def places (e : Expr) : List (Level × Expr) :=
  match e with
  | collect inner => [(.pipe, inner)]
  | pipe left right => [(.pipe, left), (.pipe, right)]
  | descendPipe inner => [(.pipe, inner)]
  | comma left right => [(.list, left), (.list, right)]
  | alternative left right => [(.comparison, left), (.alternative, right)]
  | concat parts => parts.map fun c => (.product, c)
  | arithmetic .multiply left right => [(.product, left), (.operand, right)]
  | arithmetic .divide left right => [(.product, left), (.operand, right)]
  | arithmetic _ _ _ => (.product, e.terms.1) :: e.terms.2.map fun m => (.product, m.2)
  | compare _ left right => [(.sum, left), (.sum, right)]
  | call _ args => args.map fun c => (.pipe, c)
  | assign _ value => [(.alternative, value)]
  | update _ change => [(.alternative, change)]
  | _ => []

/-- Whether an expression needs no parentheses in its text: all its operands fit their places, and
    no sum in it reads as a concatenation.  Of an expression it asks only what can be seen in its
    own row, and of its operands the same. -/
inductive Ungrouped : Expr → Prop where
  | of {e : Expr} (fit : ∀ p ∈ e.places, p.1.rank ≤ p.2.level.rank)
      (sum : ¬ Concatenates e.terms.1 e.terms.2) (inside : ∀ p ∈ e.places, Ungrouped p.2) :
      Ungrouped e

/-- What holds throughout a sum holds throughout its terms. -/
theorem throughout_terms {P : Expr → Prop} {e : Expr} (h : e.Throughout P) :
    e.terms.1.Throughout P ∧ ∀ m ∈ e.terms.2, m.2.Throughout P := by
  have more : ∀ {op left right}, (arithmetic op left right).Throughout P →
      (left.Throughout P → left.terms.1.Throughout P ∧ ∀ m ∈ left.terms.2, m.2.Throughout P) →
      left.terms.1.Throughout P ∧ ∀ m ∈ left.terms.2 ++ [(op, right)], m.2.Throughout P := by
    intro op left right h ih
    have hoperands := (throughout_iff.1 h).2
    obtain ⟨hfirst, hmore⟩ := ih (hoperands left (by simp [operands]))
    refine ⟨hfirst, fun m hm => ?_⟩
    rcases List.mem_append.1 hm with hm | hm
    · exact hmore m hm
    · rw [List.mem_singleton.1 hm]
      exact hoperands right (by simp [operands])
  induction e using terms.induct with
  | case1 left right ih => exact more h ih
  | case2 left right ih => exact more h ih
  | case3 e hadd hsubtract =>
    rw [terms.eq_3 e hadd hsubtract]
    exact ⟨h, by simp⟩

/-- What holds throughout the operands of an expression holds throughout those in its text, which
    are operands of operands where a sum has been opened. -/
theorem throughout_places {P : Expr → Prop} {e : Expr} (h : ∀ c ∈ e.operands, c.Throughout P) :
    ∀ p ∈ e.places, p.2.Throughout P := by
  have row : ∀ {op left right}, (∀ c ∈ operands (arithmetic op left right), c.Throughout P) →
      ∀ p ∈ (Level.product, left.terms.1) ::
        (left.terms.2 ++ [(op, right)]).map (fun m => (Level.product, m.2)), p.2.Throughout P := by
    intro op left right h
    obtain ⟨hfirst, hmore⟩ := throughout_terms (h left (by simp [operands]))
    refine List.forall_mem_cons.2 ⟨hfirst, fun p hp => ?_⟩
    obtain ⟨m, hm, rfl⟩ := List.mem_map.1 hp
    rcases List.mem_append.1 hm with hm | hm
    · exact hmore m hm
    · rw [List.mem_singleton.1 hm]
      exact h right (by simp [operands])
  cases e with
  | arithmetic op left right =>
    cases op with
    | add => exact row h
    | subtract => exact row h
    | multiply => simpa [places, operands] using h
    | divide => simpa [places, operands] using h
  | _ =>
    first
    | exact fun _ hp => absurd hp List.not_mem_nil
    | simpa [places, operands] using h

/-- Induction along the operands in the text of an expression.  It follows from the induction over
    expressions, by what holds throughout one. -/
@[elab_as_elim]
theorem induct_places {motive : Expr → Prop}
    (step : ∀ e, (∀ p ∈ e.places, motive p.2) → motive e) (e : Expr) : motive e := by
  have hall : e.Throughout motive := by
    induction e using Expr.induct with
    | step e ih =>
      exact throughout_iff.2 ⟨step e fun p hp => throughout_places ih p hp _ .self, ih⟩
  exact hall e .self

/-! ## Rows of terms

  A sum and a concatenation have the same words, term by term with a sign between them.  So the row
  is what the text shows, and what it is read as depends on the terms. -/

/-- The tokens of terms in a row: those of the first, and those of each other behind its sign. -/
def rowWords (first : Expr) (more : List (ArithOp × Expr)) : List Token :=
  first.words ++ more.flatMap fun m => m.1.sign :: m.2.words

/-- The words of an expression are those of its terms in a row.  By the recursion of `terms`, which
    goes down the left side only. -/
theorem words_eq_rowWords (e : Expr) : e.words = rowWords e.terms.1 e.terms.2 := by
  induction e using terms.induct with
  | case1 left right ih => simp [words, terms, rowWords, ih]
  | case2 left right ih => simp [words, terms, rowWords, ih]
  | case3 e hadd hsubtract => simp [terms.eq_3 e hadd hsubtract, rowWords]

/-- The words of a concatenation are those of a row in which all signs are plus. -/
theorem words_concat {first : Expr} {more : List (ArithOp × Expr)} (h : ∀ m ∈ more, m.1 = .add) :
    (concat (first :: more.map (·.2))).words = rowWords first more := by
  rw [words, wordsAll_eq_map]
  induction more generalizing first with
  | nil => simp [rowWords, List.intercalate]
  | cons m more ih =>
    rw [List.forall_mem_cons] at h
    have hmore := @ih m.2 h.2
    simp only [rowWords, List.intercalate, List.map_cons, List.intersperse_cons_cons,
      List.flatten_cons, List.flatMap_cons, h.1] at hmore ⊢
    rw [hmore]
    simp [ArithOp.sign]

/-- The terms of a sum are added and subtracted one after the other.  So opening a sum loses
    nothing: the tree can be made again from its terms. -/
theorem summed_terms (e : Expr) : summed e.terms.1 e.terms.2 = e := by
  induction e using terms.induct with
  | case1 left right ih =>
    rw [terms, summed, List.foldl_append]
    exact congrArg (arithmetic .add · right) ih
  | case2 left right ih =>
    rw [terms, summed, List.foldl_append]
    exact congrArg (arithmetic .subtract · right) ih
  | case3 e hadd hsubtract => rw [terms.eq_3 e hadd hsubtract]; rfl

/-- An operand of a sum is one term. -/
theorem terms_of_tight {e : Expr} (h : Level.product.rank ≤ e.level.rank) : e.terms = (e, []) := by
  cases e with
  | arithmetic op left right =>
    cases op with
    | add => simp [level, Level.rank] at h
    | subtract => simp [level, Level.rank] at h
    | multiply => rfl
    | divide => rfl
  | _ => rfl

/-- Adding terms one after the other puts them behind the terms of the first.  Only with signs of a
    sum does this hold: a product of two sums is no row. -/
theorem terms_summed {first : Expr} {more : List (ArithOp × Expr)}
    (h : ∀ m ∈ more, TermSign m.1.sign m.1) :
    (summed first more).terms = (first.terms.1, first.terms.2 ++ more) := by
  induction more generalizing first with
  | nil => simp [summed]
  | cons m more ih =>
    rw [List.forall_mem_cons] at h
    obtain ⟨op, right⟩ := m
    have hsummed : summed first ((op, right) :: more) = summed (arithmetic op first right) more :=
      rfl
    have hterms : (arithmetic op first right).terms =
        (first.terms.1, first.terms.2 ++ [(op, right)]) := by
      have hsign := h.1
      cases op with
      | add => rfl
      | subtract => rfl
      | multiply => cases hsign
      | divide => cases hsign
    rw [hsummed, ih h.2, hterms]
    simp

/-- A sum of several terms stands at the level of sums, and its terms are its operands. -/
theorem places_of_terms {e : Expr} (h : e.terms.2 ≠ []) :
    e.level = .sum ∧
      e.places = (.product, e.terms.1) :: e.terms.2.map fun m => (.product, m.2) := by
  cases e with
  | arithmetic op left right =>
    cases op with
    | add => exact ⟨rfl, rfl⟩
    | subtract => exact ⟨rfl, rfl⟩
    | multiply => exact absurd rfl h
    | divide => exact absurd rfl h
  | _ => exact absurd rfl h

/-! ## Groupings

  Pipes and lists may be grouped either way, and everything that was defined above is the same in
  both groupings: the words, the level, the terms and the places.  Where a pipe or a list is itself
  regrouped its places are not those of one operand each, so these two cases are taken apart
  (`ungrouped_pipe`, `ungrouped_comma`). -/

/-- Terms in another grouping. -/
def regroupedTerms (more : List (ArithOp × Expr)) : List (ArithOp × Expr) :=
  more.map fun m => (m.1, m.2.regrouped)

/-- The terms of a sum are grouped for themselves. -/
theorem terms_regrouped (e : Expr) :
    e.regrouped.terms = (e.terms.1.regrouped, regroupedTerms e.terms.2) := by
  induction e using terms.induct with
  | case1 left right ih => simp [regrouped, terms, ih, regroupedTerms]
  | case2 left right ih => simp [regrouped, terms, ih, regroupedTerms]
  | case3 e hadd hsubtract =>
    rw [terms.eq_3 e hadd hsubtract]
    cases e with
    | arithmetic op left right =>
      cases op with
      | add => exact absurd rfl (hadd left right)
      | subtract => exact absurd rfl (hsubtract left right)
      | multiply => rfl
      | divide => rfl
    | pipe left right =>
      rw [regrouped]
      rcases thenPipe_cases left.regrouped right.regrouped with ⟨a, b, h⟩ | ⟨b, h⟩ <;>
        rw [h] <;> rfl
    | comma left right =>
      obtain ⟨a, b, h⟩ := thenComma_cases left.regrouped right.regrouped
      rw [regrouped, h]
      rfl
    | _ => rfl

/-- Whether terms concatenate depends on whether one is a text, and grouping makes no texts, as it
    changes no literal and turns nothing into one. -/
theorem concatenates_regrouped {first : Expr} {more : List (ArithOp × Expr)} :
    Concatenates first.regrouped (regroupedTerms more) ↔ Concatenates first more := by
  have hmem : ∀ (s : String) (es : List Expr),
      literal (.string s) ∈ es.map regrouped ↔ literal (.string s) ∈ es := by
    intro s es
    rw [List.mem_map]
    constructor
    · rintro ⟨e, he, hleaf⟩
      rwa [(regrouped_eq_leaf rfl e).1 hleaf] at he
    · exact fun hs => ⟨_, hs, rfl⟩
  have hall : first.regrouped :: (regroupedTerms more).map (·.2) =
      (first :: more.map (·.2)).map regrouped := by simp [regroupedTerms]
  have hadd : (∀ m ∈ regroupedTerms more, m.1 = .add) ↔ ∀ m ∈ more, m.1 = .add := by
    simp only [regroupedTerms, List.forall_mem_map]
  rw [Concatenates, Concatenates, hall, hadd]
  simp only [hmem]
  simp [regroupedTerms]

/-- A pipe has the words of its parts, with a bar between, however it is grouped.  The grouping goes
    along the pipes of the left part, and keeps them in their order. -/
theorem words_thenPipe (a b : Expr) : (a.thenPipe b).words = a.words ++ .pipe :: b.words := by
  induction a using Expr.induct with
  | step a ih =>
    cases a with
    | pipe x y =>
      have hy := ih y (by simp [operands])
      simp [thenPipe, words, hy]
    | descendPipe y =>
      have hy := ih y (by simp [operands])
      simp [thenPipe, words, hy]
    | _ => rfl

/-- A list has the words of its parts, with a comma between, however it is grouped. -/
theorem words_thenComma (a b : Expr) : (a.thenComma b).words = a.words ++ .comma :: b.words := by
  induction b using Expr.induct with
  | step b ih =>
    cases b with
    | comma x y =>
      have hx := ih x (by simp [operands])
      simp [thenComma, words, hx]
    | _ => rfl

/-- The grouping does not show in the text.  By induction on the expression, whose operands are
    regrouped for themselves. -/
theorem words_regrouped (e : Expr) : e.regrouped.words = e.words := by
  induction e using Expr.induct with
  | step e ih =>
    have hall : ∀ es : List Expr, (∀ c ∈ es, c ∈ e.operands) →
        wordsAll (regroupedAll es) = wordsAll es := by
      intro es hes
      rw [regroupedAll_eq_map, wordsAll_eq_map, wordsAll_eq_map, List.map_map]
      exact List.map_congr_left fun c hc => ih c (hes c hc)
    cases e with
    | pipe left right =>
      rw [regrouped, words_thenPipe, words, ih left (by simp [operands]),
        ih right (by simp [operands])]
    | comma left right =>
      rw [regrouped, words_thenComma, words, ih left (by simp [operands]),
        ih right (by simp [operands])]
    | concat parts => rw [regrouped, words, words, hall parts fun c hc => hc]
    | call f args =>
      have hempty : (regroupedAll args).isEmpty = args.isEmpty := by
        rw [regroupedAll_eq_map, List.isEmpty_map]
      rw [regrouped, words, words, hall args fun c hc => hc, hempty]
    | collect inner => rw [regrouped, words, words, ih inner (by simp [operands])]
    | descendPipe inner => rw [regrouped, words, words, ih inner (by simp [operands])]
    | assign path value => rw [regrouped, words, words, ih value (by simp [operands])]
    | update path change => rw [regrouped, words, words, ih change (by simp [operands])]
    | alternative left right =>
      rw [regrouped, words, words, ih left (by simp [operands]), ih right (by simp [operands])]
    | arithmetic op left right =>
      rw [regrouped, words, words, ih left (by simp [operands]), ih right (by simp [operands])]
    | compare op left right =>
      rw [regrouped, words, words, ih left (by simp [operands]), ih right (by simp [operands])]
    | _ => rfl

/-- Grouping does not change at which level an expression stands. -/
theorem level_regrouped (e : Expr) : e.regrouped.level = e.level := by
  cases e with
  | pipe left right =>
    rw [regrouped]
    rcases thenPipe_cases left.regrouped right.regrouped with ⟨a, b, h⟩ | ⟨b, h⟩ <;> rw [h] <;> rfl
  | comma left right =>
    obtain ⟨a, b, h⟩ := thenComma_cases left.regrouped right.regrouped
    rw [regrouped, h]
    rfl
  | arithmetic op left right => cases op <;> rfl
  | _ => rfl

/-- Apart from pipes and lists, every operand is grouped in its place, and the level that the place
    asks for is the same. -/
theorem places_regrouped {e : Expr} (hpipe : ∀ a b, e ≠ pipe a b) (hcomma : ∀ a b, e ≠ comma a b) :
    e.regrouped.places = e.places.map fun p => (p.1, p.2.regrouped) := by
  cases e with
  | pipe left right => exact absurd rfl (hpipe left right)
  | comma left right => exact absurd rfl (hcomma left right)
  | concat parts => simp [regrouped, places, regroupedAll_eq_map]
  | call f args => simp [regrouped, places, regroupedAll_eq_map]
  | arithmetic op left right =>
    have hrow : ∀ e : Expr, (.product, e.regrouped.terms.1) ::
          e.regrouped.terms.2.map (fun m => (Level.product, m.2)) =
        ((Level.product, e.terms.1) :: e.terms.2.map fun m => (Level.product, m.2)).map
          fun p => (p.1, p.2.regrouped) := by
      intro e
      rw [terms_regrouped]
      simp [regroupedTerms]
    cases op with
    | add => exact hrow (arithmetic .add left right)
    | subtract => exact hrow (arithmetic .subtract left right)
    | multiply => rfl
    | divide => rfl
  | _ => rfl

/-- A pipe asks nothing of its parts but what they ask for themselves. -/
theorem ungrouped_pipe {a b : Expr} : (pipe a b).Ungrouped ↔ a.Ungrouped ∧ b.Ungrouped := by
  constructor
  · rintro ⟨-, -, inside⟩
    exact ⟨inside (.pipe, a) (by simp [places]), inside (.pipe, b) (by simp [places])⟩
  · intro h
    exact .of (by simp [places, Level.rank]) (fun hsum => hsum.1 rfl) (by simpa [places] using h)

/-- Nor does a pipe that starts at all nodes. -/
theorem ungrouped_descendPipe {b : Expr} : (descendPipe b).Ungrouped ↔ b.Ungrouped := by
  constructor
  · rintro ⟨-, -, inside⟩
    exact inside (.pipe, b) (by simp [places])
  · intro h
    exact .of (by simp [places, Level.rank]) (fun hsum => hsum.1 rfl) (by simpa [places] using h)

/-- A list asks that its parts be no pipes: a bar is looser than a comma, so the list would become a
    part of the pipe. -/
theorem ungrouped_comma {a b : Expr} : (comma a b).Ungrouped ↔
    (a.Ungrouped ∧ Level.list.rank ≤ a.level.rank) ∧
      b.Ungrouped ∧ Level.list.rank ≤ b.level.rank := by
  constructor
  · rintro ⟨fit, -, inside⟩
    exact ⟨⟨inside (.list, a) (by simp [places]), fit (.list, a) (by simp [places])⟩,
      inside (.list, b) (by simp [places]), fit (.list, b) (by simp [places])⟩
  · rintro ⟨⟨ha, hfita⟩, hb, hfitb⟩
    exact .of (by simpa [places] using ⟨hfita, hfitb⟩) (fun hsum => hsum.1 rfl)
      (by simpa [places] using ⟨ha, hb⟩)

/-- A pipe has no parentheses when its parts have none, however it is grouped.  By induction on the
    left part, along which the grouping goes. -/
theorem ungrouped_thenPipe {a b : Expr} :
    (a.thenPipe b).Ungrouped ↔ a.Ungrouped ∧ b.Ungrouped := by
  induction a using Expr.induct with
  | step a ih =>
    cases a with
    | pipe x y =>
      rw [thenPipe, ungrouped_pipe, ungrouped_pipe, ih y (by simp [operands]), and_assoc]
    | descendPipe y =>
      rw [thenPipe, ungrouped_descendPipe, ungrouped_descendPipe, ih y (by simp [operands])]
    | recursiveDescent =>
      have hwalk : recursiveDescent.Ungrouped :=
        .of (by simp [places]) (fun hsum => hsum.1 rfl) (by simp [places])
      exact ungrouped_descendPipe.trans (and_iff_right hwalk).symm
    | _ => exact ungrouped_pipe

/-- A list has no parentheses when its parts have none, however it is grouped. -/
theorem ungrouped_thenComma {a b : Expr} : (a.thenComma b).Ungrouped ↔ (comma a b).Ungrouped := by
  induction b using Expr.induct with
  | step b ih =>
    cases b with
    | comma x y =>
      obtain ⟨u, v, huv⟩ := thenComma_cases a x
      have hx := ih x (by simp [operands])
      rw [ungrouped_comma] at hx
      have hlevel : ∀ u v : Expr, Level.list.rank ≤ (comma u v).level.rank :=
        fun _ _ => Nat.le_refl _
      rw [thenComma, ungrouped_comma, hx, ungrouped_comma, ungrouped_comma, huv]
      simp only [hlevel, and_true, and_assoc]
    | _ => rfl

/-- What needs no parentheses in one grouping needs none.  The induction is along the places; a pipe
    and a list are taken apart first, and everything else is grouped place by place. -/
theorem ungrouped_of_regrouped {e : Expr} (h : e.regrouped.Ungrouped) : e.Ungrouped := by
  induction e using Expr.induct_places with
  | step e ih =>
    by_cases hpipe : ∃ a b, e = pipe a b
    · obtain ⟨a, b, rfl⟩ := hpipe
      rw [regrouped, ungrouped_thenPipe] at h
      exact ungrouped_pipe.2
        ⟨ih (.pipe, a) (by simp [places]) h.1, ih (.pipe, b) (by simp [places]) h.2⟩
    by_cases hcomma : ∃ a b, e = comma a b
    · obtain ⟨a, b, rfl⟩ := hcomma
      rw [regrouped, ungrouped_thenComma, ungrouped_comma, level_regrouped, level_regrouped] at h
      exact ungrouped_comma.2 ⟨⟨ih (.list, a) (by simp [places]) h.1.1, h.1.2⟩,
        ih (.list, b) (by simp [places]) h.2.1, h.2.2⟩
    obtain ⟨fit, sum, inside⟩ := h
    rw [places_regrouped (by simpa using hpipe) (by simpa using hcomma)] at fit inside
    rw [terms_regrouped, concatenates_regrouped] at sum
    refine .of (fun p hp => ?_) sum fun p hp => ?_
    · rw [← level_regrouped]
      exact fit _ (List.mem_map_of_mem hp)
    · exact ih p hp (inside _ (List.mem_map_of_mem hp))

end Expr

end BlockQuery

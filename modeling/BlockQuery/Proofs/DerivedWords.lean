/-
  What the words of an expression stand for.

  Where all operands fit their places, the words of an expression stand for it, grouped as they are
  read (`stands_of_ungrouped`).  The induction carries, beside what the words stand for by
  themselves, what they stand for in front of a pipe and behind a comma (`Stands`), because there
  they are grouped together with what stands on the other side.

  What is to be shown is too weak for the induction by itself.  The words of `a | b` are not derived
  as a pipe of what the words of `a` stand for, if `a` is a pipe: the grammar has only one rule for
  pipes, and it goes to the right.  So the words of `a` must be derived together with whatever comes
  behind the bar, and the words of a list together with whatever stands in front of the comma; that
  is what `piped` and `listed` say.
-/
import BlockQuery.Proofs.Places

namespace BlockQuery

open BlockQuery.Derivation

namespace Expr

/-! ## Terms and numbers

  The small words: terms in a row with their signs, numbers, which are two tokens if they are
  negative, and the integers in brackets. -/

/-- Terms in a row are derived one after the other.  By induction from the end of the row, as the
    rule adds a term behind those that are there. -/
theorem derives_row {first : Expr} {more : List (ArithOp × Expr)}
    (hfirst : Derives .product first.words first.regrouped)
    (hmore : ∀ m ∈ more, Derives .product m.2.words m.2.regrouped)
    (hsigns : ∀ m ∈ more, TermSign m.1.sign m.1) :
    Terms (rowWords first more) first.regrouped (regroupedTerms more) := by
  induction more using List.reverseRecOn with
  | nil => simpa [rowWords, regroupedTerms] using Terms.start hfirst
  | append_singleton more m ih =>
    simp only [List.mem_append, List.mem_singleton] at hmore hsigns
    have hfront := ih (fun m hm => hmore m (Or.inl hm)) fun m hm => hsigns m (Or.inl hm)
    have hall := Terms.more hfront (hsigns m (Or.inr rfl)) (hmore m (Or.inr rfl))
    simpa [rowWords, regroupedTerms] using hall

/-- The operators in a row of terms are plus and minus. -/
theorem termSign_terms (e : Expr) : ∀ m ∈ e.terms.2, TermSign m.1.sign m.1 := by
  induction e using terms.induct with
  | case1 left right ih =>
    simp only [terms, List.mem_append, List.mem_singleton]
    rintro m (hm | rfl)
    · exact ih m hm
    · exact .plus
  | case2 left right ih =>
    simp only [terms, List.mem_append, List.mem_singleton]
    rintro m (hm | rfl)
    · exact ih m hm
    · exact .minus
  | case3 e hadd hsubtract => simp [terms.eq_3 e hadd hsubtract]

/-- The words of a number stand for it.  A negative one stands at the level of operands, where a
    minus sign may be, and the sign in front of a number makes a number of it. -/
theorem derives_number (n : Decimal) :
    Derives (literal (.number n)).level n.words (literal (.number n)) := by
  rw [Decimal.words, level]
  cases hn : n.negative with
  | false => exact .number n
  | true =>
    have hneg : n.neg.neg = n := by simp [Decimal.neg]
    have hnumber := Derives.negativeNumber (.positive (.walkStart (.number n.neg)))
    rwa [hneg] at hnumber

/-- The words of an index are an integer, if it is in range. -/
theorem integer_indexWords {i : Int} (h : i.natAbs ≤ Grammar.maxIndex) :
    Integer (indexWords i) i := by
  have hwhole := Decimal.wholePart_ofNat h
  have hinteger : (Decimal.ofNat i.natAbs).isInteger = true := by
    simp [Decimal.isInteger, Decimal.ofNat, tenTo_zero, Nat.mod_one]
  have hsmall : (Decimal.ofNat i.natAbs).wholePart ≤ Grammar.maxIndex := by rwa [hwhole]
  rw [indexWords]
  split
  · have hi : -(i.natAbs : Int) = i := by omega
    have hread := Integer.negative hinteger hsmall
    rwa [hwhole, hi] at hread
  · have hi : (i.natAbs : Int) = i := by omega
    have hread := Integer.plain hinteger hsmall
    rwa [hwhole, hi] at hread

/-- The words of a bound are a bound. -/
theorem bound_boundWords {bound : Option Int} (h : ∀ i ∈ bound, i.natAbs ≤ Grammar.maxIndex) :
    Bound (boundWords bound) bound := by
  cases bound with
  | none => exact .missing
  | some i => exact .given (integer_indexWords (h i rfl))

/-- A step behind a dot and brackets. -/
theorem derives_bracketed {w : List Token} {e : Expr} (h : Bracketed w e) :
    Derives .walk (.dot :: .leftBracket :: w) e :=
  .walkFromInput (v := [.dot]) (.walkStart .identity) (.brackets h)

/-! ## Paths

  What an assignment writes to is kept as a path, and its words have to be derived as an expression
  that walks the path.  The steps behind the first one go on with a walk that is there already. -/

/-- The steps of a path go on with a walk.  The expression that stands in front may not be the input
    alone, since a first step behind it would stand for itself. -/
theorem derives_steps {path : Path} (hrange : path.InRange) {v : List Token} {l : Expr} {p : Path}
    (h : Derives .walk v l) (hl : l ≠ .identity) (hp : l.path? = .ok p) :
    ∃ l', Derives .walk (v ++ path.flatMap Step.words) l' ∧ l'.path? = .ok (p ++ path) := by
  induction path generalizing v l p with
  | nil => exact ⟨l, by simpa using h, by simpa using hp⟩
  | cons step path ih =>
    have hlater : Path.InRange path := fun i hi => hrange i (List.mem_cons_of_mem _ hi)
    obtain ⟨e, hstep, he⟩ : ∃ e, IsStep step.words e ∧ e.path? = .ok [step] := by
      cases step with
      | field name => exact ⟨.field name, .field name, rfl⟩
      | index i =>
        exact ⟨.index i, .brackets (.index (integer_indexWords (hrange i List.mem_cons_self))), rfl⟩
    have hpath : (Expr.pipe l e).path? = .ok (p ++ [step]) := by
      rw [path?, hp, he]
      rfl
    obtain ⟨l', hl', hp'⟩ := ih hlater (.walk h hl hstep) (by simp) hpath
    exact ⟨l', by simpa using hl', by simpa using hp'⟩

/-- The words of a path that starts with a name walk the path, and so do those of the empty path,
    which are a dot. -/
theorem derives_path {path : Path} (hplain : path.isPlain = true) (hrange : path.InRange) :
    ∃ l, Derives .walk path.words l ∧ l.path? = .ok path := by
  match path with
  | [] => exact ⟨.identity, .walkStart .identity, rfl⟩
  | .index i :: path => cases hplain
  | .field name :: path =>
    exact derives_steps (fun i hi => hrange i (List.mem_cons_of_mem _ hi))
      (.walkStart (.field name)) (by simp) rfl

/-! ## Rows of pipes and lists

  Here the groupings are put together.  For a pipe and for a list each of the three parts of
  `Stands` is one use of the hypothesis for one operand with the other operand behind it, and
  associativity of the grouping. -/

/-- What the words of an expression stand for: by themselves, in front of a pipe, and behind a
    comma.  A pipe stands behind no comma, so the third part asks for the level of a list. -/
structure Stands (e : Expr) : Prop where
  alone : Derives e.level e.words e.regrouped
  piped : ∀ w b, Derives .pipe w b → Derives .pipe (e.words ++ .pipe :: w) (e.regrouped.thenPipe b)
  listed : Level.list.rank ≤ e.level.rank → ∀ v a, Derives .list v a →
    Derives .list (v ++ .comma :: e.words) (a.thenComma e.regrouped)

/-- A list in front of a pipe.  Which rule it is depends on whether all nodes stand there. -/
theorem derives_pipeOf {v w : List Token} {a b : Expr} (ha : Derives .list v a)
    (hb : Derives .pipe w b) : Derives .pipe (v ++ .pipe :: w) (Grammar.pipeOf a b) := by
  by_cases hwalk : a = .recursiveDescent
  · subst hwalk
    exact .descendPipe ha hb
  · have hpipe : Grammar.pipeOf a b = .pipe a b := by
      cases a <;> first | rfl | exact absurd rfl hwalk
    rw [hpipe]
    exact .pipe ha hwalk hb

/-- What is no pipe and no list starts its own row.  In front of a pipe and behind a comma nothing
    has to be regrouped then. -/
theorem Stands.of_tight {e : Expr} {tight : Level} (h : Derives tight e.words e.regrouped)
    (hlevel : e.level = tight) (htight : Level.assignment.rank ≤ tight.rank) : Stands e where
  alone := hlevel ▸ h
  piped w b hb := by
    have hrow := derives_pipeOf (h.loosen (Nat.le_of_succ_le htight)) hb
    subst hlevel
    cases e with
    | pipe => simp [level, Level.rank] at htight
    | descendPipe => simp [level, Level.rank] at htight
    | comma => simp [level, Level.rank] at htight
    | _ => exact hrow
  listed _ v a ha := by
    have hrow := ha.list (h.loosen htight)
    subst hlevel
    cases e with
    | pipe => simp [level, Level.rank] at htight
    | descendPipe => simp [level, Level.rank] at htight
    | comma => simp [level, Level.rank] at htight
    | _ => exact hrow

/-- Grouping pipes is associative, as it only moves all bars to the right.  This is what lets the
    parts of a pipe be grouped one by one. -/
theorem thenPipe_assoc (a b c : Expr) :
    (a.thenPipe b).thenPipe c = a.thenPipe (b.thenPipe c) := by
  induction a using Expr.induct with
  | step a ih =>
    cases a with
    | pipe x y => exact congrArg (pipe x) (ih y (by simp [operands]))
    | descendPipe y => exact congrArg descendPipe (ih y (by simp [operands]))
    | _ => rfl

/-- So is grouping lists. -/
theorem thenComma_assoc (a b c : Expr) :
    (a.thenComma b).thenComma c = a.thenComma (b.thenComma c) := by
  induction c using Expr.induct with
  | step c ih =>
    cases c with
    | comma x y => exact congrArg (comma · y) (ih x (by simp [operands]))
    | _ => rfl

/-- A pipe: the left part in front of the bar, with the right part and all that follows it
    behind. -/
theorem Stands.pipe {left right : Expr} (hl : Stands left) (hr : Stands right) :
    Stands (.pipe left right) where
  alone := hl.piped _ _ (hr.alone.loosen (Nat.zero_le _))
  piped w b hb := by
    have hrow := hl.piped _ _ (hr.piped w b hb)
    rw [words, regrouped, thenPipe_assoc, List.append_assoc]
    exact hrow
  listed h := by simp [level, Level.rank] at h

/-- A walk over all nodes is in front of its pipe what the empty path is elsewhere. -/
theorem Stands.descendPipe {inner : Expr} (hi : Stands inner) : Stands (.descendPipe inner) where
  alone := derives_pipeOf (v := [.dotDot]) (a := .recursiveDescent)
    (Derives.recursiveDescent.loosen (by decide)) (hi.alone.loosen (Nat.zero_le _))
  piped w b hb := derives_pipeOf (v := [.dotDot]) (a := .recursiveDescent)
    (Derives.recursiveDescent.loosen (by decide)) (hi.piped w b hb)
  listed h := by simp [level, Level.rank] at h

/-- A list: the right part behind the comma, with the left part in front. -/
theorem Stands.comma {left right : Expr} (hl : Stands left) (hr : Stands right)
    (hleft : Level.list.rank ≤ left.level.rank) (hright : Level.list.rank ≤ right.level.rank) :
    Stands (.comma left right) where
  alone := hr.listed hright _ _ (hl.alone.loosen hleft)
  piped w b hb := by
    have hrow := derives_pipeOf (hr.listed hright _ _ (hl.alone.loosen hleft)) hb
    rw [regrouped]
    obtain ⟨x, y, hxy⟩ := thenComma_cases left.regrouped right.regrouped
    rw [hxy] at hrow ⊢
    exact hrow
  listed _ v a ha := by
    have hrow := hr.listed hright _ _ (hl.listed hleft v a ha)
    rw [words, regrouped, ← thenComma_assoc]
    simpa using hrow

/-! ## Expressions

  The induction is on how an expression is ungrouped, which gives each operand with its place.  All
  that is left is to pick the rule of the grammar for each kind of expression. -/

/-- A concatenation, whose parts are terms with plus signs between. -/
theorem stands_concat {parts : List Expr} (hformed : (concat parts).Formed)
    (hparts : ∀ c ∈ parts, Derives .product c.words c.regrouped) : Stands (concat parts) := by
  obtain ⟨first, more, rfl, hconcat⟩ := hformed
  rw [List.forall_mem_cons] at hparts
  have hrow : Terms (rowWords first more) first.regrouped (regroupedTerms more) := by
    refine derives_row hparts.1 (fun m hm => hparts.2 _ (List.mem_map_of_mem hm)) fun m hm => ?_
    rw [hconcat.2.1 m hm]
    exact .plus
  have hall := Derives.concat hrow (concatenates_regrouped.2 hconcat)
  have hsame : (regroupedTerms more).map (·.2) = regroupedAll (more.map (·.2)) := by
    simp [regroupedTerms, regroupedAll_eq_map]
  rw [hsame, ← words_concat hconcat.2.1] at hall
  exact .of_tight hall rfl (by decide)

/-- The words of a sum stand for its terms in a row, which is a sum again if the terms do not
    concatenate.  Its terms are grouped for themselves, and grouping makes no concatenation of
    them. -/
theorem derives_sum {e : Expr} (hsum : ¬ Concatenates e.terms.1 e.terms.2)
    (hfirst : Derives .product e.terms.1.words e.terms.1.regrouped)
    (hmore : ∀ m ∈ e.terms.2, Derives .product m.2.words m.2.regrouped) :
    Derives .sum e.words e.regrouped := by
  have hrow := Derives.sum (derives_row hfirst hmore (termSign_terms e))
    (mt concatenates_regrouped.1 hsum)
  have hterms := summed_terms e.regrouped
  rw [terms_regrouped] at hterms
  rwa [← words_eq_rowWords, hterms] at hrow

/-- A function, with the argument that its arity asks for.  For `del` the argument also walks a path
    after it is regrouped. -/
theorem stands_call {f : Builtin} {args : List Expr} (hfits : (call f args).CallFits)
    (hargs : ∀ a ∈ args, Derives .pipe a.words a.regrouped) : Stands (call f args) := by
  have harity : f.arity ≤ 1 := by cases f <;> decide
  obtain ⟨hlength, htarget⟩ := hfits
  match args with
  | [] => exact .of_tight (.call hlength.symm) rfl (by decide)
  | [a] =>
    have hcall := Derives.callOn hlength.symm (hargs a List.mem_cons_self) fun hdel => by
      obtain ⟨p, hp⟩ := htarget hdel a List.mem_cons_self
      have hsame := toOption_path?_regrouped a
      rw [hp] at hsame
      cases hq : a.regrouped.path? with
      | ok q => exact ⟨q, rfl⟩
      | error cause =>
        rw [hq] at hsame
        cases hsame
    refine .of_tight (?_ : Derives .atom _ _) rfl (by decide)
    simpa [words, wordsAll, regrouped, regroupedAll] using hcall
  | _ :: _ :: _ =>
    rw [← hlength] at harity
    simp at harity

/-- **Without parentheses, the words of an expression stand for it** where every operand fits its
    place, with pipes and lists grouped as they are read. -/
theorem stands_of_ungrouped {e : Expr} (h : e.Ungrouped)
    (hplain : e.Throughout fun n => n.isPlain = true) (hformed : e.Throughout Formed) :
    Stands e := by
  induction h with
  | @of e fit sum inside ih =>
    have hself := hplain e .self
    have hform := hformed e .self
    have hstands : ∀ p ∈ e.places, Stands p.2 := fun p hp =>
      ih p hp (throughout_places (throughout_iff.1 hplain).2 p hp)
        (throughout_places (throughout_iff.1 hformed).2 p hp)
    have hplace : ∀ p ∈ e.places, Derives p.1 p.2.words p.2.regrouped := fun p hp =>
      (hstands p hp).alone.loosen (fit p hp)
    cases e with
    | identity => exact .of_tight .identity rfl (by decide)
    | recursiveDescent => exact .of_tight .recursiveDescent rfl (by decide)
    | literal v =>
      cases v with
      | null => exact .of_tight .null rfl (by decide)
      | boolean b => exact .of_tight (.boolean b) rfl (by decide)
      | number n =>
        refine .of_tight (derives_number n) rfl ?_
        rw [level]
        split <;> decide
      | string s => exact .of_tight (.string s) rfl (by decide)
      | sequence items => exact hform.elim
      | mapping es => exact hform.elim
    | field name => exact .of_tight (.field name) rfl (by decide)
    | index i =>
      exact .of_tight (derives_bracketed (.index (integer_indexWords hform))) rfl (by decide)
    | slice start stop =>
      exact .of_tight (derives_bracketed
        (.slice (bound_boundWords hform.1) (bound_boundWords hform.2))) rfl (by decide)
    | iterate => exact .of_tight (derives_bracketed .iterate) rfl (by decide)
    | emptyCollection => exact .of_tight .emptyCollection rfl (by decide)
    | collect inner =>
      exact .of_tight (.collect (hplace (.pipe, inner) (by simp [places]))) rfl (by decide)
    | pipe left right =>
      exact .pipe (hstands (.pipe, left) (by simp [places]))
        (hstands (.pipe, right) (by simp [places]))
    | descendPipe inner => exact .descendPipe (hstands (.pipe, inner) (by simp [places]))
    | comma left right =>
      exact .comma (hstands (.list, left) (by simp [places]))
        (hstands (.list, right) (by simp [places]))
        (fit (.list, left) (by simp [places])) (fit (.list, right) (by simp [places]))
    | alternative left right =>
      exact .of_tight (.alternative (hplace (.comparison, left) (by simp [places]))
        (hplace (.alternative, right) (by simp [places]))) rfl (by decide)
    | concat parts =>
      exact stands_concat hform fun c hc => hplace (.product, c) (by simpa [places] using hc)
    | arithmetic op left right =>
      have hterms : places (arithmetic op left right) =
            (.product, (arithmetic op left right).terms.1) ::
              (arithmetic op left right).terms.2.map (fun m => (.product, m.2)) →
          Derives .sum (arithmetic op left right).words (arithmetic op left right).regrouped := by
        intro hrow
        rw [hrow, List.forall_mem_cons] at hplace
        exact derives_sum sum hplace.1 fun m hm => hplace.2 _ (List.mem_map_of_mem hm)
      cases op with
      | add => exact .of_tight (hterms rfl) rfl (by decide)
      | subtract => exact .of_tight (hterms rfl) rfl (by decide)
      | multiply =>
        exact .of_tight (.product (hplace (.product, left) (by simp [places])) .star
          (hplace (.operand, right) (by simp [places]))) rfl (by decide)
      | divide =>
        exact .of_tight (.product (hplace (.product, left) (by simp [places])) .slash
          (hplace (.operand, right) (by simp [places]))) rfl (by decide)
    | compare op left right =>
      have hsign : CompareSign op.sign op := by cases op <;> constructor
      exact .of_tight (.compare (hplace (.sum, left) (by simp [places])) hsign
        (hplace (.sum, right) (by simp [places]))) rfl (by decide)
    | call f args =>
      exact stands_call hform.callFits fun a ha => hplace (.pipe, a) (by simpa [places] using ha)
    | assign path value =>
      obtain ⟨l, hl, hp⟩ := derives_path hself hform
      exact .of_tight (.assign (hl.loosen (by decide)) hp
        (hplace (.alternative, value) (by simp [places]))) rfl (by decide)
    | update path change =>
      obtain ⟨l, hl, hp⟩ := derives_path hself hform
      exact .of_tight (.update (hl.loosen (by decide)) hp
        (hplace (.alternative, change) (by simp [places]))) rfl (by decide)

end Expr

end BlockQuery

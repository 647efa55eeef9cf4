/-
  The text of a compiled query as a query.

  Messages show an expression as a query text.  Its words are those of the expression
  (`puts_chars`); they stand for the expression, grouped as they are read, if it needs no
  parentheses (`stands_of_ungrouped`), and for anything else if it does
  (`ungrouped_of_derives`).  The grouping does not change what the query emits.

  What the text leaves out are the parentheses, and the quotes of names that are not written as
  they are.

  The condition that no parentheses are needed is exact, because both halves are about the same
  words: the words of the expression stand for something else if it needs parentheses, and a word
  stands for one thing only.  That the words are those of the text is a matter of characters, and
  that a query is compiled to what its words stand for is known of all queries; so the theorem only
  joins three others.
-/
import BlockQuery.Proofs.DerivedWords
import BlockQuery.Proofs.IntegerDivision
import BlockQuery.Proofs.WordCount

namespace BlockQuery

open BlockQuery.Expr BlockQuery.Derivation

/-! ## Words of queries

  A query may start with a pipe, which is then left out.  The words of an expression never do, so
  nothing is left out of them. -/

/-- No text of an expression starts with a pipe. -/
theorem Expr.exists_words_cons {e : Expr} (h : e.Throughout Formed) :
    ∃ t w, e.words = t :: w ∧ t ≠ .pipe := by
  induction e using Expr.induct with
  | step e ih =>
    have hform := h e .self
    have first : ∀ c ∈ e.operands, ∀ more, ∃ t w, c.words ++ more = t :: w ∧ t ≠ .pipe := by
      intro c hc more
      obtain ⟨t, w, hw, ht⟩ := ih c hc ((throughout_iff.1 h).2 c hc)
      exact ⟨t, w ++ more, by rw [hw, List.cons_append], ht⟩
    have path : ∀ (p : Path) more, ∃ t w, p.words ++ more = t :: w ∧ t ≠ .pipe := by
      intro p more
      match p with
      | [] => exact ⟨_, _, rfl, by simp⟩
      | .field name :: p => exact ⟨_, _, rfl, by simp⟩
      | .index i :: p => exact ⟨_, _, rfl, by simp⟩
    cases e with
    | literal v =>
      cases v with
      | number n =>
        rw [words, Value.words, Decimal.words]
        split <;> exact ⟨_, _, rfl, by simp⟩
      | sequence items => exact hform.elim
      | mapping es => exact hform.elim
      | _ => exact ⟨_, _, rfl, by simp⟩
    | pipe left right => exact first left (by simp [operands]) _
    | comma left right => exact first left (by simp [operands]) _
    | alternative left right => exact first left (by simp [operands]) _
    | arithmetic op left right => exact first left (by simp [operands]) _
    | compare op left right => exact first left (by simp [operands]) _
    | concat parts =>
      obtain ⟨a, more, rfl, hconcat⟩ := hform
      rw [words_concat hconcat.2.1]
      exact first a (by simp [operands]) _
    | assign p value => exact path p _
    | update p change => exact path p _
    | _ => exact ⟨_, _, rfl, by simp⟩

/-- The words of an expression stand for its grouping as a query exactly where the expression needs
    no parentheses. -/
theorem Expr.derivesQuery_words {e : Expr} (hplain : e.Throughout fun n => n.isPlain = true)
    (hformed : e.Throughout Formed) : DerivesQuery e.words e.regrouped ↔ e.Ungrouped := by
  constructor
  · intro d
    obtain ⟨t, w, hw, ht⟩ := exists_words_cons hformed
    generalize hword : e.words = word at d
    cases d with
    | plain d =>
      subst hword
      exact ungrouped_of_derives d
    | piped d =>
      rw [hw] at hword
      exact absurd (List.cons.inj hword).1 ht
  · intro h
    exact .plain ((stands_of_ungrouped h hplain hformed).alone.loosen (Nat.zero_le _))

/-! ## Texts of queries

  The text is compiled, not only parsed: it has no fault in its characters, it is read to its end,
  and the result is the expression in one grouping. -/

/-- **The text of a compiled query is that query again where it needs no parentheses**, and only
    there.  The names and texts of the query have to be written as they are.  The text compiles to
    the query with its pipes and lists grouped as they are read, which on every document and with
    all options gives the same stream or fails as well. -/
theorem Query.compile_text {source : String} {q : Query} (h : Query.compile source = .ok q)
    (hplain : q.expr.Throughout fun n => n.isPlain = true) :
    let q' : Query := ⟨q.expr.text, q.expr.regrouped⟩
    (Query.compile q.expr.text = .ok q' ↔ q.expr.Ungrouped) ∧
      ∀ options document,
        (q'.run options document).toOption = (q.run options document).toOption := by
  intro q'
  have hformed := Query.formed_of_compile h
  refine ⟨?_, fun options document => toOption_eval_regrouped options q.expr document⟩
  obtain ⟨hfault, hwords⟩ : (Lexemes.ofChars q.expr.chars).fault = none ∧
      (Lexemes.ofChars q.expr.chars).list.map (·.token) = q.expr.words :=
    (Lexeme.puts_chars hplain hformed).scans _
  have hread : Query.compile q.expr.text = .ok q' ↔
      Expr.ofLexemes (Lexemes.ofChars q.expr.chars) = .ok q.expr.regrouped := by
    rw [Query.compile, Expr.text, String.toList_ofList, map_eq_ok]
    constructor
    · rintro ⟨e, he, heq⟩
      have hsame : e = q.expr.regrouped := congrArg Query.expr heq
      exact hsame ▸ he
    · exact fun he => ⟨_, he, rfl⟩
  rw [hread, Expr.ofLexemes_iff_derivesQuery hfault, hwords]
  exact derivesQuery_words hplain hformed

/-- A chain of steps and a list in parentheses need none in a row of pipes. -/
theorem Query.compile_text_row :
    let source := ".a.b | (.c, -1)"
    let list := Expr.comma (.field "c") (.literal (.number (Decimal.ofNat 1).neg))
    let q : Query := ⟨source, .pipe (.pipe (.field "a") (.field "b")) list⟩
    let q' : Query := ⟨".a | .b | .c, -1", .pipe (.field "a") (.pipe (.field "b") list)⟩
    Query.compile source = .ok q ∧ q.expr.text = q'.source ∧ Query.compile q'.source = .ok q' := by
  intro source list q q'
  have hminus : Derives .operand [.minus, .number (.ofNat 1)]
      (.literal (.number (Decimal.ofNat 1).neg)) :=
    .negativeNumber (.positive (.walkStart (.number (.ofNat 1))))
  have hlist : Derives .list ([.field "c"] ++ .comma :: [.minus, .number (.ofNat 1)]) list :=
    .list ((Derives.field "c").loosen (by decide)) (hminus.loosen (by decide))
  have hwalk : Derives .walk ([.field "a"] ++ [.field "b"]) (.pipe (.field "a") (.field "b")) :=
    .walk (.walkStart (.field "a")) (by simp) (.field "b")
  have hcompile : Query.compile source = .ok q :=
    Query.compile_of_derives (by decide +kernel) (by decide +kernel)
      (.pipe (hwalk.loosen (by decide)) (by simp)
        ((Derives.group (.pipeEnd hlist)).loosen (by decide)))
  have hplain : q.expr.Throughout fun n => n.isPlain = true :=
    .of_two rfl rfl (.of_two rfl rfl (.of_none (by decide) rfl) (.of_none (by decide) rfl))
      (.of_two rfl rfl (.of_none (by decide) rfl) (.of_none rfl rfl))
  have hleaf : ∀ e : Expr, e.places = [] → e.terms.2 = [] → e.Ungrouped := fun e hplaces hterms =>
    .of (by simp [hplaces]) (fun hsum => hsum.1 hterms) (by simp [hplaces])
  have hungrouped : q.expr.Ungrouped :=
    ungrouped_pipe.2 ⟨ungrouped_pipe.2 ⟨hleaf _ rfl rfl, hleaf _ rfl rfl⟩,
      ungrouped_comma.2 ⟨⟨hleaf _ rfl rfl, by decide⟩, hleaf _ rfl rfl, by decide⟩⟩
  exact ⟨hcompile, by decide +kernel, ((Query.compile_text hcompile hplain).1.2 hungrouped)⟩

/-- The text of a product with a sum in it is that of another query, which emits something else. -/
theorem Query.text_drops_parentheses :
    let number := fun n => Expr.literal (.number (.ofNat n))
    let q : Query :=
      ⟨"(1 + 2) * 3", .arithmetic .multiply (.arithmetic .add (number 1) (number 2)) (number 3)⟩
    let q' : Query :=
      ⟨"1 + 2 * 3", .arithmetic .add (number 1) (.arithmetic .multiply (number 2) (number 3))⟩
    Query.compile q.source = .ok q ∧ q.expr.text = q'.source ∧ Query.compile q'.source = .ok q' ∧
      q.run {} .null = .ok [.ofNat 9] ∧ q'.run {} .null = .ok [.ofNat 7] := by
  intro number q q'
  have hnumber : ∀ n, Derives .atom [.number (.ofNat n)] (number n) := fun n => .number _
  have hsum : Derives .sum ([.number (.ofNat 1)] ++ .plus :: [.number (.ofNat 2)])
      (.arithmetic .add (number 1) (number 2)) :=
    .sum (.more (.start ((hnumber 1).loosen (by decide))) .plus ((hnumber 2).loosen (by decide)))
      (by simp [Concatenates, number])
  have hproduct : Derives .product ([.number (.ofNat 2)] ++ .star :: [.number (.ofNat 3)])
      (.arithmetic .multiply (number 2) (number 3)) :=
    .product ((hnumber 2).loosen (by decide)) .star ((hnumber 3).loosen (by decide))
  have hgroup : Derives .product
      ((.leftParen :: ([.number (.ofNat 1), .plus, .number (.ofNat 2)] ++ [.rightParen])) ++
        .star :: [.number (.ofNat 3)]) q.expr :=
    .product ((Derives.group (hsum.loosen (by decide))).loosen (by decide)) .star
      ((hnumber 3).loosen (by decide))
  have hrow : Derives .sum ([.number (.ofNat 1)] ++
      .plus :: [.number (.ofNat 2), .star, .number (.ofNat 3)]) q'.expr :=
    .sum (.more (.start ((hnumber 1).loosen (by decide))) .plus hproduct)
      (by simp [Concatenates, number])
  have hadd : ∀ {l r : Expr} {m n d : Decimal}, l.eval {} .null = .ok [.number m] →
      r.eval {} .null = .ok [.number n] → m.add? n = some d →
      (Expr.arithmetic .add l r).eval {} .null = .ok [.number d] := by
    intro l r m n d hl hr hd
    rw [eval_arithmetic hl hr, ArithOp.apply, hd]
    rfl
  have hmultiply : ∀ {l r : Expr} {m n d : Decimal}, l.eval {} .null = .ok [.number m] →
      r.eval {} .null = .ok [.number n] → m.mul? n = some d →
      (Expr.arithmetic .multiply l r).eval {} .null = .ok [.number d] := by
    intro l r m n d hl hr hd
    rw [eval_arithmetic hl hr, ArithOp.apply, hd]
    rfl
  have hvalue : ∀ n, (number n).eval {} .null = .ok [.number (.ofNat n)] := fun n => rfl
  refine ⟨?_, by decide +kernel, ?_, ?_, ?_⟩
  · exact Query.compile_of_derives (by decide +kernel) (by decide +kernel)
      (hgroup.loosen (by decide))
  · exact Query.compile_of_derives (by decide +kernel) (by decide +kernel) (hrow.loosen (by decide))
  · exact hmultiply (hadd (hvalue 1) (hvalue 2) (d := .ofNat 3) (by decide +kernel)) (hvalue 3)
      (by decide +kernel)
  · exact hadd (hvalue 1) (hmultiply (hvalue 2) (hvalue 3) (d := .ofNat 6) (by decide +kernel))
      (by decide +kernel)

end BlockQuery

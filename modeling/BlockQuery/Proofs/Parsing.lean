/-
  A query is accepted exactly when its tokens stand for a tree.

  That tree is what is read, so that there is only one.  A pipe in front of everything is idle: no
  pipe starts with one, so the two ways to read a query do not meet.

  Both directions are there for every word that ends where the lexemes end (`pipe_sound`,
  `readsAt_of_derives`), and at the end nothing is left that could go on.  That a word stands for
  one tree only needs no look at the rules: a reader is a function, and it reads every tree that the
  word stands for.
-/
import BlockQuery.Proofs.ReadsComplete

namespace BlockQuery.Grammar

open BlockQuery.Derivation

variable {ts rest : List Lexeme} {e : Expr}

/-! ## Queries

  From a pipe that is read off the front of some lexemes to a pipe that takes them all. -/

/-- A pipe that takes all lexemes is read exactly when their tokens stand for it. -/
theorem reads_pipe_iff :
    Reads (pipe none ts) e [] ↔ Derives .pipe (ts.map (·.token)) e := by
  -- a word that takes all lexemes is the word of their tokens
  have hall : ∀ w, Spells w ts [] ↔ ts.map (·.token) = w := by
    intro w
    constructor
    · rintro ⟨us, hw, rfl⟩
      rw [List.append_nil]
      exact hw
    · exact fun hw => ⟨ts, hw, (List.append_nil ts).symm⟩
  constructor
  · intro h
    obtain ⟨w, hw, d⟩ := pipe_sound h
    rw [(hall w).1 hw]
    exact d
  · intro d
    refine readsAt_of_derives d ts [] ((hall _).2 rfl) ?_
    -- nothing is left with which a pipe could go on
    rintro t mid ⟨l, -, h⟩
    exact absurd h (by simp)

end BlockQuery.Grammar

namespace BlockQuery

open Grammar BlockQuery.Derivation

/-- The expression of lexemes without a fault is a pipe that takes them all, but for an idle pipe in
    front. -/
theorem Expr.ofLexemes_eq_ok {ts : Lexemes} (h : ts.fault = none) {e : Expr} :
    Expr.ofLexemes ts = .ok e ↔ (NotNext ts.list .pipe ∧ Reads (Grammar.pipe none ts.list) e []) ∨
      ∃ mid, Next ts.list .pipe mid ∧ Reads (Grammar.pipe none mid) e [] := by
  obtain ⟨list, fault⟩ := ts
  obtain rfl : fault = none := h
  simp only [Expr.ofLexemes]
  refine (reads_all (fun x hx => by rw [hx]; rfl) fun x l ls hx => ⟨_, by rw [hx]; rfl⟩).trans ?_
  split
  · -- an idle pipe: the query is what stands behind it
    rename_i start stop body
    have hnext : Next (⟨.pipe, start, stop⟩ :: body) .pipe body := ⟨_, rfl, rfl⟩
    constructor
    · exact fun hpipe => Or.inr ⟨body, hnext, hpipe⟩
    · rintro (⟨hnot, -⟩ | ⟨mid, hmid, hpipe⟩)
      · exact absurd hnext (hnot body)
      · obtain ⟨-, rfl⟩ := hnext.unique hmid
        exact hpipe
  · rename_i hne
    have hnot : NotNext list .pipe := by
      rintro body ⟨⟨t, start, stop⟩, rfl, rfl⟩
      exact hne start stop body rfl
    -- the reader's type depends on the lexemes, so they are exchanged as a whole
    have hcongr : ∀ body, body = list →
        (Reads (Grammar.pipe none body) e [] ↔ Reads (Grammar.pipe none list) e []) := by
      rintro body rfl
      exact Iff.rfl
    refine (hcongr _ ?_).trans ?_
    · split
      · exact absurd rfl (hne _ _ _)
      · rfl
    · constructor
      · exact fun hpipe => Or.inl ⟨hnot, hpipe⟩
      · rintro (⟨-, hpipe⟩ | ⟨mid, hmid, -⟩)
        · exact hpipe
        · exact absurd hmid (hnot mid)

/-- Lexemes without a fault are a query exactly when their tokens stand for a tree, with or without
    an idle pipe in front. -/
theorem Expr.ofLexemes_iff_derivesQuery {ts : Lexemes} (h : ts.fault = none) {e : Expr} :
    Expr.ofLexemes ts = .ok e ↔ DerivesQuery (ts.list.map (·.token)) e := by
  rw [Expr.ofLexemes_eq_ok h]
  constructor
  · rintro (⟨-, hpipe⟩ | ⟨mid, ⟨l, hl, hlist⟩, hpipe⟩)
    · exact .plain (reads_pipe_iff.1 hpipe)
    · rw [hlist, List.map_cons, hl]
      exact .piped (reads_pipe_iff.1 hpipe)
  · intro d
    generalize hw : ts.list.map (·.token) = w at d
    cases d with
    | plain d =>
      subst hw
      have hpipe := reads_pipe_iff.2 d
      exact Or.inl ⟨(notNext_of_pipe hpipe).2, hpipe⟩
    | piped d =>
      obtain ⟨l, mid, hlist, hl, hmid⟩ := List.map_eq_cons_iff.1 hw
      subst hmid
      exact Or.inr ⟨mid, ⟨l, hl, hlist⟩, reads_pipe_iff.2 d⟩

/-- No word stands for two trees. -/
theorem Derivation.DerivesQuery.tree_eq {w : List Token} {e e' : Expr} (h : DerivesQuery w e)
    (h' : DerivesQuery w e') : e = e' := by
  -- any lexemes with these tokens are read as either tree
  have hword : (w.map fun t => (⟨t, 0, 0⟩ : Lexeme)).map (·.token) = w := by
    rw [List.map_map]
    exact List.map_id w
  have read : ∀ e, DerivesQuery w e →
      Expr.ofLexemes ⟨w.map fun t => ⟨t, 0, 0⟩, none⟩ = .ok e := by
    intro e h
    refine (Expr.ofLexemes_iff_derivesQuery rfl).2 ?_
    rw [hword]
    exact h
  exact Except.ok.inj ((read e h).symm.trans (read e' h'))

/-- **A text without lexical fault is a query exactly when its tokens stand for a tree, which is
    then its expression and the only one.** -/
theorem Expr.ofChars_iff_derivesQuery (query : List Char)
    (h : (Lexemes.ofChars query).fault = none) :
    let word := (Lexemes.ofChars query).list.map (·.token)
    (∀ e, Expr.ofChars query = .ok e ↔ DerivesQuery word e) ∧
      ∀ e e', DerivesQuery word e → DerivesQuery word e' → e = e' :=
  ⟨fun _ => Expr.ofLexemes_iff_derivesQuery h, fun _ _ => Derivation.DerivesQuery.tree_eq⟩

/-- The tokens of `.. | -.a + "b"` are a walk over all nodes with a concatenation behind it. -/
theorem Expr.ofChars_iff_derivesQuery_descend :
    let query := "..|-.a+'b'".toList
    let e := Expr.descendPipe (.concat
      [.arithmetic .subtract (.literal (.number .zero)) (.field "a"), .literal (.string "b")])
    (Lexemes.ofChars query).fault = none ∧ Expr.ofChars query = .ok e := by
  intro query e
  have hfault : (Lexemes.ofChars query).fault = none := by decide +kernel
  have hword : (Lexemes.ofChars query).list.map (·.token) =
      [.dotDot] ++ .pipe :: (.minus :: [.field "a"] ++ .plus :: [.string "b"]) := by decide +kernel
  have first : Derives .product [.minus, .field "a"]
      (.arithmetic .subtract (.literal (.number .zero)) (.field "a")) :=
    .productStart (.negative (.positive (.walkStart (.field "a"))) (by simp))
  have second : Derives .product [.string "b"] (.literal (.string "b")) :=
    .productStart (.positive (.walkStart (.string "b")))
  refine ⟨hfault, ((Expr.ofChars_iff_derivesQuery query hfault).1 e).2 ?_⟩
  rw [hword]
  refine .plain (.descendPipe ?_ (.pipeEnd (.listStart (.noAssignment (.alternativeEnd
    (.noComparison (.concat (.more (.start first) .plus second) ?_)))))))
  · exact .listStart (.noAssignment (.alternativeEnd (.noComparison (.sum (.start (.productStart
      (.positive (.walkStart .recursiveDescent)))) (by simp [Concatenates])))))
  · exact ⟨by simp, by simp, "b", by simp⟩

end BlockQuery

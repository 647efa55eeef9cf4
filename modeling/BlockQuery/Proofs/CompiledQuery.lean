/-
  What a compiled query cannot fail with.

  Two reasons to fail are there for trees that no query text stands for: a call with a wrong number
  of arguments, and a `del` of what is no path.  In the tree of a text every call fits (`CallFits`),
  because everything in it is formed as a rule of the grammar forms it (`Formed`); and an error of
  an evaluation is raised by an operation of the tree (`exists_raises_of_eval`).

  The first half is an invariant of the grammar: whatever a word stands for has it, by induction on
  the derivation, and a compiled query is what some word stands for.  The second half is about
  errors and needs no induction any more: `Raises` lists for each error the operations that can
  raise it, and for these two the operations are calls that do not fit.

  The type of expressions allows a call with any arguments, so the evaluator has an answer for calls
  that do not fit.  What is proved here is that no query can bring that answer about.
-/
import BlockQuery.Proofs.ErrorSource
import BlockQuery.Proofs.Parsing
import BlockQuery.Query.Cache

namespace BlockQuery

open BlockQuery.Expr BlockQuery.Derivation

/-! ## Trees of queries

  `Formed` is more than is needed for the errors: it has everything that the rules of the grammar
  check.  The other conditions serve the text of a query, which is to be read again. -/

/-- Whether an expression is no call, or a call of a function with as many arguments as it takes,
    which for `del` is a path. -/
def Expr.CallFits : Expr → Prop
  | .call f args => args.length = f.arity ∧ (f = .del → ∀ a ∈ args, ∃ p, a.path? = .ok p)
  | _ => True

/-- Whether every call in an expression fits, as the readers of queries have checked it. -/
def Expr.Checked (e : Expr) : Prop :=
  e.Throughout CallFits

/-- Whether every index on a path is in the range of an index. -/
def Path.InRange (p : Path) : Prop :=
  ∀ i, Step.index i ∈ p → i.natAbs ≤ Grammar.maxIndex

/-- Whether an expression is one that the grammar forms, its operands apart: a literal is a scalar,
    an index is in range, a concatenation has several parts and a text among them, and a call
    fits. -/
def Expr.Formed : Expr → Prop
  | .literal (.sequence _) => False
  | .literal (.mapping _) => False
  | .index i => i.natAbs ≤ Grammar.maxIndex
  | .slice start stop =>
      (∀ i ∈ start, i.natAbs ≤ Grammar.maxIndex) ∧ ∀ i ∈ stop, i.natAbs ≤ Grammar.maxIndex
  | .concat parts => ∃ first more, parts = first :: more.map (·.2) ∧ Concatenates first more
  | .assign path _ => path.InRange
  | .update path _ => path.InRange
  | e => e.CallFits

/-- What is formed fits, if it is a call. -/
theorem Expr.Formed.callFits {e : Expr} (h : e.Formed) : e.CallFits := by
  cases e with
  | call f args => exact h
  | _ => trivial

/-- An integer of a query is in the range of an index. -/
theorem natAbs_le_of_integer {w : List Token} {i : Int} (h : Integer w i) :
    i.natAbs ≤ Grammar.maxIndex := by
  cases h with
  | plain whole small => simpa using small
  | negative whole small => simpa using small

/-- So is a bound, if it is there. -/
theorem natAbs_le_of_bound {w : List Token} {bound : Option Int} (h : Bound w bound) :
    ∀ i ∈ bound, i.natAbs ≤ Grammar.maxIndex := by
  cases h with
  | missing => simp
  | given h => simpa using natAbs_le_of_integer h

/-- A step is formed, as it is an index in range or has no condition.  It has no operands, so
    nothing else is in it. -/
theorem formed_of_isStep {w : List Token} {e : Expr} (h : IsStep w e) : e.Throughout Formed := by
  have brackets : ∀ {v}, Bracketed v e → e.Throughout Formed := by
    intro v hv
    cases hv with
    | iterate => exact .of_none trivial rfl
    | index hint => exact .of_none (natAbs_le_of_integer hint) rfl
    | slice lower upper =>
      exact .of_none ⟨natAbs_le_of_bound lower, natAbs_le_of_bound upper⟩ rfl
    | field name => exact .of_none trivial rfl
  cases h with
  | field name => exact .of_none trivial rfl
  | brackets hv => exact brackets hv
  | dotted hv => exact brackets hv

/-- The indices on the path of a target are those in the target.  By induction on the target, which
    is a chain of steps if it has a path. -/
theorem Path.inRange_of_path? {e : Expr} {p : Path} (h : e.Throughout Formed)
    (hp : e.path? = .ok p) : p.InRange := by
  induction e using Expr.induct generalizing p with
  | step e ih =>
    cases e with
    | identity =>
      cases hp
      simp [InRange]
    | field name =>
      cases hp
      simp [InRange]
    | index i =>
      cases hp
      have hi : i.natAbs ≤ Grammar.maxIndex := h _ .self
      simpa [InRange] using hi
    | pipe left right =>
      obtain ⟨front, hfront, hp⟩ := bind_eq_ok.1 hp
      obtain ⟨back, hback, hp⟩ := bind_eq_ok.1 hp
      cases hp
      have hoperands := (throughout_iff.1 h).2
      intro i hi
      rcases List.mem_append.1 hi with hi | hi
      · exact ih left (by simp [operands]) (hoperands _ (by simp [operands])) hfront i hi
      · exact ih right (by simp [operands]) (hoperands _ (by simp [operands])) hback i hi
    | _ => cases hp

/-- Terms that are formed make a sum that is: a sum asks nothing by itself, and its terms are its
    operands. -/
theorem formed_summed {first : Expr} {more : List (ArithOp × Expr)}
    (hfirst : first.Throughout Formed) (hmore : ∀ m ∈ more, m.2.Throughout Formed) :
    (summed first more).Throughout Formed := by
  induction more generalizing first with
  | nil => exact hfirst
  | cons m more ih =>
    rw [List.forall_mem_cons] at hmore
    exact ih (.of_two trivial rfl hfirst hmore.1) hmore.2

mutual
/-- Everything in what the grammar derives is formed by a rule of it.  By recursion on the
    derivation; what a rule has checked is what `Formed` asks of the node that it makes. -/
theorem formed_of_derives {level : Level} {w : List Token} {e : Expr} :
    Derives level w e → e.Throughout Formed
  | .pipeEnd only => formed_of_derives only
  | .pipe left _ right => .of_two trivial rfl (formed_of_derives left) (formed_of_derives right)
  | .descendPipe _ right => .of_one trivial rfl (formed_of_derives right)
  | .listStart only => formed_of_derives only
  | .list left right => .of_two trivial rfl (formed_of_derives left) (formed_of_derives right)
  | .noAssignment only => formed_of_derives only
  | .assign left target right =>
      .of_one (Path.inRange_of_path? (formed_of_derives left) target) rfl (formed_of_derives right)
  | .update left target right =>
      .of_one (Path.inRange_of_path? (formed_of_derives left) target) rfl (formed_of_derives right)
  | .alternativeEnd only => formed_of_derives only
  | .alternative left right =>
      .of_two trivial rfl (formed_of_derives left) (formed_of_derives right)
  | .noComparison only => formed_of_derives only
  | .compare left _ right =>
      .of_two trivial rfl (formed_of_derives left) (formed_of_derives right)
  | .concat terms texts => by
      obtain ⟨hfirst, hmore⟩ := formed_of_terms terms
      refine throughout_iff.2 ⟨⟨_, _, rfl, texts⟩, List.forall_mem_cons.2 ⟨hfirst, ?_⟩⟩
      intro c hc
      obtain ⟨m, hm, rfl⟩ := List.mem_map.1 hc
      exact hmore m hm
  | .sum terms _ => by
      obtain ⟨hfirst, hmore⟩ := formed_of_terms terms
      exact formed_summed hfirst hmore
  | .productStart only => formed_of_derives only
  | .product left _ right =>
      .of_two trivial rfl (formed_of_derives left) (formed_of_derives right)
  | .positive only => formed_of_derives only
  | .negativeNumber _ => .of_none trivial rfl
  | .negative h _ => .of_two trivial rfl (.of_none trivial rfl) (formed_of_derives h)
  | .walkStart only => formed_of_derives only
  | .walkFromInput _ step => formed_of_isStep step
  | .walk left _ step => .of_two trivial rfl (formed_of_derives left) (formed_of_isStep step)
  | .identity => .of_none trivial rfl
  | .recursiveDescent => .of_none trivial rfl
  | .field _ => .of_none trivial rfl
  | .number _ => .of_none trivial rfl
  | .string _ => .of_none trivial rfl
  | .boolean _ => .of_none trivial rfl
  | .null => .of_none trivial rfl
  | .group inner => formed_of_derives inner
  | .emptyCollection => .of_none trivial rfl
  | .collect inner => .of_one trivial rfl (formed_of_derives inner)
  | .call arity => .of_none ⟨arity.symm, by simp⟩ rfl
  | .callOn arity argument target =>
      .of_one ⟨arity.symm, by simpa using target⟩ rfl (formed_of_derives argument)

/-- The same of terms in a row. -/
theorem formed_of_terms {w : List Token} {first : Expr} {more : List (ArithOp × Expr)} :
    Terms w first more → first.Throughout Formed ∧ ∀ m ∈ more, m.2.Throughout Formed
  | .start only => ⟨formed_of_derives only, by simp⟩
  | .more left _ right => by
      obtain ⟨hfirst, hmore⟩ := formed_of_terms left
      refine ⟨hfirst, ?_⟩
      intro m hm
      rcases List.mem_append.1 hm with hm | hm
      · exact hmore m hm
      · rw [List.mem_singleton.1 hm]
        exact formed_of_derives right
end

/-- A text with a lexical fault is no query: the reader comes to the fault at the latest where it
    looks for the end. -/
theorem fault_eq_none_of_ofLexemes {ts : Lexemes} {e : Expr} (h : Expr.ofLexemes ts = .ok e) :
    ts.fault = none := by
  unfold Expr.ofLexemes at h
  obtain ⟨pipe, -, h⟩ := bind_eq_ok.1 h
  split at h
  · assumption
  · cases h

/-- A source is compiled to the tree that its tokens stand for. -/
theorem Query.compile_of_derives {source : String} {w : List Token} {e : Expr}
    (hfault : (Lexemes.ofChars source.toList).fault = none)
    (hword : (Lexemes.ofChars source.toList).list.map (·.token) = w) (h : Derives .pipe w e) :
    Query.compile source = .ok ⟨source, e⟩ := by
  refine map_eq_ok.2 ⟨e, (Expr.ofLexemes_iff_derivesQuery hfault).2 ?_, rfl⟩
  rw [hword]
  exact .plain h

/-- Everything in a compiled query is formed by a rule of the grammar.  A bar in front of a query
    puts it behind the input, which is a pipe more and nothing else. -/
theorem Query.formed_of_compile {source : String} {q : Query}
    (h : Query.compile source = .ok q) : q.expr.Throughout Formed := by
  obtain ⟨e, he, rfl⟩ := map_eq_ok.1 h
  have hformed : ∀ w, DerivesQuery w e → e.Throughout Formed := by
    intro w d
    cases d with
    | plain d => exact formed_of_derives d
    | piped d => exact formed_of_derives d
  exact hformed _ ((Expr.ofLexemes_iff_derivesQuery (fault_eq_none_of_ofLexemes he)).1 he)

/-- The calls in a compiled query fit. -/
theorem Query.checked_of_compile {source : String} {q : Query}
    (h : Query.compile source = .ok q) : q.expr.Checked :=
  fun n hn => (Query.formed_of_compile h n hn).callFits

/-! ## Errors that are left

  There are two ways to report each of the two failures: the error itself, and an error of another
  kind with a text in it that names the failure.  The texts are compared with all that an operation
  can put there. -/

/-- No operation takes what a call with a wrong number of arguments is said to miss. -/
theorem not_mem_takes (e : Expr) : "builtin arity" ∉ e.takes := by
  cases e with
  | arithmetic op left right => cases op <;> simp [takes, ArithOp.operands]
  | call f args => cases f <;> simp [takes]
  | _ => simp [takes]

/-- Nothing that stands in the way of a path is called an expression. -/
theorem PathError.obstacle_ne (cause : PathError) : cause.obstacle ≠ "expression" := by
  cases cause with
  | blocked step found => cases found <;> simp [obstacle, Kind.name]
  | beforeStart step => simp [obstacle]
  | beyondPadding step => simp [obstacle]

/-- **A compiled query never fails for what compiling has checked**, on any document and with any
    options: not for the number of arguments of a call, whether as an error of its own or as what an
    operation expected, and not for a `del` of an expression that is no path, whether as an error of
    its own or as what stood in the way of a path. -/
theorem Query.run_ne_of_compile {source : String} {q : Query} (h : Query.compile source = .ok q)
    (options : EvalOptions) (document : Value) :
    (∀ f given, q.run options document ≠ .error (.wrongArity f given)) ∧
    (∀ operation found,
      q.run options document ≠ .error (.wrongKind operation "builtin arity" found)) ∧
    (∀ cause, q.run options document ≠ .error (.notAPath cause)) ∧
    (∀ cause, q.run options document = .error (.path cause) → cause.obstacle ≠ "expression") := by
  have hchecked := Query.checked_of_compile h
  refine ⟨?_, ?_, ?_, ?_⟩
  · intro f given hrun
    obtain ⟨n, hn, hraise⟩ := exists_raises_of_eval hrun
    cases hraise with
    | wrongArity hne => exact hne (hchecked _ hn).1
  · intro operation found hrun
    obtain ⟨n, hn, hraise⟩ := exists_raises_of_eval hrun
    cases hraise with
    | wrongKind hmem => exact not_mem_takes _ hmem
  · intro cause hrun
    obtain ⟨n, hn, hraise⟩ := exists_raises_of_eval hrun
    cases hraise with
    | notAPath hcause =>
      obtain ⟨p, hp⟩ := (hchecked _ hn).2 rfl _ List.mem_cons_self
      rw [hp] at hcause
      cases hcause
  · intro cause _
    exact cause.obstacle_ne

/-- A `del` in a collection on the right side of an update in an argument, on a document in which
    its path is blocked. -/
theorem Query.run_ne_of_compile_nested :
    let source := "map(.a|=[del(.b)])"
    let q : Query :=
      ⟨source, .call .map [.update [.field "a"] (.collect (.call .del [.field "b"]))]⟩
    let document := Value.sequence [.mapping [("a", .string "text")]]
    let cause := PathError.blocked (.field "b") .string
    Query.compile source = .ok q ∧ q.run {} document = .error (.path cause) ∧
      cause.obstacle ≠ "expression" := by
  intro source q document cause
  have halternative : ∀ {w e}, Derives .atom w e → Derives .alternative w e := fun h =>
    .alternativeEnd (.noComparison (.sum (.start (.productStart (.positive (.walkStart h))))
      (by simp [Concatenates])))
  have hpipe : ∀ {w e}, Derives .atom w e → Derives .pipe w e := fun h =>
    .pipeEnd (.listStart (.noAssignment (halternative h)))
  have hcompile : Query.compile source = .ok q := by
    have hfault : (Lexemes.ofChars source.toList).fault = none := by decide +kernel
    have hword : (Lexemes.ofChars source.toList).list.map (·.token) =
        .identifier Builtin.map.name :: .leftParen :: (([.field "a"] ++ .updateAssign ::
          (.leftBracket :: ((.identifier Builtin.del.name :: .leftParen ::
            ([.field "b"] ++ [.rightParen])) ++ [.rightBracket]))) ++ [.rightParen]) := by
      decide +kernel
    refine map_eq_ok.2 ⟨q.expr, (Expr.ofLexemes_iff_derivesQuery hfault).2 ?_, rfl⟩
    rw [hword]
    refine .plain (hpipe (.callOn rfl (.pipeEnd (.listStart (.update (halternative (.field "a")) rfl
      (halternative (.collect (hpipe (.callOn rfl (hpipe (.field "b")) ?_))))))) ?_))
    · intro _
      exact ⟨[.field "b"], rfl⟩
    · intro hmap
      cases hmap
  have hrun : q.run {} document = .error (.path cause) := rfl
  exact ⟨hcompile, hrun, (Query.run_ne_of_compile hcompile {} document).2.2.2 cause hrun⟩

end BlockQuery

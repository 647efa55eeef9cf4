/-
  Where the errors of an evaluation come from.

  An error is raised by one operation and passed on by all others.  `Raises` says which errors an
  operation can raise by itself; `exists_raises_of_eval` says that every error of an evaluation is
  raised that way, by an operation that occurs in the expression.  So an error that nothing in an
  expression can raise is never its result, on any input.

  What an operation does between its operands is taken apart step by step: a step that fails is an
  operand or the operation itself (`raisesOrPasses_of_eval`).  The rest is induction on the
  expression.

  The relation lists for every error the operations that can raise it, so a statement about one
  error is settled by cases on `Raises`, and the evaluator is not opened again.  It is kept as tight
  as the errors are: an error names the operation and the kind of value that it takes
  (`Expr.takes`), and only those kinds can be named.
-/
import BlockQuery.Proofs.Descent
import BlockQuery.Proofs.Except
import BlockQuery.Proofs.Operands

namespace BlockQuery

open BlockQuery.Expr

/-! ## What an operation can raise

  An error about a kind of value tells which kinds would do, and these words are fixed for each
  operation.  Some errors come with a condition, which is what makes it possible to rule them out:
  several values are an error in strict mode only, and a path is asked for by `del` only. -/

/-- The kinds of value that an operation takes, in the words of its errors. -/
def Expr.takes : Expr → List String
  | .index _ => ["sequence"]
  | .slice _ _ => ["sequence or string"]
  | .iterate => ["sequence or mapping"]
  | .arithmetic op _ _ => [op.operands]
  | .call .length _ => ["sequence or mapping"]
  | .call .keys _ => ["mapping or sequence"]
  | .call .toEntries _ => ["mapping"]
  | .call .has _ => ["string key", "numeric index", "mapping or sequence"]
  | .call .map _ => ["sequence"]
  | _ => []

/-- Whether an operation writes or removes at a path. -/
def Expr.editsPath : Expr → Bool
  | .call .del _ => true
  | .assign _ _ => true
  | .update _ _ => true
  | _ => false

/-- The errors that an operation raises by itself, its operands apart.  The relation is about the
    operation and not about its input, so it says what may happen and not when. -/
inductive Raises (options : EvalOptions) : Expr → EvalError → Prop where
  | wrongKind {e : Expr} {expected : String} {found : Kind} (h : expected ∈ e.takes) :
      Raises options e (.wrongKind e expected found)
  | wrongArity {f : Builtin} {args : List Expr} (h : args.length ≠ f.arity) :
      Raises options (.call f args) (.wrongArity f args.length)
  | path {e : Expr} {cause : PathError} (h : e.editsPath = true) : Raises options e (.path cause)
  | notAPath {target : Expr} {cause : NotAPath} (h : target.path? = .error cause) :
      Raises options (.call .del [target]) (.notAPath cause)
  | divisionByZero {left right : Expr} :
      Raises options (.arithmetic .divide left right) .divisionByZero
  | overflow {op : ArithOp} {left right : Expr} :
      Raises options (.arithmetic op left right) (.overflow (.arithmetic op left right))
  | cardinality {e : Expr} {count : Nat} (strict : options.strict = true) (many : 1 < count) :
      Raises options e (.cardinality e count)

section

variable {options : EvalOptions} {input : Value} {err : EvalError}

/-! ## Operations on values

  Each lemma here is about a function that the evaluator calls with the values of its operands.  It
  opens that function once and sorts its errors. -/

/-- The operations that look at their input and at nothing else, so that the kind of the input
    decides. -/
inductive Expr.Inspects : Expr → Prop where
  | index (i : Int) : Inspects (.index i)
  | slice (start stop : Option Int) : Inspects (.slice start stop)
  | iterate : Inspects .iterate
  | length (args : List Expr) : Inspects (.call .length args)
  | keys (args : List Expr) : Inspects (.call .keys args)
  | toEntries (args : List Expr) : Inspects (.call .toEntries args)

/-- Such an operation takes the kind of its input or turns it down, and fails in no other way. -/
theorem raises_of_inspects {e : Expr} (he : e.Inspects) (h : eval options e input = .error err) :
    Raises options e err := by
  cases he
  all_goals cases input
  -- what is left are the kinds that are turned down
  all_goals cases h
  all_goals exact .wrongKind (List.mem_singleton.2 rfl)

/-- Asking for a key fails for a wrong kind of key or of value.  Which of them is reported depends
    on both, and both are in the words of the operation. -/
theorem raises_of_hasKey {args : List Expr} {nested : Bool} {key : Value}
    (h : hasKey (.call .has args) nested input key = .error err) :
    Raises options (.call .has args) err := by
  unfold hasKey at h
  split at h
  · cases h
  · cases h
  all_goals
    cases h
    exact .wrongKind (by simp [takes])

/-- An arithmetic operation without a number in range has left the range. -/
theorem raises_of_numberOr {op : ArithOp} {left right : Expr} {n : Option Decimal}
    (h : numberOr (.arithmetic op left right) n = .error err) :
    Raises options (.arithmetic op left right) err := by
  cases n with
  | some d => cases h
  | none =>
    cases h
    exact .overflow

/-- An arithmetic operation fails for its operands, for a zero divisor, or for its range.  Each
    operator has a few kinds of operands that it takes, and all others end in the same error. -/
theorem raises_of_apply {op : ArithOp} {left right : Expr} {a b : Value}
    (h : op.apply (.arithmetic op left right) a b = .error err) :
    Raises options (.arithmetic op left right) err := by
  unfold ArithOp.apply at h
  split at h
  · cases h
  · cases h
  · exact raises_of_numberOr h
  · cases h
  · cases h
  · cases h
  · exact raises_of_numberOr h
  · cases h
  · exact raises_of_numberOr h
  · split at h
    · cases h
      exact .divisionByZero
    · exact raises_of_numberOr h
  · cases h
    exact .wrongKind (List.mem_singleton.2 rfl)

/-- A path fails only in operations that edit along one. -/
theorem raises_of_liftPath {α : Type} {r : Except PathError α} {e : Expr}
    (he : e.editsPath = true) (h : liftPath r = .error err) : Raises options e err := by
  cases r with
  | error cause =>
    cases h
    exact .path he
  | ok a => cases h

/-! ## Streams

  An operation that is done for every value of a stream fails on one of them.  So the value is
  named, and with it the operand that failed there. -/

/-- Several values where one is used are an error in strict mode only. -/
theorem raises_of_single {e : Expr} {vs : Stream}
    (h : Stream.single options e vs = .error err) : Raises options e err := by
  unfold Stream.single at h
  split at h
  · rename_i hmany
    cases h
    exact .cardinality hmany.1 hmany.2
  · cases h

/-- A traversal fails on one of its values, with the error of that value. -/
theorem Stream.exists_of_traverse {α : Type} {f : Value → Except EvalError α} {vs : Stream}
    (h : Stream.traverse f vs = .error err) : ∃ v ∈ vs, f v = .error err := by
  induction vs with
  | nil => cases h
  | cons v vs ih =>
    rcases bind_eq_error.1 h with hv | ⟨a, -, h⟩
    · exact ⟨v, List.mem_cons_self, hv⟩
    rcases bind_eq_error.1 h with hvs | ⟨as, -, h⟩
    · obtain ⟨w, hw, hfail⟩ := ih hvs
      exact ⟨w, List.mem_cons_of_mem _ hw, hfail⟩
    · cases h

/-- So does the evaluation of an operand on every value. -/
theorem Stream.exists_of_bind {f : Value → Except EvalError Stream} {vs : Stream}
    (h : Stream.bind f vs = .error err) : ∃ v ∈ vs, f v = .error err := by
  rw [Stream.bind_eq_traverse] at h
  exact Stream.exists_of_traverse (map_eq_error.1 h)

/-- Mapping a sequence fails on an element, or where an element has become several.  The second is
    an error of the operation itself. -/
theorem exists_or_raises_of_mapItems {e : Expr} {f : Value → Except EvalError Stream}
    {items : List Value} (h : mapItems options e f items = .error err) :
    (∃ v ∈ items, f v = .error err) ∨ Raises options e err := by
  induction items with
  | nil => cases h
  | cons v items ih =>
    have tail : mapItems options e f items = .error err →
        (∃ w ∈ v :: items, f w = .error err) ∨ Raises options e err := by
      intro h
      rcases ih h with ⟨w, hw, hfail⟩ | hown
      · exact Or.inl ⟨w, List.mem_cons_of_mem _ hw, hfail⟩
      · exact Or.inr hown
    rw [mapItems] at h
    rcases bind_eq_error.1 h with hv | ⟨results, -, h⟩
    · exact Or.inl ⟨v, List.mem_cons_self, hv⟩
    split at h
    · exact tail h
    rcases bind_eq_error.1 h with hsingle | ⟨w, -, h⟩
    · exact Or.inr (raises_of_single hsingle)
    rcases bind_eq_error.1 h with hitems | ⟨ws, -, h⟩
    · exact tail hitems
    · cases h

/-- Joining texts fails in a part, or where a part has several values. -/
theorem exists_or_raises_of_evalTexts {e : Expr} {parts : List Expr}
    (h : evalTexts options e parts input = .error err) :
    (∃ c ∈ parts, eval options c input = .error err) ∨ Raises options e err := by
  induction parts with
  | nil => cases h
  | cons c parts ih =>
    rw [evalTexts] at h
    rcases bind_eq_error.1 h with hc | ⟨vs, -, h⟩
    · exact Or.inl ⟨c, List.mem_cons_self, hc⟩
    rcases bind_eq_error.1 h with hsingle | ⟨v, -, h⟩
    · exact Or.inr (raises_of_single hsingle)
    rcases bind_eq_error.1 h with hparts | ⟨more, -, h⟩
    · rcases ih hparts with ⟨d, hd, hfail⟩ | hown
      · exact Or.inl ⟨d, List.mem_cons_of_mem _ hd, hfail⟩
      · exact Or.inr hown
    · cases h

/-! ## Expressions

  First one operation with its operands left alone, then all of the expression by induction.  An
  operand that fails is an expression in its own right, so the induction hypothesis applies to it on
  whatever value it was evaluated. -/

/-- A call with a wrong number of arguments is not evaluated, except that a function without
    arguments looks at none; every other function has exactly one. -/
theorem eval_call_or_single (f : Builtin) (args : List Expr) :
    (args.length ≠ f.arity ∧ ∀ options input,
      eval options (.call f args) input = .error (.wrongArity f args.length)) ∨
    (f.arity = 1 → ∃ a, args = [a]) := by
  by_cases hf : f.arity = 1
  · match args with
    | [a] => exact Or.inr fun _ => ⟨a, rfl⟩
    | [] =>
      refine Or.inl ⟨by simp [hf], fun options input => ?_⟩
      cases f <;> first | rfl | cases hf
    | a :: b :: args =>
      refine Or.inl ⟨by simp [hf], fun options input => ?_⟩
      cases f <;> first | rfl | cases hf
  · exact Or.inr fun h => absurd h hf

/-- An error that an operation gives is one that it raises, or that an operand gives.  The operand
    was evaluated on some value, which need not be the input. -/
def RaisesOrPasses (options : EvalOptions) (e : Expr) (err : EvalError) : Prop :=
  Raises options e err ∨ ∃ c ∈ e.operands, ∃ v, eval options c v = .error err

/-- The functions.  After a wrong number of arguments is set aside, each has the operand that its
    definition takes, and fails in it or behind it. -/
theorem raisesOrPasses_of_call {f : Builtin} {args : List Expr}
    (h : eval options (.call f args) input = .error err) :
    RaisesOrPasses options (.call f args) err := by
  rcases eval_call_or_single f args with ⟨harity, hfail⟩ | hone
  · rw [hfail] at h
    cases h
    exact Or.inl (.wrongArity harity)
  cases f with
  | length => exact Or.inl (raises_of_inspects (.length args) h)
  | keys => exact Or.inl (raises_of_inspects (.keys args) h)
  | toEntries => exact Or.inl (raises_of_inspects (.toEntries args) h)
  | has =>
    obtain ⟨key, rfl⟩ := hone rfl
    rcases bind_eq_error.1 h with hkey | ⟨ks, -, h⟩
    · exact Or.inr ⟨key, by simp [operands], _, hkey⟩
    · obtain ⟨k, -, hk⟩ := Stream.exists_of_traverse h
      exact Or.inl (raises_of_hasKey (map_eq_error.1 hk))
  | map =>
    obtain ⟨mapper, rfl⟩ := hone rfl
    cases input with
    | sequence items =>
      rcases exists_or_raises_of_mapItems (map_eq_error.1 h) with ⟨v, -, hv⟩ | hraise
      · exact Or.inr ⟨mapper, by simp [operands], v, hv⟩
      · exact Or.inl hraise
    | _ =>
      cases h
      exact Or.inl (.wrongKind (List.mem_singleton.2 rfl))
  | select =>
    obtain ⟨condition, rfl⟩ := hone rfl
    rcases bind_eq_error.1 h with hcondition | ⟨vs, -, h⟩
    · exact Or.inr ⟨condition, by simp [operands], _, hcondition⟩
    · cases h
  | del =>
    obtain ⟨target, rfl⟩ := hone rfl
    rw [eval] at h
    split at h
    · rename_i cause hcause
      cases h
      exact Or.inl (.notAPath hcause)
    · exact Or.inl (raises_of_liftPath rfl (map_eq_error.1 h))

/-- Between its operands, an operation gives no other errors than those that it can raise.  By cases
    on the operation: its definition is a row of steps, and the one that failed is found by taking
    the row apart from the end of the error. -/
theorem raisesOrPasses_of_eval {e : Expr} (h : eval options e input = .error err) :
    RaisesOrPasses options e err := by
  cases e with
  | identity => cases h
  | recursiveDescent => cases h
  | literal v => cases h
  | field name => cases h
  | emptyCollection => cases h
  | index i => exact Or.inl (raises_of_inspects (.index i) h)
  | slice start stop => exact Or.inl (raises_of_inspects (.slice start stop) h)
  | iterate => exact Or.inl (raises_of_inspects .iterate h)
  | collect inner => exact Or.inr ⟨inner, by simp [operands], _, map_eq_error.1 h⟩
  | pipe left right =>
    rcases bind_eq_error.1 h with hleft | ⟨vs, -, h⟩
    · exact Or.inr ⟨left, by simp [operands], _, hleft⟩
    · obtain ⟨v, -, hv⟩ := Stream.exists_of_bind h
      exact Or.inr ⟨right, by simp [operands], v, hv⟩
  | descendPipe inner =>
    rw [eval, descendWith_eq_bind] at h
    obtain ⟨v, -, hv⟩ := Stream.exists_of_bind h
    exact Or.inr ⟨inner, by simp [operands], v, hv⟩
  | comma left right =>
    rcases bind_eq_error.1 h with hleft | ⟨front, -, h⟩
    · exact Or.inr ⟨left, by simp [operands], _, hleft⟩
    rcases bind_eq_error.1 h with hright | ⟨back, -, h⟩
    · exact Or.inr ⟨right, by simp [operands], _, hright⟩
    · cases h
  | alternative left right =>
    rcases bind_eq_error.1 h with hleft | ⟨vs, -, h⟩
    · exact Or.inr ⟨left, by simp [operands], _, hleft⟩
    split at h
    · cases h
    split at h
    · cases h
    · exact Or.inr ⟨right, by simp [operands], _, h⟩
  | concat parts =>
    rcases bind_eq_error.1 h with htexts | ⟨text, -, h⟩
    · rcases exists_or_raises_of_evalTexts htexts with ⟨c, hc, hfail⟩ | hraise
      · exact Or.inr ⟨c, hc, _, hfail⟩
      · exact Or.inl hraise
    · cases h
  | arithmetic op left right =>
    rcases bind_eq_error.1 h with hleft | ⟨vs, -, h⟩
    · exact Or.inr ⟨left, by simp [operands], _, hleft⟩
    rcases bind_eq_error.1 h with hsingle | ⟨a, -, h⟩
    · exact Or.inl (raises_of_single hsingle)
    rcases bind_eq_error.1 h with hright | ⟨ws, -, h⟩
    · exact Or.inr ⟨right, by simp [operands], _, hright⟩
    rcases bind_eq_error.1 h with hsingle | ⟨b, -, h⟩
    · exact Or.inl (raises_of_single hsingle)
    rcases bind_eq_error.1 h with happly | ⟨c, -, h⟩
    · exact Or.inl (raises_of_apply happly)
    · cases h
  | compare op left right =>
    rcases bind_eq_error.1 h with hright | ⟨ws, -, h⟩
    · exact Or.inr ⟨right, by simp [operands], _, hright⟩
    rcases bind_eq_error.1 h with hsingle | ⟨b, -, h⟩
    · exact Or.inl (raises_of_single hsingle)
    rcases bind_eq_error.1 h with hleft | ⟨vs, -, h⟩
    · exact Or.inr ⟨left, by simp [operands], _, hleft⟩
    · cases h
  | call f args => exact raisesOrPasses_of_call h
  | assign path value =>
    rcases bind_eq_error.1 h with hvalue | ⟨vs, -, h⟩
    · exact Or.inr ⟨value, by simp [operands], _, hvalue⟩
    · obtain ⟨v, -, hv⟩ := Stream.exists_of_traverse h
      exact Or.inl (raises_of_liftPath rfl hv)
  | update path change =>
    rcases bind_eq_error.1 h with hchange | ⟨vs, -, h⟩
    · exact Or.inr ⟨change, by simp [operands], _, hchange⟩
    split at h
    · exact Or.inl (raises_of_liftPath rfl (map_eq_error.1 h))
    rcases bind_eq_error.1 h with hsingle | ⟨v, -, h⟩
    · exact Or.inl (raises_of_single hsingle)
    · exact Or.inl (raises_of_liftPath rfl (map_eq_error.1 h))

/-- Every error of an evaluation is raised by an operation that occurs in the expression.  By
    induction: if the error was passed on, it is an error of an operand, on the value that the
    operand had. -/
theorem exists_raises_of_eval {e : Expr} (h : eval options e input = .error err) :
    ∃ n, OccursIn n e ∧ Raises options n err := by
  induction e using Expr.induct generalizing input with
  | step e ih =>
    rcases raisesOrPasses_of_eval h with hraise | ⟨c, hc, v, hv⟩
    · exact ⟨e, .self, hraise⟩
    · obtain ⟨n, hn, hraise⟩ := ih c hc hv
      exact ⟨n, .operand hc hn, hraise⟩

end

end BlockQuery

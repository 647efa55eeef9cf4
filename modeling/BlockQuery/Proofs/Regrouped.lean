/-
  Pipes and lists in one grouping.

  The text of an expression does not show how its pipes and lists were grouped: `a | b | c` is read
  as a pipe from `a` to the rest, and a chain of steps becomes such a row as well; `a, b, c` is read
  as `c` behind the rest.  `regrouped` groups an expression throughout as its text is read, with
  walks over all nodes where a pipe starts at `..`.

  The grouping changes neither the stream nor whether there is one (`toOption_eval_regrouped`).  It
  may change which error comes first: grouped to the left, everything that `a | b` emits is made
  before `c` sees any of it.  So the two expressions are compared by `Except.toOption`, which
  forgets the errors; without them the order of two steps does not matter (`Option.bind_comm`).

  Everything below is a congruence: when two operands have the same results, so has what is made of
  them.  There is one lemma for each way in which the evaluator uses an operand, and the theorem is
  an induction on the expression in which only pipes and lists say something new.
-/
import BlockQuery.Proofs.ErrorSource
import Mathlib.Data.Option.Basic

namespace BlockQuery

/-! ## Results without errors

  A computation with its error forgotten is an option.  The lemmas carry each step of a computation
  over to options, where two steps may change places. -/

section ToOption

variable {ε α β : Type}

/-- A result is what a computation has when it has one. -/
theorem toOption_eq_some_iff {x : Except ε α} {a : α} : x.toOption = some a ↔ x = .ok a := by
  cases x <;> simp [Except.toOption]

/-- Forgetting the error goes through the steps of a computation. -/
theorem toOption_bind (x : Except ε α) (f : α → Except ε β) :
    (x >>= f).toOption = x.toOption.bind fun a => (f a).toOption := by
  cases x <;> rfl

/-- A value that is returned is there. -/
theorem toOption_pure (a : α) : (pure a : Except ε α).toOption = some a :=
  rfl

/-- Forgetting the error goes through a last step that cannot fail as well. -/
theorem toOption_map (x : Except ε α) (f : α → β) :
    (x.map f).toOption = x.toOption.map f := by
  cases x <;> rfl

/-- A computation in steps has the result of another one when each step does.  The lemma that the
    induction uses most: whatever is done to operands with the same results has the same results. -/
theorem toOption_bind_congr {x y : Except ε α} {f g : α → Except ε β}
    (h : x.toOption = y.toOption) (hfg : ∀ a, (f a).toOption = (g a).toOption) :
    (x >>= f).toOption = (y >>= g).toOption := by
  simp only [toOption_bind, h, hfg]

/-- The same for a last step that cannot fail. -/
theorem toOption_map_congr {x y : Except ε α} (h : x.toOption = y.toOption) (f : α → β) :
    (x.map f).toOption = (y.map f).toOption := by
  rw [toOption_map, toOption_map, h]

end ToOption

section Streams

variable {f g : Value → Except EvalError Stream}

/-- Streams that are made alike of every value are alike. -/
theorem toOption_streams (h : ∀ v, (f v).toOption = (g v).toOption) (vs : Stream) :
    (Stream.bind f vs).toOption = (Stream.bind g vs).toOption := by
  induction vs with
  | nil => rfl
  | cons v vs ih =>
    exact toOption_bind_congr (h v) fun front => toOption_bind_congr ih fun back => rfl

/-- So are lists of single results. -/
theorem toOption_traverse {α : Type} {f g : Value → Except EvalError α}
    (h : ∀ v, (f v).toOption = (g v).toOption) (vs : Stream) :
    (Stream.traverse f vs).toOption = (Stream.traverse g vs).toOption := by
  induction vs with
  | nil => rfl
  | cons v vs ih =>
    exact toOption_bind_congr (h v) fun a => toOption_bind_congr ih fun as => rfl

/-- Streams of streams may be made as a whole or one by one.  As a whole, an error of the first
    function at a late value comes before those of the second at the early ones; the results are the
    same. -/
theorem toOption_streams_streams (vs : Stream) :
    (Stream.bind f vs >>= Stream.bind g).toOption =
      (Stream.bind (fun v => f v >>= Stream.bind g) vs).toOption := by
  induction vs with
  | nil => rfl
  | cons v vs ih =>
    rw [toOption_bind] at ih
    simp only [Stream.bind, toOption_bind, ← ih, Option.bind_assoc]
    refine congrArg _ (funext fun front => ?_)
    -- the other streams of the first pipe and the first stream of the second one change places
    simp only [toOption_pure, Option.bind_some, Stream.bind_append, toOption_bind]
    exact Option.bind_comm _ _

/-- Whether there are several values does not depend on who asks for one.  Only the error names who
    did. -/
theorem toOption_single (options : EvalOptions) (operation operation' : Expr) (vs : Stream) :
    (Stream.single options operation vs).toOption =
      (Stream.single options operation' vs).toOption := by
  unfold Stream.single
  split <;> rfl

/-- Elements that are mapped alike make the same sequence. -/
theorem toOption_mapItems (options : EvalOptions) (operation operation' : Expr)
    (h : ∀ v, (f v).toOption = (g v).toOption) (items : List Value) :
    (mapItems options operation f items).toOption =
      (mapItems options operation' g items).toOption := by
  induction items with
  | nil => rfl
  | cons v items ih =>
    rw [mapItems, mapItems]
    refine toOption_bind_congr (h v) fun results => ?_
    split
    · exact ih
    · exact toOption_bind_congr (toOption_single options _ _ results) fun w =>
        toOption_bind_congr ih fun ws => rfl

end Streams

namespace Expr

/-! ## Grouping

  `regrouped` goes bottom up: the parts are grouped first, and then put together in the grouping
  that the reader of queries would give them.  What is put together is a pipe or a list as before,
  so an expression of any other kind is recognised in either grouping. -/

/-- The pipe from one expression to another, grouped to the right where the first one is.  The
    second one is carried along the bars of the first and put behind the last of them. -/
def thenPipe : Expr → Expr → Expr
  | pipe a b, right => pipe a (b.thenPipe right)
  | descendPipe b, right => descendPipe (b.thenPipe right)
  | left, right => Grammar.pipeOf left right

/-- The list of two expressions, grouped to the left where the second one is.  The first one is
    carried to the front of the second. -/
def thenComma (left : Expr) : Expr → Expr
  | comma a b => comma (left.thenComma a) b
  | right => comma left right

mutual
/-- An expression with all its pipes grouped to the right and all its lists to the left. -/
def regrouped : Expr → Expr
  | collect inner => collect (regrouped inner)
  | pipe left right => (regrouped left).thenPipe (regrouped right)
  | descendPipe inner => descendPipe (regrouped inner)
  | comma left right => (regrouped left).thenComma (regrouped right)
  | alternative left right => alternative (regrouped left) (regrouped right)
  | concat parts => concat (regroupedAll parts)
  | arithmetic op left right => arithmetic op (regrouped left) (regrouped right)
  | compare op left right => compare op (regrouped left) (regrouped right)
  | call function args => call function (regroupedAll args)
  | assign path value => assign path (regrouped value)
  | update path change => update path (regrouped change)
  | identity => identity
  | recursiveDescent => recursiveDescent
  | literal v => literal v
  | field name => field name
  | index i => index i
  | slice start stop => slice start stop
  | iterate => iterate
  | emptyCollection => emptyCollection
termination_by structural e => e

def regroupedAll : List Expr → List Expr
  | [] => []
  | e :: es => regrouped e :: regroupedAll es
termination_by structural es => es
end

/-- The parts of a list of expressions are grouped one by one. -/
theorem regroupedAll_eq_map (es : List Expr) : regroupedAll es = es.map regrouped := by
  induction es with
  | nil => rfl
  | cons e es ih => rw [regroupedAll, ih, List.map_cons]

/-- A pipe is a pipe, however it is grouped. -/
theorem thenPipe_cases (left right : Expr) :
    (∃ a b, left.thenPipe right = pipe a b) ∨ ∃ b, left.thenPipe right = descendPipe b := by
  cases left with
  | pipe a b => exact Or.inl ⟨_, _, rfl⟩
  | descendPipe b => exact Or.inr ⟨_, rfl⟩
  | recursiveDescent => exact Or.inr ⟨_, rfl⟩
  | _ => exact Or.inl ⟨_, _, rfl⟩

/-- A list is a list, however it is grouped. -/
theorem thenComma_cases (left right : Expr) : ∃ a b, left.thenComma right = comma a b := by
  cases right with
  | comma a b => exact ⟨_, _, rfl⟩
  | _ => exact ⟨_, _, rfl⟩

/-- An expression without operands is only its own grouping.  What is made of a pipe or a list has
    operands, and so has everything else that is grouped. -/
theorem regrouped_eq_leaf {leaf : Expr} (h : leaf.operands = []) (e : Expr) :
    e.regrouped = leaf ↔ e = leaf := by
  constructor
  · rintro rfl
    cases e with
    | pipe left right =>
      rw [regrouped] at h
      rcases thenPipe_cases left.regrouped right.regrouped with ⟨a, b, hab⟩ | ⟨b, hb⟩
      · rw [hab] at h
        cases h
      · rw [hb] at h
        cases h
    | comma left right =>
      obtain ⟨a, b, hab⟩ := thenComma_cases left.regrouped right.regrouped
      rw [regrouped, hab] at h
      cases h
    | concat parts =>
      cases parts with
      | nil => rfl
      | cons c parts => cases h
    | call f args =>
      cases args with
      | nil => rfl
      | cons c args => cases h
    | _ => first | rfl | cases h
  · rintro rfl
    cases e with
    | concat parts =>
      obtain rfl : parts = [] := h
      rfl
    | call f args =>
      obtain rfl : args = [] := h
      rfl
    | _ => first | rfl | cases h

/-- The empty collection is recognised in either grouping. -/
theorem regrouped_isEmptyCollection (e : Expr) :
    e.regrouped.isEmptyCollection = e.isEmptyCollection := by
  have hiff : ∀ e : Expr, e.isEmptyCollection = true ↔ e = emptyCollection := by
    intro e
    cases e <;> simp [isEmptyCollection]
  rw [Bool.eq_iff_iff, hiff, hiff, regrouped_eq_leaf rfl]

/-- So is the literal null. -/
theorem regrouped_isNullLiteral (e : Expr) : e.regrouped.isNullLiteral = e.isNullLiteral := by
  have hiff : ∀ e : Expr, e.isNullLiteral = true ↔ e = literal .null := by
    intro e
    cases e with
    | literal v => cases v <;> simp [isNullLiteral]
    | _ => simp [isNullLiteral]
  rw [Bool.eq_iff_iff, hiff, hiff, regrouped_eq_leaf rfl]

/-! ## Paths

  An expression is a path if it is a pipe of steps, and the steps of a pipe are those of its parts,
  one after the other.  That is associative, so the grouping does not show in the path either. -/

/-- A pipe walks the same path however it is grouped, if it walks one.  Which part walks none, and
    so the error, may be another one. -/
theorem toOption_path?_thenPipe (left right : Expr) :
    (left.thenPipe right).path?.toOption = (pipe left right).path?.toOption := by
  induction left using Expr.induct with
  | step left ih =>
    cases left with
    | pipe a b =>
      have hb := ih b (by simp [operands])
      simp only [path?, toOption_bind, toOption_pure] at hb
      simp only [thenPipe, path?, toOption_bind, toOption_pure, hb, Option.bind_assoc,
        Option.bind_some, List.append_assoc]
    | recursiveDescent => rfl
    | descendPipe b => rfl
    | _ => rfl

/-- The grouping of its pipes does not change the path of an expression. -/
theorem toOption_path?_regrouped (e : Expr) : e.regrouped.path?.toOption = e.path?.toOption := by
  induction e using Expr.induct with
  | step e ih =>
    cases e with
    | comma left right =>
      obtain ⟨a, b, h⟩ := thenComma_cases left.regrouped right.regrouped
      rw [regrouped, h]
      rfl
    | pipe left right =>
      rw [regrouped, toOption_path?_thenPipe]
      simp only [path?, toOption_bind, ih left (by simp [operands]), ih right (by simp [operands])]
    | _ => rfl

/-! ## Streams

  A pipe of three expressions is where the grouping matters for the evaluator: to the left the first
  two make a whole stream before the third one starts.  Without errors this is the exchange of two
  steps in a stream of streams. -/

variable (options : EvalOptions)

/-- Three expressions emit the same in either grouping. -/
theorem toOption_eval_pipe_pipe (a b c : Expr) (input : Value) :
    (eval options (pipe (pipe a b) c) input).toOption =
      (eval options (pipe a (pipe b c)) input).toOption := by
  rw [eval, eval, bind_assoc]
  exact toOption_bind_congr rfl toOption_streams_streams

/-- A pipe emits the same however it is grouped.  By induction on the left part: each bar that is
    moved is one use of the law for three expressions. -/
theorem toOption_eval_thenPipe (left right : Expr) (input : Value) :
    (eval options (left.thenPipe right) input).toOption =
      (eval options (pipe left right) input).toOption := by
  induction left using Expr.induct generalizing input with
  | step left ih =>
    -- a pipe onto a part that is grouped is one onto the part and then onward
    have onward : ∀ a b, b ∈ left.operands →
        (eval options (pipe a (b.thenPipe right)) input).toOption =
          (eval options (pipe (pipe a b) right) input).toOption := by
      intro a b hb
      rw [toOption_eval_pipe_pipe]
      exact toOption_bind_congr rfl (toOption_streams (ih b hb))
    cases left with
    | pipe a b => exact onward a b (by simp [operands])
    | descendPipe b =>
      have hwalk := onward .recursiveDescent b (by simp [operands])
      have hsame : eval options (pipe (descendPipe b) right) input =
          eval options (pipe (pipe recursiveDescent b) right) input := by
        rw [eval, eval, (eval_descendPipe options b input).1]
      rw [thenPipe, (eval_descendPipe options _ input).1, hwalk, hsame]
    | recursiveDescent => exact congrArg _ (eval_descendPipe options right input).1
    | _ => rfl

/-- A list emits the same however it is grouped, errors included: its parts are evaluated in the
    same order. -/
theorem eval_thenComma (left right : Expr) (input : Value) :
    eval options (left.thenComma right) input = eval options (comma left right) input := by
  induction right using Expr.induct with
  | step right ih =>
    cases right with
    | comma a b =>
      have ha := ih a (by simp [operands])
      simp only [eval] at ha
      simp only [thenComma, eval, ha, bind_assoc, pure_bind, List.append_assoc]
    | _ => rfl

/-- Joining texts needs only what the parts make.  Of each part one value is used, and its text is
    put in front of the others. -/
theorem toOption_evalTexts (operation operation' : Expr) {parts : List Expr} {input : Value}
    (h : ∀ c ∈ parts, (eval options c.regrouped input).toOption = (eval options c input).toOption) :
    (evalTexts options operation (parts.map regrouped) input).toOption =
      (evalTexts options operation' parts input).toOption := by
  induction parts with
  | nil => rfl
  | cons c parts ih =>
    rw [List.forall_mem_cons] at h
    rw [List.map_cons, evalTexts, evalTexts]
    refine toOption_bind_congr h.1 fun vs => ?_
    refine toOption_bind_congr (toOption_single options _ _ vs) fun v => ?_
    exact toOption_bind_congr (ih h.2) fun more => rfl

/-- What an operator makes of two values does not depend on how it is named in errors. -/
theorem toOption_apply (op : ArithOp) (operation operation' : Expr) (a b : Value) :
    (op.apply operation a b).toOption = (op.apply operation' a b).toOption := by
  have hnumber : ∀ n, (numberOr operation n).toOption = (numberOr operation' n).toOption := by
    rintro (_ | n) <;> rfl
  unfold ArithOp.apply
  split <;> first | rfl | exact hnumber _ | (split <;> first | rfl | exact hnumber _)

/-- A `del` needs only the path of its argument, and this does not show the grouping. -/
theorem toOption_eval_del (target : Expr) (input : Value) :
    (eval options (call .del [target.regrouped]) input).toOption =
      (eval options (call .del [target]) input).toOption := by
  have hpath := toOption_path?_regrouped target
  rw [eval, eval]
  cases hnew : target.regrouped.path? with
  | error cause =>
    cases hold : target.path? with
    | error cause' => rfl
    | ok p => simp [hnew, hold, Except.toOption] at hpath
  | ok p =>
    cases hold : target.path? with
    | error cause' => simp [hnew, hold, Except.toOption] at hpath
    | ok p' =>
      obtain rfl : p = p' := by simpa [hnew, hold, Except.toOption] using hpath
      rfl

/-- The functions: one argument, which is used on the input or on each element, or no argument at
    all. -/
theorem toOption_eval_call (f : Builtin) (args : List Expr)
    (ih : ∀ c ∈ args, ∀ input,
      (eval options c.regrouped input).toOption = (eval options c input).toOption)
    (input : Value) :
    (eval options (call f (args.map regrouped)) input).toOption =
      (eval options (call f args) input).toOption := by
  by_cases hf : f.arity = 1
  · match args with
    | [] => cases f <;> rfl
    | a :: b :: args => cases f <;> first | rfl | cases hf
    | [a] =>
      rw [List.forall_mem_singleton] at ih
      rw [List.map_singleton]
      cases f with
      | has =>
        refine toOption_bind_congr (ih input) fun keys => toOption_traverse (fun k => ?_) keys
        exact toOption_map_congr (by cases input <;> cases k <;> rfl) _
      | map =>
        cases input with
        | sequence items => exact toOption_map_congr (toOption_mapItems options _ _ ih items) _
        | _ => rfl
      | select => exact toOption_bind_congr (ih input) fun vs => rfl
      | del => exact toOption_eval_del options a input
      | _ => cases hf
  · -- the other functions look at the input alone
    cases f <;> first | exact absurd rfl hf | (cases input <;> rfl)

/-- **Grouping its pipes and lists changes nothing that an expression emits**: on every input and
    with all options there is the same stream, or none.  The induction is on the expression, for all
    inputs, since a pipe evaluates its right part on what the left one emits. -/
theorem toOption_eval_regrouped (e : Expr) (input : Value) :
    (eval options e.regrouped input).toOption = (eval options e input).toOption := by
  induction e using Expr.induct generalizing input with
  | step e ih =>
    have single := toOption_single options
    cases e with
    | collect inner => exact toOption_map_congr (ih inner (by simp [operands]) input) _
    | pipe left right =>
      rw [regrouped, toOption_eval_thenPipe]
      exact toOption_bind_congr (ih left (by simp [operands]) input)
        (toOption_streams (ih right (by simp [operands])))
    | descendPipe inner =>
      rw [regrouped, eval, eval, descendWith_eq_bind, descendWith_eq_bind]
      exact toOption_streams (ih inner (by simp [operands])) _
    | comma left right =>
      rw [regrouped, eval_thenComma]
      refine toOption_bind_congr (ih left (by simp [operands]) input) fun front => ?_
      exact toOption_bind_congr (ih right (by simp [operands]) input) fun back => rfl
    | alternative left right =>
      rw [regrouped, eval, eval, regrouped_isEmptyCollection]
      refine toOption_bind_congr (ih left (by simp [operands]) input) fun vs => ?_
      split
      · rfl
      split
      · rfl
      · exact ih right (by simp [operands]) input
    | concat parts =>
      rw [regrouped, regroupedAll_eq_map]
      refine toOption_bind_congr ?_ fun text => rfl
      exact toOption_evalTexts options _ _ fun c hc => ih c hc input
    | arithmetic op left right =>
      refine toOption_bind_congr (ih left (by simp [operands]) input) fun vs => ?_
      refine toOption_bind_congr (single _ _ vs) fun a => ?_
      refine toOption_bind_congr (ih right (by simp [operands]) input) fun ws => ?_
      refine toOption_bind_congr (single _ _ ws) fun b => ?_
      exact toOption_bind_congr (toOption_apply op _ _ a b) fun c => rfl
    | compare op left right =>
      rw [regrouped, eval, eval, regrouped_isNullLiteral]
      refine toOption_bind_congr (ih right (by simp [operands]) input) fun ws => ?_
      refine toOption_bind_congr (single _ _ ws) fun b => ?_
      exact toOption_bind_congr (ih left (by simp [operands]) input) fun vs => rfl
    | call f args =>
      rw [regrouped, regroupedAll_eq_map]
      exact toOption_eval_call options f args ih input
    | assign path value =>
      exact toOption_bind_congr (ih value (by simp [operands]) input) fun vs => rfl
    | update path change =>
      refine toOption_bind_congr (ih change (by simp [operands]) _) fun vs => ?_
      split
      · rfl
      · exact toOption_bind_congr (single _ _ vs) fun v => rfl
    | _ => rfl

end Expr

end BlockQuery

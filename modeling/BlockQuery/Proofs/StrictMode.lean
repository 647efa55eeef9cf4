/-
  Strict mode.

  A strict evaluation takes the steps of a lenient one, and stops where an operation uses one value
  and has several.  `Stricter x y` says this of two computations: `x` does what `y` does, or it has
  been stopped.  Every way in which an evaluation puts computations together keeps it, so it is
  enough to look at the one place where the two modes differ, `Stream.single`.

  That a lenient evaluation is never stopped is a fact about its errors: no operation can raise that
  one (`Raises`).

  The induction is on the expression (`stricter_eval`).  In each case the operands are related by
  hypothesis, and what the operation does with them is put together by `bind`, `map` and going
  through a stream, for which there is one law each.
-/
import BlockQuery.Proofs.ErrorSource

namespace BlockQuery

open BlockQuery.Expr

variable {α β : Type}

/-- Whether `x` does what `y` does, unless it stops for several values where one is used.  Which
    operation stops it and at how many values is left open. -/
def Stricter (x y : Except EvalError α) : Prop :=
  x = y ∨ ∃ operation count, x = .error (.cardinality operation count)

/-- What is the same in both modes. -/
theorem Stricter.refl (x : Except EvalError α) : Stricter x x :=
  Or.inl rfl

/-- Step by step: if the first step is stopped so is the whole, and otherwise both modes go on with
    the same value. -/
theorem Stricter.bind {x y : Except EvalError α} {f g : α → Except EvalError β}
    (h : Stricter x y) (hfg : ∀ a, Stricter (f a) (g a)) : Stricter (x >>= f) (y >>= g) := by
  rcases h with rfl | ⟨operation, count, rfl⟩
  · cases x with
    | error e => exact .refl _
    | ok a => exact hfg a
  · exact Or.inr ⟨operation, count, rfl⟩

/-- What is done with a result without failing. -/
theorem Stricter.map {x y : Except EvalError α} (h : Stricter x y) (f : α → β) :
    Stricter (x.map f) (y.map f) := by
  rcases h with rfl | ⟨operation, count, rfl⟩
  · exact .refl _
  · exact Or.inr ⟨operation, count, rfl⟩

/-- Value by value, by induction on the stream: the first value that is stopped stops the stream,
    and up to there both modes have emitted the same. -/
theorem Stricter.streams {f g : Value → Except EvalError Stream} (h : ∀ v, Stricter (f v) (g v))
    (vs : Stream) : Stricter (Stream.bind f vs) (Stream.bind g vs) := by
  induction vs with
  | nil => exact .refl _
  | cons v vs ih => exact (h v).bind fun front => ih.bind fun back => .refl _

/-! ## Using one value

  Three functions ask for the only value of a stream: the operation on two operands, the mapping of
  the elements of a sequence, and the joining of texts.  The last two ask in a loop, so they need an
  induction of their own. -/

/-- The one place where the modes differ: several values where one is used. -/
theorem stricter_single (nested : Bool) (operation : Expr) (vs : Stream) :
    Stricter (Stream.single ⟨true, nested⟩ operation vs)
      (Stream.single ⟨false, nested⟩ operation vs) := by
  have hlenient : Stream.single ⟨false, nested⟩ operation vs = .ok (vs.head?.getD .null) :=
    if_neg fun hmany => Bool.false_ne_true hmany.1
  by_cases hmany : 1 < vs.length
  · exact Or.inr ⟨operation, vs.length, if_pos ⟨rfl, hmany⟩⟩
  · rw [hlenient]
    exact Or.inl (if_neg fun h => hmany h.2)

/-- Elements are mapped one by one, and of what each of them becomes one value is used.  A lenient
    evaluation takes the first of several, so up to there both modes have the same. -/
theorem stricter_mapItems (nested : Bool) (operation : Expr)
    {f g : Value → Except EvalError Stream} (h : ∀ v, Stricter (f v) (g v))
    (items : List Value) :
    Stricter (mapItems ⟨true, nested⟩ operation f items)
      (mapItems ⟨false, nested⟩ operation g items) := by
  induction items with
  | nil => exact .refl _
  | cons v items ih =>
    rw [mapItems, mapItems]
    refine (h v).bind ?_
    intro results
    split
    · exact ih
    · exact (stricter_single nested operation results).bind fun w => ih.bind fun ws => .refl _

/-- Texts are joined one by one, and each part must be one value. -/
theorem stricter_evalTexts (nested : Bool) (operation : Expr) (input : Value)
    {parts : List Expr}
    (h : ∀ c ∈ parts, Stricter (eval ⟨true, nested⟩ c input) (eval ⟨false, nested⟩ c input)) :
    Stricter (evalTexts ⟨true, nested⟩ operation parts input)
      (evalTexts ⟨false, nested⟩ operation parts input) := by
  induction parts with
  | nil => exact .refl _
  | cons c parts ih =>
    rw [List.forall_mem_cons] at h
    rw [evalTexts, evalTexts]
    refine h.1.bind ?_
    intro vs
    exact (stricter_single nested operation vs).bind fun v => (ih h.2).bind fun more => .refl _

/-! ## Expressions

  A call with a wrong number of arguments fails in the same way in both modes.  Otherwise it has one
  operand at most, and what it does with it is one of the ways above. -/

/-- The functions, with the induction hypothesis for their arguments, on every input, since `map`
    evaluates its argument on the elements. -/
theorem stricter_call (nested : Bool) (f : Builtin) (args : List Expr)
    (ih : ∀ c ∈ args, ∀ v, Stricter (eval ⟨true, nested⟩ c v) (eval ⟨false, nested⟩ c v))
    (input : Value) :
    Stricter (eval ⟨true, nested⟩ (.call f args) input)
      (eval ⟨false, nested⟩ (.call f args) input) := by
  rcases eval_call_or_single f args with ⟨-, hfail⟩ | hone
  · rw [hfail, hfail]
    exact .refl _
  cases f with
  | length => exact .refl _
  | keys => exact .refl _
  | toEntries => exact .refl _
  | has =>
    obtain ⟨key, rfl⟩ := hone rfl
    exact (ih key List.mem_cons_self input).bind fun keys => .refl _
  | map =>
    obtain ⟨mapper, rfl⟩ := hone rfl
    cases input with
    | sequence items =>
      exact (stricter_mapItems nested _ (ih mapper List.mem_cons_self) items).map _
    | _ => exact .refl _
  | select =>
    obtain ⟨condition, rfl⟩ := hone rfl
    exact (ih condition List.mem_cons_self input).bind fun vs => .refl _
  | del =>
    obtain ⟨target, rfl⟩ := hone rfl
    exact .refl _

/-- A strict evaluation does what the lenient one does, or it is stopped.  By induction on the
    expression, for all inputs; no case looks at the mode but through `Stream.single`. -/
theorem stricter_eval (nested : Bool) (e : Expr) (input : Value) :
    Stricter (eval ⟨true, nested⟩ e input) (eval ⟨false, nested⟩ e input) := by
  induction e using Expr.induct generalizing input with
  | step e ih =>
    have single := stricter_single nested
    cases e with
    | identity => exact .refl _
    | recursiveDescent => exact .refl _
    | literal v => exact .refl _
    | field name => exact .refl _
    | emptyCollection => exact .refl _
    | index i => exact .refl _
    | slice start stop => exact .refl _
    | iterate => exact .refl _
    | collect inner => exact (ih inner (by simp [operands]) input).map _
    | pipe left right =>
      exact (ih left (by simp [operands]) input).bind
        (Stricter.streams (ih right (by simp [operands])))
    | descendPipe inner =>
      rw [eval, eval, descendWith_eq_bind, descendWith_eq_bind]
      exact Stricter.streams (ih inner (by simp [operands])) _
    | comma left right =>
      refine (ih left (by simp [operands]) input).bind ?_
      intro front
      exact (ih right (by simp [operands]) input).bind fun back => .refl _
    | alternative left right =>
      refine (ih left (by simp [operands]) input).bind ?_
      intro vs
      split
      · exact .refl _
      split
      · exact .refl _
      · exact ih right (by simp [operands]) input
    | concat parts =>
      exact (stricter_evalTexts nested _ input fun c hc => ih c hc input).bind fun text => .refl _
    | arithmetic op left right =>
      refine (ih left (by simp [operands]) input).bind fun vs => (single _ vs).bind ?_
      intro a
      refine (ih right (by simp [operands]) input).bind fun ws => (single _ ws).bind ?_
      exact fun b => .refl _
    | compare op left right =>
      refine (ih right (by simp [operands]) input).bind fun ws => (single _ ws).bind ?_
      intro b
      exact (ih left (by simp [operands]) input).bind fun vs => .refl _
    | call f args => exact stricter_call nested f args ih input
    | assign path value =>
      exact (ih value (by simp [operands]) input).bind fun vs => .refl _
    | update path change =>
      refine (ih change (by simp [operands]) _).bind ?_
      intro vs
      split
      · exact .refl _
      · exact (single _ vs).bind fun v => .refl _

/-- **Strict mode only adds errors about several values where one is used.**  A strict evaluation
    has the result of the lenient one, the same stream or the same error, or it fails with that
    error, in an operation of the expression; a lenient evaluation never does. -/
theorem Expr.eval_strict (e : Expr) (input : Value) (nested : Bool) :
    let strict := eval ⟨true, nested⟩ e input
    let lenient := eval ⟨false, nested⟩ e input
    (strict = lenient ∨ ∃ operation count, OccursIn operation e ∧ 1 < count ∧
      strict = .error (.cardinality operation count)) ∧
    ∀ operation count, lenient ≠ .error (.cardinality operation count) := by
  intro strict lenient
  constructor
  · rcases stricter_eval nested e input with hsame | ⟨operation, count, hstop⟩
    · exact Or.inl hsame
    · obtain ⟨n, hn, hraise⟩ := exists_raises_of_eval hstop
      cases hraise with
      | cardinality _ hmany => exact Or.inr ⟨operation, count, hn, hmany, hstop⟩
  · intro operation count hstop
    obtain ⟨n, -, hraise⟩ := exists_raises_of_eval hstop
    cases hraise with
    | cardinality hstrict _ => exact Bool.false_ne_true hstrict

/-- Where a comparison has two values on its right, the lenient one takes the first. -/
example :
    let e : Expr := .compare .equal .identity .iterate
    let input : Value := .sequence [.null, .null]
    eval ⟨true, false⟩ e input = .error (.cardinality e 2) ∧
      eval ⟨false, false⟩ e input = .ok [.boolean false] :=
  ⟨rfl, rfl⟩

end BlockQuery

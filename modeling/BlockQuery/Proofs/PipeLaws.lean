/-
  Pipes as a monoid over streams.

  A chain of steps is grouped to the left and a written pipe to the right, so queries rely on
  `(a | b) | c` and `a | (b | c)` being the same.  On one value of `a` they are: the steps come in
  the same order.  On several values the left grouping makes everything that `b` emits before `c`
  sees any of it, so another failure may come first; what is emitted is the same, and so is whether
  anything is.  `Except.toOption` says so: it forgets which error it was.  A list in front of a pipe
  changes the order in the same way.
-/
import BlockQuery.Proofs.Regrouped

namespace BlockQuery

/-! ## Streams

  A pipe is a step over a stream, and two pipes are two steps.  The laws are those of a monad, with
  the order of errors kept where there is at most one value. -/

section Streams

variable {f g : Value → Except EvalError Stream}

/-- On one value at most, two steps over a stream are made in the order of one step after the
    other on the value. -/
theorem Stream.bind_bind_of_length_le {vs : Stream} (h : vs.length ≤ 1) :
    Stream.bind f vs >>= Stream.bind g = Stream.bind (fun v => f v >>= Stream.bind g) vs := by
  rcases vs with _ | ⟨v, _ | ⟨w, vs⟩⟩
  · rfl
  · rw [Stream.bind_singleton, Stream.bind_singleton]
  · simp only [List.length_cons] at h
    omega

/-- A step that emits what it is given leaves a stream as it is. -/
theorem Stream.bind_self (vs : Stream) : Stream.bind (fun v => .ok [v]) vs = .ok vs := by
  induction vs with
  | nil => rfl
  | cons v vs ih =>
    rw [Stream.bind, ih]
    rfl

/-- Two streams may be joined before a step or after it. -/
theorem toOption_streams_append (x y : Except EvalError Stream) :
    (do let vs ← x; let ws ← y; Stream.bind f (vs ++ ws)).toOption =
      (do let front ← x >>= Stream.bind f
          let back ← y >>= Stream.bind f
          return front ++ back).toOption := by
  simp only [toOption_bind, Stream.bind_append, Option.bind_assoc]
  refine congrArg _ (funext fun vs => ?_)
  -- the second stream is made after the step on the first one, or before
  exact Option.bind_comm _ _

end Streams

namespace Expr

/-- **Pipes form a monoid over streams and distribute over lists.**  The two groupings of three
    expressions emit the same stream or both fail, and with the same error where the first
    expression emits one value at most; the identity changes nothing on either side; and a list in
    front of a pipe is the list of the pipes, the same stream or both fail. -/
theorem eval_pipe_monoid (options : EvalOptions) (a b c : Expr) (input : Value) :
    (eval options (pipe (pipe a b) c) input).toOption =
      (eval options (pipe a (pipe b c)) input).toOption ∧
    ((∀ vs, eval options a input = .ok vs → vs.length ≤ 1) →
      eval options (pipe (pipe a b) c) input = eval options (pipe a (pipe b c)) input) ∧
    (eval options (pipe identity a) input = eval options a input ∧
      eval options (pipe a identity) input = eval options a input) ∧
    (eval options (pipe (comma a b) c) input).toOption =
      (eval options (comma (pipe a c) (pipe b c)) input).toOption := by
  refine ⟨toOption_eval_pipe_pipe options a b c input, ?_, ⟨?_, ?_⟩, ?_⟩
  · intro hone
    show (eval options a input >>= Stream.bind (eval options b)) >>= Stream.bind (eval options c) =
      eval options a input >>= Stream.bind fun v => eval options b v >>= Stream.bind (eval options c)
    cases ha : eval options a input with
    | error e => rfl
    | ok vs => exact Stream.bind_bind_of_length_le (hone vs ha)
  · exact Stream.bind_singleton _ input
  · show eval options a input >>= Stream.bind (fun v => .ok [v]) = _
    rw [funext Stream.bind_self]
    exact bind_pure _
  · have hlist : eval options (pipe (comma a b) c) input = (do
        let vs ← eval options a input
        let ws ← eval options b input
        Stream.bind (eval options c) (vs ++ ws)) := by
      simp only [eval, bind_assoc, pure_bind]
    rw [hlist]
    exact toOption_streams_append _ _

/-- The groupings of a chain that fails behind its first step, with one error. -/
theorem eval_pipe_monoid_failing :
    let a := Expr.field "a"
    let input := Value.mapping [("a", .sequence [.sequence [.null], .boolean true])]
    (∀ vs, eval {} a input = .ok vs → vs.length ≤ 1) ∧
      eval {} (pipe (pipe a iterate) (index 0)) input =
        eval {} (pipe a (pipe iterate (index 0))) input ∧
      eval {} (pipe (pipe a iterate) (index 0)) input =
        .error (.wrongKind (index 0) "sequence" .boolean) := by
  intro a input
  have hone : ∀ vs, eval {} a input = .ok vs → vs.length ≤ 1 := by
    rintro vs ⟨⟩
    exact Nat.le_refl 1
  exact ⟨hone, (eval_pipe_monoid {} a iterate (index 0) input).2.1 hone, rfl⟩

/-- Behind several values the groupings may fail with different errors. -/
example :
    let input := Value.sequence [.sequence [.boolean true], .string "x"]
    let failure := EvalError.wrongKind iterate "sequence or mapping"
    eval {} (pipe (pipe iterate iterate) iterate) input = .error (failure .string) ∧
      eval {} (pipe iterate (pipe iterate iterate)) input = .error (failure .boolean) :=
  ⟨rfl, rfl⟩

end Expr

end BlockQuery

/-
  Walking a tree and evaluating on the way.

  `descendWith` makes the streams of a tree while it walks: that of the value first, then those of
  its parts.  Collecting all nodes first and evaluating on each of them afterwards gives the same
  streams in the same order, and the first node that fails is the same one.  So the operation that
  the grammar builds behind `..` is the pipe that it stands for.

  The walk joins streams as the tree is nested, and the pipe joins them in a row; the order of
  evaluation is the same, so no error comes earlier or later.  The induction is on the tree, and all
  that it needs of streams is how they join over a list in two parts (`Stream.bind_append`).
-/
import BlockQuery.Proofs.Tree
import BlockQuery.Query.Eval
import BlockQuery.Query.Grammar

namespace BlockQuery

variable (f : Value → Except EvalError Stream)

/-- The streams of values in a row are those of the front and then those of the back. -/
theorem Stream.bind_append (front back : Stream) :
    Stream.bind f (front ++ back) = do
      let vs ← Stream.bind f front
      let ws ← Stream.bind f back
      return vs ++ ws := by
  induction front with
  | nil =>
    show Stream.bind f back = Stream.bind f back >>= fun ws => .ok ([] ++ ws)
    cases Stream.bind f back with
    | error e => rfl
    | ok ws => rfl
  | cons v front ih =>
    rw [List.cons_append, Stream.bind, Stream.bind, ih]
    -- the steps are the same, in the same order; only the streams are joined in another order
    cases f v with
    | error e => rfl
    | ok own =>
      cases Stream.bind f front with
      | error e => rfl
      | ok vs =>
        cases Stream.bind f back with
        | error e => rfl
        | ok ws => exact congrArg Except.ok (List.append_assoc own vs ws).symm

/-- A lone value has its own stream. -/
theorem Stream.bind_singleton (v : Value) : Stream.bind f [v] = f v := by
  show (f v >>= fun own => .ok (own ++ [])) = f v
  cases f v with
  | error e => rfl
  | ok own => exact congrArg Except.ok (List.append_nil own)

/-- Joining the streams of values is making all of them and joining them afterwards. -/
theorem Stream.bind_eq_traverse (vs : Stream) :
    Stream.bind f vs = (Stream.traverse f vs).map List.flatten := by
  induction vs with
  | nil => rfl
  | cons v vs ih =>
    rw [Stream.bind, Stream.traverse, ih]
    cases f v with
    | error e => rfl
    | ok front => cases Stream.traverse f vs <;> rfl

/-- Walking a tree makes the streams of its nodes, in their order. -/
theorem descendWith_eq_bind (v : Value) : descendWith f v = Stream.bind f v.descendants := by
  induction v using Value.induct with
  | null => exact (Stream.bind_singleton f _).symm
  | boolean b => exact (Stream.bind_singleton f _).symm
  | number n => exact (Stream.bind_singleton f _).symm
  | string s => exact (Stream.bind_singleton f _).symm
  | sequence items ih =>
    have hitems : descendItems f items = Stream.bind f (Value.itemDescendants items) := by
      induction items with
      | nil => rfl
      | cons v items ihitems =>
        rw [List.forall_mem_cons] at ih
        rw [descendItems, Value.itemDescendants, Stream.bind_append, ih.1, ihitems ih.2]
    rw [descendWith, Value.descendants, Stream.bind, hitems]
  | mapping es ih =>
    have hentries : descendEntries f es = Stream.bind f (Value.entryDescendants es) := by
      induction es with
      | nil => rfl
      | cons e es ihentries =>
        rw [List.forall_mem_cons] at ih
        rw [descendEntries, Value.entryDescendants, Stream.bind_append, ih.1, ihentries ih.2]
    rw [descendWith, Value.descendants, Stream.bind, hentries]

namespace Expr

/-- **The operation behind `..` is the pipe that it stands for**, on every input and with all
    options: the same stream or the same error.  So the grammar may put it in the place of that
    pipe. -/
theorem eval_descendPipe (options : EvalOptions) (inner : Expr) (input : Value) :
    eval options (.descendPipe inner) input = eval options (.pipe .recursiveDescent inner) input ∧
      ∀ left, eval options (Grammar.pipeOf left inner) input =
        eval options (.pipe left inner) input := by
  have hwalk : eval options (.descendPipe inner) input =
      eval options (.pipe .recursiveDescent inner) input :=
    descendWith_eq_bind (fun v => eval options inner v) input
  refine ⟨hwalk, ?_⟩
  intro left
  cases left with
  | recursiveDescent => exact hwalk
  | _ => rfl

end Expr

end BlockQuery

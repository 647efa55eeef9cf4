/-
  Mapping a sequence and collecting a pipe.

  `map` has a loop of its own: it leaves out the elements on which its expression emits nothing and
  uses each other stream as one value.  Collecting `.[] | g` joins the streams as they are.  The
  loop is the same walk as the pipe, with each stream cut down to what `map` keeps of it
  (`mapItems_eq_bind`), so the two agree, errors and their order included, where no stream has
  anything to lose.  A `select` never emits more than its input, and with it both filter.
-/
import BlockQuery.Proofs.Descent
import BlockQuery.Proofs.Except

namespace BlockQuery

namespace Stream

variable {f g : Value → Except EvalError Stream}

/-- What `map` keeps of the stream of one element: nothing, or the one value that it uses. -/
def kept (options : EvalOptions) (operation : Expr) (vs : Stream) : Except EvalError Stream :=
  if vs.isEmpty then .ok [] else (single options operation vs).map ([·])

/-- A stream of one value at most is kept whole, in strict mode too. -/
theorem kept_of_length_le {vs : Stream} (h : vs.length ≤ 1) (options : EvalOptions)
    (operation : Expr) : kept options operation vs = .ok vs := by
  rcases vs with _ | ⟨v, _ | ⟨w, vs⟩⟩
  · rfl
  · have hone : ¬ (options.strict = true ∧ 1 < [v].length) := fun h => Nat.lt_irrefl 1 h.2
    rw [kept, single, if_neg hone]
    rfl
  · simp only [List.length_cons] at h
    omega

/-- The streams of some values are the same when they are for each of them. -/
theorem bind_congr {vs : Stream} (h : ∀ v ∈ vs, f v = g v) : bind f vs = bind g vs := by
  induction vs with
  | nil => rfl
  | cons v vs ih =>
    rw [List.forall_mem_cons] at h
    rw [bind, bind, h.1, ih h.2]

end Stream

/-- The loop of `map` joins the streams of the elements, each cut down to what is kept of it. -/
theorem mapItems_eq_bind (options : EvalOptions) (operation : Expr)
    (f : Value → Except EvalError Stream) (items : List Value) :
    mapItems options operation f items =
      Stream.bind (fun v => f v >>= Stream.kept options operation) items := by
  induction items with
  | nil => rfl
  | cons v items ih =>
    rw [mapItems, Stream.bind, ← ih]
    cases f v with
    | error e => rfl
    | ok results =>
      cases results with
      | nil =>
        -- the element is left out, and nothing is joined in front of the others
        show mapItems options operation f items =
          mapItems options operation f items >>= fun ws => .ok ([] ++ ws)
        cases mapItems options operation f items <;> rfl
      | cons w results =>
        show (Stream.single options operation (w :: results) >>= fun x =>
            mapItems options operation f items >>= fun ws => .ok (x :: ws)) =
          (Stream.single options operation (w :: results)).map ([·]) >>= fun front =>
            mapItems options operation f items >>= fun ws => .ok (front ++ ws)
        cases Stream.single options operation (w :: results) <;> rfl

/-- Where no element has more than one result, the loop of `map` joins their streams as they are. -/
theorem mapItems_eq_bind_of_length_le (options : EvalOptions) (operation : Expr)
    {f : Value → Except EvalError Stream} {items : List Value}
    (h : ∀ v ∈ items, ∀ vs, f v = .ok vs → vs.length ≤ 1) :
    mapItems options operation f items = Stream.bind f items := by
  rw [mapItems_eq_bind]
  refine Stream.bind_congr fun v hv => ?_
  cases hresults : f v with
  | error e => rfl
  | ok vs => exact Stream.kept_of_length_le (h v hv vs hresults) options operation

namespace Expr

variable (options : EvalOptions)

/-! ## Filters

  On one value a `select` emits the value or nothing, so it is a filter with an error in front.
  Along a sequence all conditions are evaluated, and what they accept is filtered afterwards. -/

/-- Whether `select` keeps a value: the condition has a stream on it, with a true value in it. -/
def accepts (condition : Expr) (v : Value) : Bool :=
  match eval options condition v with
  | .ok vs => vs.any Value.isTruthy
  | .error _ => false

/-- A `select` fails where its condition does, and otherwise filters its input. -/
theorem eval_select (condition : Expr) (v : Value) :
    eval options (call .select [condition]) v =
      (eval options condition v).map fun _ => [v].filter (accepts options condition) := by
  show (eval options condition v >>= fun vs => .ok (if vs.any Value.isTruthy then [v] else [])) = _
  cases h : eval options condition v with
  | error e => rfl
  | ok vs =>
    have haccepts : accepts options condition v = vs.any Value.isTruthy := by rw [accepts, h]
    rw [Except.map, List.filter_cons, haccepts]
    rfl

/-- A `select` has at most one result, so `map` keeps it whole. -/
theorem length_le_of_eval_select {condition : Expr} {v : Value} {vs : Stream}
    (h : eval options (call .select [condition]) v = .ok vs) : vs.length ≤ 1 := by
  rw [eval_select] at h
  obtain ⟨-, -, rfl⟩ := map_eq_ok.1 h
  exact List.length_filter_le _ [v]

/-- Selecting along a sequence evaluates the condition on every element and then filters. -/
theorem bind_select (condition : Expr) (items : List Value) :
    Stream.bind (eval options (call .select [condition])) items =
      (Stream.traverse (eval options condition) items).map
        fun _ => items.filter (accepts options condition) := by
  induction items with
  | nil => rfl
  | cons v items ih =>
    rw [Stream.bind, Stream.traverse, ih, eval_select]
    cases eval options condition v with
    | error e => rfl
    | ok vs =>
      cases Stream.traverse (eval options condition) items with
      | error e => rfl
      | ok rest => exact congrArg Except.ok (List.filter_append [v] items).symm

/-! ## Maps

  The two forms are compared by what they make of a sequence; on any other value both fail, each
  with an error of its own. -/

/-- **Mapping is iterating and collecting** where no element has more than one result: the same
    sequence or the same error.  So a `select` filters in either form.  The first element on which
    its condition fails decides the error; where there is none, the elements that it accepts stay,
    in their order. -/
theorem eval_map_eq_collect (items : List Value) :
    (∀ g, (∀ v ∈ items, ∀ vs, eval options g v = .ok vs → vs.length ≤ 1) →
      eval options (call .map [g]) (.sequence items) =
        eval options (collect (pipe iterate g)) (.sequence items)) ∧
    ∀ f, eval options (call .map [call .select [f]]) (.sequence items) =
        eval options (collect (pipe iterate (call .select [f]))) (.sequence items) ∧
      eval options (call .map [call .select [f]]) (.sequence items) =
        (Stream.traverse (eval options f) items).map
          fun _ => [.sequence (items.filter (accepts options f))] := by
  have hselect : ∀ f, ∀ v ∈ items, ∀ vs,
      eval options (call .select [f]) v = .ok vs → vs.length ≤ 1 :=
    fun f v _ vs => length_le_of_eval_select options
  refine ⟨?_, ?_⟩
  · intro g hg
    exact congrArg (Except.map fun vs => [Value.sequence vs])
      (mapItems_eq_bind_of_length_le options _ hg)
  · intro f
    have hcollect := congrArg (Except.map fun vs => [Value.sequence vs])
      (mapItems_eq_bind_of_length_le options (call .map [call .select [f]]) (hselect f))
    refine ⟨hcollect, hcollect.trans ?_⟩
    rw [bind_select]
    cases Stream.traverse (eval options f) items <;> rfl

/-- An expression that emits null on one element, nothing on others and fails on the last one. -/
theorem eval_map_eq_collect_index :
    let options : EvalOptions := ⟨true, false⟩
    let items := [Value.sequence [.null, .boolean true], .null, .sequence []]
    let failing := items ++ [.boolean true]
    (∀ v ∈ failing, ∀ vs, eval options (index 0) v = .ok vs → vs.length ≤ 1) ∧
      eval options (call .map [index 0]) (.sequence items) = .ok [.sequence [.null]] ∧
      eval options (call .map [index 0]) (.sequence failing) =
        eval options (collect (pipe iterate (index 0))) (.sequence failing) ∧
      eval options (call .map [index 0]) (.sequence failing) =
        .error (.wrongKind (index 0) "sequence" .boolean) := by
  intro options items failing
  have hone : ∀ v ∈ failing, ∀ vs, eval options (index 0) v = .ok vs → vs.length ≤ 1 := by
    intro v hv vs hvs
    simp only [failing, items, List.cons_append, List.nil_append, List.mem_cons,
      List.not_mem_nil, or_false] at hv
    rcases hv with rfl | rfl | rfl | rfl
    all_goals cases hvs
    all_goals decide
  exact ⟨hone, rfl, (eval_map_eq_collect options failing).1 (index 0) hone, rfl⟩

/-- Where an element has several results, `map` uses the first one only. -/
example :
    let items := [Value.sequence [.null, .boolean true]]
    eval {} (call .map [iterate]) (.sequence items) = .ok [.sequence [.null]] ∧
      eval {} (collect (pipe iterate iterate)) (.sequence items) =
        .ok [.sequence [.null, .boolean true]] :=
  ⟨rfl, rfl⟩

end Expr

end BlockQuery

/-
  Evaluating a path and looking it up.

  An expression that walks to one node has a path, and there are two ways to follow it: evaluation
  takes one step after the other and has a rule for what is missing at each (null for a key, nothing
  for an index, an error for an index of what is no sequence), while `lookup?` gives up at the first
  step that leads nowhere.  Where `lookup?` finds a node, evaluation emits that node alone; where it
  finds none, evaluation emits nothing but null (`Misses`).  So what an assignment has written is
  what its target evaluates to.

  `Finds` is the relation between the two, and it goes through a pipe as the look-up goes along a
  path (`Finds.bind`); the one thing to check is that nothing is found inside null, on which
  evaluation goes on where the look-up has given up.  The induction is on the expression, and in it
  a chain of steps is nothing but nested pipes.
-/
import BlockQuery.Proofs.Descent
import BlockQuery.Proofs.Operands
import BlockQuery.Proofs.PathLens

namespace BlockQuery

/-! ## Evaluating a path

  A path is made of pipes, fields and indices, and of the identity.  For each of these the
  evaluation is compared with the look-up on any value, of whatever kind. -/

/-- Whether an evaluation finds nothing: it emits null alone, or nothing, or a step meets a value of
    a kind that it cannot be taken in. -/
def Misses (x : Except EvalError Stream) : Prop :=
  x = .ok [.null] ∨ x = .ok [] ∨
    ∃ operation expected found, x = .error (.wrongKind operation expected found)

/-- Whether an evaluation agrees with what is found at a path: it emits that alone, or there is
    nothing and it finds nothing. -/
def Finds (x : Except EvalError Stream) : Option Value → Prop
  | some v => x = .ok [v]
  | none => Misses x

/-- Two paths are followed one behind the other. -/
theorem Finds.bind {x : Except EvalError Stream} {f : Value → Except EvalError Stream}
    {o : Option Value} {g : Value → Option Value} (h : Finds x o)
    (hf : ∀ v, Finds (f v) (g v)) (hnull : ∀ v, g .null = some v → v = .null) :
    Finds (x >>= Stream.bind f) (o.bind g) := by
  cases o with
  | some v =>
    obtain rfl : x = .ok [v] := h
    show Finds (Stream.bind f [v]) (g v)
    rw [Stream.bind_singleton]
    exact hf v
  | none =>
    rcases h with rfl | rfl | ⟨operation, expected, found, rfl⟩
    · -- the missing key goes on as null, in which nothing but null is found
      show Misses (Stream.bind f [.null])
      rw [Stream.bind_singleton]
      have hfinds := hf .null
      cases hg : g .null with
      | none => rwa [hg] at hfinds
      | some v =>
        rw [hg, hnull v hg] at hfinds
        exact Or.inl hfinds
    · exact Or.inr (Or.inl rfl)
    · exact Or.inr (Or.inr ⟨operation, expected, found, rfl⟩)

namespace Expr

/-- An element at an index is found where there is one. -/
theorem finds_elementAt (operation : Expr) (i : Int) (v : Value) :
    Finds (elementAt operation i v) (v.lookup? [.index i]) := by
  cases v with
  | null => exact Or.inr (Or.inl rfl)
  | sequence items =>
    simp only [Value.lookup?, Value.child?, elementAt]
    cases (resolveIndex? i items.length).bind fun n => items[n]? with
    | none => exact Or.inr (Or.inl rfl)
    | some c => rfl
  | _ => exact Or.inr (Or.inr ⟨operation, "sequence", _, rfl⟩)

/-- The value under a key is found where there is one. -/
theorem finds_get? (name : String) (v : Value) :
    Finds (.ok [(v.get? name).getD .null]) (v.lookup? [.field name]) := by
  cases v with
  | mapping es =>
    simp only [Value.lookup?, Value.child?, Value.get?]
    cases es.lookup name with
    | none => exact Or.inl rfl
    | some c => rfl
  | _ => exact Or.inl rfl

/-- A path is evaluated to what is found at it. -/
theorem finds_eval {e : Expr} {p : Path} (h : e.path? = .ok p) (options : EvalOptions)
    (v : Value) : Finds (eval options e v) (v.lookup? p) := by
  induction e using Expr.induct generalizing p v with
  | step e ih =>
    cases e with
    | identity =>
      obtain rfl : [] = p := Except.ok.inj h
      rfl
    | field name =>
      obtain rfl : [.field name] = p := Except.ok.inj h
      exact finds_get? name v
    | index i =>
      obtain rfl : [.index i] = p := Except.ok.inj h
      exact finds_elementAt (.index i) i v
    | pipe left right =>
      obtain ⟨q, hq, h⟩ := bind_eq_ok.1 h
      obtain ⟨r, hr, h⟩ := bind_eq_ok.1 h
      obtain rfl : q ++ r = p := Except.ok.inj h
      rw [Value.lookup?_append]
      refine (ih left (by simp [operands]) hq v).bind (ih right (by simp [operands]) hr) ?_
      intro x hx
      by_cases hempty : r = []
      · subst hempty
        exact (Option.some.inj hx).symm
      · rw [Value.lookup?_null hempty] at hx
        cases hx
    | _ => cases h

/-! ## Assignments

  An assignment writes each value into the document as it was, so its outputs stand beside the
  values one by one. -/

/-- What a computation makes of each value, one by one. -/
theorem forall₂_of_traverse {α : Type} {f : Value → Except EvalError α} {vs : Stream}
    {as : List α} (h : Stream.traverse f vs = .ok as) :
    List.Forall₂ (fun v a => f v = .ok a) vs as := by
  induction vs generalizing as with
  | nil =>
    obtain rfl : [] = as := Except.ok.inj h
    exact .nil
  | cons v vs ih =>
    obtain ⟨a, ha, h⟩ := bind_eq_ok.1 h
    obtain ⟨rest, hrest, h⟩ := bind_eq_ok.1 h
    obtain rfl : a :: rest = as := Except.ok.inj h
    exact .cons ha (ih hrest)

/-- What is written at a path is what the path evaluates to afterwards. -/
theorem eval_of_assign {e : Expr} {p : Path} (h : e.path? = .ok p) (options : EvalOptions)
    {v x v' : Value} (hassign : v.assign p x = .ok v') : eval options e v' = .ok [x] := by
  have hfinds := finds_eval h options v'
  rwa [Value.lookup?_assign hassign] at hfinds

/-- **Evaluation reads a path as `lookup?` does.**  An expression with a path emits what is found
    there and nothing else; where nothing is found it emits null, or nothing, or fails for the kind
    of a value.  So the outputs of an assignment are as many as the values assigned, and on each of
    them the target evaluates to its value. -/
theorem eval_of_path? {e : Expr} {p : Path} (h : e.path? = .ok p) (options : EvalOptions)
    (v : Value) :
    (∀ x, v.lookup? p = some x → eval options e v = .ok [x]) ∧
    (v.lookup? p = none → eval options e v = .ok [.null] ∨ eval options e v = .ok [] ∨
      ∃ operation expected found, eval options e v = .error (.wrongKind operation expected found)) ∧
    ∀ (r : Expr) (outs vals : List Value),
      eval options (.assign p r) v = .ok outs → eval options r v = .ok vals →
      outs.length = vals.length ∧
      ∀ (i : Nat) (out val : Value), outs[i]? = some out → vals[i]? = some val →
        eval options e out = .ok [val] := by
  have hfinds := finds_eval h options v
  refine ⟨?_, ?_, ?_⟩
  · intro x hx
    rwa [hx] at hfinds
  · intro hnone
    rwa [hnone] at hfinds
  · intro r outs vals houts hvals
    obtain ⟨vs, hvs, houts⟩ := bind_eq_ok.1 houts
    obtain rfl : vals = vs := Except.ok.inj (hvals.symm.trans hvs)
    have hall := forall₂_of_traverse houts
    refine ⟨hall.length_eq.symm, ?_⟩
    intro i out val hout hval
    obtain ⟨hi, rfl⟩ := List.getElem?_eq_some_iff.1 hval
    obtain ⟨hi', rfl⟩ := List.getElem?_eq_some_iff.1 hout
    have hassign : liftPath (v.assign p vals[i]) = .ok outs[i] := hall.get hi hi'
    cases hpath : v.assign p vals[i] with
    | error cause => rw [hpath] at hassign; cases hassign
    | ok v' =>
      rw [hpath] at hassign
      obtain rfl : v' = outs[i] := Except.ok.inj hassign
      exact eval_of_assign h options hpath

/-- A path with nested pipes that counts from the end: found, not found, and written. -/
theorem eval_of_path?_nested :
    let e : Expr := .pipe (.field "a") (.pipe .identity (.pipe (.index (-1)) (.field "b")))
    let p : Path := [.field "a", .index (-1), .field "b"]
    let v := Value.mapping [("a", .sequence [.null, .mapping [("b", .boolean true)]])]
    let v' := Value.mapping [("a", .sequence [.null, .mapping [("b", .null)]])]
    let r : Expr := .comma (.literal .null) (.literal (.boolean true))
    e.path? = .ok p ∧ eval {} e v = .ok [.boolean true] ∧
      (eval {} e .null = .ok [.null] ∨ eval {} e .null = .ok [] ∨
        ∃ operation expected found,
          eval {} e .null = .error (.wrongKind operation expected found)) ∧
      eval {} (.assign p r) v = .ok [v', v] ∧ eval {} r v = .ok [.null, .boolean true] ∧
      eval {} e v' = .ok [.null] := by
  intro e p v v' r
  have hpath : e.path? = .ok p := rfl
  have hassign : eval {} (.assign p r) v = .ok [v', v] := rfl
  have hvalues : eval {} r v = .ok [.null, .boolean true] := rfl
  have hall := eval_of_path? hpath {} v
  refine ⟨hpath, hall.1 _ rfl, (eval_of_path? hpath {} .null).2.1 rfl, hassign, hvalues, ?_⟩
  exact (hall.2.2 r _ _ hassign hvalues).2 0 v' .null rfl rfl

end Expr

end BlockQuery

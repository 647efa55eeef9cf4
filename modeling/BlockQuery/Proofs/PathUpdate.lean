/-
  An update reads, transforms and writes.

  What an update changes is looked up, and what an assignment writes is evaluated; where the target
  emits one value the two are the same one (`current_of_eval`), whether it is in the document or
  stands for something that is missing.  So both start from the same stream, that of the change on
  this value.  An update then writes its first value and an assignment writes each of them, and
  whether a write fails does not depend on the value (`assign_error_of_error`); with no value at
  all an update removes.
-/
import BlockQuery.Proofs.PathReading
import BlockQuery.Proofs.StrictMode

namespace BlockQuery

/-! ## Streams

  An assignment writes every value of a stream, and an update the first.  So the streams that are
  written along a path are looked at by their first value, which decides whether any write fails. -/

section Streams

variable {α : Type} {f : Value → Except EvalError α}

/-- What can be made of each value can be made of a stream. -/
theorem exists_traverse {vs : Stream} (h : ∀ v ∈ vs, ∃ a, f v = .ok a) :
    ∃ as, Stream.traverse f vs = .ok as := by
  induction vs with
  | nil => exact ⟨[], rfl⟩
  | cons v vs ih =>
    rw [List.forall_mem_cons] at h
    obtain ⟨a, ha⟩ := h.1
    obtain ⟨as, has⟩ := ih h.2
    exact ⟨a :: as, by rw [Stream.traverse, ha, has]; rfl⟩

/-- A stream of one value is made of that value. -/
theorem traverse_singleton (f : Value → Except EvalError α) (v : Value) :
    Stream.traverse f [v] = (f v).map ([·]) := by
  rw [Stream.traverse]
  cases f v with
  | error e => rfl
  | ok a => rfl

/-- Where a second value is no error, or there is none, the first one is used. -/
theorem single_cons {options : EvalOptions} (operation : Expr) {v : Value} {vs : Stream}
    (h : options.strict = false ∨ vs = []) :
    Stream.single options operation (v :: vs) = .ok v := by
  apply if_neg
  rintro ⟨hstrict, hmany⟩
  rcases h with h | rfl
  · rw [h] at hstrict
    cases hstrict
  · exact Nat.lt_irrefl 1 hmany

end Streams

/-- Values are written at a path one by one, and all of them are written or none.  Each is written
    into the same document, so whether that works is decided by the path alone. -/
theorem traverse_assign (document : Value) (p : Path) (v : Value) (vs : Stream) :
    (∃ w ws, document.assign p v = .ok w ∧
      Stream.traverse (fun v => liftPath (document.assign p v)) (v :: vs) = .ok (w :: ws)) ∨
    ∃ cause, document.assign p v = .error cause ∧
      Stream.traverse (fun v => liftPath (document.assign p v)) (v :: vs) =
        .error (.path cause) := by
  cases hv : document.assign p v with
  | error cause =>
    refine Or.inr ⟨cause, rfl, ?_⟩
    rw [Stream.traverse, hv]
    rfl
  | ok w =>
    have hall : ∀ u ∈ vs, ∃ w, liftPath (document.assign p u) = .ok w := by
      intro u _
      obtain ⟨w', hw'⟩ := Value.exists_assign hv u
      exact ⟨w', by rw [hw']; rfl⟩
    obtain ⟨ws, hws⟩ := exists_traverse hall
    refine Or.inl ⟨w, ws, rfl, ?_⟩
    rw [Stream.traverse, hv, hws]
    rfl

namespace Expr

variable {options : EvalOptions} {target change : Expr} {p : Path} {v x : Value}

/-! ## What is read

  The value to be changed is looked up and not evaluated, and for a path that makes no difference
  where evaluation emits one value. -/

/-- A path is followed in the same way with all options. -/
theorem eval_path_congr (hp : target.path? = .ok p) (options options' : EvalOptions) (v : Value) :
    eval options target v = eval options' target v := by
  induction target using Expr.induct generalizing p v with
  | step e ih =>
    cases e with
    | identity => rfl
    | field name => rfl
    | index i => rfl
    | pipe left right =>
      obtain ⟨q, hq, hp⟩ := bind_eq_ok.1 hp
      obtain ⟨r, hr, -⟩ := bind_eq_ok.1 hp
      rw [eval, eval, ih left (by simp [operands]) hq v, funext (ih right (by simp [operands]) hr)]
    | _ => cases hp

/-- The one value that a path emits is what is found there, or null.  An update looks up, an
    assignment evaluates, and this is where the two are brought together. -/
theorem current_of_eval (hp : target.path? = .ok p) (hx : eval options target v = .ok [x]) :
    (v.lookup? p).getD .null = x := by
  have hfinds := finds_eval hp options v
  cases hlookup : v.lookup? p with
  | some y =>
    rw [hlookup] at hfinds
    have hy : [x] = [y] := Except.ok.inj (hx.symm.trans hfinds)
    exact (List.cons.inj hy).1.symm
  | none =>
    rw [hlookup] at hfinds
    rcases hfinds with h | h | ⟨_, _, _, h⟩
    · have hnull : [x] = [.null] := Except.ok.inj (hx.symm.trans h)
      exact (List.cons.inj hnull).1.symm
    · rw [hx] at h
      cases h
    · rw [hx] at h
      cases h

/-! ## What is written

  Both operations are reduced to the change on the value that is there: what an update does with the
  stream of the change, and what an assignment does with it. -/

/-- An update applies its change to the value of its target, and writes the first value or removes.
    The definition says this of what is looked up; here it is said of what the target emits. -/
theorem eval_update_of_eval (hp : target.path? = .ok p) (hx : eval options target v = .ok [x]) :
    eval options (.update p change) v = (do
      let ys ← eval options change x
      if ys.isEmpty then (liftPath (v.delete p)).map ([·])
      else do
        let y ← Stream.single options (.update p change) ys
        (liftPath (v.assign p y)).map ([·])) := by
  rw [eval, current_of_eval hp hx]

/-- An assignment of a pipe from its own target writes all values of the change. -/
theorem eval_assign_of_eval (hx : eval options target v = .ok [x]) :
    eval options (.assign p (.pipe target change)) v = (do
      let ys ← eval options change x
      ys.traverse fun y => liftPath (v.assign p y)) := by
  have hpipe : eval options (.pipe target change) v = eval options change x := by
    rw [eval, hx]
    exact Stream.bind_singleton _ x
  rw [eval, hpipe]

/-- An update writes the first value of its change.  In strict mode a second one is an error, which
    the hypothesis excludes. -/
theorem eval_update_cons (hp : target.path? = .ok p) (hx : eval options target v = .ok [x])
    {y : Value} {ys : Stream} (hys : eval options change x = .ok (y :: ys))
    (hfirst : options.strict = false ∨ ys = []) :
    eval options (.update p change) v = (liftPath (v.assign p y)).map ([·]) := by
  rw [eval_update_of_eval hp hx, hys]
  show (Stream.single options _ (y :: ys) >>= fun y => (liftPath (v.assign p y)).map ([·])) = _
  rw [single_cons _ hfirst]
  rfl

/-- Where a change emits one value or fails, an update is an assignment.  If it fails, both fail
    with its error. -/
theorem eval_update_eq_assign (hp : target.path? = .ok p) (hx : eval options target v = .ok [x])
    (hone : ∀ ys, eval options change x = .ok ys → ys.length = 1) :
    eval options (.update p change) v = eval options (.assign p (.pipe target change)) v := by
  rw [eval_assign_of_eval hx]
  cases hys : eval options change x with
  | error e =>
    rw [eval_update_of_eval hp hx, hys]
    rfl
  | ok ys =>
    obtain ⟨y, rfl⟩ := List.length_eq_one_iff.1 (hone ys hys)
    rw [eval_update_cons hp hx hys (Or.inr rfl)]
    exact (traverse_singleton (fun y => liftPath (v.assign p y)) y).symm

/-- **An update is read, transform and write.**  Where its target emits one value, the lenient
    update writes what the assignment of the transformed target writes first, or fails as it does;
    where the change emits one value only, or fails, the two are the same in both modes; and where
    it emits nothing the update removes the target. -/
theorem eval_update_laws (hp : target.path? = .ok p) (hx : eval options target v = .ok [x])
    (change : Expr) (nested : Bool) :
    let lenient : EvalOptions := ⟨false, nested⟩
    let written : Expr := .assign p (.pipe target change)
    (∀ y ys, eval lenient change x = .ok (y :: ys) →
      (∃ w ws, eval lenient written v = .ok (w :: ws) ∧
        eval lenient (.update p change) v = .ok [w]) ∨
      ∃ e, eval lenient written v = .error e ∧ eval lenient (.update p change) v = .error e) ∧
    ((∀ ys, eval lenient change x = .ok ys → ys.length = 1) →
      ∀ strict, eval ⟨strict, nested⟩ (.update p change) v = eval ⟨strict, nested⟩ written v) ∧
    ∀ strict, eval ⟨strict, nested⟩ change x = .ok [] →
      eval ⟨strict, nested⟩ (.update p change) v = eval ⟨strict, nested⟩ (.call .del [target]) v := by
  intro lenient written
  have hread : ∀ options, eval options target v = .ok [x] := by
    intro options'
    rw [eval_path_congr hp options' options, hx]
  refine ⟨?_, ?_, ?_⟩
  · intro y ys hys
    rw [eval_update_cons hp (hread lenient) hys (Or.inl rfl), eval_assign_of_eval (hread lenient),
      hys]
    rcases traverse_assign v p y ys with ⟨w, ws, hw, hall⟩ | ⟨cause, hcause, hall⟩
    · exact Or.inl ⟨w, ws, hall, by rw [hw]; rfl⟩
    · exact Or.inr ⟨.path cause, hall, by rw [hcause]; rfl⟩
  · intro hone strict
    apply eval_update_eq_assign hp (hread _)
    intro ys hys
    cases strict with
    | false => exact hone ys hys
    | true =>
      -- a strict evaluation that is not stopped is the lenient one
      rcases stricter_eval nested change x with hsame | ⟨operation, count, hstop⟩
      · exact hone ys (hsame.symm.trans hys)
      · rw [hstop] at hys
        cases hys
  · intro strict hempty
    rw [eval_update_of_eval hp (hread _), hempty, eval, hp]
    rfl

/-- A change to two values, to one and to none, at a path that counts from the end. -/
theorem eval_update_laws_nested :
    let target : Expr := .pipe (.field "a") (.pipe (.index (-1)) (.field "b"))
    let p : Path := [.field "a", .index (-1), .field "b"]
    let v (x : Value) : Value := .mapping [("a", .sequence [.null, .mapping [("b", x)]])]
    let two : Expr := .comma (.literal .null) .identity
    let one : Expr := .literal (.boolean false)
    let none : Expr := .call .select [.literal .null]
    (target.path? = .ok p ∧ eval {} target (v (.string "x")) = .ok [.string "x"]) ∧
    (eval ⟨false, false⟩ two (.string "x") = .ok [.null, .string "x"] ∧
      ((∃ w ws, eval ⟨false, false⟩ (.assign p (.pipe target two)) (v (.string "x")) =
            .ok (w :: ws) ∧
          eval ⟨false, false⟩ (.update p two) (v (.string "x")) = .ok [w]) ∨
        ∃ e, eval ⟨false, false⟩ (.assign p (.pipe target two)) (v (.string "x")) = .error e ∧
          eval ⟨false, false⟩ (.update p two) (v (.string "x")) = .error e) ∧
      eval ⟨false, false⟩ (.update p two) (v (.string "x")) = .ok [v .null]) ∧
    ((∀ ys, eval ⟨false, false⟩ one (.string "x") = .ok ys → ys.length = 1) ∧
      eval ⟨true, false⟩ (.update p one) (v (.string "x")) =
        eval ⟨true, false⟩ (.assign p (.pipe target one)) (v (.string "x"))) ∧
    eval ⟨true, false⟩ none (.string "x") = .ok [] ∧
      eval ⟨true, false⟩ (.update p none) (v (.string "x")) =
        eval ⟨true, false⟩ (.call .del [target]) (v (.string "x")) := by
  intro target p v two one none
  have hp : target.path? = .ok p := rfl
  have hx : eval {} target (v (.string "x")) = .ok [.string "x"] := rfl
  have htwo : eval ⟨false, false⟩ two (.string "x") = .ok [.null, .string "x"] := rfl
  have hone : ∀ ys, eval ⟨false, false⟩ one (.string "x") = .ok ys → ys.length = 1 := by
    rintro ys ⟨⟩
    rfl
  have hnone : eval ⟨true, false⟩ none (.string "x") = .ok [] := rfl
  exact ⟨⟨hp, hx⟩, ⟨htwo, (eval_update_laws hp hx two false).1 _ _ htwo, rfl⟩,
    ⟨hone, (eval_update_laws hp hx one false).2.1 hone true⟩,
    hnone, (eval_update_laws hp hx none false).2.2 true hnone⟩

end Expr

end BlockQuery

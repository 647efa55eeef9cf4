/-
  Writing at a path and reading there.

  A step that can be taken for writing opens a `Slot` in the value: what stands in it now, and how
  the value looks with something else in it.  Writing along a path opens one slot after the other
  and fills them on the way back (`assign_cons`), so every law of `assign` comes from the laws of
  one slot:

  * what fills a slot is found there again (`child?_fill`);
  * the slot of a filled value is the same slot (`slot_fill`), although padding has made the
    sequence longer and null has become a container;
  * a child that can be read stands in a slot, and filling it with that child changes nothing
    (`slot_of_child?`).

  No law needs the keys of a mapping to be distinct.
-/
import BlockQuery.Proofs.Entries
import BlockQuery.Proofs.Except
import BlockQuery.Value.Path

namespace BlockQuery

/-! ## Indices and padding

  An index that counts from the end would mean another position when the sequence grows.  It never
  makes the sequence grow, so the position stays. -/

/-- A position that an index means is still what it means once the sequence reaches that far. -/
theorem resolveIndex?_max {i : Int} {n k : Nat} (h : resolveIndex? i n = some k) :
    resolveIndex? i (max n (k + 1)) = some k := by
  unfold resolveIndex? at h ⊢
  split at h
  · rename_i hi
    rw [if_pos hi, h]
  · rename_i hi
    split at h
    · have hk : (n + i).toNat = k := Option.some.inj h
      have hn : max n (k + 1) = n := by omega
      rw [if_neg hi, hn, if_pos (by assumption), h]
    · exact absurd h (by simp)

namespace Value

/-- Padding makes a sequence reach a position, and no longer. -/
theorem length_padTo (items : List Value) (n : Nat) :
    (padTo items n).length = max items.length (n + 1) := by
  simp only [padTo, List.length_append, List.length_replicate]
  omega

/-- A sequence that reaches it already is left as it is. -/
theorem padTo_of_lt {items : List Value} {n : Nat} (h : n < items.length) :
    padTo items n = items := by
  have hzero : n + 1 - items.length = 0 := by omega
  simp [padTo, hzero]

/-! ## Slots

  A slot is a value with a hole: the content, and a function that fills the hole.  The model of
  `assign` is a recursion along the path, and `assign_cons` is the equation that turns it into
  slots; after it the recursion is not opened again. -/

/-- A place in a value that a step leads to: what stands there, and the value with something else
    in its place. -/
structure Slot where
  content : Value
  fill : Value → Value

/-- The slot that a step of an assignment opens. -/
def slot (v : Value) (step : Step) : Except PathError Slot :=
  match v.orEmptyFor step, step with
  | mapping es, .field key =>
      .ok ⟨(es.lookup key).getD null, fun c => mapping (Entries.put key c es)⟩
  | sequence items, .index i =>
      match resolveIndex? i items.length with
      | none => .error (.beforeStart step)
      | some n =>
          if maxPadding < n - items.length then .error (.beyondPadding step)
          else .ok ⟨(items[n]?).getD null, fun c => sequence ((padTo items n).set n c)⟩
  | other, _ => .error (.blocked step other.kind)

/-- Writing opens the slot of the first step, writes into what stands there, and fills the slot. -/
theorem assign_cons (v : Value) (step : Step) (path : Path) (new : Value) :
    v.assign (step :: path) new =
      (v.slot step).bind fun s => (s.content.assign path new).map s.fill := by
  cases hv : v.orEmptyFor step with
  | mapping es =>
    cases step with
    | field key => simp only [assign, slot, hv]; rfl
    | index i => simp only [assign, slot, hv]; rfl
  | sequence items =>
    cases step with
    | field key => simp only [assign, slot, hv]; rfl
    | index i =>
      simp only [assign, slot, hv]
      cases resolveIndex? i items.length with
      | none => rfl
      | some n =>
        by_cases hpad : maxPadding < n - items.length
        · simp only [if_pos hpad]; rfl
        · simp only [if_neg hpad]; rfl
  | _ => simp only [assign, slot, hv]; rfl

/-- Writing through a slot that is open. -/
theorem assign_of_slot {v : Value} {step : Step} {s : Slot} (hs : v.slot step = .ok s) (path : Path)
    (new : Value) : v.assign (step :: path) new = (s.content.assign path new).map s.fill := by
  rw [assign_cons, hs]
  rfl

/-- The forms of a slot: an entry of a mapping, or a position of a sequence within the padding. -/
theorem slot_cases {v : Value} {step : Step} {s : Slot} (h : v.slot step = .ok s) :
    (∃ es key, step = .field key ∧ v.orEmptyFor step = mapping es ∧
      s = ⟨(es.lookup key).getD null, fun c => mapping (Entries.put key c es)⟩) ∨
    (∃ items i n, step = .index i ∧ v.orEmptyFor step = sequence items ∧
      resolveIndex? i items.length = some n ∧ n - items.length ≤ maxPadding ∧
      s = ⟨(items[n]?).getD null, fun c => sequence ((padTo items n).set n c)⟩) := by
  unfold slot at h
  split at h
  · rename_i es key hv
    exact Or.inl ⟨es, key, rfl, hv, (Except.ok.inj h).symm⟩
  · rename_i items i hv
    split at h
    · exact absurd h (by simp)
    · rename_i n hn
      split at h
      · exact absurd h (by simp)
      · rename_i hpad
        exact Or.inr ⟨items, i, n, rfl, hv, hn, Nat.not_lt.1 hpad, (Except.ok.inj h).symm⟩
  · exact absurd h (by simp)

/-- What fills a slot is the child that the step leads to. -/
theorem child?_fill {v : Value} {step : Step} {s : Slot} (h : v.slot step = .ok s) (c : Value) :
    (s.fill c).child? step = some c := by
  rcases slot_cases h with ⟨es, key, rfl, -, rfl⟩ | ⟨items, i, n, rfl, -, hn, -, rfl⟩
  · exact Entries.lookup_put_self key c es
  · have hlen : ((padTo items n).set n c).length = max items.length (n + 1) := by
      rw [List.length_set, length_padTo]
    have hlt : n < (padTo items n).length := by rw [length_padTo]; omega
    show (resolveIndex? i ((padTo items n).set n c).length).bind
      (fun m => ((padTo items n).set n c)[m]?) = some c
    rw [hlen, resolveIndex?_max hn, Option.bind_some]
    exact List.getElem?_set_self hlt

/-- A filled value has the same slot, with what was filled in. -/
theorem slot_fill {v : Value} {step : Step} {s : Slot} (h : v.slot step = .ok s) (c : Value) :
    (s.fill c).slot step = .ok ⟨c, s.fill⟩ := by
  rcases slot_cases h with ⟨es, key, rfl, -, rfl⟩ | ⟨items, i, n, rfl, -, hn, -, rfl⟩
  · simp only [slot, orEmptyFor, Entries.lookup_put_self, Entries.put_put, Option.getD_some]
  · have hlen : ((padTo items n).set n c).length = max items.length (n + 1) := by
      rw [List.length_set, length_padTo]
    -- the sequence reaches the position now: no padding is left, and the same position is meant
    have hlt : n < ((padTo items n).set n c).length := by rw [hlen]; omega
    have hpad : ¬ maxPadding < n - max items.length (n + 1) := by omega
    simp only [slot, orEmptyFor, hlen, resolveIndex?_max hn, if_neg hpad, padTo_of_lt hlt,
      List.set_set]
    rw [List.getElem?_set_self (by simpa using hlt), Option.getD_some]

/-! ## Children that are there

  Reading looks for a child and writing opens a slot.  Where there is a child the two meet: it is
  the content of the slot, and no padding is needed. -/

/-- The forms of a child: an entry of a mapping, or an element of a sequence. -/
theorem child?_cases {v : Value} {step : Step} {c : Value} (h : v.child? step = some c) :
    (∃ es key, v = mapping es ∧ step = .field key ∧ es.lookup key = some c) ∨
    (∃ items i n, v = sequence items ∧ step = .index i ∧
      resolveIndex? i items.length = some n ∧ items[n]? = some c) := by
  unfold child? at h
  split at h
  · rename_i es key
    exact Or.inl ⟨es, key, rfl, rfl, h⟩
  · rename_i items i
    obtain ⟨n, hn, hc⟩ := Option.bind_eq_some_iff.1 h
    exact Or.inr ⟨items, i, n, rfl, rfl, hn, hc⟩
  · cases h

/-- An entry that is there is the content of its slot. -/
theorem slot_of_entry {es : Entries} {key : String} {c : Value} (h : es.lookup key = some c) :
    (mapping es).slot (.field key) = .ok ⟨c, fun d => mapping (Entries.put key d es)⟩ := by
  simp only [slot, orEmptyFor, h, Option.getD_some]

/-- No padding is needed where there is an element. -/
theorem slot_of_element {items : List Value} {i : Int} {n : Nat} {c : Value}
    (hn : resolveIndex? i items.length = some n) (h : items[n]? = some c) :
    (sequence items).slot (.index i) = .ok ⟨c, fun d => sequence (items.set n d)⟩ := by
  have hlt : n < items.length := (List.getElem?_eq_some_iff.1 h).1
  have hpad : ¬ maxPadding < n - items.length := by omega
  simp only [slot, orEmptyFor, hn, if_neg hpad, h, Option.getD_some, padTo_of_lt hlt]

/-- A child that can be read stands in a slot, and putting it back changes nothing. -/
theorem slot_of_child? {v : Value} {step : Step} {c : Value} (h : v.child? step = some c) :
    ∃ s, v.slot step = .ok s ∧ s.content = c ∧ s.fill c = v := by
  rcases child?_cases h with ⟨es, key, rfl, rfl, hc⟩ | ⟨items, i, n, rfl, rfl, hn, hc⟩
  · refine ⟨_, slot_of_entry hc, rfl, ?_⟩
    exact congrArg mapping (Entries.put_of_lookup hc)
  · refine ⟨_, slot_of_element hn hc, rfl, ?_⟩
    obtain ⟨hlt, rfl⟩ := List.getElem?_eq_some_iff.1 hc
    exact congrArg sequence (List.set_getElem_self hlt)

/-! ## Paths

  Each law of one slot becomes a law of paths, by induction on the path. -/

/-- A path is looked up step by step. -/
theorem lookup?_append (v : Value) (p q : Path) :
    v.lookup? (p ++ q) = (v.lookup? p).bind (·.lookup? q) := by
  induction p generalizing v with
  | nil => rfl
  | cons step p ih =>
    simp only [List.cons_append, lookup?, ih]
    cases v.child? step <;> rfl

/-- Nothing is inside null. -/
theorem lookup?_null {path : Path} (h : path ≠ []) : null.lookup? path = none := by
  cases path with
  | nil => exact absurd rfl h
  | cons step path => rfl

/-- What an assignment along `step :: path` has done when it succeeds. -/
theorem assign_cons_ok {v : Value} {step : Step} {path : Path} {new v' : Value}
    (h : v.assign (step :: path) new = .ok v') :
    ∃ s c, v.slot step = .ok s ∧ s.content.assign path new = .ok c ∧ s.fill c = v' := by
  rw [assign_cons] at h
  obtain ⟨s, hs, h⟩ := bind_eq_ok.1 h
  obtain ⟨c, hc, h⟩ := map_eq_ok.1 h
  exact ⟨s, c, hs, hc, h⟩

/-- What was written is read back. -/
theorem lookup?_assign {path : Path} {v new v' : Value} (h : v.assign path new = .ok v') :
    v'.lookup? path = some new := by
  induction path generalizing v v' with
  | nil =>
    rw [assign] at h
    rw [lookup?, Except.ok.inj h]
  | cons step path ih =>
    obtain ⟨s, c, hs, hc, rfl⟩ := assign_cons_ok h
    rw [lookup?, child?_fill hs, Option.bind_some, ih hc]

/-- Writing what is there already succeeds and changes nothing. -/
theorem assign_of_lookup? {path : Path} {v x : Value} (h : v.lookup? path = some x) :
    v.assign path x = .ok v := by
  induction path generalizing v with
  | nil =>
    rw [lookup?] at h
    rw [assign, Option.some.inj h]
  | cons step path ih =>
    rw [lookup?] at h
    obtain ⟨c, hc, hx⟩ := Option.bind_eq_some_iff.1 h
    obtain ⟨s, hs, rfl, hfill⟩ := slot_of_child? hc
    rw [assign_of_slot hs, ih hx]
    exact congrArg Except.ok hfill

/-- A second write at the path leaves no trace of the first. -/
theorem assign_assign {path : Path} {v x v' : Value} (h : v.assign path x = .ok v') (y : Value) :
    v'.assign path y = v.assign path y := by
  induction path generalizing v v' with
  | nil => rfl
  | cons step path ih =>
    obtain ⟨s, c, hs, hc, rfl⟩ := assign_cons_ok h
    rw [assign_of_slot (slot_fill hs c), assign_of_slot hs, ih hc]

/-- Whether a write fails, and how, does not depend on what is written. -/
theorem assign_error_of_error {path : Path} {v x : Value} {e : PathError}
    (h : v.assign path x = .error e) (y : Value) : v.assign path y = .error e := by
  induction path generalizing v with
  | nil => exact absurd h (by simp [assign])
  | cons step path ih =>
    rw [assign_cons] at h ⊢
    cases hs : v.slot step with
    | error e' => rw [hs] at h; exact h
    | ok s =>
      rw [hs] at h
      cases hc : s.content.assign path x with
      | error e' =>
        have he : e' = e := by simpa [Except.bind, Except.map, hc] using h
        subst he
        show (s.content.assign path y).map s.fill = _
        rw [ih hc]
        rfl
      | ok c => simp [Except.bind, Except.map, hc] at h

/-- Whether a write succeeds does not depend on what is written. -/
theorem exists_assign {path : Path} {v x w : Value} (h : v.assign path x = .ok w) (y : Value) :
    ∃ w', v.assign path y = .ok w' := by
  cases hy : v.assign path y with
  | ok w' => exact ⟨w', rfl⟩
  | error e =>
    rw [assign_error_of_error hy x] at h
    cases h

/-! ## Inside a node

  A path in two parts can be edited in two steps, the second part in the node that the first one
  leads to.  This is the same for writing and for removing, so it is proved of any edit that works
  its way down through children. -/

/-- Whether an edit at a path of several steps is made in the child that the first step leads to,
    which is then filled into the slot that it came from. -/
def EditsChildren (edit : Value → Path → Except PathError Value) : Prop :=
  ∀ v step s, v.slot step = .ok s → v.child? step = some s.content →
    ∀ path ≠ [], edit v (step :: path) = (edit s.content path).map s.fill

/-- Writing works its way down through slots. -/
theorem editsChildren_assign (new : Value) : EditsChildren fun v path => v.assign path new := by
  intro v step s hs _ path _
  exact assign_of_slot hs path new

/-- An edit inside a node that is there is made in the node, which is then written back. -/
theorem EditsChildren.append {edit : Value → Path → Except PathError Value}
    (hedit : EditsChildren edit) {path rest : Path} {v c : Value} (h : v.lookup? path = some c)
    (hrest : rest ≠ []) : edit v (path ++ rest) = edit c rest >>= v.assign path := by
  induction path generalizing v with
  | nil =>
    obtain rfl : v = c := Option.some.inj h
    exact (bind_pure _).symm
  | cons step path ih =>
    obtain ⟨d, hd, hc⟩ := Option.bind_eq_some_iff.1 h
    obtain ⟨s, hs, rfl, -⟩ := slot_of_child? hd
    rw [List.cons_append, hedit v step s hs hd _ (by simp [hrest]), ih hc]
    cases edit c rest with
    | error e => rfl
    | ok c' => exact (assign_of_slot hs path c').symm

/-- Writing inside a node that is there is writing in the node and writing the node back. -/
theorem assign_append {path rest : Path} {v c : Value} (h : v.lookup? path = some c)
    (hrest : rest ≠ []) (new : Value) :
    v.assign (path ++ rest) new = c.assign rest new >>= v.assign path :=
  (editsChildren_assign new).append h hrest

/-! ## The laws of a lens

  Read what was written, write what was read, write twice; and which writes succeed. -/

/-- **Writing and reading at a path are a lens.**  What is written is read back, writing back what
    was read changes nothing, the last write wins, and failure does not depend on what is
    written. -/
theorem assign_lookup?_lens (v : Value) (path : Path) (x y : Value) :
    (∀ v', v.assign path x = .ok v' → v'.lookup? path = some x) ∧
    (v.lookup? path = some x → v.assign path x = .ok v) ∧
    (∀ v', v.assign path x = .ok v' → v'.assign path y = v.assign path y) ∧
    (∀ e, v.assign path x = .error e ↔ v.assign path y = .error e) := by
  refine ⟨fun v' h => lookup?_assign h, assign_of_lookup?, fun v' h => assign_assign h y, ?_⟩
  intro e
  exact ⟨fun h => assign_error_of_error h y, fun h => assign_error_of_error h x⟩

/-- The laws on a path that pads a sequence and makes a mapping out of null, on one that counts
    from the end, and on one that counts too far. -/
theorem assign_lookup?_lens_padded :
    let v := mapping [("a", sequence [null])]
    let v' := mapping [("a", sequence [null, null, mapping [("b", boolean true)]])]
    let path := [Step.field "a", .index 2, .field "b"]
    let back := [Step.field "a", .index (-1), .field "b"]
    let far := [Step.field "a", .index (-2)]
    (v.assign path (boolean true) = .ok v' ∧ v'.lookup? path = some (boolean true)) ∧
    (v'.lookup? back = some (boolean true) ∧ v'.assign back (boolean true) = .ok v') ∧
    v'.assign path null = v.assign path null ∧
    (v.assign far null = .error (.beforeStart (.index (-2))) ∧
      v.assign far (boolean true) = .error (.beforeStart (.index (-2)))) := by
  intro v v' path back far
  have hwrite : v.assign path (boolean true) = .ok v' := rfl
  have hread : v'.lookup? back = some (boolean true) := rfl
  have hfail : v.assign far null = .error (.beforeStart (.index (-2))) := rfl
  have forward := assign_lookup?_lens v path (boolean true) null
  have backward := assign_lookup?_lens v' back (boolean true) null
  refine ⟨⟨hwrite, forward.1 v' hwrite⟩, ⟨hread, backward.2.1 hread⟩, ?_, hfail, ?_⟩
  · exact forward.2.2.1 v' hwrite
  · exact ((assign_lookup?_lens v far null (boolean true)).2.2.2 _).1 hfail

end Value

end BlockQuery

/-
  Removing the node at a path.

  Removal reads its way down to the container of the node, takes one entry or element out of it, and
  writes what is left back on the way up.  So it is a write like any other: removing inside a node
  that is there is removing in the node and writing the node back (`delete_append`).  Every law of
  `delete` comes from that one and from what a removal does in the last container of the path:

  * where the last step leads to a child, the entry or element goes and the others stay as they are
    (`TakenOut`, which says so without the code);
  * where it leads nowhere, the container stays, or it refuses the step, because it is neither null
    nor the container that the step needs (`Refuses`).

  Nothing else can make a removal fail.
-/
import BlockQuery.Proofs.ValueKeys

namespace BlockQuery.Value

/-! ## Taking a child out

  What a removal should do is said without the code, as a relation between two containers.  An index
  in it counts from the front or from the end, whichever was meant. -/

/-- Whether the second container is the first one with just the child of a step taken out: one
    entry or one element, with the rest in their old order. -/
inductive TakenOut : Step → Value → Value → Value → Prop where
  | entry {front back : Entries} {key : String} {x : Value}
      (h : key ∉ Entries.keys (front ++ back)) :
      TakenOut (.field key) x (mapping (front ++ (key, x) :: back)) (mapping (front ++ back))
  | element {front back : List Value} {i : Int} {x : Value}
      (h : i = front.length ∨ i = -(back.length + 1)) :
      TakenOut (.index i) x (sequence (front ++ x :: back)) (sequence (front ++ back))

/-- Whether a step cannot be taken in a value: the value is neither null nor the container that the
    step needs. -/
def Refuses (v : Value) (step : Step) : Prop :=
  v.kind ≠ .null ∧ v.kind ≠ (emptyFor step).kind

instance (v : Value) (step : Step) : Decidable (v.Refuses step) :=
  inferInstanceAs (Decidable (_ ∧ _))

/-- The position of an element counts it from the front or from the end. -/
theorem eq_of_resolveIndex? {i : Int} {n k : Nat} (h : resolveIndex? i n = some k) :
    i = k ∨ i = k - n := by
  unfold resolveIndex? at h
  split at h
  · have hk : i.toNat = k := Option.some.inj h
    omega
  · split at h
    · have hk : (n + i).toNat = k := Option.some.inj h
      omega
    · cases h

/-! ## One step

  A removal in one step, by what the step finds: a child, nothing, or a value that cannot be
  entered.  With distinct keys only one entry has the key, so taking out all entries with the key
  takes out one. -/

variable {v : Value} {step : Step}

/-- An index that means the place of an element is in front of the end. -/
theorem filter_resolveIndex? {items : List Value} {i : Int} {n : Nat} {x : Value}
    (hn : resolveIndex? i items.length = some n) (hx : items[n]? = some x) :
    (resolveIndex? i items.length).filter (· < items.length) = some n := by
  have hlt : n < items.length := (List.getElem?_eq_some_iff.1 hx).1
  simp [hn, hlt]

/-- A child that is there is taken out. -/
theorem exists_takenOut {x : Value} (hv : v.DistinctKeys) (h : v.child? step = some x) :
    ∃ c, TakenOut step x v c ∧ v.delete [step] = .ok c := by
  rcases child?_cases h with ⟨es, key, rfl, rfl, hx⟩ | ⟨items, i, n, rfl, rfl, hn, hx⟩
  · obtain ⟨front, back, rfl, hkey⟩ := Entries.exists_of_lookup (distinctKeys_mapping.1 hv).1 hx
    refine ⟨_, .entry hkey, ?_⟩
    show Except.ok (mapping (Entries.without key _)) = _
    rw [Entries.without_middle hkey]
  · have hfilter := filter_resolveIndex? hn hx
    obtain ⟨hlt, rfl⟩ := List.getElem?_eq_some_iff.1 hx
    have hitems : items.take n ++ items[n] :: items.drop (n + 1) = items := by
      rw [List.getElem_cons_drop, List.take_append_drop]
    have hplace : i = (items.take n).length ∨ i = -((items.drop (n + 1)).length + 1) := by
      have hi := eq_of_resolveIndex? hn
      rw [List.length_take, List.length_drop]
      omega
    have htaken := TakenOut.element (x := items[n]) hplace
    rw [hitems] at htaken
    refine ⟨_, htaken, ?_⟩
    simp only [delete, deleteBelow, hfilter, List.eraseIdx_eq_take_drop_succ]

/-- A step that is refused is where a removal fails. -/
theorem delete_of_refuses (h : v.Refuses step) (path : Path) :
    v.delete (step :: path) = .error (.blocked step v.kind) := by
  cases v with
  | null => exact absurd rfl h.1
  | mapping es =>
    cases step with
    | field key => exact absurd rfl h.2
    | index i => cases path <;> rfl
  | sequence items =>
    cases step with
    | field key => cases path <;> rfl
    | index i => exact absurd rfl h.2
  | _ => cases step <;> cases path <;> rfl

/-- Where a step that is not refused leads nowhere, there is nothing to remove. -/
theorem delete_of_child?_eq_none (hstep : ¬ v.Refuses step) (h : v.child? step = none)
    (path : Path) : v.delete (step :: path) = .ok v := by
  cases v with
  | null => cases step <;> cases path <;> rfl
  | mapping es =>
    cases step with
    | index i => exact absurd ⟨nofun, nofun⟩ hstep
    | field key =>
      have hkey : es.lookup key = none := h
      cases path with
      | nil =>
        show Except.ok (mapping (Entries.without key es)) = _
        rw [Entries.without_of_not_mem (Entries.lookup_eq_none_iff.1 hkey)]
      | cons next path => simp only [delete, deleteBelow, hkey]
  | sequence items =>
    cases step with
    | field key => exact absurd ⟨nofun, nofun⟩ hstep
    | index i =>
      have hfilter : (resolveIndex? i items.length).filter (· < items.length) = none := by
        rw [Option.filter_eq_none_iff]
        intro n hn hlt
        have hnone : items[n]? = none := Option.bind_eq_none_iff.1 h n hn
        exact absurd (of_decide_eq_true hlt) (Nat.not_lt.2 (List.getElem?_eq_none_iff.1 hnone))
      simp only [delete, deleteBelow, hfilter]
  | _ => exact absurd ⟨nofun, by cases step <;> nofun⟩ hstep

/-- Removing further down is removing in the child. -/
theorem editsChildren_delete : EditsChildren delete := by
  intro v step s hs hc path hpath
  obtain ⟨next, path, rfl⟩ := List.exists_cons_of_ne_nil hpath
  rcases child?_cases hc with ⟨es, key, rfl, rfl, hx⟩ | ⟨items, i, n, rfl, rfl, hn, hx⟩
  · rw [slot_of_entry hx] at hs
    rw [← Except.ok.inj hs, delete, deleteBelow, hx]
    rfl
  · rw [slot_of_element hn hx] at hs
    rw [← Except.ok.inj hs, delete, deleteBelow, filter_resolveIndex? hn hx]
    simp only [hx]
    rfl

/-! ## Paths

  A path that leads nowhere leads somewhere up to some step, and that step is the last one that
  matters.  A second removal at the same path finds the entry gone. -/

variable {path : Path} {c : Value}

/-- Removing inside a node that is there is done in the node, which is then written back. -/
theorem delete_append (h : v.lookup? path = some c) {rest : Path} (hrest : rest ≠ []) :
    v.delete (path ++ rest) = c.delete rest >>= v.assign path :=
  editsChildren_delete.append h hrest

/-- A path that leads nowhere leads up to a node that has no child at the next step. -/
theorem exists_of_lookup?_eq_none (h : v.lookup? path = none) :
    ∃ front step rest w, path = front ++ step :: rest ∧ v.lookup? front = some w ∧
      w.child? step = none := by
  induction path generalizing v with
  | nil => cases h
  | cons step path ih =>
    cases hchild : v.child? step with
    | none => exact ⟨[], step, path, v, rfl, rfl, hchild⟩
    | some d =>
      rw [lookup?, hchild, Option.bind_some] at h
      obtain ⟨front, next, rest, w, rfl, hw, hnone⟩ := ih h
      refine ⟨step :: front, next, rest, w, rfl, ?_, hnone⟩
      rw [lookup?, hchild, Option.bind_some, hw]

/-- Where nothing is found a removal changes nothing, unless the path runs into a node that refuses
    its step. -/
theorem delete_of_lookup?_eq_none (h : v.lookup? path = none) :
    v.delete path = .ok v ∨
      ∃ front step rest w, path = front ++ step :: rest ∧ v.lookup? front = some w ∧
        w.Refuses step ∧ v.delete path = .error (.blocked step w.kind) := by
  obtain ⟨front, step, rest, w, rfl, hw, hnone⟩ := exists_of_lookup?_eq_none h
  rw [delete_append hw (by simp)]
  by_cases hstep : w.Refuses step
  · refine Or.inr ⟨front, step, rest, w, rfl, hw, hstep, ?_⟩
    rw [delete_of_refuses hstep]
    rfl
  · rw [delete_of_child?_eq_none hstep hnone]
    exact Or.inl (assign_of_lookup? hw)

/-- A removal that succeeds has changed nothing, or the container of the node alone. -/
theorem delete_concat_ok {w : Value} (h : v.delete (path ++ [step]) = .ok w) :
    w = v ∨ ∃ c c', v.lookup? path = some c ∧ c.delete [step] = .ok c' ∧
      v.assign path c' = .ok w := by
  cases hc : v.lookup? path with
  | some c =>
    rw [delete_append hc (by simp)] at h
    obtain ⟨c', hc', hw⟩ := bind_eq_ok.1 h
    exact Or.inr ⟨c, c', rfl, hc', hw⟩
  | none =>
    have hnone : v.lookup? (path ++ [step]) = none := by
      rw [lookup?_append, hc, Option.bind_none]
    rcases delete_of_lookup?_eq_none hnone with hsame | ⟨_, _, _, _, -, -, -, hfail⟩
    · exact Or.inl (Except.ok.inj (h.symm.trans hsame))
    · rw [hfail] at h
      cases h

/-- An entry that has been taken out is not there to be taken out again. -/
theorem delete_field_again {key : String} {w : Value} (h : v.delete [.field key] = .ok w) :
    w.delete [.field key] = .ok w := by
  cases v with
  | null =>
    obtain rfl : null = w := Except.ok.inj h
    rfl
  | mapping es =>
    obtain rfl : mapping (Entries.without key es) = w := Except.ok.inj h
    show Except.ok (mapping (Entries.without key (Entries.without key es))) = _
    rw [Entries.without_of_not_mem (Entries.not_mem_keys_without key es)]
  | _ => cases h

/-- A second removal at a path that ends in a key changes nothing. -/
theorem delete_again {key : String} {w : Value} (h : v.delete (path ++ [.field key]) = .ok w) :
    w.delete (path ++ [.field key]) = .ok w := by
  rcases delete_concat_ok h with rfl | ⟨c, c', -, hc', hw⟩
  · exact h
  · rw [delete_append (lookup?_assign hw) (by simp), delete_field_again hc']
    exact assign_of_lookup? (lookup?_assign hw)

/-! ## Distinct keys

  Less is left, so keys stay distinct; the container is written back by an assignment, which keeps
  them. -/

/-- Taking something out of a container keeps its keys distinct. -/
theorem DistinctKeys.delete_step (hv : v.DistinctKeys) (step : Step) :
    Ensures DistinctKeys (v.delete [step]) := by
  show Ensures DistinctKeys (v.deleteBelow step [])
  unfold deleteBelow
  split
  · exact .ok hv
  · rename_i es key
    obtain ⟨hnodup, hvalues⟩ := distinctKeys_mapping.1 hv
    refine .ok (distinctKeys_mapping.2 ⟨?_, fun e he => hvalues e (List.mem_of_mem_filter he)⟩)
    exact hnodup.sublist (List.filter_sublist.map _)
  · split
    · exact .ok hv
    · refine .ok (distinctKeys_sequence.2 fun w hw => ?_)
      exact distinctKeys_sequence.1 hv w (List.mem_of_mem_eraseIdx hw)
  · exact .error _

/-- Removing at a path keeps keys distinct. -/
theorem DistinctKeys.delete (hv : v.DistinctKeys) : Ensures DistinctKeys (v.delete path) := by
  intro w hw
  rcases List.eq_nil_or_concat' path with rfl | ⟨front, step, rfl⟩
  · obtain rfl : Value.null = w := Except.ok.inj hw
    exact .null
  · rcases delete_concat_ok hw with rfl | ⟨c, c', hc, hc', hassign⟩
    · exact hv
    · exact hv.assign ((hv.lookup? hc).delete_step step c' hc') w hassign

/-! ## Exactly one node

  The theorem is put together from the cases: there is a node and it is taken out, or there is
  none. -/

/-- **A removal takes out the node at its path and nothing else.**  A node that is there is taken
    out of its container, and the rest of the container is written back where it stood.  Where
    there is no node nothing changes, or the removal fails because a node on the way refuses its
    step.  Removing an entry twice is removing it once. -/
theorem delete_takes_out (hv : v.DistinctKeys) (path : Path) (step : Step) :
    (∀ x, v.lookup? (path ++ [step]) = some x →
      ∃ c c' w, v.lookup? path = some c ∧ TakenOut step x c c' ∧
        v.assign path c' = .ok w ∧ v.delete (path ++ [step]) = .ok w) ∧
    (v.lookup? (path ++ [step]) = none →
      v.delete (path ++ [step]) = .ok v ∨
        ∃ front next rest w, path ++ [step] = front ++ next :: rest ∧
          v.lookup? front = some w ∧ w.Refuses next ∧
          v.delete (path ++ [step]) = .error (.blocked next w.kind)) ∧
    ∀ key w, step = .field key → v.delete (path ++ [step]) = .ok w →
      w.delete (path ++ [step]) = .ok w := by
  refine ⟨?_, delete_of_lookup?_eq_none, ?_⟩
  · intro x hx
    rw [lookup?_append] at hx
    obtain ⟨c, hc, hx⟩ := Option.bind_eq_some_iff.1 hx
    obtain ⟨d, hd, hx⟩ := Option.bind_eq_some_iff.1 hx
    obtain rfl : d = x := Option.some.inj hx
    obtain ⟨c', htaken, hdelete⟩ := exists_takenOut (hv.lookup? hc) hd
    obtain ⟨w, hw⟩ := exists_assign (assign_of_lookup? hc) c'
    refine ⟨c, c', w, hc, htaken, hw, ?_⟩
    rw [delete_append hc (by simp), hdelete]
    exact hw
  · rintro key w rfl h
    exact delete_again h

/-- An entry in a mapping that is found from the end of a sequence; and a path that runs into a
    truth value. -/
theorem delete_takes_out_nested :
    let c := mapping [("k", boolean true), ("b", null), ("l", boolean false)]
    let c' := mapping [("k", boolean true), ("l", boolean false)]
    let v := mapping [("a", sequence [null, c, null]), ("d", boolean true)]
    let v' := mapping [("a", sequence [null, c', null]), ("d", boolean true)]
    let path := [Step.field "a", .index (-2)]
    (v.DistinctKeys ∧ v.lookup? (path ++ [.field "b"]) = some null ∧
      ∃ e e' w, v.lookup? path = some e ∧ TakenOut (.field "b") null e e' ∧
        v.assign path e' = .ok w ∧ v.delete (path ++ [.field "b"]) = .ok w) ∧
    (v.delete (path ++ [.field "b"]) = .ok v' ∧ v'.delete (path ++ [.field "b"]) = .ok v') ∧
    v.lookup? ([.field "d"] ++ [.field "b"]) = none ∧
      (v.delete ([.field "d"] ++ [.field "b"]) = .ok v ∨
        ∃ front next rest w, [.field "d"] ++ [.field "b"] = front ++ next :: rest ∧
          v.lookup? front = some w ∧ w.Refuses next ∧
          v.delete ([.field "d"] ++ [.field "b"]) = .error (.blocked next w.kind)) := by
  intro c c' v v' path
  have hv : v.DistinctKeys := by decide
  have hfound : v.lookup? (path ++ [.field "b"]) = some null := rfl
  have hdelete : v.delete (path ++ [.field "b"]) = .ok v' := rfl
  have hnone : v.lookup? ([.field "d"] ++ [.field "b"]) = none := rfl
  have entry := delete_takes_out hv path (.field "b")
  have blocked := delete_takes_out hv [.field "d"] (.field "b")
  exact ⟨⟨hv, hfound, entry.1 null hfound⟩, ⟨hdelete, entry.2.2 "b" v' rfl hdelete⟩,
    hnone, blocked.2.1 hnone⟩

end BlockQuery.Value

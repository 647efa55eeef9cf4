/-
  Removing and writing undo each other.

  An entry that is removed and written again goes to the end of its mapping; an entry that is
  written where there was none and removed again leaves the mapping as it was.  Both are laws of the
  mapping that holds the entry, because removing and writing at a path happen in the last container
  of the path (`delete_append`, `assign_append`).  In the first the mapping that is written back is
  only equal to the old one, in another order; but a node may be exchanged for an equal one
  anywhere in a document, and the document stays equal (`same_assign`).
-/
import BlockQuery.Proofs.PathRemoval
import BlockQuery.Proofs.ValueOrder

namespace BlockQuery.Value

/-! ## Equal mappings

  Equality of mappings does not look at the order of entries.  These are the two ways to show it
  here: one entry has an equal value, or all are the same in another order. -/

/-- A mapping with as many entries as another one is equal to it when each of its entries stands in
    the other one, or has an equal value there. -/
theorem same_of_found {as bs : Entries} (hbs : (mapping bs).DistinctKeys)
    (hlength : as.length = bs.length)
    (h : ∀ e ∈ as, e ∈ bs ∨ ∃ w, bs.lookup e.1 = some w ∧ e.2.same w = true) :
    (mapping as).same (mapping bs) = true := by
  obtain ⟨hnodup, hvalues⟩ := distinctKeys_mapping.1 hbs
  rw [same, Bool.and_eq_true, beq_iff_eq, foundIn_iff]
  refine ⟨hlength, ?_⟩
  intro e he
  rcases h e he with hmem | hfound
  · exact ⟨e.2, Entries.lookup_eq_some_of_mem hnodup hmem, same_self (hvalues e hmem)⟩
  · exact hfound

/-- The order of entries does not count. -/
theorem same_of_perm {as bs : Entries} (hbs : (mapping bs).DistinctKeys) (h : as.Perm bs) :
    (mapping as).same (mapping bs) = true := by
  apply same_of_found hbs h.length_eq
  intro e he
  exact Or.inl (h.mem_iff.1 he)

/-! ## Equal nodes in a document

  Equality is kept when a node is exchanged for an equal one, from the slot outwards.  It is only
  needed for a node that is there, so no padding comes in. -/

variable {v : Value} {step : Step} {path : Path}

/-- A child may be exchanged for an equal one. -/
theorem same_fill (hv : v.DistinctKeys) {s : Slot} (hs : v.slot step = .ok s) {c d : Value}
    (hd : v.child? step = some d) (h : c.same d = true) : (s.fill c).same v = true := by
  rcases child?_cases hd with ⟨es, key, rfl, rfl, hx⟩ | ⟨items, i, n, rfl, rfl, hn, hx⟩
  · rw [slot_of_entry hx] at hs
    obtain rfl := Except.ok.inj hs
    have hkey : key ∈ Entries.keys es := by
      by_contra hkey
      rw [Entries.lookup_eq_none_iff.2 hkey] at hx
      cases hx
    apply same_of_found hv
    · have hkeys := congrArg List.length (Entries.keys_put_of_hasKey hkey c)
      simpa only [Entries.keys, List.length_map] using hkeys
    · intro e he
      rcases Entries.mem_of_mem_put he with rfl | he
      · exact Or.inr ⟨d, hx, h⟩
      · exact Or.inl he
  · rw [slot_of_element hn hx] at hs
    obtain rfl := Except.ok.inj hs
    obtain ⟨hlt, rfl⟩ := List.getElem?_eq_some_iff.1 hx
    show sameItems (items.set n c) items = true
    rw [sameItems_iff, List.forall₂_iff_get]
    refine ⟨List.length_set, ?_⟩
    intro m hm hm'
    rw [List.get_eq_getElem, List.get_eq_getElem, List.getElem_set]
    split
    · rename_i hmn
      subst hmn
      exact h
    · exact same_self (distinctKeys_sequence.1 hv _ (List.getElem_mem hm'))

/-- A node may be exchanged for an equal one. -/
theorem same_assign (hv : v.DistinctKeys) {c d w : Value} (hd : v.lookup? path = some d)
    (h : c.same d = true) (hw : v.assign path c = .ok w) : w.same v = true := by
  induction path generalizing v w with
  | nil =>
    obtain rfl : v = d := Option.some.inj hd
    obtain rfl : c = w := Except.ok.inj hw
    exact h
  | cons step path ih =>
    obtain ⟨e, he, hd⟩ := Option.bind_eq_some_iff.1 hd
    obtain ⟨s, hs, rfl, -⟩ := slot_of_child? he
    obtain ⟨s', c', hs', hc', rfl⟩ := assign_cons_ok hw
    obtain rfl : s = s' := Except.ok.inj (hs.symm.trans hs')
    exact same_fill hv hs he (ih (hv.child? he) hd hc')

/-! ## Removing and writing an entry

  First in one mapping, then at the end of a path.  The order of the two operations matters: an
  entry that was there loses its place, and an entry that was new has none to lose. -/

/-- Removing an entry and writing it again leaves an equal mapping. -/
theorem assign_delete_field (hv : v.DistinctKeys) {key : String} {x : Value}
    (hx : v.child? (.field key) = some x) :
    ∃ w u, v.delete [.field key] = .ok w ∧ w.assign [.field key] x = .ok u ∧
      u.same v = true := by
  obtain ⟨w, htaken, hdelete⟩ := exists_takenOut hv hx
  cases htaken with
  | @entry front back _ _ hkey =>
    refine ⟨_, mapping (front ++ back ++ [(key, x)]), hdelete, ?_, ?_⟩
    · rw [← Entries.put_of_not_mem hkey]
      rfl
    · apply same_of_perm hv
      exact (List.perm_append_singleton _ _).trans List.perm_middle.symm

/-- Writing a new entry and removing it again leaves the mapping as it was. -/
theorem delete_assign_field {es : Entries} {key : String} (hkey : key ∉ Entries.keys es)
    (x : Value) :
    ∃ w, (mapping es).assign [.field key] x = .ok w ∧ w.delete [.field key] = .ok (mapping es) := by
  refine ⟨mapping (Entries.put key x es), rfl, ?_⟩
  show Except.ok (mapping (Entries.without key _)) = _
  have hlast : key ∉ Entries.keys (es ++ []) := by rwa [List.append_nil]
  rw [Entries.put_of_not_mem hkey, Entries.without_middle hlast, List.append_nil]

/-- **Removing and writing an entry undo each other.**  An entry that is removed and written again
    leaves an equal document; one that is written where there was none and removed again leaves
    the document as it was, in the same order. -/
theorem delete_assign_undo (hv : v.DistinctKeys) (path : Path) (key : String) (x : Value) :
    (v.lookup? (path ++ [.field key]) = some x →
      ∃ w u, v.delete (path ++ [.field key]) = .ok w ∧
        w.assign (path ++ [.field key]) x = .ok u ∧ u.same v = true) ∧
    ∀ es, v.lookup? path = some (mapping es) → key ∉ Entries.keys es →
      ∃ w, v.assign (path ++ [.field key]) x = .ok w ∧ w.delete (path ++ [.field key]) = .ok v := by
  constructor
  · intro hx
    rw [lookup?_append] at hx
    obtain ⟨c, hc, hx⟩ := Option.bind_eq_some_iff.1 hx
    obtain ⟨d, hd, hx⟩ := Option.bind_eq_some_iff.1 hx
    obtain rfl : d = x := Option.some.inj hx
    obtain ⟨c', c'', hdelete, hassign, hsame⟩ := assign_delete_field (hv.lookup? hc) hd
    obtain ⟨w, hw⟩ := exists_assign (assign_of_lookup? hc) c'
    obtain ⟨u, hu⟩ := exists_assign (assign_of_lookup? hc) c''
    refine ⟨w, u, ?_, ?_, same_assign hv hc hsame hu⟩
    · rw [delete_append hc (by simp), hdelete]
      exact hw
    · -- the second container is written over the first
      rw [assign_append (lookup?_assign hw) (by simp), hassign]
      exact (assign_assign hw c'').trans hu
  · intro es hes hkey
    obtain ⟨c', hassign, hdelete⟩ := delete_assign_field hkey x
    obtain ⟨w, hw⟩ := exists_assign (assign_of_lookup? hes) c'
    refine ⟨w, ?_, ?_⟩
    · rw [assign_append hes (by simp), hassign]
      exact hw
    · rw [delete_append (lookup?_assign hw) (by simp), hdelete]
      exact (assign_assign hw _).trans (assign_of_lookup? hes)

/-- An entry in the middle of a mapping, inside a sequence, is removed and written again; and a new
    entry is written and removed there. -/
theorem delete_assign_undo_nested :
    let c := mapping [("k", boolean true), ("b", null), ("l", boolean false)]
    let c' := mapping [("k", boolean true), ("l", boolean false)]
    let c'' := mapping [("k", boolean true), ("l", boolean false), ("b", null)]
    let v := mapping [("a", sequence [null, c]), ("d", boolean true)]
    let v' := mapping [("a", sequence [null, c']), ("d", boolean true)]
    let v'' := mapping [("a", sequence [null, c'']), ("d", boolean true)]
    let path := [Step.field "a", .index (-1)]
    (v.DistinctKeys ∧ v.lookup? (path ++ [.field "b"]) = some null ∧
      ∃ w u, v.delete (path ++ [.field "b"]) = .ok w ∧
        w.assign (path ++ [.field "b"]) null = .ok u ∧ u.same v = true) ∧
    (v.delete (path ++ [.field "b"]) = .ok v' ∧ v'.assign (path ++ [.field "b"]) null = .ok v'') ∧
    v'.DistinctKeys ∧ v'.lookup? path = some c' ∧ "b" ∉ ["k", "l"] ∧
      ∃ w, v'.assign (path ++ [.field "b"]) null = .ok w ∧
        w.delete (path ++ [.field "b"]) = .ok v' := by
  intro c c' c'' v v' v'' path
  have hv : v.DistinctKeys := by decide
  have hv' : v'.DistinctKeys := by decide
  have hfound : v.lookup? (path ++ [.field "b"]) = some null := rfl
  have hmapping : v'.lookup? path = some c' := rfl
  have hnew : "b" ∉ ["k", "l"] := by decide
  exact ⟨⟨hv, hfound, (delete_assign_undo hv path "b" null).1 hfound⟩, ⟨rfl, rfl⟩,
    hv', hmapping, hnew, (delete_assign_undo hv' path "b" null).2 _ hmapping hnew⟩

end BlockQuery.Value

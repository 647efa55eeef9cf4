/-
  Distinct keys, part by part.

  What stands in a value with distinct keys has them itself.  Writing exchanges what stands in one
  place for something else, so it keeps distinct keys distinct, slot by slot.

  The property is about every mapping inside a value, and every law here is used in both directions
  of a walk: down, to know that what is found has distinct keys, and up, to know that the value has
  them still when something is put in the place of what was found.  The last law
  (`DistinctKeys.assign`) joins the two, by induction on the path.
-/
import BlockQuery.Proofs.PathLens
import BlockQuery.Proofs.Tree

namespace BlockQuery

/-! ## Parts of a value

  Whatever a program can reach inside a value stands in one of its mappings or sequences.  A part
  that is not there counts as null, which has no keys at all, so the laws about a key or a path need
  no hypothesis that something is found. -/

namespace Value

variable {v : Value} {items : List Value} {es : Entries}

/-- Null has no keys. -/
theorem DistinctKeys.null : Value.null.DistinctKeys :=
  distinctKeys_of_isBlock rfl

/-- What may be missing has distinct keys, since null stands for it then. -/
theorem DistinctKeys.getD {o : Option Value} (h : ∀ w, o = some w → w.DistinctKeys) :
    (o.getD .null).DistinctKeys := by
  cases o with
  | none => exact .null
  | some w => exact h w rfl

/-- What stands under a key has distinct keys. -/
theorem DistinctKeys.of_lookup {key : String} {w : Value} (h : (mapping es).DistinctKeys)
    (hw : es.lookup key = some w) : w.DistinctKeys := by
  obtain ⟨front, back, rfl, -⟩ := List.lookup_eq_some_iff.1 hw
  exact (distinctKeys_mapping.1 h).2 (key, w) (by simp)

/-- What stands at a place of a sequence has distinct keys. -/
theorem DistinctKeys.of_getElem? {n : Nat} {w : Value} (h : (sequence items).DistinctKeys)
    (hw : items[n]? = some w) : w.DistinctKeys :=
  distinctKeys_sequence.1 h w (List.mem_of_getElem? hw)

/-- Putting something under a key does not repeat the key: it is exchanged where it stands, and
    added only when it is not there. -/
theorem DistinctKeys.put {key : String} {c : Value} (h : (mapping es).DistinctKeys)
    (hc : c.DistinctKeys) : (mapping (Entries.put key c es)).DistinctKeys := by
  obtain ⟨hnodup, hvalues⟩ := distinctKeys_mapping.1 h
  refine distinctKeys_mapping.2 ⟨Entries.nodup_keys_put hnodup key c, ?_⟩
  intro e he
  rcases Entries.mem_of_mem_put he with rfl | he
  · exact hc
  · exact hvalues e he

/-- A node of a tree with distinct keys is such a tree itself. -/
theorem DistinctKeys.of_mem_descendants {w : Value} (h : v.DistinctKeys)
    (hw : w ∈ v.descendants) : w.DistinctKeys := by
  induction v using Value.induct with
  | sequence items ih =>
    rcases List.mem_cons.1 hw with rfl | hw
    · exact h
    · obtain ⟨u, hu, hw⟩ := mem_itemDescendants.1 hw
      exact ih u hu (distinctKeys_sequence.1 h u hu) hw
  | mapping es ih =>
    rcases List.mem_cons.1 hw with rfl | hw
    · exact h
    · obtain ⟨e, he, hw⟩ := mem_entryDescendants.1 hw
      exact ih e he ((distinctKeys_mapping.1 h).2 e he) hw
  | _ =>
    obtain rfl := List.mem_singleton.1 hw
    exact h

/-- What the program finds under a key, which is null when nothing stands there. -/
theorem DistinctKeys.get? (h : v.DistinctKeys) (key : String) :
    ((v.get? key).getD .null).DistinctKeys := by
  cases v with
  | mapping es => exact .getD fun w hw => h.of_lookup hw
  | _ => exact .null

/-- What a step leads to has distinct keys, by the kind of step and of value. -/
theorem DistinctKeys.child? {step : Step} {w : Value} (h : v.DistinctKeys)
    (hw : v.child? step = some w) : w.DistinctKeys := by
  unfold Value.child? at hw
  split at hw
  · exact h.of_lookup hw
  · obtain ⟨n, -, hw⟩ := Option.bind_eq_some_iff.1 hw
    exact h.of_getElem? hw
  · cases hw

/-- What a path leads to has distinct keys, by induction on the path. -/
theorem DistinctKeys.lookup? {path : Path} {w : Value} (h : v.DistinctKeys)
    (hw : v.lookup? path = some w) : w.DistinctKeys := by
  induction path generalizing v with
  | nil =>
    obtain rfl := Option.some.inj hw
    exact h
  | cons step path ih =>
    obtain ⟨c, hc, hw⟩ := Option.bind_eq_some_iff.1 hw
    exact ih (h.child? hc) hw

/-! ## Writing

  A write goes down as far as the path does and puts the value together again on the way back.  On
  each level it opens a slot, which may be in a container that was made of null, and fills it with
  what comes from below. -/

/-- A container that is made of null is empty. -/
theorem DistinctKeys.orEmptyFor (h : v.DistinctKeys) (step : Step) :
    (v.orEmptyFor step).DistinctKeys := by
  cases v with
  | null => cases step <;> exact distinctKeys_of_isBlock rfl
  | _ => exact h

/-- What stands in a slot has distinct keys, and the value has them still when something else with
    distinct keys stands there. -/
theorem DistinctKeys.slot {step : Step} {s : Slot} (h : v.DistinctKeys)
    (hs : v.slot step = .ok s) :
    s.content.DistinctKeys ∧ ∀ c, c.DistinctKeys → (s.fill c).DistinctKeys := by
  have hcontainer := h.orEmptyFor step
  rcases slot_cases hs with ⟨es, key, -, heq, rfl⟩ | ⟨items, i, n, -, heq, -, -, rfl⟩
  · rw [heq] at hcontainer
    exact ⟨.getD fun w hw => hcontainer.of_lookup hw, fun c hc => hcontainer.put hc⟩
  · rw [heq] at hcontainer
    refine ⟨.getD fun w hw => hcontainer.of_getElem? hw, fun c hc => ?_⟩
    refine distinctKeys_sequence.2 fun w hw => ?_
    rcases List.mem_or_eq_of_mem_set hw with hw | rfl
    · rcases List.mem_append.1 hw with hw | hw
      · exact distinctKeys_sequence.1 hcontainer w hw
      · -- the padding is null
        obtain rfl := List.eq_of_mem_replicate hw
        exact .null
    · exact hc

/-- Assigning keeps keys distinct: by induction on the path, where the slot of the first step has
    distinct keys with anything in it that has them. -/
theorem DistinctKeys.assign {path : Path} {new : Value} (h : v.DistinctKeys)
    (hnew : new.DistinctKeys) : Ensures DistinctKeys (v.assign path new) := by
  induction path generalizing v with
  | nil => exact .ok hnew
  | cons step path ih =>
    intro w hw
    obtain ⟨s, c, hs, hc, rfl⟩ := assign_cons_ok hw
    obtain ⟨hcontent, hfill⟩ := h.slot hs
    exact hfill c (ih hcontent c hc)

end Value

end BlockQuery

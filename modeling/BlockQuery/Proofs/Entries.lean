/-
  Laws of entries.

  `put` is a store at one key: it gives back what was put, a second `put` at the key overwrites the
  first, and putting what is there already changes nothing.  `without` takes the entry of a key out
  of the place where it stands.  `ofPairs` gathers pairs by `put`, so its entries are among the
  pairs, its keys are distinct, and pairs whose keys are distinct already are gathered as they
  stand; and gathering two runs of pairs is gathering each and then putting the second into the
  first.

  A mapping is a list of entries, so that the order of its keys is kept, and everything about
  mappings comes down to these laws.  They are stated for values of any kind, as the same lists are
  used for JSON members before they are values.  Inductions over entries have one case more than is
  expected: the first key may be the one that is looked for, and then the rest is not looked at.
-/
import BlockQuery.Value.Basic
import Mathlib.Data.List.Nodup
import Mathlib.Data.List.Induction

namespace BlockQuery.Entries

variable {α : Type}

/-! ## One key

  Putting and looking up at one key, and the order of two puts. -/

/-- Of two values put at one key, the later one stays. -/
theorem put_put (key : String) (v w : α) (es : List (String × α)) :
    put key v (put key w es) = put key v es := by
  induction es with
  | nil => simp [put]
  | cons e es ih =>
    obtain ⟨k, u⟩ := e
    by_cases h : k = key
    · subst h; simp [put]
    · simp [put, h, ih]

/-- Putting what a key has already changes nothing, not even the order. -/
theorem put_of_lookup {key : String} {v : α} {es : List (String × α)}
    (h : es.lookup key = some v) : put key v es = es := by
  induction es with
  | nil => simp at h
  | cons e es ih =>
    obtain ⟨k, u⟩ := e
    by_cases hk : k = key
    · subst hk
      rw [List.lookup_cons_self] at h
      obtain rfl := Option.some.inj h
      simp [put]
    · have hb : (key == k) = false := by simp [Ne.symm hk]
      rw [List.lookup_cons, hb] at h
      simp [put, hk, ih h]

/-- The order of two puts does not matter where the second key has its place already. -/
theorem put_comm_of_mem {k l : String} (hne : k ≠ l) {es : List (String × α)} (hk : k ∈ keys es)
    (v w : α) : put k v (put l w es) = put l w (put k v es) := by
  induction es with
  | nil => simp [keys] at hk
  | cons e es ih =>
    obtain ⟨m, u⟩ := e
    by_cases hmk : m = k
    · subst hmk
      simp [put, hne]
    · have hmem : k ∈ keys es := (List.mem_cons.1 hk).resolve_left (Ne.symm hmk)
      by_cases hml : m = l
      · subst hml
        simp [put, hmk]
      · simp [put, hmk, hml, ih hmem]

/-! ## Where entries come from

  Nothing is made up: what stands among gathered entries was put there with its key. -/

/-- Behind a put there are the new entry and old ones. -/
theorem mem_of_mem_put {key : String} {v : α} {es : List (String × α)} {e : String × α}
    (h : e ∈ put key v es) : e = (key, v) ∨ e ∈ es := by
  induction es with
  | nil => exact Or.inl (List.mem_singleton.1 h)
  | cons f es ih =>
    obtain ⟨k, w⟩ := f
    rw [put] at h
    split at h
    · rename_i hk
      rcases List.mem_cons.1 h with rfl | hmem
      · exact Or.inl (by rw [hk])
      · exact Or.inr (List.mem_cons_of_mem _ hmem)
    · rcases List.mem_cons.1 h with rfl | hmem
      · exact Or.inr List.mem_cons_self
      · exact (ih hmem).imp_right (List.mem_cons_of_mem _)

/-- So there are behind putting all entries of one list into another. -/
theorem mem_of_mem_extend {old new : List (String × α)} {e : String × α}
    (h : e ∈ extend old new) : e ∈ old ∨ e ∈ new := by
  induction new generalizing old with
  | nil => exact Or.inl h
  | cons f new ih =>
    rcases ih h with hput | hnew
    · rcases mem_of_mem_put hput with rfl | hold
      · exact Or.inr List.mem_cons_self
      · exact Or.inl hold
    · exact Or.inr (List.mem_cons_of_mem _ hnew)

/-- An entry that is gathered is one of the pairs. -/
theorem mem_of_mem_ofPairs {pairs : List (String × α)} {e : String × α}
    (h : e ∈ ofPairs pairs) : e ∈ pairs := by
  rcases mem_of_mem_extend h with hnil | hmem
  · exact absurd hnil (by simp)
  · exact hmem

/-! ## Distinct keys

  A put exchanges a value where its key stands, or it adds an entry at the end.  Either way keys
  stay distinct, and a list whose keys are all new is added as it is. -/

/-- Where keys are distinct, an entry is what its key looks up. -/
theorem lookup_eq_some_of_mem {es : List (String × α)} (h : (keys es).Nodup) {k : String} {v : α}
    (hmem : (k, v) ∈ es) : es.lookup k = some v := by
  induction es with
  | nil => simp at hmem
  | cons e es ih =>
    obtain ⟨l, u⟩ := e
    have hnodup : l ∉ keys es ∧ (keys es).Nodup := List.nodup_cons.1 h
    rcases List.mem_cons.1 hmem with heq | htail
    · obtain ⟨rfl, rfl⟩ := Prod.mk.inj heq
      exact List.lookup_cons_self
    · have hne : k ≠ l := by
        rintro rfl
        exact hnodup.1 (List.mem_map_of_mem (f := (·.1)) htail)
      have hb : (k == l) = false := by simpa using hne
      rw [List.lookup_cons, hb]
      exact ih hnodup.2 htail

/-- Putting a value keeps distinct keys distinct. -/
theorem nodup_keys_put {es : List (String × α)} (h : (keys es).Nodup) (key : String) (v : α) :
    (keys (put key v es)).Nodup := by
  by_cases hkey : key ∈ keys es
  · rw [keys_put_of_hasKey hkey]
    exact h
  · rw [keys_put_of_not_hasKey hkey, List.nodup_append]
    refine ⟨h, List.nodup_singleton key, ?_⟩
    rintro k hk l hl rfl
    exact hkey (List.mem_singleton.1 hl ▸ hk)

/-- Putting all entries of one list into another keeps distinct keys distinct. -/
theorem nodup_keys_extend {old : List (String × α)} (h : (keys old).Nodup)
    (new : List (String × α)) : (keys (extend old new)).Nodup := by
  induction new generalizing old with
  | nil => exact h
  | cons e new ih => exact ih (nodup_keys_put h e.1 e.2)

/-- The keys of gathered pairs are distinct. -/
theorem nodup_keys_ofPairs (pairs : List (String × α)) : (keys (ofPairs pairs)).Nodup :=
  @nodup_keys_extend α [] List.nodup_nil pairs

/-- A new key is put at the end. -/
theorem put_of_not_mem {key : String} {es : List (String × α)} (h : key ∉ keys es) (v : α) :
    put key v es = es ++ [(key, v)] := by
  induction es with
  | nil => rfl
  | cons e es ih =>
    obtain ⟨k, w⟩ := e
    have hne : key ≠ k ∧ key ∉ keys es := List.mem_cons.not.trans not_or |>.1 h
    rw [put, if_neg hne.1.symm, ih hne.2, List.cons_append]

/-- Entries with new and distinct keys are added as they stand. -/
theorem extend_of_nodup {old new : List (String × α)} (h : (keys (old ++ new)).Nodup) :
    extend old new = old ++ new := by
  induction new generalizing old with
  | nil => simp [extend]
  | cons e new ih =>
    obtain ⟨k, v⟩ := e
    have hk : k ∉ keys old := by
      intro hmem
      rw [keys, List.map_append, List.nodup_append] at h
      exact h.2.2 k hmem k (by simp) rfl
    -- the key is new, so its entry is put at the end
    have happend : old ++ (k, v) :: new = old ++ [(k, v)] ++ new := by simp
    rw [happend] at h ⊢
    rw [← ih h, ← put_of_not_mem hk]
    rfl

/-- Pairs with distinct keys are gathered as they stand. -/
theorem ofPairs_of_nodup {pairs : List (String × α)} (h : (keys pairs).Nodup) :
    ofPairs pairs = pairs :=
  @extend_of_nodup α [] pairs h

/-! ## Taking a key out

  A key is taken out with all its entries, and where keys are distinct this is one.  So a list with
  the key in it is written as what stands in front and behind. -/

/-- A look-up finds nothing when the key is not there. -/
theorem lookup_eq_none_iff {key : String} {es : List (String × α)} :
    es.lookup key = none ↔ key ∉ keys es := by
  rw [List.lookup_eq_none_iff]
  constructor
  · intro h hkey
    obtain ⟨e, he, rfl⟩ := List.mem_map.1 hkey
    exact bne_iff_ne.1 (h e he) rfl
  · intro h e he
    rw [bne_iff_ne]
    rintro rfl
    exact h (List.mem_map_of_mem he)

/-- A key is there when it is one of the keys. -/
theorem hasKey_iff {key : String} {es : List (String × α)} :
    hasKey key es = true ↔ key ∈ keys es := by
  rw [hasKey, Option.isSome_iff_ne_none, Ne, lookup_eq_none_iff, not_not]

/-- Where keys are distinct, a key that is found stands in one place. -/
theorem exists_of_lookup {es : List (String × α)} (h : (keys es).Nodup) {key : String} {v : α}
    (hv : es.lookup key = some v) :
    ∃ front back, es = front ++ (key, v) :: back ∧ key ∉ keys (front ++ back) := by
  obtain ⟨front, back, rfl, -⟩ := List.lookup_eq_some_iff.1 hv
  refine ⟨front, back, rfl, ?_⟩
  rw [keys, List.map_append, List.map_cons, List.nodup_middle, List.nodup_cons] at h
  rw [keys, List.map_append]
  exact h.1

/-- Taking out a key that is not there changes nothing. -/
theorem without_of_not_mem {key : String} {es : List (String × α)} (h : key ∉ keys es) :
    without key es = es := by
  rw [without, List.filter_eq_self]
  intro e he
  rw [decide_eq_true_iff]
  rintro rfl
  exact h (List.mem_map_of_mem he)

/-- Behind taking a key out it is not there. -/
theorem not_mem_keys_without (key : String) (es : List (String × α)) :
    key ∉ keys (without key es) := by
  simp [keys, without]

/-- The entry of a key is taken out where it stands. -/
theorem without_middle {key : String} {front back : List (String × α)}
    (h : key ∉ keys (front ++ back)) (v : α) :
    without key (front ++ (key, v) :: back) = front ++ back := by
  rw [← without_of_not_mem h, without, without, List.filter_append, List.filter_append,
    List.filter_cons_of_neg (by simp)]

/-! ## Entries put one after the other

  Putting one list into another is a sum of mappings, in which the right one wins.  These laws say
  when two puts of a sum may change places, and that sums can be grouped. -/

/-- A key that has its place may get its value before the others do. -/
theorem put_extend {k : String} {old new : List (String × α)} (hold : k ∈ keys old)
    (hnew : k ∉ keys new) (v : α) : put k v (extend old new) = extend (put k v old) new := by
  induction new generalizing old with
  | nil => rfl
  | cons e new ih =>
    obtain ⟨l, w⟩ := e
    have hne : k ≠ l ∧ k ∉ keys new := List.mem_cons.not.trans not_or |>.1 hnew
    have hplace : k ∈ keys (put l w old) := by
      by_cases hl : l ∈ keys old
      · rwa [keys_put_of_hasKey hl]
      · rw [keys_put_of_not_hasKey hl]
        exact List.mem_append_left _ hold
    calc put k v (extend (put l w old) new)
      _ = extend (put k v (put l w old)) new := ih hplace hne.2
      _ = extend (put l w (put k v old)) new := by rw [put_comm_of_mem hne.1 hold]

/-- An entry that is put into new entries is put last of all. -/
theorem extend_put {new : List (String × α)} (hnew : (keys new).Nodup) (old : List (String × α))
    (k : String) (v : α) : extend old (put k v new) = put k v (extend old new) := by
  induction new generalizing old with
  | nil => rfl
  | cons e new ih =>
    obtain ⟨l, w⟩ := e
    have hnodup : l ∉ keys new ∧ (keys new).Nodup := List.nodup_cons.1 hnew
    rw [put]
    split
    · rename_i hl
      subst hl
      have hplace : l ∈ keys (put l w old) := by
        by_cases hold : l ∈ keys old
        · rwa [keys_put_of_hasKey hold]
        · rw [keys_put_of_not_hasKey hold]
          exact List.mem_append_right _ List.mem_cons_self
      -- its value is exchanged where it stands
      calc extend (put l v old) new
        _ = extend (put l v (put l w old)) new := by rw [put_put]
        _ = put l v (extend (put l w old) new) := (put_extend hplace hnodup.1 v).symm
    · exact ih hnodup.2 (put l w old)

/-- Pairs may be gathered before they are put into other entries. -/
theorem extend_ofPairs (old pairs : List (String × α)) :
    extend old (ofPairs pairs) = extend old pairs := by
  induction pairs using List.reverseRecOn with
  | nil => rfl
  | append_singleton pairs e ih =>
    have hlast : ∀ es : List (String × α), extend es (pairs ++ [e]) =
        put e.1 e.2 (extend es pairs) := fun es => List.foldl_concat ..
    calc extend old (ofPairs (pairs ++ [e]))
      _ = extend old (put e.1 e.2 (ofPairs pairs)) := by rw [ofPairs, hlast, ← ofPairs]
      _ = put e.1 e.2 (extend old pairs) := by rw [extend_put (nodup_keys_ofPairs pairs), ih]
      _ = extend old (pairs ++ [e]) := (hlast old).symm

/-- Gathering two runs of pairs is putting the second, gathered, into the first. -/
theorem ofPairs_append (pairs more : List (String × α)) :
    ofPairs (pairs ++ more) = extend (ofPairs pairs) (ofPairs more) := by
  rw [extend_ofPairs]
  exact List.foldl_append ..

end BlockQuery.Entries

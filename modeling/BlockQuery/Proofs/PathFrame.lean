/-
  What a write leaves alone.

  Two paths part where one goes on with another key, or with another index when neither counts from
  the end (`Step.Parts`).  Filling the slot of one step keeps the child of every step that parts
  from it; only padding makes a child out of nothing, and that child is null (`child?_fill_parts`).
  Along the common front of two paths nothing but the common child is filled in, so what holds of
  one slot holds where the paths part, at any depth.

  The statement about mappings is a second frame: a write adds at most one key to each mapping on
  its way, and that key goes to the end.  Both are proved for one slot and then by induction along
  the common front.
-/
import BlockQuery.Proofs.PathLens

namespace BlockQuery

/-- Whether two steps lead to different children of every value. -/
def Step.Parts : Step → Step → Prop
  | field a, field b => a ≠ b
  | index i, index j => i ≠ j ∧ 0 ≤ i ∧ 0 ≤ j
  | _, _ => False

namespace Value

/-! ## One slot

  Padding is the only thing that makes this more than a law of stores: an index beyond the end is a
  child that is not there before, and null afterwards.  Two indices that count from different ends
  are not compared, as they may mean one element. -/

variable {v v' x : Value} {step : Step} {s : Slot}

/-- The empty container that null gives way to has no more children than null. -/
theorem child?_orEmptyFor (v : Value) (step other : Step) :
    (v.orEmptyFor step).child? other = v.child? other := by
  cases v with
  | null => cases step <;> cases other <;> simp [orEmptyFor, emptyFor, child?]
  | _ => rfl

/-- What stands in a slot is the child of its step, or null where there is no child. -/
theorem child?_of_slot (h : v.slot step = .ok s) :
    v.child? step = some s.content ∨ (v.child? step = none ∧ s.content = null) := by
  have hgetD : ∀ o : Option Value, o = some (o.getD null) ∨ (o = none ∧ o.getD null = null) := by
    rintro (_ | c)
    · exact Or.inr ⟨rfl, rfl⟩
    · exact Or.inl rfl
  rw [← child?_orEmptyFor v step]
  rcases slot_cases h with ⟨es, key, rfl, hv, rfl⟩ | ⟨items, i, n, rfl, hv, hn, -, rfl⟩
  · rw [hv]
    exact hgetD (es.lookup key)
  · rw [hv, child?, hn, Option.bind_some]
    exact hgetD items[n]?

/-- Beyond the elements that are there, padding has nulls and then nothing. -/
theorem getElem?_padTo (items : List Value) (n m : Nat) :
    (padTo items n)[m]? = items[m]? ∨ (items[m]? = none ∧ (padTo items n)[m]? = some null) := by
  by_cases hm : m < items.length
  · exact Or.inl (List.getElem?_append_left hm)
  · have hnone : items[m]? = none := List.getElem?_eq_none (Nat.not_lt.1 hm)
    rw [padTo, List.getElem?_append_right (Nat.not_lt.1 hm), List.getElem?_replicate, hnone]
    split
    · exact Or.inr ⟨rfl, rfl⟩
    · exact Or.inl rfl

/-- Filling a slot keeps the child of a step that parts from its own, unless padding puts a null
    where there was none. -/
theorem child?_fill_parts (h : v.slot step = .ok s) {other : Step} (hparts : step.Parts other)
    (c : Value) :
    (s.fill c).child? other = v.child? other ∨
      (v.child? other = none ∧ (s.fill c).child? other = some null ∧
        ∃ i j, step = .index i ∧ other = .index j) := by
  rw [← child?_orEmptyFor v step]
  rcases slot_cases h with ⟨es, key, rfl, hv, rfl⟩ | ⟨items, i, n, rfl, hv, hn, -, rfl⟩
  · cases other with
    | index j => exact hparts.elim
    | field name =>
      rw [hv]
      exact Or.inl (Entries.lookup_put_of_ne (Ne.symm hparts) c es)
  · cases other with
    | field name => exact hparts.elim
    | index j =>
      obtain ⟨hne, hi, hj⟩ := hparts
      have hn' : i.toNat = n := by simpa [resolveIndex?, hi] using hn
      have hnm : n ≠ j.toNat := by omega
      have hresolve : ∀ len, resolveIndex? j len = some j.toNat := fun len => if_pos hj
      rw [hv]
      simp only [child?, hresolve, Option.bind_some, List.getElem?_set_ne hnm]
      rcases getElem?_padTo items n j.toNat with hsame | ⟨hnone, hnull⟩
      · exact Or.inl hsame
      · exact Or.inr ⟨hnone, hnull, i, j, rfl, rfl⟩

/-- Filling a slot of a mapping keeps the keys and their order; the key of the step goes to the end
    if it was not there. -/
theorem keys_fill {es : Entries} (h : (mapping es).slot step = .ok s) (c : Value) :
    ∃ es', s.fill c = mapping es' ∧ (Entries.keys es' = Entries.keys es ∨
      ∃ key, step = .field key ∧ key ∉ Entries.keys es ∧
        Entries.keys es' = Entries.keys es ++ [key]) := by
  rcases slot_cases h with ⟨es₀, key, rfl, hv, rfl⟩ | ⟨items, i, n, rfl, hv, -, -, rfl⟩
  · obtain rfl : es = es₀ := by simpa [orEmptyFor] using hv
    refine ⟨Entries.put key c es, rfl, ?_⟩
    by_cases hkey : key ∈ Entries.keys es
    · exact Or.inl (Entries.keys_put_of_hasKey hkey c)
    · exact Or.inr ⟨key, rfl, hkey, Entries.keys_put_of_not_hasKey hkey c⟩
  · cases hv

/-! ## Paths

  The path that is read may go on in any way behind the step at which it parts. -/

/-- Where a path parts from the one that is written, nothing changes, but that an element which was
    not there may have become null. -/
theorem lookup?_assign_parts {front path : Path} {other : Step} (path' : Path)
    (h : v.assign (front ++ step :: path) x = .ok v') (hparts : step.Parts other) :
    v'.lookup? (front ++ other :: path') = v.lookup? (front ++ other :: path') ∨
      (v.lookup? (front ++ other :: path') = none ∧
        v'.lookup? (front ++ other :: path') = some null ∧
        ∃ i j, step = .index i ∧ other = .index j) := by
  induction front generalizing v v' with
  | nil =>
    obtain ⟨s, c, hs, -, rfl⟩ := assign_cons_ok h
    simp only [List.nil_append, lookup?]
    rcases child?_fill_parts hs hparts c with hsame | ⟨hnone, hnull, hindex⟩
    · exact Or.inl (by rw [hsame])
    · rw [hnone, hnull, Option.bind_some, Option.bind_none]
      cases path' with
      | nil => exact Or.inr ⟨rfl, rfl, hindex⟩
      | cons next path' => exact Or.inl (lookup?_null (by simp))
  | cons first front ih =>
    obtain ⟨s, c, hs, hc, rfl⟩ := assign_cons_ok h
    simp only [List.cons_append, lookup?, child?_fill hs, Option.bind_some]
    have hinside := ih hc
    rcases child?_of_slot hs with hchild | ⟨hnone, hnull⟩
    · rw [hchild, Option.bind_some]
      exact hinside
    · -- the write has made the child, so there was nothing where the paths part
      rw [hnull, lookup?_null (by simp)] at hinside
      rw [hnone, Option.bind_none]
      exact hinside

/-- A mapping on the way of a write keeps its keys in their order; the next key of the path goes to
    the end if it was not there. -/
theorem keys_lookup?_assign {front path : Path} {es : Entries}
    (h : v.assign (front ++ step :: path) x = .ok v') (hes : v.lookup? front = some (mapping es)) :
    ∃ es', v'.lookup? front = some (mapping es') ∧ (Entries.keys es' = Entries.keys es ∨
      ∃ key, step = .field key ∧ key ∉ Entries.keys es ∧
        Entries.keys es' = Entries.keys es ++ [key]) := by
  induction front generalizing v v' with
  | nil =>
    obtain ⟨s, c, hs, -, rfl⟩ := assign_cons_ok h
    obtain rfl : v = mapping es := Option.some.inj hes
    obtain ⟨es', hfill, hkeys⟩ := keys_fill hs c
    exact ⟨es', congrArg some hfill, hkeys⟩
  | cons first front ih =>
    obtain ⟨s, c, hs, hc, rfl⟩ := assign_cons_ok h
    rw [lookup?] at hes
    rcases child?_of_slot hs with hchild | ⟨hnone, -⟩
    · rw [hchild, Option.bind_some] at hes
      obtain ⟨es', hes', hkeys⟩ := ih hc hes
      refine ⟨es', ?_, hkeys⟩
      rw [lookup?, child?_fill hs, Option.bind_some]
      exact hes'
    · rw [hnone] at hes
      cases hes

/-- **A write touches nothing else.**  Where a path parts from the one that is written, what is
    there stays, and what is not there stays away, but that an element of a sequence may become
    null.  A mapping on the way keeps its keys in their order, with at most the next key of the path
    behind them. -/
theorem assign_frame {path : Path} (h : v.assign path x = .ok v') :
    (∀ front step rest other rest', path = front ++ step :: rest → step.Parts other →
      (∀ y, v.lookup? (front ++ other :: rest') = some y →
        v'.lookup? (front ++ other :: rest') = some y) ∧
      (v.lookup? (front ++ other :: rest') = none →
        v'.lookup? (front ++ other :: rest') = none ∨
        (v'.lookup? (front ++ other :: rest') = some null ∧
          ∃ i j, step = .index i ∧ other = .index j))) ∧
    ∀ front step rest es, path = front ++ step :: rest → v.lookup? front = some (mapping es) →
      ∃ es', v'.lookup? front = some (mapping es') ∧ (Entries.keys es' = Entries.keys es ∨
        ∃ key, step = .field key ∧ key ∉ Entries.keys es ∧
          Entries.keys es' = Entries.keys es ++ [key]) := by
  constructor
  · rintro front step rest other rest' rfl hparts
    have hkept := lookup?_assign_parts rest' h hparts
    constructor
    · intro y hy
      rcases hkept with hsame | ⟨hnone, -⟩
      · rw [hsame, hy]
      · rw [hnone] at hy
        cases hy
    · intro hnone
      rcases hkept with hsame | ⟨-, hnull, hindex⟩
      · exact Or.inl (hsame.trans hnone)
      · exact Or.inr ⟨hnull, hindex⟩
  · rintro front step rest es rfl hes
    exact keys_lookup?_assign h hes

/-- A write that pads a sequence with a null, beside an element that stays; and one that appends a
    key. -/
theorem assign_frame_padded :
    let v := mapping [("a", sequence [boolean true]), ("b", boolean false)]
    let v' := mapping [("a", sequence [boolean true, null, boolean true]), ("b", boolean false)]
    let v'' := mapping [("a", sequence [boolean true]), ("b", boolean false), ("c", null)]
    (v.assign [.field "a", .index 2] (boolean true) = .ok v' ∧
      v'.lookup? [.field "a", .index 0] = some (boolean true) ∧
      (v'.lookup? [.field "a", .index 1] = none ∨
        v'.lookup? [.field "a", .index 1] = some null) ∧
      v'.lookup? [.field "b"] = some (boolean false)) ∧
    v.assign [.field "c"] null = .ok v'' ∧
      ∃ es, v''.lookup? [] = some (mapping es) ∧ (Entries.keys es = ["a", "b"] ∨
        ∃ key, Step.field "c" = .field key ∧ key ∉ ["a", "b"] ∧
          Entries.keys es = ["a", "b"] ++ [key]) := by
  intro v v' v''
  have hpad : v.assign [.field "a", .index 2] (boolean true) = .ok v' := rfl
  have happend : v.assign [.field "c"] null = .ok v'' := rfl
  obtain ⟨hparts, -⟩ := assign_frame hpad
  obtain ⟨-, hkeys⟩ := assign_frame happend
  refine ⟨⟨hpad, ?_, ?_, ?_⟩, happend, hkeys [] (.field "c") [] _ rfl rfl⟩
  · exact (hparts [.field "a"] (.index 2) [] (.index 0) [] rfl ⟨by decide, by decide, by decide⟩).1
      _ rfl
  · exact ((hparts [.field "a"] (.index 2) [] (.index 1) [] rfl
      ⟨by decide, by decide, by decide⟩).2 rfl).imp_right And.left
  · exact (hparts [] (.field "a") [.index 2] (.field "b") [] rfl (by decide : "a" ≠ "b")).1 _ rfl

end Value

end BlockQuery

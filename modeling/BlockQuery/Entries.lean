/-
  Entries: lists of keys with what they stand for, in the order in which the keys came.

  The operations here (`put`, `extend`, `ofPairs`, `without`) are the only ways in which the library
  builds a mapping, and each keeps distinct keys distinct: a repeated key stays where it was first
  and takes its last value.  Reading is `List.lookup`.
-/

namespace BlockQuery.Entries

variable {α : Type}

/-- Gives `key` the value `v`: in place if the key is there, at the end if not. -/
def put (key : String) (v : α) : List (String × α) → List (String × α)
  | [] => [(key, v)]
  | (k, w) :: es => if k = key then (k, v) :: es else (k, w) :: put key v es

/-- Puts all entries of `new` into `old`, one after the other. -/
def extend (old new : List (String × α)) : List (String × α) :=
  new.foldl (fun es e => put e.1 e.2 es) old

/-- The entries that a list of pairs describes. -/
def ofPairs (pairs : List (String × α)) : List (String × α) :=
  extend [] pairs

/-- The entries without `key`. -/
def without (key : String) (es : List (String × α)) : List (String × α) :=
  es.filter fun e => e.1 ≠ key

/-- Whether `key` is among the keys. -/
def hasKey (key : String) (es : List (String × α)) : Bool :=
  (es.lookup key).isSome

/-- The keys in order. -/
def keys (es : List (String × α)) : List String :=
  es.map (·.1)

/-! ## Reading back what was put

  The four facts that describe `put` completely: what is found under the key and under another one,
  and what becomes of the list of keys.  Whether the keys stay distinct follows from the last
  two. -/

/-- What was put under a key is found there, whether or not the key was there before. -/
theorem lookup_put_self (key : String) (v : α) (es : List (String × α)) :
    (put key v es).lookup key = some v := by
  induction es with
  | nil => simp [put]
  | cons e es ih =>
    obtain ⟨k, w⟩ := e
    by_cases h : k = key
    · subst h; simp [put]
    · have h' : (key == k) = false := by simp [Ne.symm h]
      simp [put, h, List.lookup_cons, h', ih]

/-- Putting a value under one key changes nothing under another. -/
theorem lookup_put_of_ne {key other : String} (h : other ≠ key) (v : α)
    (es : List (String × α)) : (put key v es).lookup other = es.lookup other := by
  have hb : (other == key) = false := by simp [h]
  induction es with
  | nil => simp [put, List.lookup_cons, hb]
  | cons e es ih =>
    obtain ⟨k, w⟩ := e
    by_cases hk : k = key
    · subst hk
      have h' : (other == k) = false := by simp [h]
      simp [put, List.lookup_cons, h']
    · simp only [put, hk, if_false, List.lookup_cons, ih]

/-- Putting a value under a key that is there moves no key. -/
theorem keys_put_of_hasKey {key : String} {es : List (String × α)} (h : key ∈ keys es) (v : α) :
    keys (put key v es) = keys es := by
  induction es with
  | nil => simp [keys] at h
  | cons e es ih =>
    obtain ⟨k, w⟩ := e
    by_cases hk : k = key
    · simp [put, hk, keys]
    · have h' : key ∈ keys es := by
        simp only [keys, List.map_cons, List.mem_cons] at h
        rcases h with h | h
        · exact absurd h.symm hk
        · exact h
      simpa [put, hk, keys] using ih h'

/-- A new key goes to the end. -/
theorem keys_put_of_not_hasKey {key : String} {es : List (String × α)} (h : key ∉ keys es)
    (v : α) : keys (put key v es) = keys es ++ [key] := by
  induction es with
  | nil => simp [put, keys]
  | cons e es ih =>
    obtain ⟨k, w⟩ := e
    simp only [keys, List.map_cons, List.mem_cons, not_or] at h
    have hk : ¬ k = key := fun e => h.1 e.symm
    simpa [put, hk, keys] using ih h.2

end BlockQuery.Entries

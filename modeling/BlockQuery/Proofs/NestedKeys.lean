/-
  Keys anywhere in a document.

  In the nested mode `has` searches a tree for a key and stops where it finds one.  The search goes
  through sequences and mappings alike, and so meets a key exactly where the walk over the tree has
  a mapping with that key (`hasNestedKey_iff`).  The mapping itself is the first node of its walk,
  so what is true without the mode stays true with it.
-/
import BlockQuery.Proofs.Tree
import BlockQuery.Query.Eval

namespace BlockQuery

namespace Value

/-! ## Searching a tree

  The search is a recursion of its own with companions for elements and entries, and the walk is
  another.  Both are described by what is found at a node or below it, by induction on the tree. -/

/-- A key is found below a sequence when it is in one of its elements. -/
theorem itemsHaveKey_iff {key : String} {items : List Value} :
    itemsHaveKey key items = true ↔ ∃ v ∈ items, v.hasNestedKey key = true := by
  induction items with
  | nil => simp [itemsHaveKey]
  | cons v items ih => simp [itemsHaveKey, ih]

/-- A key is found below a mapping when it is in one of its values. -/
theorem entriesHaveKey_iff {key : String} {es : Entries} :
    entriesHaveKey key es = true ↔ ∃ e ∈ es, e.2.hasNestedKey key = true := by
  induction es with
  | nil => simp [entriesHaveKey]
  | cons e es ih => simp [entriesHaveKey, ih]

/-- The search finds a key exactly where a node of the tree is a mapping with that key. -/
theorem hasNestedKey_iff {key : String} {v : Value} :
    v.hasNestedKey key = true ↔ ∃ es, mapping es ∈ v.descendants ∧ key ∈ Entries.keys es := by
  induction v using Value.induct with
  | sequence items ih =>
    rw [hasNestedKey, itemsHaveKey_iff]
    constructor
    · rintro ⟨v, hv, hfound⟩
      obtain ⟨es, hes, hkey⟩ := (ih v hv).1 hfound
      exact ⟨es, List.mem_cons_of_mem _ (mem_itemDescendants.2 ⟨v, hv, hes⟩), hkey⟩
    · rintro ⟨es, hes, hkey⟩
      -- the sequence itself is no mapping
      obtain ⟨v, hv, hes⟩ := mem_itemDescendants.1 ((List.mem_cons.1 hes).resolve_left nofun)
      exact ⟨v, hv, (ih v hv).2 ⟨es, hes, hkey⟩⟩
  | mapping fs ih =>
    rw [hasNestedKey, Bool.or_eq_true, Entries.hasKey_iff, entriesHaveKey_iff]
    constructor
    · rintro (hkey | ⟨e, he, hfound⟩)
      · exact ⟨fs, List.mem_cons_self, hkey⟩
      · obtain ⟨es, hes, hkey⟩ := (ih e he).1 hfound
        exact ⟨es, List.mem_cons_of_mem _ (mem_entryDescendants.2 ⟨e, he, hes⟩), hkey⟩
    · rintro ⟨es, hes, hkey⟩
      rcases List.mem_cons.1 hes with hself | hes
      · obtain rfl : es = fs := Value.mapping.inj hself
        exact Or.inl hkey
      · obtain ⟨e, he, hes⟩ := mem_entryDescendants.1 hes
        exact Or.inr ⟨e, he, (ih e he).2 ⟨es, hes, hkey⟩⟩
  | _ => simp [hasNestedKey, descendants]

end Value

namespace Expr

/-! ## Asking for a key

  The statement is about mappings, as the plain mode has another answer for sequences, where a key
  is an index. -/

/-- The question whether the input has a key. -/
def has (key : String) : Expr :=
  call .has [literal (.string key)]

/-- On a mapping the answer is whether the key is found, in the tree or among the keys. -/
theorem eval_has (strict nested : Bool) (key : String) (es : Entries) :
    eval ⟨strict, nested⟩ (has key) (.mapping es) =
      .ok [.boolean (if nested then (Value.mapping es).hasNestedKey key
        else Entries.hasKey key es)] :=
  rfl

/-- **The nested mode asks all mappings of the document.**  It answers for a mapping whether some
    mapping that `..` emits on it has the key, which is whether the plain mode says so of one of
    them; so where the plain mode answers true, the nested mode does too. -/
theorem eval_has_nested (strict : Bool) (key : String) (es : Entries) :
    ∃ vs answer, eval ⟨strict, true⟩ recursiveDescent (.mapping es) = .ok vs ∧
      eval ⟨strict, true⟩ (has key) (.mapping es) = .ok [.boolean answer] ∧
      (answer = true ↔ ∃ fs, .mapping fs ∈ vs ∧ key ∈ Entries.keys fs) ∧
      (answer = true ↔
        ∃ fs, .mapping fs ∈ vs ∧
          eval ⟨strict, false⟩ (has key) (.mapping fs) = .ok [.boolean true]) ∧
      (eval ⟨strict, false⟩ (has key) (.mapping es) = .ok [.boolean true] → answer = true) := by
  have hplain : ∀ fs, eval ⟨strict, false⟩ (has key) (.mapping fs) = .ok [.boolean true] ↔
      key ∈ Entries.keys fs := by
    intro fs
    rw [eval_has, ← Entries.hasKey_iff]
    simp
  have hnested : (Value.mapping es).hasNestedKey key = true ↔
      ∃ fs, .mapping fs ∈ (Value.mapping es).descendants ∧ key ∈ Entries.keys fs :=
    Value.hasNestedKey_iff
  refine ⟨(Value.mapping es).descendants, (Value.mapping es).hasNestedKey key, rfl, rfl,
    hnested, ?_, ?_⟩
  · simp only [hplain]
    exact hnested
  · intro hown
    exact hnested.2 ⟨es, List.mem_cons_self, (hplain es).1 hown⟩

/-- A key that is met in a mapping inside a sequence, and one of the mapping itself. -/
theorem eval_has_nested_sequence :
    let es := [("a", Value.sequence [.mapping [("b", .null)]])]
    eval ⟨false, false⟩ (has "b") (.mapping es) = .ok [.boolean false] ∧
      eval ⟨false, true⟩ (has "b") (.mapping es) = .ok [.boolean true] ∧
      eval ⟨false, false⟩ (has "a") (.mapping es) = .ok [.boolean true] ∧
      eval ⟨false, true⟩ (has "a") (.mapping es) = .ok [.boolean true] := by
  intro es
  have hown : eval ⟨false, false⟩ (has "a") (.mapping es) = .ok [.boolean true] := rfl
  obtain ⟨-, answer, -, hanswer, -, -, hstays⟩ := eval_has_nested false "a" es
  obtain rfl : answer = true := hstays hown
  exact ⟨rfl, rfl, hown, hanswer⟩

end Expr

end BlockQuery

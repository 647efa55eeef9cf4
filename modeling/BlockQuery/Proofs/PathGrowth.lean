/-
  How much an assignment adds to a document.

  The nodes of a document are counted along its walk.  Filling a slot exchanges what stands in it,
  and adds no more than the nulls of the padding and the new element (`nodeCount_fill`); what is
  filled in has grown in the same way.  So a path of `n` steps adds at most `n` times the padding,
  and the value that is stored (`nodeCount_assign_le`), although each step may pad a container that
  the step before it has only just made.

  Which indices are let through is decided in words of 64 bits.  The position of an index that is
  not negative is below 2 to the 63rd, so the length behind it is still a word, and the lengths
  computed in words are those of `assign` (`map_toNat_lengthAfter?`).
-/
import BlockQuery.Proofs.IndexWords
import BlockQuery.Proofs.PathLens
import BlockQuery.Proofs.Tree
import Mathlib.Algebra.Ring.Nat

namespace BlockQuery

/-! ## Sums over lists

  The nodes of a container are one more than the sum over its parts.  These two laws say what
  exchanging a part does to a sum, as an equation without subtraction. -/

section Sums

variable {α : Type} (f : α → Nat)

/-- What an element that is exchanged does to a sum. -/
theorem sum_map_set {items : List α} {n : Nat} {a : α} (h : items[n]? = some a) (b : α) :
    ((items.set n b).map f).sum + f a = (items.map f).sum + f b := by
  induction items generalizing n with
  | nil => simp at h
  | cons c items ih =>
    cases n with
    | zero =>
      obtain rfl : c = a := by simpa using h
      simp only [List.set_cons_zero, List.map_cons, List.sum_cons]
      omega
    | succ n =>
      have hrest := ih (by simpa using h)
      simp only [List.set_cons_succ, List.map_cons, List.sum_cons]
      omega

/-- What a value that is put does to a sum over the values of entries. -/
theorem sum_map_put (es : List (String × α)) (key : String) (b : α) :
    ((Entries.put key b es).map fun e => f e.2).sum + ((es.lookup key).map f).getD 0 =
      (es.map fun e => f e.2).sum + f b := by
  induction es with
  | nil => simp [Entries.put]
  | cons e es ih =>
    obtain ⟨k, a⟩ := e
    by_cases hk : k = key
    · subst hk
      simp only [Entries.put, if_pos, List.lookup_cons_self, List.map_cons, List.sum_cons,
        Option.map_some, Option.getD_some]
      omega
    · have hb : (key == k) = false := by simpa using Ne.symm hk
      simp only [Entries.put, if_neg hk, List.lookup_cons, hb, List.map_cons, List.sum_cons]
      omega

end Sums

namespace Value

variable {v x v' : Value} {step : Step} {s : Slot} {path : Path}

/-! ## Counting nodes

  The count follows the walk, so it is described by what is counted in a sequence and in a
  mapping. -/

/-- The number of nodes of a tree. -/
def nodeCount (v : Value) : Nat :=
  v.descendants.length

/-- Null is one node. -/
theorem nodeCount_null : nodeCount null = 1 := rfl

/-- The nodes in elements are counted element by element. -/
theorem length_itemDescendants (items : List Value) :
    (itemDescendants items).length = (items.map nodeCount).sum := by
  induction items with
  | nil => rfl
  | cons v items ih => simp [itemDescendants, ih, nodeCount]

/-- The nodes in values of entries are counted value by value. -/
theorem length_entryDescendants (es : Entries) :
    (entryDescendants es).length = (es.map fun e => nodeCount e.2).sum := by
  induction es with
  | nil => rfl
  | cons e es ih => simp [entryDescendants, ih, nodeCount]

/-- A sequence is one node more than its elements have. -/
theorem nodeCount_sequence (items : List Value) :
    nodeCount (sequence items) = (items.map nodeCount).sum + 1 := by
  rw [nodeCount, descendants, List.length_cons, length_itemDescendants]

/-- A mapping is one node more than its values have. -/
theorem nodeCount_mapping (es : Entries) :
    nodeCount (mapping es) = (es.map fun e => nodeCount e.2).sum + 1 := by
  rw [nodeCount, descendants, List.length_cons, length_entryDescendants]

/-- The empty container that null gives way to is one node, as null is. -/
theorem nodeCount_orEmptyFor (v : Value) (step : Step) :
    (v.orEmptyFor step).nodeCount = v.nodeCount := by
  cases v with
  | null => cases step <;> rfl
  | _ => rfl

/-! ## One slot

  A slot in a mapping may add an entry, and a slot in a sequence may add nulls and an element.  The
  bound is that of the second, with all the padding there can be. -/

/-- Padding adds one node for each null. -/
theorem sum_nodeCount_padTo (items : List Value) (n : Nat) :
    ((padTo items n).map nodeCount).sum = (items.map nodeCount).sum + (n + 1 - items.length) := by
  simp [padTo, nodeCount_null]

/-- Padding puts a null where an element was missing. -/
theorem getElem?_padTo_self (items : List Value) (n : Nat) :
    (padTo items n)[n]? = some ((items[n]?).getD null) := by
  by_cases hn : n < items.length
  · rw [padTo_of_lt hn, List.getElem?_eq_getElem hn, Option.getD_some]
  · have hle := Nat.not_lt.1 hn
    have hpad : n - items.length < n + 1 - items.length := by omega
    rw [padTo, List.getElem?_append_right hle, List.getElem?_replicate, if_pos hpad,
      List.getElem?_eq_none hle, Option.getD_none]

/-- Filling a slot exchanges what stands in it and adds the padding and one element at most. -/
theorem nodeCount_fill (h : v.slot step = .ok s) (c : Value) :
    (s.fill c).nodeCount + s.content.nodeCount ≤ v.nodeCount + c.nodeCount + (maxPadding + 1) := by
  rw [← nodeCount_orEmptyFor v step]
  rcases slot_cases h with ⟨es, key, rfl, hv, rfl⟩ | ⟨items, i, n, rfl, hv, -, hpad, rfl⟩
  · have hput := sum_map_put nodeCount es key c
    simp only [hv, nodeCount_mapping]
    -- an entry that is there is exchanged, and a new one is one node more than null
    cases hlookup : es.lookup key with
    | some d =>
      simp only [hlookup, Option.map_some, Option.getD_some] at hput ⊢
      omega
    | none =>
      simp only [hlookup, Option.map_none, Option.getD_none, nodeCount_null] at hput ⊢
      omega
  · have hset := sum_map_set nodeCount (getElem?_padTo_self items n) c
    have hpadding := sum_nodeCount_padTo items n
    simp only [hv, nodeCount_sequence]
    omega

/-! ## Paths

  The induction is on the path.  What was null and is made a container on the way counts one node
  before and after, so each step pays for its own padding only. -/

/-- A path adds the value that is stored, and the padding and one element for each step at most. -/
theorem nodeCount_assign_le (h : v.assign path x = .ok v') :
    v'.nodeCount ≤ v.nodeCount + x.nodeCount + path.length * (maxPadding + 1) := by
  induction path generalizing v v' with
  | nil =>
    rw [assign] at h
    obtain rfl := Except.ok.inj h
    omega
  | cons step path ih =>
    obtain ⟨s, c, hs, hc, rfl⟩ := assign_cons_ok h
    have hfill := nodeCount_fill hs c
    have hchild := ih hc
    rw [List.length_cons, Nat.succ_mul]
    omega

end Value

/-! ## Lengths in words

  The program computes the new length before it knows that it is small, so the sum must not
  overflow.  It does not, because positions that are not inside the sequence come from a signed
  word. -/

namespace Word

/-- The length that a sequence of `n` elements has when an element is written at an index; none if
    the index is not let through. -/
def lengthAfter? (i : Int64) (n : UInt64) : Option UInt64 :=
  (resolveIndex? i n).bind fun k =>
    if k < n then some n
    else if UInt64.ofNat maxPadding < k - n then none
    else some (k + 1)

/-- A position is inside or small enough that the next one is a word too. -/
theorem lt_of_resolveIndex? {i : Int64} {n k : UInt64} (h : resolveIndex? i n = some k) :
    k < n ∨ k.toNat + 1 < 2 ^ 64 := by
  unfold resolveIndex? at h
  split at h
  · rename_i hi
    obtain rfl := Option.some.inj h
    have hword := toNat_toUInt64 hi
    have hlt := i.toInt_lt
    exact Or.inr (by omega)
  · rename_i hi
    have hback := toNat_magnitude (neg_iff.2 (Int.not_le.1 (mt nonneg_iff.2 hi)))
    have hneg := mt nonneg_iff.2 hi
    split at h
    · rename_i hle
      obtain rfl := Option.some.inj h
      rw [UInt64.lt_iff_toNat_lt, UInt64.toNat_sub_of_le n _ hle]
      have hle := UInt64.le_iff_toNat_le.1 hle
      exact Or.inl (by omega)
    · cases h

/-- Computed in words, the length behind an index is what it is without limits: nothing
    overflows. -/
theorem map_toNat_lengthAfter? (i : Int64) (n : UInt64) :
    (lengthAfter? i n).map UInt64.toNat =
      (BlockQuery.resolveIndex? i.toInt n.toNat).bind fun k =>
        if maxPadding < k - n.toNat then none else some (max n.toNat (k + 1)) := by
  rw [← map_toNat_resolveIndex?, lengthAfter?]
  cases hk : resolveIndex? i n with
  | none => rfl
  | some k =>
    rw [Option.bind_some, Option.map_some, Option.bind_some]
    have hroom := lt_of_resolveIndex? hk
    rw [UInt64.lt_iff_toNat_lt] at hroom
    by_cases hinside : k < n
    · have hlt := UInt64.lt_iff_toNat_lt.1 hinside
      rw [if_pos hinside, if_neg (by omega), Option.map_some, Nat.max_eq_left (by omega)]
    · have hge : n ≤ k := UInt64.not_lt.1 hinside
      have hle := UInt64.le_iff_toNat_le.1 hge
      have hgap : UInt64.ofNat maxPadding < k - n ↔ maxPadding < k.toNat - n.toNat := by
        rw [UInt64.lt_iff_toNat_lt, UInt64.toNat_sub_of_le k n hge]
        exact Iff.rfl
      have hnext : (k + 1).toNat = k.toNat + 1 := by
        rw [UInt64.toNat_add, UInt64.toNat_one, Nat.mod_eq_of_lt (by omega)]
      rw [if_neg hinside]
      by_cases hfar : maxPadding < k.toNat - n.toNat
      · rw [if_pos (hgap.2 hfar), if_pos hfar, Option.map_none]
      · rw [if_neg (mt hgap.1 hfar), if_neg hfar, Option.map_some, hnext,
          Nat.max_eq_right (by omega)]

end Word

namespace Value

/-! ## Index steps

  An index that is not negative is the interesting case, as only these lead beyond the end.  The
  slot of such an index is spelled out, with its condition. -/

variable {v : Value} {i : Int} {items : List Value}

/-- The slot of an index that is not negative, as far as the padding reaches. -/
theorem slot_index (hi : 0 ≤ i) (hv : v.orEmptyFor (.index i) = sequence items) :
    v.slot (.index i) =
      if i ≤ items.length + maxPadding then
        .ok ⟨(items[i.toNat]?).getD null,
          fun c => sequence ((padTo items i.toNat).set i.toNat c)⟩
      else .error (.beyondPadding (.index i)) := by
  have hresolve : resolveIndex? i items.length = some i.toNat := if_pos hi
  simp only [slot, hv, hresolve]
  by_cases hnear : i ≤ items.length + maxPadding
  · rw [if_pos hnear, if_neg (by omega)]
  · rw [if_neg hnear, if_pos (by omega)]

/-- An assignment through such an index goes on in the element there. -/
theorem assign_index (hi : 0 ≤ i) (hv : v.orEmptyFor (.index i) = sequence items)
    (hnear : i ≤ items.length + maxPadding) (path : Path) (x : Value) :
    v.assign (.index i :: path) x = (((items[i.toNat]?).getD null).assign path x).map fun c =>
      sequence ((padTo items i.toNat).set i.toNat c) := by
  have hslot := slot_index hi hv
  rw [if_pos hnear] at hslot
  exact assign_of_slot hslot path x

/-- Beyond the padding it fails, whatever the rest of the path is. -/
theorem assign_index_beyond (hi : 0 ≤ i) (hv : v.orEmptyFor (.index i) = sequence items)
    (hfar : items.length + maxPadding < i) (path : Path) (x : Value) :
    v.assign (.index i :: path) x = .error (.beyondPadding (.index i)) := by
  have hslot := slot_index hi hv
  rw [if_neg (Int.not_le.2 hfar)] at hslot
  rw [assign_cons, hslot]
  rfl

/-- **An assignment adds a bounded amount.** It adds at most the nodes of the value that is stored
    and 65537 for each step of the path.  An index that is not negative is let through exactly up to
    65536 beyond the length of the sequence, null being the empty one: the path then goes on in the
    element there, and the sequence becomes as long as the index demands, which is the length that
    is computed in words; beyond that the assignment fails. -/
theorem assign_growth :
    (∀ v path x v', assign v path x = .ok v' →
      v'.nodeCount ≤ v.nodeCount + x.nodeCount + path.length * 65537) ∧
    ∀ (i : Int64) (n : UInt64) (v : Value) (items : List Value), 0 ≤ i →
      items.length = n.toNat → v.orEmptyFor (.index i.toInt) = sequence items →
      (∀ x, (∃ v', v.assign [.index i.toInt] x = .ok v') ↔ i.toInt ≤ n.toNat + 65536) ∧
      (i.toInt ≤ n.toNat + 65536 →
        (Word.lengthAfter? i n).map UInt64.toNat = some (max n.toNat (i.toInt.toNat + 1)) ∧
        ∃ grown : Value → List Value, (∀ c, (grown c).length = max n.toNat (i.toInt.toNat + 1)) ∧
          ∀ path x, v.assign (.index i.toInt :: path) x =
            (((items[i.toInt.toNat]?).getD null).assign path x).map fun c =>
              sequence (grown c)) ∧
      (n.toNat + 65536 < i.toInt →
        Word.lengthAfter? i n = none ∧
        ∀ path x, v.assign (.index i.toInt :: path) x =
          .error (.beyondPadding (.index i.toInt))) := by
  refine ⟨fun v path x v' h => nodeCount_assign_le h, ?_⟩
  intro i n v items hi hn hv
  have hmax : maxPadding = 65536 := rfl
  have hnonneg := Word.nonneg_iff.1 hi
  have hopen := fun hnear => assign_index hnonneg hv (by rw [hn, hmax]; exact hnear)
  have hclosed := fun hfar => assign_index_beyond hnonneg hv (by rw [hn, hmax]; exact hfar)
  -- the position of the index is the index itself
  have hword := Word.map_toNat_lengthAfter? i n
  rw [show resolveIndex? i.toInt n.toNat = some i.toInt.toNat from if_pos hnonneg,
    Option.bind_some] at hword
  refine ⟨?_, ?_, ?_⟩
  · intro x
    constructor
    · rintro ⟨v', h⟩
      by_contra hfar
      rw [hclosed (Int.not_le.1 hfar)] at h
      cases h
    · intro hnear
      exact ⟨_, hopen hnear [] x⟩
  · intro hnear
    rw [if_neg (by omega)] at hword
    refine ⟨hword, fun c => (padTo items i.toInt.toNat).set i.toInt.toNat c, ?_, hopen hnear⟩
    intro c
    rw [List.length_set, length_padTo, hn]
  · intro hfar
    rw [if_pos (by omega)] at hword
    exact ⟨Option.map_eq_none_iff.1 hword, hclosed hfar⟩

/-- A path that makes a mapping out of a null of the padding, and null at the last index that is let
    through and at the next one. -/
theorem assign_growth_padded :
    let v := mapping [("a", sequence [null])]
    let v' := mapping [("a", sequence [null, null, mapping [("b", boolean true)]])]
    let path := [Step.field "a", .index 2, .field "b"]
    (v.assign path (boolean true) = .ok v' ∧ v'.nodeCount = 6 ∧
      v'.nodeCount ≤ v.nodeCount + (boolean true).nodeCount + path.length * 65537) ∧
    (0 ≤ (65536 : Int64) ∧ ([] : List Value).length = (0 : UInt64).toNat ∧
      null.orEmptyFor (.index 65536) = sequence [] ∧
      (∃ v', null.assign [.index 65536] (boolean true) = .ok v') ∧
      (Word.lengthAfter? 65536 0).map UInt64.toNat = some 65537) ∧
    (0 ≤ (65537 : Int64) ∧ null.orEmptyFor (.index 65537) = sequence [] ∧
      null.assign [.index 65537] (boolean true) = .error (.beyondPadding (.index 65537))) := by
  intro v v' path
  have hwrite : v.assign path (boolean true) = .ok v' := rfl
  have hlast : 0 ≤ (65536 : Int64) := by decide
  have hnext : 0 ≤ (65537 : Int64) := by decide
  have hempty : ([] : List Value).length = (0 : UInt64).toNat := rfl
  have hnull : ∀ i : Int, null.orEmptyFor (.index i) = sequence [] := fun i => rfl
  have last := assign_growth.2 65536 0 null [] hlast hempty (hnull _)
  have next := assign_growth.2 65537 0 null [] hnext hempty (hnull _)
  refine ⟨⟨hwrite, rfl, assign_growth.1 v path _ v' hwrite⟩,
    ⟨hlast, hempty, hnull _, (last.1 _).2 (by decide), ?_⟩, hnext, hnull _, ?_⟩
  · exact (last.2.1 (by decide)).1
  · exact (next.2.2 (by decide)).2 [] _

end Value

end BlockQuery

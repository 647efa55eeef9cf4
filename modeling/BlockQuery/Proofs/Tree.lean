/-
  Trees, node by node.

  `Value.induct` is induction over trees.  A property holds `Throughout` a tree when all its nodes
  have it; distinct keys and conditions on the strings and the keys of a tree are stated that way.
  Equality of collections is equality of their parts: place by place in sequences, and, where keys
  are distinct, entry by entry in mappings with the same keys.

  The values are a nested inductive type, with lists of values and of entries inside, and the
  functions on them come in three: on values, on elements and on entries.  So for each function the
  lemmas here say what its companions on lists are, as a statement about all elements
  (`mem_itemDescendants`, `sameItems_iff`), and after that only `Value.induct` is used.
-/
import BlockQuery.Decimal.Text
import BlockQuery.Proofs.Entries

namespace BlockQuery

/-- A decimal without the sign of its zero has the same value. -/
theorem Decimal.sameValue_unsignZero (d : Decimal) : d.unsignZero.sameValue d = true := by
  have hsigned : d.unsignZero.signed = d.signed := by
    simp only [signed, unsignZero, isZero]
    by_cases h : d.mantissa = 0
    · simp [h]
    · simp [h]
  rw [sameValue, hsigned]
  exact beq_self_eq_true _

namespace Value

/-! ## Induction

  The values are in lists and in entries, which structural induction over values alone does not
  reach.  So the induction is on the size, once and here, and what is left to others is a hypothesis
  about all parts. -/

/-- Induction over trees: what holds of a collection when it holds of its parts, and of all
    scalars, holds of every value. -/
@[elab_as_elim]
theorem induct {motive : Value → Prop} (null : motive null) (boolean : ∀ b, motive (boolean b))
    (number : ∀ n, motive (number n)) (string : ∀ s, motive (string s))
    (sequence : ∀ items, (∀ v ∈ items, motive v) → motive (sequence items))
    (mapping : ∀ es, (∀ e ∈ es, motive e.2) → motive (mapping es)) : ∀ v, motive v
  | .null => null
  | .boolean b => boolean b
  | .number n => number n
  | .string s => string s
  | .sequence items =>
      sequence items fun v _ => induct null boolean number string sequence mapping v
  | .mapping es =>
      mapping es fun e _ => induct null boolean number string sequence mapping e.2
termination_by v => sizeOf v
decreasing_by
  · have := List.sizeOf_lt_of_mem ‹v ∈ items›
    simp only [Value.sequence.sizeOf_spec]
    omega
  · have hmem := List.sizeOf_lt_of_mem ‹e ∈ es›
    obtain ⟨k, v⟩ := e
    simp only [Value.mapping.sizeOf_spec, Prod.mk.sizeOf_spec] at hmem ⊢
    omega

/-! ## Nodes

  A property of all nodes is described by its value on a scalar, on a sequence and on a mapping.
  For distinct keys, for strings, for keys and for numbers these are stated one by one, so that a
  proof by induction rewrites its hypothesis into one about the parts. -/

/-- The nodes below a sequence are those of its elements. -/
theorem mem_itemDescendants {w : Value} {items : List Value} :
    w ∈ itemDescendants items ↔ ∃ v ∈ items, w ∈ v.descendants := by
  induction items with
  | nil => simp [itemDescendants]
  | cons v items ih => simp [itemDescendants, ih]

/-- The nodes below a mapping are those of its values. -/
theorem mem_entryDescendants {w : Value} {es : Entries} :
    w ∈ entryDescendants es ↔ ∃ e ∈ es, w ∈ e.2.descendants := by
  induction es with
  | nil => simp [entryDescendants]
  | cons e es ih => simp [entryDescendants, ih]

/-- Whether all nodes of a tree, the tree itself included, have a property.  The nodes are those of
    the walk of the tree, which is a list, so the property can be decided. -/
def Throughout (P : Value → Prop) (v : Value) : Prop :=
  ∀ w ∈ v.descendants, P w

/-- What holds throughout a sequence holds of it and throughout its elements. -/
theorem throughout_sequence {P : Value → Prop} {items : List Value} :
    (sequence items).Throughout P ↔ P (sequence items) ∧ ∀ v ∈ items, v.Throughout P := by
  simp only [Throughout, descendants, List.forall_mem_cons, mem_itemDescendants]
  constructor
  · rintro ⟨hself, hitems⟩
    exact ⟨hself, fun v hv w hw => hitems w ⟨v, hv, hw⟩⟩
  · rintro ⟨hself, hitems⟩
    exact ⟨hself, fun w ⟨v, hv, hw⟩ => hitems v hv w hw⟩

/-- What holds throughout a mapping holds of it and throughout its values. -/
theorem throughout_mapping {P : Value → Prop} {es : Entries} :
    (mapping es).Throughout P ↔ P (mapping es) ∧ ∀ e ∈ es, e.2.Throughout P := by
  simp only [Throughout, descendants, List.forall_mem_cons, mem_entryDescendants]
  constructor
  · rintro ⟨hself, hentries⟩
    exact ⟨hself, fun e he w hw => hentries w ⟨e, he, hw⟩⟩
  · rintro ⟨hself, hentries⟩
    exact ⟨hself, fun w ⟨e, he, hw⟩ => hentries e he w hw⟩

/-- A sequence that takes one line is empty. -/
theorem eq_nil_of_isBlock_sequence {items : List Value} (h : (sequence items).isBlock = false) :
    items = [] := by
  simpa [isBlock] using h

/-- A mapping that takes one line is empty. -/
theorem eq_nil_of_isBlock_mapping {es : Entries} (h : (mapping es).isBlock = false) : es = [] := by
  simpa [isBlock] using h

/-- A value that takes one line is its own only node, be it a scalar or an empty collection. -/
theorem throughout_of_isBlock {P : Value → Prop} {v : Value} (h : v.isBlock = false) :
    v.Throughout P ↔ P v := by
  have hnodes : v.descendants = [v] := by
    cases v with
    | sequence items =>
      obtain rfl := eq_nil_of_isBlock_sequence h
      rfl
    | mapping es =>
      obtain rfl := eq_nil_of_isBlock_mapping h
      rfl
    | _ => rfl
  rw [Throughout, hnodes, List.forall_mem_singleton]

/-- Whether the keys of every mapping in a tree are distinct.  Entries are lists, so this is not so
    by their type. -/
def DistinctKeys (v : Value) : Prop :=
  v.Throughout fun w => ∀ es, w = mapping es → (Entries.keys es).Nodup

instance : DecidablePred DistinctKeys :=
  have node : DecidablePred fun w => ∀ es, w = mapping es → (Entries.keys es).Nodup
    | mapping es => decidable_of_iff (Entries.keys es).Nodup (by simp)
    | null => isTrue nofun
    | boolean _ => isTrue nofun
    | number _ => isTrue nofun
    | string _ => isTrue nofun
    | sequence _ => isTrue nofun
  fun v => inferInstanceAs (Decidable (∀ w ∈ v.descendants, ∀ es, w = mapping es → _))

/-- Whether every string in a tree, keys apart, has a property. -/
def EveryString (P : String → Prop) (v : Value) : Prop :=
  v.Throughout fun w => ∀ s, w = string s → P s

/-- Whether every key of every mapping in a tree has a property. -/
def EveryKey (P : String → Prop) (v : Value) : Prop :=
  v.Throughout fun w => ∀ es, w = mapping es → ∀ k ∈ Entries.keys es, P k

/-- Whether every number in a tree has a property. -/
def EveryNumber (P : Decimal → Prop) (v : Value) : Prop :=
  v.Throughout fun w => ∀ n, w = number n → P n

instance {P : Decimal → Prop} [DecidablePred P] : DecidablePred (EveryNumber P) :=
  have node : DecidablePred fun w => ∀ n, w = number n → P n
    | number n => decidable_of_iff (P n) (by simp)
    | null => isTrue nofun
    | boolean _ => isTrue nofun
    | string _ => isTrue nofun
    | sequence _ => isTrue nofun
    | mapping _ => isTrue nofun
  fun v => inferInstanceAs (Decidable (∀ w ∈ v.descendants, ∀ n, w = number n → P n))

/-- A sequence has no keys of its own. -/
theorem distinctKeys_sequence {items : List Value} :
    (sequence items).DistinctKeys ↔ ∀ v ∈ items, v.DistinctKeys := by
  simp [DistinctKeys, throughout_sequence]

/-- The keys of a mapping are distinct, and those inside its values. -/
theorem distinctKeys_mapping {es : Entries} :
    (mapping es).DistinctKeys ↔ (Entries.keys es).Nodup ∧ ∀ e ∈ es, e.2.DistinctKeys := by
  simp [DistinctKeys, throughout_mapping]

/-- A string is the only string in itself. -/
theorem everyString_string {P : String → Prop} {s : String} : (string s).EveryString P ↔ P s := by
  rw [EveryString, throughout_of_isBlock rfl]
  simp

/-- A value that takes one line has no keys. -/
theorem everyKey_of_isBlock (P : String → Prop) {v : Value} (h : v.isBlock = false) :
    v.EveryKey P := by
  rw [EveryKey, throughout_of_isBlock h]
  rintro es rfl
  obtain rfl := eq_nil_of_isBlock_mapping h
  simp [Entries.keys]

/-- So the keys of such a value are distinct. -/
theorem distinctKeys_of_isBlock {v : Value} (h : v.isBlock = false) : v.DistinctKeys := by
  rw [DistinctKeys, throughout_of_isBlock h]
  rintro es rfl
  obtain rfl := eq_nil_of_isBlock_mapping h
  exact List.nodup_nil

/-- The strings of a sequence are those of its elements. -/
theorem everyString_sequence {P : String → Prop} {items : List Value} :
    (sequence items).EveryString P ↔ ∀ v ∈ items, v.EveryString P := by
  simp [EveryString, throughout_sequence]

/-- Those of a mapping are those of its values; its keys are none of them. -/
theorem everyString_mapping {P : String → Prop} {es : Entries} :
    (mapping es).EveryString P ↔ ∀ e ∈ es, e.2.EveryString P := by
  simp [EveryString, throughout_mapping]

/-- The keys in a sequence are those in its elements. -/
theorem everyKey_sequence {P : String → Prop} {items : List Value} :
    (sequence items).EveryKey P ↔ ∀ v ∈ items, v.EveryKey P := by
  simp [EveryKey, throughout_sequence]

/-- Those in a mapping are its own and those in its values. -/
theorem everyKey_mapping {P : String → Prop} {es : Entries} :
    (mapping es).EveryKey P ↔ ∀ e ∈ es, P e.1 ∧ e.2.EveryKey P := by
  simp only [EveryKey, throughout_mapping, mapping.injEq, forall_eq', Entries.keys,
    List.forall_mem_map, forall_and]

/-- A number is the only number in itself. -/
theorem everyNumber_number {P : Decimal → Prop} {n : Decimal} :
    (number n).EveryNumber P ↔ P n := by
  rw [EveryNumber, throughout_of_isBlock rfl]
  simp

/-- The numbers of a sequence are those of its elements. -/
theorem everyNumber_sequence {P : Decimal → Prop} {items : List Value} :
    (sequence items).EveryNumber P ↔ ∀ v ∈ items, v.EveryNumber P := by
  simp [EveryNumber, throughout_sequence]

/-- Those of a mapping are those of its values. -/
theorem everyNumber_mapping {P : Decimal → Prop} {es : Entries} :
    (mapping es).EveryNumber P ↔ ∀ e ∈ es, e.2.EveryNumber P := by
  simp [EveryNumber, throughout_mapping]

/-- A weaker property of strings. -/
theorem EveryString.mono {P Q : String → Prop} {v : Value} (h : v.EveryString P)
    (hPQ : ∀ s, P s → Q s) : v.EveryString Q :=
  fun w hw s hs => hPQ s (h w hw s hs)

/-- A weaker property of keys. -/
theorem EveryKey.mono {P Q : String → Prop} {v : Value} (h : v.EveryKey P)
    (hPQ : ∀ k, P k → Q k) : v.EveryKey Q :=
  fun w hw es hes k hk => hPQ k (h w hw es hes k hk)

/-! ## Equality, part by part

  The equality of the program goes through two lists at once, or looks each entry of one mapping up
  in the other.  For sequences this is equality at each place.  For mappings it is so only where
  both have their keys in one order, and that is the case needed later. -/

/-- Sequences are equal when their elements are, place by place. -/
theorem sameItems_iff {as bs : List Value} :
    sameItems as bs = true ↔ List.Forall₂ (fun a b => same a b = true) as bs := by
  induction as generalizing bs with
  | nil => cases bs <;> simp [sameItems]
  | cons a as ih => cases bs <;> simp [sameItems, ih]

/-- A mapping is found in another one when each of its keys is there, with an equal value.  The
    other may have more; that it has not is asked by its length. -/
theorem foundIn_iff {es other : Entries} :
    foundIn es other = true ↔
      ∀ e ∈ es, ∃ w, other.lookup e.1 = some w ∧ same e.2 w = true := by
  induction es with
  | nil => simp [foundIn]
  | cons e es ih =>
    obtain ⟨k, v⟩ := e
    simp only [foundIn, Bool.and_eq_true, ih, List.forall_mem_cons]
    cases other.lookup k <;> simp

/-- Equal values take lines of their own together. -/
theorem isBlock_eq_of_same {v w : Value} (h : same v w = true) : v.isBlock = w.isBlock := by
  cases v with
  | sequence items =>
    cases w with
    | sequence others =>
      have hlength := (sameItems_iff.1 h).length_eq
      cases items <;> cases others <;> simp_all [isBlock]
    | _ => cases h
  | mapping es =>
    cases w with
    | mapping others =>
      have hlength : es.length = others.length := by
        simp only [same, Bool.and_eq_true, beq_iff_eq] at h
        exact h.1
      cases es <;> cases others <;> simp_all [isBlock]
    | _ => cases h
  | _ => cases w <;> first | rfl | cases h

/-- Whether entries have the same keys in the same order and equal values. -/
def SameEntries (as bs : Entries) : Prop :=
  List.Forall₂ (fun a b => a.1 = b.1 ∧ same a.2 b.2 = true) as bs

/-- Mappings with the same distinct keys are equal when their values are, key by key.  A look-up
    then finds the entry that stands at the same place. -/
theorem same_mapping_iff {as bs : Entries} (hkeys : Entries.keys as = Entries.keys bs)
    (hnodup : (Entries.keys bs).Nodup) :
    same (mapping as) (mapping bs) = true ↔ SameEntries as bs := by
  have hlength : as.length = bs.length := by
    simpa [Entries.keys] using congrArg List.length hkeys
  simp only [same, Bool.and_eq_true, beq_iff_eq, hlength, true_and, foundIn_iff, SameEntries]
  -- where keys are distinct, looking up the key at a place gives the value at that place
  constructor
  · intro h
    rw [List.forall₂_iff_get]
    refine ⟨hlength, fun i ha hb => ?_⟩
    have hkey : (as.get ⟨i, ha⟩).1 = (bs.get ⟨i, hb⟩).1 := by
      have := congrArg (fun ks => ks[i]?) hkeys
      simpa [Entries.keys, ha, hb] using this
    obtain ⟨w, hw, hsame⟩ := h _ (List.get_mem as ⟨i, ha⟩)
    have hentry := Entries.lookup_eq_some_of_mem hnodup (List.get_mem bs ⟨i, hb⟩)
    rw [hkey, hentry] at hw
    obtain rfl := Option.some.inj hw
    exact ⟨hkey, hsame⟩
  · intro h a ha
    obtain ⟨i, rfl⟩ := List.get_of_mem ha
    have hb : i.1 < bs.length := hlength ▸ i.2
    obtain ⟨hkey, hsame⟩ := (List.forall₂_iff_get.1 h).2 i.1 i.2 hb
    refine ⟨(bs.get ⟨i, hb⟩).2, ?_, hsame⟩
    exact Entries.lookup_eq_some_of_mem hnodup (hkey ▸ List.get_mem bs ⟨i, hb⟩)

/-! ## Equality in order

  What a text gives back has its entries in the order of the text.  So there is a stronger equality,
  in which the order counts, and which implies the one of the program. -/

mutual
/-- Equality that looks at the order of entries too. -/
def sameInOrder : Value → Value → Bool
  | null, null => true
  | boolean a, boolean b => a == b
  | number a, number b => a.sameValue b
  | string a, string b => a == b
  | sequence a, sequence b => itemsInOrder a b
  | mapping a, mapping b => entriesInOrder a b
  | _, _ => false
termination_by structural v => v

/-- The same for elements, place by place. -/
def itemsInOrder : List Value → List Value → Bool
  | [], [] => true
  | a :: as, b :: bs => sameInOrder a b && itemsInOrder as bs
  | _, _ => false
termination_by structural items => items

/-- Whether entries have the same keys in the same order, with equal values in order. -/
def entriesInOrder : List (String × Value) → List (String × Value) → Bool
  | [], [] => true
  | (k, v) :: as, (l, w) :: bs => k == l && sameInOrder v w && entriesInOrder as bs
  | _, _ => false
termination_by structural es => es
end

/-- Elements are compared place by place. -/
theorem itemsInOrder_iff {as bs : List Value} :
    itemsInOrder as bs = true ↔ List.Forall₂ (fun a b => sameInOrder a b = true) as bs := by
  induction as generalizing bs with
  | nil => cases bs <;> simp [itemsInOrder]
  | cons a as ih => cases bs <;> simp [itemsInOrder, ih]

/-- So are entries, with their keys. -/
theorem entriesInOrder_iff {as bs : Entries} :
    entriesInOrder as bs = true ↔
      List.Forall₂ (fun a b => a.1 = b.1 ∧ sameInOrder a.2 b.2 = true) as bs := by
  induction as generalizing bs with
  | nil => cases bs <;> simp [entriesInOrder]
  | cons a as ih => cases bs <;> simp [entriesInOrder, ih]

/-- Mappings that are equal in order have the same keys in the same order. -/
theorem keys_eq_of_entriesInOrder {as bs : Entries} (h : entriesInOrder as bs = true) :
    Entries.keys as = Entries.keys bs := by
  rw [entriesInOrder_iff] at h
  induction h with
  | nil => rfl
  | cons hab _ ih => exact congrArg₂ List.cons hab.1 ih

/-- Values that are equal in order are equal.  By induction on the value; for mappings the keys
    agree, so the look-ups find what stands at the same place. -/
theorem same_of_sameInOrder {v w : Value} (hkeys : v.DistinctKeys) (h : sameInOrder w v = true) :
    same w v = true := by
  induction v using induct generalizing w with
  | sequence items ih =>
    cases w with
    | sequence others =>
      rw [distinctKeys_sequence] at hkeys
      rw [sameInOrder, itemsInOrder_iff] at h
      rw [same, sameItems_iff]
      induction h with
      | nil => exact .nil
      | cons hab _ ihitems =>
        rw [List.forall_mem_cons] at ih hkeys
        exact .cons (ih.1 hkeys.1 hab) (ihitems ih.2 hkeys.2)
    | _ => cases h
  | mapping es ih =>
    cases w with
    | mapping others =>
      rw [distinctKeys_mapping] at hkeys
      rw [sameInOrder] at h
      rw [same_mapping_iff (keys_eq_of_entriesInOrder h) hkeys.1]
      rw [entriesInOrder_iff] at h
      replace hkeys := hkeys.2
      induction h with
      | nil => exact .nil
      | cons hab _ ihentries =>
        rw [List.forall_mem_cons] at ih hkeys
        exact .cons ⟨hab.1, ih.1 hkeys.1 hab.2⟩ (ihentries ih.2 hkeys.2)
    | _ => cases h
  | _ => cases w <;> exact h

/-! ## Zeros without a sign

  The writer of blocks writes a zero without its sign, and that is the one thing that is not read
  back as it was.  All numbers keep their values. -/

mutual
/-- The value with every zero in it unsigned. -/
def unsignZeros : Value → Value
  | null => null
  | boolean b => boolean b
  | number n => number n.unsignZero
  | string s => string s
  | sequence items => sequence (unsignItems items)
  | mapping es => mapping (unsignEntries es)
termination_by structural v => v

/-- The same for elements. -/
def unsignItems : List Value → List Value
  | [] => []
  | v :: vs => unsignZeros v :: unsignItems vs
termination_by structural items => items

/-- The same for entries, whose keys stay. -/
def unsignEntries : Entries → Entries
  | [] => []
  | (k, v) :: es => (k, unsignZeros v) :: unsignEntries es
termination_by structural es => es
end

/-- Keys stay as they are. -/
theorem keys_unsignEntries (es : Entries) :
    Entries.keys (unsignEntries es) = Entries.keys es := by
  induction es with
  | nil => rfl
  | cons e es ih => simpa [unsignEntries, Entries.keys] using ih

/-- Unsigning zeros leaves an equal value, as zero has one value with either sign and nothing else
    changes. -/
theorem same_unsignZeros {v : Value} (h : v.DistinctKeys) : v.unsignZeros.same v = true := by
  induction v using induct with
  | null => rfl
  | boolean b => exact beq_self_eq_true b
  | number n => exact n.sameValue_unsignZero
  | string s => exact beq_self_eq_true s
  | sequence items ih =>
    rw [unsignZeros, same, sameItems_iff]
    rw [distinctKeys_sequence] at h
    induction items with
    | nil => exact .nil
    | cons v items ihitems =>
      rw [List.forall_mem_cons] at ih h
      exact .cons (ih.1 h.1) (ihitems ih.2 h.2)
  | mapping es ih =>
    rw [distinctKeys_mapping] at h
    rw [unsignZeros, same_mapping_iff (keys_unsignEntries es) h.1]
    replace h := h.2
    induction es with
    | nil => exact .nil
    | cons e es ihentries =>
      rw [List.forall_mem_cons] at ih h
      exact .cons ⟨rfl, ih.1 h.1⟩ (ihentries ih.2 h.2)

end Value

end BlockQuery

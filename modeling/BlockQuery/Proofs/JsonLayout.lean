/-
  JSON text of a value, whatever blanks stand in it.

  `JsonLayout` holds of the texts that write a value out as JSON with any blanks between its parts.
  Each of them is read as one tree, `Value.tree`, which the value alone decides
  (`JsonLayout.readsBack`); and the value of that tree is the value again, up to the form of its
  numbers (`Value.exists_toValue_tree`).  The reader skips the blanks in front of every mark and
  every value, so all that counts of a text is what it is without blanks in front.

  The relation has one rule for each kind of text and one that puts blanks in front, and it comes in
  three: for values, and for what stands behind an element and behind an entry.  Everything else
  follows these rules.  What a text is read as is stated for any text behind it (`ReadsBack`), with
  a depth that is left for the collections inside, because that is what the reader hands on.
-/
import BlockQuery.Proofs.JsonTokens

namespace BlockQuery

open Text (quote escape)

namespace Value

mutual
/-- How many collections stand inside each other at most, empty ones included. -/
def nesting : Value → Nat
  | null => 0
  | boolean _ => 0
  | number _ => 0
  | string _ => 0
  | sequence items => itemNesting items + 1
  | mapping es => entryNesting es + 1
termination_by structural v => v

/-- The deepest of some elements. -/
def itemNesting : List Value → Nat
  | [] => 0
  | v :: vs => max (nesting v) (itemNesting vs)
termination_by structural items => items

/-- The deepest of the values of some entries. -/
def entryNesting : List (String × Value) → Nat
  | [] => 0
  | (_, v) :: es => max (nesting v) (entryNesting es)
termination_by structural es => es
end

/-! ## Trees

  The reader of JSON makes a tree, and the tree is turned into a value in a second pass.  This
  section is about the second pass alone. -/

mutual
/-- The tree that JSON text of a value is read as, if all its numbers can be read.  A number is what
    its literal is read as, which is an integer or a floating point value. -/
def tree : Value → Json
  | null => .null
  | boolean b => .boolean b
  | number d => .number (d.plain.literal.number?.getD (.integer 0))
  | string s => .string s
  | sequence items => .array (itemTrees items)
  | mapping es => .object (entryTrees es)
termination_by structural v => v

/-- The trees of some elements. -/
def itemTrees : List Value → List Json
  | [] => []
  | v :: vs => tree v :: itemTrees vs
termination_by structural items => items

/-- The members of some entries. -/
def entryTrees : List (String × Value) → List (String × Json)
  | [] => []
  | (k, v) :: es => (k, tree v) :: entryTrees es
termination_by structural es => es
end

/-- The tree of a mapping has its keys. -/
theorem keys_entryTrees (es : Entries) : Entries.keys (entryTrees es) = Entries.keys es := by
  induction es with
  | nil => rfl
  | cons e es ih => exact congrArg (e.1 :: ·) ih

/-- Elements are turned into values one by one. -/
theorem exists_itemValues {items : List Value}
    (h : ∀ v ∈ items, ∃ w, v.tree.toValue = .ok w ∧ w.sameInOrder v = true) :
    ∃ ws, Json.itemValues (itemTrees items) = .ok ws ∧ itemsInOrder ws items = true := by
  induction items with
  | nil => exact ⟨[], rfl, rfl⟩
  | cons v vs ih =>
    rw [List.forall_mem_cons] at h
    obtain ⟨⟨w, hw, hsame⟩, hvs⟩ := h
    obtain ⟨ws, hws, hrest⟩ := ih hvs
    refine ⟨w :: ws, ?_, by rw [itemsInOrder, hsame, hrest]; rfl⟩
    rw [itemTrees, Json.itemValues, hw, hws]
    rfl

/-- So are entries, with their keys left as they are. -/
theorem exists_memberValues {es : Entries}
    (h : ∀ e ∈ es, ∃ w, e.2.tree.toValue = .ok w ∧ w.sameInOrder e.2 = true) :
    ∃ ws, Json.memberValues (entryTrees es) = .ok ws ∧ entriesInOrder ws es = true := by
  induction es with
  | nil => exact ⟨[], rfl, rfl⟩
  | cons e es ih =>
    obtain ⟨k, v⟩ := e
    rw [List.forall_mem_cons] at h
    obtain ⟨⟨w, hw, hsame⟩, hes⟩ := h
    obtain ⟨ws, hws, hrest⟩ := ih hes
    refine ⟨(k, w) :: ws, ?_, by rw [entriesInOrder, hsame, hrest, beq_self_eq_true]; rfl⟩
    rw [entryTrees, Json.memberValues, hw, hws]
    rfl

/-- The tree of a value is the value again, up to the form of its numbers.  By induction on the
    value: a number comes back if it fits a word, and the members of a mapping have distinct keys,
    so none is lost when they are gathered. -/
theorem exists_toValue_tree {v : Value} (hkeys : v.DistinctKeys)
    (hnumbers : v.EveryNumber Decimal.FitsWord) :
    ∃ w, v.tree.toValue = .ok w ∧ w.sameInOrder v = true := by
  induction v using induct with
  | null => exact ⟨_, rfl, rfl⟩
  | boolean b => exact ⟨_, rfl, beq_self_eq_true b⟩
  | number d =>
    obtain ⟨n, e, hn, he, hsame⟩ := (everyNumber_number.1 hnumbers).exists_number?
    refine ⟨number e, ?_, hsame⟩
    rw [tree, hn, Option.getD_some, Json.toValue, he]
  | string s => exact ⟨_, rfl, beq_self_eq_true s⟩
  | sequence items ih =>
    rw [distinctKeys_sequence] at hkeys
    rw [everyNumber_sequence] at hnumbers
    obtain ⟨ws, hws, hsame⟩ := exists_itemValues fun v hv => ih v hv (hkeys v hv) (hnumbers v hv)
    exact ⟨sequence ws, by rw [tree, Json.toValue, hws]; rfl, hsame⟩
  | mapping es ih =>
    rw [distinctKeys_mapping] at hkeys
    rw [everyNumber_mapping] at hnumbers
    obtain ⟨ws, hws, hsame⟩ :=
      exists_memberValues fun e he => ih e he (hkeys.2 e he) (hnumbers e he)
    -- the keys are those of the mapping, so no entry is put in the place of another
    have hpairs : Entries.ofPairs ws = ws :=
      Entries.ofPairs_of_nodup (keys_eq_of_entriesInOrder hsame ▸ hkeys.1)
    exact ⟨mapping ws, by rw [tree, Json.toValue, hws, Except.map, hpairs], hsame⟩

end Value

namespace Json

variable {cs ds inner mid more rest : List Char} {depth : Nat}

/-! ## Blanks in front

  Every function of the reader skips blanks first.  A text is therefore given by what is left of it
  then, and the laws here say what that is for the texts that a layout is made of. -/

/-- Whether a text is only blanks. -/
def Blanks (gap : List Char) : Prop :=
  ∀ c ∈ gap, isBlank c = true

/-- Blanks in front of a text are skipped with those it starts with. -/
theorem skip_append {gap : List Char} (h : Blanks gap) (cs : List Char) :
    skip (gap ++ cs) = skip cs :=
  List.dropWhile_append_of_pos h

/-- What is behind a text is not skipped once something stands there. -/
theorem skip_append_of_cons {c : Char} (h : skip cs = c :: more) (rest : List Char) :
    skip (cs ++ rest) = c :: (more ++ rest) := by
  rw [skip, List.dropWhile_append, ← skip, h]
  rfl

/-- Nothing is skipped in front of a mark. -/
theorem skip_cons {c : Char} (h : isBlank c = false) (cs : List Char) : skip (c :: cs) = c :: cs :=
  skip_eq_self fun d hd => by rwa [← Option.some.inj hd]

/-- The first mark behind blanks. -/
theorem skip_mark {gap : List Char} {c : Char} (hgap : Blanks gap) (hc : isBlank c = false)
    (cs rest : List Char) : skip (gap ++ c :: cs ++ rest) = c :: (cs ++ rest) := by
  rw [List.append_assoc, skip_append hgap]
  exact skip_cons hc _

/-! ## Steps of the reader

  One lemma for each branch of the reader.  A branch is chosen by the first mark, so the hypotheses
  are about what is left when blanks are skipped (`skip ds`).  How collections go on is put into
  `ItemsEnd` and `MembersEnd`: they close, or there is a comma and more of them. -/

/-- A value that opens with no bracket is a scalar. -/
theorem takes_readValue?_scalar {j : Json} (hbracket : (skip ds).head? ≠ some '[')
    (hbrace : (skip ds).head? ≠ some '{') (h : Takes (readScalar? (skip ds)) j rest) :
    Takes (readValue? depth ds) j rest := by
  rw [readValue?, readMark?_eq_none_of_skip hbracket, readMark?_eq_none_of_skip hbrace]
  exact h.widen _

/-- A bracket that closes at once is an empty sequence. -/
theorem takes_readValue?_emptySequence (hds : skip ds = '[' :: inner)
    (hinner : skip inner = ']' :: rest) : Takes (readValue? (depth + 1) ds) (array []) rest := by
  obtain ⟨bracket, hbracket, -, rfl⟩ := takes_readMark?_of_skip hds
  obtain ⟨close, hclose, -, rfl⟩ := takes_readMark?_of_skip hinner
  rw [readValue?, hbracket]
  simp only [hclose]
  exact ⟨_, rfl, rfl, rfl⟩

/-- A bracket that does not close at once is followed by elements.  The depth that is left goes down
    by one inside of it. -/
theorem takes_readValue?_sequence {js : List Json} (hds : skip ds = '[' :: inner)
    (hinner : (skip inner).head? ≠ some ']') (h : Takes (readItems? depth inner) js rest) :
    Takes (readValue? (depth + 1) ds) (array js) rest := by
  obtain ⟨bracket, hbracket, -, rfl⟩ := takes_readMark?_of_skip hds
  rw [readValue?, hbracket]
  simp only [readMark?_eq_none_of_skip hinner]
  exact h.bind fun items hitems hrest => ⟨_, rfl, congrArg array hitems, hrest⟩

/-- A brace that closes at once is an empty mapping. -/
theorem takes_readValue?_emptyMapping (hds : skip ds = '{' :: inner)
    (hinner : skip inner = '}' :: rest) : Takes (readValue? (depth + 1) ds) (object []) rest := by
  have hbracket : readMark? '[' ds = none := readMark?_eq_none_of_skip (by rw [hds]; simp)
  obtain ⟨brace, hbrace, -, rfl⟩ := takes_readMark?_of_skip hds
  obtain ⟨close, hclose, -, rfl⟩ := takes_readMark?_of_skip hinner
  rw [readValue?, hbracket, hbrace]
  simp only [hclose]
  exact ⟨_, rfl, rfl, rfl⟩

/-- A brace that does not close at once is followed by members. -/
theorem takes_readValue?_mapping {ms : List (String × Json)} (hds : skip ds = '{' :: inner)
    (hinner : (skip inner).head? ≠ some '}') (h : Takes (readMembers? depth inner) ms rest) :
    Takes (readValue? (depth + 1) ds) (object (Entries.ofPairs ms)) rest := by
  have hbracket : readMark? '[' ds = none := readMark?_eq_none_of_skip (by rw [hds]; simp)
  obtain ⟨brace, hbrace, -, rfl⟩ := takes_readMark?_of_skip hds
  rw [readValue?, hbracket, hbrace]
  simp only [readMark?_eq_none_of_skip hinner]
  exact h.bind fun members hmembers hrest =>
    ⟨_, rfl, congrArg (fun ms => object (Entries.ofPairs ms)) hmembers, hrest⟩

/-- What stands behind an element: the closing bracket, or a comma and the other elements.  It is
    said of a text by what is read of it, with blanks in front or without. -/
def ItemsEnd (depth : Nat) (mid : List Char) (js : List Json) (rest : List Char) : Prop :=
  (skip mid = ']' :: rest ∧ js = []) ∨
    ∃ more, skip mid = ',' :: more ∧ Takes (readItems? depth more) js rest

/-- What stands behind a member: the closing brace, or a comma and the other members. -/
def MembersEnd (depth : Nat) (mid : List Char) (ms : List (String × Json)) (rest : List Char) :
    Prop :=
  (skip mid = '}' :: rest ∧ ms = []) ∨
    ∃ more, skip mid = ',' :: more ∧ Takes (readMembers? depth more) ms rest

/-- Elements are one element and what stands behind it. -/
theorem takes_readItems? {j : Json} {js : List Json} (h : Takes (readValue? depth ds) j mid)
    (hend : ItemsEnd depth mid js rest) : Takes (readItems? depth ds) (j :: js) rest := by
  rw [readItems?]
  refine h.bind fun item hitem hrest => ?_
  subst hitem hrest
  obtain ⟨hmid, rfl⟩ | ⟨more, hmid, hmore⟩ := hend
  · have hcomma : readMark? ',' item.rest = none := readMark?_eq_none_of_skip (by rw [hmid]; simp)
    obtain ⟨close, hclose, -, rfl⟩ := takes_readMark?_of_skip hmid
    rw [hcomma, hclose]
    exact ⟨_, rfl, rfl, rfl⟩
  · obtain ⟨comma, hcomma, -, rfl⟩ := takes_readMark?_of_skip hmid
    rw [hcomma]
    exact hmore.bind fun items hitems hrest => ⟨_, rfl, congrArg (item.value :: ·) hitems, hrest⟩

/-- A member is a string, a colon and a value.  Each of the three is given by what is read, and only
    the quote in front of the key is named. -/
theorem takes_readMembers? {inner keyed value key : List Char} {j : Json}
    {ms : List (String × Json)} (hds : skip ds = '"' :: inner)
    (hkey : Takes (readString? inner) key keyed) (hcolon : skip keyed = ':' :: value)
    (h : Takes (readValue? depth value) j mid) (hend : MembersEnd depth mid ms rest) :
    Takes (readMembers? depth ds) ((String.ofList key, j) :: ms) rest := by
  rw [readMembers?]
  refine (takes_readMark?_of_skip hds).bind fun quote _ hrest => ?_
  subst hrest
  refine hkey.bind fun string hstring hrest => ?_
  subst hstring hrest
  refine (takes_readMark?_of_skip hcolon).bind fun colon _ hrest => ?_
  subst hrest
  refine h.bind fun member hmember hrest => ?_
  subst hmember hrest
  obtain ⟨hmid, rfl⟩ | ⟨more, hmid, hmore⟩ := hend
  · have hcomma : readMark? ',' member.rest = none :=
      readMark?_eq_none_of_skip (by rw [hmid]; simp)
    obtain ⟨close, hclose, -, rfl⟩ := takes_readMark?_of_skip hmid
    rw [hcomma, hclose]
    exact ⟨_, rfl, rfl, rfl⟩
  · obtain ⟨comma, hcomma, -, rfl⟩ := takes_readMark?_of_skip hmid
    rw [hcomma]
    exact hmore.bind fun members hmembers hrest =>
      ⟨_, rfl, congrArg ((String.ofList string.value, member.value) :: ·) hmembers, hrest⟩

/-! ## Scalars

  A scalar has one text, and it is read by the reader of its kind.  Which reader that is, is decided
  by the first character, so each lemma rules out those that are tried before. -/

/-- A written string is a scalar. -/
theorem takes_readScalar?_quote (s : List Char) (hcs : cs = quote s ++ rest) :
    Takes (readScalar? cs) (string (String.ofList s)) rest := by
  have hquote : Takes (readMark? '"' cs) () (escape s ++ '"' :: rest) :=
    takes_readMark? (by decide) (by rw [hcs, quote, List.cons_append, List.append_assoc]; rfl)
  obtain ⟨mark, hmark, -, hrest⟩ := hquote
  rw [readScalar?, hmark]
  exact (takes_readString? s hrest).bind fun t ht hrest =>
    ⟨_, rfl, congrArg (fun s => string (String.ofList s)) ht, hrest⟩

/-- Letters and digits are no blanks and no marks. -/
theorem not_mark_of_isAlphanum {c : Char} (h : c.isAlphanum = true) :
    isBlank c = false ∧ c ∉ ['"', '[', ']', '{'] := by
  have hother : ∀ d : Char, d.isAlphanum = false → c ≠ d := by
    rintro d hd rfl
    rw [h] at hd
    cases hd
  constructor
  · simp only [isBlank, Bool.or_eq_false_iff, beq_eq_false_iff_ne]
    exact ⟨⟨⟨hother _ rfl, hother _ rfl⟩, hother _ rfl⟩, hother _ rfl⟩
  · simp only [List.mem_cons, List.not_mem_nil, or_false, not_or]
    exact ⟨hother _ rfl, hother _ rfl, hother _ rfl, hother _ rfl⟩

/-- A word is a scalar.  It must end where it is written, since letters behind it would make it
    another word. -/
theorem takes_readScalar?_word (letters : List Char) {j : Json} (hword : word? letters = some j)
    (hletters : ∀ c ∈ letters, c.isAlpha = true) (hrest : ClosesValue rest)
    (hcs : cs = letters ++ rest) : Takes (readScalar? cs) j rest := by
  obtain ⟨w, hread, hw⟩ := takes_readWord? hword hletters hrest hcs
  obtain ⟨c, more, rfl⟩ : ∃ c more, letters = c :: more := by
    cases letters with
    | nil => cases hword
    | cons c more => exact ⟨c, more, rfl⟩
  obtain ⟨hblank, hmark⟩ := not_mark_of_isAlphanum
    (Bool.or_eq_true_iff.2 (Or.inl (hletters c List.mem_cons_self)))
  have hquote : readMark? '"' cs = none := by
    refine readMark?_eq_none_of_skip ?_
    rw [hcs, List.cons_append, skip_cons hblank]
    rintro ⟨⟩
    exact hmark List.mem_cons_self
  rw [readScalar?, hquote]
  simp only [hread]
  exact ⟨w, rfl, hw⟩

/-- A number is a scalar: it is what is left when a text starts with no quote and no letter. -/
theorem takes_readScalar?_number (d : Decimal) {n : JsonNumber}
    (hn : d.plain.literal.number? = some n) (hrest : ClosesValue rest)
    (hcs : cs = d.chars ++ rest) : Takes (readScalar? cs) (number n) rest := by
  rw [← d.plain_chars] at hcs
  rw [readScalar?_plain d.plain hcs]
  exact ((readNumber?_plain d.plain hrest.endsLiteral hcs).1 n hn).map number

/-- Every scalar starts with a character that is no blank and no bracket. -/
theorem opens_scalar {v : Value} (hv : v.nesting = 0) :
    ∃ c cs, v.jsonChars = c :: cs ∧ isBlank c = false ∧ c ∉ ['[', ']', '{'] := by
  cases v with
  | null => exact ⟨'n', _, rfl, by decide⟩
  | boolean b =>
    cases b with
    | true => exact ⟨'t', _, rfl, by decide⟩
    | false => exact ⟨'f', _, rfl, by decide⟩
  | number d =>
    obtain ⟨c, cs, hc, hchars | hchars⟩ := d.chars_cases
    · obtain ⟨hblank, hmark⟩ := not_mark_of_isAlphanum (Bool.or_eq_true_iff.2 (Or.inr hc))
      exact ⟨c, cs, hchars, hblank, fun h => hmark (List.mem_cons_of_mem _ h)⟩
    · exact ⟨'-', _, hchars, by decide⟩
  | string s => exact ⟨'"', _, rfl, by decide⟩
  | sequence items => cases hv
  | mapping es => cases hv

/-! ## Layouts

  No rule puts blanks behind a value, since what follows it has its own in front.  So a text of a
  value ends where the value does, and texts can be put together. -/

/-- Whether a text writes a key out with its colon, with any blanks around the key. -/
inductive KeyLayout (k : String) : List Char → Prop
  | mk {front behind : List Char} (hfront : Blanks front) (hbehind : Blanks behind) :
      KeyLayout k (front ++ (quote k.toList ++ (behind ++ [':'])))

mutual
/-- Whether a text writes a value out, with any blanks in front of it and between its parts. -/
inductive JsonLayout : Value → List Char → Prop
  | scalar {v : Value} (hv : v.nesting = 0) : JsonLayout v v.jsonChars
  | blanks {v : Value} {gap cs : List Char} (hgap : Blanks gap) (h : JsonLayout v cs) :
      JsonLayout v (gap ++ cs)
  | emptySequence {gap : List Char} (hgap : Blanks gap) :
      JsonLayout (.sequence []) ('[' :: (gap ++ [']']))
  | sequence {v : Value} {vs : List Value} {cs tail : List Char} (h : JsonLayout v cs)
      (htail : ItemsLayout vs tail) : JsonLayout (.sequence (v :: vs)) ('[' :: (cs ++ tail))
  | emptyMapping {gap : List Char} (hgap : Blanks gap) :
      JsonLayout (.mapping []) ('{' :: (gap ++ ['}']))
  | mapping {k : String} {v : Value} {es : Entries} {key cs tail : List Char}
      (hkey : KeyLayout k key) (h : JsonLayout v cs) (htail : EntriesLayout es tail) :
      JsonLayout (.mapping ((k, v) :: es)) ('{' :: (key ++ (cs ++ tail)))

/-- Whether a text writes the elements out that stand behind another one, with the closing
    bracket. -/
inductive ItemsLayout : List Value → List Char → Prop
  | close {gap : List Char} (hgap : Blanks gap) : ItemsLayout [] (gap ++ [']'])
  | comma {v : Value} {vs : List Value} {gap cs tail : List Char} (hgap : Blanks gap)
      (h : JsonLayout v cs) (htail : ItemsLayout vs tail) :
      ItemsLayout (v :: vs) (gap ++ ',' :: (cs ++ tail))

/-- Whether a text writes the entries out that stand behind another one, with the closing brace. -/
inductive EntriesLayout : Entries → List Char → Prop
  | close {gap : List Char} (hgap : Blanks gap) : EntriesLayout [] (gap ++ ['}'])
  | comma {k : String} {v : Value} {es : Entries} {gap key cs tail : List Char}
      (hgap : Blanks gap) (hkey : KeyLayout k key) (h : JsonLayout v cs)
      (htail : EntriesLayout es tail) :
      EntriesLayout ((k, v) :: es) (gap ++ ',' :: (key ++ (cs ++ tail)))
end

/-- A text of a value starts, blanks apart, with a bracket where the value is a collection, and
    never with a closing one.  So the reader does not take a first element for the end of its
    sequence. -/
theorem JsonLayout.opens : ∀ {v : Value} {cs : List Char}, JsonLayout v cs →
    ∃ c ds, skip cs = c :: ds ∧ c ≠ ']' ∧ (v.nesting ≠ 0 → c = '[' ∨ c = '{')
  | _, _, .scalar hv => by
    obtain ⟨c, ds, hchars, hblank, hmark⟩ := opens_scalar hv
    refine ⟨c, ds, by rw [hchars, skip_cons hblank], ?_, fun h => absurd hv h⟩
    rintro rfl
    exact hmark (by decide)
  | _, _, .blanks hgap h => by
    rw [skip_append hgap]
    exact h.opens
  | _, _, .emptySequence _ => ⟨'[', _, skip_cons rfl _, by decide, fun _ => Or.inl rfl⟩
  | _, _, .sequence _ _ => ⟨'[', _, skip_cons rfl _, by decide, fun _ => Or.inl rfl⟩
  | _, _, .emptyMapping _ => ⟨'{', _, skip_cons rfl _, by decide, fun _ => Or.inr rfl⟩
  | _, _, .mapping _ _ _ => ⟨'{', _, skip_cons rfl _, by decide, fun _ => Or.inr rfl⟩

/-! ## Reading back

  What is proved of a text of each kind.  The text behind it must close the value: a digit behind a
  number would be read with it (`ClosesValue`). -/

/-- Whether a text in front of what closes a value is read as the tree of a value.  The depth that
    is left must be enough for the nesting of the value, and what the reader is given agrees with
    the text when blanks are skipped. -/
def ReadsBack (v : Value) (cs : List Char) : Prop :=
  ∀ depth rest ds, v.nesting ≤ depth → ClosesValue rest → skip ds = skip (cs ++ rest) →
    Takes (readValue? depth ds) v.tree rest

/-- Whether a text is read as the trees of the elements behind another one.  It must also close that
    one, whatever it is. -/
def ItemsReadBack (vs : List Value) (tail : List Char) : Prop :=
  (∀ rest, ClosesValue (tail ++ rest)) ∧
    ∀ depth rest, Value.itemNesting vs ≤ depth →
      ItemsEnd depth (tail ++ rest) (Value.itemTrees vs) rest

/-- Whether a text is read as the trees of the entries behind another one. -/
def EntriesReadBack (es : Entries) (tail : List Char) : Prop :=
  (∀ rest, ClosesValue (tail ++ rest)) ∧
    ∀ depth rest, Value.entryNesting es ≤ depth →
      MembersEnd depth (tail ++ rest) (Value.entryTrees es) rest

variable {v : Value} {vs : List Value} {es : Entries} {gap tail : List Char}

/-- Blanks and a mark close whatever stands in front of them. -/
theorem closesValue_mark {c : Char} (hgap : Blanks gap) (hc : c ∈ [',', ']', '}'])
    (cs rest : List Char) : ClosesValue (gap ++ c :: cs ++ rest) := by
  intro d hd
  cases gap with
  | nil =>
    obtain rfl : c = d := Option.some.inj hd
    exact Or.inr hc
  | cons b gap =>
    obtain rfl : b = d := Option.some.inj hd
    exact Or.inl (hgap b List.mem_cons_self)

/-- A scalar is read back when the reader of scalars reads it. -/
theorem readsBack_scalar (hv : v.nesting = 0)
    (h : ∀ rest, ClosesValue rest → Takes (readScalar? (v.jsonChars ++ rest)) v.tree rest) :
    ReadsBack v v.jsonChars := by
  intro depth rest ds _ hrest hds
  obtain ⟨c, cs, hchars, hblank, hmark⟩ := opens_scalar hv
  have hread := h rest hrest
  rw [hchars, List.cons_append] at hds hread
  rw [skip_cons hblank] at hds
  refine takes_readValue?_scalar ?_ ?_ (hds ▸ hread)
  · rw [hds]
    rintro ⟨⟩
    exact hmark (by decide)
  · rw [hds]
    rintro ⟨⟩
    exact hmark (by decide)

/-- The text of a scalar is read as its tree, by the kind of scalar.  Numbers are the case that
    needs its hypothesis: a literal that is too long has no number. -/
theorem readsBack_jsonChars (hv : v.nesting = 0) (hnumbers : v.EveryNumber Decimal.FitsWord) :
    ReadsBack v v.jsonChars := by
  refine readsBack_scalar hv fun rest hrest => ?_
  cases v with
  | null => exact takes_readScalar?_word Text.nullWord rfl (List.all_eq_true.1 rfl) hrest rfl
  | boolean b =>
    cases b with
    | true => exact takes_readScalar?_word Text.trueWord rfl (List.all_eq_true.1 rfl) hrest rfl
    | false => exact takes_readScalar?_word Text.falseWord rfl (List.all_eq_true.1 rfl) hrest rfl
  | number d =>
    obtain ⟨n, e, hn, -, -⟩ := (Value.everyNumber_number.1 hnumbers).exists_number?
    rw [Value.tree, hn]
    exact takes_readScalar?_number d hn hrest rfl
  | string s =>
    have h : Takes (readScalar? (quote s.toList ++ rest)) (string (String.ofList s.toList)) rest :=
      takes_readScalar?_quote s.toList rfl
    rwa [String.ofList_toList] at h
  | sequence items => cases hv
  | mapping es => cases hv

/-- Blanks in front of a text do not change what it is read as. -/
theorem ReadsBack.blanks {cs : List Char} (h : ReadsBack v cs) (hgap : Blanks gap) :
    ReadsBack v (gap ++ cs) := by
  intro depth rest ds hdepth hrest hds
  rw [List.append_assoc, skip_append hgap] at hds
  exact h depth rest ds hdepth hrest hds

/-! ## Elements

  The rules of the layout, read back one by one.  What stands behind an element has no tree of its
  own, so the statement about it is `ItemsReadBack`: it closes the element in front, and it ends the
  elements. -/

/-- Brackets with blanks between them. -/
theorem readsBack_emptySequence (hgap : Blanks gap) :
    ReadsBack (.sequence []) ('[' :: (gap ++ [']'])) := by
  intro depth rest ds hdepth _ hds
  obtain ⟨depth, rfl⟩ := Nat.exists_eq_add_of_le' hdepth
  rw [List.cons_append, skip_cons rfl] at hds
  exact takes_readValue?_emptySequence hds (skip_mark hgap rfl [] rest)

/-- Elements are read back when the first one and those behind it are.  The first one is closed by
    what follows it, and the depth is enough for both. -/
theorem ReadsBack.items {cs : List Char} (h : ReadsBack v cs) (htail : ItemsReadBack vs tail)
    (hdepth : Value.itemNesting (v :: vs) ≤ depth) (hds : skip ds = skip (cs ++ (tail ++ rest))) :
    Takes (readItems? depth ds) (Value.itemTrees (v :: vs)) rest := by
  rw [Value.itemNesting] at hdepth
  have hfirst := h depth (tail ++ rest) ds (by omega) (htail.1 rest) hds
  exact takes_readItems? hfirst (htail.2 depth rest (by omega))

/-- A bracket, the first element, and what stands behind it up to the closing one. -/
theorem ReadsBack.sequence {cs : List Char} (h : ReadsBack v cs) (htail : ItemsReadBack vs tail)
    (hopens : ∃ c ds, skip cs = c :: ds ∧ c ≠ ']') :
    ReadsBack (.sequence (v :: vs)) ('[' :: (cs ++ tail)) := by
  intro depth rest ds hdepth _ hds
  obtain ⟨depth, rfl⟩ := Nat.exists_eq_add_of_le' (Nat.one_le_of_lt hdepth)
  rw [List.cons_append, List.append_assoc, skip_cons rfl] at hds
  refine takes_readValue?_sequence hds ?_ (h.items htail (Nat.le_of_succ_le_succ hdepth) rfl)
  obtain ⟨c, more, hcs, hc⟩ := hopens
  rw [skip_append_of_cons hcs]
  rintro ⟨⟩
  exact hc rfl

/-- Behind the last element stands the closing bracket. -/
theorem itemsReadBack_close (hgap : Blanks gap) : ItemsReadBack [] (gap ++ [']']) :=
  ⟨closesValue_mark hgap (by decide) [],
    fun _ rest _ => Or.inl ⟨skip_mark hgap rfl [] rest, rfl⟩⟩

/-- Behind any other stand a comma and the elements that are left. -/
theorem ReadsBack.itemsReadBack {cs : List Char} (h : ReadsBack v cs)
    (htail : ItemsReadBack vs tail) (hgap : Blanks gap) :
    ItemsReadBack (v :: vs) (gap ++ ',' :: (cs ++ tail)) := by
  refine ⟨closesValue_mark hgap (by decide) _, fun depth rest hdepth => Or.inr ?_⟩
  exact ⟨_, skip_mark hgap rfl _ rest, h.items htail hdepth (by rw [List.append_assoc])⟩

/-! ## Entries

  The same for entries, with a key in front of each value.  Keys must be distinct here and nowhere
  else: the reader gathers members, and of two with one key it would keep the later value. -/

/-- Braces with blanks between them. -/
theorem readsBack_emptyMapping (hgap : Blanks gap) :
    ReadsBack (.mapping []) ('{' :: (gap ++ ['}'])) := by
  intro depth rest ds hdepth _ hds
  obtain ⟨depth, rfl⟩ := Nat.exists_eq_add_of_le' hdepth
  rw [List.cons_append, skip_cons rfl] at hds
  exact takes_readValue?_emptyMapping hds (skip_mark hgap rfl [] rest)

/-- A key is read up to its colon. -/
theorem KeyLayout.takes_readString? {k : String} {key : List Char} (h : KeyLayout k key)
    (value : List Char) :
    ∃ inner keyed, skip (key ++ value) = '"' :: inner ∧ Takes (readString? inner) k.toList keyed ∧
      skip keyed = ':' :: value := by
  obtain @⟨front, behind, hfront, hbehind⟩ := h
  refine ⟨escape k.toList ++ '"' :: (behind ++ ':' :: value), behind ++ ':' :: value, ?_, ?_, ?_⟩
  · simp only [List.append_assoc, skip_append hfront]
    simp only [quote, List.cons_append, List.append_assoc, List.nil_append]
    exact skip_cons rfl _
  · exact Json.takes_readString? k.toList rfl
  · rw [skip_append hbehind]
    exact skip_cons rfl _

/-- A key starts with a quote, so a brace in front of it does not close. -/
theorem KeyLayout.opens {k : String} {key : List Char} (h : KeyLayout k key) (value : List Char) :
    (skip (key ++ value)).head? = some '"' := by
  obtain ⟨inner, -, hkey, -⟩ := h.takes_readString? value
  rw [hkey]
  rfl

/-- Entries are read back when the first one and those behind it are. -/
theorem ReadsBack.entries {k : String} {key cs : List Char} (h : ReadsBack v cs)
    (hkey : KeyLayout k key) (htail : EntriesReadBack es tail)
    (hdepth : Value.entryNesting ((k, v) :: es) ≤ depth)
    (hds : skip ds = skip (key ++ (cs ++ (tail ++ rest)))) :
    Takes (readMembers? depth ds) (Value.entryTrees ((k, v) :: es)) rest := by
  rw [Value.entryNesting] at hdepth
  obtain ⟨inner, keyed, hinner, hstring, hcolon⟩ := hkey.takes_readString? (cs ++ (tail ++ rest))
  have hfirst := h depth (tail ++ rest) _ (by omega) (htail.1 rest) rfl
  have hread := takes_readMembers? (hds.trans hinner) hstring hcolon hfirst
    (htail.2 depth rest (by omega))
  rwa [String.ofList_toList] at hread

/-- A brace, the first entry, and what stands behind it up to the closing one.  The members are
    gathered when the brace closes, and with distinct keys they stay as they were read. -/
theorem ReadsBack.mapping {k : String} {key cs : List Char} (h : ReadsBack v cs)
    (hkey : KeyLayout k key) (htail : EntriesReadBack es tail)
    (hdistinct : (Entries.keys ((k, v) :: es)).Nodup) :
    ReadsBack (.mapping ((k, v) :: es)) ('{' :: (key ++ (cs ++ tail))) := by
  intro depth rest ds hdepth _ hds
  obtain ⟨depth, rfl⟩ := Nat.exists_eq_add_of_le' (Nat.one_le_of_lt hdepth)
  rw [List.cons_append, List.append_assoc, List.append_assoc, skip_cons rfl] at hds
  -- where keys are distinct, no member replaces another one
  have hpairs : Entries.ofPairs (Value.entryTrees ((k, v) :: es)) = _ :=
    Entries.ofPairs_of_nodup (Value.keys_entryTrees _ ▸ hdistinct)
  rw [Value.tree, ← hpairs]
  refine takes_readValue?_mapping hds ?_ (h.entries hkey htail (Nat.le_of_succ_le_succ hdepth) rfl)
  rw [hkey.opens]
  decide

/-- Behind the last entry stands the closing brace. -/
theorem entriesReadBack_close (hgap : Blanks gap) : EntriesReadBack [] (gap ++ ['}']) :=
  ⟨closesValue_mark hgap (by decide) [],
    fun _ rest _ => Or.inl ⟨skip_mark hgap rfl [] rest, rfl⟩⟩

/-- Behind any other stand a comma and the entries that are left. -/
theorem ReadsBack.entriesReadBack {k : String} {key cs : List Char} (h : ReadsBack v cs)
    (hkey : KeyLayout k key) (htail : EntriesReadBack es tail) (hgap : Blanks gap) :
    EntriesReadBack ((k, v) :: es) (gap ++ ',' :: (key ++ (cs ++ tail))) := by
  refine ⟨closesValue_mark hgap (by decide) _, fun depth rest hdepth => Or.inr ?_⟩
  exact ⟨_, skip_mark hgap rfl _ rest,
    h.entries hkey htail hdepth (by rw [List.append_assoc, List.append_assoc])⟩

/-! ## Every layout

  The induction is on the layout; each of its rules is a lemma of the sections before. -/

mutual
/-- A text that writes a value out is read as the tree of the value.  Distinct keys and the size of
    the numbers are handed down to the parts of the value along with the layout. -/
theorem JsonLayout.readsBack : ∀ {v : Value} {cs : List Char}, JsonLayout v cs →
    v.DistinctKeys → v.EveryNumber Decimal.FitsWord → ReadsBack v cs
  | _, _, .scalar hv, _, hnumbers => readsBack_jsonChars hv hnumbers
  | _, _, .blanks hgap h, hkeys, hnumbers => (h.readsBack hkeys hnumbers).blanks hgap
  | _, _, .emptySequence hgap, _, _ => readsBack_emptySequence hgap
  | _, _, .sequence h htail, hkeys, hnumbers => by
    rw [Value.distinctKeys_sequence, List.forall_mem_cons] at hkeys
    rw [Value.everyNumber_sequence, List.forall_mem_cons] at hnumbers
    obtain ⟨c, ds, hcs, hc, -⟩ := h.opens
    exact (h.readsBack hkeys.1 hnumbers.1).sequence (htail.readsBack hkeys.2 hnumbers.2)
      ⟨c, ds, hcs, hc⟩
  | _, _, .emptyMapping hgap, _, _ => readsBack_emptyMapping hgap
  | _, _, .mapping hkey h htail, hkeys, hnumbers => by
    rw [Value.distinctKeys_mapping, List.forall_mem_cons] at hkeys
    rw [Value.everyNumber_mapping, List.forall_mem_cons] at hnumbers
    exact (h.readsBack hkeys.2.1 hnumbers.1).mapping hkey
      (htail.readsBack hkeys.2.2 hnumbers.2) hkeys.1

/-- What stands behind an element. -/
theorem ItemsLayout.readsBack : ∀ {vs : List Value} {tail : List Char}, ItemsLayout vs tail →
    (∀ v ∈ vs, v.DistinctKeys) → (∀ v ∈ vs, v.EveryNumber Decimal.FitsWord) →
      ItemsReadBack vs tail
  | _, _, .close hgap, _, _ => itemsReadBack_close hgap
  | _, _, .comma hgap h htail, hkeys, hnumbers => by
    rw [List.forall_mem_cons] at hkeys hnumbers
    exact (h.readsBack hkeys.1 hnumbers.1).itemsReadBack (htail.readsBack hkeys.2 hnumbers.2) hgap

/-- What stands behind an entry. -/
theorem EntriesLayout.readsBack : ∀ {es : Entries} {tail : List Char}, EntriesLayout es tail →
    (∀ e ∈ es, e.2.DistinctKeys) → (∀ e ∈ es, e.2.EveryNumber Decimal.FitsWord) →
      EntriesReadBack es tail
  | _, _, .close hgap, _, _ => entriesReadBack_close hgap
  | _, _, .comma hgap hkey h htail, hkeys, hnumbers => by
    rw [List.forall_mem_cons] at hkeys hnumbers
    exact (h.readsBack hkeys.1 hnumbers.1).entriesReadBack hkey
      (htail.readsBack hkeys.2 hnumbers.2) hgap
end

end Json

end BlockQuery

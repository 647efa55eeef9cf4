/-
  The keys of every mapping are distinct, always.

  Reading gathers the entries of a mapping one by one, an operation takes its results apart from
  its inputs or gathers them again, and writing and removing touch one entry; none of them can make
  a key stand twice.  Each step ensures distinct keys if what it works on has them (`Ensures`), and
  an evaluation is put together from such steps, so the induction over expressions only joins them.

  Three sources are gathered at the end: reading, with its two formats, evaluation, and the edits
  along a path.  For evaluation the literals of the expression count as input, as they can be any
  values; the reader of queries makes only scalars of them.

  Whether keys are distinct is a property of the list of keys alone.  So nothing here depends on
  what the values are, on how they compare or in which order the entries stand, and what putting,
  gathering and removing do to the list of keys was said once, of entries of any type.
-/
import BlockQuery.Command
import BlockQuery.Proofs.Descent
import BlockQuery.Proofs.DistinctKeys
import BlockQuery.Proofs.ErrorSource
import BlockQuery.Proofs.JsonLayout
import BlockQuery.Proofs.PathRemoval

namespace BlockQuery

open Value (distinctKeys_of_isBlock distinctKeys_sequence distinctKeys_mapping)

/-! ## Operations

  One lemma for each function that the evaluator calls, in the form `Ensures`: if there is a result,
  its keys are distinct.  An operation makes its result of parts of its input, where the property
  comes with the part (`DistinctKeys.of_lookup`), or it makes a scalar, which has no keys. -/

/-- Whether the keys of every mapping in every value of a stream are distinct. -/
def Stream.DistinctKeys (vs : Stream) : Prop :=
  ∀ v ∈ vs, v.DistinctKeys

section Operations

variable {options : EvalOptions} {operation : Expr} {input : Value} {vs : Stream}

/-- One value, as a stream. -/
theorem Stream.DistinctKeys.singleton {v : Value} (h : v.DistinctKeys) :
    Stream.DistinctKeys [v] :=
  List.forall_mem_singleton.2 h

/-- A value that takes one line, as a stream. -/
theorem Stream.DistinctKeys.of_isBlock {v : Value} (h : v.isBlock = false) :
    Stream.DistinctKeys [v] :=
  .singleton (distinctKeys_of_isBlock h)

/-- One stream behind another. -/
theorem Stream.DistinctKeys.append {front back : Stream} (hfront : front.DistinctKeys)
    (hback : back.DistinctKeys) : Stream.DistinctKeys (front ++ back) :=
  fun v hv => (List.mem_append.1 hv).elim (hfront v) (hback v)

/-- The one value that an operation uses is in the stream, or it is null.  With several values in
    strict mode there is an error, of which nothing has to be shown. -/
theorem Stream.DistinctKeys.single (h : vs.DistinctKeys) :
    Ensures Value.DistinctKeys (Stream.single options operation vs) := by
  unfold Stream.single
  split
  · exact .error _
  · exact .ok (.getD fun w hw => h w (List.mem_of_mem_head? hw))

/-- What is emitted for each value of a stream, one after the other.  The property of the values
    goes into the hypothesis, so that the function need only be good on such values. -/
theorem Stream.DistinctKeys.bind {f : Value → Except EvalError Stream} (h : vs.DistinctKeys)
    (hf : ∀ v, v.DistinctKeys → Ensures Stream.DistinctKeys (f v)) :
    Ensures Stream.DistinctKeys (Stream.bind f vs) := by
  induction vs with
  | nil => exact .ok nofun
  | cons v vs ih =>
    obtain ⟨hv, hvs⟩ := List.forall_mem_cons.1 h
    exact (hf v hv).bind fun front hfront =>
      (ih hvs).bind fun back hback => .ok (hfront.append hback)

/-- The same where each value becomes one; the first error ends it. -/
theorem Stream.DistinctKeys.traverse {f : Value → Except EvalError Value} (h : vs.DistinctKeys)
    (hf : ∀ v, v.DistinctKeys → Ensures Value.DistinctKeys (f v)) :
    Ensures Stream.DistinctKeys (Stream.traverse f vs) := by
  induction vs with
  | nil => exact .ok nofun
  | cons v vs ih =>
    obtain ⟨hv, hvs⟩ := List.forall_mem_cons.1 h
    exact (hf v hv).bind fun w hw =>
      (ih hvs).bind fun ws hws => .ok (List.forall_mem_cons.2 ⟨hw, hws⟩)

/-- The same for the elements of a sequence. -/
theorem Stream.DistinctKeys.mapItems {f : Value → Except EvalError Stream}
    {items : List Value} (h : Stream.DistinctKeys items)
    (hf : ∀ v, v.DistinctKeys → Ensures Stream.DistinctKeys (f v)) :
    Ensures Stream.DistinctKeys (mapItems options operation f items) := by
  induction items with
  | nil => exact .ok nofun
  | cons v items ih =>
    obtain ⟨hv, hitems⟩ := List.forall_mem_cons.1 h
    refine (hf v hv).bind fun results hresults => ?_
    split
    · exact ih hitems
    · exact hresults.single.bind fun w hw =>
        (ih hitems).bind fun ws hws => .ok (List.forall_mem_cons.2 ⟨hw, hws⟩)

/-- An element is a part of its sequence, and one that is not there gives nothing. -/
theorem distinctKeys_elementAt {i : Int} (h : input.DistinctKeys) :
    Ensures Stream.DistinctKeys (elementAt operation i input) := by
  unfold elementAt
  split
  · refine .ok fun w hw => ?_
    obtain ⟨n, -, hw⟩ := Option.bind_eq_some_iff.1 (Option.mem_toList.1 hw)
    exact h.of_getElem? hw
  · exact .ok nofun
  · exact .error _

/-- The elements of a slice are parts of the sequence too, and a part of a text is a text. -/
theorem distinctKeys_sliceOf {start stop : Option Int} (h : input.DistinctKeys) :
    Ensures Value.DistinctKeys (sliceOf operation start stop input) := by
  unfold sliceOf
  split
  · refine .ok (distinctKeys_sequence.2 fun w hw => ?_)
    exact distinctKeys_sequence.1 h w (List.mem_of_mem_take (List.mem_of_mem_drop hw))
  · exact .ok (distinctKeys_of_isBlock rfl)
  · exact .ok .null
  · exact .error _

/-- So are all elements and all values of entries. -/
theorem distinctKeys_childrenOf (h : input.DistinctKeys) :
    Ensures Stream.DistinctKeys (childrenOf operation input) := by
  unfold childrenOf
  split
  · exact .ok (distinctKeys_sequence.1 h)
  · exact .ok (List.forall_mem_map.2 (distinctKeys_mapping.1 h).2)
  · exact .error _

/-- A length is a number. -/
theorem distinctKeys_lengthOf : Ensures Value.DistinctKeys (lengthOf operation input) := by
  unfold lengthOf
  split
  · exact .ok (distinctKeys_of_isBlock rfl)
  · exact .ok (distinctKeys_of_isBlock rfl)
  · exact .error _

/-- Keys are texts, and places are numbers. -/
theorem distinctKeys_keysOf : Ensures Value.DistinctKeys (keysOf operation input) := by
  unfold keysOf
  split
  · refine .ok (distinctKeys_sequence.2 (List.forall_mem_map.2 fun key _ => ?_))
    exact distinctKeys_of_isBlock rfl
  · refine .ok (distinctKeys_sequence.2 (List.forall_mem_map.2 fun n _ => ?_))
    exact distinctKeys_of_isBlock rfl
  · exact .error _

/-- An entry as a mapping of its own has the two keys `key` and `value`, and its value is a part of
    the input. -/
theorem distinctKeys_toEntriesOf (h : input.DistinctKeys) :
    Ensures Value.DistinctKeys (toEntriesOf operation input) := by
  unfold toEntriesOf
  split
  · refine .ok (distinctKeys_sequence.2 (List.forall_mem_map.2 fun e he => ?_))
    refine distinctKeys_mapping.2 ⟨by simp [Entries.keys], ?_⟩
    refine List.forall_mem_cons.2 ⟨distinctKeys_of_isBlock rfl, List.forall_mem_singleton.2 ?_⟩
    exact (distinctKeys_mapping.1 h).2 e he
  · exact .error _

/-- What is computed is a number. -/
theorem distinctKeys_numberOr {n : Option Decimal} :
    Ensures Value.DistinctKeys (numberOr operation n) := by
  cases n with
  | none => exact .error _
  | some d => exact .ok (distinctKeys_of_isBlock rfl)

/-- A sum of mappings puts the entries of one into the other, key by key, and a key that is there is
    not added a second time.  Other sums join texts or sequences, or are numbers. -/
theorem distinctKeys_apply {op : ArithOp} {a b : Value} (ha : a.DistinctKeys)
    (hb : b.DistinctKeys) : Ensures Value.DistinctKeys (op.apply operation a b) := by
  unfold ArithOp.apply
  split
  · exact .ok hb
  · exact .ok ha
  · exact distinctKeys_numberOr
  · exact .ok (distinctKeys_of_isBlock rfl)
  · refine .ok (distinctKeys_sequence.2 fun w hw => ?_)
    exact (List.mem_append.1 hw).elim (distinctKeys_sequence.1 ha w) (distinctKeys_sequence.1 hb w)
  · obtain ⟨hnodup, hold⟩ := distinctKeys_mapping.1 ha
    refine .ok (distinctKeys_mapping.2 ⟨Entries.nodup_keys_extend hnodup _, fun e he => ?_⟩)
    exact (Entries.mem_of_mem_extend he).elim (hold e) ((distinctKeys_mapping.1 hb).2 e)
  · exact distinctKeys_numberOr
  · refine .ok (distinctKeys_sequence.2 fun w hw => ?_)
    exact distinctKeys_sequence.1 ha w (List.mem_of_mem_filter hw)
  · exact distinctKeys_numberOr
  · split
    · exact .error _
    · exact distinctKeys_numberOr
  · exact .error _

end Operations

/-! ## Evaluation

  The induction is on the expression, for every input with distinct keys.  Each case names the
  operands by hypothesis and the operation by its lemma, and joins them with `Ensures.bind`. -/

/-- Whether the keys of every mapping in a literal of an expression are distinct.  An expression may
    be made without a text, with any value in it. -/
def Expr.LiteralsDistinct (e : Expr) : Prop :=
  e.Throughout fun n => ∀ v, n = .literal v → v.DistinctKeys

open BlockQuery.Expr in
/-- The functions, whose one argument may be used on the input or on its elements.  The hypothesis
    is about every input, since `map` gives the argument inputs that are parts of its own. -/
theorem distinctKeys_call {options : EvalOptions} {input : Value} {f : Builtin} {args : List Expr}
    (ih : ∀ c ∈ args, ∀ v, v.DistinctKeys → Ensures Stream.DistinctKeys (eval options c v))
    (h : input.DistinctKeys) : Ensures Stream.DistinctKeys (eval options (.call f args) input) := by
  rcases eval_call_or_single f args with ⟨-, hfail⟩ | hone
  · rw [hfail]
    exact .error _
  cases f with
  | length => exact distinctKeys_lengthOf.map fun w hw => .singleton hw
  | keys => exact distinctKeys_keysOf.map fun w hw => .singleton hw
  | toEntries => exact (distinctKeys_toEntriesOf h).map fun w hw => .singleton hw
  | has =>
    obtain ⟨key, rfl⟩ := hone rfl
    refine (ih key List.mem_cons_self input h).bind fun ks hks => hks.traverse fun k hk => ?_
    intro w hw
    obtain ⟨b, -, rfl⟩ := map_eq_ok.1 hw
    exact distinctKeys_of_isBlock rfl
  | map =>
    obtain ⟨mapper, rfl⟩ := hone rfl
    cases input with
    | sequence items =>
      have hitems : Stream.DistinctKeys items := distinctKeys_sequence.1 h
      exact (hitems.mapItems (ih mapper List.mem_cons_self)).map fun vs hvs =>
        .singleton (distinctKeys_sequence.2 hvs)
    | _ => exact .error _
  | select =>
    obtain ⟨condition, rfl⟩ := hone rfl
    refine (ih condition List.mem_cons_self input h).bind fun vs _ => .ok ?_
    split
    · exact .singleton h
    · exact nofun
  | del =>
    obtain ⟨target, rfl⟩ := hone rfl
    rw [eval]
    split
    · exact .error _
    · exact h.delete.mapError.map fun w hw => .singleton hw

open BlockQuery.Expr in
/-- Evaluation keeps keys distinct.  The induction is on the expression, for all inputs: in a pipe
    the right side gets what the left side has emitted, and of this the hypothesis for the left says
    that it may. -/
theorem distinctKeys_eval {options : EvalOptions} {e : Expr} {input : Value}
    (he : e.LiteralsDistinct) (h : input.DistinctKeys) :
    Ensures Stream.DistinctKeys (eval options e input) := by
  induction e using Expr.induct generalizing input with
  | step e ih =>
    obtain ⟨hself, hoperands⟩ := throughout_iff.1 he
    replace ih : ∀ c ∈ e.operands, ∀ v, v.DistinctKeys →
        Ensures Stream.DistinctKeys (eval options c v) :=
      fun c hc v hv => ih c hc (hoperands c hc) hv
    cases e with
    | identity => exact .ok (.singleton h)
    | recursiveDescent => exact .ok fun w hw => h.of_mem_descendants hw
    | literal v => exact .ok (.singleton (hself v rfl))
    | field name => exact .ok (.singleton (h.get? name))
    | index i => exact distinctKeys_elementAt h
    | slice start stop => exact (distinctKeys_sliceOf h).map fun w hw => .singleton hw
    | iterate => exact distinctKeys_childrenOf h
    | emptyCollection => exact .ok (.of_isBlock rfl)
    | collect inner =>
      exact (ih inner (by simp [operands]) input h).map fun vs hvs =>
        .singleton (distinctKeys_sequence.2 hvs)
    | pipe left right =>
      exact (ih left (by simp [operands]) input h).bind fun vs hvs =>
        hvs.bind (ih right (by simp [operands]))
    | descendPipe inner =>
      rw [eval, descendWith_eq_bind]
      have hnodes : Stream.DistinctKeys input.descendants := fun w hw => h.of_mem_descendants hw
      exact hnodes.bind (ih inner (by simp [operands]))
    | comma left right =>
      refine (ih left (by simp [operands]) input h).bind fun front hfront => ?_
      exact (ih right (by simp [operands]) input h).bind fun back hback =>
        .ok (hfront.append hback)
    | alternative left right =>
      refine (ih left (by simp [operands]) input h).bind fun vs hvs => ?_
      split
      · exact .ok hvs
      split
      · exact .ok (List.forall_mem_nil _)
      · exact ih right (by simp [operands]) input h
    | concat parts =>
      intro vs hvs
      obtain ⟨text, -, hvs⟩ := bind_eq_ok.1 hvs
      exact Ensures.ok (.of_isBlock rfl) vs hvs
    | arithmetic op left right =>
      refine (ih left (by simp [operands]) input h).bind fun vs hvs => hvs.single.bind ?_
      intro a ha
      refine (ih right (by simp [operands]) input h).bind fun ws hws => hws.single.bind ?_
      intro b hb
      exact (distinctKeys_apply ha hb).bind fun c hc => .ok (.singleton hc)
    | compare op left right =>
      intro vs hvs
      obtain ⟨ws, -, hvs⟩ := bind_eq_ok.1 hvs
      obtain ⟨b, -, hvs⟩ := bind_eq_ok.1 hvs
      obtain ⟨us, -, hvs⟩ := bind_eq_ok.1 hvs
      refine Ensures.ok (List.forall_mem_map.2 fun a _ => ?_) vs hvs
      exact distinctKeys_of_isBlock rfl
    | call f args => exact distinctKeys_call ih h
    | assign path value =>
      exact (ih value (by simp [operands]) input h).bind fun vs hvs =>
        hvs.traverse fun v hv => (h.assign hv).mapError
    | update path change =>
      have hcurrent : ((input.lookup? path).getD .null).DistinctKeys :=
        .getD fun w hw => h.lookup? hw
      refine (ih change (by simp [operands]) _ hcurrent).bind fun vs hvs => ?_
      split
      · exact h.delete.mapError.map fun w hw => .singleton hw
      · exact hvs.single.bind fun v hv => (h.assign hv).mapError.map fun w hw => .singleton hw

/-! ## JSON

  A tree of JSON may have a key twice, where the text has it.  The value that is made of it gathers
  the members, and the later one of two stays. -/

mutual
/-- The entries of an object are gathered, so every tree has a value with distinct keys. -/
theorem Json.distinctKeys_toValue : ∀ j : Json, Ensures Value.DistinctKeys j.toValue
  | .null => .ok .null
  | .boolean b => .ok (distinctKeys_of_isBlock rfl)
  | .number n => by
      unfold Json.toValue
      split
      · exact .ok (distinctKeys_of_isBlock rfl)
      · exact .error _
  | .string s => .ok (distinctKeys_of_isBlock rfl)
  | .array items => by
      refine (Json.distinctKeys_itemValues items).map ?_
      intro vs hvs
      exact distinctKeys_sequence.2 hvs
  | .object members => by
      refine (Json.distinctKeys_memberValues members).map ?_
      intro es hes
      refine distinctKeys_mapping.2 ⟨Entries.nodup_keys_ofPairs es, ?_⟩
      intro e he
      exact hes e (Entries.mem_of_mem_ofPairs he)

/-- The values of the elements of an array. -/
theorem Json.distinctKeys_itemValues :
    ∀ js : List Json, Ensures Stream.DistinctKeys (Json.itemValues js)
  | [] => .ok nofun
  | j :: js => by
      refine (Json.distinctKeys_toValue j).bind ?_
      intro v hv
      refine (Json.distinctKeys_itemValues js).bind ?_
      intro vs hvs
      exact .ok (List.forall_mem_cons.2 ⟨hv, hvs⟩)

/-- The values of the members of an object, not yet gathered. -/
theorem Json.distinctKeys_memberValues :
    ∀ ms : List (String × Json),
      Ensures (fun es : Entries => ∀ e ∈ es, e.2.DistinctKeys) (Json.memberValues ms)
  | [] => .ok nofun
  | (_, j) :: ms => by
      refine (Json.distinctKeys_toValue j).bind ?_
      intro v hv
      refine (Json.distinctKeys_memberValues ms).bind ?_
      intro es hes
      exact .ok (List.forall_mem_cons.2 ⟨hv, hes⟩)
end

/-! ## Documents

  A document is read as JSON if it looks like it, and as block text otherwise.  Block text was
  settled with its reader (`Block.distinctKeys_of_readChars`), so only the choice between the
  formats is left. -/

/-- Whichever format a text is in, what is read of it has distinct keys.  In both the entries are
    gathered at the end, where the later one of two with the same key stays. -/
theorem distinctKeys_readDocument (text : String) :
    Ensures Value.DistinctKeys (Command.readDocument text) := by
  unfold Command.readDocument
  split
  · unfold Command.readJson
    split
    · exact .error _
    · exact (Json.distinctKeys_toValue _).mapError
  · have hread : Ensures Value.DistinctKeys (Block.read text) :=
      fun v hv => Block.distinctKeys_of_readChars hv
    exact hread.mapError

/-- **Distinct keys are an invariant of the library.**  Every document that is read has them, as
    block text or as JSON; evaluation, writing and removing give values that have them, on values
    and literals that do. -/
theorem distinctKeys_everywhere :
    (∀ text v, Block.read text = .ok v → v.DistinctKeys) ∧
    (∀ text v, Command.readDocument text = .ok v → v.DistinctKeys) ∧
    (∀ options (e : Expr) (input : Value) vs, e.LiteralsDistinct → input.DistinctKeys →
      e.eval options input = .ok vs → ∀ v ∈ vs, v.DistinctKeys) ∧
    (∀ (v : Value) path (new w : Value), v.DistinctKeys → new.DistinctKeys →
      v.assign path new = .ok w → w.DistinctKeys) ∧
    (∀ (v : Value) path (w : Value), v.DistinctKeys → v.delete path = .ok w → w.DistinctKeys) := by
  refine ⟨?_, distinctKeys_readDocument, ?_, ?_, ?_⟩
  · intro text v h
    exact Block.distinctKeys_of_readChars h
  · intro options e input vs he hinput h
    exact distinctKeys_eval he hinput vs h
  · intro v path new w hv hnew h
    exact hv.assign hnew w h
  · intro v path w hv h
    exact hv.delete w h

/-- A key that comes twice in a document, in block text and in JSON, and once more in a sum, in an
    assignment and in a removal. -/
theorem distinctKeys_everywhere_repeated :
    let one : Value := .number ⟨false, 1, 0, by decide, by decide⟩
    let document : Value := .mapping [("a", .sequence []), ("b", .null)]
    let short : Value := .mapping [("a", .mapping [])]
    let more : Value := .mapping [("c", one), ("a", .mapping [])]
    let sum : Value := .mapping [("a", .mapping []), ("b", .null), ("c", one)]
    let assigned : Value := .mapping [("a", .sequence [.null, sum]), ("b", .null)]
    let removed : Value := .mapping [("b", .null), ("c", one)]
    (Block.read "'a': 0\n'b':\n'a': []" = .ok document ∧ document.DistinctKeys) ∧
    (Command.readDocument "\x7b\"a\":[],\"a\":\x7b\x7d\x7d" = .ok short ∧ short.DistinctKeys) ∧
    (Expr.eval {} (.arithmetic .add .identity (.literal more)) document = .ok [sum] ∧
      sum.DistinctKeys) ∧
    (document.assign [.field "a", .index 1] sum = .ok assigned ∧ assigned.DistinctKeys) ∧
    (sum.delete [.field "a"] = .ok removed ∧ removed.DistinctKeys) := by
  intro one document short more sum assigned removed
  obtain ⟨block, json, eval, assign, delete⟩ := distinctKeys_everywhere
  let first : Block.Line := ⟨1, 0, "'a': 0".toList⟩
  let second : Block.Line := ⟨2, 0, "'b':".toList⟩
  let third : Block.Line := ⟨3, 0, "'a': []".toList⟩
  have hlines : Block.significantLines "'a': 0\n'b':\n'a': []".toList = [first, second, third] := by
    decide
  -- the entries are read from the last to the first
  have hthird : Block.readEntries 0 [third] = .ok [("a", .sequence [])] := by
    rw [Block.readEntries_cons]
    show (do
      let v ← Block.readScalarLines 3 ["[]".toList]
      let es ← Block.readEntries 0 []
      return ("a", v) :: es) = _
    rw [Block.readEntries_nil]
    rfl
  have hsecond : Block.readEntries 0 [second, third] = .ok [("b", .null), ("a", .sequence [])] := by
    rw [Block.readEntries_cons]
    show (do
      let v ← Block.readBelow []
      let es ← Block.readEntries 0 [third]
      return ("b", v) :: es) = _
    rw [hthird, Block.readBelow]
    rfl
  have hblock : Block.read "'a': 0\n'b':\n'a': []" = .ok document := by
    rw [Block.read, Block.readChars, hlines]
    show Block.readBlock first [second, third] = _
    rw [Block.readBlock_of_entry (by decide) (by decide), Block.readEntries_cons]
    show Except.map _ (do
      let v ← Block.readScalarLines 1 ["0".toList]
      let es ← Block.readEntries 0 [second, third]
      return ("a", v) :: es) = _
    rw [hsecond]
    rfl
  have hmembers : Takes (Json.readMembers? 126 "\"a\":[],\"a\":\x7b\x7d\x7d".toList)
      [("a", .array []), ("a", .object [])] [] :=
    Json.takes_readMembers? rfl (Json.takes_readString? ['a'] rfl) rfl
      (Json.takes_readValue?_emptySequence rfl rfl) (Or.inr ⟨_, rfl,
        Json.takes_readMembers? rfl (Json.takes_readString? ['a'] rfl) rfl
          (Json.takes_readValue?_emptyMapping rfl rfl) (Or.inl ⟨rfl, rfl⟩)⟩)
  have hjson : Command.readDocument "\x7b\"a\":[],\"a\":\x7b\x7d\x7d" = .ok short := by
    rw [Command.readDocument, if_pos (by decide), Command.readJson,
      Json.ofChars?_of_takes (Json.takes_readValue?_mapping rfl (by decide) hmembers)]
    rfl
  have hdocument : document.DistinctKeys := block _ _ hblock
  have hliterals : (Expr.arithmetic .add .identity (.literal more)).LiteralsDistinct := by
    have hmore : more.DistinctKeys := by decide
    refine .of_two ?_ rfl (.of_none ?_ rfl) (.of_none ?_ rfl)
    · rintro v ⟨⟩
    · rintro v ⟨⟩
    · rintro v ⟨⟩
      exact hmore
  have heval : Expr.eval {} (.arithmetic .add .identity (.literal more)) document = .ok [sum] := rfl
  have hsum : sum.DistinctKeys := eval _ _ _ _ hliterals hdocument heval _ List.mem_cons_self
  have hassign : document.assign [.field "a", .index 1] sum = .ok assigned := rfl
  have hdelete : sum.delete [.field "a"] = .ok removed := rfl
  exact ⟨⟨hblock, hdocument⟩, ⟨hjson, json _ _ hjson⟩, ⟨heval, hsum⟩,
    ⟨hassign, assign _ _ _ _ hdocument hsum hassign⟩, hdelete, delete _ _ _ hsum hdelete⟩

end BlockQuery

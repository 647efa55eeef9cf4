/-
  What is written is read back, and when it is not.

  The writer decides by the characters of a string whether it needs quotes, and so it misses two
  kinds of text: keys that are bare but open no key (`MisreadKey`), and strings that are bare but
  look like an entry (`MisreadString`).  A misread key always does harm.  A misread string does harm
  only where it stands on a line of its own, in a sequence or alone in the document; behind a key it
  is safe.  `ReadsBack` says that neither happens, and then, and only then, the value that is read
  back is equal to the one that was written.

  The induction is on the value, with the rows at any column.  Both directions go together
  (`RoundTrips`): what is read from a part decides whether the whole can be equal.

  The hardest case is a mapping with a key that is misread.  Its first entry may still be read, as a
  scalar or as another entry, so it has to be shown that nothing that is read can be equal to what
  was written: a row whose key is misread opens no entry, so the lines are no mapping.  Where no key
  is misread, entries are read one by one, and the keys that come back are those that were written,
  so gathering them changes nothing.
-/
import BlockQuery.Proofs.DistinctKeys
import BlockQuery.Proofs.Written

namespace BlockQuery.Block

open Value

/-! ## The condition

  `ReadsBack` is stated of all nodes at once, as a user would check it.  For the induction it is
  taken apart into conditions on the parts; only a string behind a key is exempt. -/

/-- Whether no text in a value is misread where the writer puts it: no key, no string that is the
    whole document, and no string in a sequence.  A string behind a key is not asked for, and it may
    look like an entry. -/
structure ReadsBack (v : Value) : Prop where
  keys : v.EveryKey fun k => ¬ MisreadKey k.toList
  document : ∀ s, v = .string s → ¬ MisreadString s.toList
  elements : v.Throughout fun w =>
    ∀ items, w = .sequence items → ∀ s, .string s ∈ items → ¬ MisreadString s.toList

/-- A value on one line has no keys and no elements. -/
theorem readsBack_of_isBlock {v : Value} (h : v.isBlock = false) :
    ReadsBack v ↔ ∀ s, v = .string s → ¬ MisreadString s.toList := by
  constructor
  · exact ReadsBack.document
  · intro hstring
    refine ⟨everyKey_of_isBlock _ h, hstring, ?_⟩
    rw [throughout_of_isBlock h]
    rintro items rfl
    obtain rfl := eq_nil_of_isBlock_sequence h
    simp

/-- A sequence is read back when its elements are, each as a document of its own.  A string is
    misread in a sequence exactly when it is misread alone. -/
theorem readsBack_sequence {items : List Value} :
    ReadsBack (.sequence items) ↔ ∀ v ∈ items, ReadsBack v := by
  constructor
  · intro h v hv
    obtain ⟨hself, helements⟩ := throughout_sequence.1 h.elements
    refine ⟨everyKey_sequence.1 h.keys v hv, ?_, helements v hv⟩
    rintro s rfl
    exact hself items rfl s hv
  · intro h
    refine ⟨everyKey_sequence.2 fun v hv => (h v hv).keys, by simp, ?_⟩
    refine throughout_sequence.2 ⟨?_, fun v hv => (h v hv).elements⟩
    rintro _ ⟨⟩ s hs
    exact (h _ hs).document s rfl

/-- A mapping is read back when no key is misread and each value that stands below its key is read
    back.  A value behind its key may be misread: it does not stand on a line of its own. -/
theorem readsBack_mapping {es : Entries} :
    ReadsBack (.mapping es) ↔
      ∀ e ∈ es, ¬ MisreadKey e.1.toList ∧ (e.2.isBlock = true → ReadsBack e.2) := by
  constructor
  · intro h e he
    obtain ⟨hkey, hkeys⟩ := everyKey_mapping.1 h.keys e he
    refine ⟨hkey, fun hblock => ⟨hkeys, ?_, (throughout_mapping.1 h.elements).2 e he⟩⟩
    intro s hs
    rw [hs] at hblock
    cases hblock
  · intro h
    -- below a key only blocks have keys and elements
    have hparts : ∀ e ∈ es, (e.2.EveryKey fun k => ¬ MisreadKey k.toList) ∧
        e.2.Throughout fun w =>
          ∀ items, w = .sequence items → ∀ s, .string s ∈ items → ¬ MisreadString s.toList := by
      intro e he
      cases hblock : e.2.isBlock with
      | true =>
        have hread := (h e he).2 hblock
        exact ⟨hread.keys, hread.elements⟩
      | false =>
        refine ⟨everyKey_of_isBlock _ hblock, (throughout_of_isBlock hblock).2 ?_⟩
        intro items hitems
        rw [hitems] at hblock
        obtain rfl := eq_nil_of_isBlock_sequence hblock
        simp
    refine ⟨everyKey_mapping.2 fun e he => ⟨(h e he).1, (hparts e he).1⟩, by simp, ?_⟩
    exact throughout_mapping.2 ⟨by simp, fun e he => (hparts e he).2⟩

/-! ## Scalars

  `RoundTrips` is about rows, not about text: the numbers of the lines may be any, and the rows may
  stand at any column.  So what is shown of an element can be used where the element stands. -/

/-- Whether the written rows of a value, at any column, are read as an equal value exactly when no
    text in it is misread, and then as the value itself, only zeros losing their sign.  The
    statement names what is read, since the entries of a mapping are compared by their keys and so
    by what was read for each. -/
def RoundTrips (step : Nat) (v : Value) : Prop :=
  ∀ (c : Nat) (ls : List Line), ls.map Line.row = writtenRows step c v →
    ∀ w, (readBelow ls = .ok w ∧ w.same v = true) ↔ (ReadsBack v ∧ w = v.unsignZeros)

/-- A misread string is no string any more: its row opens an entry, and what is read there is a
    mapping, if it is anything. -/
theorem not_same_of_misreadString {s : String} {c : Nat} {ls : List Line} {w : Value}
    (h : MisreadString s.toList) (hls : ls.map Line.row = [⟨c, renderScalar (.string s)⟩])
    (hread : readBelow ls = .ok w) : w.same (.string s) = false := by
  obtain ⟨l, rest, rfl, hl, hrest⟩ := List.map_eq_cons_iff.1 hls
  have htext : l.text = renderScalar (.string s) := congrArg Row.text hl
  have hitem : isItem l.text = false := by
    rw [htext]
    exact isItem_renderScalar rfl
  have hentry : (keyLine? l.text).isSome = true := by
    rw [htext, isSome_keyLine?_renderScalar rfl]
    exact ⟨s, rfl, h⟩
  rw [readBelow_cons, readBlock_of_entry hitem hentry] at hread
  -- what is read, if anything, is a mapping
  obtain ⟨es, -, rfl⟩ := map_eq_ok.1 hread
  rfl

/-- A value on one line makes the round trip unless it is a string that looks like an entry. -/
theorem roundTrips_scalar {v : Value} (h : v.isBlock = false) (step : Nat) : RoundTrips step v := by
  intro c ls hls w
  rw [writtenRows_scalar h] at hls
  rw [readsBack_of_isBlock h]
  constructor
  · rintro ⟨hread, hsame⟩
    -- a misread string would have become a mapping
    have hstring : ∀ s, v = .string s → ¬ MisreadString s.toList := by
      rintro s rfl hmisread
      rw [not_same_of_misreadString hmisread hls hread] at hsame
      cases hsame
    refine ⟨hstring, ?_⟩
    have hscalar := readBelow_scalar h hstring hls
    rw [hscalar] at hread
    exact (Except.ok.inj hread).symm
  · rintro ⟨hstring, rfl⟩
    exact ⟨readBelow_scalar h hstring hls, same_unsignZeros (distinctKeys_of_isBlock h)⟩

/-! ## Sequences

  The rows of a sequence are those of its elements, and the reader cuts them where the elements end.
  An element is read from its own rows, which the induction hypothesis is about. -/

/-- Elements are read as equal elements when each of them is.  The induction is on the elements: the
    first is read from its own rows, and the hypothesis for the others is about the rows behind it,
    whatever the numbers of their lines. -/
theorem readItems_writtenItems {step : Nat} (hstep : 0 < step) {items : List Value}
    (h : ∀ v ∈ items, RoundTrips step v) {c : Nat} {ls : List Line}
    (hls : ls.map Line.row = writtenItems step c items) (ws : List Value) :
    (readItems c ls = .ok ws ∧ sameItems ws items = true) ↔
      (∀ v ∈ items, ReadsBack v) ∧ ws = unsignItems items := by
  induction items generalizing ls ws with
  | nil =>
    obtain rfl := List.map_eq_nil_iff.1 hls
    rw [readItems]
    constructor
    · rintro ⟨hread, -⟩
      cases hread
      exact ⟨by simp, rfl⟩
    · rintro ⟨-, rfl⟩
      exact ⟨rfl, rfl⟩
  | cons v items ih =>
    rw [List.forall_mem_cons] at h
    have hv := layout_writtenRows hstep v (c + 2)
    obtain ⟨text, below, hrows⟩ := hv.exists_row
    have hitems := layout_writtenItems hstep items c
    rw [writtenItems, hrows] at hls
    rw [hrows] at hv
    have hdeep : ∀ r ∈ below, c < r.column := fun r hr =>
      Nat.lt_of_lt_of_le (by omega) (hv.columns r (List.mem_cons_of_mem _ hr))
    have hrest : ∀ r ∈ (writtenItems step c items).head?, r.column ≤ c := fun r hr =>
      Nat.le_of_eq (hitems.head r hr).1
    have htext : LineText text := (List.forall_mem_cons.1 hv.lineText).1
    obtain ⟨item, rest, hitem, hr, hstep⟩ := readItems_behind (n := 0) htext hdeep hrest hls
    -- the element is read from its rows, and the others from the rows behind it
    have hfirst := h.1 (c + 2) item (hitem.trans hrows.symm)
    have hothers := ih h.2 hr
    rw [hstep, List.forall_mem_cons]
    constructor
    · rintro ⟨hread, hsame⟩
      obtain ⟨w, hw, hread⟩ := bind_eq_ok.1 hread
      obtain ⟨vs, hvs, hread⟩ := bind_eq_ok.1 hread
      cases hread
      rw [sameItems, Bool.and_eq_true] at hsame
      obtain ⟨hback, rfl⟩ := (hfirst w).1 ⟨hw, hsame.1⟩
      obtain ⟨hbacks, rfl⟩ := (hothers vs).1 ⟨hvs, hsame.2⟩
      exact ⟨⟨hback, hbacks⟩, rfl⟩
    · rintro ⟨⟨hback, hbacks⟩, rfl⟩
      obtain ⟨hw, hsame⟩ := (hfirst v.unsignZeros).2 ⟨hback, rfl⟩
      obtain ⟨hvs, hsames⟩ := (hothers (unsignItems items)).2 ⟨hbacks, rfl⟩
      rw [hw, hvs, unsignItems, sameItems, hsame, hsames]
      exact ⟨rfl, rfl⟩

/-- A sequence makes the round trip when its elements do.  Its first row starts with a dash, so the
    block is read as a sequence. -/
theorem roundTrips_sequence {step : Nat} (hstep : 0 < step) {items : List Value}
    (hne : items ≠ []) (h : ∀ v ∈ items, RoundTrips step v) :
    RoundTrips step (.sequence items) := by
  intro c ls hls w
  have hlayout := layout_writtenRows hstep (.sequence items) c
  obtain ⟨l, rest, rfl⟩ := hlayout.exists_cons hls
  rw [writtenRows_sequence hne] at hls
  have hitems := layout_writtenItems hstep items c
  obtain ⟨hcolumn, hitem⟩ := forall_head?_of_map_row hls hitems.head l rfl
  have hread := readItems_writtenItems hstep h hls
  rw [readBelow_cons, readBlock_of_item hitem, show l.indent = c from hcolumn, map_eq_ok,
    readsBack_sequence]
  constructor
  · rintro ⟨⟨ws, hws, rfl⟩, hsame⟩
    obtain ⟨hback, rfl⟩ := (hread ws).1 ⟨hws, hsame⟩
    exact ⟨hback, rfl⟩
  · rintro ⟨hback, rfl⟩
    obtain ⟨hws, hsame⟩ := (hread (unsignItems items)).2 ⟨hback, rfl⟩
    exact ⟨⟨unsignItems items, hws, rfl⟩, hsame⟩

/-! ## Mappings

  An entry has its value behind the key or in the rows below it.  Both forms are put into one
  statement (`readEntries_writtenEntries_cons`), so that the induction over the entries has one
  case. -/

/-- The rows of entries start with the first key and a colon, in their column. -/
theorem exists_row_writtenEntries (step : Nat) (k : String) (v : Value) (es : Entries) (c : Nat) :
    ∃ tail rows, writtenEntries step c ((k, v) :: es) =
      ⟨c, renderKey k.toList ++ ':' :: tail⟩ :: rows := by
  rw [writtenEntries]
  split
  · exact ⟨_, _, rfl⟩
  · exact ⟨_, _, rfl⟩

/-- An entry with a misread key is not read.  This settles one direction of the induction: entries
    that are read at all have no such key among them. -/
theorem readEntries_misreadKey {step : Nat} {k : String} {v : Value} {es : Entries} {c : Nat}
    {ls : List Line} (hkey : MisreadKey k.toList)
    (hls : ls.map Line.row = writtenEntries step c ((k, v) :: es)) (fs : Entries) :
    readEntries c ls ≠ .ok fs := by
  intro h
  obtain ⟨tail, rows, hrows⟩ := exists_row_writtenEntries step k v es c
  rw [hrows] at hls
  obtain ⟨l, rest, rfl, hl, -⟩ := List.map_eq_cons_iff.1 hls
  obtain ⟨_, _, _, _, hentry, -⟩ := readEntries_eq_ok h
  rw [show l.text = _ from congrArg Row.text hl, keyLine?_misreadKey hkey] at hentry
  cases hentry

/-- An entry is read from its row, or from the rows of its value, and the other entries from the
    rows behind them.  Only for a value below its key is something said of its rows; behind the key
    nothing is left to read, and the value is known. -/
theorem readEntries_writtenEntries_cons {step : Nat} (hstep : 0 < step) {k : String} {v : Value}
    {es : Entries} {c : Nat} {ls : List Line} (hkey : ¬ MisreadKey k.toList)
    (hls : ls.map Line.row = writtenEntries step c ((k, v) :: es)) :
    ∃ value rest, (v.isBlock = true → value.map Line.row = writtenRows step (c + step) v) ∧
      rest.map Line.row = writtenEntries step c es ∧
      readEntries c ls = do
        let w ← (if v.isBlock then readBelow value else .ok v.unsignZeros)
        let fs ← readEntries c rest
        return (k, w) :: fs := by
  have hentries := layout_writtenEntries hstep es c
  rw [writtenEntries] at hls
  cases hblock : v.isBlock with
  | true =>
    rw [hblock] at hls
    have hdeep : ∀ r ∈ writtenRows step (c + step) v, c < r.column := fun r hr =>
      Nat.lt_of_lt_of_le (by omega) ((layout_writtenRows hstep v (c + step)).columns r hr)
    obtain ⟨value, rest, hvalue, hr, hread⟩ := readEntries_under hkey
      (fun r hr => Or.inl (hdeep r hr)) (Or.inl hdeep) hentries.stops hls
    rw [String.ofList_toList] at hread
    exact ⟨value, rest, fun _ => hvalue, hr, hread⟩
  | false =>
    rw [hblock] at hls
    obtain ⟨rest, hr, hread⟩ := readEntries_behind (n := 0) hkey hblock
      (fun r hr => (hentries.stops r hr).1) hls
    rw [String.ofList_toList] at hread
    exact ⟨[], rest, fun h => absurd h (by decide), hr, hread⟩

/-- Entries that are read have the keys that were written, in their order, and none of them is
    misread.  Since the keys written are distinct, so are those that are read, and no entry is put
    over another one. -/
theorem keys_of_readEntries {step : Nat} (hstep : 0 < step) {es : Entries} {c : Nat}
    {ls : List Line} (hls : ls.map Line.row = writtenEntries step c es) {fs : Entries}
    (h : readEntries c ls = .ok fs) :
    (∀ e ∈ es, ¬ MisreadKey e.1.toList) ∧ Entries.keys fs = Entries.keys es := by
  induction es generalizing ls fs with
  | nil =>
    obtain rfl := List.map_eq_nil_iff.1 hls
    rw [readEntries] at h
    cases h
    exact ⟨by simp, rfl⟩
  | cons e es ih =>
    obtain ⟨k, v⟩ := e
    have hkey : ¬ MisreadKey k.toList := fun hkey => readEntries_misreadKey hkey hls fs h
    obtain ⟨value, rest, -, hr, hread⟩ := readEntries_writtenEntries_cons hstep hkey hls
    rw [hread] at h
    obtain ⟨w, -, h⟩ := bind_eq_ok.1 h
    obtain ⟨gs, hgs, h⟩ := bind_eq_ok.1 h
    cases h
    obtain ⟨hkeys, heq⟩ := ih hr hgs
    exact ⟨List.forall_mem_cons.2 ⟨hkey, hkeys⟩, congrArg (k :: ·) heq⟩

/-- Entries are read as equal entries when the blocks below their keys are and no key is misread.
    The induction is on the entries, and both forms of an entry are one case of it. -/
theorem readEntries_writtenEntries {step : Nat} (hstep : 0 < step) {es : Entries}
    (h : ∀ e ∈ es, RoundTrips step e.2) (hdistinct : ∀ e ∈ es, e.2.DistinctKeys) {c : Nat}
    {ls : List Line} (hls : ls.map Line.row = writtenEntries step c es) (fs : Entries) :
    (readEntries c ls = .ok fs ∧ SameEntries fs es) ↔
      (∀ e ∈ es, ¬ MisreadKey e.1.toList ∧ (e.2.isBlock = true → ReadsBack e.2)) ∧
        fs = unsignEntries es := by
  induction es generalizing ls fs with
  | nil =>
    obtain rfl := List.map_eq_nil_iff.1 hls
    rw [readEntries]
    constructor
    · rintro ⟨hread, -⟩
      cases hread
      exact ⟨by simp, rfl⟩
    · rintro ⟨-, rfl⟩
      exact ⟨rfl, .nil⟩
  | cons e es ih =>
    obtain ⟨k, v⟩ := e
    rw [List.forall_mem_cons] at h hdistinct
    rw [List.forall_mem_cons]
    by_cases hkey : MisreadKey k.toList
    · constructor
      · rintro ⟨hread, -⟩
        exact absurd hread (readEntries_misreadKey hkey hls fs)
      · rintro ⟨⟨⟨hkey', -⟩, -⟩, -⟩
        exact absurd hkey hkey'
    obtain ⟨value, rest, hvalue, hr, hread⟩ := readEntries_writtenEntries_cons hstep hkey hls
    -- what is read for the value, whether it stands below its key or behind it
    have hfirst : ∀ w, ((if v.isBlock then readBelow value else .ok v.unsignZeros) = .ok w ∧
        w.same v = true) ↔ ((v.isBlock = true → ReadsBack v) ∧ w = v.unsignZeros) := by
      intro w
      cases hblock : v.isBlock with
      | true => simpa using h.1 (c + step) value (hvalue hblock) w
      | false =>
        constructor
        · rintro ⟨hw, -⟩
          exact ⟨by simp, (Except.ok.inj hw).symm⟩
        · rintro ⟨-, rfl⟩
          exact ⟨rfl, same_unsignZeros hdistinct.1⟩
    have hothers := ih h.2 hdistinct.2 hr
    rw [hread]
    constructor
    · rintro ⟨hread, hsame⟩
      obtain ⟨w, hw, hread⟩ := bind_eq_ok.1 hread
      obtain ⟨gs, hgs, hread⟩ := bind_eq_ok.1 hread
      cases hread
      obtain ⟨⟨-, hsame⟩, hsames⟩ := List.forall₂_cons.1 hsame
      obtain ⟨hback, rfl⟩ := (hfirst w).1 ⟨hw, hsame⟩
      obtain ⟨hbacks, rfl⟩ := (hothers gs).1 ⟨hgs, hsames⟩
      exact ⟨⟨⟨hkey, hback⟩, hbacks⟩, rfl⟩
    · rintro ⟨⟨⟨-, hback⟩, hbacks⟩, rfl⟩
      obtain ⟨hw, hsame⟩ := (hfirst v.unsignZeros).2 ⟨hback, rfl⟩
      obtain ⟨hgs, hsames⟩ := (hothers (unsignEntries es)).2 ⟨hbacks, rfl⟩
      rw [hw, hgs]
      exact ⟨rfl, .cons ⟨rfl, hsame⟩ hsames⟩

/-- A mapping makes the round trip when its values do and none of its keys is misread.  Where the
    first key is misread the rows are no entries at all, and a scalar is read: it has another kind,
    so it is not equal to a mapping. -/
theorem roundTrips_mapping {step : Nat} (hstep : 0 < step) {es : Entries} (hne : es ≠ [])
    (hnodup : (Entries.keys es).Nodup) (hdistinct : ∀ e ∈ es, e.2.DistinctKeys)
    (h : ∀ e ∈ es, RoundTrips step e.2) : RoundTrips step (.mapping es) := by
  intro c ls hls w
  have hlayout := layout_writtenRows hstep (.mapping es) c
  obtain ⟨l, rest, rfl⟩ := hlayout.exists_cons hls
  rw [writtenRows_mapping hne] at hls
  have hentries := layout_writtenEntries hstep es c
  obtain ⟨hcolumn, hitem⟩ := forall_head?_of_map_row hls hentries.head l rfl
  have hread := readEntries_writtenEntries hstep h hdistinct hls
  have hblock : Value.isBlock (.mapping es) = true := by simpa [isBlock] using hne
  rw [readBelow_cons, readsBack_mapping]
  constructor
  · rintro ⟨hw, hsame⟩
    cases hentry : keyLine? l.text with
    | none =>
      -- the first key is misread, and a scalar stands where the mapping was
      rw [readBlock_of_scalar hitem hentry] at hw
      have hscalar := isBlock_of_readScalarLines hw
      rw [isBlock_eq_of_same hsame, hblock] at hscalar
      cases hscalar
    | some k =>
      rw [readBlock_of_entry hitem (by rw [hentry]; rfl), show l.indent = c from hcolumn] at hw
      obtain ⟨fs, hfs, rfl⟩ := map_eq_ok.1 hw
      -- the keys that were read are those that were written, so gathering changes nothing
      obtain ⟨-, hkeys⟩ := keys_of_readEntries hstep hls hfs
      rw [Entries.ofPairs_of_nodup (hkeys ▸ hnodup)] at hsame ⊢
      obtain ⟨hback, rfl⟩ := (hread fs).1 ⟨hfs, (same_mapping_iff hkeys hnodup).1 hsame⟩
      exact ⟨hback, rfl⟩
  · rintro ⟨hback, rfl⟩
    obtain ⟨hfs, hsame⟩ := (hread (unsignEntries es)).2 ⟨hback, rfl⟩
    have hentry := forall_head?_of_map_row hls
      (hentries.head_entry fun e he => (hback e he).1) l rfl
    have hkeys := keys_unsignEntries es
    rw [readBlock_of_entry hitem hentry, show l.indent = c from hcolumn, hfs]
    have hgather := Entries.ofPairs_of_nodup (hkeys ▸ hnodup)
    exact ⟨congrArg (fun fs => Except.ok (mapping fs)) hgather,
      (same_mapping_iff hkeys hnodup).2 hsame⟩

/-! ## Documents

  What is read has distinct keys, so every document that was read falls under the induction.  The
  step of the writer does not matter, as the reader only compares columns. -/

/-- Every value with distinct keys makes the round trip exactly when no text in it is misread.  By
    induction on the value; an empty collection is a text on one line, and so it belongs to the
    scalars. -/
theorem roundTrips {step : Nat} (hstep : 0 < step) {v : Value} (h : v.DistinctKeys) :
    RoundTrips step v := by
  induction v using Value.induct with
  | sequence items ih =>
    by_cases hne : items = []
    · subst hne
      exact roundTrips_scalar rfl step
    · have hdistinct := distinctKeys_sequence.1 h
      exact roundTrips_sequence hstep hne fun v hv => ih v hv (hdistinct v hv)
  | mapping es ih =>
    by_cases hne : es = []
    · subst hne
      exact roundTrips_scalar rfl step
    · obtain ⟨hnodup, hdistinct⟩ := distinctKeys_mapping.1 h
      exact roundTrips_mapping hstep hne hnodup hdistinct fun e he => ih e he (hdistinct e he)
  | _ => exact roundTrips_scalar rfl step

/-- What the text of a value is read as: the value with its zeros unsigned if no text in it is
    misread, and else nothing that is equal to it. -/
theorem readChars_chars_iff {v : Value} (h : v.DistinctKeys) (step : Nat) (w : Value) :
    (readChars (chars step v) = .ok w ∧ w.same v = true) ↔ (ReadsBack v ∧ w = v.unsignZeros) := by
  have hstep := zero_lt_max_one step
  rw [readChars_chars]
  exact roundTrips hstep h 0 _ (map_row_significantLines_chars step v) w

/-- **The round trip of documents.** A document that was read is equal to what its text is read as,
    at whatever step it is written, exactly when no text in it is misread. -/
theorem roundTrip_iff {text : List Char} {v : Value} (h : readChars text = .ok v) (step : Nat) :
    (∃ w, readChars (chars step v) = .ok w ∧ w.same v = true) ↔ ReadsBack v := by
  have hiff := readChars_chars_iff (distinctKeys_of_readChars h) step
  constructor
  · rintro ⟨w, hw⟩
    exact ((hiff w).1 hw).1
  · intro hback
    exact ⟨v.unsignZeros, (hiff v.unsignZeros).2 ⟨hback, rfl⟩⟩

/-- A document with a number and with strings that have to be quoted makes the round trip. -/
theorem roundTrip_iff_quoted :
    let v : Value := .mapping [("a", .number ⟨true, 150, 2, by decide, by decide⟩),
      ("b: c", .sequence [.string "d: e", .sequence [.string "true"]])]
    readChars "'a': -1.50\n\"b: c\":\n- 'd: e'\n- - \"true\"".toList = .ok v ∧
      ReadsBack v ∧ ∃ w, readChars (chars 3 v) = .ok w ∧ w.same v = true := by
  intro v
  let a : Line := ⟨1, 0, "'a': -1.50".toList⟩
  let b : Line := ⟨2, 0, "\"b: c\":".toList⟩
  let d : Line := ⟨3, 0, "- 'd: e'".toList⟩
  let t : Line := ⟨4, 0, "- - \"true\"".toList⟩
  let inner : Line := ⟨4, 2, "- \"true\"".toList⟩
  have hlines : significantLines "'a': -1.50\n\"b: c\":\n- 'd: e'\n- - \"true\"".toList =
      [a, b, d, t] := by decide
  -- the lines are read from the last to the first, each with what stands behind it
  have hinner : readItems 2 [inner] = .ok [.string "true"] := by
    rw [readItems_cons (l := inner) rfl (by decide)]
    show (do
      let v ← readBelow [⟨4, 4, "\"true\"".toList⟩]
      let vs ← readItems 2 []
      return v :: vs) = _
    rw [readItems_nil, readBelow_cons, readBlock_of_scalar (by decide) (by decide)]
    rfl
  have ht : readItems 0 [t] = .ok [.sequence [.string "true"]] := by
    rw [readItems_cons (l := t) rfl (by decide)]
    show (do
      let v ← readBelow [inner]
      let vs ← readItems 0 []
      return v :: vs) = _
    rw [readItems_nil, readBelow_cons, readBlock_of_item (by decide), hinner]
    rfl
  have hd : readItems 0 [d, t] = .ok [.string "d: e", .sequence [.string "true"]] := by
    rw [readItems_cons (l := d) rfl (by decide)]
    show (do
      let v ← readBelow [⟨3, 2, "'d: e'".toList⟩]
      let vs ← readItems 0 [t]
      return v :: vs) = _
    rw [ht, readBelow_cons, readBlock_of_scalar (by decide) (by decide)]
    rfl
  have hb : readEntries 0 [b, d, t] =
      .ok [("b: c", .sequence [.string "d: e", .sequence [.string "true"]])] := by
    rw [readEntries_cons]
    show (do
      let v ← readBelow [d, t]
      let es ← readEntries 0 []
      return ("b: c", v) :: es) = _
    rw [readEntries_nil, readBelow_cons, readBlock_of_item (by decide), hd]
    rfl
  have hread : readChars "'a': -1.50\n\"b: c\":\n- 'd: e'\n- - \"true\"".toList = .ok v := by
    rw [readChars, hlines]
    show readBlock a [b, d, t] = _
    rw [readBlock_of_entry (by decide) (by decide), readEntries_cons]
    show Except.map _ (do
      let v ← readScalarLines 1 ["-1.50".toList]
      let es ← readEntries 0 [b, d, t]
      return ("a", v) :: es) = _
    rw [hb]
    rfl
  have hkeys : v.EveryKey fun k => AsciiBlanks k.toList ∧ k.toList.head? ≠ some ']' ∧
      k.toList.head? ≠ some '}' := by
    simp [v, EveryKey, Throughout, descendants, itemDescendants, entryDescendants, Entries.keys,
      AsciiBlanks, or_imp, forall_and]
  have helements : v.Throughout fun w =>
      ∀ items, w = .sequence items → ∀ s, .string s ∈ items → AsciiBlanks s.toList := by
    simp [v, Throughout, descendants, itemDescendants, entryDescendants, AsciiBlanks]
  have hback : ReadsBack v := by
    refine ⟨hkeys.mono ?_, by simp [v], fun w hw items heq s hs => ?_⟩
    · rintro k ⟨hascii, hbracket, hbrace⟩
      exact not_misreadKey hascii hbracket hbrace
    · exact not_misreadString (helements w hw items heq s hs)
  exact ⟨hread, hback, (roundTrip_iff hread 3).2 hback⟩

/-- Two documents that do not make the round trip: a key that is a closing bracket, and an element
    with a blank beyond ASCII behind its colon, both written bare. -/
theorem roundTrip_fails_bare :
    let v : Value := .mapping [("]", .number ⟨false, 1, 0, by decide, by decide⟩)]
    let w : Value := .sequence [.string "a:\u00a0b"]
    (readChars "\"]\": 1".toList = .ok v ∧
      ¬ ∃ u, readChars (chars 2 v) = .ok u ∧ u.same v = true) ∧
    (readChars "- \"a:\u00a0b\"".toList = .ok w ∧
      ¬ ∃ u, readChars (chars 2 w) = .ok u ∧ u.same w = true) := by
  intro v w
  have hv : readChars "\"]\": 1".toList = .ok v := by
    have hline : significantLines "\"]\": 1".toList = [⟨1, 0, "\"]\": 1".toList⟩] := by decide
    have hentry : keyLine? "\"]\": 1".toList = some ⟨"\"]\"".toList, some ['1']⟩ := by decide
    rw [readChars, hline, readLines_entry rfl hentry rfl]
    rfl
  have hw : readChars "- \"a:\u00a0b\"".toList = .ok w := by
    let l : Line := ⟨1, 0, "- \"a:\u00a0b\"".toList⟩
    have hline : significantLines "- \"a:\u00a0b\"".toList = [l] := by decide
    rw [readChars, hline]
    show readBlock l [] = _
    rw [readBlock_of_item (by decide), readItems_cons rfl (by decide)]
    show Except.map _ (do
      let v ← readBelow [⟨1, 2, "\"a:\u00a0b\"".toList⟩]
      let vs ← readItems 0 []
      return v :: vs) = _
    rw [readItems_nil, readBelow_cons, readBlock_of_scalar (by decide) (by decide)]
    rfl
  refine ⟨⟨hv, ?_⟩, hw, ?_⟩
  · rintro ⟨u, hu⟩
    obtain ⟨hback, -⟩ := (readChars_chars_iff (distinctKeys_of_readChars hv) 2 u).1 hu
    have hkey : MisreadKey [']'] := ⟨by decide, Or.inl rfl⟩
    exact (everyKey_mapping.1 hback.keys _ List.mem_cons_self).1 hkey
  · rintro ⟨u, hu⟩
    obtain ⟨hback, -⟩ := (readChars_chars_iff (distinctKeys_of_readChars hw) 2 u).1 hu
    have hstring : MisreadString "a:\u00a0b".toList :=
      ⟨by decide, rfl, ['a'], '\u00a0', ['b'], rfl, by decide, by decide⟩
    exact (readsBack_sequence.1 hback _ List.mem_cons_self).document _ rfl hstring

end BlockQuery.Block

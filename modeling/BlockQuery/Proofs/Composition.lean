/-
  Block text is read part by part.

  The reader looks for the end of an element or an entry among the lines behind it, so the lines of
  one part could be taken for lines of the part before.  They are not when the second part starts
  no deeper than the column of the first, and behind entries with no element: then every cut falls
  where it fell in the first part alone (`readItems_join`, `readEntries_join`).  Below a dash or a
  key, a text that is read on its own is owned as a whole (`ownedBelow_of_readLines`).

  A block is cut by recursion on its rounds, and a round leaves what is behind a run of lines,
  whichever run that is.  So the inductions here are not on the length of the lines but on what a
  round may leave (`rounds_induction`), and the second part stays behind everything that is left.
  Lines of a text that stands elsewhere have other numbers and columns; `PlacedAlike` takes these
  away before anything else is said.
-/
import BlockQuery.Proofs.Entries
import BlockQuery.Proofs.RelativeLayout

namespace BlockQuery.Block

open Text

variable {c : Nat} {ls ms : List Line}

/-! ## Lines behind lines

  A cut takes lines as long as they belong, and it must not run into the second part.  The condition
  is on its first line only: it stops the cut, and what comes behind it is not looked at. -/

/-- What holds of lines when it holds of all that may be left behind the first holds of all lines.
    A round leaves the lines behind some run, and which run it is depends on what was read, so the
    hypothesis is there for every run. -/
@[elab_as_elim]
theorem rounds_induction {P : List Line → Prop} (done : P [])
    (round : ∀ l rest, (∀ p, P (rest.dropWhile p)) → P (l :: rest)) (ls : List Line) : P ls := by
  induction hn : ls.length using Nat.strong_induction_on generalizing ls with
  | _ n ih =>
    cases ls with
    | nil => exact done
    | cons l rest =>
      refine round l rest fun p => ih _ ?_ _ rfl
      rw [← hn, List.length_cons]
      exact Nat.lt_succ_of_le (List.dropWhile_suffix p).length_le

/-- Elements in front of lines that are not deeper are read on their own.  By induction on the
    rounds: the run of deeper lines ends at the second part if it gets there, and so it is the same
    run as before. -/
theorem readItems_join (hms : ∀ m ∈ ms.head?, m.indent ≤ c) (ls : List Line) :
    readItems c (ls ++ ms) = do
      let vs ← readItems c ls
      let ws ← readItems c ms
      return vs ++ ws := by
  induction ls using rounds_induction with
  | done =>
    rw [List.nil_append, show readItems c [] = .ok [] by rw [readItems]]
    cases readItems c ms <;> rfl
  | round l rest ih =>
    have hstop : ∀ m ∈ ms.head?, isDeeper c m = false := fun m hm =>
      isDeeper_eq_false_iff.2 (hms m hm)
    rw [List.cons_append]
    by_cases hcolumn : l.indent = c
    · by_cases hitem : isItem l.text = true
      · rw [readItems_cons hcolumn hitem, readItems_cons hcolumn hitem,
          takeWhile_append_of_head? hstop, dropWhile_append_of_head? hstop, ih]
        simp only [bind_assoc, pure_bind, List.cons_append]
      · rw [readItems_of_not_item hcolumn hitem, readItems_of_not_item hcolumn hitem]
        rfl
    · rw [readItems_of_indent_ne hcolumn, readItems_of_indent_ne hcolumn]
      rfl

/-- Lines that do not go on with an entry do not change what belongs to it.  What belongs below a
    key is decided by the first line there, so the case in which nothing is left of the first part
    has to be looked at too. -/
theorem belongsBelow_append
    (hms : ∀ m ∈ ms.head?, m.indent ≤ c ∧ (m.indent = c → isItem m.text = false))
    (rest : List Line) :
    (rest ++ ms).takeWhile (belongsBelow c (rest ++ ms)) = rest.takeWhile (belongsBelow c rest) ∧
      (rest ++ ms).dropWhile (belongsBelow c (rest ++ ms)) =
        rest.dropWhile (belongsBelow c rest) ++ ms := by
  have hstop : ∀ m ∈ ms.head?, belongsBelow c (rest ++ ms) m = false := fun m hm =>
    belongsBelow_eq_false (hms m hm).1 (hms m hm).2 _
  rw [takeWhile_append_of_head? hstop, dropWhile_append_of_head? hstop]
  cases rest with
  | nil => exact ⟨rfl, rfl⟩
  | cons r rest => exact ⟨rfl, rfl⟩

/-- Entries in front of lines that are not deeper and start with no element are read on their own.
    An element in the same column would be taken for a part of the last entry. -/
theorem readEntries_join
    (hms : ∀ m ∈ ms.head?, m.indent ≤ c ∧ (m.indent = c → isItem m.text = false))
    (ls : List Line) :
    readEntries c (ls ++ ms) = do
      let es ← readEntries c ls
      let fs ← readEntries c ms
      return es ++ fs := by
  induction ls using rounds_induction with
  | done =>
    rw [List.nil_append, show readEntries c [] = .ok [] by rw [readEntries]]
    cases readEntries c ms <;> rfl
  | round l rest ih =>
    have hstop : ∀ m ∈ ms.head?, isDeeper c m = false := fun m hm =>
      isDeeper_eq_false_iff.2 (hms m hm).1
    have hbelongs := belongsBelow_append hms rest
    rw [List.cons_append, readEntries_cons, readEntries_cons, takeWhile_append_of_head? hstop,
      dropWhile_append_of_head? hstop, hbelongs.1, hbelongs.2, ih, ih]
    -- a line that is no entry is an error on both sides
    split
    · rfl
    split
    · rfl
    split
    · rfl
    split
    · rfl
    split <;> simp only [bind_assoc, pure_bind, List.cons_append]

/-- Lines that are read as elements are deeper than the column of the elements, or elements in it.
    So a sequence as a whole may stand below a key in the column of the key. -/
theorem belongs_of_readItems {vs : List Value} (h : readItems c ls = .ok vs) :
    ∀ l ∈ ls, c < l.indent ∨ (l.indent = c ∧ isItem l.text = true) := by
  induction ls using rounds_induction generalizing vs with
  | done => simp
  | round l rest ih =>
    obtain ⟨hcolumn, hitem, v, ws, -, hws, -⟩ := readItems_eq_ok h
    rw [List.forall_mem_cons]
    refine ⟨Or.inr ⟨hcolumn, hitem⟩, fun m hm => ?_⟩
    -- the lines of the first element, and those behind it
    rw [← List.takeWhile_append_dropWhile (p := isDeeper c) (l := rest)] at hm
    rcases List.mem_append.1 hm with hm | hm
    · exact Or.inl (isDeeper_iff.1 (List.mem_takeWhile_imp hm))
    · exact ih _ hws m hm

/-! ## What a document says of its lines

  That a text is read as a sequence or a mapping with something in it says what its lines are:
  elements or entries in the column of the first line, and no line left of it. -/

/-- The lines of a document are one block, and none stands left of the first.  The second part is
    checked before anything is read. -/
theorem readLines_eq_ok {v : Value} :
    readLines ls = .ok v ↔
      readBelow ls = .ok v ∧ ∀ first ∈ ls.head?, ∀ l ∈ ls, first.indent ≤ l.indent := by
  cases ls with
  | nil => rw [readLines, readBelow]; simp
  | cons first rest =>
    rw [readLines, readBelow_cons]
    cases hfind : rest.find? fun l => l.indent < first.indent with
    | some l =>
      have hlt : l.indent < first.indent := by simpa using List.find?_some hfind
      have hmem := List.mem_of_find?_eq_some hfind
      constructor
      · intro h
        cases h
      · intro h
        exact absurd (h.2 first rfl l (List.mem_cons_of_mem _ hmem)) (Nat.not_le.2 hlt)
    | none =>
      rw [List.find?_eq_none] at hfind
      have hall : ∀ l ∈ rest, first.indent ≤ l.indent := by simpa using hfind
      simpa using fun _ => hall

/-- A sequence with elements is read from elements in the column of the first line. -/
theorem readItems_of_readLines {vs : List Value} (h : readLines ls = .ok (.sequence vs))
    (hvs : vs ≠ []) :
    ∃ l rest, ls = l :: rest ∧ isItem l.text = true ∧ readItems l.indent ls = .ok vs := by
  have hbelow := (readLines_eq_ok.1 h).1
  cases ls with
  | nil =>
    rw [readBelow] at hbelow
    cases hbelow
  | cons l rest =>
    refine ⟨l, rest, rfl, ?_⟩
    rw [readBelow_cons, readBlock] at hbelow
    split at hbelow
    · rename_i hitem
      obtain ⟨ws, hws, hw⟩ := map_eq_ok.1 hbelow
      exact ⟨hitem, Value.sequence.inj hw ▸ hws⟩
    split at hbelow
    · obtain ⟨es, -, hes⟩ := map_eq_ok.1 hbelow
      cases hes
    · -- a scalar text is no sequence with elements
      have hscalar := isBlock_of_readScalarLines hbelow
      simp [Value.isBlock, hvs] at hscalar

/-- A mapping with entries is read from entries in the column of the first line. -/
theorem readEntries_of_readLines {es : List (String × Value)}
    (h : readLines ls = .ok (.mapping es)) (hes : es ≠ []) :
    ∃ l rest pairs, ls = l :: rest ∧ isItem l.text = false ∧ (keyLine? l.text).isSome = true ∧
      readEntries l.indent ls = .ok pairs ∧ Entries.ofPairs pairs = es := by
  have hbelow := (readLines_eq_ok.1 h).1
  cases ls with
  | nil =>
    rw [readBelow] at hbelow
    cases hbelow
  | cons l rest =>
    rw [readBelow_cons, readBlock] at hbelow
    split at hbelow
    · obtain ⟨ws, -, hws⟩ := map_eq_ok.1 hbelow
      cases hws
    split at hbelow
    · rename_i hitem hentry
      obtain ⟨pairs, hpairs, hp⟩ := map_eq_ok.1 hbelow
      exact ⟨l, rest, pairs, rfl, by simpa using hitem, hentry, hpairs, Value.mapping.inj hp⟩
    · have hscalar := isBlock_of_readScalarLines hbelow
      simp [Value.isBlock, hes] at hscalar

/-! ## Texts and their lines

  A marker in front of the second text would stand in the middle of the joined text, where it is no
  marker any more.  So the second text has none, and then its lines are those of its pieces. -/

/-- Whether a piece of a text is a marker, up to blanks around it.  At the start of a text a marker
    is skipped, and anywhere else it is a line like others. -/
def HasMarkerLine (t : List Char) : Prop :=
  ∃ p ∈ pieces t, trim p = marker

instance (t : List Char) : Decidable (HasMarkerLine t) :=
  inferInstanceAs (Decidable (∃ p ∈ pieces t, trim p = marker))

/-- A line with the text of a marker is made by a piece that is one. -/
theorem trim_eq_marker {p : List Char} {number : Nat} {l : Line} (hl : line? p number = some l)
    (htext : l.text = marker) : trim p = marker := by
  have hcontent : withoutIndent (trimEnd p) = marker := by
    simp only [line?] at hl
    split at hl
    · cases hl
    · rw [← htext, ← Option.some.inj hl]
  obtain ⟨blanks, hp, hblanks⟩ := exists_trimEnd_append p
  have hspaces : ∀ c ∈ leadingSpaces (trimEnd p), isBlank c = true := by
    intro c hc
    obtain rfl : c = ' ' := by simpa using List.mem_takeWhile_imp hc
    exact isBlank_space
  have hsplit : p = leadingSpaces (trimEnd p) ++ (marker ++ blanks) := by
    rw [← hcontent, ← List.append_assoc, leadingSpaces, withoutIndent,
      List.takeWhile_append_dropWhile, ← hp]
  rw [hsplit, trim, trimStart_blanks_append (startsTight_of_head? rfl (by decide)) hspaces,
    trimEnd_append_blanks (trimmed_of_no_blank (by decide)).2 hblanks]

/-- Without markers every line counts. -/
theorem head_ne_marker {t : List Char} (h : ¬ HasMarkerLine t) (number : Nat) :
    ∀ l ∈ (linesOf number (pieces t)).head?, (l.text == marker) = false := by
  intro l hl
  obtain ⟨⟨p, k⟩, hmem, hline⟩ := List.mem_filterMap.1 (List.mem_of_mem_head? hl)
  have hne : l.text ≠ marker := fun htext =>
    h ⟨p, List.fst_mem_of_mem_zipIdx hmem, trim_eq_marker hline htext⟩
  simpa using hne

/-- Without markers the significant lines are all lines. -/
theorem significantLines_of_not_hasMarkerLine {t : List Char} (h : ¬ HasMarkerLine t) :
    significantLines t = linesOf 1 (pieces t) := by
  rw [significantLines_eq]
  exact dropWhile_eq_self_iff_head?.2 (head_ne_marker h 1)

/-- The lines of two texts, one after the other.  The second text keeps its columns, and its lines
    are counted on from those of the first. -/
theorem significantLines_append (t₁ : List Char) {t₂ : List Char} (h : ¬ HasMarkerLine t₂) :
    significantLines (t₁ ++ '\n' :: t₂) = significantLines t₁ ++
      (significantLines t₂).map (Line.placed 0 (· + (pieces t₁).length)) := by
  rw [significantLines_eq, pieces_append_newline, linesOf_append,
    dropWhile_append_of_head? (head_ne_marker h _), ← significantLines_eq, linesOf_add,
    significantLines_of_not_hasMarkerLine h]

/-- The lines of a text that stands, moved to the right, below one line.  Lines without content are
    moved too, and count for nothing in either place. -/
theorem significantLines_under {p t : List Char} {l : Line} (hp : '\n' ∉ p)
    (hl : line? p 1 = some l) (hmarker : l.text ≠ marker) (h : ¬ HasMarkerLine t) (n : Nat) :
    significantLines (p ++ '\n' :: indented n t) =
      l :: (significantLines t).map (Line.placed n (· + 1)) := by
  have hplaced : Line.placed n id ∘ Line.placed 0 (· + 1) = Line.placed n (· + 1) := rfl
  have hhead : (l.text == marker) = false := by simpa using hmarker
  rw [significantLines_eq, pieces_append hp, linesOf_cons, hl, Option.toList_some,
    List.singleton_append, List.dropWhile_cons_of_neg (by simpa using hmarker),
    linesOf_pieces_indented, linesOf_add, List.map_map, hplaced,
    significantLines_of_not_hasMarkerLine h]

/-! ## One document below another

  Two texts that start in one column have their elements, or their entries, in that column.  The
  keys of the two mappings may overlap; all entries are gathered in one go. -/

section Below

variable {d : Nat}

/-- A document behind another that starts in the same column is one block with it. -/
theorem readLines_append {v w : Value}
    (hcolumn : ls.head?.map Line.indent = ms.head?.map Line.indent)
    (hls : readLines ls = .ok v) (hms : readLines ms = .ok w) :
    readLines (ls ++ ms.map (Line.placed 0 (· + d))) =
      readBelow (ls ++ ms.map (Line.placed 0 (· + d))) := by
  cases ls with
  | nil =>
    obtain rfl : ms = [] := by simpa using hcolumn.symm
    rw [List.map_nil, List.append_nil, readLines, readBelow]
  | cons l ls =>
    obtain ⟨m, hm, hindent⟩ := Option.map_eq_some_iff.1 hcolumn.symm
    have hleft := (readLines_eq_ok.1 hls).2 l rfl
    have hleft' := (readLines_eq_ok.1 hms).2 m hm
    refine readLines_eq_readBelow (c := l.indent) (by simp) ?_
    rw [List.forall_mem_append, List.forall_mem_map]
    exact ⟨hleft, fun k hk => hindent ▸ hleft' k hk⟩

/-- A sequence goes on with the elements of a sequence below it. -/
theorem readLines_append_sequence {a b : List Value} (ha : a ≠ []) (hb : b ≠ [])
    (hcolumn : ls.head?.map Line.indent = ms.head?.map Line.indent)
    (hls : readLines ls = .ok (.sequence a)) (hms : readLines ms = .ok (.sequence b)) :
    readLines (ls ++ ms.map (Line.placed 0 (· + d))) = .ok (.sequence (a ++ b)) := by
  obtain ⟨l, ls, rfl, hitem, hitems⟩ := readItems_of_readLines hls ha
  obtain ⟨m, ms, rfl, -, hbehind⟩ := readItems_of_readLines hms hb
  have hindent : l.indent = m.indent := by simpa using hcolumn
  have hplaced := (placedAlike (k := 0) (ρ := (· + d)) (m :: ms)).items m.indent
  rw [Nat.add_zero, hbehind] at hplaced
  have hstop : ∀ n ∈ ((m :: ms).map (Line.placed 0 (· + d))).head?, n.indent ≤ l.indent := by
    simp [hindent]
  have hjoin := readItems_join hstop (l :: ls)
  rw [hitems, hindent, hplaced] at hjoin
  rw [readLines_append hcolumn hls hms, List.cons_append, readBelow_cons,
    readBlock_of_item hitem, hindent, ← List.cons_append, hjoin]
  rfl

/-- A mapping is extended by the entries of a mapping below it.  Both sides gather their entries,
    the one in two goes and the other in one, and a key that comes again has its later value in its
    first place either way. -/
theorem readLines_append_mapping {es fs : List (String × Value)} (hes : es ≠ []) (hfs : fs ≠ [])
    (hcolumn : ls.head?.map Line.indent = ms.head?.map Line.indent)
    (hls : readLines ls = .ok (.mapping es)) (hms : readLines ms = .ok (.mapping fs)) :
    readLines (ls ++ ms.map (Line.placed 0 (· + d))) = .ok (.mapping (Entries.extend es fs)) := by
  obtain ⟨l, ls, pairs, rfl, hitem, hentry, hpairs, rfl⟩ := readEntries_of_readLines hls hes
  obtain ⟨m, ms, more, rfl, hnext, -, hmore, rfl⟩ := readEntries_of_readLines hms hfs
  have hindent : l.indent = m.indent := by simpa using hcolumn
  have hplaced := (placedAlike (k := 0) (ρ := (· + d)) (m :: ms)).entries m.indent
  rw [Nat.add_zero, hmore] at hplaced
  have hstop : ∀ n ∈ ((m :: ms).map (Line.placed 0 (· + d))).head?,
      n.indent ≤ l.indent ∧ (n.indent = l.indent → isItem n.text = false) := by
    simp [hindent, hnext]
  have hjoin := readEntries_join hstop (l :: ls)
  rw [hpairs, hindent, hplaced] at hjoin
  rw [readLines_append hcolumn hls hms, List.cons_append, readBelow_cons,
    readBlock_of_entry hitem hentry, hindent, ← List.cons_append, hjoin, ← Entries.ofPairs_append]
  rfl

end Below

/-! ## A document below a dash or a key

  Below a dash or a key the lines are a block of their own, which is read as the document was.  A
  sequence below a key may stay in the column of the key, since its elements belong to the key
  there. -/

section Under

variable {n : Nat} {ρ : Nat → Nat} {v : Value} {l : Line}

/-- What is read below a line is what is read of the text alone: neither the numbers of the lines
    nor a common shift of their columns show in a value. -/
theorem readBelow_of_readLines (h : readLines ls = .ok v) (n : Nat) (ρ : Nat → Nat) :
    readBelow (ls.map (Line.placed n ρ)) = .ok v := by
  rw [(placedAlike ls).below, (readLines_eq_ok.1 h).1]
  rfl

/-- A line in the first column stands left of all others. -/
theorem readLines_under (hl : l.indent = 0) (ls : List Line) :
    readLines (l :: ls) = readBlock l ls := by
  rw [readLines_eq_readBelow (c := 0) (by simpa using hl) (by simp), readBelow_cons]

/-- Lines that are moved to the right are deeper than the first column. -/
theorem deep_of_placed (hn : 1 ≤ n) (ls : List Line) :
    ∀ m ∈ ls.map (Line.placed n ρ), 0 < m.indent := by
  rw [List.forall_mem_map]
  intro m _
  rw [indent_placed]
  omega

/-- A document, moved to the right, below a dash is the only element.  All of its lines are deeper
    than the dash, so all of them belong to it. -/
theorem readLines_dash (hl : l.indent = 0) (htext : l.text = ['-']) (hn : 1 ≤ n)
    (h : readLines ls = .ok v) :
    readLines (l :: ls.map (Line.placed n ρ)) = .ok (.sequence [v]) := by
  have hitem : isItem l.text = true := by rw [htext]; rfl
  have hdash : ∀ below, dashBlock l below = below := by
    intro below
    rw [dashBlock, afterDash, htext]
    rfl
  have hitems := @readItems_append 0 l _ [] hl hitem (deep_of_placed (ρ := ρ) hn ls) (by simp)
  rw [List.append_nil, hdash, readBelow_of_readLines h, show readItems 0 [] = .ok [] by
    rw [readItems]] at hitems
  rw [readLines_under hl, readBlock_of_item hitem, hl, hitems]
  rfl

/-- Below a key stand lines that are moved to the right, or those of a sequence.  In the column of
    the key it is the elements that belong to it, and with them what is deeper. -/
theorem ownedBelow_of_readLines (h : readLines ls = .ok v)
    (hn : 1 ≤ n ∨ ∃ first others, v = .sequence (first :: others)) :
    OwnedBelow 0 (ls.map (Line.placed n ρ)) [] := by
  rcases hn with hn | ⟨first, others, rfl⟩
  · have hdeep : ∀ m ∈ ls.map (Line.placed n ρ), 0 < m.indent := deep_of_placed hn ls
    exact ⟨fun m hm => Or.inl (hdeep m hm), Or.inl hdeep, by simp⟩
  · obtain ⟨l, rest, rfl, -, hitems⟩ := readItems_of_readLines h (by simp)
    have hbelongs := belongs_of_readItems hitems
    have hleft := (readLines_eq_ok.1 h).2 l rfl
    refine ⟨List.forall_mem_map.2 fun m hm => ?_, ?_, by simp⟩
    · rw [indent_placed, text_placed]
      rcases hbelongs m hm with hdeep | ⟨hindent, hitem⟩
      · exact Or.inl (by omega)
      · by_cases hzero : m.indent + n = 0
        · exact Or.inr ⟨hzero, hitem⟩
        · exact Or.inl (by omega)
    · -- either the elements stand in the first column, or all lines are deeper
      by_cases hzero : l.indent + n = 0
      · exact Or.inr (by simp [hzero])
      · refine Or.inl (List.forall_mem_map.2 fun m hm => ?_)
        have hle := hleft m hm
        rw [indent_placed]
        omega

/-- A document below a key is its value. -/
theorem readLines_key {k : KeyLine} {key : List Char} (hl : l.indent = 0)
    (hentry : keyLine? l.text = some k) (hinline : k.inline = none)
    (hkey : readKey? k.key = some key) (h : readLines ls = .ok v)
    (hn : 1 ≤ n ∨ ∃ first others, v = .sequence (first :: others)) :
    readLines (l :: ls.map (Line.placed n ρ)) = .ok (.mapping [(String.ofList key, v)]) := by
  have hitem : isItem l.text = false := (starts_of_keyLine? hentry).2.2
  have hentries := readEntries_below hl hitem hentry hkey hinline
    (ownedBelow_of_readLines (ρ := ρ) h hn)
  rw [List.append_nil, readBelow_of_readLines h, show readEntries 0 [] = .ok [] by
    rw [readEntries]] at hentries
  rw [readLines_under hl, readBlock_of_entry hitem (by rw [hentry]; rfl), hl, hentries]
  rfl

end Under

/-! ## Texts

  The statements about lines are carried over to texts: the lines of the joined text are those of
  the parts, the second part numbered anew. -/

/-- **Block text is read part by part.**  Of two texts that start in one column, the second without
    markers, the second goes on with the sequence or the mapping of the first.  And a text without
    markers that is read on its own is, moved to the right below a dash, the only element, and below
    a key the value of the only entry; a sequence need not be moved to the right for that. -/
theorem readChars_compositional :
    (∀ t₁ t₂ : List Char, ¬ HasMarkerLine t₂ →
      (significantLines t₁).head?.map Line.indent = (significantLines t₂).head?.map Line.indent →
      (∀ a b, a ≠ [] → b ≠ [] →
        readChars t₁ = .ok (.sequence a) → readChars t₂ = .ok (.sequence b) →
          readChars (t₁ ++ '\n' :: t₂) = .ok (.sequence (a ++ b))) ∧
      ∀ es fs, es ≠ [] → fs ≠ [] →
        readChars t₁ = .ok (.mapping es) → readChars t₂ = .ok (.mapping fs) →
          readChars (t₁ ++ '\n' :: t₂) = .ok (.mapping (Entries.extend es fs))) ∧
    ∀ (t : List Char) (v : Value), ¬ HasMarkerLine t → readChars t = .ok v →
      (∀ n, 1 ≤ n → readChars ('-' :: '\n' :: indented n t) = .ok (.sequence [v])) ∧
      ∀ K raw key, '\n' ∉ K → keyLine? (K ++ [':']) = some ⟨raw, none⟩ → readKey? raw = some key →
        ∀ n, (1 ≤ n ∨ ∃ first others, v = .sequence (first :: others)) →
          readChars (K ++ ':' :: '\n' :: indented n t) =
            .ok (.mapping [(String.ofList key, v)]) := by
  refine ⟨fun t₁ t₂ hmarker hcolumn => ⟨?_, ?_⟩, fun t v hmarker hread => ⟨?_, ?_⟩⟩
  · intro a b ha hb ht₁ ht₂
    rw [readChars, significantLines_append t₁ hmarker]
    exact readLines_append_sequence ha hb hcolumn ht₁ ht₂
  · intro es fs hes hfs ht₁ ht₂
    rw [readChars, significantLines_append t₁ hmarker]
    exact readLines_append_mapping hes hfs hcolumn ht₁ ht₂
  · intro n hn
    have hline : line? ['-'] 1 = some ⟨1, 0, ['-']⟩ := by decide
    have hlines := significantLines_under (by decide) hline (by decide) hmarker n
    rw [List.singleton_append] at hlines
    rw [readChars, hlines]
    exact readLines_dash rfl rfl hn hread
  · intro K raw key hK hentry hkey n hn
    obtain ⟨htight, hcomment, -⟩ := starts_of_keyLine? hentry
    have htrimmed : Trimmed (K ++ [':']) := ⟨htight, endsTight_concat K (by decide)⟩
    have hline := @line?_piece ⟨0, K ++ [':']⟩ [] htrimmed (by simp) hcomment (by simp) 1
    have hne : K ++ [':'] ≠ marker := by
      intro h
      have hlast := congrArg List.getLast? h
      simp [marker] at hlast
    have hlines := significantLines_under (p := K ++ [':']) (by simpa using hK)
      (by simpa [Row.piece] using hline) hne hmarker n
    rw [readChars, List.append_cons, hlines]
    exact readLines_key rfl hentry rfl hkey hread hn

/-- A repeated key below a scalar, and a sequence below a key in its own column. -/
theorem readChars_compositional_repeated :
    readChars "a:\n b\na:\n  c".toList = .ok (.mapping [("a", .string "c")]) ∧
      readChars "a:\n-\n b\n-\n c".toList =
        .ok (.mapping [("a", .sequence [.string "b", .string "c"])]) := by
  have hscalar : ∀ c v, significantLines [c] = [⟨1, 0, [c]⟩] → isItem [c] = false →
      keyLine? [c] = none → readScalar? [c] = some v → readChars [c] = .ok v := by
    intro c v hlines hitem hentry hscalar
    rw [readChars, hlines, readLines_under rfl, readBlock_of_scalar hitem hentry]
    exact readScalarLines_singleton hscalar 1
  have hb : readChars ['b'] = .ok (.string "b") := hscalar 'b' _ (by decide) rfl (by decide) rfl
  have hc : readChars ['c'] = .ok (.string "c") := hscalar 'c' _ (by decide) rfl (by decide) rfl
  have under := readChars_compositional.2
  have below := readChars_compositional.1
  refine ⟨?_, ?_⟩
  · have hfirst := (under ['b'] _ (by decide) hb).2 ['a'] ['a'] ['a'] (by decide) (by decide)
      (by decide) 1 (Or.inl (by decide))
    have hsecond := (under ['c'] _ (by decide) hc).2 ['a'] ['a'] ['a'] (by decide) (by decide)
      (by decide) 2 (Or.inl (by decide))
    exact (below _ _ (by decide) (by decide)).2 _ _ (by simp) (by simp) hfirst hsecond
  · have hfirst := (under ['b'] _ (by decide) hb).1 1 (by decide)
    have hsecond := (under ['c'] _ (by decide) hc).1 1 (by decide)
    have hboth := (below _ _ (by decide) (by decide)).1 _ _ (by simp) (by simp) hfirst hsecond
    exact (under _ _ (by decide) hboth).2 ['a'] ['a'] ['a'] (by decide) (by decide) (by decide) 0
      (Or.inr ⟨_, _, rfl⟩)

end BlockQuery.Block

/-
  Results that are written one after the other stay apart.

  The lines of the block text of a value are its written rows, so none of them is a marker, whatever
  its strings and keys are; and a value that is no collection has one line only.  A marker line in a
  rendered stream is therefore one that was put between two results, and cutting the stream at its
  markers gives back the results in groups: a collection has a group of its own, and the other
  results stand together as long as no collection comes between them.

  The groups are found by going over the results from the last to the first.  What a result does to
  the groups behind it is decided by the separator in front of them: a marker opens a new group
  (`Grouped.part`), a line feed alone adds a line to the first one (`Grouped.join`).
-/
import BlockQuery.Command
import BlockQuery.Proofs.Written

namespace BlockQuery

namespace Block

/-! ## Lines of one value

  That no line is a marker is a fact about the rows: each of them has a text that may stand on a
  line, and the marker is none of these. -/

/-- A text that may stand on a line is no marker at any column. -/
theorem LineText.moved_ne_marker {cs : List Char} (h : LineText cs) (n : Nat) :
    moved n cs ≠ marker := by
  cases n with
  | zero => exact h.ne_marker
  | succ n =>
    -- a line that is indented starts with a space
    rw [moved, List.replicate_succ]
    rintro ⟨⟩

/-- The lines of the block text of a value are the lines that the writer gives. -/
theorem pieces_chars (step : Nat) (v : Value) :
    pieces (chars step v) = blockLines (max step 1) v := by
  have hstep := zero_lt_max_one step
  have hlayout := layout_writtenRows hstep v 0
  have hopened := opened_blockLines hstep v
  exact pieces_intercalate (hopened.ne_nil hlayout.ne_nil)
    (hopened.newline_not_mem hlayout.lineText)

/-- No line of the block text of a value is a marker. -/
theorem marker_not_mem_pieces_chars (step : Nat) (v : Value) :
    marker ∉ pieces (chars step v) := by
  have hstep := zero_lt_max_one step
  rw [pieces_chars, blockLines_eq_pieces hstep]
  intro hmem
  obtain ⟨r, hr, heq⟩ := List.mem_map.1 hmem
  have htext := (layout_writtenRows hstep v 0).lineText r hr
  exact htext.moved_ne_marker r.column (piece_nil r ▸ heq)

/-- A value that is no collection has one line. -/
theorem pieces_chars_of_isBlock {v : Value} (h : v.isBlock = false) (step : Nat) :
    pieces (chars step v) = [chars step v] := by
  have hlines : blockLines (max step 1) v = [renderScalar v] := by
    rw [blockLines_eq_pieces (zero_lt_max_one step), writtenRows_scalar h, List.map_singleton,
      piece_nil]
    rfl
  rw [pieces_chars, hlines, chars, hlines, List.intercalate_singleton]

end Block

namespace Command

open Block (pieces marker pieces_ne_nil pieces_append_newline pieces_chars_of_isBlock
  marker_not_mem_pieces_chars)

/-! ## Groups

  The definition has two kinds of group and says of neighbours that one of them is a collection,
  which is what makes the groups the longest possible.  The lemmas build the groups up from the
  end. -/

/-- Whether lines are what a group of results is written as: the text of a collection, or one line
    for each of some other results. -/
inductive WrittenAs (indent : Nat) : List Value → List (List Char) → Prop where
  | collection {v : Value} : v.isBlock = true →
      WrittenAs indent [v] (pieces (Block.chars indent v))
  | others {vs : List Value} : vs ≠ [] → (∀ v ∈ vs, v.isBlock = false) →
      WrittenAs indent vs (vs.map (Block.chars indent))

/-- Whether results, in order, are the given groups, these are written as the given runs of lines,
    and no two of them could be one: of two neighbours one is a collection. -/
structure Grouped (indent : Nat) (vs : List Value) (groups : List (List Value))
    (runs : List (List (List Char))) : Prop where
  flatten : groups.flatten = vs
  maximal : groups.IsChain fun g h => ∃ v ∈ g ++ h, v.isBlock = true
  written : List.Forall₂ (WrittenAs indent) groups runs

variable {indent : Nat} {v w : Value} {vs group : List Value} {groups : List (List Value)}
  {lines : List (List Char)} {runs : List (List (List Char))}

/-- A group holds something. -/
theorem WrittenAs.ne_nil (h : WrittenAs indent group lines) : group ≠ [] := by
  cases h with
  | collection _ => simp
  | others hne _ => exact hne

/-- A group that holds something else than a collection holds no collection. -/
theorem WrittenAs.cons (h : WrittenAs indent (w :: group) lines) (hv : v.isBlock = false)
    (hw : w.isBlock = false) :
    WrittenAs indent (v :: w :: group) (Block.chars indent v :: lines) := by
  cases h with
  | collection hblock =>
    rw [hw] at hblock
    cases hblock
  | others _ hall => exact .others (by simp) (List.forall_mem_cons.2 ⟨hv, hall⟩)

/-- A result alone is a group. -/
theorem writtenAs_singleton (indent : Nat) (v : Value) :
    WrittenAs indent [v] (pieces (Block.chars indent v)) := by
  cases hblock : v.isBlock with
  | true => exact .collection hblock
  | false =>
    rw [pieces_chars_of_isBlock hblock]
    exact .others (by simp) (by simpa using hblock)

/-- The first group of results starts with the first of them. -/
theorem Grouped.exists_cons (h : Grouped indent (w :: vs) groups runs) :
    ∃ group rest lines others, groups = (w :: group) :: rest ∧ runs = lines :: others ∧
      WrittenAs indent (w :: group) lines ∧ List.Forall₂ (WrittenAs indent) rest others := by
  obtain ⟨hflatten, -, hwritten⟩ := h
  cases hwritten with
  | nil => simp at hflatten
  | cons hfirst hrest =>
    obtain ⟨u, group, rfl⟩ := List.exists_cons_of_ne_nil hfirst.ne_nil
    obtain ⟨rfl, -⟩ : u = w ∧ _ := by simpa using hflatten
    exact ⟨group, _, _, _, rfl, rfl, hfirst, hrest⟩

/-- A single result is one group. -/
theorem grouped_singleton (indent : Nat) (v : Value) :
    Grouped indent [v] [[v]] [pieces (Block.chars indent v)] :=
  ⟨rfl, .singleton _, .cons (writtenAs_singleton indent v) .nil⟩

/-- Behind a marker a result does not belong to the group of those after it. -/
theorem Grouped.part (h : Grouped indent (w :: vs) groups runs)
    (hblock : v.isBlock = true ∨ w.isBlock = true) :
    Grouped indent (v :: w :: vs) ([v] :: groups) (pieces (Block.chars indent v) :: runs) := by
  obtain ⟨group, rest, _, _, rfl, rfl, -, -⟩ := h.exists_cons
  refine ⟨congrArg (v :: ·) h.flatten, ?_, .cons (writtenAs_singleton indent v) h.written⟩
  refine List.isChain_cons_cons.2 ⟨?_, h.maximal⟩
  rcases hblock with hv | hw
  · exact ⟨v, by simp, hv⟩
  · exact ⟨w, by simp, hw⟩

/-- Without a marker a result belongs to the group of those after it. -/
theorem Grouped.join (h : Grouped indent (w :: vs) groups runs) (hv : v.isBlock = false)
    (hw : w.isBlock = false) :
    ∃ groups', Grouped indent (v :: w :: vs) groups'
      (runs.modifyHead (Block.chars indent v :: ·)) := by
  obtain ⟨group, rest, lines, others, rfl, rfl, hfirst, hrest⟩ := h.exists_cons
  refine ⟨(v :: w :: group) :: rest, congrArg (v :: ·) h.flatten, ?_,
    .cons (hfirst.cons hv hw) hrest⟩
  -- a collection among two neighbours is still there
  have hmaximal := h.maximal
  cases rest with
  | nil => exact .singleton _
  | cons next rest =>
    rw [List.isChain_cons_cons] at hmaximal ⊢
    obtain ⟨⟨u, hu, hblock⟩, hmaximal⟩ := hmaximal
    exact ⟨⟨u, List.mem_cons_of_mem v hu, hblock⟩, hmaximal⟩

/-! ## Rendering

  Between two results there is a line feed, with a marker line if one of them is a collection.
  Cutting at markers cuts exactly there, because no other line is one. -/

/-- One result of block text, strings as they are in a document. -/
theorem renderValue_block (indent : Nat) (v : Value) :
    renderValue ⟨.block, false, indent⟩ v = Block.chars indent v := by
  cases v <;> rfl

/-- The text of two results and more: the first one, what separates it from the next, and the
    rest. -/
theorem renderChars_cons_cons (indent : Nat) (v w : Value) (vs : List Value) :
    renderChars ⟨.block, false, indent⟩ (v :: w :: vs) =
      Block.chars indent v ++ (separator ⟨.block, false, indent⟩ v w ++
        renderChars ⟨.block, false, indent⟩ (w :: vs)) := by
  rw [renderChars, renderValue_block]

/-- The lines of two results and more: between the first one and the others stands a marker if one
    of the first two is a collection. -/
theorem pieces_renderChars (indent : Nat) (v w : Value) (vs : List Value) :
    pieces (renderChars ⟨.block, false, indent⟩ (v :: w :: vs)) =
      pieces (Block.chars indent v) ++
        ((if v.isBlock || w.isBlock then [marker] else []) ++
          pieces (renderChars ⟨.block, false, indent⟩ (w :: vs))) := by
  have hseparator : separator ⟨.block, false, indent⟩ v w =
      if v.isBlock || w.isBlock then '\n' :: (marker ++ ['\n']) else ['\n'] := rfl
  rw [renderChars_cons_cons, hseparator]
  split
  · have hmarker : pieces marker = [marker] := by decide
    rw [List.cons_append, pieces_append_newline, List.append_assoc, List.singleton_append,
      pieces_append_newline, hmarker]
  · rw [List.singleton_append, pieces_append_newline, List.nil_append]

/-- Cut at its markers, a rendered stream is the groups of its results. -/
theorem exists_grouped (indent : Nat) (v : Value) (vs : List Value) :
    ∃ groups, Grouped indent (v :: vs) groups
      ((pieces (renderChars ⟨.block, false, indent⟩ (v :: vs))).splitOn marker) := by
  induction vs generalizing v with
  | nil =>
    have htext : renderChars ⟨.block, false, indent⟩ [v] = Block.chars indent v := by
      rw [renderChars, renderValue_block, List.append_nil]
    rw [htext, List.splitOn_eq_singleton (marker_not_mem_pieces_chars indent v)]
    exact ⟨[[v]], grouped_singleton indent v⟩
  | cons w vs ih =>
    obtain ⟨groups, hgroups⟩ := ih w
    rw [pieces_renderChars]
    cases hblock : v.isBlock || w.isBlock with
    | true =>
      rw [if_pos rfl, List.singleton_append, List.splitOn_append_cons_of_beq _ _ (by decide),
        List.splitOn_eq_singleton (marker_not_mem_pieces_chars indent v)]
      exact ⟨[v] :: groups, hgroups.part (by simpa using hblock)⟩
    | false =>
      obtain ⟨hv, hw⟩ := Bool.or_eq_false_iff.1 hblock
      -- the one line of the result goes to the first run, for it is no marker
      have hline : (Block.chars indent v == marker) = false := by
        have hmarker := marker_not_mem_pieces_chars indent v
        rw [pieces_chars_of_isBlock hv, List.mem_singleton] at hmarker
        exact beq_false_of_ne (Ne.symm hmarker)
      rw [if_neg (by simp), List.nil_append, pieces_chars_of_isBlock hv, List.singleton_append,
        List.splitOn_cons_eq_if_modifyHead, hline, if_neg (by simp)]
      exact hgroups.join hv hw

/-- **Rendered results stay apart.**  No line of the block text of a value is a marker, and a value
    that is no collection has one line.  The lines of a rendered stream, cut at the markers, are the
    texts of its results in order: one group for each collection, with the lines of its text, and
    one for each longest run of other results, with one line for each. -/
theorem render_groups (indent : Nat) :
    (∀ v, marker ∉ pieces (Block.chars indent v)) ∧
    (∀ v, v.isBlock = false → pieces (Block.chars indent v) = [Block.chars indent v]) ∧
    ∀ vs ≠ [], ∃ groups, Grouped indent vs groups
      ((pieces (render ⟨.block, false, indent⟩ vs).toList).splitOn marker) := by
  refine ⟨marker_not_mem_pieces_chars indent, fun v hv => pieces_chars_of_isBlock hv indent, ?_⟩
  intro vs hvs
  obtain ⟨v, vs, rfl⟩ := List.exists_cons_of_ne_nil hvs
  rw [render, String.toList_ofList]
  exact exists_grouped indent v vs

/-- A text that looks like a marker stands in quotes, next to a result on one line and between two
    collections. -/
theorem render_groups_marker :
    let first := Value.mapping [("---", .sequence [.string "---"])]
    let last := Value.sequence [.null]
    let vs := [first, .string "---", .null, last]
    (Value.string "---").isBlock = false ∧ vs ≠ [] ∧
      pieces (Block.chars 2 (.string "---")) = ["\"---\"".toList] ∧
      (pieces (render ⟨.block, false, 2⟩ vs).toList).splitOn marker =
        [["\"---\":".toList, "  - \"---\"".toList], ["\"---\"".toList, "null".toList],
          ["- null".toList]] ∧
      ∃ groups, Grouped 2 vs groups
        ((pieces (render ⟨.block, false, 2⟩ vs).toList).splitOn marker) := by
  intro first last vs
  have hstring : (Value.string "---").isBlock = false := rfl
  have hvs : vs ≠ [] := by simp [vs]
  exact ⟨hstring, hvs, (render_groups 2).2.1 _ hstring, by decide, (render_groups 2).2.2 vs hvs⟩

end Command

end BlockQuery

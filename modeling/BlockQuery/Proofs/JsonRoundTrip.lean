/-
  JSON text that is written, read back as a document.

  Both writers make layouts: what the pretty one adds are blanks, in front of elements and keys and
  in front of closing brackets (`jsonLayout_prettyChars`).  A text that opens with a bracket is
  taken as JSON, so the document of such a text is what its layout is read as.

  Nothing is read in this module: that every layout is read as its tree, and the tree as the value,
  is known already.  What is left is to see the texts of the two writers as layouts, and for this
  both writers are one scheme, with what stands in front of a line as its parameter
  (`itemsLayout_of_cons`, `entriesLayout_of_cons`).
-/
import BlockQuery.Proofs.JsonLayout

namespace BlockQuery

open Text (quote)

namespace Json

variable {gap : List Char}

/-! ## Texts of the writers

  Both writers are recursive functions with companions for elements and entries.  What they have in
  common are two equations, for the end of a collection and for one more part in front of it, and
  these are the hypotheses of the lemmas. -/

/-- A key as the compact writer has it. -/
theorem KeyLayout.quote (k : String) : KeyLayout k (Text.quote k.toList ++ [':']) :=
  @KeyLayout.mk k [] [] nofun nofun

/-- Blanks may stand in front of a key. -/
theorem KeyLayout.blanks {k : String} {key : List Char} (h : KeyLayout k key) (hgap : Blanks gap) :
    KeyLayout k (gap ++ key) := by
  obtain ⟨hfront, hbehind⟩ := h
  rw [← List.append_assoc]
  refine .mk ?_ hbehind
  exact fun c hc => (List.mem_append.1 hc).elim (hgap c) (hfront c)

/-- A writer that puts a comma in front of each further element makes a layout. -/
theorem itemsLayout_of_cons (text : Value → List Char) {close : List Char}
    (tail : List Value → List Char) (hclose : Blanks close) (hnil : tail [] = close ++ [']'])
    (hcons : ∀ v vs, tail (v :: vs) = ',' :: (text v ++ tail vs)) {vs : List Value}
    (hvs : ∀ v ∈ vs, JsonLayout v (text v)) : ItemsLayout vs (tail vs) := by
  induction vs with
  | nil => exact hnil ▸ .close hclose
  | cons v vs ih =>
    rw [List.forall_mem_cons] at hvs
    rw [hcons]
    exact @ItemsLayout.comma _ _ [] _ _ nofun hvs.1 (ih hvs.2)

/-- The same for entries, each with the text of its key in front. -/
theorem entriesLayout_of_cons (key : String → List Char) (text : Value → List Char)
    {close : List Char} (tail : Entries → List Char) (hkey : ∀ k, KeyLayout k (key k))
    (hclose : Blanks close) (hnil : tail [] = close ++ ['}'])
    (hcons : ∀ k v es, tail ((k, v) :: es) = ',' :: (key k ++ (text v ++ tail es))) {es : Entries}
    (hes : ∀ e ∈ es, JsonLayout e.2 (text e.2)) : EntriesLayout es (tail es) := by
  induction es with
  | nil => exact hnil ▸ .close hclose
  | cons e es ih =>
    obtain ⟨k, v⟩ := e
    rw [List.forall_mem_cons] at hes
    rw [hcons]
    exact @EntriesLayout.comma _ _ _ [] _ _ _ nofun (hkey k) hes.1 (ih hes.2)

/-- The compact text is a layout without blanks. -/
theorem jsonLayout_jsonChars (v : Value) : JsonLayout v v.jsonChars := by
  induction v using Value.induct with
  | sequence items ih =>
    cases items with
    | nil => exact @JsonLayout.emptySequence [] nofun
    | cons v vs =>
      rw [List.forall_mem_cons] at ih
      have htail := @itemsLayout_of_cons Value.jsonChars []
        (fun vs => (if vs.isEmpty then [] else ',' :: Value.jsonItems vs) ++ [']'])
        nofun rfl (fun v vs => by simp [Value.jsonItems]) vs ih.2
      simpa [Value.jsonChars, Value.jsonItems] using JsonLayout.sequence ih.1 htail
  | mapping es ih =>
    cases es with
    | nil => exact @JsonLayout.emptyMapping [] nofun
    | cons e es =>
      obtain ⟨k, v⟩ := e
      rw [List.forall_mem_cons] at ih
      have htail := @entriesLayout_of_cons (fun k => quote k.toList ++ [':']) Value.jsonChars []
        (fun es => (if es.isEmpty then [] else ',' :: Value.jsonEntries es) ++ ['}'])
        .quote nofun rfl (fun k v es => by simp [Value.jsonEntries]) es ih.2
      simpa [Value.jsonChars, Value.jsonEntries] using JsonLayout.mapping (.quote k) ih.1 htail
  | _ => exact .scalar rfl

/-- What stands in front of a line at a level. -/
def lineStart (level : Nat) : List Char :=
  '\n' :: Value.jsonIndent level

/-- A line feed and an indent are blanks of JSON. -/
theorem blanks_lineStart (level : Nat) : Blanks (lineStart level) := by
  intro c hc
  rcases List.mem_cons.1 hc with rfl | hc
  · decide
  · rw [List.eq_of_mem_replicate hc]
    decide

/-- The text over several lines is a layout. -/
theorem jsonLayout_prettyChars (v : Value) (level : Nat) : JsonLayout v (v.prettyChars level) := by
  induction v using Value.induct generalizing level with
  | sequence items ih =>
    cases items with
    | nil => exact @JsonLayout.emptySequence [] nofun
    | cons v vs =>
      have hitems : ∀ w ∈ v :: vs,
          JsonLayout w (lineStart (level + 1) ++ w.prettyChars (level + 1)) := fun w hw =>
        .blanks (blanks_lineStart _) (ih w hw _)
      rw [List.forall_mem_cons] at hitems
      have htail := @itemsLayout_of_cons
        (fun v => lineStart (level + 1) ++ v.prettyChars (level + 1)) (lineStart level)
        (fun vs => (if vs.isEmpty then ['\n'] else ',' :: '\n' :: Value.prettyItems level vs) ++
          (Value.jsonIndent level ++ [']']))
        (blanks_lineStart _) rfl (fun v vs => by simp [Value.prettyItems, lineStart]) vs hitems.2
      simpa [Value.prettyChars, Value.prettyItems, lineStart] using
        JsonLayout.sequence hitems.1 htail
  | mapping es ih =>
    cases es with
    | nil => exact @JsonLayout.emptyMapping [] nofun
    | cons e es =>
      obtain ⟨k, v⟩ := e
      have hkey : ∀ k : String,
          KeyLayout k (lineStart (level + 1) ++ (quote k.toList ++ [':'])) := fun k =>
        (KeyLayout.quote k).blanks (blanks_lineStart _)
      have hentries : ∀ e ∈ (k, v) :: es, JsonLayout e.2 ([' '] ++ e.2.prettyChars (level + 1)) :=
        fun e he => .blanks (List.forall_mem_singleton.2 rfl) (ih e he _)
      rw [List.forall_mem_cons] at hentries
      have htail := @entriesLayout_of_cons
        (fun k => lineStart (level + 1) ++ (quote k.toList ++ [':']))
        (fun v => [' '] ++ v.prettyChars (level + 1)) (lineStart level)
        (fun es => (if es.isEmpty then ['\n'] else ',' :: '\n' :: Value.prettyEntries level es) ++
          (Value.jsonIndent level ++ ['}']))
        hkey (blanks_lineStart _) rfl (fun k v es => by simp [Value.prettyEntries, lineStart]) es
        hentries.2
      simpa [Value.prettyChars, Value.prettyEntries, lineStart] using
        JsonLayout.mapping (hkey k) hentries.1 htail
  | _ => exact .scalar rfl

end Json

namespace Command

open Json

/-- A text whose first character, blanks of JSON apart, opens a collection is taken as JSON. -/
theorem looksLikeJson_of_skip {cs more : List Char} {c : Char} (h : skip cs = c :: more)
    (hc : c = '[' ∨ c = '{') : looksLikeJson cs = true := by
  have hblanks : ∀ d ∈ cs.takeWhile Json.isBlank, Text.isBlank d = true := by
    intro d hd
    have hblank := List.mem_takeWhile_imp hd
    simp only [Json.isBlank, Bool.or_eq_true, beq_iff_eq] at hblank
    rcases hblank with ((rfl | rfl) | rfl) | rfl
    all_goals decide
  have hsplit : cs = cs.takeWhile Json.isBlank ++ c :: more := by
    rw [← h]
    exact List.takeWhile_append_dropWhile.symm
  have htight : Text.StartsTight (c :: more) := by
    rintro _ ⟨⟩
    rcases hc with rfl | rfl
    all_goals decide
  rw [looksLikeJson, hsplit, Text.trimStart_blanks_append htight hblanks]
  rcases hc with rfl | rfl
  all_goals rfl

/-- A document that is a layout of a collection holds the value of its tree. -/
theorem readDocument_layout {v w : Value} {text : String} (h : JsonLayout v text.toList)
    (hv : v.kind = .sequence ∨ v.kind = .mapping) (hnesting : v.nesting ≤ maxNesting)
    (hkeys : v.DistinctKeys) (hnumbers : v.EveryNumber Decimal.FitsWord)
    (hvalue : v.tree.toValue = .ok w) : readDocument text = .ok w := by
  have hcollection : v.nesting ≠ 0 := by
    cases v with
    | sequence items => exact Nat.succ_ne_zero _
    | mapping es => exact Nat.succ_ne_zero _
    | _ => rcases hv with hv | hv <;> cases hv
  have hread := h.readsBack hkeys hnumbers maxNesting [] text.toList hnesting nofun
    (by rw [List.append_nil])
  obtain ⟨c, more, hskip, -, hopen⟩ := h.opens
  rw [readDocument, if_pos (looksLikeJson_of_skip hskip (hopen hcollection)), readJson,
    ofChars?_of_takes hread]
  simp only [hvalue]
  rfl

/-- **JSON that is written is read back.**  The compact and the pretty text of a collection with at
    most 127 collections inside each other, distinct keys, and integers of 64 bits as its numbers
    are read as one document, which is equal to the collection and has its entries in the same
    order. -/
theorem readDocument_toJson {v : Value} (hv : v.kind = .sequence ∨ v.kind = .mapping)
    (hnesting : v.nesting ≤ 127) (hkeys : v.DistinctKeys)
    (hnumbers : v.EveryNumber Decimal.FitsWord) :
    ∃ w, readDocument v.toJson = .ok w ∧ readDocument v.toPrettyJson = .ok w ∧
      w.same v = true ∧ w.sameInOrder v = true := by
  obtain ⟨w, hvalue, hsame⟩ := Value.exists_toValue_tree hkeys hnumbers
  refine ⟨w, ?_, ?_, Value.same_of_sameInOrder hkeys hsame, hsame⟩
  · refine readDocument_layout ?_ hv hnesting hkeys hnumbers hvalue
    rw [Value.toJson, String.toList_ofList]
    exact jsonLayout_jsonChars v
  · refine readDocument_layout ?_ hv hnesting hkeys hnumbers hvalue
    rw [Value.toPrettyJson, String.toList_ofList]
    exact jsonLayout_prettyChars v 0

/-- Collections that are empty or stand in each other, characters that are escaped, and numbers at
    both bounds; the sign of a zero is lost. -/
theorem readDocument_toJson_nested :
    let minusZero : Decimal := ⟨true, 0, 0, by decide, by decide⟩
    let least : Decimal := ⟨true, 2 ^ 63, 0, by decide, by decide⟩
    let greatest : Decimal := .ofNat (2 ^ 64 - 1)
    let v : Value := .mapping
      [("b", .sequence [.number minusZero, .number least, .number greatest, .mapping []]),
        ("a\n\"", .mapping [("", .string "\\\t"), ("\u0001", .sequence [])]), ("c", .null)]
    (v.kind = .mapping ∧ v.nesting ≤ 127 ∧ v.DistinctKeys ∧ v.EveryNumber Decimal.FitsWord) ∧
      ∃ w, readDocument v.toJson = .ok w ∧ readDocument v.toPrettyJson = .ok w ∧
        w.same v = true ∧ w.sameInOrder v = true := by
  intro minusZero least greatest v
  have hkind : v.kind = .mapping := rfl
  have hnesting : v.nesting ≤ 127 := by decide
  have hkeys : v.DistinctKeys := by decide
  have hnumbers : v.EveryNumber Decimal.FitsWord := by decide
  exact ⟨⟨hkind, hnesting, hkeys, hnumbers⟩,
    readDocument_toJson (Or.inr hkind) hnesting hkeys hnumbers⟩

end Command

end BlockQuery

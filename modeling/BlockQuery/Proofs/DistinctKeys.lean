/-
  What the block reader can build.

  Everything that is read is a scalar, a sequence of values that were read, or a mapping gathered
  from pairs of a key and a value that was read.  A property that these three keep holds of all read
  values (`readBelow_invariant`); that the keys of mappings are distinct is one.  The induction is
  on the weight of the lines, on which the reader is founded; what one of its steps gives is stated
  first (`readItems_eq_ok`, `readEntries_eq_ok`).

  The invariant is stated for any property that null and the scalars have and that both kinds of
  collection keep, with these as hypotheses of a section.  A mapping is gathered from pairs that may
  repeat a key, so what is kept for it is stated of the gathered entries, where the later value of a
  key has taken the place of the earlier one.
-/
import BlockQuery.Proofs.BlockSteps
import BlockQuery.Proofs.Except
import BlockQuery.Proofs.Tree

namespace BlockQuery.Block

open Value

/-! ## What a step gives

  A reader that has a result went through one of its branches, and the lines were cut in that
  branch.  The two lemmas name the cuts, so that the induction can be applied to the pieces. -/

/-- The first element that is read comes from its lines, the others from the lines behind. -/
theorem readItems_eq_ok {c : Nat} {l : Line} {rest : List Line} {vs : List Value}
    (h : readItems c (l :: rest) = .ok vs) :
    l.indent = c ∧ isItem l.text = true ∧ ∃ v ws,
      readBelow (dashBlock l (rest.takeWhile (isDeeper c))) = .ok v ∧
        readItems c (rest.dropWhile (isDeeper c)) = .ok ws ∧ vs = v :: ws := by
  by_cases hcolumn : l.indent = c
  · by_cases hitem : isItem l.text = true
    · rw [readItems_cons hcolumn hitem] at h
      obtain ⟨v, hv, h⟩ := bind_eq_ok.1 h
      obtain ⟨ws, hws, h⟩ := bind_eq_ok.1 h
      cases h
      exact ⟨hcolumn, hitem, v, ws, hv, hws, rfl⟩
    · rw [readItems_of_not_item hcolumn hitem] at h
      cases h
  · rw [readItems_of_indent_ne hcolumn] at h
    cases h

/-- The first entry that is read comes from its lines, the others from the lines behind. -/
theorem readEntries_eq_ok {c : Nat} {l : Line} {rest : List Line} {es : Entries}
    (h : readEntries c (l :: rest) = .ok es) :
    ∃ k key v fs, keyLine? l.text = some k ∧ readKey? k.key = some key ∧
      es = (String.ofList key, v) :: fs ∧
      ((∃ text, readScalarLines l.number
          (text :: (rest.takeWhile (isDeeper c)).map (·.text)) = .ok v ∧
          readEntries c (rest.dropWhile (isDeeper c)) = .ok fs) ∨
        (readBelow (rest.takeWhile (belongsBelow c rest)) = .ok v ∧
          readEntries c (rest.dropWhile (belongsBelow c rest)) = .ok fs)) := by
  rw [readEntries] at h
  split at h
  · cases h
  split at h
  · cases h
  split at h
  · cases h
  rename_i k hk
  split at h
  · cases h
  rename_i key hkey
  split at h
  · obtain ⟨v, hv, h⟩ := bind_eq_ok.1 h
    obtain ⟨fs, hfs, h⟩ := bind_eq_ok.1 h
    cases h
    exact ⟨k, key, v, fs, hk, hkey, rfl, Or.inl ⟨_, hv, hfs⟩⟩
  · obtain ⟨v, hv, h⟩ := bind_eq_ok.1 h
    obtain ⟨fs, hfs, h⟩ := bind_eq_ok.1 h
    cases h
    exact ⟨k, key, v, fs, hk, hkey, rfl, Or.inr ⟨hv, hfs⟩⟩

/-! ## The lines of a step weigh less

  The reader is founded on the weight of lines, which counts their characters.  Behind a dash there
  is less text on the line, and what was cut off is less than all. -/

/-- What is read as an element weighs less than the lines with its dash. -/
theorem weight_dashBlock_lt {l : Line} (h : isItem l.text = true) (below : List Line) :
    weight (dashBlock l below) < weight (l :: below) := by
  have hlength := length_afterDash_lt h
  rw [dashBlock]
  split
  · simp only [weight]
    omega
  · simp only [weight]
    omega

/-! ## Invariants of what is read

  Three functions read blocks, elements and entries, and each calls the others.  So the invariant is
  proved of all three at once, by strong induction on the weight; the dash of an element is what
  makes the lines lighter. -/

section Invariant

variable {P : Value → Prop} (null : P .null)
  (scalar : ∀ cs v, readScalar? cs = some v → P v)
  (sequence : ∀ items, (∀ v ∈ items, P v) → P (.sequence items))
  (mapping : ∀ pairs : Entries, (∀ e ∈ pairs, P e.2) → P (.mapping (Entries.ofPairs pairs)))

include scalar in
/-- Text on one or more lines is a scalar, if it is read at all. -/
theorem readScalarLines_invariant {number : Nat} {texts : List (List Char)} {v : Value}
    (h : readScalarLines number texts = .ok v) : P v := by
  unfold readScalarLines at h
  split at h
  · rename_i w hw
    cases h
    exact scalar _ _ hw
  · cases h

include null scalar sequence mapping in
/-- What holds of scalars, of sequences of read values and of mappings gathered from them holds of
    every block that is read. -/
theorem readBelow_invariant (ls : List Line) :
    (∀ c vs, readItems c ls = .ok vs → ∀ v ∈ vs, P v) ∧
      (∀ c es, readEntries c ls = .ok es → ∀ e ∈ es, P e.2) ∧
        ∀ v, readBelow ls = .ok v → P v := by
  -- the three go together: elements and entries are read from blocks, and blocks from them
  induction hw : weight ls using Nat.strong_induction_on generalizing ls with
  | _ n ih =>
    cases ls with
    | nil =>
      refine ⟨?_, ?_, ?_⟩
      · intro c vs h
        rw [readItems] at h
        cases h
        simp
      · intro c es h
        rw [readEntries] at h
        cases h
        simp
      · intro v h
        rw [readBelow] at h
        cases h
        exact null
    | cons l rest =>
      simp only [weight] at hw
      have hitems : ∀ c vs, readItems c (l :: rest) = .ok vs → ∀ v ∈ vs, P v := by
        intro c vs h
        obtain ⟨-, hitem, v, ws, hv, hws, rfl⟩ := readItems_eq_ok h
        have htake := weight_takeWhile_le (isDeeper c) rest
        have hdrop := weight_dropWhile_le (isDeeper c) rest
        have hdash := weight_dashBlock_lt hitem (rest.takeWhile (isDeeper c))
        simp only [weight] at hdash
        exact List.forall_mem_cons.2
          ⟨(ih _ (by omega) _ rfl).2.2 v hv, (ih _ (by omega) _ rfl).1 c ws hws⟩
      have hentries : ∀ c es, readEntries c (l :: rest) = .ok es → ∀ e ∈ es, P e.2 := by
        intro c es h
        obtain ⟨k, key, v, fs, -, -, rfl, ⟨text, hv, hfs⟩ | ⟨hv, hfs⟩⟩ := readEntries_eq_ok h
        · have hdrop := weight_dropWhile_le (isDeeper c) rest
          exact List.forall_mem_cons.2
            ⟨readScalarLines_invariant scalar hv, (ih _ (by omega) _ rfl).2.1 c fs hfs⟩
        · have htake := weight_takeWhile_le (belongsBelow c rest) rest
          have hdrop := weight_dropWhile_le (belongsBelow c rest) rest
          exact List.forall_mem_cons.2
            ⟨(ih _ (by omega) _ rfl).2.2 v hv, (ih _ (by omega) _ rfl).2.1 c fs hfs⟩
      refine ⟨hitems, hentries, ?_⟩
      intro v h
      rw [readBelow_cons, readBlock] at h
      split at h
      · obtain ⟨vs, hvs, rfl⟩ := map_eq_ok.1 h
        exact sequence vs (hitems _ vs hvs)
      split at h
      · obtain ⟨es, hes, rfl⟩ := map_eq_ok.1 h
        exact mapping es (hentries _ es hes)
      · exact readScalarLines_invariant scalar h

include null scalar sequence mapping in
/-- The same of every document. -/
theorem readChars_invariant {cs : List Char} {v : Value} (h : readChars cs = .ok v) : P v := by
  have hbelow := readBelow_invariant null scalar sequence mapping (significantLines cs)
  unfold readChars readLines at h
  split at h
  · cases h
    exact null
  · rename_i first rest hlines
    split at h
    · cases h
    · rw [hlines, readBelow_cons] at hbelow
      exact hbelow.2.2 v h

end Invariant

/-! ## Keys

  The property of distinct keys is kept because gathering removes repetitions.  Scalars have it for
  another reason, as the only collections among them are empty. -/

/-- A text without quotes is no collection with something in it. -/
theorem isBlock_of_plainScalar? {cs : List Char} {v : Value} (h : plainScalar? cs = some v) :
    v.isBlock = false := by
  unfold plainScalar? at h
  split at h
  · cases h
    rfl
  split at h
  · cases h
    rfl
  split at h
  · cases h
    rfl
  split at h
  · cases h
    rfl
  split at h
  · cases h
    rfl
  · obtain ⟨n, -, rfl⟩ := Option.map_eq_some_iff.1 h
    rfl

/-- A scalar text is never a collection with something in it. -/
theorem isBlock_of_readScalar? {cs : List Char} {v : Value} (h : readScalar? cs = some v) :
    v.isBlock = false := by
  unfold readScalar? at h
  split at h
  · cases h
    rfl
  · cases h
  · obtain rfl := Option.some.inj h
    cases hplain : plainScalar? cs with
    | none => rfl
    | some v => exact isBlock_of_plainScalar? hplain

/-- Nor is a scalar on several lines. -/
theorem isBlock_of_readScalarLines {number : Nat} {texts : List (List Char)} {v : Value}
    (h : readScalarLines number texts = .ok v) : v.isBlock = false :=
  readScalarLines_invariant (P := fun v => v.isBlock = false) (fun _ _ => isBlock_of_readScalar?) h

/-- **The keys of every mapping in a document that is read are distinct.** -/
theorem distinctKeys_of_readChars {cs : List Char} {v : Value} (h : readChars cs = .ok v) :
    v.DistinctKeys := by
  refine readChars_invariant ?null ?scalar ?sequence ?mapping h
  case null => exact distinctKeys_of_isBlock rfl
  case scalar =>
    intro cs v hv
    exact distinctKeys_of_isBlock (isBlock_of_readScalar? hv)
  case sequence =>
    intro items hitems
    exact distinctKeys_sequence.2 hitems
  case mapping =>
    intro pairs hpairs
    refine distinctKeys_mapping.2 ⟨Entries.nodup_keys_ofPairs pairs, ?_⟩
    intro e he
    exact hpairs e (Entries.mem_of_mem_ofPairs he)

end BlockQuery.Block
